import Stencil.Proofs.Rewrite.Sealed
import Stencil.Proofs.Rewrite.TypeText

/-!
# Properties that patches leave

A stretch keeps a property if its tokens have it once the patches are put in. The properties in
question hold of tokens one after the other if they hold of each part, and of well-nested tokens within a
pair of brackets.

Results: stretches one after the other and stretches within brackets keep a property that their parts
keep (`Keeps.append`, `Keeps.pair`), and so does a stretch that is replaced as a whole if what replaces
it has the property (`Keeps.patch`).
-/

namespace Stencil.Rewrite

open Stretch

variable {j : Job} {text : String} {p q : Nat} {P : List Mark → Prop} {a b : Stretch}
  {px py : List Patch}

/-- What the grammar sees of the template. -/
abbrev Job.script (j : Job) : Script :=
  .ofSource j.source j.vocabulary.intrinsics

/-! ## Properties of tokens -/

/-- Does the property hold of tokens one after the other if it holds of each part, and of well-nested
tokens within brackets? -/
structure Joint (P : List Mark → Prop) : Prop where
  nil : P []
  append {xs ys : List Mark} : P xs → P ys → P (xs ++ ys)
  wrap {x y : Mark} {xs : List Mark} (d : Delimiter) : x.kind = d.opening → y.kind = d.closing →
    Balanced xs → P ([x] ++ xs ++ [y])

theorem joint_balanced : Joint Balanced :=
  ⟨.nil, .append, .wrap⟩

theorem joint_sealed {lists : List Mark → Prop} : Joint (Sealed lists) :=
  ⟨.nil, .append, .wrap⟩

/-! ## Stretches -/

/-- With the patches put in, do the tokens of each such stretch have the property? -/
def Keeps (j : Job) (P : List Mark → Prop) (a : Stretch) (px : List Patch) : Prop :=
  ∀ ⦃p q⦄, a p q → q ≤ j.source.code.size → ∃ xs, Renders j p q px xs ∧ P xs

namespace Keeps

theorem mono (h : Keeps j P a px) (hab : ∀ ⦃p q⦄, b p q → a p q) : Keeps j P b px :=
  fun _ _ hb hq => h (hab hb) hq

theorem imp {Q : List Mark → Prop} (h : Keeps j P a px) (hPQ : ∀ {xs}, P xs → Q xs) : Keeps j Q a px := by
  intro p q ha hq
  obtain ⟨xs, hxs, hx⟩ := h ha hq
  exact ⟨xs, hxs, hPQ hx⟩

theorem within {e : Extent} (h : Keeps j P a px) : Keeps j P (within e a) px :=
  h.mono fun _ _ h => h.1

theorem given {c : Prop} (h : Keeps j P a px) : Keeps j P (given c a) px :=
  h.mono fun _ _ h => h.2

theorem any {ι : Type} {f : ι → Stretch} (h : ∀ i, Keeps j P (f i) px) : Keeps j P (any f) px :=
  fun _ _ ⟨i, hi⟩ hq => h i hi hq

/-- What is rendered on its own has the property. -/
theorem rendered (hj : j.IsReady text) (h : Keeps j P a px) {e : Extent} (ha : Stretch.within e a p q)
    (hq : q ≤ j.source.code.size) : P (j.marks (j.rendered e px)) := by
  obtain ⟨ha, rfl⟩ := ha
  obtain ⟨xs, hxs, hx⟩ := h ha hq
  rwa [hxs.marks_rendered hj hq]

/-- A stretch that is replaced as a whole. -/
theorem patch (hj : j.IsReady text) {e : Extent} {cs : List Chunk} (hstrict : ∀ ⦃p q⦄, a p q → p < q)
    (hcs : ∀ ⦃p q⦄, a p q → q ≤ j.source.code.size → P (j.marks cs)) :
    Keeps j P (Stretch.within e a) [⟨j.source.range e, cs⟩] := by
  rintro p q ⟨h, rfl⟩ hq
  exact ⟨_, .patch_range hj (hstrict h) hq cs, hcs h hq⟩

section

variable (hj : j.IsReady text) (hP : Joint P)
include hP

theorem empty : Keeps j P .empty [] := by
  rintro p q h -
  obtain rfl := empty_iff.1 h
  exact ⟨[], .nil, hP.nil⟩

theorem optional (ha : Keeps j P a []) : Keeps j P (optional a) [] := by
  rintro p q (rfl | h) hq
  · exact ⟨[], .nil, hP.nil⟩
  · exact ha h hq

include hj

omit hP in
/-- Stretches one after the other, where each has a property of its own. -/
theorem joined {Q R : List Mark → Prop} (hR : ∀ {xs ys}, P xs → Q ys → R (xs ++ ys))
    (ha : Keeps j P a px) (hb : Keeps j Q b py) : Keeps j R (a ++ b) (px ++ py) := by
  rintro p q ⟨m, h, h'⟩ hq
  obtain ⟨xs, hxs, hx⟩ := ha h (Nat.le_trans (b.le h') hq)
  obtain ⟨ys, hys, hy⟩ := hb h' hq
  exact ⟨xs ++ ys, .append hj hxs hys, hR hx hy⟩

theorem append (ha : Keeps j P a px) (hb : Keeps j P b py) : Keeps j P (a ++ b) (px ++ py) :=
  joined hj hP.append ha hb

theorem times (ha : Keeps j P a []) (n : Nat) : Keeps j P (times a n) [] := by
  induction n with
  | zero => exact .empty hP
  | succ n ih => exact ha.append hj hP ih

omit hP in
theorem wordOf {Q : Kind → Prop} (hQ : ∀ x : Mark, Q x.kind → P [x]) :
    Keeps j P (wordOf j.script Q) [] := by
  rintro p q ⟨hk, rfl⟩ hq
  rw [Source.kind_ofSource hq] at hk
  exact ⟨_, .token hj hq, hQ _ hk⟩

omit hP in
theorem word {k : Kind} (hk : ∀ x : Mark, x.kind = k → P [x]) :
    Keeps j P (word j.script k) [] :=
  wordOf hj hk

theorem words {ks : List Kind} (hks : ∀ k ∈ ks, ∀ x : Mark, x.kind = k → P [x]) :
    Keeps j P (words j.script ks) [] := by
  induction ks with
  | nil => exact .empty hP
  | cons k ks ih =>
    rw [List.forall_mem_cons] at hks
    exact (word hj hks.1).append hj hP (ih hks.2)

theorem run {Q : Kind → Prop} (hQ : ∀ x : Mark, Q x.kind → P [x]) :
    Keeps j P (run j.script Q) [] := by
  rintro p q ⟨hpq, hall⟩ hq
  induction hd : q - p generalizing p with
  | zero =>
    obtain rfl : p = q := by omega
    exact ⟨[], .nil, hP.nil⟩
  | succ d ih =>
    have hkind := hall p (Nat.le_refl p) (by omega)
    rw [Source.kind_ofSource (by omega)] at hkind
    obtain ⟨xs, hxs, hx⟩ := ih (show p + 1 ≤ q by omega) (fun i hi => hall i (by omega)) (by omega)
    exact ⟨_, .append hj (.token hj (by omega)) hxs, hP.append (hQ _ hkind) hx⟩

/-- A pair of brackets. -/
theorem pair (d : Delimiter) (ha : Keeps j Balanced a px) : Keeps j P
    (Stretch.word j.script d.opening ++ a
      ++ Stretch.word j.script d.closing) px := by
  rintro p q ⟨m, ⟨m', ⟨hopening, rfl⟩, h⟩, hclosing, rfl⟩ hq
  have hm := a.le h
  obtain ⟨xs, hxs, hx⟩ := ha h (by omega)
  rw [Source.kind_ofSource (by omega)] at hopening hclosing
  have hall := Renders.append hj (Renders.append hj (Renders.token hj (show p < _ by omega)) hxs)
    (Renders.token hj (show m < _ by omega))
  rw [List.nil_append, List.append_nil] at hall
  exact ⟨_, hall, hP.wrap d hopening hclosing hx⟩

/-- A pair of brackets behind a stretch. -/
theorem pairBehind (d : Delimiter) (hb : Keeps j P b py) (ha : Keeps j Balanced a px) : Keeps j P
    (b ++ Stretch.word j.script d.opening ++ a
      ++ Stretch.word j.script d.closing) (py ++ px) :=
  (hb.append hj hP (ha.pair hj hP d)).mono fun _ _ ⟨m, ⟨m', ⟨n, hb, hopening⟩, ha⟩, hclosing⟩ =>
    ⟨n, hb, m, ⟨m', hopening, ha⟩, hclosing⟩

/-- Dimensions. -/
theorem dims (n : Nat) : Keeps j P (Stretch.dims j.script n) [] := by
  refine times hj hP ?_ n
  exact ((Keeps.empty joint_balanced).pair hj hP .bracket).mono
    fun p _ ⟨m, hopening, hclosing⟩ => ⟨m, ⟨m, hopening, rfl⟩, hclosing⟩

omit hP in
/-- A name, with what it is replaced by if it changes. -/
theorem nameOf {i : Ident} {name? : Option String}
    (hword : ∀ x : Mark, x.kind = .identifier ∨ x.kind.isPrimitiveType = true → P [x])
    (hname : isName i.name = true → IsWordText (name?.getD i.name)) :
    Keeps j P (nameOf j.script i) (j.renamedPatch i name?) := by
  rintro p q h hq
  have hisName := ((hj.isSpelled j.vocabulary.intrinsics).verbatim_of_nameOf h).1
  obtain ⟨hkind, rfl, rfl⟩ := h
  cases name? with
  | none =>
    rw [Source.kind_ofSource hq] at hkind
    exact ⟨_, .token hj hq, hword _ (.inl hkind)⟩
  | some name =>
    obtain ⟨k, hk, hkinds : kindsOf name = [k]⟩ := exists_kindsOf_of_isWordText (hname hisName)
    have hsingle : j.source.single p = j.source.range ⟨p, p + 1⟩ := by
      simp [Source.single, Source.range, TokenRange.single]
    refine ⟨_, ?_, hword ⟨k, none⟩ hk⟩
    have hmarks : j.marks [.put name] = [⟨k, none⟩] := by
      rw [Job.marks_cons, Job.chunkMarks_put, hkinds, Job.marks_nil]
      rfl
    rw [Job.renamedPatch, hsingle, ← hmarks]
    exact .patch_range hj (Nat.lt_succ_self p) hq [.put name]

end

end Keeps

end Stencil.Rewrite
