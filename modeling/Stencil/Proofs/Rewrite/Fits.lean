import Stencil.Proofs.Rewrite.Laid
import Stencil.Proofs.Token.Source
import Stencil.Rewrite.Walk

/-!
# Edits one behind the other

The invariant of the walk: the edits of a walk over a stretch of code come in order, each of them
replaces code tokens of the stretch that no other edit replaces, and none of the errors is about the
edits. Only the edit of type parameters may reach past the last token that it replaces, and then
only up to a code token that is still in the stretch.

Results: the invariant holds of two walks one after the other (`Fits.append`), the edits of a walk
for which it holds lie in the range of the stretch and share no token (`Fits.contains`,
`Fits.pairwise_lt`), and what is rendered with them fails only for a call
(`Fits.not_isInternal_of_render`).
-/

namespace Stencil.Rewrite

/-- Does a range replace the code tokens from position `a` up to position `b`, as a part of a stretch
that ends at position `q`? -/
structure Covers (s : Source) (a b q : Nat) (r : TokenRange) : Prop where
  lt : a < b
  start_eq : r.start = s.index a
  start_lt : r.start < r.stop
  stop_le : r.stop ≤ s.index (b - 1) + 1 ∨ b < q ∧ r.stop ≤ s.index b

/-- Do the edits of a walk over the stretch from one position up to another fit into it, one behind
the other, and are all errors about calls? -/
def Fits (s : Source) (q : Nat) : Nat → List Step → Prop
  | p, [] => p ≤ q
  | p, .error e :: rest => e.isInternal = false ∧ Fits s q p rest
  | p, .ok e :: rest => ∃ a b, p ≤ a ∧ Covers s a b q e.range ∧ Fits s q b rest

variable {s : Source} {p p' m q : Nat} {xs ys : List Step}

theorem Covers.mono {a b : Nat} {r : TokenRange} (h : Covers s a b m r) (hmq : m ≤ q) :
    Covers s a b q r := by
  refine ⟨h.lt, h.start_eq, h.start_lt, h.stop_le.imp_right fun hb => ⟨?_, hb.2⟩⟩
  exact Nat.lt_of_lt_of_le hb.1 hmq

namespace Fits

theorem le (h : Fits s q p xs) : p ≤ q := by
  induction xs generalizing p with
  | nil => exact h
  | cons x xs ih =>
    cases x with
    | error e => exact ih h.2
    | ok e =>
      obtain ⟨a, b, hpa, hc, h⟩ := h
      have := hc.lt
      have := ih h
      omega

theorem lead (hp : p' ≤ p) (h : Fits s q p xs) : Fits s q p' xs := by
  induction xs with
  | nil => exact Nat.le_trans hp h
  | cons x xs ih =>
    cases x with
    | error e => exact ⟨h.1, ih h.2⟩
    | ok e =>
      obtain ⟨a, b, hpa, h⟩ := h
      exact ⟨a, b, Nat.le_trans hp hpa, h⟩

theorem append (hx : Fits s m p xs) (hy : Fits s q m ys) : Fits s q p (xs ++ ys) := by
  induction xs generalizing p with
  | nil => exact hy.lead hx
  | cons x xs ih =>
    cases x with
    | error e => exact ⟨hx.1, ih hx.2⟩
    | ok e =>
      obtain ⟨a, b, hpa, hc, hx⟩ := hx
      exact ⟨a, b, hpa, hc.mono hy.le, ih hx⟩

/-! ## Ranges of edits -/

theorem mem_range (h : Fits s q p xs) {e : Edit} (he : e ∈ editsBefore xs) :
    ∃ a b, p ≤ a ∧ b ≤ q ∧ Covers s a b q e.range := by
  induction xs generalizing p with
  | nil => simp [editsBefore] at he
  | cons x xs ih =>
    cases x with
    | error e => simp [editsBefore] at he
    | ok f =>
      obtain ⟨a, b, hpa, hc, hx⟩ := h
      simp only [editsBefore, List.mem_cons] at he
      rcases he with rfl | he
      · exact ⟨a, b, hpa, hx.le, hc⟩
      · obtain ⟨a', b', hb, hq, hc'⟩ := ih hx he
        have := hc.lt
        exact ⟨a', b', by omega, hq, hc'⟩

theorem contains (hs : s.Indexed) (h : Fits s q p xs) {e : Edit} (he : e ∈ editsBefore xs) :
    (s.range ⟨p, q⟩).contains e.range = true := by
  obtain ⟨a, b, hpa, hbq, hc⟩ := mem_range h he
  have hab := hc.lt
  have hstart := hs.index_le_index hpa
  have hlast : s.index (b - 1) ≤ s.index (q - 1) := hs.index_le_index (by omega)
  have hstop : e.range.stop ≤ s.index (q - 1) + 1 := by
    rcases hc.stop_le with h | ⟨hlt, h⟩
    · omega
    · have := hs.index_le_index (show b ≤ q - 1 by omega)
      omega
  simp only [TokenRange.contains, Source.range, if_pos (show p < q by omega), Bool.and_eq_true,
    decide_eq_true_eq]
  exact ⟨hc.start_eq ▸ hstart, hstop⟩

theorem contains_whole (hs : s.Indexed) (h : Fits s q p xs) {e : Edit} (he : e ∈ editsBefore xs) :
    s.whole.contains e.range = true := by
  obtain ⟨a, b, -, -, hc⟩ := mem_range h he
  have hlast : s.index (b - 1) ≤ s.tokens.size := hs.index_le_size
  have hnext : s.index b ≤ s.tokens.size := hs.index_le_size
  have hstop := hc.stop_le
  simp only [TokenRange.contains, Bool.and_eq_true, decide_eq_true_eq]
  simp only [Source.whole, Source.size]
  omega

/-- Every edit ends before the next one begins. -/
theorem pairwise_lt (hs : s.Indexed) (hq : q ≤ s.code.size) (h : Fits s q p xs) :
    (editsBefore xs).Pairwise fun e f => e.range.stop ≤ f.range.start := by
  induction xs generalizing p with
  | nil => simp [editsBefore]
  | cons x xs ih =>
    cases x with
    | error e => simp [editsBefore]
    | ok e =>
      obtain ⟨a, b, hpa, hc, hx⟩ := h
      refine List.pairwise_cons.2 ⟨fun f hf => ?_, ih hx⟩
      obtain ⟨a', b', hba, hbq, hc'⟩ := mem_range hx hf
      have hle := hs.index_le_index hba
      have hlt := hs.index_lt_index (show b - 1 < b by have := hc.lt; omega)
        (by have := hc.lt; have := hc'.lt; omega)
      rw [hc'.start_eq]
      obtain h | ⟨-, h⟩ := hc.stop_le <;> omega

theorem start_lt (h : Fits s q p xs) {e : Edit} (he : e ∈ editsBefore xs) :
    e.range.start < e.range.stop := by
  obtain ⟨a, b, -, -, hc⟩ := mem_range h he
  exact hc.start_lt

end Fits

/-! ## Checks -/

theorem overlaps_eq_false {r r' : TokenRange} (h : r.stop ≤ r'.start) : r.overlaps r' = false := by
  simp [TokenRange.overlaps]
  omega

theorem checkEdits_eq_none {range : TokenRange} {es : List Edit}
    (hc : ∀ e ∈ es, range.contains e.range = true)
    (hp : es.Pairwise fun e f => e.range.stop ≤ f.range.start) (previous : Option Edit)
    (hprev : ∀ p ∈ previous, ∀ e ∈ es, p.range.stop ≤ e.range.start) :
    checkEdits range previous es = none := by
  induction es generalizing previous with
  | nil => simp
  | cons e es ih =>
    rw [List.pairwise_cons] at hp
    have hrest : checkEdits range (some e) es = none := by
      refine ih (fun f hf => hc f (List.mem_cons_of_mem _ hf)) hp.2 (some e) ?_
      rintro _ ⟨⟩ f hf
      exact hp.1 f hf
    have hce := hc e List.mem_cons_self
    cases previous with
    | none => simp [checkEdits, hce, hrest]
    | some p =>
      have hle := hprev p rfl e List.mem_cons_self
      simp [checkEdits, hce, hrest, Nat.not_lt.2 hle]

theorem mergeSort_eq_self {es : List Edit} (hlt : ∀ e ∈ es, e.range.start < e.range.stop)
    (hp : es.Pairwise fun e f => e.range.stop ≤ f.range.start) : es.mergeSort Edit.le = es := by
  refine List.mergeSort_of_pairwise (hp.imp_of_mem fun {e f} he _ h => ?_)
  have hstart : e.range.start < f.range.start := Nat.lt_of_lt_of_le (hlt e he) h
  simp [Edit.le, TokenRange.order, Nat.compare_eq_lt.2 hstart]

variable {j : Job}

theorem reconstruct_of_pairwise {v : Vocabulary} {b : Binding} {tokens : Array Token}
    {range : TokenRange} {es : List Edit} (hc : ∀ e ∈ es, range.contains e.range = true)
    (hlt : ∀ e ∈ es, e.range.start < e.range.stop)
    (hp : es.Pairwise fun e f => e.range.stop ≤ f.range.start) :
    reconstruct v b tokens range es = .ok (splice v b tokens range.stop range.start es) := by
  have hcheck := checkEdits_eq_none hc hp none (by simp)
  simp [reconstruct, mergeSort_eq_self hlt hp, hcheck]

namespace Fits

/-- The text of a range that holds all edits of a walk. -/
theorem finish_eq_ok (hs : j.source.Indexed) (hq : q ≤ j.source.code.size)
    (h : Fits j.source q p xs) {range : TokenRange}
    (hc : ∀ e ∈ editsBefore xs, range.contains e.range = true) :
    j.finish range (editsBefore xs) = .ok (splice j.vocabulary j.binding j.source.tokens range.stop
      range.start (editsBefore xs)) :=
  reconstruct_of_pairwise hc (fun _ he => h.start_lt he) (h.pairwise_lt hs hq)

theorem not_isInternal_of_firstError? (h : Fits s q p xs) {e : SpecializeError}
    (he : firstError? xs = some e) : e.isInternal = false := by
  induction xs generalizing p with
  | nil => simp [firstError?] at he
  | cons x xs ih =>
    cases x with
    | error f =>
      simp only [firstError?, Option.some.injEq] at he
      exact he ▸ h.1
    | ok f =>
      obtain ⟨a, b, -, -, hx⟩ := h
      exact ih hx he

theorem not_isInternal_of_render (hs : j.source.Indexed) (hq : q ≤ j.source.code.size)
    (h : Fits j.source q p xs) {e : SpecializeError}
    (he : j.render ⟨p, q⟩ xs = .error e) : e.isInternal = false := by
  simp only [Job.render] at he
  split at he
  · rename_i f hf
    cases he
    exact h.not_isInternal_of_firstError? hf
  · rw [h.finish_eq_ok hs hq fun _ => h.contains hs] at he
    contradiction

end Fits

end Stencil.Rewrite
