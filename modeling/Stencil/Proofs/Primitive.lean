import Stencil.Proofs.Edits
import Stencil.Proofs.Rewrite.Settled
import Stencil.Proofs.Token.Spelling

/-!
# Placeholders of primitive types

Where a placeholder is bound to a primitive type there is nothing left to be a type variable. So its
name must not stand in the text of a specialization, and neither must the receiver of a call. What
is left in quoted literals stands there as text, and nobody takes it for a name.

Results: a text for a binding is made up of chunks that are rid of the name of such a placeholder,
but for quoted literals, and of which none copies the receiver of a call (`Template.chunks_isFree`).
-/

namespace Stencil

open Rewrite

namespace Template

variable {path : Path} {text : String} {t : Template} {u : Placeholder} {b : Binding}

/-- The intrinsic calls of the template, at every depth. -/
def calls (t : Template) : List IntrinsicCall :=
  Outline.calls (Rewrite.CompilationUnit.outline t.file.tree)

/-- What the text for a binding is put together from. -/
def chunks (t : Template) (b : Binding) : List Chunk :=
  (t.job b).pieced t.file.source.whole.stop t.file.source.whole.start
    (Outline.patchesAll (t.job b) (Rewrite.CompilationUnit.outline t.file.tree))

/-- Is the chunk the copy of a literal between quotes? -/
def isLiteral (t : Template) : Chunk → Bool
  | .copied i => (t.file.source.tokenAt i).kind.isQuoted
  | .put _ => false

/-- The tokens at which the receivers of calls stand. -/
def receivers (t : Template) : List Nat :=
  t.calls.map fun c => t.file.source.index c.receiver.position

theorem mem_calls_iff {c : IntrinsicCall} :
    c ∈ t.calls ↔ .call c ∈ Outline.spotsAll (Rewrite.CompilationUnit.outline t.file.tree) := by
  simp only [calls, Outline.calls, List.mem_filterMap]
  constructor
  · rintro ⟨x, hx, hc⟩
    cases x with
    | name i => contradiction
    | call c' =>
      cases hc
      exact hx
  · exact fun h => ⟨.call c, h, rfl⟩

/-- The end of the text comes behind all code. -/
theorem size_le_of_kind_eq_eof {receiver : String} {q : Nat} (hp : (Source.ofString text).problems = [])
    (hq : (Script.ofSource (Source.ofString text) receiver).kind q = .eof) :
    (Source.ofString text).code.size ≤ q := by
  refine Nat.le_of_not_lt fun hlt => ?_
  rw [Source.kind_ofSource hlt] at hq
  exact Source.kind_ne_eof hp ((Source.indexed_ofString text).index_lt_size hlt) hq

/-- A specialization fails with the first error of the walk, or it is the text of its chunks. -/
theorem specialize_eq {v : Vocabulary} (h : ofText path text v = .ok t) (b : Binding) :
    t.specialize b = match firstError? (t.steps b) with
      | some e => .error e
      | none => .ok ((t.job b).chunksText (t.chunks b)) := by
  obtain ⟨-, -, -, q, hq, hlaid, -⟩ := laidAll_of_ofText h
  have hs := indexed_of_ofText h
  have hfits : Fits t.file.source q 0 (t.steps b) := Outline.fits_stepsAll (j := t.job b) hs hq hlaid
  have hagrees : Agrees (t.job b) (t.steps b)
      (Outline.patchesAll (t.job b) (Rewrite.CompilationUnit.outline t.file.tree)) :=
    Outline.agrees_stepsAll (j := t.job b) hs hq hlaid
  simp only [specialize]
  cases hok : firstError? (t.steps b) with
  | some e => rfl
  | none =>
    simp only
    rw [hfits.finish_eq_ok (j := t.job b) hs hq fun _ he => hfits.contains_whole hs he]
    rw [hagrees.editsBefore_eq hok, Job.splice_eq]
    rfl

/-- What is barred are names, namely those of the receivers of calls. -/
theorem clears_job (h : ofText path text {} = .ok t) (hu : b.isPrimitive u = true) :
    (t.job b).Clears u t.receivers := by
  obtain ⟨hv, hsource, hproblems, q, hq, hlaid, -⟩ := laidAll_of_ofText h
  have hascends := Outline.ascends_spotsAll hlaid
  refine ⟨hv, hu, indexed_of_ofText h, fun i hi hk => ?_, fun i hi => ?_⟩
  · simp only [job, hsource] at hi hk hproblems ⊢
    exact Source.initial_notMem hproblems hi hk u
  · obtain ⟨c, hc, rfl⟩ := List.mem_map.1 hi
    have hspot := mem_calls_iff.1 hc
    have hwithin := hascends.within _ hspot
    have hkind := hascends.kind _ hspot
    rwa [Source.kind_ofSource (by omega)] at hkind

/-- No other name stands where the receiver of a call does. -/
theorem isFine_of_mem_spots (h : ofText path text {} = .ok t)
    (hhints : ∀ c ∈ t.calls, ∀ hint ∈ c.hint, t.file.source.isBare hint.extent = true) :
    ∀ x ∈ Outline.spotsAll (Rewrite.CompilationUnit.outline t.file.tree),
      x.IsFine (t.job b) t.receivers := by
  obtain ⟨-, -, -, q, hq, hlaid, -⟩ := laidAll_of_ofText h
  have hascends := Outline.ascends_spotsAll hlaid
  intro x hx
  cases x with
  | call c => exact hhints c (mem_calls_iff.2 hx)
  | name i =>
    intro hi
    obtain ⟨c, hc, heq⟩ := List.mem_map.1 hi
    have hspot := mem_calls_iff.1 hc
    have hname := hascends.within _ hx
    have hcall := hascends.within _ hspot
    refine hascends.ne_receiver hx hspot ((indexed_of_ofText h).eq_of_index_eq ?_ ?_ heq.symm)
    · exact Nat.lt_of_lt_of_le hname.2 hq
    · exact Nat.lt_of_lt_of_le hcall.2 hq

/-- The walk settles everything up to the end of the code, so every chunk is free. -/
theorem isFree_of_mem_chunks (h : ofText path text {} = .ok t) (hu : b.isPrimitive u = true)
    (hhints : ∀ c ∈ t.calls, ∀ hint ∈ c.hint, t.file.source.isBare hint.extent = true)
    (hok : firstError? (t.steps b) = none) :
    ∀ c ∈ t.chunks b, c.IsFree (t.job b) u t.receivers := by
  obtain ⟨-, hsource, hproblems, q, hq, hlaid, hend⟩ := laidAll_of_ofText h
  have hs := indexed_of_ofText h
  have hj := clears_job h hu
  have hsettles := Outline.settles_stepsAll hj hq hlaid hok (isFine_of_mem_spots h hhints)
  have hsteps := Outline.agrees_stepsAll (j := t.job b) hs hq hlaid hok
  have hfits := Outline.fits_stepsAll (j := t.job b) hs hq hlaid
  rw [hsteps] at hfits
  have hordered := ordered_of_fits (j := t.job b) hs hq hfits
    fun e he => hfits.contains_whole hs (by rw [editsBefore_editOf]; exact he)
  refine hsettles.isFree_pieced hj hordered (fun x _ _ => Nat.zero_le x) fun x hx _ => ?_
  have hsize : t.file.source.code.size ≤ q := by
    rw [hsource] at hproblems hend ⊢
    exact size_le_of_kind_eq_eof hproblems hend
  exact Nat.lt_of_lt_of_le hx hsize

/-- Where a placeholder is bound to a primitive type, a text is made up of chunks that are rid of
its name, but for literals between quotes, and no chunk copies the receiver of a call. -/
theorem chunks_isFree {out : String} (h : ofText path text {} = .ok t)
    (hu : b.isPrimitive u = true)
    (hhints : ∀ c ∈ t.calls, ∀ hint ∈ c.hint, t.file.source.isBare hint.extent = true)
    (hout : t.specialize b = .ok out) :
    out = String.join ((t.chunks b).map (t.job b).chunkText)
      ∧ (∀ c ∈ t.chunks b, t.isLiteral c = true
        ∨ ({} : Vocabulary).mentions ((t.job b).chunkText c) u = false)
      ∧ ∀ c ∈ t.calls, .copied (t.file.source.index c.receiver.position) ∉ t.chunks b := by
  rw [specialize_eq h] at hout
  split at hout
  · contradiction
  · rename_i hok
    cases hout
    have hfree := isFree_of_mem_chunks h hu hhints hok
    refine ⟨rfl, fun c hc => ?_, fun c hc hcopied => ?_⟩
    · have hc := hfree c hc
      rw [← (laidAll_of_ofText h).1]
      cases c with
      | copied i => exact hc.2
      | put text => exact .inr hc
    · exact (hfree _ hcopied).1 (List.mem_map_of_mem hc)

/-- The theorem at a template with a call that has a hint, a comment and a literal that name the
placeholder. -/
theorem chunks_isFree_sample : ∃ t out, ofText ⟨"A.java"⟩
      "class A<KType> \x7b /* a KType */ KType f = Intrinsics.<KType[]>newArray(\"KType\"); \x7d" {} = .ok t
    ∧ t.calls ≠ [] ∧ t.specialize ⟨.int, none⟩ = .ok out
    ∧ out = String.join ((t.chunks ⟨.int, none⟩).map (t.job ⟨.int, none⟩).chunkText)
    ∧ (∀ c ∈ t.chunks ⟨.int, none⟩, t.isLiteral c = true
        ∨ ({} : Vocabulary).mentions ((t.job ⟨.int, none⟩).chunkText c) .primary = false)
    ∧ ∀ c ∈ t.calls,
        .copied (t.file.source.index c.receiver.position) ∉ t.chunks ⟨.int, none⟩ := by
  obtain ⟨t, ht, hok⟩ := exists_ok_of_sees
    (x := ofText ⟨"A.java"⟩
      "class A<KType> \x7b /* a KType */ KType f = Intrinsics.<KType[]>newArray(\"KType\"); \x7d" {})
    (fun t => !t.calls.isEmpty && (firstError? (t.steps ⟨.int, none⟩)).isNone
        && t.calls.all fun c => c.hint.all fun hint => t.file.source.isBare hint.extent)
    (by decide +kernel)
  simp only [Bool.and_eq_true, Bool.not_eq_true', List.isEmpty_eq_false_iff, List.all_eq_true,
    Option.all_eq_true, Option.isNone_iff_eq_none] at hok
  obtain ⟨⟨hcalls, hsteps⟩, hhints⟩ := hok
  have hout := specialize_eq ht ⟨.int, none⟩
  rw [hsteps] at hout
  exact ⟨t, _, ht, hcalls, hout, chunks_isFree ht (by decide) hhints hout⟩

end Template

end Stencil
