import Stencil.Proofs.Rewrite.Walk
import Stencil.Template

/-!
# The edits of a template

Specializing a template puts texts together from edits: those of the whole file, and those of every
type argument, type parameter and argument of a call that is rendered on its own. Whatever the
binding, the edits of each text lie in the range that is rewritten, and no two of them share a
token.

Results: a template fails only for one of its calls, and never for its edits
(`Template.edits_disjoint`).
-/

namespace Stencil

open Rewrite

/-- What a template reads: the positions of its tree are those of its source. -/
theorem Template.laidAll_of_ofText {path : Path} {text : String} {v : Vocabulary} {t : Template}
    (h : Template.ofText path text v = .ok t) :
    t.vocabulary = v ∧ t.file.source = .ofString text ∧ t.file.source.problems = []
      ∧ ∃ q, q ≤ t.file.source.code.size
        ∧ Outline.laidAll (.ofSource t.file.source v.intrinsics)
            (Rewrite.CompilationUnit.outline t.file.tree) 0 q
        ∧ (Script.ofSource t.file.source v.intrinsics).kind q = .eof := by
  simp only [Template.ofText] at h
  split at h
  · contradiction
  · rename_i file hfile
    split at h
    · cases h
      obtain ⟨hsource, hproblems, q, hreads, hend⟩ := ParsedFile.reads_of_ofString hfile
      have hq := Grammar.le_size_of_reads hreads
      rw [Source.size_ofSource] at hq
      exact ⟨rfl, hsource, hproblems, q, hq, Rewrite.CompilationUnit.laid_of_reads hreads, hend⟩
    · split at h <;> contradiction

namespace Template

theorem indexed_of_ofText {path : Path} {text : String} {v : Vocabulary} {t : Template}
    (h : ofText path text v = .ok t) : t.file.source.Indexed := by
  rw [(laidAll_of_ofText h).2.1]
  exact Source.indexed_ofString text

/-- All texts that a specialization may put together from edits: the ranges that are rewritten and the
steps of the walks over them. -/
def renderings (t : Template) (b : Binding) : List (TokenRange × List Step) :=
  (t.file.source.whole, t.steps b)
    :: (Outline.partsAll (Rewrite.CompilationUnit.outline t.file.tree)).map fun part =>
      (t.file.source.range part.1, Outline.stepsAll (t.job b) part.2)

/-- The edits of every text that is put together lie in the range that is rewritten, and no two of
them share a token. So only a call can make a specialization fail. -/
theorem edits_disjoint {path : Path} {text : String} {v : Vocabulary} {t : Template}
    (h : ofText path text v = .ok t) (b : Binding) :
    (∀ r ∈ t.renderings b,
      (∀ e ∈ editsBefore r.2, r.1.contains e.range = true)
        ∧ (editsBefore r.2).Pairwise fun e f => e.range.overlaps f.range = false)
      ∧ ∀ e, t.specialize b = .error e → ∃ fault text span, e = .call fault text span := by
  obtain ⟨-, -, -, q, hq, hlaid, -⟩ := laidAll_of_ofText h
  have hs : (t.job b).source.Indexed := indexed_of_ofText h
  have hwhole : Fits t.file.source q 0 (t.steps b) := Outline.fits_stepsAll hs hq hlaid
  have hcontains : ∀ e ∈ editsBefore (t.steps b),
      t.file.source.whole.contains e.range = true :=
    fun _ he => hwhole.contains_whole hs he
  have disjoint {p q : Nat} {xs : List Step} (hq : q ≤ t.file.source.code.size)
      (hx : Fits t.file.source q p xs) :
      (editsBefore xs).Pairwise fun e f => e.range.overlaps f.range = false :=
    (hx.pairwise_lt hs hq).imp overlaps_eq_false
  refine ⟨fun r hr => ?_, fun e he => ?_⟩
  · simp only [renderings, List.mem_cons, List.mem_map] at hr
    rcases hr with rfl | ⟨⟨extent, inner⟩, hpart, rfl⟩
    · exact ⟨hcontains, disjoint hq hwhole⟩
    · obtain ⟨hinner, hstop⟩ := Outline.laidIn_partsAll hlaid _ hpart
      have hstop := Nat.le_trans hstop hq
      have hx := Outline.fits_stepsAll hs hstop hinner
      exact ⟨fun e he => hx.contains hs he, disjoint hstop hx⟩
  · have hinternal : e.isInternal = false := by
      simp only [specialize] at he
      split at he
      · rename_i f hf
        cases he
        exact hwhole.not_isInternal_of_firstError? hf
      · rw [hwhole.finish_eq_ok (j := t.job b) hs hq hcontains] at he
        contradiction
    cases e with
    | call fault text span => exact ⟨fault, text, span, rfl⟩
    | _ => contradiction

/-- The theorem at a template that loses a type parameter and an argument, and that has a call with a
call in it. -/
theorem edits_disjoint_sample : ∃ t, ofText ⟨"KTypeA.java"⟩
      "class KTypeA<KType, V extends I<KType>> { int f = Intrinsics.mix(Intrinsics.empty()); }" {} = .ok t
    ∧ (∀ r ∈ t.renderings ⟨.int, none⟩,
        (∀ e ∈ editsBefore r.2, r.1.contains e.range = true)
          ∧ (editsBefore r.2).Pairwise fun e f => e.range.overlaps f.range = false)
    ∧ ∀ e, t.specialize ⟨.int, none⟩ = .error e → ∃ fault text span, e = .call fault text span := by
  have hok : (ofText ⟨"KTypeA.java"⟩
      "class KTypeA<KType, V extends I<KType>> { int f = Intrinsics.mix(Intrinsics.empty()); }"
      {}).isOk = true := by
    decide +kernel
  cases h : ofText ⟨"KTypeA.java"⟩
      "class KTypeA<KType, V extends I<KType>> { int f = Intrinsics.mix(Intrinsics.empty()); }" {} with
  | error e => simp [h, Except.isOk, Except.toBool] at hok
  | ok t => exact ⟨t, rfl, edits_disjoint h ⟨.int, none⟩⟩

end Template

end Stencil
