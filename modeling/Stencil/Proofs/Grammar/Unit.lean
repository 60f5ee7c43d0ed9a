import Stencil.Grammar.Unit
import Stencil.Proofs.Grammar.Bodies

/-!
# What the grammar finds in a file

The rules for nested text find what reads the tokens passed, by induction on the levels of nesting,
and with them all other rules do.

Results: the tree of a file that is read reads all of the code of the file, from the first code
token to the end of the text (`reads_of_ofString`), and nothing behind it (`le_size_of_reads`).
-/

namespace Stencil

namespace Grammar

open Rule Stretch

variable {s : Script} {p q : Nat} {g : Nested}

theorem sound_nested (s : Script) (n : Nat) : (nested n).Sound s := by
  induction n with
  | zero => exact ⟨by simp [nested], by simp [nested], by simp [nested], by simp [nested]⟩
  | succ n ih => exact ⟨reads_of_type ih, readsAll_of_elems ih, areOrderly_of_elems, reads_of_classBody ih⟩

theorem reads_of_packageDecl (hg : g.Sound s) {d : Option PackageDecl}
    (h : (packageDecl g).run s p = .ok d q) : PackageDecl.reads? s d p q := by
  simp [packageDecl, and_assoc] at h
  obtain ⟨as, m, ha, ⟨-, rfl, rfl⟩ | ⟨hk, n, m', hn, hm, rfl, rfl⟩⟩ := h
  · rfl
  · exact ⟨⟨m', ⟨m + 1, ⟨m, readsAll_of_annotations hg ha, hk, rfl⟩, reads_of_qualifiedName hn⟩,
      hm, rfl⟩, rfl⟩

theorem reads_of_importDecl {i : ImportDecl} (h : importDecl.run s p = .ok i q) :
    i.reads s p q := by
  simp [importDecl, and_assoc] at h
  obtain ⟨hp, ⟨-, n, m, hn, h⟩ | ⟨hs, n, m, hn, h⟩⟩ := h
  · have hn := reads_of_qualifiedName hn
    rcases h with ⟨-, hm, rfl, rfl⟩ | ⟨hd, ha, hm, rfl, rfl⟩
    · exact ⟨⟨m, ⟨m, ⟨p + 1, ⟨p + 1, ⟨hp, rfl⟩, rfl⟩, hn⟩, rfl⟩, hm, rfl⟩, rfl⟩
    · exact ⟨⟨m + 2, ⟨m, ⟨p + 1, ⟨p + 1, ⟨hp, rfl⟩, rfl⟩, hn⟩, m + 1, ⟨hd, rfl⟩, ha, rfl⟩, hm, rfl⟩,
        rfl⟩
  · have hn := reads_of_qualifiedName hn
    rcases h with ⟨-, hm, rfl, rfl⟩ | ⟨hd, ha, hm, rfl, rfl⟩
    · exact ⟨⟨m, ⟨m, ⟨p + 2, ⟨p + 1, ⟨hp, rfl⟩, hs, rfl⟩, hn⟩, rfl⟩, hm, rfl⟩, rfl⟩
    · exact ⟨⟨m + 2, ⟨m, ⟨p + 2, ⟨p + 1, ⟨hp, rfl⟩, hs, rfl⟩, hn⟩, m + 1, ⟨hd, rfl⟩, ha, rfl⟩, hm, rfl⟩,
        rfl⟩

theorem readsAll_of_imports {is : List ImportDecl}
    (h : (manyWhile (check .kwImport) importDecl).run s p = .ok is q) :
    ImportDecl.readsAll s is p q := by
  refine manyWhile_induction (P := fun is => ImportDecl.readsAll s is) ?_ ?_ h
  · intro p q h
    simp at h
    exact h.2
  · intro p m n q i is hm hi ih
    simp at hm
    obtain ⟨-, rfl⟩ := hm
    exact ⟨n, reads_of_importDecl hi, ih⟩

theorem run_semicolons {u : Unit} (h : semicolons.run s p = .ok u q) :
    Stretch.run s (· = .semicolon) p q := by
  simp [semicolons] at h
  obtain ⟨us, h⟩ := h
  refine manyWhile_induction (P := fun _ => Stretch.run s (· = .semicolon)) ?_ ?_ h
  · intro p q h
    simp at h
    simp [h.2]
  · intro p m n q u us hm hu ih
    simp at hm
    obtain ⟨hp, rfl⟩ := hm
    simp [run_advance_of_kind, hp] at hu
    subst hu
    exact run_trans (run_succ (P := (· = .semicolon)) hp) ih

theorem readsAll_of_types (hg : g.Sound s) {ds : List TypeDecl}
    (h : (manyWhile (do semicolons; return !(← atEnd)) (typeDecl g)).run s p = .ok ds q) :
    TypeDecl.readsAll s ds p q ∧ s.kind q = .eof := by
  refine manyWhile_induction
    (P := fun ds p q => TypeDecl.readsAll s ds p q ∧ s.kind q = .eof) ?_ ?_ h
  · intro p q h
    simp at h
    obtain ⟨⟨u, hu⟩, hq⟩ := h
    exact ⟨run_semicolons hu, hq⟩
  · intro p m n q d ds hm hd ih
    simp at hm
    obtain ⟨⟨u, hu⟩, -⟩ := hm
    exact ⟨⟨n, ⟨m, run_semicolons hu, reads_of_typeDecl hg hd⟩, ih.1⟩, ih.2⟩

theorem reads_of_compilationUnit (hg : g.Sound s) {u : CompilationUnit}
    (h : (compilationUnit g).run s p = .ok u q) : u.reads s p q ∧ s.kind q = .eof := by
  simp only [compilationUnit, run_bind, run_pure] at h
  obtain ⟨d, m₁, hd, is, m₂, his, ts, m₃, hts, rfl, rfl⟩ := h
  have hts := readsAll_of_types hg hts
  exact ⟨⟨m₂, ⟨m₁, reads_of_packageDecl hg hd, readsAll_of_imports his⟩, hts.1⟩, hts.2⟩

/-! ## The end of a file -/

theorem le_size_of_word {k : Kind} (hk : k ≠ .eof) (h : word s k p q) : q ≤ s.size := by
  obtain ⟨hp, rfl⟩ := h
  exact lt_size_of_kind_ne (hp ▸ hk)

theorem le_size_of_semicolons (h : Stretch.run s (· = .semicolon) p q) (hp : p ≤ s.size) :
    q ≤ s.size := by
  by_cases hq : q = p
  · exact hq ▸ hp
  · have hle := h.1
    have hlast := h.2 (q - 1) (by omega) (by omega)
    have := lt_size_of_kind_ne (s := s) (p := q - 1) (by simp [hlast])
    omega

theorem le_size_of_types {ds : List TypeDecl} (h : TypeDecl.readsAll s ds p q) (hp : p ≤ s.size) :
    q ≤ s.size := by
  induction ds generalizing p with
  | nil => exact le_size_of_semicolons h hp
  | cons d ds ih =>
    obtain ⟨m, ⟨m', -, hd⟩, hds⟩ := h
    -- the last token of a declaration is the bracket that closes its body
    obtain ⟨modifiers, kind, name, typeParams, supertypes, interfaces, ⟨cs, ms, e⟩, e'⟩ := d
    obtain ⟨⟨_, _, ⟨_, _, hbrace⟩, -⟩, -⟩ := hd
    exact ih hds (le_size_of_word (by simp) hbrace)

/-- A tree reads no tokens behind the last one. -/
theorem le_size_of_reads {u : CompilationUnit} (h : u.reads s 0 q) : q ≤ s.size := by
  obtain ⟨m₁, ⟨m₂, hp, hi⟩, ht⟩ := h
  have hm₂ : m₂ ≤ s.size := by
    cases hu : u.package with
    | none =>
      rw [hu] at hp
      exact empty_iff.1 hp ▸ Nat.zero_le _
    | some d =>
      rw [hu] at hp
      obtain ⟨⟨_, _, hsemicolon⟩, -⟩ := hp
      exact le_size_of_word (by simp) hsemicolon
  have himports : ∀ {is : List ImportDecl} {p q}, ImportDecl.readsAll s is p q → p ≤ s.size →
      q ≤ s.size := by
    intro is
    induction is with
    | nil => exact fun h hp => empty_iff.1 h ▸ hp
    | cons i is ih =>
      rintro p q ⟨m, ⟨⟨_, _, hsemicolon⟩, -⟩, his⟩ -
      exact ih his (le_size_of_word (by simp) hsemicolon)
  exact le_size_of_types ht (himports hi hm₂)

theorem run_complete {α : Type} (rule : Nested → Rule α) (s : Script) (p : Nat) :
    (complete rule).run s p = (rule (nested (s.size + 1))).run s p := by
  simp only [Rule.run, complete]

end Grammar

/-- A result in which something can be seen. -/
theorem exists_ok_of_sees {ε α : Type} {x : Except ε α} (sees : α → Bool)
    (h : (match x with
      | .ok a => sees a
      | .error _ => false) = true) : ∃ a, x = .ok a ∧ sees a = true := by
  cases x with
  | ok a => exact ⟨a, rfl, h⟩
  | error _ => contradiction

/-- The tree of a file that is read reads the code of the file up to the end of the text. -/
theorem ParsedFile.reads_of_ofString {text intrinsics : String} {f : ParsedFile}
    (h : ParsedFile.ofString text intrinsics = .ok f) :
    f.source = .ofString text ∧ f.source.problems = []
      ∧ ∃ q, f.tree.reads (.ofSource f.source intrinsics) 0 q
        ∧ (Script.ofSource f.source intrinsics).kind q = .eof := by
  simp only [ParsedFile.ofString] at h
  split at h
  · rename_i hproblems
    split at h
    · rename_i tree q hrun
      cases h
      rw [Grammar.run_complete] at hrun
      have hreads := Grammar.reads_of_compilationUnit (Grammar.sound_nested _ _) hrun
      exact ⟨rfl, by simpa using hproblems, q, hreads⟩
    · simp at h
  · simp at h

end Stencil
