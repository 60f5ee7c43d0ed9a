import Stencil.Grammar.Rule

/-!
# Stretches of code

A stretch is a relation between two positions in a script: it holds if the code tokens from the first
one up to the second one are of a certain form. Stretches never lead backwards, and that is part of
the type. They are put together like the right sides of a grammar, one after the other with `++`, and
say what form the tokens of a node have, whatever rule has found them.

Results: stretches one after the other meet in between (`append_iff`), and a run of tokens splits at
every position (`run_trans`).
-/

namespace Stencil

namespace Script

variable {s : Script} {p : Nat}

/-- The code tokens in order, without the end mark. -/
def words (s : Script) : Array Lexeme :=
  s.source.words

theorem size_words : s.words.size = s.size :=
  Array.size_map

/-- The table of code leads to the code tokens. -/
theorem word_eq : s.word p = s.words[p]?.getD ⟨.eof, ""⟩ := by
  rw [word, words, Source.words, Array.getElem?_map]
  cases s.source.code[p]? <;> rfl

end Script

/-- A form that a run of code tokens may have. -/
structure Stretch where
  /-- Do the tokens from the first position up to the second one have the form? -/
  holds : Nat → Nat → Prop
  /-- Stretches never lead backwards. -/
  le : ∀ {p q}, holds p q → p ≤ q

namespace Stretch

instance : CoeFun Stretch fun _ => Nat → Nat → Prop :=
  ⟨holds⟩

variable {a b : Stretch} {s : Script} {p q r : Nat}

/-! ## Forms without alternatives -/

/-- No tokens. -/
def empty : Stretch :=
  ⟨fun p q => p = q, fun h => Nat.le_of_eq h⟩

@[simp] theorem empty_iff : empty p q ↔ p = q := Iff.rfl

/-- One stretch after the other. -/
def append (a b : Stretch) : Stretch :=
  ⟨fun p q => ∃ m, a p m ∧ b m q, fun ⟨_, h, h'⟩ => Nat.le_trans (a.le h) (b.le h')⟩

instance : Append Stretch :=
  ⟨append⟩

@[simp] theorem append_iff : (a ++ b) p q ↔ ∃ m, a p m ∧ b m q := Iff.rfl

/-- One token whose kind has a property. -/
def wordOf (s : Script) (P : Kind → Prop) : Stretch :=
  ⟨fun p q => P (s.kind p) ∧ q = p + 1, fun h => by omega⟩

@[simp] theorem wordOf_iff {P : Kind → Prop} : wordOf s P p q ↔ P (s.kind p) ∧ q = p + 1 := Iff.rfl

/-- One token of the given kind. -/
def word (s : Script) (k : Kind) : Stretch :=
  wordOf s (· = k)

@[simp] theorem word_iff {k : Kind} : word s k p q ↔ s.kind p = k ∧ q = p + 1 := Iff.rfl

/-- Tokens of the given kinds in order. -/
def words (s : Script) : List Kind → Stretch
  | [] => empty
  | k :: ks => word s k ++ words s ks

/-- The token of the given name. -/
def nameOf (s : Script) (i : Ident) : Stretch :=
  ⟨fun p q => s.kind p = .identifier ∧ i = ⟨(s.word p).text, p⟩ ∧ q = p + 1, fun h => by omega⟩

@[simp] theorem nameOf_iff {i : Ident} :
    nameOf s i p q ↔ s.kind p = .identifier ∧ i = ⟨(s.word p).text, p⟩ ∧ q = p + 1 := Iff.rfl

/-- A stretch so many times. -/
def times (a : Stretch) : Nat → Stretch
  | 0 => empty
  | n + 1 => a ++ times a n

/-- A stretch that is the given extent. -/
def within (e : Extent) (a : Stretch) : Stretch :=
  ⟨fun p q => a p q ∧ e = ⟨p, q⟩, fun h => a.le h.1⟩

@[simp] theorem within_iff {e : Extent} : within e a p q ↔ a p q ∧ e = ⟨p, q⟩ := Iff.rfl

/-! ## Forms with alternatives -/

/-- A stretch, if the condition holds. -/
def given (c : Prop) (a : Stretch) : Stretch :=
  ⟨fun p q => c ∧ a p q, fun h => a.le h.2⟩

@[simp] theorem given_iff {c : Prop} : given c a p q ↔ c ∧ a p q := Iff.rfl

/-- One of a family of stretches. -/
def any {ι : Type} (f : ι → Stretch) : Stretch :=
  ⟨fun p q => ∃ i, f i p q, fun ⟨i, h⟩ => (f i).le h⟩

@[simp] theorem any_iff {ι : Type} {f : ι → Stretch} : any f p q ↔ ∃ i, f i p q := Iff.rfl

/-- A stretch or no tokens. -/
def optional (a : Stretch) : Stretch :=
  ⟨fun p q => p = q ∨ a p q, fun h => h.elim Nat.le_of_eq a.le⟩

@[simp] theorem optional_iff : optional a p q ↔ p = q ∨ a p q := Iff.rfl

/-- Any number of tokens whose kinds have a property. -/
def run (s : Script) (P : Kind → Prop) : Stretch :=
  ⟨fun p q => p ≤ q ∧ ∀ i, p ≤ i → i < q → P (s.kind i), fun h => h.1⟩

@[simp] theorem run_self {P : Kind → Prop} : run s P p p :=
  ⟨p.le_refl, fun _ _ _ => by omega⟩

theorem run_succ {P : Kind → Prop} (h : P (s.kind p)) : run s P p (p + 1) :=
  ⟨p.le_succ, fun i h₁ h₂ => by
    obtain rfl : i = p := by omega
    exact h⟩

theorem run_trans {P : Kind → Prop} (h : run s P p q) (h' : run s P q r) : run s P p r := by
  refine ⟨Nat.le_trans h.1 h'.1, fun i h₁ h₂ => ?_⟩
  by_cases hq : i < q
  · exact h.2 i h₁ hq
  · exact h'.2 i (by omega) h₂

theorem run_mono {P Q : Kind → Prop} (hPQ : ∀ k, P k → Q k) (h : run s P p q) : run s Q p q :=
  ⟨h.1, fun i h₁ h₂ => hPQ _ (h.2 i h₁ h₂)⟩

/-- At least one token. -/
def proper (a : Stretch) : Stretch :=
  ⟨fun p q => a p q ∧ p < q, fun h => a.le h.1⟩

@[simp] theorem proper_iff : proper a p q ↔ a p q ∧ p < q := Iff.rfl

/-! ## Tokens and the end of the text -/

/-- Only positions of code tokens have a kind other than the end of the text. -/
theorem lt_size_of_kind_ne (h : s.kind p ≠ .eof) : p < s.size := by
  refine Nat.lt_of_not_le fun hp => h ?_
  rw [← Script.size_words] at hp
  simp [Script.kind, Script.word_eq, hp]

end Stretch

end Stencil
