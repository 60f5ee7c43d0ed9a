import Mathlib.Tactic.Simproc.ExistsAndEq
import Stencil.Proofs.Grammar.Stretch

/-!
# Successful rules

What must be the case if a rule succeeds: a sequence succeeds if its parts do, one after the other,
and each of the rules that all others are put together from succeeds in one way only. The lemmas are
equivalences, so rewriting with them takes the success of any rule apart into that of its parts.

Results: what a round of a repeated rule preserves holds of all its rounds (`manyWhile_induction`),
a list reads its entries one after the other (`list_of_manyWhile`, `list_of_sepBy`), and a rule under
`attempt` has succeeded or moved nothing (`attempt_ok`).
-/

namespace Stencil.Rule

variable {α β : Type} {s : Script} {p q : Nat}

/-! ## Sequences -/

@[simp] theorem run_bind {x : Rule α} {f : α → Rule β} {b : β} :
    (x >>= f).run s p = .ok b q ↔ ∃ a m, x.run s p = .ok a m ∧ (f a).run s m = .ok b q := by
  simp only [Rule.run, bind, ReaderT.bind, EStateM.bind]
  cases x s p <;> simp [and_assoc]

@[simp] theorem run_pure {a b : α} : (pure a : Rule α).run s p = .ok b q ↔ a = b ∧ p = q := by
  simp [Rule.run, pure, ReaderT.pure, EStateM.pure]

@[simp] theorem run_map {x : Rule α} {f : α → β} {b : β} :
    (f <$> x).run s p = .ok b q ↔ ∃ a, x.run s p = .ok a q ∧ f a = b := by
  simp only [Rule.run, Functor.map, EStateM.map]
  cases x s p with
  | error => simp
  | ok a m =>
    constructor
    · intro h
      cases h
      exact ⟨a, rfl, rfl⟩
    · rintro ⟨_, h, rfl⟩
      cases h
      rfl

@[simp] theorem run_discard {x : Rule α} {u : Unit} :
    (discard x).run s p = .ok u q ↔ ∃ a, x.run s p = .ok a q := by
  have h : (discard x).run s p = ((fun _ => ()) <$> x : Rule Unit).run s p := rfl
  rw [h, run_map]
  simp

@[simp] theorem run_throw {m : Mistake} {a : α} : (throw m : Rule α).run s p = .ok a q ↔ False := by
  have h : (throw m : Rule α).run s p = .error m p := rfl
  simp [h]

@[simp] theorem run_ite {c : Prop} [Decidable c] {x y : Rule α} {a : α} :
    (if c then x else y).run s p = .ok a q
      ↔ (c ∧ x.run s p = .ok a q) ∨ (¬c ∧ y.run s p = .ok a q) := by
  by_cases h : c <;> simp [h]

@[simp] theorem run_read {t : Script} : (read : Rule Script).run s p = .ok t q ↔ s = t ∧ p = q := by
  have h : (read : Rule Script).run s p = .ok s p := rfl
  simp [h]

/-- A rule that succeeds with something that can be seen. -/
theorem exists_run_of_sees {r : Rule α} (sees : α → Nat → Bool)
    (h : (match r.run s p with
      | .ok a q => sees a q
      | .error _ _ => false) = true) : ∃ a q, r.run s p = .ok a q ∧ sees a q = true := by
  split at h
  · rename_i a q hrun
    exact ⟨a, q, hrun, h⟩
  · contradiction

/-! ## Looking at tokens -/

@[simp] theorem run_position {n : Nat} : position.run s p = .ok n q ↔ n = p ∧ p = q := by
  simp [Rule.run, position, eq_comm]

@[simp] theorem run_peekNth {n : Nat} {w : Lexeme} :
    (peekNth n).run s p = .ok w q ↔ s.word (p + n) = w ∧ p = q := by
  simp [Rule.run, peekNth]

@[simp] theorem run_peek {w : Lexeme} : peek.run s p = .ok w q ↔ s.word p = w ∧ p = q := by
  simp [peek]

@[simp] theorem run_kind {k : Kind} : kind.run s p = .ok k q ↔ s.kind p = k ∧ p = q := by
  simp [Rule.kind, Script.kind, and_comm]

theorem run_previousKind_of_kind (hp : 0 < p) (h : s.kind (p - 1) ≠ .eof) :
    previousKind.run s p = .ok (some (s.kind (p - 1))) p := by
  have hlt : p - 1 < s.source.code.size := Stretch.lt_size_of_kind_ne h
  have hne : p ≠ 0 := by omega
  simp [Rule.run, previousKind, Script.kindBefore, hne, hlt, Script.kind, Script.word]

theorem run_previousKind {k : Option Kind} (h : previousKind.run s p = .ok k q) : p = q := by
  simp only [Rule.run, previousKind, EStateM.Result.ok.injEq] at h
  exact h.2

@[simp] theorem run_check {k : Kind} {b : Bool} :
    (check k).run s p = .ok b q ↔ (s.kind p == k) = b ∧ p = q := by
  simp [check, and_comm]

@[simp] theorem run_checkNth {n : Nat} {k : Kind} {b : Bool} :
    (checkNth n k).run s p = .ok b q ↔ (s.kind (p + n) == k) = b ∧ p = q := by
  simp [checkNth, Script.kind, and_comm]

@[simp] theorem run_atEnd {b : Bool} : atEnd.run s p = .ok b q ↔ (s.kind p == .eof) = b ∧ p = q := by
  simp [atEnd]

@[simp] theorem run_failHere {m : Mistake} {a : α} :
    (failHere m : Rule α).run s p = .ok a q ↔ False := by
  simp [failHere]

/-! ## Passing tokens -/

theorem run_advance {u : Unit} :
    advance.run s p = .ok u q ↔ q = if p < s.size then p + 1 else p := by
  simp only [Rule.run, advance, EStateM.Result.ok.injEq, true_and]
  exact eq_comm

theorem run_advance_of_kind {u : Unit} (h : s.kind p ≠ .eof) :
    advance.run s p = .ok u q ↔ q = p + 1 := by
  rw [run_advance, if_pos (Stretch.lt_size_of_kind_ne h)]

@[simp] theorem run_eat {k : Kind} {b : Bool} (hk : k ≠ .eof) :
    (eat k).run s p = .ok b q
      ↔ (b = true ∧ Stretch.word s k p q) ∨ (b = false ∧ s.kind p ≠ k ∧ p = q) := by
  by_cases h : s.kind p = k
  · have hp : s.kind p ≠ .eof := h ▸ hk
    simp [eat, h, run_advance_of_kind hp, and_comm]
  · simp [eat, h]

@[simp] theorem run_expect {k : Kind} {u : Unit} (hk : k ≠ .eof) :
    (expect k).run s p = .ok u q ↔ Stretch.word s k p q := by
  by_cases h : s.kind p = k
  · have hp : s.kind p ≠ .eof := h ▸ hk
    simp [expect, h, run_advance_of_kind hp]
  · simp [expect, h]

@[simp] theorem run_identifier {i : Ident} :
    identifier.run s p = .ok i q ↔ Stretch.nameOf s i p q := by
  by_cases h : s.kind p = .identifier
  · have hp : s.kind p ≠ .eof := by simp [h]
    have hw : (s.word p).kind = .identifier := h
    simp [identifier, h, hw, run_advance_of_kind hp, and_assoc]
    rw [and_comm, eq_comm]
  · have hw : (s.word p).kind ≠ .identifier := h
    simp [identifier, h, hw, and_assoc]

@[simp] theorem run_extentFrom {start : Nat} {e : Extent} :
    (extentFrom start).run s p = .ok e q ↔ ⟨start, p⟩ = e ∧ p = q := by
  simp [extentFrom, and_assoc, and_comm]

/-! ## Alternatives -/

@[simp] theorem run_when {c : Bool} {r : Rule α} {o : Option α} :
    (when c r).run s p = .ok o q
      ↔ (c = true ∧ ∃ a, r.run s p = .ok a q ∧ some a = o) ∨ (c = false ∧ none = o ∧ p = q) := by
  cases c <;> simp [when]

theorem attempt_ok {r : Rule α} {o : Option α} (h : (attempt r).run s p = .ok o q) :
    (∃ a, o = some a ∧ r.run s p = .ok a q) ∨ (o = none ∧ p = q) := by
  simp only [Rule.run, attempt] at h ⊢
  cases hr : r s p with
  | ok a m =>
    rw [hr] at h
    cases h
    exact .inl ⟨a, rfl, rfl⟩
  | error m m' =>
    rw [hr] at h
    cases h
    exact .inr ⟨rfl, rfl⟩

theorem attempt_of_ok {r : Rule α} {a : α} (h : r.run s p = .ok a q) :
    (attempt r).run s p = .ok (some a) q := by
  simp only [Rule.run, attempt] at h ⊢
  rw [h]

/-- An attempt does not fail. -/
theorem exists_attempt (r : Rule α) : ∃ o q, (attempt r).run s p = .ok o q := by
  cases h : r.run s p with
  | ok a q => exact ⟨some a, q, attempt_of_ok h⟩
  | error m q => exact ⟨none, p, attempt_error h⟩

@[simp] theorem run_returnTo {start : Nat} {u : Unit} :
    (returnTo start).run s p = .ok u q ↔ start = q := by
  simp [Rule.run, returnTo]

/-! ## Repetition -/

/-- What holds of no rounds, and of one more round if it holds of the rounds behind it, holds of all
rounds of a rule that is repeated while a condition holds. -/
theorem manyWhile_induction {more : Rule Bool} {item : Rule α} {P : List α → Nat → Nat → Prop}
    (done : ∀ p q, more.run s p = .ok false q → P [] p q)
    (round : ∀ p m n q a as, more.run s p = .ok true m → item.run s m = .ok a n → P as n q →
      P (a :: as) p q)
    {as : List α} (h : (manyWhile more item).run s p = .ok as q) : P as p q := by
  have go (n : Nat) : ∀ p as, (repeatAtMost more item n).run s p = .ok as q → P as p q := by
    induction n with
    | zero => simp [repeatAtMost]
    | succ n ih =>
      intro p as h
      simp only [repeatAtMost, run_bind, run_ite, run_pure] at h
      obtain ⟨b, m, hm, ⟨rfl, a, k, ha, rest, l, hr, rfl, rfl⟩ | ⟨hb, rfl, rfl⟩⟩ := h
      · exact round p m k l a rest hm ha (ih k rest hr)
      · obtain rfl : b = false := by simpa using hb
        exact done p m hm
  exact go _ p as h

/-- More rounds than those that are made change nothing. -/
theorem run_repeatAtMost_of_le {more : Rule Bool} {item : Rule α} {k l : Nat} (hkl : k ≤ l)
    {as : List α} (h : (repeatAtMost more item k).run s p = .ok as q) :
    (repeatAtMost more item l).run s p = .ok as q := by
  induction k generalizing l p q as with
  | zero => simp [repeatAtMost] at h
  | succ k ih =>
    obtain ⟨l, rfl⟩ : ∃ l', l = l' + 1 := ⟨l - 1, by omega⟩
    simp only [repeatAtMost, run_bind, run_ite, run_pure] at h ⊢
    obtain ⟨b, m, hm, ⟨hb, a, n, ha, rest, r, hr, hrest⟩ | h⟩ := h
    · exact ⟨b, m, hm, .inl ⟨hb, a, n, ha, rest, r, ih (Nat.le_of_succ_le_succ hkl) hr, hrest⟩⟩
    · exact ⟨b, m, hm, .inr h⟩

/-- No round is made where the condition does not hold. -/
theorem manyWhile_nil {more : Rule Bool} {item : Rule α} (hp : p ≤ s.size)
    (hmore : more.run s p = .ok false q) : (manyWhile more item).run s p = .ok [] q := by
  have hrounds : s.size + 1 - p = s.size - p + 1 := by omega
  have h : (repeatAtMost more item (s.size - p + 1)).run s p = .ok [] q := by
    simp only [repeatAtMost, run_bind, run_ite, run_pure]
    exact ⟨false, q, hmore, .inr ⟨by simp, trivial, rfl⟩⟩
  rw [← hrounds] at h
  exact h

/-- A round that passes a token goes in front of the rounds behind it. -/
theorem manyWhile_cons {more : Rule Bool} {item : Rule α} {m n : Nat} {a : α} {as : List α}
    (hp : p ≤ s.size) (hpn : p < n) (hmore : more.run s p = .ok true m)
    (ha : item.run s m = .ok a n) (has : (manyWhile more item).run s n = .ok as q) :
    (manyWhile more item).run s p = .ok (a :: as) q := by
  have hrounds : s.size + 1 - p = s.size - p + 1 := by omega
  have hrest : (repeatAtMost more item (s.size - p)).run s n = .ok as q :=
    run_repeatAtMost_of_le (k := s.size + 1 - n) (by omega) has
  have h : (repeatAtMost more item (s.size - p + 1)).run s p = .ok (a :: as) q := by
    simp only [repeatAtMost, run_bind, run_ite, run_pure]
    exact ⟨true, m, hmore, .inl ⟨rfl, a, n, ha, as, q, hrest, rfl, rfl⟩⟩
  rw [← hrounds] at h
  exact h

/-- What is a list behind a separator goes on with the list in front of it. -/
theorem manyWhile_of_sepBy {separator : Kind} {item : Rule α} {as : List α} (hk : separator ≠ .eof)
    (hp : s.kind p = separator) (hle : ∀ {a n}, item.run s (p + 1) = .ok a n → p + 1 ≤ n)
    (h : (sepBy separator item).run s (p + 1) = .ok as q) :
    (manyWhile (eat separator) item).run s p = .ok as q := by
  simp only [sepBy, run_bind, run_pure] at h
  obtain ⟨a, n, ha, rest, _, hrest, rfl, rfl⟩ := h
  have hsize : p < s.size := Stretch.lt_size_of_kind_ne (hp ▸ hk)
  exact manyWhile_cons (Nat.le_of_lt hsize) (hle ha) ((run_eat hk).2 (.inl ⟨rfl, hp, rfl⟩)) ha hrest

section Lists

variable {item : Rule α} {separator : Kind} {one : α → Stretch} {R : Stretch → List α → Stretch}

/-- Entries with a separator in front of each, if every entry is read. -/
theorem list_of_manyWhile (hk : separator ≠ .eof) (nil : ∀ lead, R lead [] = .empty)
    (cons : ∀ lead a as,
      R lead (a :: as) = lead ++ one a ++ R (Stretch.word s separator) as)
    (sound : ∀ {p q a}, item.run s p = .ok a q → one a p q) {as : List α}
    (h : (manyWhile (eat separator) item).run s p = .ok as q) :
    R (Stretch.word s separator) as p q := by
  refine manyWhile_induction (P := fun as => R (Stretch.word s separator) as) ?_ ?_ h
  · intro p q h
    simp [hk] at h
    simp [nil, h]
  · intro p m n q a as hm ha ih
    simp [hk] at hm
    rw [cons]
    exact ⟨n, ⟨m, hm, sound ha⟩, ih⟩

/-- Entries with separators between them, the first one behind a lead. -/
theorem list_of_sepBy (hk : separator ≠ .eof) (nil : ∀ lead, R lead [] = .empty)
    (cons : ∀ lead a as,
      R lead (a :: as) = lead ++ one a ++ R (Stretch.word s separator) as)
    (sound : ∀ {p q a}, item.run s p = .ok a q → one a p q) {lead : Stretch} {m : Nat}
    (hl : lead p m) {as : List α} (h : (sepBy separator item).run s m = .ok as q) :
    as ≠ [] ∧ R lead as p q := by
  simp only [sepBy, run_bind, run_pure] at h
  obtain ⟨a, n, ha, rest, k, hr, rfl, rfl⟩ := h
  rw [cons]
  exact ⟨by simp, n, ⟨m, hl, sound ha⟩, list_of_manyWhile hk nil cons sound hr⟩

end Lists

end Stencil.Rule
