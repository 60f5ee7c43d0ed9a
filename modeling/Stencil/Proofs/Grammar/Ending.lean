import Stencil.Proofs.Grammar.Types

/-!
# How rules end

A rule that is repeated has an allowance of rounds, and rules for nested text have an allowance of
levels. Two runs of a rule with different allowances are compared outcome by outcome: they agree if both
end alike, with a result or with a mistake in the text, and not because an allowance was used up.

Results: outcomes agree through sequences, alternatives and attempts (`Agree.bind`, `agree_attempt`). A
loop whose rounds agree and pass a token each is the same with any two allowances that exceed the number
of the tokens left over (`agree_repeatAtMost`).
-/

namespace Stencil.Rule

variable {α β : Type} {s : Script} {p q low b : Nat}

/-! ## Outcomes -/

/-- Has a rule ended within the script, with a result not before the given position, or with a mistake
that is not about an allowance? -/
def Ends (s : Script) (low : Nat) : EStateM.Result Mistake Nat α → Prop
  | .ok _ q => low ≤ q ∧ q ≤ s.size
  | .error m q => m ≠ .exhausted ∧ q ≤ s.size

/-- Are two outcomes the same, and has the rule ended? -/
structure Agree (s : Script) (low : Nat) (o o' : EStateM.Result Mistake Nat α) : Prop where
  eq : o = o'
  ends : Ends s low o

namespace Agree

variable {o o' : EStateM.Result Mistake Nat α} {a : α} {m : Mistake}

theorem ok (hlow : low ≤ q) (hq : q ≤ s.size) : Agree s low (.ok a q) (.ok a q) :=
  ⟨rfl, hlow, hq⟩

theorem error (hm : m ≠ .exhausted) (hq : q ≤ s.size) :
    Agree s low (.error m q : EStateM.Result Mistake Nat α) (.error m q) :=
  ⟨rfl, hm, hq⟩

theorem of_le {high : Nat} (h : Agree s high o o') (hle : low ≤ high) : Agree s low o o' := by
  refine ⟨h.eq, ?_⟩
  have hends := h.ends
  cases o with
  | ok a q => exact ⟨Nat.le_trans hle hends.1, hends.2⟩
  | error m q => exact hends

theorem low_le (h : Agree s low (.ok a q) o') : low ≤ q :=
  h.ends.1

theorem le_size (h : Agree s low (.ok a q) o') : q ≤ s.size :=
  h.ends.2

end Agree

/-! ## Sequences -/

theorem bind_of_ok {x : Rule α} {f : α → Rule β} {a : α} (h : x.run s p = .ok a q) :
    (x >>= f).run s p = (f a).run s q := by
  unfold Rule.run at h ⊢
  simp only [bind, ReaderT.bind, EStateM.bind, h]

theorem bind_of_error {x : Rule α} {f : α → Rule β} {m : Mistake} (h : x.run s p = .error m q) :
    (x >>= f).run s p = .error m q := by
  unfold Rule.run at h ⊢
  simp only [bind, ReaderT.bind, EStateM.bind, h]

/-- Two sequences agree if their first parts do, and their second parts do behind any result of them. -/
theorem Agree.bind {mid : Nat} {x x' : Rule α} {f f' : α → Rule β}
    (hx : Agree s mid (x.run s p) (x'.run s p))
    (hf : ∀ a m, x.run s p = .ok a m → mid ≤ m → m ≤ s.size →
      Agree s low ((f a).run s m) ((f' a).run s m)) :
    Agree s low ((x >>= f).run s p) ((x' >>= f').run s p) := by
  have hends := hx.ends
  cases hrun : x.run s p with
  | ok a m =>
    rw [hrun] at hends
    have hrun' : x'.run s p = .ok a m := hx.eq.symm.trans hrun
    rw [bind_of_ok hrun, bind_of_ok hrun']
    exact hf a m hrun hends.1 hends.2
  | error m q =>
    rw [hrun] at hends
    have hrun' : x'.run s p = .error m q := hx.eq.symm.trans hrun
    rw [bind_of_error hrun, bind_of_error hrun']
    exact .error hends.1 hends.2

theorem agree_pure {a : α} (hlow : low ≤ p) (hp : p ≤ s.size) :
    Agree s low ((pure a : Rule α).run s p) ((pure a : Rule α).run s p) :=
  .ok hlow hp

theorem agree_map {x x' : Rule α} {f : α → β} (h : Agree s low (x.run s p) (x'.run s p)) :
    Agree s low ((f <$> x).run s p) ((f <$> x').run s p) := by
  have hbind (r : Rule α) : (f <$> r).run s p = (r >>= fun a => pure (f a)).run s p := by
    unfold Rule.run
    simp only [Functor.map, EStateM.map, bind, ReaderT.bind, EStateM.bind]
    cases r s p <;> rfl
  rw [hbind, hbind]
  exact h.bind fun a m _ hlow hm => agree_pure hlow hm

theorem agree_throw {m : Mistake} (hm : m ≠ .exhausted) (hp : p ≤ s.size) :
    Agree s low ((throw m : Rule α).run s p) ((throw m : Rule α).run s p) :=
  .error hm hp

theorem throw_bind {m : Mistake} {f : α → Rule β} :
    ((throw m : Rule α) >>= f).run s p = (throw m : Rule β).run s p :=
  rfl

/-! ## Looking at tokens -/

section Looks

variable {k : Kind} {n : Nat}

theorem position_bind {f : Nat → Rule β} : (position >>= f).run s p = (f p).run s p :=
  rfl

theorem peek_bind {f : Lexeme → Rule β} : (peek >>= f).run s p = (f (s.word p)).run s p :=
  rfl

theorem peekNth_bind {f : Lexeme → Rule β} :
    (peekNth n >>= f).run s p = (f (s.word (p + n))).run s p :=
  rfl

theorem kind_bind {f : Kind → Rule β} : (kind >>= f).run s p = (f (s.kind p)).run s p :=
  rfl

theorem check_bind {f : Bool → Rule β} :
    (check k >>= f).run s p = (f (s.kind p == k)).run s p :=
  rfl

theorem checkNth_bind {f : Bool → Rule β} :
    (checkNth n k >>= f).run s p = (f (s.kind (p + n) == k)).run s p :=
  rfl

theorem atEnd_bind {f : Bool → Rule β} : (atEnd >>= f).run s p = (f (s.kind p == .eof)).run s p :=
  rfl

theorem read_bind {f : Script → Rule β} : (read >>= f).run s p = (f s).run s p :=
  rfl

theorem previousKind_bind {f : Option Kind → Rule β} :
    (previousKind >>= f).run s p = (f (s.kindBefore p)).run s p :=
  rfl

theorem returnTo_bind {start : Nat} {f : Unit → Rule β} :
    (returnTo start >>= f).run s p = (f ()).run s start :=
  rfl

/-- What a rule has found with its extent, which is taken at its end. -/
theorem agree_node {start : Nat} {f : Extent → α} (hlow : low ≤ p) (hp : p ≤ s.size) :
    Agree s low ((do return f (← extentFrom start) : Rule α).run s p)
      ((do return f (← extentFrom start) : Rule α).run s p) :=
  .ok hlow hp

/-- Does the rule find something at every position without going on? -/
def OnlyLooks (r : Rule α) : Prop :=
  ∀ s p, ∃ a, r.run s p = .ok a p

theorem OnlyLooks.agree {r : Rule α} (h : OnlyLooks r) (hp : p ≤ s.size) :
    Agree s p (r.run s p) (r.run s p) := by
  obtain ⟨a, ha⟩ := h s p
  rw [ha]
  exact .ok (Nat.le_refl p) hp

theorem OnlyLooks.eq {r : Rule α} (h : OnlyLooks r) {a : α} (hr : r.run s p = .ok a q) : q = p := by
  obtain ⟨a', ha⟩ := h s p
  rw [ha] at hr
  cases hr
  rfl

theorem onlyLooks_check : OnlyLooks (check k) :=
  fun _ _ => ⟨_, rfl⟩

end Looks

/-! ## Passing tokens -/

theorem agree_failHere {m : Mistake} (hm : m ≠ .exhausted) (hp : p ≤ s.size) :
    Agree s low ((failHere m : Rule α).run s p) ((failHere m : Rule α).run s p) := by
  unfold failHere
  rw [atEnd_bind]
  split
  · exact agree_throw (by decide) hp
  · exact agree_throw hm hp

theorem agree_advance (h : s.kind p ≠ .eof) :
    Agree s (p + 1) (advance.run s p) (advance.run s p) := by
  have hlt := Stretch.lt_size_of_kind_ne h
  have hrun : advance.run s p = .ok () (p + 1) := (run_advance_of_kind h).2 rfl
  rw [hrun]
  exact .ok (Nat.le_refl _) hlt

/-- At the end of the text nothing is passed. -/
theorem agree_advance_of_le (hp : p ≤ s.size) : Agree s p (advance.run s p) (advance.run s p) := by
  have hrun : advance.run s p = .ok () (if p < s.size then p + 1 else p) := rfl
  rw [hrun]
  split
  · exact .ok (Nat.le_succ p) (by assumption)
  · exact .ok (Nat.le_refl p) hp

theorem agree_eat {k : Kind} (hp : p ≤ s.size) : Agree s p ((eat k).run s p) ((eat k).run s p) := by
  unfold eat
  rw [check_bind]
  split
  · exact (agree_advance_of_le hp).bind fun _ m _ hm hsize => agree_pure hm hsize
  · exact agree_pure (Nat.le_refl p) hp

theorem eq_of_eat {k : Kind} (hk : k ≠ .eof) (h : (eat k).run s p = .ok true q) : q = p + 1 := by
  rcases (run_eat hk).1 h with ⟨-, -, rfl⟩ | ⟨hfalse, -⟩
  · rfl
  · contradiction

theorem agree_expect_of_le {k : Kind} (hp : p ≤ s.size) :
    Agree s p ((expect k).run s p) ((expect k).run s p) := by
  unfold expect
  rw [check_bind]
  split
  · exact agree_advance_of_le hp
  · exact agree_failHere (by simp) hp

theorem agree_expect {k : Kind} (hk : k ≠ .eof) (hp : p ≤ s.size) :
    Agree s (p + 1) ((expect k).run s p) ((expect k).run s p) := by
  unfold expect
  rw [check_bind]
  split
  · rename_i hkind
    exact agree_advance fun h => hk ((beq_iff_eq.1 hkind).symm.trans h)
  · exact agree_failHere (by simp) hp

theorem agree_identifier (hp : p ≤ s.size) :
    Agree s (p + 1) (identifier.run s p) (identifier.run s p) := by
  unfold identifier
  rw [peek_bind, position_bind]
  split
  · rename_i hkind
    have hne : s.kind p ≠ .eof := by
      intro heof
      rw [show (s.word p).kind = .eof from heof] at hkind
      contradiction
    exact (agree_advance hne).bind fun _ m _ hm hsize => agree_pure hm hsize
  · exact agree_failHere (by decide) hp

/-! ## Alternatives -/

theorem agree_when {c : Bool} {r r' : Rule α} (hlow : low ≤ p) (hp : p ≤ s.size)
    (h : c = true → Agree s low (r.run s p) (r'.run s p)) :
    Agree s low ((when c r).run s p) ((when c r').run s p) := by
  unfold when
  split
  · rename_i hc
    exact agree_map (h hc)
  · exact agree_pure hlow hp

/-- Attempts agree if what is attempted does, also where it fails and the position moves back. -/
theorem agree_attempt {r r' : Rule α} (hlow : p ≤ low) (hp : p ≤ s.size)
    (h : Agree s low (r.run s p) (r'.run s p)) :
    Agree s p ((attempt r).run s p) ((attempt r').run s p) := by
  have hends := h.ends
  cases hrun : r.run s p with
  | ok a q =>
    rw [hrun] at hends
    rw [attempt_of_ok hrun, attempt_of_ok (h.eq.symm.trans hrun)]
    exact .ok (Nat.le_trans hlow hends.1) hends.2
  | error m q =>
    rw [attempt_error hrun, attempt_error (h.eq.symm.trans hrun)]
    exact .ok (Nat.le_refl p) hp

/-! ## Loops -/

/-- Do the rounds of two loops agree, as long as what is nested in them stands at the given position or
behind it? A round passes a token: the one that the condition passes, or the first one of the item. -/
structure RoundsAgree (s : Script) (b : Nat) (more more' : Rule Bool) (item item' : Rule α) : Prop where
  again : ∀ {p}, b ≤ p + 1 → p ≤ s.size → Agree s p (more.run s p) (more'.run s p)
  round : ∀ {p m}, b ≤ p + 1 → more.run s p = .ok true m → p ≤ m → m ≤ s.size →
    Agree s (p + 1) (item.run s m) (item'.run s m)

variable {more more' : Rule Bool} {item item' : Rule α} {separator : Kind}

/-- Loops agree if their rounds do, whatever the allowances, if these exceed the number of the tokens
left over. The induction is on one of the allowances; each round leaves one token less, at least. -/
theorem agree_repeatAtMost (h : RoundsAgree s b more more' item item') {n n' : Nat} (hb : b ≤ p + 1)
    (hp : p ≤ s.size) (hn : s.size < p + n) (hn' : s.size < p + n') :
    Agree s p ((repeatAtMost more item n).run s p) ((repeatAtMost more' item' n').run s p) := by
  induction n generalizing p n' with
  | zero => omega
  | succ n ih =>
    cases n' with
    | zero => omega
    | succ n' =>
      unfold repeatAtMost
      refine (h.again hb hp).bind fun goesOn m hmore hm hsize => ?_
      cases goesOn with
      | false => exact agree_pure hm hsize
      | true =>
        refine (h.round hb hmore hm hsize).bind fun a k _ hk hksize => ?_
        have hrest := ih (by omega) hksize (by omega) (show s.size < k + n' by omega)
        exact hrest.bind fun as l _ hl hlsize => agree_pure (by omega) hlsize

theorem agree_manyWhile (h : RoundsAgree s b more more' item item') (hb : b ≤ p + 1) (hp : p ≤ s.size) :
    Agree s p ((manyWhile more item).run s p) ((manyWhile more' item').run s p) :=
  agree_repeatAtMost h hb hp (by omega) (by omega)

/-- A round behind a separator. -/
theorem roundsAgree_eat (hk : separator ≠ .eof)
    (hitem : ∀ {p}, b ≤ p → p ≤ s.size → Agree s p (item.run s p) (item'.run s p)) :
    RoundsAgree s b (eat separator) (eat separator) item item' where
  again _ hp := agree_eat hp
  round := by
    intro p m hb hmore hpm hm
    obtain rfl := eq_of_eat hk hmore
    exact hitem hb hm

theorem agree_sepBy (hb : b ≤ p + 1) (hlow : p ≤ low)
    (hfirst : Agree s low (item.run s p) (item'.run s p))
    (h : RoundsAgree s b (eat separator) (eat separator) item item') :
    Agree s low ((sepBy separator item).run s p) ((sepBy separator item').run s p) := by
  unfold sepBy
  refine hfirst.bind fun first m _ hm hsize => ?_
  refine (agree_manyWhile h (by omega) hsize).bind fun rest n _ hn hnsize => ?_
  exact agree_pure (by omega) hnsize

end Stencil.Rule
