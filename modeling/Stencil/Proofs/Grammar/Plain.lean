import Stencil.Proofs.Grammar.Balance

/-!
# Plain tokens in brackets

Bodies are read without the grammar of statements and expressions, so tokens that begin nothing else
have to pass, whatever they are. A type is tried behind any name and given up without a mistake; only
`new`, the keywords of declarations, a dot in front of type arguments and the name of the intrinsics
class commit to a rule that can fail. The keyword `new` commits even where it ends a reference to a
constructor: nothing looks at the token in front of it, as is done for the keywords of declarations.

Results: a pair of brackets with plain tokens in between is read as a group up to its counterpart if
`new` does not occur, and is no group if `new` occurs in front of something that cannot be made
(`run_group_of_plain`).
-/

namespace Stencil

namespace Script

variable (s : Script)

/-- A code token that begins nothing but itself: it does not declare a class, an interface or an
enumeration, no type arguments stand behind it if it is a dot, it is not the intrinsics class, and if
it is `new` then it ends a reference to a constructor. -/
structure IsPlain (i : Nat) : Prop where
  code : s.kind i ≠ .eof
  declares : s.kind i = .kwClass ∨ s.kind i = .kwInterface ∨ s.kind i = .kwEnum →
    s.kind (i - 1) = .dot
  hint : s.kind i = .dot → s.kind (i + 1) ≠ .less
  receiver : s.kind i = .identifier → (s.word i).text ≠ s.receiver
  reference : s.kind i = .kwNew → s.kind (i - 1) = .colonColon

instance (i : Nat) : Decidable (s.IsPlain i) :=
  decidable_of_iff (s.kind i ≠ .eof
      ∧ (s.kind i = .kwClass ∨ s.kind i = .kwInterface ∨ s.kind i = .kwEnum →
        s.kind (i - 1) = .dot)
      ∧ (s.kind i = .dot → s.kind (i + 1) ≠ .less)
      ∧ (s.kind i = .identifier → (s.word i).text ≠ s.receiver)
      ∧ (s.kind i = .kwNew → s.kind (i - 1) = .colonColon))
    ⟨fun ⟨code, declares, hint, receiver, reference⟩ =>
        ⟨code, declares, hint, receiver, reference⟩,
      fun h => ⟨h.code, h.declares, h.hint, h.receiver, h.reference⟩⟩

/-- A bracket and its counterpart with well-nested brackets in between, all plain tokens. -/
structure PlainGroup (p q : Nat) : Prop where
  enclosed : ∃ (d : Delimiter) (m : Nat), s.kind p = d.opening ∧ s.kind m = d.closing ∧ p < m
    ∧ q = m + 1 ∧ WellNested (s.brackets (p + 1) m)
  plain : ∀ i, p ≤ i → i < q → s.IsPlain i

/-- Plain tokens other than `new` behind some token, up to a bracket that closes those around them. -/
structure PlainRun (p q : Nat) : Prop where
  behind : 0 < p ∧ s.kind (p - 1) ≠ .eof
  closed : ∃ d : Delimiter, s.kind q = d.closing
  le : p ≤ q
  nested : WellNested (s.brackets p q)
  plain : ∀ i, p ≤ i → i < q → s.IsPlain i ∧ s.kind i ≠ .kwNew

variable {s} {p q m : Nat}

namespace PlainRun

theorem lt_size (h : s.PlainRun p q) : q < s.size := by
  obtain ⟨d, hd⟩ := h.closed
  exact Stretch.lt_size_of_kind_ne (hd ▸ Grammar.closing_ne_eof d)

theorem isCloseDelimiter_eq_false (h : s.PlainRun p q) (hpq : p < q) :
    (s.kind p).isCloseDelimiter = false := by
  rw [← Bool.not_eq_true]
  intro hclose
  obtain ⟨d, hd⟩ := Delimiter.exists_closing hclose
  have hnested := h.nested
  rw [brackets_append p.le_succ hpq, brackets_succ, hd, if_pos d.isBracket_closing] at hnested
  exact WellNested.not_closing hnested

/-- What a rule has passed lies within the brackets around, and the run goes on behind it. -/
theorem of_passed (h : s.PlainRun p q) (hpm : p < m) (hm : Passed s p m) : s.PlainRun m q := by
  obtain ⟨d, hd⟩ := h.closed
  have hmq := le_of_closing hd h.le h.nested hm.wellNested
  refine ⟨⟨by omega, (h.plain (m - 1) (by omega) (by omega)).1.code⟩, ⟨d, hd⟩, hmq, ?_, ?_⟩
  · exact wellNested_behind hm.le hmq h.nested hm.wellNested
  · exact fun i hi => h.plain i (Nat.le_trans hm.le hi)

/-- A bracket has its counterpart within the run, and what is in between is a run. -/
theorem exists_of_opening {d : Delimiter} (h : s.PlainRun p q) (hpq : p < q)
    (hp : s.kind p = d.opening) : ∃ m, s.kind m = d.closing ∧ s.PlainRun (p + 1) m := by
  have hnested := h.nested
  rw [brackets_of_opening hp hpq] at hnested
  obtain ⟨inner, rest, hbrackets, hinner, -⟩ := hnested.exists_of_opening
  obtain ⟨m, hpm, hmq, hm, rfl, -⟩ := exists_of_brackets_eq hpq hbrackets
  refine ⟨m, hm, ⟨p.succ_pos, ?_⟩, ⟨d, hm⟩, hpm, hinner, fun i hi him => ?_⟩
  · exact (h.plain p p.le_refl hpq).1.code
  · exact h.plain i (by omega) (by omega)

end PlainRun

end Script

namespace Grammar

open Rule

variable {s : Script} {p q m : Nat} {g : Nested}

/-! ## One element -/

/-- A type that is tried and taken passes a name at least. -/
theorem lt_of_genericType (hg : g.Passes s) {t : TypeExpr}
    (h : (genericType g).run s p = .ok t q) : p < q := by
  simp [genericType, classType, and_assoc] at h
  obtain ⟨k, m, hm, as, m₁, has, -, n, hn, -⟩ := h
  obtain rfl := run_previousKind hm
  simp only [typeSegments, run_bind, run_pure] at has
  obtain ⟨a, m₂, ha, rest, m₃, hrest, -, rfl⟩ := has
  simp [typeSegment, and_assoc] at ha
  obtain ⟨-, args, hargs, -⟩ := ha
  have hargs := (passed_of_optionalTypeArgs hg hargs).le
  have hrest := (passed_of_dotAndName (passed_of_typeSegment hg) hrest).le
  have hdims := (passed_of_dims hn).le
  omega

theorem exists_previousKind : ∃ k, previousKind.run s p = .ok k p :=
  ⟨_, rfl⟩

/-- Looking for a generic type is no mistake where none stands. -/
theorem exists_genericType? : ∃ t q, (genericType? g).run s p = .ok t q := by
  obtain ⟨k, hk⟩ := exists_previousKind (s := s) (p := p)
  by_cases hdot : k = some .dot
  · refine ⟨none, p, ?_⟩
    simp [genericType?, and_assoc]
    exact ⟨k, p, hk, .inl ⟨hdot, rfl⟩⟩
  by_cases hnext : s.kind (p + 1) = .less ∨ s.kind (p + 1) = .dot
  · obtain ⟨t, q, ht⟩ := exists_attempt (s := s) (p := p) (genericType g)
    refine ⟨t, q, ?_⟩
    simp [genericType?, and_assoc]
    exact ⟨k, p, hk, .inr ⟨hdot, .inl ⟨hnext, ht⟩⟩⟩
  · obtain ⟨hless, hdotBehind⟩ := not_or.1 hnext
    refine ⟨none, p, ?_⟩
    simp [genericType?, and_assoc]
    exact ⟨k, p, hk, .inr ⟨hdot, .inr ⟨hless, hdotBehind, rfl⟩⟩⟩

/-- A generic type is found, or nothing is passed. -/
theorem genericType?_ok {t : Option TypeExpr} (h : (genericType? g).run s p = .ok t q) :
    (∃ u, t = some u ∧ (genericType g).run s p = .ok u q) ∨ (t = none ∧ p = q) := by
  simp [genericType?, and_assoc] at h
  obtain ⟨k, m, hk, h⟩ := h
  obtain rfl := run_previousKind hk
  rcases h with ⟨-, rfl, rfl⟩ | ⟨-, ⟨-, h⟩ | ⟨-, -, rfl, rfl⟩⟩
  · exact .inr ⟨rfl, rfl⟩
  · exact attempt_ok h
  · exact .inr ⟨rfl, rfl⟩

/-- A name that is not the receiver of an intrinsic call is an element, or a type behind it is. -/
theorem exists_namedElem (hg : g.Passes s) (hp : s.kind p = .identifier)
    (hreceiver : (s.word p).text ≠ s.receiver) :
    ∃ e q, (namedElem g).run s p = .ok e q ∧ p < q := by
  have hintrinsic : intrinsicFollows.run s p = .ok false p := by
    simpa [intrinsicFollows, hreceiver] using exists_previousKind
  obtain ⟨t, q, ht⟩ := exists_genericType? (g := g) (s := s) (p := p)
  rcases genericType?_ok ht with ⟨u, rfl, hu⟩ | ⟨rfl, rfl⟩
  · refine ⟨.type u, q, ?_, lt_of_genericType hg hu⟩
    simp [namedElem]
    exact ⟨p, hintrinsic, some u, q, ht, by simp⟩
  · refine ⟨.ident ⟨(s.word p).text, p⟩, p + 1, ?_, p.lt_succ_self⟩
    simp [namedElem]
    exact ⟨p, hintrinsic, none, p, ht, by simp [Stretch.nameOf, hp]⟩

theorem exists_plainToken (hp : s.kind p ≠ .eof) : ∃ e, plainToken.run s p = .ok e (p + 1) :=
  ⟨.token p, (run_plainToken hp).2 ⟨rfl, rfl⟩⟩

/-- A plain token that is no bracket passes, with what begins with it if it is a name. -/
theorem exists_elem (hg : g.Passes s) (hp : 0 < p) (hprevious : s.kind (p - 1) ≠ .eof)
    (hplain : s.IsPlain p) (hopen : (s.kind p).isOpenDelimiter = false) (hnew : s.kind p ≠ .kwNew) :
    ∃ es q, (elem g).run s p = .ok es q ∧ p < q := by
  have hk := run_previousKind_of_kind hp hprevious
  by_cases hname : s.kind p = .identifier
  · obtain ⟨e, q, he, hlt⟩ := exists_namedElem hg hname (hplain.receiver hname)
    refine ⟨[e], q, ?_, hlt⟩
    simp [elem, hname, Kind.isOpenDelimiter]
    exact ⟨_, p, hk, he⟩
  · obtain ⟨e, he⟩ := exists_plainToken hplain.code
    refine ⟨[e], p + 1, ?_, p.lt_succ_self⟩
    simp [elem, and_assoc, or_assoc, hname, hopen, hnew]
    exact ⟨_, p, hk, .inr ⟨fun hdecl => congrArg some (hplain.declares hdecl), hplain.hint, he⟩⟩

/-- A run of plain tokens begins with an element if the text in brackets is read. -/
theorem exists_elem_of_run (hg : g.Passes s) (h : s.PlainRun p q) (hpq : p < q)
    (hinner : ∀ {m}, s.PlainRun (p + 1) m → ∃ es, (g.elems false).run s (p + 1) = .ok es m) :
    ∃ es m, (elem g).run s p = .ok es m ∧ p < m := by
  by_cases hopen : (s.kind p).isOpenDelimiter
  · obtain ⟨d, hp⟩ := Delimiter.exists_opening hopen
    obtain ⟨m, hm, hrun⟩ := h.exists_of_opening hpq hp
    obtain ⟨es, hes⟩ := hinner hrun
    have hgroup := run_group.2 ⟨d, es, m, hp, hes, hm, rfl, rfl⟩
    refine ⟨[.group ⟨d, es, ⟨p, m + 1⟩⟩], m + 1, ?_, Nat.lt_succ_of_le (Nat.le_of_succ_le hrun.le)⟩
    simp [elem, hopen, hgroup]
  · obtain ⟨hplain, hnew⟩ := h.plain p p.le_refl hpq
    exact exists_elem hg h.behind.1 h.behind.2 hplain (by simpa using hopen) hnew

/-! ## Groups -/

/-- A run of plain tokens is read as elements up to its end. Each level of nested text is entered
behind a token, so there are levels enough. -/
theorem exists_elems {n : Nat} (h : s.PlainRun p q) (hlevels : s.size < n + p) :
    ∃ es, ((nested n).elems false).run s p = .ok es q := by
  have hsize := h.lt_size
  induction n generalizing p q with
  | zero =>
    have hle := h.le
    omega
  | succ n ih =>
    suffices hrounds : ∃ ess, (manyWhile (elemFollows false) (elem (nested n))).run s p = .ok ess q by
      obtain ⟨ess, hess⟩ := hrounds
      refine ⟨ess.flatten, ?_⟩
      simp [nested, elems]
      exact ⟨ess, hess, rfl⟩
    induction hrest : q - p using Nat.strongRecOn generalizing p with
    | ind rest hmore =>
      by_cases hpq : p = q
      · subst hpq
        obtain ⟨d, hd⟩ := h.closed
        exact ⟨[], manyWhile_nil (Nat.le_of_lt hsize) (by simp [elemFollows, hd, d.isCloseDelimiter_closing])⟩
      have hlt : p < q := Nat.lt_of_le_of_ne h.le hpq
      have hcode := (h.plain p p.le_refl hlt).1.code
      have hclose := h.isCloseDelimiter_eq_false hlt
      have hfollows : (elemFollows false).run s p = .ok true p := by
        simp [elemFollows, hclose, hcode]
      obtain ⟨es, m, hes, hpm⟩ := exists_elem_of_run (passes_nested s n) h hlt
        fun hinner => ih hinner (by omega) hinner.lt_size
      -- the element ends within the brackets, and the rounds behind it read the rest
      have hbehind := h.of_passed hpm (passed_of_elem (passes_nested s n) hcode hclose hes)
      have hmq := hbehind.le
      obtain ⟨ess, hess⟩ := hmore (q - m) (by omega) hbehind (by omega) rfl
      exact ⟨es :: ess, manyWhile_cons (by omega) hpm hfollows hes hess⟩

/-- A group that is found at a pair of brackets ends with it, and has passed what is in between. -/
theorem passed_of_enclosed {d : Delimiter} {b : Group} (hm : s.kind m = d.closing) (hpm : p < m)
    (hnested : WellNested (s.brackets (p + 1) m)) (h : (complete group).run s p = .ok b q) :
    q = m + 1 ∧ Passed s (p + 1) m := by
  rw [run_complete] at h
  obtain ⟨e, es, m', -, hes, hm', -, rfl⟩ := run_group.1 h
  have hpassed := passed_of_elems (passes_nested s _) hes
  obtain rfl := Script.eq_of_counterparts hm' hm hpassed.le hpm hpassed.wellNested hnested
  exact ⟨rfl, hpassed⟩

/-- Plain tokens in brackets are read as a group, which ends with the counterpart of the first
bracket, if `new` does not occur. They are no group if `new` stands in front of something that cannot
be made, as it does wherever it ends a reference to a constructor. -/
theorem run_group_of_plain (h : s.PlainGroup p q) :
    ((∀ i, p ≤ i → i < q → s.kind i ≠ .kwNew) → ∃ b, (complete group).run s p = .ok b q)
      ∧ ((∃ i, p ≤ i ∧ i < q ∧ s.kind i = .kwNew ∧ (s.kind (i + 1)).followsNew = false) →
        ∀ b m, (complete group).run s p ≠ .ok b m)
      ∧ ∀ b m, (complete group).run s p = .ok b m → m = q := by
  obtain ⟨d, m, hp, hm, hpm, rfl, hnested⟩ := h.enclosed
  refine ⟨fun hnew => ?_, ?_, fun b m' hb => (passed_of_enclosed hm hpm hnested hb).1⟩
  · have hrun : s.PlainRun (p + 1) m := by
      refine ⟨⟨p.succ_pos, (h.plain p p.le_refl (by omega)).code⟩, ⟨d, hm⟩, hpm, hnested, ?_⟩
      exact fun i hi him => ⟨h.plain i (by omega) (by omega), hnew i (by omega) (by omega)⟩
    obtain ⟨es, hes⟩ := exists_elems (n := s.size + 1) hrun (by omega)
    rw [run_complete]
    exact ⟨_, run_group.2 ⟨d, es, m, hp, hes, hm, rfl, rfl⟩⟩
  · rintro ⟨i, hpi, him, hi, hnext⟩ b m' hb
    -- neither bracket is the keyword
    have hip : i ≠ p := fun h => d.opening_ne_new (hp.symm.trans (h ▸ hi))
    have hmi : i ≠ m := fun h => d.closing_ne_new (hm.symm.trans (h ▸ hi))
    have hpassed := (passed_of_enclosed hm hpm hnested hb).2
    rw [hpassed.followsNew (by omega) (by omega) hi] at hnext
    contradiction

/-- The keyword `new` that ends a reference to a constructor does not keep a run from being plain. -/
theorem plainGroup_of_reference :
    (Script.ofSource (.ofString "(A::new)") "I").PlainGroup 0 5 := by
  refine ⟨⟨.paren, 4, by decide +kernel, by decide +kernel, by decide, rfl, ?_⟩, ?_⟩
  · have hbrackets : (Script.ofSource (.ofString "(A::new)") "I").brackets 1 4 = [] := by
      decide +kernel
    rw [hbrackets]
    exact .nil
  · have hplain : ∀ i < 5, (Script.ofSource (.ofString "(A::new)") "I").IsPlain i := by
      decide +kernel
    exact fun i _ hi => hplain i hi

/-- The theorem at a comparison that begins like a type, with a class literal in it, and at a reference
to a constructor. -/
theorem run_group_of_plain_reference :
    (∃ b, (complete group).run (.ofSource (.ofString "(a < b[c.class] > d::e)") "I") 0 = .ok b 14)
      ∧ ∀ b m, (complete group).run (.ofSource (.ofString "(A::new)") "I") 0 ≠ .ok b m := by
  constructor
  · have hgroup : (Script.ofSource (.ofString "(a < b[c.class] > d::e)") "I").PlainGroup 0 14 := by
      refine ⟨⟨.paren, 13, by decide +kernel, by decide +kernel, by decide, rfl, ?_⟩, ?_⟩
      · have hbrackets : (Script.ofSource (.ofString "(a < b[c.class] > d::e)") "I").brackets 1 13
            = [.leftBracket, .rightBracket] := by
          decide +kernel
        rw [hbrackets]
        exact .pair .bracket .nil .nil
      · have hplain : ∀ i < 14,
            (Script.ofSource (.ofString "(a < b[c.class] > d::e)") "I").IsPlain i := by
          decide +kernel
        exact fun i _ hi => hplain i hi
    have hnew : ∀ i < 14,
        (Script.ofSource (.ofString "(a < b[c.class] > d::e)") "I").kind i ≠ .kwNew := by
      decide +kernel
    exact (run_group_of_plain hgroup).1 fun i _ hi => hnew i hi
  · refine (run_group_of_plain plainGroup_of_reference).2.1 ⟨3, by decide, by decide, ?_, ?_⟩ <;>
      decide +kernel

/-- Not all plain tokens in brackets are read as a group. -/
theorem not_run_group_of_plain : ¬∀ (s : Script) (p q : Nat), s.PlainGroup p q →
    ∃ b, (complete group).run s p = .ok b q := by
  intro h
  obtain ⟨b, hb⟩ := h _ _ _ plainGroup_of_reference
  have hrefused : (match (complete group).run (.ofSource (.ofString "(A::new)") "I") 0 with
      | .ok _ _ => false
      | .error _ _ => true) = true := by
    decide +kernel
  rw [hb] at hrefused
  contradiction

end Grammar

end Stencil
