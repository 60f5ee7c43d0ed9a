import Stencil.Proofs.Rewrite.Fits

/-!
# The edits of a walk

The walk over an outline that is laid out in a stretch of code keeps to the stretch: its edits come
in order and share no token. That holds of the walk over every entry of a list and over every
argument of a call too, so nothing that is rendered on its own fails for its edits.

Results: the steps of a laid out outline fit (`Outline.fits_stepsAll`), and every part that is
rendered on its own is laid out in its extent (`Outline.laidIn_partsAll`).
-/

namespace Stencil.Rewrite

open Stretch

variable {j : Job} {receiver : String} {p m q : Nat}

/-! ## Single edits -/

theorem covers_range (hs : j.source.Indexed) {a b : Nat} (h : a < b) :
    Covers j.source a b q (j.source.range ⟨a, b⟩) := by
  have hle := hs.index_le_index (show a ≤ b - 1 by omega)
  refine ⟨h, rfl, ?_, ?_⟩ <;> simp only [Source.range, if_pos h]
  · omega
  · exact .inl (Nat.le_refl _)

theorem fits_edit (hs : j.source.Indexed) (h : p < q) (text : String) :
    Fits j.source q p [.ok ⟨j.source.range ⟨p, q⟩, text⟩] :=
  ⟨p, q, Nat.le_refl _, covers_range hs h, Nat.le_refl _⟩

theorem fits_renamed (hs : j.source.Indexed) {i : Ident} (text : Option String)
    (h : nameOf (.ofSource j.source receiver) i p q) : Fits j.source q p (j.renamed i text) := by
  obtain ⟨-, rfl, rfl⟩ := h
  cases text with
  | none => exact Nat.le_succ p
  | some text =>
    have hsingle : j.source.single p = j.source.range ⟨p, p + 1⟩ := by
      simp [Source.single, Source.range, TokenRange.single]
    simp only [Job.renamed, hsingle]
    exact fits_edit hs (by omega) text

theorem fits_keepArgs (hs : j.source.Indexed) (h : p < q) {kept : Except SpecializeError (List String)}
    (he : ∀ e, kept = .error e → e.isInternal = false) :
    Fits j.source q p (j.keepArgs ⟨p, q⟩ kept) := by
  cases kept with
  | error e => exact ⟨he e rfl, Nat.le_of_lt h⟩
  | ok kept => exact fits_edit hs h _

/-- The edit of type parameters may take the blank behind them with it, since a code token that is
still in the stretch follows. -/
theorem fits_keepParams_append (hs : j.source.Indexed) (hq : q ≤ j.source.code.size) (h : p < m)
    (hmq : m < q) {kept : Except SpecializeError (List String)}
    (he : ∀ e, kept = .error e → e.isInternal = false) {ys : List Step}
    (hy : Fits j.source q m ys) : Fits j.source q p (j.keepParams ⟨p, m⟩ kept ++ ys) := by
  cases kept with
  | error e => exact ⟨he e rfl, hy.lead (Nat.le_of_lt h)⟩
  | ok kept =>
    refine ⟨p, m, Nat.le_refl _, ?_, hy⟩
    split
    · simp only [Job.absorbBlank]
      split
      · rename_i hblank
        have hc : Covers j.source p m q (j.source.range ⟨p, m⟩) := covers_range hs h
        have hstop : (j.source.range ⟨p, m⟩).stop = j.source.index (m - 1) + 1 := by
          simp [Source.range, h]
        have hcode : (j.source.tokenAt (j.source.index (m - 1) + 1)).isCode = false := by
          simp [hstop] at hblank
          simp [Token.isCode, hblank.2, Kind.isCode, Kind.channel]
        have hnext := hs.add_two_le_index (p := m - 1) (by omega) hcode
        rw [Nat.sub_add_cancel (by omega)] at hnext
        exact ⟨h, hc.start_eq, Nat.lt_succ_of_lt hc.start_lt, .inr ⟨hmq, by simp [hstop]; omega⟩⟩
      · exact covers_range hs h
    · exact covers_range hs h

/-- A call is refused if its hint names no type, if an argument is refused or if its operation is. -/
theorem call_eq {c : IntrinsicCall} {operands : Except SpecializeError (List Operand)} :
    j.call c operands =
      let fail := fun fault =>
        SpecializeError.call fault (j.sourceText c.extent) (j.source.spanAt c.receiver.position)
      match j.target c.hint, operands with
      | .error fault, _ => [.error (fail fault)]
      | .ok _, .error e => [.error e]
      | .ok target, .ok args =>
        match applyNamed j.vocabulary.mixer target c.name.name args with
        | .error fault => [.error (fail fault)]
        | .ok text => [.ok ⟨j.source.range c.extent, text⟩] := by
  simp only [Job.call]
  cases j.target c.hint with
  | error fault => rfl
  | ok target =>
    cases operands with
    | error e => rfl
    | ok args =>
      dsimp only
      change [((applyNamed j.vocabulary.mixer target c.name.name args).mapError _).map _] = _
      cases applyNamed j.vocabulary.mixer target c.name.name args with
      | error fault => rfl
      | ok text => rfl

/-- A call that is not refused has a type, arguments and an operation with a pattern for them. -/
theorem exists_of_call {c : IntrinsicCall} {operands : Except SpecializeError (List Operand)}
    (h : firstError? (j.call c operands) = none) :
    ∃ target os o pattern, j.target c.hint = .ok target ∧ operands = .ok os
      ∧ Operation.ofName? c.name.name = some o
      ∧ o.pattern j.vocabulary.mixer target os.length = .ok pattern
      ∧ j.call c operands = [.ok ⟨j.source.range c.extent, fill os pattern⟩] := by
  rw [call_eq] at h ⊢
  cases htarget : j.target c.hint with
  | error e => simp [htarget, firstError?] at h
  | ok target =>
    cases operands with
    | error e => simp [htarget, firstError?] at h
    | ok os =>
      cases ho : Operation.ofName? c.name.name with
      | none => simp [htarget, applyNamed, ho, firstError?] at h
      | some o =>
        cases hpattern : o.pattern j.vocabulary.mixer target os.length with
        | error e => simp [htarget, applyNamed, ho, hpattern, Except.map, firstError?] at h
        | ok pattern =>
          exact ⟨target, os, o, pattern, rfl, rfl, rfl, hpattern, by simp [applyNamed, ho, hpattern, Except.map]⟩

theorem fits_call (hs : j.source.Indexed) (h : p < q) {c : IntrinsicCall} (hc : c.extent = ⟨p, q⟩)
    {operands : Except SpecializeError (List Operand)}
    (he : ∀ e, operands = .error e → e.isInternal = false) :
    Fits j.source q p (j.call c operands) := by
  rw [call_eq]
  cases j.target c.hint with
  | error f => exact ⟨rfl, Nat.le_of_lt h⟩
  | ok target =>
    cases operands with
    | error e => exact ⟨he e rfl, Nat.le_of_lt h⟩
    | ok args =>
      dsimp only
      cases applyNamed j.vocabulary.mixer target c.name.name args with
      | error f => exact ⟨rfl, Nat.le_of_lt h⟩
      | ok text =>
        rw [hc]
        exact fits_edit hs h text

/-- Two results one after the other fail only if one of them does. -/
theorem error_of_bind {α β γ : Type} {x : Except SpecializeError α} {y : Except SpecializeError β}
    {f : α → β → γ} {e : SpecializeError} (h : (do let a ← x; return f a (← y)) = .error e) :
    x = .error e ∨ y = .error e := by
  cases x with
  | error e' => exact .inl (by simpa [bind, Except.bind] using h)
  | ok a =>
    cases y with
    | error e' => exact .inr (by simpa [bind, Except.bind] using h)
    | ok b => simp [bind, Except.bind, pure, Except.pure] at h

/-! ## Outlines -/

mutual

theorem Outline.fits_steps_append (hs : j.source.Indexed) {a : Stretch} {ys : List Step} {p m q : Nat}
    (hq : q ≤ j.source.code.size) (hy : Fits j.source q m ys) :
    ∀ {o : Outline}, o.laid (.ofSource j.source receiver) p m → o.before a m q →
      Fits j.source q p (o.steps j ++ ys)
  | .name i, h, _ => (fits_renamed hs _ h).append hy
  | .part i args, h, _ => (fits_renamed hs _ h).append hy
  | .typeArgs owner entries extent, ⟨⟨hrow, hlt⟩, he⟩, _ => by
    have hm := Nat.le_trans hy.le hq
    obtain rfl : extent = ⟨p, m⟩ := he
    refine Fits.append (m := m) ?_ hy
    simp only [Outline.steps]
    split
    · split
      · exact Nat.le_of_lt hlt
      · exact fits_edit hs hlt ""
    · split
      · exact fits_keepArgs hs hlt (fun _ => Outline.not_isInternal_of_keptArgs hs hm hrow)
      · exact Outline.fits_argSteps hs hm hrow
  | .typeParams entries extent, ⟨⟨hrow, hlt⟩, he⟩, ⟨_, hmq⟩ => by
    have hm := Nat.le_trans hy.le hq
    obtain rfl : extent = ⟨p, m⟩ := he
    simp only [Outline.steps]
    split
    · exact fits_keepParams_append hs hq hlt hmq
        (fun _ => Outline.not_isInternal_of_keptParams hs hm hrow) hy
    · exact (Outline.fits_paramSteps hs hm hrow).append hy
  | .call c args, ⟨⟨hr, m', hn, hrow⟩, he⟩, _ => by
    have hm := Nat.le_trans hy.le hq
    have hlt : p < m := by
      obtain ⟨m₁, ⟨m₂, ⟨m₃, hrec, hdot⟩, hhint⟩, hname⟩ := hn
      have := hrec.2.2
      have := hdot.2
      have := (TypeArgs.reads? _ _).le hhint
      have := hname.2.2
      have := (row _ _).le hrow
      omega
    refine Fits.append (m := m) ?_ hy
    exact fits_call hs hlt he (fun _ => Outline.not_isInternal_of_operands hs hm hrow)

theorem Outline.fits_stepsAll (hs : j.source.Indexed) {p q : Nat} (hq : q ≤ j.source.code.size) :
    ∀ {os : List Outline}, Outline.laidAll (.ofSource j.source receiver) os p q →
      Fits j.source q p (Outline.stepsAll j os)
  | [], h => h.1
  | o :: os, ⟨m, ⟨m', hn, ho⟩, h⟩ => by
    have hos := Outline.fits_stepsAll hs hq (of_before h)
    exact (Outline.fits_steps_append hs hq hos ho h).lead hn.1

theorem Outline.fits_argSteps (hs : j.source.Indexed) {p q : Nat} (hq : q ≤ j.source.code.size) :
    ∀ {es : List (TypeArg × List Outline)},
      row (.ofSource j.source receiver) (Outline.argRow (.ofSource j.source receiver) es) p q →
      Fits j.source q p (Outline.argSteps j es)
  | [], h => h.1
  | (a, inner) :: es, ⟨m, ⟨m', hn, h, he⟩, hes⟩ => by
    have hm := Nat.le_trans ((row _ _).le hes) hq
    have hinner := Outline.fits_stepsAll hs hm h
    exact (hinner.append (Outline.fits_argSteps hs hq hes)).lead hn.1

theorem Outline.not_isInternal_of_keptArgs (hs : j.source.Indexed) {p q : Nat}
    (hq : q ≤ j.source.code.size) :
    ∀ {es : List (TypeArg × List Outline)} {slots : List Placeholder} {e : SpecializeError},
      row (.ofSource j.source receiver) (Outline.argRow (.ofSource j.source receiver) es) p q →
      Outline.keptArgs j slots es = .error e → e.isInternal = false
  | [], _, _, _, h => by simp [Outline.keptArgs] at h
  | (a, inner) :: es, slots, e, ⟨m, ⟨m', _, h, he⟩, hes⟩, hk => by
    have hm := Nat.le_trans ((row _ _).le hes) hq
    simp only [Outline.keptArgs] at hk
    split at hk
    · exact Outline.not_isInternal_of_keptArgs hs hq hes hk
    · rcases error_of_bind hk with hk | hk
      · rw [he] at hk
        exact (Outline.fits_stepsAll hs hm h).not_isInternal_of_render hs hm hk
      · exact Outline.not_isInternal_of_keptArgs hs hq hes hk

theorem Outline.fits_paramSteps (hs : j.source.Indexed) {p q : Nat} (hq : q ≤ j.source.code.size) :
    ∀ {es : List (TypeParam × List Outline)},
      row (.ofSource j.source receiver) (Outline.paramRow (.ofSource j.source receiver) es) p q →
      Fits j.source q p (Outline.paramSteps j es)
  | [], h => h.1
  | (a, inner) :: es, ⟨m, ⟨m', hn, h, he⟩, hes⟩ => by
    have hm := Nat.le_trans ((row _ _).le hes) hq
    have hinner := Outline.fits_stepsAll hs hm h
    exact (hinner.append (Outline.fits_paramSteps hs hq hes)).lead hn.1

theorem Outline.not_isInternal_of_keptParams (hs : j.source.Indexed) {p q : Nat}
    (hq : q ≤ j.source.code.size) :
    ∀ {es : List (TypeParam × List Outline)} {e : SpecializeError},
      row (.ofSource j.source receiver) (Outline.paramRow (.ofSource j.source receiver) es) p q →
      Outline.keptParams j es = .error e → e.isInternal = false
  | [], _, _, h => by simp [Outline.keptParams] at h
  | (a, inner) :: es, e, ⟨m, ⟨m', _, h, he⟩, hes⟩, hk => by
    have hm := Nat.le_trans ((row _ _).le hes) hq
    simp only [Outline.keptParams] at hk
    split at hk
    · exact Outline.not_isInternal_of_keptParams hs hq hes hk
    · rcases error_of_bind hk with hk | hk
      · rw [he] at hk
        exact (Outline.fits_stepsAll hs hm h).not_isInternal_of_render hs hm hk
      · exact Outline.not_isInternal_of_keptParams hs hq hes hk

theorem Outline.not_isInternal_of_operands (hs : j.source.Indexed) {p q : Nat}
    (hq : q ≤ j.source.code.size) :
    ∀ {es : List (Expr × List Outline)} {e : SpecializeError},
      row (.ofSource j.source receiver) (Outline.operandRow (.ofSource j.source receiver) es) p q →
      Outline.operands j es = .error e → e.isInternal = false
  | [], _, _, h => by simp [Outline.operands] at h
  | (x, inner) :: es, e, ⟨m, ⟨m', _, h, he⟩, hes⟩, hk => by
    have hm := Nat.le_trans ((row _ _).le hes) hq
    rcases error_of_bind hk with hk | hk
    · rw [he] at hk
      exact (Outline.fits_stepsAll hs hm h).not_isInternal_of_render hs hm hk
    · exact Outline.not_isInternal_of_operands hs hq hes hk

end

/-! ## Parts that are rendered on their own -/

mutual

/-- The type arguments, type parameters and arguments of calls in a place, at every depth: their
extents and their outlines. -/
def Outline.parts : Outline → List (Extent × List Outline)
  | .name _ => []
  | .part _ _ => []
  | .typeArgs _ entries _ => Outline.argParts entries
  | .typeParams entries _ => Outline.paramParts entries
  | .call _ args => Outline.operandParts args

/-- The parts of an outline. -/
def Outline.partsAll : List Outline → List (Extent × List Outline)
  | [] => []
  | o :: rest => Outline.parts o ++ Outline.partsAll rest

/-- Type arguments and the parts in them. -/
def Outline.argParts : List (TypeArg × List Outline) → List (Extent × List Outline)
  | [] => []
  | (a, inner) :: rest => (a.extent, inner) :: (Outline.partsAll inner ++ Outline.argParts rest)

/-- Type parameters and the parts in them. -/
def Outline.paramParts : List (TypeParam × List Outline) → List (Extent × List Outline)
  | [] => []
  | (a, inner) :: rest => (a.extent, inner) :: (Outline.partsAll inner ++ Outline.paramParts rest)

/-- Arguments of calls and the parts in them. -/
def Outline.operandParts : List (Expr × List Outline) → List (Extent × List Outline)
  | [] => []
  | (e, inner) :: rest => (e.extent, inner) :: (Outline.partsAll inner ++ Outline.operandParts rest)

end

/-- Is the outline laid out in the extent, and does the extent end at or before a position? -/
def LaidIn (s : Script) (q : Nat) (part : Extent × List Outline) : Prop :=
  Outline.laidAll s part.2 part.1.first part.1.stop ∧ part.1.stop ≤ q

theorem LaidIn.mono {s : Script} {part : Extent × List Outline} (h : LaidIn s m part) (hmq : m ≤ q) :
    LaidIn s q part :=
  ⟨h.1, Nat.le_trans h.2 hmq⟩

theorem laidIn_of_within {s : Script} {e : Extent} {os : List Outline}
    (h : within e (Outline.laidAll s os) p q) : LaidIn s q (e, os) := by
  obtain ⟨h, rfl⟩ := h
  exact ⟨h, Nat.le_refl q⟩

mutual

theorem Outline.laidIn_parts {s : Script} {p q : Nat} : ∀ {o : Outline}, o.laid s p q →
    ∀ x ∈ o.parts, LaidIn s q x
  | .name _, _, _, hx => by simp [Outline.parts] at hx
  | .part _ _, _, _, hx => by simp [Outline.parts] at hx
  | .typeArgs _ _ _, ⟨⟨h, _⟩, _⟩, x, hx => Outline.laidIn_argParts h x hx
  | .typeParams _ _, ⟨⟨h, _⟩, _⟩, x, hx => Outline.laidIn_paramParts h x hx
  | .call _ _, ⟨⟨_, _, _, h⟩, _⟩, x, hx => Outline.laidIn_operandParts h x hx

theorem Outline.laidIn_partsAll {s : Script} {p q : Nat} : ∀ {os : List Outline},
    Outline.laidAll s os p q → ∀ x ∈ Outline.partsAll os, LaidIn s q x
  | [], _, _, hx => by simp [Outline.partsAll] at hx
  | o :: os, ⟨m, ⟨m', _, ho⟩, hos⟩, x, hx => by
    have hos := of_before hos
    rcases List.mem_append.1 hx with hx | hx
    · exact (Outline.laidIn_parts ho x hx).mono ((Outline.laidAll s os).le hos)
    · exact Outline.laidIn_partsAll hos x hx

theorem Outline.laidIn_argParts {s : Script} {p q : Nat} : ∀ {es : List (TypeArg × List Outline)},
    row s (Outline.argRow s es) p q → ∀ x ∈ Outline.argParts es, LaidIn s q x
  | [], _, _, hx => by simp [Outline.argParts] at hx
  | (a, inner) :: es, ⟨m, ⟨m', _, h⟩, hes⟩, x, hx => by
    have hle := (row s _).le hes
    simp only [Outline.argParts, List.mem_cons, List.mem_append] at hx
    rcases hx with rfl | hx | hx
    · exact (laidIn_of_within h).mono hle
    · exact (Outline.laidIn_partsAll h.1 x hx).mono hle
    · exact Outline.laidIn_argParts hes x hx

theorem Outline.laidIn_paramParts {s : Script} {p q : Nat} :
    ∀ {es : List (TypeParam × List Outline)},
    row s (Outline.paramRow s es) p q → ∀ x ∈ Outline.paramParts es, LaidIn s q x
  | [], _, _, hx => by simp [Outline.paramParts] at hx
  | (a, inner) :: es, ⟨m, ⟨m', _, h⟩, hes⟩, x, hx => by
    have hle := (row s _).le hes
    simp only [Outline.paramParts, List.mem_cons, List.mem_append] at hx
    rcases hx with rfl | hx | hx
    · exact (laidIn_of_within h).mono hle
    · exact (Outline.laidIn_partsAll h.1 x hx).mono hle
    · exact Outline.laidIn_paramParts hes x hx

theorem Outline.laidIn_operandParts {s : Script} {p q : Nat} :
    ∀ {es : List (Expr × List Outline)},
    row s (Outline.operandRow s es) p q → ∀ x ∈ Outline.operandParts es, LaidIn s q x
  | [], _, _, hx => by simp [Outline.operandParts] at hx
  | (e, inner) :: es, ⟨m, ⟨m', _, h⟩, hes⟩, x, hx => by
    have hle := (row s _).le hes
    simp only [Outline.operandParts, List.mem_cons, List.mem_append] at hx
    rcases hx with rfl | hx | hx
    · exact (laidIn_of_within h).mono hle
    · exact (Outline.laidIn_partsAll h.1 x hx).mono hle
    · exact Outline.laidIn_operandParts hes x hx

end

end Stencil.Rewrite
