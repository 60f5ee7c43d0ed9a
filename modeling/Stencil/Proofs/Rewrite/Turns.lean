import Stencil.Proofs.Rewrite.Places

/-!
# The turns of calls

Which call is the first to be refused depends on the order in which calls have their turns. A call
whose target is not known is refused at once; any other call has its turn behind those in its
arguments, and ahead of all that follow it in the text.

Lists of types are rewritten entry by entry, and which entries stay depends on the binding. Where they
hold no calls that does not matter, and the turns are the same for all bindings.

Results: the first error of a walk is that of the first turn at which a call is refused
(`Outline.firstError?_stepsAll`), and of two turns the earlier one is that of a call that ends in front of
the other one or stands in its arguments (`Outline.inTurn_turnsAll`).
-/

namespace Stencil

namespace Rewrite

open Stretch
open Outline (placesAll argPlaces paramPlaces operandPlaces)

/-! ## Results that are failures -/

/-- The failure that a result is. -/
def failure? {ε α : Type} : Except ε α → Option ε
  | .error e => some e
  | .ok _ => none

/-- Two results one after the other fail as the first one of them that fails. -/
theorem failure?_both {ε α β γ : Type} (x : Except ε α) (y : Except ε β) (f : α → β → γ) :
    failure? (do let a ← x; return f a (← y)) = (failure? x).or (failure? y) := by
  cases x <;> cases y <;> rfl

/-! ## Places without calls -/

/-- Is none of the places a call? -/
def Callless (ps : List Outline) : Prop :=
  ∀ c args, .call c args ∉ ps

theorem callless_append {ps qs : List Outline} :
    Callless (ps ++ qs) ↔ Callless ps ∧ Callless qs := by
  simp only [Callless, List.mem_append, not_or, forall_and]

theorem Outline.calls_eq_nil_iff {os : List Outline} :
    Outline.calls os = [] ↔ Callless (placesAll os) := by
  simp only [Outline.calls, Outline.spotsAll_eq, List.filterMap_eq_nil_iff, List.mem_filterMap,
    forall_exists_index, and_imp]
  constructor
  · intro h c args hp
    simpa [Spot.call?] using h (.call c) _ hp rfl
  · intro h x o ho hx
    cases o with
    | call c args => exact absurd ho (h c args)
    | _ => simp [Outline.spot?] at hx <;> simp [← hx, Spot.call?]

/-- Do the lists among the places hold no calls? -/
structure Plain (ps : List Outline) : Prop where
  typeArgs : ∀ {owner entries extent}, .typeArgs owner entries extent ∈ ps →
    Callless (argPlaces entries)
  typeParams : ∀ {entries extent}, .typeParams entries extent ∈ ps → Callless (paramPlaces entries)

theorem Plain.subset {ps qs : List Outline} (h : Plain qs) (hsub : ps ⊆ qs) : Plain ps :=
  ⟨fun hp => h.typeArgs (hsub hp), fun hp => h.typeParams (hsub hp)⟩

theorem plain_of_callless {os : List Outline} (h : Callless (placesAll os)) :
    Plain (placesAll os) :=
  ⟨fun hp c args hc => h c args (Outline.places_subset_placesAll hp (List.mem_cons_of_mem _ hc)),
    fun hp c args hc => h c args (Outline.places_subset_placesAll hp (List.mem_cons_of_mem _ hc))⟩

/-! ## Turns -/

/-- The turn of a call with the given number of arguments. -/
structure Turn where
  /-- The call. -/
  call : IntrinsicCall
  /-- The number of its arguments. -/
  count : Nat

mutual

/-- The turns of the calls in a place, if the given hints name a target. Lists of types are passed
over. -/
def Outline.turns (named : Option TypeArgs → Bool) : Outline → List Turn
  | .call c args =>
    if named c.hint then Outline.operandTurns named args ++ [⟨c, args.length⟩] else [⟨c, args.length⟩]
  | _ => []

/-- The turns of the calls in an outline. -/
def Outline.turnsAll (named : Option TypeArgs → Bool) : List Outline → List Turn
  | [] => []
  | o :: rest => o.turns named ++ Outline.turnsAll named rest

/-- The turns of the calls in the arguments of a call. -/
def Outline.operandTurns (named : Option TypeArgs → Bool) : List (Expr × List Outline) → List Turn
  | [] => []
  | (_, inner) :: rest => Outline.turnsAll named inner ++ Outline.operandTurns named rest

end

namespace Job

variable (j : Job)

/-- Is it known what a call with the hint is about? -/
def names (hint : Option TypeArgs) : Bool :=
  (failure? (j.target hint)).isNone

/-- Why the call of a turn has no replacement, apart from its arguments. -/
def fault? (u : Turn) : Option CallFault :=
  match j.target u.call.hint with
  | .error fault => some fault
  | .ok target =>
    match Operation.ofName? u.call.name.name with
    | some o => failure? (o.pattern j.vocabulary.mixer target u.count)
    | none => some (.unknown u.call.name.name)

/-- The error of a call with a fault. -/
def refusal (c : IntrinsicCall) (fault : CallFault) : SpecializeError :=
  .call fault (j.sourceText c.extent) (j.source.spanAt c.receiver.position)

/-- The error at the turn of a call, if it is refused. -/
def refused? (u : Turn) : Option SpecializeError :=
  (j.fault? u).map (j.refusal u.call)

variable {j}

/-- Arguments count, and beyond that they do not matter. -/
theorem fault?_eq {c : IntrinsicCall} {target : Target} (ht : j.target c.hint = .ok target)
    (args : List Operand) :
    j.fault? ⟨c, args.length⟩
      = failure? (applyNamed j.vocabulary.mixer target c.name.name args) := by
  simp only [fault?, ht, applyNamed]
  cases Operation.ofName? c.name.name with
  | none => rfl
  | some o =>
    dsimp only
    cases o.pattern j.vocabulary.mixer target args.length <;> rfl

/-- A call fails for its target, else for its arguments, else for its operation. -/
theorem firstError?_call {c : IntrinsicCall} {operands : Except SpecializeError (List Operand)}
    {count : Nat} (hcount : ∀ args, operands = .ok args → args.length = count) :
    firstError? (j.call c operands)
      = if j.names c.hint then (failure? operands).or (j.refused? ⟨c, count⟩)
        else j.refused? ⟨c, count⟩ := by
  rw [call_eq]
  cases ht : j.target c.hint with
  | error fault => simp [names, ht, failure?, firstError?, refused?, fault?, refusal]
  | ok target =>
    cases operands with
    | error e => simp [names, ht, failure?, firstError?]
    | ok args =>
      obtain rfl := hcount args rfl
      simp only [names, ht, refused?, fault?_eq ht args]
      cases applyNamed j.vocabulary.mixer target c.name.name args <;>
        simp [failure?, firstError?, refusal]

end Job

/-! ## The first error of a walk -/

variable {j : Job} {receiver : String}

theorem failure?_render (hs : j.source.Indexed) {p q : Nat} (hq : q ≤ j.source.code.size)
    {os : List Outline} (h : Outline.laidAll (.ofSource j.source receiver) os p q) :
    failure? (j.render ⟨p, q⟩ (Outline.stepsAll j os)) = firstError? (Outline.stepsAll j os) := by
  have hfits := Outline.fits_stepsAll hs hq h
  simp only [Job.render]
  cases hok : firstError? (Outline.stepsAll j os) with
  | some e => rfl
  | none =>
    rw [hfits.finish_eq_ok hs hq fun _ => hfits.contains hs]
    rfl

theorem Outline.length_operands : ∀ {es : List (Expr × List Outline)} {args : List Operand},
    Outline.operands j es = .ok args → args.length = es.length
  | [], _, h => by
    cases h
    rfl
  | (e, inner) :: rest, args, h => by
    rw [Outline.operands] at h
    cases hr : j.render e.extent (Outline.stepsAll j inner) with
    | error err => simp [hr, bind, Except.bind] at h
    | ok text =>
      cases ho : Outline.operands j rest with
      | error err => simp [hr, ho, bind, Except.bind] at h
      | ok ops =>
        simp only [hr, ho, bind, Except.bind, pure, Except.pure] at h
        cases h
        simp [Outline.length_operands ho]

theorem Outline.turnsAll_eq_nil {named : Option TypeArgs → Bool} : ∀ {os : List Outline},
    Callless (placesAll os) → Outline.turnsAll named os = []
  | [], _ => rfl
  | o :: rest, h => by
    obtain ⟨ho, hrest⟩ := callless_append.1 h
    rw [Outline.turnsAll, Outline.turnsAll_eq_nil hrest, List.append_nil]
    cases o with
    | call c args => exact absurd List.mem_cons_self (ho c args)
    | _ => rfl

theorem firstError?_renamed {i : Ident} {text : Option String} :
    firstError? (j.renamed i text) = none := by
  cases text <;> rfl

theorem firstError?_keepArgs {extent : Extent} {kept : Except SpecializeError (List String)} :
    firstError? (j.keepArgs extent kept) = failure? kept := by
  cases kept <;> rfl

theorem firstError?_keepParams {extent : Extent} {kept : Except SpecializeError (List String)} :
    firstError? (j.keepParams extent kept) = failure? kept := by
  cases kept <;> rfl

mutual

theorem Outline.firstError?_steps (hs : j.source.Indexed) {p m : Nat}
    (hm : m ≤ j.source.code.size) : ∀ {o : Outline}, o.laid (.ofSource j.source receiver) p m →
      Plain o.places → firstError? (o.steps j) = (o.turns j.names).findSome? j.refused?
  | .name _, _, _ => firstError?_renamed
  | .part _ _, _, _ => firstError?_renamed
  | .typeArgs owner entries extent, ⟨⟨hrow, _⟩, _⟩, hplain => by
    have hcalls := hplain.typeArgs List.mem_cons_self
    simp only [Outline.steps, Outline.turns, List.findSome?_nil]
    split
    · split <;> rfl
    · split
      · rw [firstError?_keepArgs]
        exact Outline.failure?_keptArgs hs hm hrow hcalls
      · exact Outline.firstError?_argSteps hs hm hrow hcalls
  | .typeParams entries extent, ⟨⟨hrow, _⟩, _⟩, hplain => by
    have hcalls := hplain.typeParams List.mem_cons_self
    simp only [Outline.steps, Outline.turns, List.findSome?_nil]
    split
    · rw [firstError?_keepParams]
      exact Outline.failure?_keptParams hs hm hrow hcalls
    · exact Outline.firstError?_paramSteps hs hm hrow hcalls
  | .call c args, ⟨⟨_, _, _, hrow⟩, _⟩, hplain => by
    have hargs := Outline.failure?_operands hs hm hrow (hplain.subset (List.subset_cons_self _ _))
    simp only [Outline.steps, Outline.turns]
    rw [Job.firstError?_call fun _ => Outline.length_operands, hargs]
    split <;> simp [List.findSome?_append]

theorem Outline.firstError?_stepsAll (hs : j.source.Indexed) {p q : Nat}
    (hq : q ≤ j.source.code.size) : ∀ {os : List Outline},
      Outline.laidAll (.ofSource j.source receiver) os p q → Plain (placesAll os) →
      firstError? (Outline.stepsAll j os) = (Outline.turnsAll j.names os).findSome? j.refused?
  | [], _, _ => rfl
  | o :: os, ⟨m, ⟨_, _, ho⟩, h⟩, hplain => by
    have hos := of_before h
    have hm := Nat.le_trans ((Outline.laidAll _ os).le hos) hq
    rw [Outline.stepsAll, firstError?_append, Outline.turnsAll, List.findSome?_append,
      Outline.firstError?_steps hs hm ho (hplain.subset (List.subset_append_left _ _)),
      Outline.firstError?_stepsAll hs hq hos (hplain.subset (List.subset_append_right _ _))]

theorem Outline.firstError?_argSteps (hs : j.source.Indexed) {p q : Nat}
    (hq : q ≤ j.source.code.size) : ∀ {es : List (TypeArg × List Outline)},
      row (.ofSource j.source receiver) (Outline.argRow (.ofSource j.source receiver) es) p q →
      Callless (argPlaces es) → firstError? (Outline.argSteps j es) = none
  | [], _, _ => rfl
  | (_, inner) :: es, ⟨m, ⟨_, _, h, _⟩, hes⟩, hcalls => by
    have hm := Nat.le_trans ((row _ _).le hes) hq
    obtain ⟨hinner, hrest⟩ := callless_append.1 hcalls
    rw [Outline.argSteps, firstError?_append,
      Outline.firstError?_stepsAll hs hm h (plain_of_callless hinner),
      Outline.turnsAll_eq_nil hinner, Outline.firstError?_argSteps hs hq hes hrest]
    rfl

theorem Outline.failure?_keptArgs (hs : j.source.Indexed) {p q : Nat}
    (hq : q ≤ j.source.code.size) : ∀ {es : List (TypeArg × List Outline)} {slots : List Placeholder},
      row (.ofSource j.source receiver) (Outline.argRow (.ofSource j.source receiver) es) p q →
      Callless (argPlaces es) → failure? (Outline.keptArgs j slots es) = none
  | [], _, _, _ => rfl
  | (a, inner) :: es, slots, ⟨m, ⟨m', _, h, he⟩, hes⟩, hcalls => by
    have hm := Nat.le_trans ((row _ _).le hes) hq
    obtain ⟨hinner, hrest⟩ := callless_append.1 hcalls
    have hkept : failure? (Outline.keptArgs j slots.tail es) = none :=
      Outline.failure?_keptArgs hs hq hes hrest
    simp only [Outline.keptArgs]
    split
    · exact hkept
    · rw [failure?_both, hkept, he, failure?_render hs hm h,
        Outline.firstError?_stepsAll hs hm h (plain_of_callless hinner),
        Outline.turnsAll_eq_nil hinner]
      rfl

theorem Outline.firstError?_paramSteps (hs : j.source.Indexed) {p q : Nat}
    (hq : q ≤ j.source.code.size) : ∀ {es : List (TypeParam × List Outline)},
      row (.ofSource j.source receiver) (Outline.paramRow (.ofSource j.source receiver) es) p q →
      Callless (paramPlaces es) → firstError? (Outline.paramSteps j es) = none
  | [], _, _ => rfl
  | (_, inner) :: es, ⟨m, ⟨_, _, h, _⟩, hes⟩, hcalls => by
    have hm := Nat.le_trans ((row _ _).le hes) hq
    obtain ⟨hinner, hrest⟩ := callless_append.1 hcalls
    rw [Outline.paramSteps, firstError?_append,
      Outline.firstError?_stepsAll hs hm h (plain_of_callless hinner),
      Outline.turnsAll_eq_nil hinner, Outline.firstError?_paramSteps hs hq hes hrest]
    rfl

theorem Outline.failure?_keptParams (hs : j.source.Indexed) {p q : Nat}
    (hq : q ≤ j.source.code.size) : ∀ {es : List (TypeParam × List Outline)},
      row (.ofSource j.source receiver) (Outline.paramRow (.ofSource j.source receiver) es) p q →
      Callless (paramPlaces es) → failure? (Outline.keptParams j es) = none
  | [], _, _ => rfl
  | (a, inner) :: es, ⟨m, ⟨m', _, h, he⟩, hes⟩, hcalls => by
    have hm := Nat.le_trans ((row _ _).le hes) hq
    obtain ⟨hinner, hrest⟩ := callless_append.1 hcalls
    have hkept := Outline.failure?_keptParams hs hq hes hrest
    simp only [Outline.keptParams]
    split
    · exact hkept
    · rw [failure?_both, hkept, he, failure?_render hs hm h,
        Outline.firstError?_stepsAll hs hm h (plain_of_callless hinner),
        Outline.turnsAll_eq_nil hinner]
      rfl

theorem Outline.failure?_operands (hs : j.source.Indexed) {p q : Nat}
    (hq : q ≤ j.source.code.size) : ∀ {es : List (Expr × List Outline)},
      row (.ofSource j.source receiver) (Outline.operandRow (.ofSource j.source receiver) es) p q →
      Plain (operandPlaces es) →
      failure? (Outline.operands j es) = (Outline.operandTurns j.names es).findSome? j.refused?
  | [], _, _ => rfl
  | (e, inner) :: es, ⟨m, ⟨m', _, h, he⟩, hes⟩, hplain => by
    have hm := Nat.le_trans ((row _ _).le hes) hq
    have hrest := Outline.failure?_operands hs hq hes (hplain.subset (List.subset_append_right _ _))
    rw [Outline.operands, failure?_both, he, failure?_render hs hm h,
      Outline.firstError?_stepsAll hs hm h (hplain.subset (List.subset_append_left _ _)), hrest,
      Outline.operandTurns, List.findSome?_append]

end

/-! ## The order of turns -/

end Rewrite

/-- Does the call have its turn ahead of the other one by where they stand? It ends in front of the
other one or stands in its arguments. -/
def IntrinsicCall.Precedes (c d : IntrinsicCall) : Prop :=
  c.extent.stop ≤ d.extent.first
    ∨ d.extent.first < c.extent.first ∧ c.extent.stop ≤ d.extent.stop

namespace Rewrite

/-- Do the calls of the turns stand between two positions, and have they their turns in order? -/
structure InTurn (p q : Nat) (us : List Turn) : Prop where
  pairwise : us.Pairwise fun u v => u.call.Precedes v.call
  within : ∀ u ∈ us, p ≤ u.call.extent.first ∧ u.call.extent.stop ≤ q

namespace InTurn

variable {p p' m q q' : Nat} {us vs : List Turn} {u : Turn}

theorem nil : InTurn p q [] :=
  ⟨.nil, by simp⟩

theorem mono (h : InTurn p q us) (hp : p' ≤ p) (hq : q ≤ q') : InTurn p' q' us := by
  refine ⟨h.pairwise, fun u hu => ?_⟩
  have := h.within u hu
  omega

theorem append (hu : InTurn p m us) (hv : InTurn m q vs) (hpm : p ≤ m) (hmq : m ≤ q) :
    InTurn p q (us ++ vs) := by
  refine ⟨List.pairwise_append.2 ⟨hu.pairwise, hv.pairwise, fun u hus v hvs => .inl ?_⟩, ?_⟩
  · have := hu.within u hus
    have := hv.within v hvs
    omega
  · intro u h
    rcases List.mem_append.1 h with h | h
    · exact (hu.mono p.le_refl hmq).within u h
    · exact (hv.mono hpm q.le_refl).within u h

/-- A call has its turn behind those in its arguments. -/
theorem concat (he : u.call.extent = ⟨p, q⟩) (hpm : p < m) (h : InTurn m q us) :
    InTurn p q (us ++ [u]) := by
  refine ⟨List.pairwise_append.2 ⟨h.pairwise, List.pairwise_singleton _ _, fun v hv w hw => .inr ?_⟩,
    fun v hv => ?_⟩
  · obtain rfl := List.mem_singleton.1 hw
    have := h.within v hv
    simp only [he]
    omega
  · rcases List.mem_append.1 hv with hv | hv
    · exact (h.mono (Nat.le_of_lt hpm) q.le_refl).within v hv
    · obtain rfl := List.mem_singleton.1 hv
      simp [he]

end InTurn

variable {s : Script} {named : Option TypeArgs → Bool}

mutual

theorem Outline.inTurn_turns {p q : Nat} : ∀ {o : Outline}, o.laid s p q →
    InTurn p q (o.turns named)
  | .name _, _ => .nil
  | .part _ _, _ => .nil
  | .typeArgs _ _ _, _ => .nil
  | .typeParams _ _, _ => .nil
  | .call c args, ⟨⟨_, m, ⟨_, ⟨_, ⟨_, hreceiver, hdot⟩, hhint⟩, hname⟩, hrow⟩, he⟩ => by
    have hpm : p < m := by
      have := hreceiver.2.2
      have := hdot.2
      have := (TypeArgs.reads? _ _).le hhint
      have := hname.2.2
      omega
    simp only [Outline.turns]
    split
    · exact .concat he hpm (Outline.inTurn_operandTurns hrow)
    · exact .concat he hpm .nil

theorem Outline.inTurn_turnsAll {p q : Nat} : ∀ {os : List Outline}, Outline.laidAll s os p q →
    InTurn p q (Outline.turnsAll named os)
  | [], _ => .nil
  | o :: os, ⟨m, ⟨m', hn, ho⟩, hos⟩ => by
    have hos := of_before hos
    have hlead : InTurn p m (o.turns named) := (Outline.inTurn_turns ho).mono hn.1 (Nat.le_refl m)
    exact hlead.append (Outline.inTurn_turnsAll hos) (Nat.le_trans hn.1 (o.laid s |>.le ho))
      ((Outline.laidAll s os).le hos)

theorem Outline.inTurn_operandTurns {p q : Nat} : ∀ {es : List (Expr × List Outline)},
    row s (Outline.operandRow s es) p q → InTurn p q (Outline.operandTurns named es)
  | [], _ => .nil
  | (_, inner) :: es, ⟨m, ⟨m', hn, h, _⟩, hes⟩ => by
    have hlead : InTurn p m (Outline.turnsAll named inner) :=
      (Outline.inTurn_turnsAll h).mono hn.1 (Nat.le_refl m)
    exact hlead.append (Outline.inTurn_operandTurns hes)
      (Nat.le_trans hn.1 ((Outline.laidAll s inner).le h)) ((row s _).le hes)

end

/-! ## Calls that have a turn -/

mutual

theorem Outline.mem_places_of_mem_turns {u : Turn} : ∀ {o : Outline}, u ∈ o.turns named →
    ∃ args, .call u.call args ∈ o.places
  | .call c args, h => by
    have h : u ∈ Outline.operandTurns named args ∨ u = ⟨c, args.length⟩ := by
      simp only [Outline.turns] at h
      split at h
      · simpa using h
      · exact .inr (List.mem_singleton.1 h)
    rcases h with h | rfl
    · obtain ⟨as, h⟩ := Outline.mem_operandPlaces_of_mem_operandTurns h
      exact ⟨as, List.mem_cons_of_mem _ h⟩
    · exact ⟨args, List.mem_cons_self⟩

theorem Outline.mem_placesAll_of_mem_turnsAll {u : Turn} : ∀ {os : List Outline},
    u ∈ Outline.turnsAll named os → ∃ args, .call u.call args ∈ placesAll os
  | _ :: _, h => by
    rcases List.mem_append.1 h with h | h
    · obtain ⟨as, h⟩ := Outline.mem_places_of_mem_turns h
      exact ⟨as, List.mem_append_left _ h⟩
    · obtain ⟨as, h⟩ := Outline.mem_placesAll_of_mem_turnsAll h
      exact ⟨as, List.mem_append_right _ h⟩

theorem Outline.mem_operandPlaces_of_mem_operandTurns {u : Turn} :
    ∀ {es : List (Expr × List Outline)}, u ∈ Outline.operandTurns named es →
    ∃ args, .call u.call args ∈ operandPlaces es
  | _ :: _, h => by
    rcases List.mem_append.1 h with h | h
    · obtain ⟨as, h⟩ := Outline.mem_placesAll_of_mem_turnsAll h
      exact ⟨as, List.mem_append_left _ h⟩
    · obtain ⟨as, h⟩ := Outline.mem_operandPlaces_of_mem_operandTurns h
      exact ⟨as, List.mem_append_right _ h⟩

end

end Rewrite

end Stencil
