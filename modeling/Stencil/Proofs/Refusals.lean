import Stencil.Proofs.Primitive
import Stencil.Proofs.Rewrite.Turns

/-!
# Refusals for all bindings alike

A call may be refused for what the author of the template has written: the target, the operation or the
number of arguments. That is wrong for every binding. Only that an operation is not defined for a type
depends on the binding.

So the instantiations of a template fail alike, if no annotation has calls in its arguments: such a
call stands in a type, and an entry of a list of types may be left out for one binding and not for
another.

Results: bindings that fit an arity find the same faults in a call, but for operations that are not
defined for a type (`Job.fault?_congr`), and if one instantiation fails for anything else, then each
other one fails in the same way, or for an earlier call that is not defined for its type
(`Template.fails_alike`).
-/

namespace Stencil

open Rewrite
open Outline (placesAll argPlaces paramPlaces)

/-! ## Annotations without calls -/

/-- The calls in the arguments of an annotation. -/
def Feature.argumentCalls : Feature → List IntrinsicCall
  | .annotationUse a => Outline.calls (Group.outline? a.args)
  | _ => []

/-- Are there no calls in the arguments of annotations? -/
def Silent (xs : List Landmark) : Prop :=
  ∀ x ∈ xs, x.feature.argumentCalls = []

theorem silent_append {xs ys : List Landmark} : Silent (xs ++ ys) ↔ Silent xs ∧ Silent ys :=
  List.forall_mem_append

theorem silent_cons {x : Landmark} {xs : List Landmark} :
    Silent (x :: xs) ↔ x.feature.argumentCalls = [] ∧ Silent xs :=
  List.forall_mem_cons

namespace Rewrite

variable {sight : Bool}

theorem callless_nil : Callless [] :=
  fun _ _ => List.not_mem_nil

theorem callless_cons {o : Outline} {ps : List Outline} (ho : ∀ c args, o ≠ .call c args)
    (h : Callless ps) : Callless (o :: ps) := by
  intro c args hp
  rcases List.mem_cons.1 hp with hp | hp
  · exact ho c args hp.symm
  · exact h c args hp

theorem callless_names (is : List Ident) : Callless (placesAll (is.map .name)) := by
  induction is with
  | nil => exact callless_nil
  | cons i is ih => exact callless_cons (by simp) ih

theorem AnnotationUse.callless_outline : ∀ {a : Stencil.AnnotationUse},
    Silent (a.landmarks sight) → Callless (placesAll (AnnotationUse.outline a))
  | ⟨name, args, _⟩, h => by
    rw [AnnotationUse.outline, Outline.placesAll_append]
    exact callless_append.2
      ⟨callless_names name.segments, Outline.calls_eq_nil_iff.1 (silent_cons.1 h).1⟩

theorem AnnotationUse.callless_outlines : ∀ {as : List Stencil.AnnotationUse},
    Silent (AnnotationUse.landmarksAll sight as) → Callless (placesAll (AnnotationUse.outlines as))
  | [], _ => callless_nil
  | a :: rest, h => by
    obtain ⟨ha, hrest⟩ := silent_append.1 h
    rw [AnnotationUse.outlines, Outline.placesAll_append]
    exact callless_append.2
      ⟨AnnotationUse.callless_outline ha, AnnotationUse.callless_outlines hrest⟩

mutual

/-- Types have no calls but those in annotations. -/
theorem TypeExpr.callless_outline : ∀ {t : Stencil.TypeExpr},
    Silent (t.landmarks sight) → Callless (placesAll (TypeExpr.outline t))
  | ⟨annotations, core, _, _⟩, h => by
    obtain ⟨hannotations, hcore⟩ := silent_append.1 (silent_cons.1 h).2
    rw [TypeExpr.outline, Outline.placesAll_append]
    exact callless_append.2
      ⟨AnnotationUse.callless_outlines hannotations, TypeCore.callless_outline hcore⟩

theorem TypeCore.callless_outline : ∀ {c : Stencil.TypeCore},
    Silent (c.landmarks sight) → Callless (placesAll (TypeCore.outline c))
  | .primitive _, _ => callless_nil
  | .named _, h => TypeSegment.callless_outlines h

theorem TypeSegment.callless_outlines : ∀ {ss : List Stencil.TypeSegment},
    Silent (TypeSegment.landmarksAll sight ss) → Callless (placesAll (TypeSegment.outlines ss))
  | [], _ => callless_nil
  | ⟨_, none⟩ :: _, h => callless_cons (by simp) (TypeSegment.callless_outlines h)
  | ⟨_, some ⟨_, _⟩⟩ :: _, h => by
    obtain ⟨hargs, hrest⟩ := silent_append.1 h
    simp only [TypeSegment.outlines, placesAll, callless_append]
    exact ⟨callless_cons (by simp) callless_nil,
      callless_cons (by simp) (TypeArg.callless_entries hargs), TypeSegment.callless_outlines hrest⟩

theorem TypeArg.callless_entries : ∀ {as : List Stencil.TypeArg},
    Silent (TypeArg.landmarksAll sight as) → Callless (argPlaces (TypeArg.entries as))
  | [], _ => callless_nil
  | _ :: _, h => by
    obtain ⟨ha, hrest⟩ := silent_append.1 h
    exact callless_append.2 ⟨TypeArg.callless_outline ha, TypeArg.callless_entries hrest⟩

theorem TypeArg.callless_outline : ∀ {a : Stencil.TypeArg},
    Silent (a.landmarks sight) → Callless (placesAll (TypeArg.outline a))
  | .type _, h => TypeExpr.callless_outline h
  | .wildcard _, _ => callless_nil
  | .bounded _ _ _, h => TypeExpr.callless_outline h

end

theorem TypeExpr.callless_outlines : ∀ {ts : List Stencil.TypeExpr},
    Silent (TypeExpr.landmarksAll sight ts) → Callless (placesAll (TypeExpr.outlines ts))
  | [], _ => callless_nil
  | _ :: _, h => by
    obtain ⟨ht, hrest⟩ := silent_append.1 h
    rw [TypeExpr.outlines, Outline.placesAll_append]
    exact callless_append.2 ⟨TypeExpr.callless_outline ht, TypeExpr.callless_outlines hrest⟩

theorem TypeParam.callless_entries : ∀ {as : List Stencil.TypeParam},
    Silent (TypeParam.landmarksAll sight as) → Callless (paramPlaces (TypeParam.entries as))
  | [], _ => callless_nil
  | ⟨_, _, _, _⟩ :: _, h => by
    obtain ⟨ha, hrest⟩ := silent_append.1 h
    obtain ⟨hannotations, hbounds⟩ := silent_append.1 (silent_cons.1 ha).2
    refine callless_append.2 ⟨?_, TypeParam.callless_entries hrest⟩
    rw [TypeParam.outline, Outline.placesAll_append]
    exact callless_append.2 ⟨AnnotationUse.callless_outlines hannotations,
      callless_cons (by simp) (TypeExpr.callless_outlines hbounds)⟩

/-- Lists of types hold no calls if annotations have none. -/
theorem Stem.plain {xs : List Landmark} {ps : List Outline} (h : Stem xs ps) (hxs : Silent xs) :
    Plain ps := by
  refine ⟨fun hp => ?_, fun hp => ?_⟩
  · obtain ⟨as, sight, rfl, hsub⟩ := h.typeArgs hp
    exact TypeArg.callless_entries fun x hx => hxs x (hsub hx)
  · obtain ⟨as, sight, rfl, hsub⟩ := h.typeParams hp
    exact TypeParam.callless_entries fun x hx => hxs x (hsub hx)

/-! ## Faults of a call -/

/-- Whether an operation takes the number of arguments does not depend on the type. -/
theorem Operation.pattern_congr {mixer : String} {target target' : Target} {o : Operation}
    {count : Nat} {fault : CallFault} (h : o.pattern mixer target count = .error fault)
    (hfault : ∀ type, fault ≠ .unsupported type) : o.pattern mixer target' count = .error fault := by
  unfold Operation.pattern at h ⊢
  split at h <;> grind

namespace Job

variable {s : Source} {v : Vocabulary} {a : Arity} {b c : Binding}

theorem declares_of_hinted? {j : Job} {hint : TypeArgs} {p : Placeholder} {t : Stencil.TypeExpr}
    (h : j.hinted? hint = some (p, t)) : j.arity.declares p = true := by
  simp only [hinted?] at h
  split at h
  · split at h
    · simp only [Option.map_eq_some_iff, Option.filter_eq_some_iff, Prod.mk.injEq] at h
      obtain ⟨p', ⟨-, hp⟩, rfl, -⟩ := h
      exact hp
    · contradiction
  · contradiction

/-- A hint names a target for all bindings that fit the arity, or for none. -/
theorem failure?_target_congr (hb : b ∈ Binding.allOf a) (hc : c ∈ Binding.allOf a)
    (hint : Option TypeArgs) :
    failure? ((Job.mk s v a b).target hint) = failure? ((Job.mk s v a c).target hint) := by
  cases hint with
  | none => cases a <;> rfl
  | some hint =>
    have hsame : (Job.mk s v a b).hinted? hint = (Job.mk s v a c).hinted? hint := rfl
    simp only [target, hsame]
    cases hh : (Job.mk s v a c).hinted? hint with
    | none => rfl
    | some pt =>
      have hp := declares_of_hinted? hh
      obtain ⟨t, ht⟩ := Option.isSome_iff_exists.1 ((Binding.mem_allOf_iff.1 hb _).trans hp)
      obtain ⟨u, hu⟩ := Option.isSome_iff_exists.1 ((Binding.mem_allOf_iff.1 hc _).trans hp)
      simp [ht, hu, failure?]

theorem names_congr (hb : b ∈ Binding.allOf a) (hc : c ∈ Binding.allOf a) :
    (Job.mk s v a b).names = (Job.mk s v a c).names := by
  funext hint
  simp only [names, failure?_target_congr hb hc hint]

/-- Bindings that fit the arity find the same faults, but for operations that are not defined for a
type. -/
theorem fault?_congr (hb : b ∈ Binding.allOf a) (hc : c ∈ Binding.allOf a) {u : Turn}
    {fault : CallFault} (h : (Job.mk s v a b).fault? u = some fault)
    (hfault : ∀ type, fault ≠ .unsupported type) : (Job.mk s v a c).fault? u = some fault := by
  have htarget := failure?_target_congr (s := s) (v := v) hb hc u.call.hint
  simp only [fault?] at h ⊢
  cases ht : (Job.mk s v a b).target u.call.hint with
  | error f =>
    cases ht' : (Job.mk s v a c).target u.call.hint with
    | error f' =>
      simp_all [failure?]
    | ok target' => simp [ht, ht', failure?] at htarget
  | ok target =>
    cases ht' : (Job.mk s v a c).target u.call.hint with
    | error f' => simp [ht, ht', failure?] at htarget
    | ok target' =>
      simp only [ht] at h ⊢
      cases ho : Operation.ofName? u.call.name.name with
      | none => simpa [ho] using h
      | some o =>
        simp only [ho] at h ⊢
        cases hp : o.pattern v.mixer target u.count with
        | ok pattern => simp [hp, failure?] at h
        | error f =>
          obtain rfl : f = fault := by simpa [hp, failure?] using h
          rw [Operation.pattern_congr hp hfault]
          rfl

/-- A call that is refused for one of two bindings only is not defined for its type. -/
theorem exists_unsupported_of_fault? (hb : b ∈ Binding.allOf a) (hc : c ∈ Binding.allOf a) {u : Turn}
    {fault : CallFault} (h : (Job.mk s v a b).fault? u = some fault)
    (hnone : (Job.mk s v a c).fault? u = none) : ∃ type, fault = .unsupported type := by
  cases fault with
  | unsupported type => exact ⟨type, rfl⟩
  | _ =>
    rw [fault?_congr hb hc h (by simp)] at hnone
    contradiction

end Job

end Rewrite

/-! ## Instantiations -/

/-- Is the error that an operation is not defined for a type? -/
def SpecializeError.isUnsupported : SpecializeError → Bool
  | .call (.unsupported _) _ _ => true
  | _ => false

namespace Template

variable {path : Path} {text : String} {v : Vocabulary} {t : Template}

/-- The error of a call with a fault. -/
def refusal (t : Template) (c : IntrinsicCall) (fault : CallFault) : SpecializeError :=
  .call fault (t.file.source.text (t.file.source.range c.extent))
    (t.file.source.spanAt c.receiver.position)

/-- The turns of the calls of the template for a binding. -/
def turns (t : Template) (b : Binding) : List Turn :=
  Outline.turnsAll (t.job b).names (Rewrite.CompilationUnit.outline t.file.tree)

/-- A specialization fails at the first turn at which a call is refused. -/
theorem specialize_eq_error_iff (h : ofText path text v = .ok t)
    (hsilent : Silent t.file.tree.landmarks) {b : Binding} {e : SpecializeError} :
    t.specialize b = .error e ↔ (t.turns b).findSome? (t.job b).refused? = some e := by
  obtain ⟨-, -, -, q, hq, hlaid, -⟩ := laidAll_of_ofText h
  have hplain := (CompilationUnit.stems_outline t.file.tree).plain hsilent
  have hfirst : firstError? (t.steps b) = (t.turns b).findSome? (t.job b).refused? :=
    Outline.firstError?_stepsAll (j := t.job b) (indexed_of_ofText h) hq hlaid hplain
  rw [specialize_eq h, hfirst]
  cases (t.turns b).findSome? (t.job b).refused? <;> simp

theorem call_mem_calls_of_mem_turns {b : Binding} {u : Turn} (hu : u ∈ t.turns b) :
    u.call ∈ t.calls := by
  obtain ⟨args, hp⟩ := Outline.mem_placesAll_of_mem_turnsAll hu
  rw [mem_calls_iff, Outline.spotsAll_eq]
  exact List.mem_filterMap.2 ⟨_, hp, rfl⟩

theorem pairwise_turns (h : ofText path text v = .ok t) (b : Binding) :
    (t.turns b).Pairwise fun u w => u.call.Precedes w.call := by
  obtain ⟨-, -, -, q, -, hlaid, -⟩ := laidAll_of_ofText h
  exact (Outline.inTurn_turnsAll hlaid).pairwise

/-- If the placeholders have names, so that the loop over each comment ends, and one instantiation fails,
and not because an operation is not defined for a type, then each other one fails in the same way or for
an earlier call whose operation is not defined for its type. -/
theorem fails_alike (h : ofText path text v = .ok t) (hnames : ∀ p, v.name p ≠ "") (hsilent : Silent t.file.tree.landmarks)
    {i j : Instantiation} (hi : i ∈ t.instantiations) (hj : j ∈ t.instantiations)
    {e : SpecializeError} (he : t.specialize i.binding = .error e)
    (hsupported : e.isUnsupported = false) :
    (EndsComments v i.binding ∧ EndsComments v j.binding)
      ∧ (t.specialize j.binding = .error e
        ∨ ∃ c ∈ t.calls, ∃ d ∈ t.calls, c.Precedes d ∧ (∃ fault, e = t.refusal d fault)
          ∧ ∃ type, t.specialize j.binding = .error (t.refusal c (.unsupported type))) := by
  refine ⟨⟨endsComments_of_isNamed fun p _ => hnames p, endsComments_of_isNamed fun p _ => hnames p⟩, ?_⟩
  obtain ⟨b, hb, rfl⟩ := List.mem_map.1 hi
  obtain ⟨c, hc, rfl⟩ := List.mem_map.1 hj
  have hturns : t.turns c = t.turns b := by
    simp only [turns, job, Job.names_congr hb hc]
  rw [specialize_eq_error_iff h hsilent] at he
  obtain ⟨us, d, ws, hsplit, hd, hus⟩ := List.findSome?_eq_some_iff.1 he
  obtain ⟨fault, hfault, rfl⟩ := Option.map_eq_some_iff.1 hd
  have hother : (t.job c).fault? d = some fault := by
    refine Job.fault?_congr hb hc hfault fun type htype => ?_
    simp [htype, Job.refusal, SpecializeError.isUnsupported] at hsupported
  have hmem : ∀ u ∈ us ++ d :: ws, u.call ∈ t.calls :=
    fun u hu => call_mem_calls_of_mem_turns (b := b) (hsplit ▸ hu)
  cases hfirst : us.findSome? (t.job c).refused? with
  | none =>
    refine .inl ((specialize_eq_error_iff h hsilent).2 ?_)
    rw [hturns, hsplit, List.findSome?_append, hfirst]
    simp only [List.findSome?_cons, Job.refused?, hother]
    rfl
  | some e =>
    -- a call that is refused for the other binding only is not defined for its type
    obtain ⟨u, hu, hue⟩ := List.exists_of_findSome?_eq_some hfirst
    obtain ⟨fault', hfault', rfl⟩ := Option.map_eq_some_iff.1 hue
    have hnone : (t.job b).fault? u = none := Option.map_eq_none_iff.1 (hus u hu)
    obtain ⟨type, rfl⟩ := Job.exists_unsupported_of_fault? hc hb hfault' hnone
    have hpairwise := pairwise_turns h b
    rw [hsplit, List.pairwise_append] at hpairwise
    refine .inr ⟨u.call, hmem u (by simp [hu]), d.call, hmem d (by simp),
      hpairwise.2.2 u hu d List.mem_cons_self, ⟨fault, rfl⟩, type, ?_⟩
    refine (specialize_eq_error_iff h hsilent).2 ?_
    rw [hturns, hsplit, List.findSome?_append, hfirst]
    rfl

/-- The theorem at a call of an unknown operation with a sum in it: that there is no sum of objects is
found first, and for numbers that there is no such operation. -/
theorem fails_alike_sum : ∃ t e, ofText ⟨"A.java"⟩
      "@A(1) class A<KType> \x7b int f = Intrinsics.sum(Intrinsics.add(a, b)); \x7d" {} = .ok t
    ∧ (∀ p, ({} : Vocabulary).name p ≠ "") ∧ Silent t.file.tree.landmarks
    ∧ t.specialize ⟨.int, none⟩ = .error e ∧ e.isUnsupported = false
    ∧ t.specialize ⟨.generic, none⟩ ≠ .error e
    ∧ ∃ c ∈ t.calls, ∃ d ∈ t.calls, c.Precedes d ∧ (∃ fault, e = t.refusal d fault)
      ∧ ∃ type, t.specialize ⟨.generic, none⟩ = .error (t.refusal c (.unsupported type)) := by
  obtain ⟨t, ht, hok⟩ := exists_ok_of_sees
    (x := ofText ⟨"A.java"⟩
      "@A(1) class A<KType> \x7b int f = Intrinsics.sum(Intrinsics.add(a, b)); \x7d" {})
    (fun t => (t.file.tree.landmarks.all fun x => x.feature.argumentCalls.isEmpty)
        && ((t.turns ⟨.int, none⟩).findSome? (t.job ⟨.int, none⟩).refused?).any (fun e =>
          !e.isUnsupported
            && (t.turns ⟨.generic, none⟩).findSome? (t.job ⟨.generic, none⟩).refused? != some e)
        && t.arity == .one)
    (by decide +kernel)
  simp only [Bool.and_eq_true, List.all_eq_true, List.isEmpty_iff, beq_iff_eq, Option.any_eq_true,
    Bool.not_eq_true', bne_iff_ne, ne_eq] at hok
  obtain ⟨⟨hsilent, e, he, hsupported, hne⟩, harity⟩ := hok
  have herror := fun b e => specialize_eq_error_iff (b := b) (e := e) ht hsilent
  have hmem : ∀ type, (⟨t.path, ⟨type, none⟩⟩ : Instantiation) ∈ t.instantiations := by
    intro type
    simp [instantiations, Instantiation.expand, harity, Binding.allOf, ConcreteType.mem_all]
  have he := (herror _ e).2 he
  rw [← herror] at hne
  have hnames : ∀ p, ({} : Vocabulary).name p ≠ "" := Vocabulary.name_ne_empty Vocabulary.isPlain_default
  obtain ⟨-, halike⟩ := fails_alike ht hnames hsilent (hmem .int) (hmem .generic) he hsupported
  exact ⟨t, e, ht, hnames, hsilent, he, hsupported, hne, halike.resolve_left hne⟩

end Template

end Stencil
