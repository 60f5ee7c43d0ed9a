import Stencil.Proofs.Rewrite.Omits
import Stencil.Proofs.Rewrite.Places

/-!
# What a template leaves out

The entries of a list that are dropped are in the list, and the hint of a call is in the call. What is
put together from the entries that stay has texts of its own only between them, and so has the text of a
call between its arguments. So the invariant passes from the parts of an outline to the outline.

Results: the invariant of the walk holds of every outline, at every depth (`Outline.leaves_tracedAll`).
-/

namespace Stencil.Rewrite

open Stretch
open Outline (placesAll argPlaces paramPlaces operandPlaces)

variable {j : Job} {receiver : String} {p m q : Nat} {ps : List Outline} {es : List Extent}
  {patches : List TracedPatch}

/-! ## Where places leave something out -/

theorem within_of_row {rows : List (Extent × Stretch)} (h : row (.ofSource j.source receiver) rows p q) :
    ∀ r ∈ rows, p ≤ r.1.first ∧ r.1.stop ≤ q := by
  induction rows generalizing p with
  | nil => simp
  | cons r rows ih =>
    obtain ⟨e, a⟩ := r
    obtain ⟨m, ⟨m', hn, ha, he⟩, hrest⟩ := h
    obtain rfl : e = ⟨m', m⟩ := he
    have hle := a.le ha
    have hend := (row _ rows).le hrest
    rw [List.forall_mem_cons]
    refine ⟨⟨hn.1, hend⟩, fun r hr => ?_⟩
    have := ih hrest r hr
    have := hn.1
    omega

theorem exists_of_mem_droppedArgs {v : Vocabulary} {b : Binding} {s : Script} {slots : List Placeholder}
    {rows : List (TypeArg × List Outline)} {e : Extent} (h : e ∈ droppedArgs v b slots rows) :
    ∃ r ∈ Outline.argRow s rows, r.1 = e := by
  induction rows generalizing slots with
  | nil => cases h
  | cons r rows ih =>
    obtain ⟨a, inner⟩ := r
    rw [Outline.argRow]
    rw [droppedArgs] at h
    split at h
    · rcases List.mem_cons.1 h with rfl | h
      · exact ⟨_, List.mem_cons_self, rfl⟩
      · obtain ⟨r, hr, he⟩ := ih h
        exact ⟨r, List.mem_cons_of_mem _ hr, he⟩
    · obtain ⟨r, hr, he⟩ := ih h
      exact ⟨r, List.mem_cons_of_mem _ hr, he⟩

theorem exists_of_mem_droppedParams {v : Vocabulary} {b : Binding} {s : Script}
    {rows : List (TypeParam × List Outline)} {e : Extent} (h : e ∈ droppedParams v b rows) :
    ∃ r ∈ Outline.paramRow s rows, r.1 = e := by
  induction rows with
  | nil => cases h
  | cons r rows ih =>
    obtain ⟨a, inner⟩ := r
    rw [Outline.paramRow]
    rw [droppedParams] at h
    split at h
    · rcases List.mem_cons.1 h with rfl | h
      · exact ⟨_, List.mem_cons_self, rfl⟩
      · obtain ⟨r, hr, he⟩ := ih h
        exact ⟨r, List.mem_cons_of_mem _ hr, he⟩
    · obtain ⟨r, hr, he⟩ := ih h
      exact ⟨r, List.mem_cons_of_mem _ hr, he⟩

theorem TypeArgs.extent_of_reads? {s : Script} {a : Stencil.TypeArgs} (h : TypeArgs.reads? s (some a) p q) :
    a.extent = ⟨p, q⟩ := by
  cases a
  exact h.2

/-- What a place leaves out is in the place. -/
theorem Outline.within_of_mem_leftOut {o : Outline} {v : Vocabulary} {b : Binding}
    (h : o.laid (.ofSource j.source receiver) p q) : ∀ e ∈ o.leftOut v b, p ≤ e.first ∧ e.stop ≤ q := by
  intro e he
  cases o with
  | name i => cases he
  | part i args => cases he
  | typeArgs owner entries extent =>
    obtain ⟨r, hr, rfl⟩ := exists_of_mem_droppedArgs he
    exact within_of_row h.1.1 r hr
  | typeParams entries extent =>
    obtain ⟨r, hr, rfl⟩ := exists_of_mem_droppedParams he
    exact within_of_row h.1.1 r hr
  | call c args =>
    obtain ⟨⟨_, m, ⟨m₁, ⟨m₂, hhead, hhint⟩, hname⟩, hrow⟩, -⟩ := h
    obtain ⟨a, ha, rfl⟩ := List.mem_map.1 he
    obtain hsome : c.hint = some a := by simpa using ha
    rw [hsome] at hhint
    rw [TypeArgs.extent_of_reads? hhint]
    have := Stretch.le _ hhead
    have := hname.2.2
    have := (row _ _).le hrow
    dsimp only
    exact ⟨by omega, by omega⟩

theorem Outline.exists_of_mem_exchange? {o : Outline} {x : Trace} (hx : x ∈ o.exchange? j) :
    ∃ i, i ∈ x.index? := by
  cases o with
  | name i =>
    obtain ⟨text, -, rfl⟩ := Option.map_eq_some_iff.1 hx
    exact ⟨_, rfl⟩
  | part i args =>
    obtain ⟨text, -, rfl⟩ := Option.map_eq_some_iff.1 hx
    exact ⟨_, rfl⟩
  | typeArgs owner entries extent => cases hx
  | typeParams entries extent => cases hx
  | call c args => cases hx

/-- So is the token of a name. -/
theorem Outline.isIn_of_mem_exchange? {o : Outline}
    (h : o.laid (.ofSource j.source receiver) p q) {x : Trace} (hx : x ∈ o.exchange? j) :
    ∃ i ∈ x.index?, j.source.IsIn ⟨p, q⟩ i := by
  cases o with
  | name i =>
    obtain ⟨text, -, rfl⟩ := Option.map_eq_some_iff.1 hx
    obtain ⟨-, rfl, rfl⟩ := h
    exact ⟨_, rfl, j.source.isIn_index p⟩
  | part i args =>
    obtain ⟨text, -, rfl⟩ := Option.map_eq_some_iff.1 hx
    obtain ⟨-, rfl, rfl⟩ := h
    exact ⟨_, rfl, j.source.isIn_index p⟩
  | typeArgs owner entries extent => cases hx
  | typeParams entries extent => cases hx
  | call c args => cases hx

/-- An entry that is dropped leaves all of it out. -/
theorem omits_dropped (hs : j.source.Indexed) {inner : List Outline}
    (h : Outline.laidAll (.ofSource j.source receiver) inner p q) {e : Extent} (he : e = ⟨p, q⟩) :
    Omits j p q (placesAll inner)
      (e :: Outline.leftOutAll j.vocabulary j.binding (placesAll inner)) [] := by
  subst he
  refine ⟨fun e he => ?_, by simp, by simp, fun o ho x hx => .inr ?_⟩
  · rcases List.mem_cons.1 he with rfl | he
    · exact ⟨Nat.le_refl p, Nat.le_refl q⟩
    · obtain ⟨o, ho, he⟩ := List.mem_flatMap.1 he
      obtain ⟨a, b, ho, ha, hb⟩ := Outline.exists_laid_of_mem_placesAll h ho
      have := Outline.within_of_mem_leftOut ho e he
      exact ⟨by omega, by omega⟩
  · obtain ⟨a, b, ho, ha, hb⟩ := Outline.exists_laid_of_mem_placesAll h ho
    obtain ⟨i, hi, hin⟩ := Outline.isIn_of_mem_exchange? ho hx
    exact ⟨i, hi, .inl ⟨_, List.mem_cons_self, hs.isIn_mono ha hb hin⟩⟩

/-! ## Calls and lists -/

theorem mem_angleTraces {ls : List (List Trace)} : ∀ x ∈ angleTraces ls, x.index? = none ∨ x ∈ ls.flatten := by
  have hentries : ∀ x ∈ [(Chunk.put ", ").trace].intercalate ls, x.index? = none ∨ x ∈ ls.flatten := by
    induction ls with
    | nil => simp
    | cons l rest ih =>
      cases rest with
      | nil => exact fun x hx => .inr (by simpa using hx)
      | cons l' rest =>
        intro x hx
        rw [List.intercalate_cons_cons, List.mem_append, List.mem_append, List.mem_singleton] at hx
        rcases hx with (hx | rfl) | hx
        · exact .inr (List.mem_append_left _ hx)
        · exact .inl rfl
        · exact (ih x hx).imp_right (List.mem_append_right _)
  intro x hx
  rw [angleTraces] at hx
  split at hx
  · cases hx
  · rw [List.mem_cons, List.mem_append, List.mem_singleton] at hx
    rcases hx with rfl | hx | rfl
    · exact .inl rfl
    · exact hentries x hx
    · exact .inl rfl

theorem subset_angleTraces (ls : List (List Trace)) : ls.flatten ⊆ angleTraces ls := by
  have hentries : ls.flatten ⊆ [(Chunk.put ", ").trace].intercalate ls := by
    induction ls with
    | nil => exact List.nil_subset _
    | cons l rest ih =>
      cases rest with
      | nil => simp
      | cons l' rest =>
        intro x hx
        rw [List.intercalate_cons_cons]
        rcases List.mem_append.1 hx with hx | hx
        · exact List.mem_append_left _ (List.mem_append_left _ hx)
        · exact List.mem_append_right _ (ih hx)
  cases ls with
  | nil => exact List.nil_subset _
  | cons l rest => exact fun x hx => List.mem_cons_of_mem _ (List.mem_append_left _ (hentries hx))

theorem mem_wrapped {o : TracedOperand} : ∀ x ∈ o.wrapped, x.index? = none ∨ x ∈ o.traces := by
  intro x hx
  rw [TracedOperand.wrapped] at hx
  split at hx
  · exact .inr hx
  · rw [List.mem_cons, List.mem_append, List.mem_singleton] at hx
    rcases hx with rfl | hx | rfl
    · exact .inl rfl
    · exact .inr hx
    · exact .inl rfl

/-- What stands for a token in a call comes from an argument. -/
theorem mem_callTraces {c : IntrinsicCall} {args : List TracedOperand} :
    ∀ x ∈ j.callTraces c args, x.index? = none ∨ x ∈ args.flatMap (·.traces) := by
  have hfragment (f : Fragment) : ∀ x ∈ f.traces args, x.index? = none ∨ x ∈ args.flatMap (·.traces) := by
    intro x hx
    cases f with
    | fixed text =>
      obtain rfl := List.mem_singleton.1 hx
      exact .inl rfl
    | plain i =>
      cases ha : args[i]? with
      | none => simp [Fragment.traces, ha] at hx
      | some a =>
        have hx : x ∈ a.traces := by simpa [Fragment.traces, ha] using hx
        exact .inr (List.mem_flatMap.2 ⟨a, List.mem_of_getElem? ha, hx⟩)
    | beside i =>
      cases ha : args[i]? with
      | none => simp [Fragment.traces, ha] at hx
      | some a =>
        have hx : x ∈ a.wrapped := by simpa [Fragment.traces, ha] using hx
        exact (mem_wrapped x hx).imp_right fun hx =>
          List.mem_flatMap.2 ⟨a, List.mem_of_getElem? ha, hx⟩
  intro x hx
  rw [Job.callTraces] at hx
  split at hx
  · split at hx
    · obtain ⟨f, -, hx⟩ := List.mem_flatMap.1 hx
      exact hfragment f x hx
    · cases hx
  · cases hx

theorem leaves_exchanged {o : Outline} {i : Ident} {text : Option String}
    (h : nameOf (.ofSource j.source receiver) i p q) (hleft : o.leftOut j.vocabulary j.binding = [])
    (hexchange : o.exchange? j = text.map (j.exchange i)) :
    Leaves j p q [o] (j.exchangedPatch i text) := by
  obtain ⟨-, rfl, rfl⟩ := h
  have hnone : Outline.leftOutAll j.vocabulary j.binding [o] = [] := by
    simp [Outline.leftOutAll, hleft]
  refine ⟨⟨by simp [hnone], fun x hx i hi => ?_, by simp [hnone], fun o' ho' x hx => .inl ?_⟩, by simp [hnone]⟩
  · cases text with
    | none => cases hx
    | some text =>
      obtain rfl : x = j.exchange _ text := by simpa [Job.exchangedPatch] using hx
      obtain rfl := Option.some.inj hi
      exact j.source.isIn_index p
  · rw [List.mem_singleton.1 ho', hexchange] at hx
    cases text with
    | none => cases hx
    | some text =>
      obtain rfl := Option.some.inj hx
      simp [Job.exchangedPatch]

theorem droppedArgs_eq_nil {v : Vocabulary} {b : Binding} {slots : List Placeholder}
    {rows : List (TypeArg × List Outline)} (h : anyDropped v b slots (rows.map (·.1)) = false) :
    droppedArgs v b slots rows = [] := by
  induction rows generalizing slots with
  | nil => rfl
  | cons r rows ih =>
    rw [List.map_cons, anyDropped, Bool.or_eq_false_iff] at h
    obtain ⟨a, inner⟩ := r
    rw [droppedArgs, if_neg (Bool.eq_false_iff.1 h.1), ih h.2]

theorem droppedParams_eq_nil {v : Vocabulary} {b : Binding} {rows : List (TypeParam × List Outline)}
    (h : rows.any (fun e => isDroppedParam v b e.1) = false) : droppedParams v b rows = [] := by
  induction rows with
  | nil => rfl
  | cons r rows ih =>
    rw [List.any_cons, Bool.or_eq_false_iff] at h
    obtain ⟨a, inner⟩ := r
    rw [droppedParams, if_neg (Bool.eq_false_iff.1 h.1), ih h.2]

/-- What an argument leaves out a call leaves out, and its hint, which stands in front of them. -/
theorem omits_call (hs : j.source.Indexed) {c : IntrinsicCall}
    {args : List (Expr × List Outline)} {operands : List TracedOperand}
    (h : (Outline.call c args).laid (.ofSource j.source receiver) p q) (hp : p ≤ m)
    (hargs : Omits j m q (operandPlaces args)
      (Outline.leftOutAll j.vocabulary j.binding (operandPlaces args)) (operands.flatMap (·.traces)))
    (hhint : ∀ e ∈ (Outline.call c args).leftOut j.vocabulary j.binding, ∀ i, j.source.IsIn e i →
      ¬j.source.IsIn ⟨m, q⟩ i) :
    Omits j p q (.call c args :: operandPlaces args)
      (Outline.leftOutAll j.vocabulary j.binding (.call c args :: operandPlaces args))
      (j.callTraces c operands) := by
  have hall := hargs.mono hs hp (Nat.le_refl q)
  have htrace {x : Trace} (hx : x ∈ j.callTraces c operands) {i : Nat} (hi : i ∈ x.index?) :
      x ∈ operands.flatMap (·.traces) :=
    Trace.mem_of_index (mem_callTraces x hx) hi
  rw [Outline.leftOutAll, List.flatMap_cons]
  refine ⟨?_, fun x hx i hi => hall.inside x (htrace hx hi) i hi, fun e he x hx i hi hin => ?_,
    fun o ho x hx => ?_⟩
  · exact List.forall_mem_append.2 ⟨Outline.within_of_mem_leftOut h, hall.within⟩
  · rcases List.mem_append.1 he with he | he
    · exact hhint e he i hin (hargs.inside x (htrace hx hi) i hi)
    · exact hargs.omitted e he x (htrace hx hi) i hi hin
  · rcases List.mem_cons.1 ho with rfl | ho
    · cases hx
    · rcases hall.exchanged o ho x hx with hmem | hhidden
      · -- the argument need not be part of the text
        obtain ⟨i, hi⟩ := Outline.exists_of_mem_exchange? hx
        have hin := hall.inside x hmem i hi
        rw [← h.2] at hin
        exact .inr ⟨i, hi, .inr ⟨c, args, List.mem_cons_self, hin⟩⟩
      · exact .inr (hhidden.mono (List.subset_cons_self _ _) (List.subset_append_right _ _))

/-- A list whose entries all stay. -/
theorem Leaves.list {o : Outline} (ho : o.exchange? j = none) (hleft : o.leftOut j.vocabulary j.binding = [])
    (h : Leaves j p q ps patches) : Leaves j p q (o :: ps) patches := by
  have heq : Outline.leftOutAll j.vocabulary j.binding (o :: ps)
      = Outline.leftOutAll j.vocabulary j.binding ps := by
    rw [Outline.leftOutAll, List.flatMap_cons, hleft, List.nil_append, Outline.leftOutAll]
  refine ⟨?_, heq ▸ h.covered⟩
  rw [heq]
  exact h.toOmits.place ho

/-- A list that is put together anew from the entries that stay. -/
theorem Leaves.kept (hs : j.source.Indexed) {o : Outline} (ho : o.exchange? j = none) {range : TokenRange}
    {ls : List (List Trace)}
    (h : Omits j p q ps (o.leftOut j.vocabulary j.binding ++ Outline.leftOutAll j.vocabulary j.binding ps)
      ls.flatten) (hstart : range.start ≤ (j.source.range ⟨p, q⟩).start)
    (hstop : (j.source.range ⟨p, q⟩).stop ≤ range.stop) :
    Leaves j p q (o :: ps) [⟨range, angleTraces ls⟩] := by
  refine .of_patch hs hstart hstop ?_
  have hall := (h.of_mem (subset_angleTraces ls) mem_angleTraces).place ho
  rwa [Outline.leftOutAll, List.flatMap_cons]

/-- What is rendered without an error. -/
theorem Outline.omits_render (hs : j.source.Indexed) (hq : q ≤ j.source.code.size) {inner : List Outline}
    (h : Outline.laidAll (.ofSource j.source receiver) inner p q) {text : String}
    (hr : j.render ⟨p, q⟩ (Outline.stepsAll j inner) = .ok text)
    (hleaves : firstError? (Outline.stepsAll j inner) = none →
      Leaves j p q (placesAll inner) (Outline.tracedAll j inner)) :
    Omits j p q (placesAll inner) (Outline.leftOutAll j.vocabulary j.binding (placesAll inner))
      (j.wovenIn ⟨p, q⟩ (Outline.tracedAll j inner)) := by
  have hok := exists_of_render hr
  have hfits := Outline.fits_stepsAll hs hq h
  rw [Outline.agrees_stepsAll hs hq h hok, ← Outline.map_patch_tracedAll] at hfits
  refine (hleaves hok).omits_wovenIn (ordered_of_fits hs hq hfits fun e he => ?_)
  exact hfits.contains hs (by rwa [editsBefore_editOf])

/-! ## The walk -/

mutual

theorem Outline.leaves_traced (hs : j.source.Indexed) {p q : Nat} (hq : q ≤ j.source.code.size) :
    ∀ {o : Outline}, o.laid (.ofSource j.source receiver) p q → firstError? (o.steps j) = none →
      Leaves j p q o.places (o.traced j)
  | .name i, h, _ => leaves_exchanged h rfl rfl
  | .part i args, h, _ => leaves_exchanged h rfl rfl
  | .typeArgs owner entries extent, ⟨⟨hrow, hlt⟩, he⟩, hok => by
    obtain rfl : extent = ⟨p, q⟩ := he
    simp only [Outline.steps] at hok
    simp only [Outline.traced, Outline.places]
    split
    · rename_i hempty
      obtain rfl := List.isEmpty_iff.1 hempty
      split
      · exact .list rfl rfl .nil
      · change Leaves j p q _ [⟨j.source.range ⟨p, q⟩, angleTraces []⟩]
        exact .kept hs rfl .nil (Nat.le_refl _) (Nat.le_refl _)
    · rename_i hne
      rw [if_neg hne] at hok
      split
      · rename_i hdropped
        rw [if_pos hdropped] at hok
        obtain ⟨texts, hkept⟩ := exists_of_keepArgs hok
        exact .kept hs rfl (Outline.omits_keptArgs hs hq hrow hkept) (Nat.le_refl _) (Nat.le_refl _)
      · rename_i hall
        rw [if_neg hall] at hok
        exact (Outline.leaves_argTraced hs hq hrow hok).list rfl
          (droppedArgs_eq_nil (Bool.eq_false_iff.2 hall))
  | .typeParams entries extent, ⟨⟨hrow, hlt⟩, he⟩, hok => by
    obtain rfl : extent = ⟨p, q⟩ := he
    simp only [Outline.steps] at hok
    simp only [Outline.traced, Outline.places]
    split
    · rename_i hdropped
      rw [if_pos hdropped] at hok
      obtain ⟨texts, hkept⟩ := exists_of_keepParams hok
      have hblank := absorbBlank_spec (j := j) (j.source.range ⟨p, q⟩)
      have homits := Outline.omits_keptParams hs hq hrow hkept
      split
      · exact .kept hs rfl homits (Nat.le_of_eq hblank.1) hblank.2
      · exact .kept hs rfl homits (Nat.le_refl _) (Nat.le_refl _)
    · rename_i hall
      rw [if_neg hall] at hok
      exact (Outline.leaves_paramTraced hs hq hrow hok).list rfl
        (droppedParams_eq_nil (Bool.eq_false_iff.2 hall))
  | .call c args, h, hok => by
    have hlaid := h
    obtain ⟨⟨_, m, ⟨m₁, ⟨m₂, hhead, hhint⟩, hname⟩, hrow⟩, he⟩ := h
    obtain ⟨-, os, -, -, -, hos, -⟩ := exists_of_call hok
    have hm : m₁ ≤ m := Stretch.le _ hname
    have hp : p ≤ m := Nat.le_trans (Nat.le_trans (Stretch.le _ hhead) (Stretch.le _ hhint)) hm
    have hmq := (row _ _).le hrow
    rw [Outline.traced, Outline.places, he]
    refine .of_patch hs (Nat.le_refl _) (Nat.le_refl _) (omits_call hs hlaid hp
      (Outline.omits_operands hs hq hrow hos) fun e hin i hi => ?_)
    obtain ⟨a, ha, rfl⟩ := List.mem_map.1 hin
    obtain hsome : c.hint = some a := by simpa using ha
    rw [hsome] at hhint
    rw [TypeArgs.extent_of_reads? hhint] at hi
    exact hs.not_isIn hm (by omega) hi

theorem Outline.leaves_tracedAll (hs : j.source.Indexed) {p q : Nat} (hq : q ≤ j.source.code.size) :
    ∀ {os : List Outline}, Outline.laidAll (.ofSource j.source receiver) os p q →
      firstError? (Outline.stepsAll j os) = none →
      Leaves j p q (placesAll os) (Outline.tracedAll j os)
  | [], _, _ => .nil
  | o :: os, ⟨m, ⟨m', hn, ho⟩, hos⟩, hok => by
    have hos := of_before hos
    have hmq := (Outline.laidAll _ os).le hos
    have hle := (o.laid _).le ho
    rw [Outline.stepsAll, firstError?_append, Option.or_eq_none_iff] at hok
    have hfirst := Outline.leaves_traced hs (Nat.le_trans hmq hq) ho hok.1
    exact hfirst.cons hs hn.1 hle hmq hq (Outline.leaves_tracedAll hs hq hos hok.2)

theorem Outline.leaves_argTraced (hs : j.source.Indexed) {p q : Nat} (hq : q ≤ j.source.code.size) :
    ∀ {es : List (TypeArg × List Outline)},
      row (.ofSource j.source receiver) (Outline.argRow (.ofSource j.source receiver) es) p q →
      firstError? (Outline.argSteps j es) = none →
      Leaves j p q (argPlaces es) (Outline.argTraced j es)
  | [], _, _ => .nil
  | (a, inner) :: es, ⟨m, ⟨m', hn, h, _⟩, hes⟩, hok => by
    have hmq := (row _ _).le hes
    have hle := (Outline.laidAll _ inner).le h
    rw [Outline.argSteps, firstError?_append, Option.or_eq_none_iff] at hok
    have hfirst := Outline.leaves_tracedAll hs (Nat.le_trans hmq hq) h hok.1
    exact hfirst.cons hs hn.1 hle hmq hq (Outline.leaves_argTraced hs hq hes hok.2)

theorem Outline.omits_keptArgs (hs : j.source.Indexed) {p q : Nat} (hq : q ≤ j.source.code.size) :
    ∀ {es : List (TypeArg × List Outline)} {slots : List Placeholder} {texts : List String},
      row (.ofSource j.source receiver) (Outline.argRow (.ofSource j.source receiver) es) p q →
      Outline.keptArgs j slots es = .ok texts →
      Omits j p q (argPlaces es) (droppedArgs j.vocabulary j.binding slots es
        ++ Outline.leftOutAll j.vocabulary j.binding (argPlaces es)) (Outline.keptArgTraces j slots es).flatten
  | [], _, _, _, _ => .nil
  | (a, inner) :: es, slots, texts, ⟨m, ⟨m', hn, h, he⟩, hes⟩, hk => by
    have hmq := (row _ _).le hes
    have hle := (Outline.laidAll _ inner).le h
    have hm := Nat.le_trans hmq hq
    simp only [Outline.keptArgs] at hk
    simp only [Outline.keptArgTraces, droppedArgs]
    split at hk
    · rename_i hdropped
      rw [if_pos hdropped, if_pos hdropped]
      have hrest := (omits_dropped hs h he).cons hs hn.1 hle hmq hq
        (Outline.omits_keptArgs hs hq hes hk)
      refine hrest.congr fun e => ?_
      simp [argPlaces, Outline.leftOutAll, or_left_comm]
    · rename_i hstays
      rw [if_neg hstays, if_neg hstays, he]
      obtain ⟨text, rest, htext, hrest, rfl⟩ := ok_of_bind hk
      have hfirst := Outline.omits_render hs hm h (he ▸ htext) (Outline.leaves_tracedAll hs hm h)
      have hall := hfirst.cons hs hn.1 hle hmq hq (Outline.omits_keptArgs hs hq hes hrest)
      refine hall.congr fun e => ?_
      simp [argPlaces, Outline.leftOutAll, or_left_comm]

theorem Outline.leaves_paramTraced (hs : j.source.Indexed) {p q : Nat} (hq : q ≤ j.source.code.size) :
    ∀ {es : List (TypeParam × List Outline)},
      row (.ofSource j.source receiver) (Outline.paramRow (.ofSource j.source receiver) es) p q →
      firstError? (Outline.paramSteps j es) = none →
      Leaves j p q (paramPlaces es) (Outline.paramTraced j es)
  | [], _, _ => .nil
  | (a, inner) :: es, ⟨m, ⟨m', hn, h, _⟩, hes⟩, hok => by
    have hmq := (row _ _).le hes
    have hle := (Outline.laidAll _ inner).le h
    rw [Outline.paramSteps, firstError?_append, Option.or_eq_none_iff] at hok
    have hfirst := Outline.leaves_tracedAll hs (Nat.le_trans hmq hq) h hok.1
    exact hfirst.cons hs hn.1 hle hmq hq (Outline.leaves_paramTraced hs hq hes hok.2)

theorem Outline.omits_keptParams (hs : j.source.Indexed) {p q : Nat} (hq : q ≤ j.source.code.size) :
    ∀ {es : List (TypeParam × List Outline)} {texts : List String},
      row (.ofSource j.source receiver) (Outline.paramRow (.ofSource j.source receiver) es) p q →
      Outline.keptParams j es = .ok texts →
      Omits j p q (paramPlaces es) (droppedParams j.vocabulary j.binding es
        ++ Outline.leftOutAll j.vocabulary j.binding (paramPlaces es)) (Outline.keptParamTraces j es).flatten
  | [], _, _, _ => .nil
  | (a, inner) :: es, texts, ⟨m, ⟨m', hn, h, he⟩, hes⟩, hk => by
    have hmq := (row _ _).le hes
    have hle := (Outline.laidAll _ inner).le h
    have hm := Nat.le_trans hmq hq
    simp only [Outline.keptParams] at hk
    simp only [Outline.keptParamTraces, droppedParams]
    split at hk
    · rename_i hdropped
      rw [if_pos hdropped, if_pos hdropped]
      have hrest := (omits_dropped hs h he).cons hs hn.1 hle hmq hq
        (Outline.omits_keptParams hs hq hes hk)
      refine hrest.congr fun e => ?_
      simp [paramPlaces, Outline.leftOutAll, or_left_comm]
    · rename_i hstays
      rw [if_neg hstays, if_neg hstays, he]
      obtain ⟨text, rest, htext, hrest, rfl⟩ := ok_of_bind hk
      have hfirst := Outline.omits_render hs hm h (he ▸ htext) (Outline.leaves_tracedAll hs hm h)
      have hall := hfirst.cons hs hn.1 hle hmq hq (Outline.omits_keptParams hs hq hes hrest)
      refine hall.congr fun e => ?_
      simp [paramPlaces, Outline.leftOutAll, or_left_comm]

theorem Outline.omits_operands (hs : j.source.Indexed) {p q : Nat} (hq : q ≤ j.source.code.size) :
    ∀ {es : List (Expr × List Outline)} {os : List Operand},
      row (.ofSource j.source receiver) (Outline.operandRow (.ofSource j.source receiver) es) p q →
      Outline.operands j es = .ok os →
      Omits j p q (operandPlaces es) (Outline.leftOutAll j.vocabulary j.binding (operandPlaces es))
        ((Outline.tracedOperands j es).flatMap (·.traces))
  | [], _, _, _ => .nil
  | (e, inner) :: es, os, ⟨m, ⟨m', hn, h, he⟩, hes⟩, hk => by
    have hmq := (row _ _).le hes
    have hle := (Outline.laidAll _ inner).le h
    have hm := Nat.le_trans hmq hq
    simp only [Outline.operands] at hk
    obtain ⟨text, rest, htext, hrest, rfl⟩ := ok_of_bind hk
    have hfirst := Outline.omits_render hs hm h (he ▸ htext) (Outline.leaves_tracedAll hs hm h)
    have hall := hfirst.cons hs hn.1 hle hmq hq (Outline.omits_operands hs hq hes hrest)
    rw [operandPlaces, Outline.leftOutAll, List.flatMap_append, Outline.tracedOperands, List.flatMap_cons, he]
    exact hall

end

end Stencil.Rewrite
