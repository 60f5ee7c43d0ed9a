import Stencil.Proofs.Rewrite.Free
import Stencil.Proofs.Rewrite.Spots

/-!
# Texts that are rid of a placeholder

A placeholder of the default vocabulary that is bound to a primitive type is left in nothing that a
text is put together from: not in a copied token, nor in a text that is put in. The walk finds every
name of the template, and either puts something in its place or knows that it does not mention the
placeholder. Only quoted literals may hold anything.

Results: the invariant of the walk holds of two stretches one after the other (`Settles.append`),
and it makes the chunks of a stretch free of the placeholder (`Settles.isFree_pieced`). It holds of
every outline (`Outline.settles_stepsAll`).
-/

namespace Stencil

namespace Rewrite

variable {j : Job} {u : Placeholder} {barred : List Nat} {receiver : String} {p m q : Nat}
  {patches more : List Patch}

/-- The invariant of the walk over a stretch: every name in it lies in a patch or is free, and all
chunks of the patches are free. -/
structure Settles (j : Job) (u : Placeholder) (barred : List Nat) (p q : Nat)
    (patches : List Patch) : Prop where
  covered : ∀ x, p ≤ x → x < q → (j.source.codeToken x).kind = .identifier →
    (∃ y ∈ patches, y.range.start ≤ j.source.index x ∧ j.source.index x < y.range.stop)
      ∨ (Chunk.copied (j.source.index x)).IsFree j u barred
  free : ∀ y ∈ patches, ∀ c ∈ y.chunks, c.IsFree j u barred

namespace Settles

theorem append (hx : Settles j u barred p m patches) (hy : Settles j u barred m q more) :
    Settles j u barred p q (patches ++ more) := by
  refine ⟨fun x hpx hxq hk => ?_, fun y hy' => ?_⟩
  · by_cases hxm : x < m
    · refine (hx.covered x hpx hxm hk).imp_left fun ⟨y, hy', hin⟩ => ?_
      exact ⟨y, List.mem_append_left _ hy', hin⟩
    · refine (hy.covered x (by omega) hxq hk).imp_left fun ⟨y, hy', hin⟩ => ?_
      exact ⟨y, List.mem_append_right _ hy', hin⟩
  · rcases List.mem_append.1 hy' with hy' | hy'
    · exact hx.free y hy'
    · exact hy.free y hy'

/-- There is nothing to do in a stretch without names. -/
theorem of_nameless (h : nameless (.ofSource j.source receiver) p q) (hq : q ≤ j.source.code.size) :
    Settles j u barred p q [] := by
  refine ⟨fun x hpx hxq hk => ?_, by simp⟩
  have hname := (h.2 x hpx hxq).1
  rw [Script.kind, Source.word_ofSource (by omega)] at hname
  exact absurd hk hname

theorem lead (h : nameless (.ofSource j.source receiver) p m) (hm : m ≤ j.source.code.size)
    (hx : Settles j u barred m q patches) : Settles j u barred p q patches :=
  (of_nameless h hm).append hx

/-- A patch over a whole stretch. -/
theorem of_patch (hs : j.source.Indexed) {range : TokenRange} {chunks : List Chunk}
    (hstart : range.start ≤ j.source.index p) (hstop : j.source.index (q - 1) < range.stop)
    (hfree : ∀ c ∈ chunks, c.IsFree j u barred) : Settles j u barred p q [⟨range, chunks⟩] := by
  refine ⟨fun x hpx hxq _ => .inl ⟨_, List.mem_singleton_self _, ?_, ?_⟩, by simpa using hfree⟩
  · exact Nat.le_trans hstart (hs.index_le_index hpx)
  · exact Nat.lt_of_le_of_lt (hs.index_le_index (by omega)) hstop

end Settles

/-! ## Chunks of ranges -/

theorem mem_copies {c : Chunk} {r : TokenRange} (h : c ∈ j.copies r) :
    ∃ i, c = .copied i ∧ r.start ≤ i ∧ i < r.stop ∧ i < j.source.tokens.size := by
  obtain ⟨i, hi, rfl⟩ := List.mem_map.1 h
  rw [List.mem_range'_1] at hi
  exact ⟨i, rfl, by omega, by omega, by omega⟩

/-- Are the patches one behind the other between two indices? -/
structure Ordered (start stop : Nat) (patches : List Patch) : Prop where
  start_lt : ∀ y ∈ patches, y.range.start < y.range.stop
  pairwise : patches.Pairwise fun y z => y.range.stop ≤ z.range.start
  start_le : ∀ y ∈ patches, start ≤ y.range.start
  stop_le : ∀ y ∈ patches, y.range.stop ≤ stop

/-- A chunk between two indices is put in by a patch, or it is a copied token outside of all
patches. -/
theorem mem_pieced {start stop : Nat} {c : Chunk} (h : Ordered start stop patches)
    (hc : c ∈ j.pieced stop start patches) :
    (∃ y ∈ patches, c ∈ y.chunks) ∨ ∃ i, c = .copied i ∧ start ≤ i ∧ i < stop
      ∧ i < j.source.tokens.size ∧ ∀ y ∈ patches, i < y.range.start ∨ y.range.stop ≤ i := by
  induction patches generalizing start with
  | nil =>
    obtain ⟨i, rfl, hi, hstop, hsize⟩ := mem_copies hc
    exact .inr ⟨i, rfl, hi, hstop, hsize, by simp⟩
  | cons y rest ih =>
    obtain ⟨hlt, hp, hstart, hstop⟩ := h
    rw [List.pairwise_cons] at hp
    rw [List.forall_mem_cons] at hlt hstart hstop
    simp only [Job.pieced, List.mem_append] at hc
    rcases hc with (hc | hc) | hc
    · obtain ⟨i, rfl, hi, hiy, hsize⟩ := mem_copies hc
      simp only at hi hiy
      refine .inr ⟨i, rfl, hi, by omega, hsize, fun z hz => .inl ?_⟩
      rw [List.mem_cons] at hz
      rcases hz with rfl | hz
      · exact hiy
      · have := hp.1 z hz
        omega
    · exact .inl ⟨y, List.mem_cons_self, hc⟩
    · rcases ih ⟨hlt.2, hp.2, hp.1, hstop.2⟩ hc with ⟨z, hz, hc⟩ | ⟨i, rfl, hi, histop, hsize, hout⟩
      · exact .inl ⟨z, List.mem_cons_of_mem y hz, hc⟩
      · refine .inr ⟨i, rfl, by omega, histop, hsize, ?_⟩
        rw [List.forall_mem_cons]
        exact ⟨.inr hi, hout⟩

/-- The chunks between two indices are free if the stretch holds all code tokens between them. -/
theorem Settles.isFree_pieced (hj : j.Clears u barred) (h : Settles j u barred p q patches)
    {start stop : Nat} (ho : Ordered start stop patches)
    (hp : ∀ x < j.source.code.size, start ≤ j.source.index x → p ≤ x)
    (hq : ∀ x < j.source.code.size, j.source.index x < stop → x < q) :
    ∀ c ∈ j.pieced stop start patches, c.IsFree j u barred := by
  intro c hc
  rcases mem_pieced ho hc with ⟨y, hy, hc⟩ | ⟨i, rfl, hi, histop, hsize, hout⟩
  · exact h.free y hy c hc
  · by_cases hk : (j.source.tokenAt i).kind = .identifier
    · have hcode : (j.source.tokenAt i).isCode = true := by
        rw [Token.isCode, hk]
        rfl
      obtain ⟨x, hx, rfl⟩ := hj.indexed.exists_index_eq hsize hcode
      refine (h.covered x (hp x hx hi) (hq x hx histop) hk).resolve_left ?_
      rintro ⟨y, hy, hin⟩
      have := hout y hy
      omega
    · exact hj.isFree_copied hsize hk

theorem editsBefore_editOf :
    editsBefore (patches.map fun x => .ok (j.editOf x)) = patches.map j.editOf := by
  rw [← editsBefore_map (patches.map j.editOf), List.map_map]
  rfl

/-- The patches of a walk are in order, between any two indices that hold its edits. -/
theorem ordered_of_fits (hs : j.source.Indexed) (hq : q ≤ j.source.code.size)
    (h : Fits j.source q p (patches.map fun x => .ok (j.editOf x))) {range : TokenRange}
    (hc : ∀ e ∈ patches.map j.editOf, range.contains e.range = true) :
    Ordered range.start range.stop patches := by
  have hpairwise := h.pairwise_lt hs hq
  rw [editsBefore_editOf, List.pairwise_map] at hpairwise
  have hmem {y : Patch} (hy : y ∈ patches) : j.editOf y ∈ patches.map j.editOf :=
    List.mem_map_of_mem hy
  have hcontains {y : Patch} (hy : y ∈ patches) :
      range.start ≤ y.range.start ∧ y.range.stop ≤ range.stop := by
    have hin := hc _ (hmem hy)
    simp only [TokenRange.contains, Bool.and_eq_true, decide_eq_true_eq] at hin
    exact hin
  refine ⟨fun y hy => ?_, hpairwise, fun y hy => (hcontains hy).1, fun y hy => (hcontains hy).2⟩
  exact h.start_lt (by rw [editsBefore_editOf]; exact hmem hy)

/-- What is rendered on its own is free. -/
theorem Settles.isFree_rendered (hj : j.Clears u barred) (hq : q ≤ j.source.code.size)
    (hfits : Fits j.source q p (patches.map fun x => .ok (j.editOf x)))
    (h : Settles j u barred p q patches) : ∀ c ∈ j.rendered ⟨p, q⟩ patches, c.IsFree j u barred := by
  have hs := hj.indexed
  have hpq := hfits.le
  have hcontains : ∀ e ∈ patches.map j.editOf, (j.source.range ⟨p, q⟩).contains e.range = true := by
    rw [← editsBefore_editOf]
    exact fun e he => hfits.contains hs he
  refine h.isFree_pieced hj (ordered_of_fits hs hq hfits hcontains) (fun x hx hi => ?_)
    fun x hx hi => ?_
  · refine Nat.le_of_not_lt fun hlt => ?_
    have := hs.index_lt_index hlt hx
    simp only [Source.range] at hi
    omega
  · refine Nat.lt_of_not_le fun hle => ?_
    simp only [Source.range] at hi
    split at hi
    · have := hs.index_lt_index (show q - 1 < x by omega) (by omega)
      omega
    · have := hs.index_le_index (show p ≤ x by omega)
      omega

/-! ## Steps without errors -/

theorem exists_of_render {extent : Extent} {xs : List Step} {text : String}
    (h : j.render extent xs = .ok text) : firstError? xs = none := by
  simp only [Job.render] at h
  split at h
  · contradiction
  · assumption

theorem exists_of_keepArgs {extent : Extent} {kept : Except SpecializeError (List String)}
    (h : firstError? (j.keepArgs extent kept) = none) : ∃ texts, kept = .ok texts := by
  cases kept with
  | error e => contradiction
  | ok texts => exact ⟨texts, rfl⟩

theorem exists_of_keepParams {extent : Extent} {kept : Except SpecializeError (List String)}
    (h : firstError? (j.keepParams extent kept) = none) : ∃ texts, kept = .ok texts := by
  cases kept with
  | error e => contradiction
  | ok texts => exact ⟨texts, rfl⟩

/-! ## The walk -/

/-- Is the name not barred? Is the hint of the call bare? -/
def Spot.IsFine (j : Job) (barred : List Nat) : Spot → Prop
  | .name i => j.source.index i.position ∉ barred
  | .call c => ∀ a ∈ c.hint, j.source.isBare a.extent = true

open Stretch

theorem settles_renamed {i : Ident} {text : Option String}
    (h : nameOf (.ofSource j.source receiver) i p q) (hq : q ≤ j.source.code.size)
    (hi : (Spot.name i).IsFine j barred) (ht : j.vocabulary.mentions (text.getD i.name) u = false) :
    Settles j u barred p q (j.renamedPatch i text) := by
  obtain ⟨hk, hname, rfl⟩ := h
  rw [Source.kind_ofSource (by omega), Source.codeToken] at hk
  rw [Source.word_ofSource (by omega)] at hname
  subst hname
  refine ⟨fun x hpx hxq _ => ?_, ?_⟩
  · obtain rfl : x = p := by omega
    cases text with
    | some text => exact .inl ⟨_, List.mem_singleton_self _, Nat.le_refl _, Nat.lt_succ_self _⟩
    | none =>
      refine .inr ⟨hi, .inr ?_⟩
      have htext : j.chunkText (.copied (j.source.index x)) = (j.source.codeToken x).text := by
        simp [Job.chunkText, tokenText, hk, Kind.channel, Source.codeToken]
      rw [htext]
      exact ht
  · cases text with
    | none => simp [Job.renamedPatch]
    | some text => simpa [Job.renamedPatch, Chunk.IsFree] using ht

theorem absorbBlank_spec (r : TokenRange) :
    (j.absorbBlank r).start = r.start ∧ r.stop ≤ (j.absorbBlank r).stop := by
  simp only [Job.absorbBlank]
  split
  · exact ⟨rfl, Nat.le_succ _⟩
  · exact ⟨rfl, Nat.le_refl _⟩

theorem stop_range {p q : Nat} (h : p < q) : j.source.index (q - 1) < (j.source.range ⟨p, q⟩).stop := by
  simp [Source.range, h]

mutual

theorem Outline.settles_steps (hj : j.Clears u barred) {p q : Nat} (hq : q ≤ j.source.code.size) :
    ∀ {o : Outline}, o.laid (.ofSource j.source receiver) p q → firstError? (o.steps j) = none →
      (∀ x ∈ o.spots, x.IsFine j barred) → Settles j u barred p q (o.patches j)
  | .name i, h, _, hfine => by
    refine settles_renamed h hq (hfine _ List.mem_cons_self) ?_
    rw [hj.vocabulary]
    exact not_mentions_ident hj.primitive
  | .part i args, h, _, hfine => by
    refine settles_renamed h hq (hfine _ List.mem_cons_self) ?_
    rw [hj.vocabulary]
    exact not_mentions_segment hj.primitive
  | .typeArgs owner entries extent, ⟨⟨hrow, hlt⟩, he⟩, hok, hfine => by
    obtain rfl : extent = ⟨p, q⟩ := he
    simp only [Outline.steps] at hok
    simp only [Outline.patches]
    split
    · rename_i hempty
      obtain rfl := List.isEmpty_iff.1 hempty
      split
      · exact Settles.of_nameless hrow hq
      · exact Settles.of_patch hj.indexed (Nat.le_refl _) (stop_range hlt) (by simp)
    · rename_i hne
      rw [if_neg hne] at hok
      split
      · rename_i hdropped
        rw [if_pos hdropped] at hok
        obtain ⟨texts, hkept⟩ := exists_of_keepArgs hok
        refine Settles.of_patch hj.indexed (Nat.le_refl _) (stop_range hlt) (hj.isFree_angleChunks ?_)
        exact Outline.isFree_keptArgs hj hq hrow hkept hfine
      · rename_i hall
        rw [if_neg hall] at hok
        exact Outline.settles_argSteps hj hq hrow hok hfine
  | .typeParams entries extent, ⟨⟨hrow, hlt⟩, he⟩, hok, hfine => by
    obtain rfl : extent = ⟨p, q⟩ := he
    simp only [Outline.steps] at hok
    simp only [Outline.patches]
    split
    · rename_i hdropped
      rw [if_pos hdropped] at hok
      obtain ⟨texts, hkept⟩ := exists_of_keepParams hok
      have hfree := hj.isFree_angleChunks (Outline.isFree_keptParams hj hq hrow hkept hfine)
      have hblank := absorbBlank_spec (j := j) (j.source.range ⟨p, q⟩)
      have hstop := stop_range (j := j) hlt
      split
      · exact Settles.of_patch hj.indexed (Nat.le_of_eq hblank.1) (by omega) hfree
      · exact Settles.of_patch hj.indexed (Nat.le_refl _) hstop hfree
    · rename_i hall
      rw [if_neg hall] at hok
      exact Outline.settles_paramSteps hj hq hrow hok hfine
  | .call c args, ⟨⟨_, m, ⟨m₁, ⟨m₂, ⟨m₃, hrec, hdot⟩, hhint⟩, hname⟩, hrow⟩, he⟩, hok, hfine => by
    have hlt : p < q := by
      have := hrec.2.2
      have := hdot.2
      have := (TypeArgs.reads? _ c.hint).le hhint
      have := hname.2.2
      have := (row _ _).le hrow
      omega
    have hm₁ : m₁ ≤ j.source.code.size := by
      have := hname.2.2
      have := (row _ _).le hrow
      omega
    obtain ⟨-, os, -, -, -, hos, -⟩ := exists_of_call hok
    simp only [Outline.spots, List.forall_mem_cons] at hfine
    have hargs := Outline.isFree_operands hj hq hrow hos hfine.2
    simp only [Outline.patches, he]
    exact Settles.of_patch hj.indexed (Nat.le_refl _) (stop_range hlt)
      (hj.isFree_callChunks hhint hm₁ hfine.1 hargs)

theorem Outline.settles_stepsAll (hj : j.Clears u barred) {p q : Nat}
    (hq : q ≤ j.source.code.size) :
    ∀ {os : List Outline}, Outline.laidAll (.ofSource j.source receiver) os p q →
      firstError? (Outline.stepsAll j os) = none → (∀ x ∈ Outline.spotsAll os, x.IsFine j barred) →
      Settles j u barred p q (Outline.patchesAll j os)
  | [], h, _, _ => Settles.of_nameless h hq
  | o :: os, ⟨m, ⟨m', hn, ho⟩, hos⟩, hok, hfine => by
    have hos := of_before hos
    have hm := Nat.le_trans ((Outline.laidAll _ os).le hos) hq
    have hm' := Nat.le_trans ((o.laid _).le ho) hm
    rw [Outline.stepsAll, firstError?_append, Option.or_eq_none_iff] at hok
    rw [Outline.spotsAll, List.forall_mem_append] at hfine
    exact ((Outline.settles_steps hj hm ho hok.1 hfine.1).lead hn hm').append
      (Outline.settles_stepsAll hj hq hos hok.2 hfine.2)

theorem Outline.settles_argSteps (hj : j.Clears u barred) {p q : Nat}
    (hq : q ≤ j.source.code.size) :
    ∀ {es : List (TypeArg × List Outline)},
      row (.ofSource j.source receiver) (Outline.argRow (.ofSource j.source receiver) es) p q →
      firstError? (Outline.argSteps j es) = none → (∀ x ∈ Outline.argSpots es, x.IsFine j barred) →
      Settles j u barred p q (Outline.argPatches j es)
  | [], h, _, _ => Settles.of_nameless h hq
  | (a, inner) :: es, ⟨m, ⟨m', hn, h, _⟩, hes⟩, hok, hfine => by
    have hm := Nat.le_trans ((row _ _).le hes) hq
    have hm' := Nat.le_trans ((Outline.laidAll _ inner).le h) hm
    rw [Outline.argSteps, firstError?_append, Option.or_eq_none_iff] at hok
    rw [Outline.argSpots, List.forall_mem_append] at hfine
    exact ((Outline.settles_stepsAll hj hm h hok.1 hfine.1).lead hn hm').append
      (Outline.settles_argSteps hj hq hes hok.2 hfine.2)

theorem Outline.isFree_keptArgs (hj : j.Clears u barred) {p q : Nat}
    (hq : q ≤ j.source.code.size) :
    ∀ {es : List (TypeArg × List Outline)} {slots : List Placeholder} {texts : List String},
      row (.ofSource j.source receiver) (Outline.argRow (.ofSource j.source receiver) es) p q →
      Outline.keptArgs j slots es = .ok texts → (∀ x ∈ Outline.argSpots es, x.IsFine j barred) →
      ∀ e ∈ Outline.keptArgChunks j slots es, ∀ x ∈ e, x.IsFree j u barred
  | [], _, _, _, _, _ => by simp [Outline.keptArgChunks]
  | (a, inner) :: es, slots, texts, ⟨m, ⟨m', _, h, he⟩, hes⟩, hk, hfine => by
    have hm := Nat.le_trans ((row _ _).le hes) hq
    rw [Outline.argSpots, List.forall_mem_append] at hfine
    simp only [Outline.keptArgs] at hk
    simp only [Outline.keptArgChunks]
    split at hk
    · rename_i hdropped
      rw [if_pos hdropped]
      exact Outline.isFree_keptArgs hj hq hes hk hfine.2
    · rename_i hkept
      rw [if_neg hkept, List.forall_mem_cons]
      obtain ⟨text, rest, htext, hrest, rfl⟩ := ok_of_bind hk
      have hok := exists_of_render htext
      have hfits := Outline.fits_stepsAll hj.indexed hm h
      rw [Outline.agrees_stepsAll hj.indexed hm h hok] at hfits
      rw [he]
      exact ⟨(Outline.settles_stepsAll hj hm h hok hfine.1).isFree_rendered hj hm hfits,
        Outline.isFree_keptArgs hj hq hes hrest hfine.2⟩

theorem Outline.settles_paramSteps (hj : j.Clears u barred) {p q : Nat}
    (hq : q ≤ j.source.code.size) :
    ∀ {es : List (TypeParam × List Outline)},
      row (.ofSource j.source receiver) (Outline.paramRow (.ofSource j.source receiver) es) p q →
      firstError? (Outline.paramSteps j es) = none →
      (∀ x ∈ Outline.paramSpots es, x.IsFine j barred) →
      Settles j u barred p q (Outline.paramPatches j es)
  | [], h, _, _ => Settles.of_nameless h hq
  | (a, inner) :: es, ⟨m, ⟨m', hn, h, _⟩, hes⟩, hok, hfine => by
    have hm := Nat.le_trans ((row _ _).le hes) hq
    have hm' := Nat.le_trans ((Outline.laidAll _ inner).le h) hm
    rw [Outline.paramSteps, firstError?_append, Option.or_eq_none_iff] at hok
    rw [Outline.paramSpots, List.forall_mem_append] at hfine
    exact ((Outline.settles_stepsAll hj hm h hok.1 hfine.1).lead hn hm').append
      (Outline.settles_paramSteps hj hq hes hok.2 hfine.2)

theorem Outline.isFree_keptParams (hj : j.Clears u barred) {p q : Nat}
    (hq : q ≤ j.source.code.size) :
    ∀ {es : List (TypeParam × List Outline)} {texts : List String},
      row (.ofSource j.source receiver) (Outline.paramRow (.ofSource j.source receiver) es) p q →
      Outline.keptParams j es = .ok texts → (∀ x ∈ Outline.paramSpots es, x.IsFine j barred) →
      ∀ e ∈ Outline.keptParamChunks j es, ∀ x ∈ e, x.IsFree j u barred
  | [], _, _, _, _ => by simp [Outline.keptParamChunks]
  | (a, inner) :: es, texts, ⟨m, ⟨m', _, h, he⟩, hes⟩, hk, hfine => by
    have hm := Nat.le_trans ((row _ _).le hes) hq
    rw [Outline.paramSpots, List.forall_mem_append] at hfine
    simp only [Outline.keptParams] at hk
    simp only [Outline.keptParamChunks]
    split at hk
    · rename_i hdropped
      rw [if_pos hdropped]
      exact Outline.isFree_keptParams hj hq hes hk hfine.2
    · rename_i hkept
      rw [if_neg hkept, List.forall_mem_cons]
      obtain ⟨text, rest, htext, hrest, rfl⟩ := ok_of_bind hk
      have hok := exists_of_render htext
      have hfits := Outline.fits_stepsAll hj.indexed hm h
      rw [Outline.agrees_stepsAll hj.indexed hm h hok] at hfits
      rw [he]
      exact ⟨(Outline.settles_stepsAll hj hm h hok hfine.1).isFree_rendered hj hm hfits,
        Outline.isFree_keptParams hj hq hes hrest hfine.2⟩

theorem Outline.isFree_operands (hj : j.Clears u barred) {p q : Nat}
    (hq : q ≤ j.source.code.size) :
    ∀ {es : List (Expr × List Outline)} {os : List Operand},
      row (.ofSource j.source receiver) (Outline.operandRow (.ofSource j.source receiver) es) p q →
      Outline.operands j es = .ok os → (∀ x ∈ Outline.operandSpots es, x.IsFine j barred) →
      ∀ a ∈ Outline.chunkedOperands j es, ∀ x ∈ a.chunks, x.IsFree j u barred
  | [], _, _, _, _ => by simp [Outline.chunkedOperands]
  | (e, inner) :: es, os, ⟨m, ⟨m', _, h, he⟩, hes⟩, hk, hfine => by
    have hm := Nat.le_trans ((row _ _).le hes) hq
    rw [Outline.operandSpots, List.forall_mem_append] at hfine
    simp only [Outline.operands] at hk
    obtain ⟨text, rest, htext, hrest, rfl⟩ := ok_of_bind hk
    have hok := exists_of_render htext
    have hfits := Outline.fits_stepsAll hj.indexed hm h
    rw [Outline.agrees_stepsAll hj.indexed hm h hok] at hfits
    rw [Outline.chunkedOperands, List.forall_mem_cons, he]
    exact ⟨(Outline.settles_stepsAll hj hm h hok hfine.1).isFree_rendered hj hm hfits,
      Outline.isFree_operands hj hq hes hrest hfine.2⟩

end

end Rewrite

end Stencil
