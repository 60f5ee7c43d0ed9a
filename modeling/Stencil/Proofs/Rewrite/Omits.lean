import Stencil.Proofs.Grammar.Placed
import Stencil.Proofs.Rewrite.Settled
import Stencil.Proofs.Rewrite.Traces

/-!
# Texts that leave something out

A list of types leaves out the entries that are dropped, and a call its hint. While a text is put
together, nothing in it stands for a token of theirs, and every other name that changes is exchanged,
unless it stands in the argument of a call, which may leave out arguments too. This is the invariant of
the walk. It is told of the texts that are put in, and of the patches, which also cover what is left out.

Results: the invariant holds of two stretches one after the other (`Omits.append`, `Leaves.append`) and
of what is rendered on its own (`Leaves.omits_wovenIn`).
-/

namespace Stencil

/-! ## Tokens of extents -/

/-- Is the token of the index in the extent? -/
def Source.IsIn (s : Source) (e : Extent) (i : Nat) : Prop :=
  (s.range e).start ≤ i ∧ i < (s.range e).stop

namespace Source.Indexed

variable {s : Source} {p q m n i : Nat}

theorem isIn_mono (hs : s.Indexed) (hp : p ≤ m) (hq : n ≤ q) (h : s.IsIn ⟨m, n⟩ i) :
    s.IsIn ⟨p, q⟩ i := by
  obtain ⟨hstart, hstop⟩ := h
  simp only [range] at hstart hstop
  split at hstop
  · rename_i hmn
    have hfirst := hs.index_le_index hp
    have hlast := hs.index_le_index (show n - 1 ≤ q - 1 by omega)
    rw [IsIn, range_of_lt (by omega)]
    exact ⟨Nat.le_trans hfirst hstart, Nat.lt_of_lt_of_le hstop (Nat.succ_le_succ hlast)⟩
  · omega

/-- Extents one behind the other have no token in common. -/
theorem not_isIn (hs : s.Indexed) (hnm : n ≤ m) (hn : n ≤ s.code.size) (h : s.IsIn ⟨p, n⟩ i) :
    ¬s.IsIn ⟨m, q⟩ i := by
  intro h'
  by_cases hpn : p ≤ n
  · have := hs.stop_range_le (n := q) hpn hnm hn
    exact Nat.not_lt_of_le (Nat.le_trans this h'.1) h.2
  · have := h.1
    have := h.2
    simp only [range, if_neg (show ¬p < n by omega)] at *
    omega

end Source.Indexed

theorem Source.isIn_index (s : Source) (p : Nat) : s.IsIn ⟨p, p + 1⟩ (s.index p) := by
  rw [IsIn, range_of_lt (Nat.lt_succ_self p)]
  exact ⟨Nat.le_refl _, Nat.lt_succ_self _⟩

namespace Rewrite

/-! ## What a place leaves out -/

/-- The type arguments that are dropped, if they stand in the given slots. -/
def droppedArgs (v : Vocabulary) (b : Binding) :
    List Placeholder → List (TypeArg × List Outline) → List Extent
  | _, [] => []
  | slots, (a, _) :: rest =>
    if isDropped v b slots.head? a then a.extent :: droppedArgs v b slots.tail rest
    else droppedArgs v b slots.tail rest

/-- The type parameters that are dropped. -/
def droppedParams (v : Vocabulary) (b : Binding) : List (TypeParam × List Outline) → List Extent
  | [] => []
  | (a, _) :: rest =>
    if isDroppedParam v b a then a.extent :: droppedParams v b rest else droppedParams v b rest

/-- What the place leaves out: entries of a list, or the hint of a call. -/
def Outline.leftOut (v : Vocabulary) (b : Binding) : Outline → List Extent
  | .typeArgs owner entries _ => droppedArgs v b (slotsOf v owner) entries
  | .typeParams entries _ => droppedParams v b entries
  | .call c _ => c.hint.toList.map (·.extent)
  | _ => []

/-- What the places leave out. -/
def Outline.leftOutAll (v : Vocabulary) (b : Binding) (ps : List Outline) : List Extent :=
  ps.flatMap (Outline.leftOut v b)

/-- The exchange of the name that the place is, if it changes. -/
def Outline.exchange? (j : Job) : Outline → Option Trace
  | .name i => (renameIdent? j.vocabulary j.binding i.name).map (j.exchange i)
  | .part i args => (renameSegment? j.vocabulary j.binding i.name args).map (j.exchange i)
  | _ => none

/-- Does the trace stand for a token that is left out or in a call? -/
def Trace.IsHidden (j : Job) (ps : List Outline) (es : List Extent) (x : Trace) : Prop :=
  ∃ i ∈ x.index?, (∃ e ∈ es, j.source.IsIn e i)
    ∨ ∃ c args, .call c args ∈ ps ∧ j.source.IsIn c.extent i

/-- The invariant of the walk over a stretch with the given places: the traces stand for tokens of the
stretch, but for none that is left out, and each name that is not hidden is exchanged. -/
structure Omits (j : Job) (p q : Nat) (ps : List Outline) (es : List Extent) (ts : List Trace) : Prop where
  within : ∀ e ∈ es, p ≤ e.first ∧ e.stop ≤ q
  inside : ∀ x ∈ ts, ∀ i ∈ x.index?, j.source.IsIn ⟨p, q⟩ i
  omitted : ∀ e ∈ es, ∀ x ∈ ts, ∀ i ∈ x.index?, ¬j.source.IsIn e i
  exchanged : ∀ o ∈ ps, ∀ x ∈ o.exchange? j, x ∈ ts ∨ x.IsHidden j ps es

/-- The invariant of the walk over a stretch whose patches have not been put in yet: they cover what is
left out. -/
structure Leaves (j : Job) (p q : Nat) (ps : List Outline) (patches : List TracedPatch) : Prop extends
    Omits j p q ps (Outline.leftOutAll j.vocabulary j.binding ps) (patches.flatMap (·.traces)) where
  covered : ∀ e ∈ Outline.leftOutAll j.vocabulary j.binding ps, ∀ i, j.source.IsIn e i →
    ∃ y ∈ patches, y.range.start ≤ i ∧ i < y.range.stop

variable {j : Job} {receiver : String} {p p' n m q q' : Nat} {ps ps' : List Outline}
  {es es' : List Extent} {ts ts' : List Trace} {patches more : List TracedPatch}

theorem Trace.IsHidden.mono {x : Trace} (h : x.IsHidden j ps es) (hps : ps ⊆ ps') (hes : es ⊆ es') :
    x.IsHidden j ps' es' := by
  obtain ⟨i, hi, ⟨e, he, hin⟩ | ⟨c, args, hc, hin⟩⟩ := h
  · exact ⟨i, hi, .inl ⟨e, hes he, hin⟩⟩
  · exact ⟨i, hi, .inr ⟨c, args, hps hc, hin⟩⟩

/-- A trace of a token is not one of those that stand for none. -/
theorem Trace.mem_of_index {x : Trace} {i : Nat} (h : x.index? = none ∨ x ∈ ts) (hi : i ∈ x.index?) :
    x ∈ ts := by
  refine h.resolve_left fun hnone => ?_
  rw [hnone] at hi
  contradiction

namespace Omits

theorem nil : Omits j p q [] [] [] :=
  ⟨by simp, by simp, by simp, by simp⟩

theorem mono (hs : j.source.Indexed) (h : Omits j p q ps es ts) (hp : p' ≤ p) (hq : q ≤ q') :
    Omits j p' q' ps es ts := by
  refine ⟨fun e he => ?_, fun x hx i hi => hs.isIn_mono hp hq (h.inside x hx i hi), h.omitted, h.exchanged⟩
  exact ⟨Nat.le_trans hp (h.within e he).1, Nat.le_trans (h.within e he).2 hq⟩

theorem append (hs : j.source.Indexed) (hpm : p ≤ m) (hmq : m ≤ q) (hq : q ≤ j.source.code.size)
    (hx : Omits j p m ps es ts) (hy : Omits j m q ps' es' ts') :
    Omits j p q (ps ++ ps') (es ++ es') (ts ++ ts') := by
  have hfront := hx.mono hs (Nat.le_refl p) hmq
  have hback := hy.mono hs hpm (Nat.le_refl q)
  refine ⟨?_, ?_, fun e he x hx' i hi => ?_, fun o ho x hx' => ?_⟩
  · exact List.forall_mem_append.2 ⟨hfront.within, hback.within⟩
  · exact List.forall_mem_append.2 ⟨hfront.inside, hback.inside⟩
  · rcases List.mem_append.1 he with he | he <;> rcases List.mem_append.1 hx' with hx' | hx'
    · exact hx.omitted e he x hx' i hi
    · intro hin
      obtain ⟨hfirst, hstop⟩ := hx.within e he
      exact hs.not_isIn (Nat.le_refl m) (Nat.le_trans hmq hq) (hs.isIn_mono hfirst hstop hin)
        (hy.inside x hx' i hi)
    · intro hin
      obtain ⟨hfirst, hstop⟩ := hy.within e he
      exact hs.not_isIn (Nat.le_refl m) (Nat.le_trans hmq hq) (hx.inside x hx' i hi)
        (hs.isIn_mono hfirst hstop hin)
    · exact hy.omitted e he x hx' i hi
  · rcases List.mem_append.1 ho with ho | ho
    · refine (hx.exchanged o ho x hx').imp (List.mem_append_left _) fun h => ?_
      exact h.mono (List.subset_append_left _ _) (List.subset_append_left _ _)
    · refine (hy.exchanged o ho x hx').imp (List.mem_append_right _) fun h => ?_
      exact h.mono (List.subset_append_right _ _) (List.subset_append_right _ _)

/-- The first stretch may stand behind other tokens. -/
theorem cons (hs : j.source.Indexed) (hpn : p ≤ n) (hnm : n ≤ m) (hmq : m ≤ q)
    (hq : q ≤ j.source.code.size) (hx : Omits j n m ps es ts) (hy : Omits j m q ps' es' ts') :
    Omits j p q (ps ++ ps') (es ++ es') (ts ++ ts') :=
  (hx.mono hs hpn (Nat.le_refl m)).append hs (Nat.le_trans hpn hnm) hmq hq hy

/-- More texts that stand for no token. -/
theorem of_mem (h : Omits j p q ps es ts) (hsub : ts ⊆ ts')
    (hmem : ∀ x ∈ ts', x.index? = none ∨ x ∈ ts) : Omits j p q ps es ts' := by
  exact ⟨h.within, fun x hx i hi => h.inside x (Trace.mem_of_index (hmem x hx) hi) i hi,
    fun e he x hx i hi => h.omitted e he x (Trace.mem_of_index (hmem x hx) hi) i hi,
    fun o ho x hx => (h.exchanged o ho x hx).imp_left (hsub ·)⟩

theorem congr (h : Omits j p q ps es ts) (hes : ∀ e, e ∈ es ↔ e ∈ es') : Omits j p q ps es' ts := by
  refine ⟨fun e he => h.within e ((hes e).2 he), h.inside, fun e he => h.omitted e ((hes e).2 he),
    fun o ho x hx => (h.exchanged o ho x hx).imp_right (·.mono (List.Subset.refl _) fun e he => (hes e).1 he)⟩

/-- A place that is no name stands around the others. -/
theorem place (h : Omits j p q ps es ts) {o : Outline} (ho : o.exchange? j = none) :
    Omits j p q (o :: ps) es ts := by
  refine ⟨h.within, h.inside, h.omitted, fun o' ho' x hx => ?_⟩
  rcases List.mem_cons.1 ho' with rfl | ho'
  · rw [ho] at hx
    contradiction
  · exact (h.exchanged o' ho' x hx).imp_right
      (·.mono (List.subset_cons_self _ _) (List.Subset.refl _))

end Omits

namespace Leaves

theorem nil : Leaves j p q [] [] :=
  ⟨.nil, by simp [Outline.leftOutAll]⟩

theorem mono (hs : j.source.Indexed) (h : Leaves j p q ps patches) (hp : p' ≤ p) (hq : q ≤ q') :
    Leaves j p' q' ps patches :=
  ⟨h.toOmits.mono hs hp hq, h.covered⟩

theorem append (hs : j.source.Indexed) (hpm : p ≤ m) (hmq : m ≤ q) (hq : q ≤ j.source.code.size)
    (hx : Leaves j p m ps patches) (hy : Leaves j m q ps' more) :
    Leaves j p q (ps ++ ps') (patches ++ more) := by
  have hboth := hx.toOmits.append hs hpm hmq hq hy.toOmits
  rw [Outline.leftOutAll, Outline.leftOutAll, ← List.flatMap_append, ← List.flatMap_append] at hboth
  refine ⟨hboth, fun e he i hi => ?_⟩
  rw [Outline.leftOutAll, List.flatMap_append, List.mem_append] at he
  rcases he with he | he
  · obtain ⟨y, hy', hin⟩ := hx.covered e he i hi
    exact ⟨y, List.mem_append_left _ hy', hin⟩
  · obtain ⟨y, hy', hin⟩ := hy.covered e he i hi
    exact ⟨y, List.mem_append_right _ hy', hin⟩

/-- The first stretch may stand behind other tokens. -/
theorem cons (hs : j.source.Indexed) (hpn : p ≤ n) (hnm : n ≤ m) (hmq : m ≤ q)
    (hq : q ≤ j.source.code.size) (hx : Leaves j n m ps patches) (hy : Leaves j m q ps' more) :
    Leaves j p q (ps ++ ps') (patches ++ more) :=
  (hx.mono hs hpn (Nat.le_refl m)).append hs (Nat.le_trans hpn hnm) hmq hq hy

/-- A patch over a whole stretch. -/
theorem of_patch (hs : j.source.Indexed) {range : TokenRange} {ts : List Trace}
    (hstart : range.start ≤ (j.source.range ⟨p, q⟩).start) (hstop : (j.source.range ⟨p, q⟩).stop ≤ range.stop)
    (h : Omits j p q ps (Outline.leftOutAll j.vocabulary j.binding ps) ts) :
    Leaves j p q ps [⟨range, ts⟩] := by
  refine ⟨by simpa using h, fun e he i hi => ⟨_, List.mem_singleton_self _, ?_⟩⟩
  obtain ⟨hfirst, hlast⟩ := h.within e he
  obtain ⟨hstart', hstop'⟩ := hs.isIn_mono hfirst hlast hi
  exact ⟨Nat.le_trans hstart hstart', Nat.lt_of_lt_of_le hstop' hstop⟩

end Leaves

/-! ## Renderings -/

/-- What is put together with patches is what is in them and the tokens outside of all of them. -/
theorem mem_woven {start stop : Nat} {x : Trace} (h : Ordered start stop (patches.map TracedPatch.patch))
    (hx : x ∈ j.woven stop start patches) :
    x ∈ patches.flatMap (·.traces) ∨ ∃ i, x = (Chunk.copied i).trace ∧ start ≤ i ∧ i < stop
      ∧ ∀ y ∈ patches, i < y.range.start ∨ y.range.stop ≤ i := by
  induction patches generalizing start with
  | nil =>
    obtain ⟨c, hc, rfl⟩ := List.mem_map.1 hx
    obtain ⟨i, rfl, hi, hstop, -⟩ := mem_copies hc
    exact .inr ⟨i, rfl, hi, hstop, by simp⟩
  | cons y rest ih =>
    obtain ⟨hlt, hp, hstart, hstop⟩ := h
    rw [List.map_cons, List.pairwise_cons] at hp
    rw [List.map_cons, List.forall_mem_cons] at hlt hstart hstop
    have hbehind (z : TracedPatch) (hz : z ∈ rest) : y.range.stop ≤ z.range.start :=
      hp.1 _ (List.mem_map_of_mem hz)
    have hystart : start ≤ y.range.start := hstart.1
    have hylt : y.range.start < y.range.stop := hlt.1
    have hystop : y.range.stop ≤ stop := hstop.1
    simp only [Job.woven, List.mem_append] at hx
    rcases hx with (hx | hx) | hx
    · obtain ⟨c, hc, rfl⟩ := List.mem_map.1 hx
      obtain ⟨i, rfl, hi, hiy, -⟩ := mem_copies hc
      simp only at hi hiy
      refine .inr ⟨i, rfl, hi, by omega, fun z hz => .inl ?_⟩
      rcases List.mem_cons.1 hz with rfl | hz
      · exact hiy
      · have := hbehind z hz
        omega
    · exact .inl (List.mem_append_left _ hx)
    · rcases ih ⟨hlt.2, hp.2, hp.1, hstop.2⟩ hx with hx | ⟨i, rfl, hi, histop, hout⟩
      · exact .inl (List.mem_append_right _ hx)
      · have hi : y.range.stop ≤ i := hi
        refine .inr ⟨i, rfl, by omega, histop, fun z hz => ?_⟩
        rcases List.mem_cons.1 hz with rfl | hz
        · exact .inr hi
        · exact hout z hz

theorem subset_woven (stop start : Nat) (patches : List TracedPatch) :
    patches.flatMap (·.traces) ⊆ j.woven stop start patches := by
  induction patches generalizing start with
  | nil => exact List.nil_subset _
  | cons y rest ih =>
    intro x hx
    rw [Job.woven, List.append_assoc]
    refine List.mem_append_right _ ?_
    rcases List.mem_append.1 hx with hx | hx
    · exact List.mem_append_left _ hx
    · exact List.mem_append_right _ (ih _ hx)

/-- Nothing that is left out is copied. -/
theorem Leaves.omitted_woven (h : Leaves j p q ps patches) {start stop : Nat}
    (ho : Ordered start stop (patches.map TracedPatch.patch)) :
    ∀ e ∈ Outline.leftOutAll j.vocabulary j.binding ps, ∀ x ∈ j.woven stop start patches,
      ∀ i ∈ x.index?, ¬j.source.IsIn e i := by
  intro e he x hx i hi hin
  rcases mem_woven ho hx with hx | ⟨i', rfl, -, -, hout⟩
  · exact h.omitted e he x hx i hi hin
  · obtain rfl : i' = i := Option.some.inj hi
    obtain ⟨y, hy, hstart, hstop⟩ := h.covered e he i' hin
    have := hout y hy
    omega

/-- What is rendered on its own omits what its places leave out. -/
theorem Leaves.omits_wovenIn (h : Leaves j p q ps patches)
    (ho : Ordered (j.source.range ⟨p, q⟩).start (j.source.range ⟨p, q⟩).stop (patches.map TracedPatch.patch)) :
    Omits j p q ps (Outline.leftOutAll j.vocabulary j.binding ps) (j.wovenIn ⟨p, q⟩ patches) := by
  refine ⟨h.within, fun x hx i hi => ?_, h.omitted_woven ho, fun o ho' x hx => ?_⟩
  · rcases mem_woven ho hx with hx | ⟨i', rfl, hstart, hstop, -⟩
    · exact h.inside x hx i hi
    · obtain rfl : i' = i := Option.some.inj hi
      exact ⟨hstart, hstop⟩
  · exact (h.exchanged o ho' x hx).imp_left (subset_woven _ _ _ ·)

end Rewrite

end Stencil
