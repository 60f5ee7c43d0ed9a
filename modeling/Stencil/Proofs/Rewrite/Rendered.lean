import Stencil.Proofs.Rewrite.Reconstruct

/-!
# Texts that are put together in steps

A part of a range may be rendered on its own and its text put in as one edit, or the edits of the part may
be handed in with all others. What tokens read under edits is told index by index, and an index sees only
the edits that its token lies in. So the part reads as it does on its own, and the tokens around it do not
see how it came about.

Results: tokens read under all edits as they do under those that share a token with them
(`underEdits_filter`), and a part that is rendered first gives the text that all edits give together, in
whatever order they come (`reconstruct_rendered`).
-/

namespace Stencil.Rewrite

variable {v : Vocabulary} {b : Binding} {tokens : Array Token} {range part : TokenRange}
  {edits es fs inner outer : List Edit} {e : Edit} {i start stop : Nat}

/-! ## Edits that replace tokens -/

theorem lt_of_isEmpty {r : TokenRange} (h : r.isEmpty = false) : r.start < r.stop := by
  unfold TokenRange.isEmpty at h
  exact Nat.lt_of_not_le (of_decide_eq_false h)

theorem overlaps_iff {r r' : TokenRange} :
    r.overlaps r' = true ↔ r.start < r'.stop ∧ r'.start < r.stop := by
  unfold TokenRange.overlaps
  rw [Bool.and_eq_true, decide_eq_true_eq, decide_eq_true_eq]

theorem contains_iff {r r' : TokenRange} :
    r.contains r' = true ↔ r.start ≤ r'.start ∧ r'.stop ≤ r.stop := by
  unfold TokenRange.contains
  rw [Bool.and_eq_true, decide_eq_true_eq, decide_eq_true_eq]

/-- An edit that replaces tokens is not one of those that only put a text in. -/
theorem filter_empty_eq_nil (h : ∀ e ∈ edits, e.range.start < e.range.stop) :
    edits.filter (fun e => e.range = ⟨i, i⟩) = [] := by
  apply List.filter_eq_nil_iff.2
  intro e he hrange
  have hlt := h e he
  obtain ⟨hstart, hstop⟩ := range_eq_iff.1 (of_decide_eq_true hrange)
  omega

/-- The order of edits that replace tokens does not matter. -/
theorem reconstruct_perm_of_lt (h : ∀ e ∈ edits, e.range.start < e.range.stop) (hperm : es.Perm edits) :
    reconstruct v b tokens range es = reconstruct v b tokens range edits := by
  apply reconstruct_perm (fun e he => Nat.le_of_lt (h e he)) hperm
  intro i
  rw [filter_empty_eq_nil h, filter_empty_eq_nil fun e he => h e (hperm.mem_iff.1 he)]

/-- Nothing is put in front of an index at which no edit begins. -/
theorem inserted_eq_empty (h : ∀ e ∈ edits, e.range.start ≠ i) : inserted edits i = "" := by
  induction edits with
  | nil => rfl
  | cons e edits ih =>
    rw [List.forall_mem_cons] at h
    rw [inserted_cons_of_ne h.1, ih h.2]

/-- Nothing is put in behind a range in which all edits lie. -/
theorem inserted_stop (h : ∀ e ∈ edits, e.range.start < e.range.stop)
    (hcontains : ∀ e ∈ edits, range.contains e.range = true) : inserted edits range.stop = "" := by
  apply inserted_eq_empty
  intro e he
  have hlt := h e he
  have hstop := (contains_iff.1 (hcontains e he)).2
  omega

/-! ## Edits that share a token with others -/

/-- Tokens read under edits as they do under those edits that share a token with them. -/
theorem underEdits_filter (h : ∀ e ∈ edits, e.range.start < e.range.stop) :
    underEdits v b tokens (edits.filter fun e => e.range.overlaps ⟨start, stop⟩) start stop
      = underEdits v b tokens edits start stop := by
  unfold underEdits
  refine congrArg String.join (List.map_congr_left fun i hi => ?_)
  obtain ⟨hstart, hstop⟩ := List.mem_range'_1.1 hi
  -- an edit that begins at the token or covers it shares it
  have hshared {e : Edit} (hbegin : e.range.start ≤ i) (hend : i < e.range.stop) :
      e.range.overlaps ⟨start, stop⟩ = true := by
    apply overlaps_iff.2
    show e.range.start < stop ∧ start < e.range.stop
    omega
  have hinserted : inserted (edits.filter fun e => e.range.overlaps ⟨start, stop⟩) i
      = inserted edits i := by
    unfold inserted
    rw [filter_empty_eq_nil h, filter_empty_eq_nil fun e he => h e (List.mem_of_mem_filter he),
      List.filter_filter]
    refine congrArg (fun es => String.join (([] ++ es).map Edit.text)) (List.filter_congr fun e _ => ?_)
    by_cases hbegin : e.range.start = i ∧ i < e.range.stop
    · rw [hshared (Nat.le_of_eq hbegin.1) hbegin.2, Bool.and_true]
    · have hnone : (decide (e.range.start = i) && decide (i < e.range.stop)) = false := by
        rw [← Bool.decide_and]
        exact decide_eq_false hbegin
      rw [hnone, Bool.false_and]
  have hkept : kept v b tokens (edits.filter fun e => e.range.overlaps ⟨start, stop⟩) i
      = kept v b tokens edits i := by
    unfold kept
    rw [List.any_filter]
    refine congrArg (fun covered => if covered = true then "" else _) ?_
    apply List.any_congr rfl
    intro e
    cases hcovers : e.covers i with
    | false => exact Bool.and_false _
    | true =>
      obtain ⟨hbegin, hend⟩ := Edit.covers_iff.1 hcovers
      rw [hshared hbegin hend, Bool.and_true]
  rw [hinserted, hkept]

/-- Tokens that share a token with the same edits of two lists read the same under both. -/
theorem underEdits_congr (hes : ∀ e ∈ es, e.range.start < e.range.stop)
    (hfs : ∀ e ∈ fs, e.range.start < e.range.stop)
    (h : es.filter (fun e => e.range.overlaps ⟨start, stop⟩)
      = fs.filter fun e => e.range.overlaps ⟨start, stop⟩) :
    underEdits v b tokens es start stop = underEdits v b tokens fs start stop := by
  rw [← underEdits_filter hes, h, underEdits_filter hfs]

/-- One edit alone over the tokens that it replaces. -/
theorem underEdits_singleton (h : e.range.start < e.range.stop) :
    underEdits v b tokens [e] e.range.start e.range.stop = e.text :=
  underEdits_cons_self h nofun nofun

/-! ## A part that is rendered first -/

/-- The edits of a part that is rendered on its own, and those around it. -/
structure Around (range part : TokenRange) (inner outer : List Edit) : Prop where
  contains : range.contains part = true
  proper : part.start < part.stop
  inner_proper : ∀ e ∈ inner, e.range.start < e.range.stop
  inner_contains : ∀ e ∈ inner, part.contains e.range = true
  inner_apart : inner.Pairwise fun e f => e.range.overlaps f.range = false
  outer_proper : ∀ e ∈ outer, e.range.start < e.range.stop
  outer_contains : ∀ e ∈ outer, range.contains e.range = true
  outer_apart : outer.Pairwise fun e f => e.range.overlaps f.range = false
  apart : ∀ e ∈ outer, e.range.overlaps part = false

namespace Around

/-- What is asked of the edits of a part is asked of the one edit that is the part. -/
theorem single (h : Around range part inner outer) (text : String) :
    Around range part [⟨part, text⟩] outer := by
  refine { h with inner_proper := ?_, inner_contains := ?_, inner_apart := List.pairwise_singleton _ _ }
  · exact List.forall_mem_singleton.2 h.proper
  · exact List.forall_mem_singleton.2 (contains_iff.2 ⟨Nat.le_refl _, Nat.le_refl _⟩)

theorem append_proper (h : Around range part inner outer) :
    ∀ e ∈ inner ++ outer, e.range.start < e.range.stop :=
  List.forall_mem_append.2 ⟨h.inner_proper, h.outer_proper⟩

theorem append_contains (h : Around range part inner outer) :
    ∀ e ∈ inner ++ outer, range.contains e.range = true := by
  refine List.forall_mem_append.2 ⟨fun e he => ?_, h.outer_contains⟩
  have hpart := contains_iff.1 h.contains
  have hinner := contains_iff.1 (h.inner_contains e he)
  apply contains_iff.2
  omega

theorem append_apart (h : Around range part inner outer) :
    (inner ++ outer).Pairwise fun e f => e.range.overlaps f.range = false := by
  refine List.pairwise_append.2 ⟨h.inner_apart, h.outer_apart, fun e he f hf => ?_⟩
  have hinner := contains_iff.1 (h.inner_contains e he)
  have hapart := h.apart f hf
  rw [← Bool.not_eq_true, overlaps_iff] at hapart ⊢
  omega

/-- What does not share a token with the part shares none with its edits. -/
theorem filter_around (h : Around range part inner outer) (hpart : part.overlaps ⟨start, stop⟩ = false) :
    (inner ++ outer).filter (fun e => e.range.overlaps ⟨start, stop⟩)
      = outer.filter fun e => e.range.overlaps ⟨start, stop⟩ := by
  rw [List.filter_append, List.filter_eq_nil_iff.2, List.nil_append]
  intro e he hshared
  have hinner := contains_iff.1 (h.inner_contains e he)
  rw [overlaps_iff] at hshared
  rw [← Bool.not_eq_true, overlaps_iff] at hpart
  omega

/-- The part shares a token with all of its edits and with no others. -/
theorem filter_part (h : Around range part inner outer) :
    (inner ++ outer).filter (fun e => e.range.overlaps ⟨part.start, part.stop⟩) = inner := by
  have hinner : inner.filter (fun e => e.range.overlaps ⟨part.start, part.stop⟩) = inner := by
    apply List.filter_eq_self.2
    intro e he
    have hproper := h.inner_proper e he
    have hcontains := contains_iff.1 (h.inner_contains e he)
    apply overlaps_iff.2
    show e.range.start < part.stop ∧ part.start < e.range.stop
    omega
  have houter : outer.filter (fun e => e.range.overlaps ⟨part.start, part.stop⟩) = [] := by
    apply List.filter_eq_nil_iff.2
    intro e he
    rw [h.apart e he]
    decide
  rw [List.filter_append, hinner, houter, List.append_nil]

/-- The part reads under all edits as it does under its own. -/
theorem underEdits_part (h : Around range part inner outer) :
    underEdits v b tokens (inner ++ outer) part.start part.stop
      = underEdits v b tokens inner part.start part.stop := by
  rw [← underEdits_filter h.append_proper, h.filter_part]

/-- All edits together: the part in the middle reads under its own edits, and what is in front of it and
behind it under the others. -/
theorem reconstruct_append (h : Around range part inner outer) :
    reconstruct v b tokens range (inner ++ outer)
      = .ok (underEdits v b tokens outer range.start part.start
          ++ underEdits v b tokens inner part.start part.stop
          ++ underEdits v b tokens outer part.stop range.stop) := by
  have hpart := contains_iff.1 h.contains
  have hproper := h.proper
  have hfront : underEdits v b tokens (inner ++ outer) range.start part.start
      = underEdits v b tokens outer range.start part.start := by
    apply underEdits_congr h.append_proper h.outer_proper
    apply h.filter_around
    rw [← Bool.not_eq_true, overlaps_iff]
    show ¬(part.start < part.start ∧ _)
    omega
  have hback : underEdits v b tokens (inner ++ outer) part.stop range.stop
      = underEdits v b tokens outer part.stop range.stop := by
    apply underEdits_congr h.append_proper h.outer_proper
    apply h.filter_around
    rw [← Bool.not_eq_true, overlaps_iff]
    show ¬(_ ∧ part.stop < part.stop)
    omega
  rw [reconstruct_eq_ok (fun e he => Nat.le_of_lt (h.append_proper e he)) h.append_contains h.append_apart,
    inserted_stop h.append_proper h.append_contains,
    underEdits_append (show range.start ≤ part.start by omega) (show part.start ≤ range.stop by omega),
    underEdits_append (show part.start ≤ part.stop by omega) (show part.stop ≤ range.stop by omega),
    hfront, h.underEdits_part, hback]
  simp only [String.append_assoc, String.append_empty]

/-- The text of the part under its own edits. -/
theorem reconstruct_part (h : Around range part inner outer) :
    reconstruct v b tokens part inner = .ok (underEdits v b tokens inner part.start part.stop) := by
  rw [reconstruct_eq_ok (fun e he => Nat.le_of_lt (h.inner_proper e he)) h.inner_contains h.inner_apart,
    inserted_stop h.inner_proper h.inner_contains, String.append_empty]

end Around

/-- Edits that are put in lie in the range and do not overlap. -/
theorem of_reconstruct_eq_ok {text : String} (h : ∀ e ∈ edits, e.range.start < e.range.stop)
    (hok : reconstruct v b tokens range edits = .ok text) :
    (∀ e ∈ edits, range.contains e.range = true)
      ∧ edits.Pairwise fun e f => e.range.overlaps f.range = false := by
  apply (checkEdits_mergeSort_eq_none_iff fun e he => Nat.le_of_lt (h e he)).1
  unfold reconstruct at hok
  cases hcheck : checkEdits range none (edits.mergeSort Edit.le) with
  | none => rfl
  | some error =>
    simp only [hcheck] at hok
    contradiction

/-- A part of a range with edits of its own, and edits of the range that share no token with the part. If
both are accepted, then it is the same whether the part is rendered first and its text put in place of it,
or all edits are put in at once: both are accepted, and the texts are equal. The edits may come in any
order each time, those of the part among the others. -/
theorem reconstruct_rendered (v : Vocabulary) (b : Binding) (tokens : Array Token)
    {range part : TokenRange} {inner outer : List Edit} {rendered text : String}
    (hpart : range.contains part = true) (hproper : part.isEmpty = false)
    (hinner : ∀ e ∈ inner, e.range.isEmpty = false) (houter : ∀ e ∈ outer, e.range.isEmpty = false)
    (hapart : ∀ e ∈ outer, e.range.overlaps part = false)
    (hrendered : reconstruct v b tokens part inner = .ok rendered)
    (haccepted : reconstruct v b tokens range outer = .ok text)
    {nested flat : List Edit} (hnested : nested.Perm (⟨part, rendered⟩ :: outer))
    (hflat : flat.Perm (inner ++ outer)) :
    ∃ whole, reconstruct v b tokens range nested = .ok whole
      ∧ reconstruct v b tokens range flat = .ok whole := by
  have hinner : ∀ e ∈ inner, e.range.start < e.range.stop := fun e he => lt_of_isEmpty (hinner e he)
  have houter : ∀ e ∈ outer, e.range.start < e.range.stop := fun e he => lt_of_isEmpty (houter e he)
  obtain ⟨hinside, hinnerApart⟩ := of_reconstruct_eq_ok hinner hrendered
  obtain ⟨hwithin, houterApart⟩ := of_reconstruct_eq_ok houter haccepted
  have haround : Around range part inner outer :=
    ⟨hpart, lt_of_isEmpty hproper, hinner, hinside, hinnerApart, houter, hwithin, houterApart, hapart⟩
  have hsingle : Around range part [⟨part, rendered⟩] outer := haround.single rendered
  obtain rfl : underEdits v b tokens inner part.start part.stop = rendered := by
    rw [haround.reconstruct_part, Except.ok.injEq] at hrendered
    exact hrendered
  have hsteps : reconstruct v b tokens range nested
      = .ok (underEdits v b tokens outer range.start part.start
          ++ underEdits v b tokens inner part.start part.stop
          ++ underEdits v b tokens outer part.stop range.stop) := by
    rw [reconstruct_perm_of_lt hsingle.append_proper hnested, hsingle.reconstruct_append,
      underEdits_singleton (e := ⟨part, _⟩) haround.proper]
  have honce : reconstruct v b tokens range flat
      = .ok (underEdits v b tokens outer range.start part.start
          ++ underEdits v b tokens inner part.start part.stop
          ++ underEdits v b tokens outer part.stop range.stop) := by
    rw [reconstruct_perm_of_lt haround.append_proper hflat, haround.reconstruct_append]
  exact ⟨_, hsteps, honce⟩

/-- The theorem at a list with an argument that is replaced and one that goes, with a comment between the
two, and a name in front of the list and one behind it. -/
theorem reconstruct_rendered_arguments :
    reconstruct {} ⟨.int, none⟩ (Source.ofString "a<b,/*KType*/c>d").tokens ⟨1, 7⟩
        [⟨⟨5, 6⟩, ""⟩, ⟨⟨2, 3⟩, "B"⟩] = .ok "<B,/*int*/>"
      ∧ reconstruct {} ⟨.int, none⟩ (Source.ofString "a<b,/*KType*/c>d").tokens ⟨0, 8⟩
        [⟨⟨7, 8⟩, "D"⟩, ⟨⟨1, 7⟩, "<B,/*int*/>"⟩, ⟨⟨0, 1⟩, "A"⟩] = .ok "A<B,/*int*/>D"
      ∧ reconstruct {} ⟨.int, none⟩ (Source.ofString "a<b,/*KType*/c>d").tokens ⟨0, 8⟩
        [⟨⟨5, 6⟩, ""⟩, ⟨⟨7, 8⟩, "D"⟩, ⟨⟨2, 3⟩, "B"⟩, ⟨⟨0, 1⟩, "A"⟩] = .ok "A<B,/*int*/>D" := by
  have hrendered : reconstruct {} ⟨.int, none⟩ (Source.ofString "a<b,/*KType*/c>d").tokens ⟨1, 7⟩
      [⟨⟨5, 6⟩, ""⟩, ⟨⟨2, 3⟩, "B"⟩] = .ok "<B,/*int*/>" := by
    rw [reconstruct_eq_ok (by decide) (by decide) (by decide), Except.ok.injEq]
    decide +kernel
  obtain ⟨text, haccepted⟩ : ∃ text, reconstruct {} ⟨.int, none⟩
      (Source.ofString "a<b,/*KType*/c>d").tokens ⟨0, 8⟩ [⟨⟨7, 8⟩, "D"⟩, ⟨⟨0, 1⟩, "A"⟩] = .ok text :=
    ⟨_, reconstruct_eq_ok (by decide) (by decide) (by decide)⟩
  obtain ⟨whole, hnested, hflat⟩ : ∃ whole,
      reconstruct {} ⟨.int, none⟩ (Source.ofString "a<b,/*KType*/c>d").tokens ⟨0, 8⟩
        [⟨⟨7, 8⟩, "D"⟩, ⟨⟨1, 7⟩, "<B,/*int*/>"⟩, ⟨⟨0, 1⟩, "A"⟩] = .ok whole
      ∧ reconstruct {} ⟨.int, none⟩ (Source.ofString "a<b,/*KType*/c>d").tokens ⟨0, 8⟩
        [⟨⟨5, 6⟩, ""⟩, ⟨⟨7, 8⟩, "D"⟩, ⟨⟨2, 3⟩, "B"⟩, ⟨⟨0, 1⟩, "A"⟩] = .ok whole :=
    reconstruct_rendered {} ⟨.int, none⟩ _ (by decide) (by decide) (by decide) (by decide) (by decide)
      hrendered haccepted (by decide) (by decide)
  obtain rfl : whole = "A<B,/*int*/>D" := by
    have hwhole := hnested
    rw [reconstruct_eq_ok (by decide) (by decide) (by decide), Except.ok.injEq] at hwhole
    rw [← hwhole]
    decide +kernel
  exact ⟨hrendered, hnested, hflat⟩

end Stencil.Rewrite
