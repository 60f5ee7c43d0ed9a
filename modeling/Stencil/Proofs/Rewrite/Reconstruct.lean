import Mathlib.Data.List.Perm.Subperm
import Stencil.Proofs.Frame

/-!
# The text of a range under any edits

Edits may come in any order, may replace nothing, and may be wrong: they may reach out of the range
or into one another. They are sorted by their ranges and each is compared with the one in front of
it only. As no edit ends before it begins, an edit that ends in front of the next one ends in front
of all that follow, so neighbours are all that has to be compared.

Results: edits are put in exactly where all of them lie in the range and no two overlap, what is
wrong otherwise is named, the text is written index by index, and the order of the edits matters
only among those that replace nothing at the same index (`reconstruct_exact`).
-/

namespace Stencil.Rewrite

/-- What is wrong with edits of a range: one of them lies outside, or two of them overlap. -/
inductive Fault (range : TokenRange) (edits : List Edit) : SpecializeError → Prop where
  | outOfRange {e : Edit} (mem : e ∈ edits) (outside : range.contains e.range = false) :
    Fault range edits (.outOfRange e.range range)
  | overlapping {e f : Edit} (two : [e, f].Subperm edits)
    (overlaps : e.range.overlaps f.range = true) : Fault range edits (.overlapping e.range f.range)

/-- The text in front of the token of an index: the texts of the edits that replace nothing there, in
their order, and then the text in place of the tokens from there on. -/
def inserted (edits : List Edit) (i : Nat) : String :=
  String.join (((edits.filter fun e => e.range = ⟨i, i⟩)
    ++ edits.filter fun e => e.range.start = i && i < e.range.stop).map Edit.text)

/-- What is left of the token of an index: nothing where an edit covers it or the tokens end, else the
token, with placeholders exchanged if it is a comment. -/
def kept (v : Vocabulary) (b : Binding) (tokens : Array Token) (edits : List Edit) (i : Nat) :
    String :=
  if edits.any fun e => e.covers i then "" else (tokens[i]?.map (tokenText v b)).getD ""

/-- What the tokens from one index up to another read under edits. -/
def underEdits (v : Vocabulary) (b : Binding) (tokens : Array Token) (edits : List Edit)
    (start stop : Nat) : String :=
  String.join ((List.range' start (stop - start)).map fun i =>
    inserted edits i ++ kept v b tokens edits i)

variable {v : Vocabulary} {b : Binding} {tokens : Array Token} {range : TokenRange}
  {edits es : List Edit} {e f g : Edit} {i : Nat}

/-! ## The order of edits -/

theorem range_eq_iff {r : TokenRange} {a c : Nat} : r = ⟨a, c⟩ ↔ r.start = a ∧ r.stop = c := by
  cases r
  rw [TokenRange.mk.injEq]

theorem overlaps_symm {r r' : TokenRange} (h : r.overlaps r' = false) : r'.overlaps r = false := by
  rw [TokenRange.overlaps, Bool.and_comm]
  exact h

namespace Edit

theorem le_iff : e.le f = true ↔ e.range.start < f.range.start
    ∨ e.range.start = f.range.start ∧ e.range.stop ≤ f.range.stop := by
  rw [le, TokenRange.order, Ordering.isLE_then_iff_or, Nat.compare_eq_lt, Nat.compare_eq_eq,
    Nat.isLE_compare]

theorem le_trans (e f g : Edit) (h : e.le f = true) (h' : f.le g = true) : e.le g = true := by
  rw [le_iff] at *
  omega

theorem le_total (e f : Edit) : (e.le f || f.le e) = true := by
  rw [Bool.or_eq_true, le_iff, le_iff]
  omega

theorem range_eq_of_le (h : e.le f = true) (h' : f.le e = true) : e.range = f.range := by
  rw [le_iff] at h h'
  exact (range_eq_iff (a := f.range.start) (c := f.range.stop)).2 (by omega)

/-- Of edits that do not overlap, the one that comes first ends where the other begins. -/
theorem stop_le_of_le (hf : f.range.start ≤ f.range.stop) (h : e.le f = true) :
    e.range.overlaps f.range = false ↔ e.range.stop ≤ f.range.start := by
  rw [le_iff] at h
  rw [TokenRange.overlaps, Bool.and_eq_false_iff, decide_eq_false_iff_not, decide_eq_false_iff_not]
  omega

end Edit

/-- Sorting keeps the order among the edits that a test picks, if they are in order as they are. -/
theorem filter_mergeSort {p : Edit → Bool}
    (h : (edits.filter p).Pairwise fun e f => e.le f = true) :
    (edits.mergeSort Edit.le).filter p = edits.filter p := by
  have hsub := (List.sublist_mergeSort Edit.le_trans Edit.le_total h List.filter_sublist).filter p
  rw [List.filter_filter, List.filter_congr (q := p) (by simp)] at hsub
  refine (hsub.eq_of_length ?_).symm
  exact ((List.mergeSort_perm edits Edit.le).filter p).length_eq.symm

/-! ## The check -/

theorem checkEdits_cons_eq_none_iff {previous : Option Edit} :
    checkEdits range previous (e :: es) = none ↔ range.contains e.range = true
      ∧ (∀ p ∈ previous, p.range.stop ≤ e.range.start) ∧ checkEdits range (some e) es = none := by
  cases hc : range.contains e.range with
  | false => simp [checkEdits_of_not_contains hc]
  | true =>
    cases previous with
    | none => simp [checkEdits, hc]
    | some p =>
      by_cases hp : e.range.start < p.range.stop
      · simp [checkEdits, hc, hp, Nat.not_le.2 hp]
      · simp [checkEdits, hc, hp, Nat.not_lt.1 hp]

/-- What passes the check lies in the range, and each edit ends in front of all that follow. -/
theorem pairwise_of_checkEdits {previous : Option Edit}
    (hle : ∀ e ∈ es, e.range.start ≤ e.range.stop) (h : checkEdits range previous es = none) :
    (∀ e ∈ es, range.contains e.range = true)
      ∧ es.Pairwise (fun e f => e.range.stop ≤ f.range.start)
      ∧ ∀ p ∈ previous, ∀ e ∈ es, p.range.stop ≤ e.range.start := by
  induction es generalizing previous with
  | nil => simp
  | cons e es ih =>
    rw [checkEdits_cons_eq_none_iff] at h
    rw [List.forall_mem_cons] at hle
    obtain ⟨hcontains, hprevious, hcheck⟩ := h
    obtain ⟨hrest, hpairwise, hnext⟩ := ih hle.2 hcheck
    have hnext : ∀ f ∈ es, e.range.stop ≤ f.range.start := hnext e rfl
    refine ⟨List.forall_mem_cons.2 ⟨hcontains, hrest⟩, List.pairwise_cons.2 ⟨hnext, hpairwise⟩, ?_⟩
    intro p hp f hf
    rcases List.mem_cons.1 hf with rfl | hf
    · exact hprevious p hp
    · have := hprevious p hp
      have := hnext f hf
      omega

theorem Fault.mono (hsub : es.Subperm edits) {error : SpecializeError} (h : Fault range es error) :
    Fault range edits error := by
  cases h with
  | outOfRange mem outside => exact .outOfRange (hsub.subset mem) outside
  | overlapping two overlaps => exact .overlapping (two.trans hsub) overlaps

/-- What the check finds in edits that are sorted is wrong with them. -/
theorem fault_of_checkEdits {previous : Option Edit} {error : SpecializeError}
    (hle : ∀ e ∈ previous.toList ++ es, e.range.start ≤ e.range.stop)
    (hsorted : (previous.toList ++ es).Pairwise fun e f => e.le f = true)
    (h : checkEdits range previous es = some error) :
    Fault range (previous.toList ++ es) error := by
  induction es generalizing previous with
  | nil => simp at h
  | cons e es ih =>
    have hrest (h : checkEdits range (some e) es = some error) :
        Fault range (previous.toList ++ e :: es) error := by
      have hsub : ((some e).toList ++ es).Sublist (previous.toList ++ e :: es) :=
        List.sublist_append_right _ _
      exact (ih (fun f hf => hle f (hsub.subset hf)) (hsorted.sublist hsub) h).mono hsub.subperm
    cases hc : range.contains e.range with
    | false =>
      rw [checkEdits_of_not_contains hc, Option.some.injEq] at h
      exact h ▸ .outOfRange (by simp) hc
    | true =>
      cases previous with
      | none => exact hrest (by simpa [checkEdits, hc] using h)
      | some p =>
        by_cases hp : e.range.start < p.range.stop
        · simp only [checkEdits, hc, hp, Bool.not_true, Bool.false_eq_true, if_false, if_true,
            Option.some.injEq] at h
          have hple : p.le e = true := List.rel_of_pairwise_cons hsorted (by simp)
          have hoverlaps : p.range.overlaps e.range = true := by
            rw [← Bool.not_eq_false, Edit.stop_le_of_le (hle e (by simp)) hple]
            omega
          have htwo : [p, e].Sublist ((some p).toList ++ e :: es) := by simp
          exact h ▸ .overlapping htwo.subperm hoverlaps
        · exact hrest (by simpa [checkEdits, hc, hp] using h)

/-- The edits that pass the check once they are sorted. -/
theorem checkEdits_mergeSort_eq_none_iff (hle : ∀ e ∈ edits, e.range.start ≤ e.range.stop) :
    checkEdits range none (edits.mergeSort Edit.le) = none
      ↔ (∀ e ∈ edits, range.contains e.range = true)
        ∧ edits.Pairwise fun e f => e.range.overlaps f.range = false := by
  have hperm : (edits.mergeSort Edit.le).Perm edits := List.mergeSort_perm edits Edit.le
  have hsorted := List.pairwise_mergeSort Edit.le_trans Edit.le_total edits
  have hle' : ∀ e ∈ edits.mergeSort Edit.le, e.range.start ≤ e.range.stop :=
    fun e he => hle e (hperm.mem_iff.1 he)
  have hpairwise : (edits.mergeSort Edit.le).Pairwise (fun e f => e.range.stop ≤ f.range.start)
      ↔ edits.Pairwise fun e f => e.range.overlaps f.range = false := by
    rw [← hperm.pairwise_iff overlaps_symm]
    constructor
    · exact fun h => h.imp overlaps_eq_false
    · intro h
      refine (h.and hsorted).imp_of_mem fun {e f} _ hf h => ?_
      exact (Edit.stop_le_of_le (hle' f hf) h.2).1 h.1
  rw [← hpairwise]
  constructor
  · intro h
    obtain ⟨hcontains, hordered, -⟩ := pairwise_of_checkEdits hle' h
    exact ⟨fun e he => hcontains e (hperm.mem_iff.2 he), hordered⟩
  · rintro ⟨hcontains, hordered⟩
    exact checkEdits_eq_none (fun e he => hcontains e (hperm.mem_iff.1 he)) hordered none (by simp)

theorem Fault.isInternal {error : SpecializeError} (h : Fault range edits error) :
    error.isInternal = true := by
  cases h <;> rfl

theorem fault_of_reconstruct (hle : ∀ e ∈ edits, e.range.start ≤ e.range.stop)
    {error : SpecializeError} (h : reconstruct v b tokens range edits = .error error) :
    Fault range edits error := by
  have hperm : (edits.mergeSort Edit.le).Perm edits := List.mergeSort_perm edits Edit.le
  simp only [reconstruct] at h
  split at h
  · rename_i error' herror
    cases h
    exact (fault_of_checkEdits (fun e he => hle e (hperm.mem_iff.1 he))
      (List.pairwise_mergeSort Edit.le_trans Edit.le_total edits) herror).mono hperm.subperm
  · contradiction

/-! ## The text -/

theorem copy_eq_join (start stop : Nat) : copy v b tokens ⟨start, stop⟩
    = String.join ((List.range' start (stop - start)).map fun i =>
      (tokens[i]?.map (tokenText v b)).getD "") := by
  rw [copy, Array.toList_extract, List.extract_eq_take_drop]
  generalize stop - start = n
  induction n generalizing start with
  | zero => simp
  | succ n ih =>
    rw [List.range'_succ, List.map_cons, String.join_cons, ← ih]
    by_cases h : start < tokens.size
    · rw [List.drop_eq_getElem_cons (by simpa using h)]
      simp [h]
    · simp [h, List.drop_eq_nil_of_le (show tokens.toList.length ≤ start by simpa using h),
        List.drop_eq_nil_of_le (show tokens.toList.length ≤ start + 1 by
          simp only [Array.length_toList]; omega)]

theorem underEdits_append {start mid stop : Nat} (h : start ≤ mid) (h' : mid ≤ stop) :
    underEdits v b tokens edits start stop
      = underEdits v b tokens edits start mid ++ underEdits v b tokens edits mid stop := by
  have hrange := List.range'_append_1 (s := start) (m := mid - start) (n := stop - mid)
  rw [show start + (mid - start) = mid by omega, show mid - start + (stop - mid) = stop - start by
    omega] at hrange
  rw [underEdits, ← hrange, List.map_append, String.join_append]
  rfl

theorem inserted_nil (i : Nat) : inserted [] i = "" := rfl

/-- What is put in front of an index does not come from an edit elsewhere. -/
theorem inserted_cons_of_ne (h : e.range.start ≠ i) : inserted (e :: es) i = inserted es i := by
  have hempty : e.range ≠ ⟨i, i⟩ := fun he => h (congrArg TokenRange.start he)
  simp [inserted, hempty, h]

/-- Among edits in order, those that replace nothing come first. -/
theorem inserted_cons_of_start (he : e.range.start ≤ e.range.stop) (hsorted : ∀ f ∈ es, e.le f = true)
    : inserted (e :: es) e.range.start = e.text ++ inserted es e.range.start := by
  by_cases h : e.range.start < e.range.stop
  · have hempty : e.range ≠ ⟨e.range.start, e.range.start⟩ := fun he =>
      Nat.ne_of_gt h (congrArg TokenRange.stop he)
    have hnone : es.filter (fun f => f.range = ⟨e.range.start, e.range.start⟩) = [] := by
      refine List.filter_eq_nil_iff.2 fun f hf hrange => ?_
      have := range_eq_iff.1 (of_decide_eq_true hrange)
      have := Edit.le_iff.1 (hsorted f hf)
      omega
    simp [inserted, hempty, h, hnone]
  · have hempty : e.range = ⟨e.range.start, e.range.start⟩ := range_eq_iff.2 (by omega)
    simp [inserted, ← hempty, h]

theorem inserted_of_lt (h : ∀ e ∈ es, i < e.range.start) : inserted es i = "" := by
  induction es with
  | nil => rfl
  | cons e es ih =>
    rw [List.forall_mem_cons] at h
    rw [inserted_cons_of_ne (by omega), ih h.2]

theorem kept_cons_of_covers (h : e.covers i = true) : kept v b tokens (e :: es) i = "" := by
  simp [kept, h]

theorem kept_cons_of_not_covers (h : e.covers i = false) :
    kept v b tokens (e :: es) i = kept v b tokens es i := by
  simp [kept, h]

theorem join_eq_empty {texts : List String} (h : ∀ text ∈ texts, text = "") :
    String.join texts = "" := by
  induction texts with
  | nil => rfl
  | cons text texts ih =>
    rw [List.forall_mem_cons] at h
    rw [String.join_cons, h.1, ih h.2]
    rfl

/-- In front of all edits a range reads as its tokens do. -/
theorem underEdits_of_le {start stop : Nat} (h : ∀ e ∈ es, stop ≤ e.range.start) :
    underEdits v b tokens es start stop = copy v b tokens ⟨start, stop⟩ := by
  rw [copy_eq_join, underEdits]
  refine congrArg String.join (List.map_congr_left fun i hi => ?_)
  have hi : i < stop := by
    rw [List.mem_range'_1] at hi
    omega
  have hcovers : (es.any fun e => e.covers i) = false := by
    refine List.any_eq_false.2 fun e he hc => ?_
    have := h e he
    have := (Edit.covers_iff.1 hc).1
    omega
  rw [inserted_of_lt fun e he => Nat.lt_of_lt_of_le hi (h e he), kept, hcovers]
  simp

/-- Behind an edit a range reads as it does without it. -/
theorem underEdits_cons_of_lt {start stop : Nat} (h : e.range.start < start)
    (h' : e.range.stop ≤ start) :
    underEdits v b tokens (e :: es) start stop = underEdits v b tokens es start stop := by
  refine congrArg String.join (List.map_congr_left fun i hi => ?_)
  have hi : start ≤ i := (List.mem_range'_1.1 hi).1
  have hcovers : e.covers i = false := by
    refine Bool.eq_false_iff.2 fun hc => ?_
    have := (Edit.covers_iff.1 hc).2
    omega
  rw [inserted_cons_of_ne (by omega), kept_cons_of_not_covers hcovers]

/-- The tokens that an edit covers read as its text. -/
theorem underEdits_cons_self (h : e.range.start < e.range.stop)
    (hsorted : ∀ f ∈ es, e.le f = true) (hes : ∀ f ∈ es, e.range.stop ≤ f.range.start) :
    underEdits v b tokens (e :: es) e.range.start e.range.stop = e.text := by
  obtain ⟨n, hn⟩ := Nat.exists_eq_add_of_lt h
  have hfirst : inserted es e.range.start = "" :=
    inserted_of_lt fun f hf => Nat.lt_of_lt_of_le h (hes f hf)
  have hcovers : e.covers e.range.start = true := Edit.covers_iff.2 ⟨Nat.le_refl _, h⟩
  rw [underEdits, show e.range.stop - e.range.start = n + 1 by omega, List.range'_succ,
    List.map_cons, String.join_cons, join_eq_empty, inserted_cons_of_start (Nat.le_of_lt h) hsorted,
    hfirst, kept_cons_of_covers hcovers]
  · simp
  · intro text htext
    obtain ⟨i, hi, rfl⟩ := List.mem_map.1 htext
    rw [List.mem_range'_1] at hi
    have hcovers : e.covers i = true := Edit.covers_iff.2 (by omega)
    rw [inserted_cons_of_ne (by omega), kept_cons_of_covers hcovers, inserted_of_lt fun f hf => ?_]
    · rfl
    · have := hes f hf
      omega

/-- The text of an edit that replaces nothing stands in front of what is read without it. -/
theorem underEdits_cons_empty {stop : Nat} (h : e.range.start = e.range.stop)
    (hstop : e.range.start < stop) (hsorted : ∀ f ∈ es, e.le f = true) :
    underEdits v b tokens (e :: es) e.range.start stop
      = e.text ++ underEdits v b tokens es e.range.start stop := by
  have hcovers (i : Nat) : e.covers i = false := by
    refine Bool.eq_false_iff.2 fun hc => ?_
    have := Edit.covers_iff.1 hc
    omega
  have hrest : (List.range' (e.range.start + 1) (stop - (e.range.start + 1))).map (fun i =>
        inserted (e :: es) i ++ kept v b tokens (e :: es) i)
      = (List.range' (e.range.start + 1) (stop - (e.range.start + 1))).map fun i =>
        inserted es i ++ kept v b tokens es i := by
    refine List.map_congr_left fun i hi => ?_
    have hi := (List.mem_range'_1.1 hi).1
    rw [inserted_cons_of_ne (by omega), kept_cons_of_not_covers (hcovers i)]
  rw [underEdits, underEdits, show stop - e.range.start = stop - (e.range.start + 1) + 1 by omega,
    List.range'_succ, List.map_cons, List.map_cons, String.join_cons, String.join_cons, hrest,
    inserted_cons_of_start (Nat.le_of_eq h) hsorted, kept_cons_of_not_covers (hcovers _)]
  simp only [String.append_assoc]

/-- The text of edits in order, index by index. -/
theorem splice_eq_underEdits {start stop : Nat} (h : start ≤ stop)
    (hle : ∀ e ∈ es, e.range.start ≤ e.range.stop)
    (hsorted : es.Pairwise fun e f => e.le f = true)
    (hpairwise : es.Pairwise fun e f => e.range.stop ≤ f.range.start)
    (hstart : ∀ e ∈ es, start ≤ e.range.start) (hstop : ∀ e ∈ es, e.range.stop ≤ stop) :
    splice v b tokens stop start es
      = underEdits v b tokens es start stop ++ inserted es stop := by
  induction es generalizing start with
  | nil =>
    rw [splice, underEdits_of_le (by simp), inserted_nil]
    simp
  | cons e es ih =>
    rw [List.forall_mem_cons] at hle hstart hstop
    rw [List.pairwise_cons] at hsorted hpairwise
    have hfront : underEdits v b tokens (e :: es) start e.range.start
        = copy v b tokens ⟨start, e.range.start⟩ := by
      refine underEdits_of_le (List.forall_mem_cons.2 ⟨Nat.le_refl _, fun f hf => ?_⟩)
      have := hpairwise.1 f hf
      omega
    have hback : underEdits v b tokens (e :: es) e.range.start stop ++ inserted (e :: es) stop
        = e.text ++ (underEdits v b tokens es e.range.stop stop ++ inserted es stop) := by
      by_cases hempty : e.range.start = e.range.stop
      · by_cases hlast : e.range.start = stop
        · have hnone (es : List Edit) : underEdits v b tokens es stop stop = "" := by
            simp [underEdits]
          rw [← hempty, hlast, hnone, hnone, ← hlast, inserted_cons_of_start hle.1 hsorted.1]
          simp
        · rw [underEdits_cons_empty hempty (by omega) hsorted.1, inserted_cons_of_ne hlast, hempty,
            String.append_assoc]
      · have hlt : e.range.start < e.range.stop := by omega
        rw [underEdits_append hle.1 hstop.1, underEdits_cons_self hlt hsorted.1 hpairwise.1,
          underEdits_cons_of_lt hlt (Nat.le_refl _), inserted_cons_of_ne (by omega),
          String.append_assoc]
    rw [splice, ih hstop.1 hle.2 hsorted.2 hpairwise.2 hpairwise.1 hstop.2,
      underEdits_append hstart.1 (by omega), hfront, String.append_assoc, String.append_assoc, hback]

/-! ## Edits in any order -/

/-- Edits that replace the same token overlap, so there is at most one of them. -/
theorem pairwise_filter_start (h : edits.Pairwise fun e f => e.range.overlaps f.range = false)
    (i : Nat) : (edits.filter fun e => e.range.start = i && i < e.range.stop).Pairwise
      fun _ _ => False := by
  refine List.pairwise_filter.2 (h.imp fun h he hf => ?_)
  simp only [Bool.and_eq_true, decide_eq_true_eq] at he hf
  rw [TokenRange.overlaps, Bool.and_eq_false_iff, decide_eq_false_iff_not,
    decide_eq_false_iff_not] at h
  omega

theorem inserted_mergeSort (hpairwise : edits.Pairwise fun e f => e.range.overlaps f.range = false)
    (i : Nat) : inserted (edits.mergeSort Edit.le) i = inserted edits i := by
  have hempty : (edits.filter fun e => e.range = ⟨i, i⟩).Pairwise fun e f => e.le f = true := by
    refine List.pairwise_filter.2 (List.pairwise_of_forall fun e f he hf => ?_)
    rw [Edit.le_iff, of_decide_eq_true he, of_decide_eq_true hf]
    exact .inr ⟨rfl, Nat.le_refl i⟩
  have hnext := (pairwise_filter_start hpairwise i).imp (S := fun e f => e.le f = true) False.elim
  rw [inserted, filter_mergeSort hempty, filter_mergeSort hnext, inserted]

theorem kept_perm (hperm : es.Perm edits) (i : Nat) :
    kept v b tokens es i = kept v b tokens edits i := by
  rw [kept, hperm.any_eq, kept]

theorem underEdits_mergeSort
    (hpairwise : edits.Pairwise fun e f => e.range.overlaps f.range = false) (start stop : Nat) :
    underEdits v b tokens (edits.mergeSort Edit.le) start stop
      = underEdits v b tokens edits start stop := by
  refine congrArg String.join (List.map_congr_left fun i _ => ?_)
  rw [inserted_mergeSort hpairwise, kept_perm (List.mergeSort_perm edits Edit.le)]

/-- Edits that lie in the range and do not overlap are put in. -/
theorem reconstruct_eq_ok (hle : ∀ e ∈ edits, e.range.start ≤ e.range.stop)
    (hcontains : ∀ e ∈ edits, range.contains e.range = true)
    (hpairwise : edits.Pairwise fun e f => e.range.overlaps f.range = false) :
    reconstruct v b tokens range edits
      = .ok (underEdits v b tokens edits range.start range.stop ++ inserted edits range.stop) := by
  have hcheck := (checkEdits_mergeSort_eq_none_iff hle).2 ⟨hcontains, hpairwise⟩
  have hperm : (edits.mergeSort Edit.le).Perm edits := List.mergeSort_perm edits Edit.le
  have hle' : ∀ e ∈ edits.mergeSort Edit.le, e.range.start ≤ e.range.stop :=
    fun e he => hle e (hperm.mem_iff.1 he)
  have hcontains' : ∀ e ∈ edits.mergeSort Edit.le,
      range.start ≤ e.range.start ∧ e.range.stop ≤ range.stop := by
    intro e he
    simpa [TokenRange.contains] using hcontains e (hperm.mem_iff.1 he)
  obtain ⟨-, hordered, -⟩ := pairwise_of_checkEdits hle' hcheck
  simp only [reconstruct, hcheck]
  by_cases h : range.start ≤ range.stop
  · rw [splice_eq_underEdits h hle' (List.pairwise_mergeSort Edit.le_trans Edit.le_total edits)
      hordered (fun e he => (hcontains' e he).1) fun e he => (hcontains' e he).2,
      underEdits_mergeSort hpairwise, inserted_mergeSort hpairwise]
  · -- No edit lies in a range that ends before it begins.
    obtain rfl : edits = [] := by
      refine List.eq_nil_iff_forall_not_mem.2 fun e he => ?_
      have := hle e he
      have := hcontains' e (hperm.mem_iff.2 he)
      omega
    simp [splice, copy_eq_join, underEdits, inserted_nil, show range.stop - range.start = 0 by omega]

/-- The check looks at ranges only. -/
theorem checkEdits_congr {previous previous' : Option Edit}
    (h : previous.map Edit.range = previous'.map Edit.range)
    (h' : es.map Edit.range = edits.map Edit.range) :
    checkEdits range previous es = checkEdits range previous' edits := by
  induction es generalizing previous previous' edits with
  | nil =>
    obtain rfl : edits = [] := by simpa using h'.symm
    simp
  | cons e es ih =>
    obtain ⟨f, fs, rfl, hf, hfs⟩ := List.map_eq_cons_iff.1 h'.symm
    have hrest : checkEdits range (some e) es = checkEdits range (some f) fs :=
      ih (by simp [hf]) hfs.symm
    cases previous <;> cases previous' <;> simp_all [checkEdits]

/-- Edits in another order are sorted to the same ranges. -/
theorem map_range_mergeSort (hperm : es.Perm edits) :
    (es.mergeSort Edit.le).map Edit.range = (edits.mergeSort Edit.le).map Edit.range := by
  have hsorted (edits : List Edit) : ((edits.mergeSort Edit.le).map Edit.range).Pairwise
      fun r r' => Edit.le ⟨r, ""⟩ ⟨r', ""⟩ = true :=
    List.pairwise_map.2 (List.pairwise_mergeSort Edit.le_trans Edit.le_total edits)
  have hperm : (es.mergeSort Edit.le).Perm (edits.mergeSort Edit.le) :=
    (List.mergeSort_perm es _).trans (hperm.trans (List.mergeSort_perm edits _).symm)
  refine (hperm.map Edit.range).eq_of_pairwise (fun r r' _ _ h h' => ?_) (hsorted es) (hsorted edits)
  exact Edit.range_eq_of_le (e := ⟨r, ""⟩) (f := ⟨r', ""⟩) h h'

/-- The order of edits matters only among those that replace nothing at the same index. -/
theorem inserted_perm (hperm : es.Perm edits)
    (hpairwise : edits.Pairwise fun e f => e.range.overlaps f.range = false)
    (hempty : ∀ i, es.filter (fun e => e.range = ⟨i, i⟩) = edits.filter fun e => e.range = ⟨i, i⟩)
    (i : Nat) : inserted es i = inserted edits i := by
  have hnext : es.filter (fun e => e.range.start = i && i < e.range.stop)
      = edits.filter fun e => e.range.start = i && i < e.range.stop := by
    have hpairwise' := (hperm.pairwise_iff overlaps_symm).2 hpairwise
    exact (hperm.filter _).eq_of_pairwise (fun _ _ _ _ h => h.elim)
      (pairwise_filter_start hpairwise' i) (pairwise_filter_start hpairwise i)
  rw [inserted, hempty, hnext, inserted]

theorem reconstruct_perm (hle : ∀ e ∈ edits, e.range.start ≤ e.range.stop) (hperm : es.Perm edits)
    (hempty : ∀ i, es.filter (fun e => e.range = ⟨i, i⟩) = edits.filter fun e => e.range = ⟨i, i⟩) :
    reconstruct v b tokens range es = reconstruct v b tokens range edits := by
  have hcheck : checkEdits range none (es.mergeSort Edit.le)
      = checkEdits range none (edits.mergeSort Edit.le) :=
    checkEdits_congr rfl (map_range_mergeSort hperm)
  cases herror : checkEdits range none (edits.mergeSort Edit.le) with
  | some error => simp only [reconstruct, hcheck, herror]
  | none =>
    have hle' : ∀ e ∈ es, e.range.start ≤ e.range.stop := fun e he => hle e (hperm.mem_iff.1 he)
    obtain ⟨hc, hp⟩ := (checkEdits_mergeSort_eq_none_iff hle).1 herror
    obtain ⟨hc', hp'⟩ := (checkEdits_mergeSort_eq_none_iff hle').1 (hcheck.trans herror)
    have hread (i : Nat) : inserted es i = inserted edits i := inserted_perm hperm hp hempty i
    have hunder : underEdits v b tokens es range.start range.stop
        = underEdits v b tokens edits range.start range.stop :=
      congrArg String.join (List.map_congr_left fun i _ => by rw [hread, kept_perm hperm])
    rw [reconstruct_eq_ok hle hc hp, reconstruct_eq_ok hle' hc' hp', hunder, hread]

/-- The text of a range under edits none of which ends before it begins, if the bound placeholders have
names, so that the loop over each comment ends. There is a text exactly where every edit lies in the range
and no two overlap, and what is wrong otherwise is internal. It is the tokens that no edit covers with the
text of each edit in front of the token where it begins, and it is the same for the edits in every order
that keeps those in order that replace nothing at one index. -/
theorem reconstruct_exact (v : Vocabulary) (b : Binding) (tokens : Array Token) (range : TokenRange)
    {edits : List Edit} (hnamed : IsNamed v b) (hle : ∀ e ∈ edits, e.range.start ≤ e.range.stop) :
    EndsComments v b
      ∧ ((∃ text, reconstruct v b tokens range edits = .ok text)
        ↔ (∀ e ∈ edits, range.contains e.range = true)
          ∧ edits.Pairwise fun e f => e.range.overlaps f.range = false)
      ∧ (∀ error, reconstruct v b tokens range edits = .error error →
          error.isInternal = true ∧ Fault range edits error)
      ∧ (∀ text, reconstruct v b tokens range edits = .ok text →
          text = underEdits v b tokens edits range.start range.stop ++ inserted edits range.stop)
      ∧ ∀ edits' : List Edit, edits'.Perm edits →
          (∀ i, edits'.filter (fun e => e.range = ⟨i, i⟩)
            = edits.filter fun e => e.range = ⟨i, i⟩) →
          reconstruct v b tokens range edits' = reconstruct v b tokens range edits := by
  have hexists : (∃ text, reconstruct v b tokens range edits = .ok text)
      ↔ checkEdits range none (edits.mergeSort Edit.le) = none := by
    simp only [reconstruct]
    split <;> simp_all
  refine ⟨endsComments_of_isNamed hnamed, hexists.trans (checkEdits_mergeSort_eq_none_iff hle),
    fun error h => ?_, fun text h => ?_, fun edits' hperm hempty => reconstruct_perm hle hperm hempty⟩
  · have hfault := fault_of_reconstruct hle h
    exact ⟨hfault.isInternal, hfault⟩
  · obtain ⟨hcontains, hpairwise⟩ :=
      (checkEdits_mergeSort_eq_none_iff hle).1 (hexists.1 ⟨text, h⟩)
    rw [reconstruct_eq_ok hle hcontains hpairwise, Except.ok.injEq] at h
    exact h.symm

/-- The theorem at edits out of order, two of which replace nothing in front of a name that another
one replaces, and at the same edits with those two in front. -/
theorem reconstruct_exact_sample : IsNamed {} ⟨.int, none⟩
      ∧ (∀ e ∈ [(⟨⟨4, 5⟩, "c"⟩ : Edit), ⟨⟨4, 4⟩, "x"⟩, ⟨⟨0, 1⟩, ""⟩, ⟨⟨4, 4⟩, "y"⟩],
        e.range.start ≤ e.range.stop)
      ∧ reconstruct {} ⟨.int, none⟩ (Source.ofString "a /* KType */ b").tokens ⟨0, 5⟩
          [⟨⟨4, 5⟩, "c"⟩, ⟨⟨4, 4⟩, "x"⟩, ⟨⟨0, 1⟩, ""⟩, ⟨⟨4, 4⟩, "y"⟩] = .ok " /* int */ xyc"
      ∧ reconstruct {} ⟨.int, none⟩ (Source.ofString "a /* KType */ b").tokens ⟨0, 5⟩
          [⟨⟨4, 4⟩, "x"⟩, ⟨⟨4, 4⟩, "y"⟩, ⟨⟨4, 5⟩, "c"⟩, ⟨⟨0, 1⟩, ""⟩] = .ok " /* int */ xyc" := by
  have hle : ∀ e ∈ [(⟨⟨4, 5⟩, "c"⟩ : Edit), ⟨⟨4, 4⟩, "x"⟩, ⟨⟨0, 1⟩, ""⟩, ⟨⟨4, 4⟩, "y"⟩],
      e.range.start ≤ e.range.stop := by decide
  have hnamed : IsNamed {} ⟨.int, none⟩ := isNamed_of_isPlain Vocabulary.isPlain_default
  obtain ⟨-, hexists, -, htext, hperm⟩ := reconstruct_exact {} ⟨.int, none⟩
    (Source.ofString "a /* KType */ b").tokens ⟨0, 5⟩ hnamed hle
  obtain ⟨text, h⟩ := hexists.2 ⟨by decide, by decide⟩
  have hread : text = " /* int */ xyc" := (htext text h).trans (by decide +kernel)
  rw [hread] at h
  refine ⟨hnamed, hle, h, (hperm _ (by decide) fun i => ?_).trans h⟩
  by_cases hi : 4 = i
  · subst hi
    decide
  · simp [List.filter_cons, hi]

end Stencil.Rewrite
