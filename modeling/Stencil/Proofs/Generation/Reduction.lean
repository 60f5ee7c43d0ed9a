import Mathlib.Data.List.Induction
import Mathlib.Data.List.Perm.Basic
import Stencil.Proofs.Generation.OutputPath
import Stencil.Proofs.Generation.Settlement
import Stencil.Proofs.PathOrder

/-!
# What settling claims comes to

A settlement is told claim by claim: a claim is compared with those in front of it, and what it does
depends on the first of them on its path. Records and orphans are in the strict order of their paths,
so they are determined by what is among them, and a record is found by halving.

Results: a claim behind others is one more that holds or one more duplicate (`winners_append`,
`duplicatesAfter_append`), a record is found by each path with its components (`record?_eq_some_iff`),
and what the settlement of claims is, and no other one (`settle_eq_iff`).
-/

namespace Stencil

/-- Each claim with the claims in front of it. -/
def withEarlier (claims : List Claim) : List (List Claim × Claim) :=
  claims.zipIdx.map fun (c, i) => (claims.take i, c)

/-- Is this what existing outputs and claims come to? -/
structure Settles (existing : List Path) (claims : List Claim) (s : Settlement) : Prop where
  /-- No two records are on one path, and they are in the order of their paths. -/
  ascending : s.records.Pairwise fun r r' => r.path.order r'.path = .lt
  /-- There is a record for each path that exists or is claimed. -/
  occurs_iff : ∀ p : Path, (∃ r ∈ s.records, r.path.same p = true)
    ↔ (∃ c ∈ claims, c.path.same p = true) ∨ ∃ q ∈ existing, q.same p = true
  /-- The first claim on a path makes its record, and the first spelling if there is no claim. -/
  record_eq : ∀ r ∈ s.records,
    match claims.find? fun c => c.path.same r.path with
    | some c => r = ⟨c.path, c.action.state⟩
    | none => r.state = .unclaimed ∧ existing.find? (fun q => q.same r.path) = some r.path
  /-- A record is found again by its path, and nothing else is found. -/
  found_iff : ∀ p r, s.record? p = some r ↔ r ∈ s.records ∧ r.path.same p = true
  /-- The first claim on a path is written, if it has a text. -/
  writes_eq : s.writes = (withEarlier claims).filterMap fun (earlier, c) =>
    if earlier.any fun f => f.path.same c.path then none else c.write?
  /-- No orphan is there twice, and they are in the order of their paths. -/
  orphans_ascending : s.orphans.Pairwise fun p q => p.order q = .lt
  /-- The orphans are the existing outputs on which there is no claim, in their first spelling. -/
  mem_orphans_iff : ∀ p, p ∈ s.orphans
    ↔ existing.find? (fun q => q.same p) = some p ∧ ∀ c ∈ claims, c.path.same p = false
  /-- Nobody claims an orphan: it is not written, kept or preserved. -/
  record_of_orphan : ∀ p ∈ s.orphans, s.record? p = some ⟨p, .unclaimed⟩
  /-- A claim behind others on its path is a duplicate of the first of them. -/
  duplicates_eq : s.duplicates = (withEarlier claims).filterMap fun (earlier, c) =>
    (earlier.find? fun f => f.path.same c.path).map fun f => ⟨c.path, f.owner, c.owner⟩

variable {existing : List Path} {claims before : List Claim} {c : Claim} {p q : Path}

/-! ## Claim after claim -/

theorem withEarlier_append (claims : List Claim) (c : Claim) :
    withEarlier (claims ++ [c]) = withEarlier claims ++ [(claims, c)] := by
  rw [withEarlier, List.zipIdx_append, List.map_append, withEarlier]
  congr 1
  · refine List.map_congr_left fun ⟨d, i⟩ hd => ?_
    have hi : i < claims.length := by simpa using List.snd_lt_of_mem_zipIdx hd
    simp only [List.take_append_of_le_length (Nat.le_of_lt hi)]
  · simp

/-- Behind others, an element is one more unless it has the key of one of them. -/
theorem eraseDupsBy_append {α κ : Type} [BEq κ] [LawfulBEq κ] {f : α → κ} (as : List α) (a : α) :
    (as ++ [a]).eraseDupsBy (fun x y => f x == f y)
      = if as.any fun x => f x == f a then as.eraseDupsBy fun x y => f x == f y
        else as.eraseDupsBy (fun x y => f x == f y) ++ [a] := by
  induction hn : as.length using Nat.strongRecOn generalizing as with
  | _ n ih =>
    cases as with
    | nil => simp [List.eraseDupsBy_cons]
    | cons b as =>
      rw [List.cons_append, List.eraseDupsBy_cons, List.eraseDupsBy_cons, List.filter_append,
        List.any_cons]
      by_cases hab : f a = f b
      · simp [hab]
      · have hany : (as.filter fun x => decide ((f x == f b) = false)).any (fun x => f x == f a)
            = as.any fun x => f x == f a := by
          rw [List.any_filter]
          congr 1
          funext x
          by_cases hx : f x = f a <;> simp [hx, hab]
        have hne : (f b == f a) = false := beq_eq_false_iff_ne.2 (Ne.symm hab)
        have hkept : [a].filter (fun x => decide ((f x == f b) = false)) = [a] := by simp [hab]
        rw [hkept, ih _ (hn ▸ length_filter_lt_cons) _ rfl, hany, hne, Bool.false_or]
        split <;> rfl

theorem winners_append (claims : List Claim) (c : Claim) : winners (claims ++ [c])
    = if claims.any fun f => f.path.same c.path then winners claims else winners claims ++ [c] :=
  eraseDupsBy_append (f := fun d : Claim => d.path.components) claims c

theorem duplicatesAfter_append (before claims : List Claim) (c : Claim) :
    duplicatesAfter before (claims ++ [c]) = duplicatesAfter before claims
      ++ (((before ++ claims).find? fun f => f.path.same c.path).map fun f =>
        (⟨c.path, f.owner, c.owner⟩ : Duplicate)).toList := by
  induction claims generalizing before with
  | nil =>
    rw [List.nil_append, List.append_nil, duplicatesAfter, duplicatesAfter]
    split
    · rename_i f hf
      simp [hf, duplicatesAfter]
    · rename_i hf
      simp [hf, duplicatesAfter]
  | cons d claims ih =>
    rw [List.cons_append, duplicatesAfter, duplicatesAfter]
    split
    · rw [ih, List.append_assoc, List.singleton_append, List.cons_append]
    · rw [ih, List.append_assoc, List.singleton_append]

theorem winners_eq (claims : List Claim) : winners claims
    = (withEarlier claims).filterMap fun (earlier, c) =>
      if earlier.any fun f => f.path.same c.path then none else some c := by
  induction claims using List.reverseRecOn with
  | nil => rfl
  | append_singleton claims c ih =>
    rw [winners_append, withEarlier_append, List.filterMap_append, ← ih]
    cases h : claims.any fun f => f.path.same c.path <;> simp [-List.any_eq_true, h]

/-- The first claims on their paths write. -/
theorem writes_eq (claims : List Claim) : (winners claims).filterMap Claim.write?
    = (withEarlier claims).filterMap fun (earlier, c) =>
      if earlier.any fun f => f.path.same c.path then none else c.write? := by
  rw [winners_eq, List.filterMap_filterMap]
  congr 1
  funext ⟨earlier, c⟩
  simp only
  split <;> rfl

theorem duplicates_eq (claims : List Claim) : duplicatesAfter [] claims
    = (withEarlier claims).filterMap fun (earlier, c) =>
      (earlier.find? fun f => f.path.same c.path).map fun f => ⟨c.path, f.owner, c.owner⟩ := by
  induction claims using List.reverseRecOn with
  | nil => rfl
  | append_singleton claims c ih =>
    rw [duplicatesAfter_append, withEarlier_append, List.filterMap_append, ih, List.nil_append]
    cases h : claims.find? fun f => f.path.same c.path <;> simp [h]

/-! ## In the order of paths -/

section Ascending

variable {α : Type} {f : α → Path} {k : α → List Component} {as bs : List α}

/-- What is in order and is on other paths is strictly in order. -/
theorem ascending_of_le (hle : as.Pairwise fun a b => (f a).le (f b) = true)
    (hne : as.Pairwise fun a b => (f a).components ≠ (f b).components) :
    as.Pairwise fun a b => (f a).order (f b) = .lt :=
  (hle.and hne).imp fun h => Path.order_lt_of_le h.1 h.2

/-- Lists that are strictly in order are equal if the same is in them. -/
theorem eq_of_ascending (ha : as.Pairwise fun a b => Path.componentsOrder (k a) (k b) = .lt)
    (hb : bs.Pairwise fun a b => Path.componentsOrder (k a) (k b) = .lt)
    (h : ∀ a, a ∈ as ↔ a ∈ bs) : as = bs := by
  have hne {a b : α} (h : Path.componentsOrder (k a) (k b) = .lt) : a ≠ b := by
    rintro rfl
    rw [Path.componentsOrder_eq_eq_iff.2 rfl] at h
    contradiction
  refine List.Perm.eq_of_pairwise (fun a b _ _ h h' => ?_) ha hb
    ((List.perm_ext_iff_of_nodup (ha.imp hne) (hb.imp hne)).2 h)
  rw [Path.componentsOrder_swap, h] at h'
  contradiction

end Ascending

theorem orphansOf_ascending : (orphansOf existing claims).Pairwise fun p q => p.order q = .lt :=
  ascending_of_le (f := id) (List.pairwise_mergeSort Path.le_trans Path.le_total _)
    pairwise_orphansOf

/-- An orphan is the first spelling of an existing output on which there is no claim. -/
theorem mem_orphansOf_iff : p ∈ orphansOf existing claims
    ↔ existing.find? (fun q => q.same p) = some p ∧ ∀ c ∈ claims, c.path.same p = false := by
  rw [orphansOf, List.mem_mergeSort, List.mem_filter]
  refine and_congr (mem_eraseDupsBy_iff (f := Path.components)) ?_
  simp

namespace Settlement

theorem mem_records_settle_iff {r : OutputRecord} : r ∈ (settle existing claims).records
    ↔ (∃ c ∈ winners claims, r = c.record) ∨ ∃ p ∈ orphansOf existing claims, r = ⟨p, .unclaimed⟩ := by
  simp only [settle, List.mem_mergeSort, List.mem_append, List.mem_map, eq_comm]

theorem records_settle_perm : (settle existing claims).records.Perm ((winners claims).map Claim.record
    ++ (orphansOf existing claims).map (OutputRecord.mk · .unclaimed)) :=
  List.mergeSort_perm _ _

theorem records_settle_ascending :
    (settle existing claims).records.Pairwise fun r r' => r.path.order r'.path = .lt := by
  have hle : (settle existing claims).records.Pairwise fun r r' => r.path.le r'.path = true :=
    @List.pairwise_mergeSort OutputRecord (fun r r' => r.path.le r'.path)
      (fun _ _ _ => Path.le_trans _ _ _) (fun _ _ => Path.le_total _ _) _
  refine ascending_of_le (f := OutputRecord.path) hle
    ((records_settle_perm.pairwise_iff fun h => Ne.symm h).2 ?_)
  rw [List.pairwise_append, List.pairwise_map, List.pairwise_map]
  refine ⟨pairwise_winners, pairwise_orphansOf, ?_⟩
  simp only [List.forall_mem_map]
  intro c hc p hp
  have := not_same_of_mem_orphansOf hp (mem_of_mem_winners hc)
  simpa [Path.same, Claim.record] using this

/-! ## Records by their paths -/

variable {records : List OutputRecord} {r : OutputRecord} {start stop i : Nat}

/-- What halving finds is on the path. -/
theorem getElem?_of_recordIndex? (h : recordIndex? records p start stop = some i) :
    ∃ r, records[i]? = some r ∧ r.path.components = p.components := by
  fun_induction recordIndex? records p start stop with
  | case1 start stop hlt mid r hr horder ih => exact ih h
  | case2 start stop hlt mid r hr horder =>
    exact ⟨r, Option.some.inj h ▸ hr, Path.order_eq_eq_iff.1 horder⟩
  | case3 start stop hlt mid r hr horder ih => exact ih h
  | case4 => contradiction
  | case5 => contradiction

/-- Records that are strictly in order are ordered as their indices are. -/
theorem order_path_eq_compare {j k : Nat} {x y : OutputRecord}
    (hsorted : records.Pairwise fun r r' => r.path.order r'.path = .lt)
    (hx : records[j]? = some x) (hy : records[k]? = some y) :
    x.path.order y.path = compare j k := by
  obtain ⟨hj, rfl⟩ := List.getElem?_eq_some_iff.1 hx
  obtain ⟨hk, rfl⟩ := List.getElem?_eq_some_iff.1 hy
  have hlt := List.pairwise_iff_getElem.1 hsorted
  rcases Nat.lt_trichotomy j k with hjk | rfl | hjk
  · rw [hlt j k hj hk hjk, Nat.compare_eq_lt.2 hjk]
  · rw [Path.order_eq_eq_iff.2 rfl, Nat.compare_eq_eq.2 rfl]
  · rw [Path.order_swap, hlt k j hk hj hjk, Nat.compare_eq_gt.2 hjk]
    rfl

/-- Halving finds the record of a path between the indices: what it leaves out lies on one side of the
record. -/
theorem recordIndex?_eq_some
    (hsorted : records.Pairwise fun r r' => r.path.order r'.path = .lt)
    (hr : records[i]? = some r) (hp : r.path.components = p.components) (hstart : start ≤ i)
    (hstop : i < stop) (hlength : stop ≤ records.length) :
    recordIndex? records p start stop = some i := by
  have hcompare {j : Nat} {x : OutputRecord} (hx : records[j]? = some x) :
      x.path.order p = compare j i := by
    rw [← order_path_eq_compare hsorted hx hr, Path.order, Path.order, hp]
  fun_induction recordIndex? records p start stop with
  | case1 start stop hlt mid m hm horder ih =>
    rw [hcompare hm, Nat.compare_eq_lt] at horder
    exact ih horder hstop hlength
  | case2 start stop hlt mid m hm horder =>
    rw [hcompare hm, Nat.compare_eq_eq] at horder
    rw [horder]
  | case3 start stop hlt mid m hm horder ih =>
    rw [hcompare hm, Nat.compare_eq_gt] at horder
    exact ih hstart horder (by omega)
  | case4 start stop hlt mid hm =>
    have hmid : records.length ≤ mid := List.getElem?_eq_none_iff.1 hm
    omega
  | case5 start stop hlt => omega

/-- Where records are strictly in order, the one on a path is found. -/
theorem record?_eq_some_iff {s : Settlement}
    (hsorted : s.records.Pairwise fun r r' => r.path.order r'.path = .lt) :
    s.record? p = some r ↔ r ∈ s.records ∧ r.path.same p = true := by
  rw [record?, Option.bind_eq_some_iff, Path.same_iff]
  constructor
  · rintro ⟨i, hi, hr⟩
    obtain ⟨r', hr', hp⟩ := getElem?_of_recordIndex? hi
    obtain rfl : r' = r := Option.some.inj (hr'.symm.trans hr)
    exact ⟨List.mem_of_getElem? hr, hp⟩
  · rintro ⟨hr, hp⟩
    obtain ⟨i, hi⟩ := List.getElem?_of_mem hr
    have hlt : i < s.records.length := (List.getElem?_eq_some_iff.1 hi).1
    exact ⟨i, recordIndex?_eq_some hsorted hi hp (Nat.zero_le i) hlt (Nat.le_refl _), hi⟩

/-! ## The records of a settlement -/

theorem exists_record_iff : (∃ r ∈ (settle existing claims).records, r.path.same p = true)
    ↔ (∃ c ∈ claims, c.path.same p = true) ∨ ∃ q ∈ existing, q.same p = true := by
  constructor
  · rintro ⟨r, hr, hp⟩
    rcases mem_records_settle_iff.1 hr with ⟨c, hc, rfl⟩ | ⟨q, hq, rfl⟩
    · exact .inl ⟨c, mem_of_mem_winners hc, hp⟩
    · exact .inr ⟨q, mem_of_mem_orphansOf hq, hp⟩
  · intro h
    by_cases hclaimed : ∃ c ∈ claims, c.path.same p = true
    · obtain ⟨c, hc⟩ := Option.isSome_iff_exists.1 (List.find?_isSome.2 hclaimed)
      have hsame : c.path.same p = true := by simpa using List.find?_some hc
      have hp : c.path.components = p.components := Path.same_iff.1 hsame
      have hwinner : c ∈ winners claims := by
        rw [mem_winners_iff, hp]
        exact hc
      exact ⟨c.record, mem_records_settle_iff.2 (.inl ⟨c, hwinner, rfl⟩), hsame⟩
    · obtain ⟨q, hq, hp⟩ := h.resolve_left hclaimed
      rw [Path.same_iff] at hp
      have hfree : ∀ c ∈ claims, c.path.components ≠ q.components := fun c hc heq =>
        hclaimed ⟨c, hc, Path.same_iff.2 (heq.trans hp)⟩
      obtain ⟨o, ho, heq⟩ := exists_mem_orphansOf hq hfree
      exact ⟨⟨o, .unclaimed⟩, mem_records_settle_iff.2 (.inr ⟨o, ho, rfl⟩),
        Path.same_iff.2 (heq.trans hp)⟩

theorem record_eq_of_mem (h : r ∈ (settle existing claims).records) :
    match claims.find? fun c => c.path.same r.path with
    | some c => r = ⟨c.path, c.action.state⟩
    | none => r.state = .unclaimed ∧ existing.find? (fun q => q.same r.path) = some r.path := by
  rcases mem_records_settle_iff.1 h with ⟨c, hc, rfl⟩ | ⟨q, hq, rfl⟩
  · have hfirst : claims.find? (fun d => d.path.same c.record.path) = some c :=
      mem_winners_iff.1 hc
    rw [hfirst]
    rfl
  · obtain ⟨hfirst, hfree⟩ := mem_orphansOf_iff.1 hq
    have hnone : claims.find? (fun c => c.path.same q) = none :=
      List.find?_eq_none.2 fun c hc => by simp [hfree c hc]
    simp [hnone, hfirst]

end Settlement

namespace Settles

variable {s s' : Settlement}

theorem of_settle (existing : List Path) (claims : List Claim) :
    Settles existing claims (.settle existing claims) where
  ascending := Settlement.records_settle_ascending
  occurs_iff _ := Settlement.exists_record_iff
  record_eq _ := Settlement.record_eq_of_mem
  found_iff _ _ := Settlement.record?_eq_some_iff Settlement.records_settle_ascending
  writes_eq := Stencil.writes_eq claims
  orphans_ascending := orphansOf_ascending
  mem_orphans_iff _ := mem_orphansOf_iff
  record_of_orphan p hp := (Settlement.record?_eq_some_iff Settlement.records_settle_ascending).2
    ⟨Settlement.mem_records_settle_iff.2 (.inr ⟨p, hp, rfl⟩), Path.same_iff.2 rfl⟩
  duplicates_eq := Stencil.duplicates_eq claims

/-- Records on one path are the same, whatever settlement they are of. -/
theorem record_unique (h : Settles existing claims s) (h' : Settles existing claims s')
    {r r' : OutputRecord} (hr : r ∈ s.records) (hr' : r' ∈ s'.records)
    (hp : r.path.components = r'.path.components) : r = r' := by
  have heq := h.record_eq r hr
  have heq' := h'.record_eq r' hr'
  have hsame (q : Path) : q.same r'.path = q.same r.path := by rw [Path.same, Path.same, hp]
  simp only [hsame] at heq'
  cases hclaim : claims.find? fun c => c.path.same r.path with
  | some c =>
    simp only [hclaim] at heq heq'
    rw [heq, heq']
  | none =>
    simp only [hclaim] at heq heq'
    have hpath : r.path = r'.path := Option.some.inj (heq.2.symm.trans heq'.2)
    rw [OutputRecord.mk.injEq]
    exact ⟨hpath, heq.1.trans heq'.1.symm⟩

theorem records_subset (h : Settles existing claims s) (h' : Settles existing claims s') :
    s.records ⊆ s'.records := by
  intro r hr
  obtain ⟨r', hr', hp⟩ :=
    (h'.occurs_iff r.path).2 ((h.occurs_iff r.path).1 ⟨r, hr, Path.same_iff.2 rfl⟩)
  rwa [h.record_unique h' hr hr' (Path.same_iff.1 hp).symm]

theorem unique (h : Settles existing claims s) (h' : Settles existing claims s') : s = s' := by
  have hrecords : s.records = s'.records :=
    eq_of_ascending (k := fun r : OutputRecord => r.path.components) h.ascending h'.ascending fun _ =>
      ⟨fun hr => h.records_subset h' hr, fun hr => h'.records_subset h hr⟩
  have horphans : s.orphans = s'.orphans :=
    eq_of_ascending (k := Path.components) h.orphans_ascending h'.orphans_ascending fun p => by
      rw [h.mem_orphans_iff, h'.mem_orphans_iff]
  have hwrites : s.writes = s'.writes := h.writes_eq.trans h'.writes_eq.symm
  have hduplicates : s.duplicates = s'.duplicates := h.duplicates_eq.trans h'.duplicates_eq.symm
  rw [Settlement.mk.injEq]
  exact ⟨hrecords, hwrites, horphans, hduplicates⟩

end Settles

/-- The settlement of claims is what they come to, and nothing else is. -/
theorem settle_eq_iff {existing : List Path} {claims : List Claim} {s : Settlement} :
    Settlement.settle existing claims = s ↔ Settles existing claims s := by
  constructor
  · rintro rfl
    exact .of_settle existing claims
  · exact (Settles.of_settle existing claims).unique

end Stencil
