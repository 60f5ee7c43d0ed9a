import Stencil.Proofs.Generation.Clean
import Stencil.Proofs.Generation.Reduction

/-!
# Claims in any order

Which instantiation is done first, and in which order and how often existing outputs are listed,
makes no difference to what there is to do, as long as no two claims are on one path. Only the
spelling of an orphan depends on the order, if it is listed in more than one.

Results: the orphans and the records of a settlement are determined by which paths exist and by the
claims that there are, and the texts are written in the order of the claims (`settle_perm`).
-/

namespace Stencil

variable {existing existing' : List Path} {claims claims' : List Claim}

/-- The paths of the orphans are those that exist and that nobody claims. -/
theorem exists_orphan_iff {cs : List Component} :
    (∃ p ∈ orphansOf existing claims, p.components = cs)
      ↔ (∃ q ∈ existing, q.components = cs) ∧ ∀ c ∈ claims, c.path.components ≠ cs := by
  constructor
  · rintro ⟨p, hp, rfl⟩
    refine ⟨⟨p, mem_of_mem_orphansOf hp, rfl⟩, fun c hc heq => ?_⟩
    have := not_same_of_mem_orphansOf hp hc
    rw [Path.same_iff.2 heq] at this
    contradiction
  · rintro ⟨⟨q, hq, rfl⟩, hfree⟩
    exact exists_mem_orphansOf hq hfree

section Perm

variable (hclaims : claims.Perm claims')
  (hexisting : ∀ cs, (∃ q ∈ existing, q.components = cs) ↔ ∃ q ∈ existing', q.components = cs)

include hclaims hexisting

theorem exists_orphan_perm (cs : List Component) :
    (∃ p ∈ orphansOf existing claims, p.components = cs)
      ↔ ∃ p ∈ orphansOf existing' claims', p.components = cs := by
  rw [exists_orphan_iff, exists_orphan_iff, hexisting]
  refine and_congr_right fun _ => forall_congr' fun c => ?_
  rw [hclaims.mem_iff]

theorem components_orphansOf_perm : (orphansOf existing claims).map Path.components
    = (orphansOf existing' claims').map Path.components := by
  refine eq_of_ascending (k := id) (List.pairwise_map.2 orphansOf_ascending)
    (List.pairwise_map.2 orphansOf_ascending) fun cs => ?_
  rw [List.mem_map, List.mem_map]
  exact exists_orphan_perm hclaims hexisting cs

/-- Where every existing output has one spelling, so have the orphans. -/
theorem orphansOf_perm (hspelling : ∀ p ∈ existing, ∀ q ∈ existing',
    p.components = q.components → p = q) : orphansOf existing claims = orphansOf existing' claims' := by
  refine eq_of_ascending (k := Path.components) orphansOf_ascending orphansOf_ascending fun p => ?_
  constructor
  · intro hp
    obtain ⟨q, hq, heq⟩ := (exists_orphan_perm hclaims hexisting p.components).1 ⟨p, hp, rfl⟩
    rwa [hspelling p (mem_of_mem_orphansOf hp) q (mem_of_mem_orphansOf hq) heq.symm]
  · intro hp
    obtain ⟨q, hq, heq⟩ := (exists_orphan_perm hclaims hexisting p.components).2 ⟨p, hp, rfl⟩
    rwa [← hspelling q (mem_of_mem_orphansOf hq) p (mem_of_mem_orphansOf hp) heq]

end Perm

/-- A record as paths are compared: its components and what has become of the output. -/
def OutputRecord.key (r : OutputRecord) : List Component × OutputState :=
  (r.path.components, r.state)

theorem mem_map_key_iff {x : List Component × OutputState} :
    x ∈ (Settlement.settle existing claims).records.map OutputRecord.key
      ↔ (∃ c ∈ winners claims, c.record.key = x)
        ∨ x.2 = .unclaimed ∧ ∃ p ∈ orphansOf existing claims, p.components = x.1 := by
  rw [List.mem_map]
  constructor
  · rintro ⟨r, hr, rfl⟩
    rcases Settlement.mem_records_settle_iff.1 hr with ⟨c, hc, rfl⟩ | ⟨p, hp, rfl⟩
    · exact .inl ⟨c, hc, rfl⟩
    · exact .inr ⟨rfl, p, hp, rfl⟩
  · rintro (⟨c, hc, rfl⟩ | ⟨hstate, p, hp, heq⟩)
    · exact ⟨c.record, Settlement.mem_records_settle_iff.2 (.inl ⟨c, hc, rfl⟩), rfl⟩
    · exact ⟨⟨p, .unclaimed⟩, Settlement.mem_records_settle_iff.2 (.inr ⟨p, hp, rfl⟩),
        Prod.ext heq hstate.symm⟩

/-- Settling does not depend on the order of the claims, if no two of them are on one path, nor on how
the existing outputs are listed. The records and the orphans are the same as paths are compared, and
they are spelled the same if every existing output has one spelling. -/
theorem settle_perm (hclaims : claims.Perm claims')
    (hpaths : claims.Pairwise fun c d => c.path.components ≠ d.path.components)
    (hexisting : ∀ cs, (∃ q ∈ existing, q.components = cs) ↔ ∃ q ∈ existing', q.components = cs) :
    (Settlement.settle existing claims).records.map OutputRecord.key
        = (Settlement.settle existing' claims').records.map OutputRecord.key
      ∧ (Settlement.settle existing claims).orphans.map Path.components
        = (Settlement.settle existing' claims').orphans.map Path.components
      ∧ ((∀ p ∈ existing, ∀ q ∈ existing', p.components = q.components → p = q) →
          (Settlement.settle existing claims).records = (Settlement.settle existing' claims').records
          ∧ (Settlement.settle existing claims).orphans
            = (Settlement.settle existing' claims').orphans)
      ∧ (Settlement.settle existing claims).writes.Perm (Settlement.settle existing' claims').writes
      ∧ (Settlement.settle existing claims).duplicates = []
      ∧ (Settlement.settle existing' claims').duplicates = [] := by
  have hpaths' : claims'.Pairwise fun c d => c.path.components ≠ d.path.components :=
    (hclaims.pairwise_iff fun h => Ne.symm h).1 hpaths
  have hheld (c : Claim) : c ∈ winners claims ↔ c ∈ winners claims' := by
    rw [winners_eq_self hpaths, winners_eq_self hpaths', hclaims.mem_iff]
  refine ⟨?_, components_orphansOf_perm hclaims hexisting, fun hspelling => ?_, ?_, ?_, ?_⟩
  · refine eq_of_ascending (k := Prod.fst) (List.pairwise_map.2 Settlement.records_settle_ascending)
      (List.pairwise_map.2 Settlement.records_settle_ascending) fun x => ?_
    simp only [mem_map_key_iff, hheld, exists_orphan_perm hclaims hexisting]
  · have horphans := orphansOf_perm hclaims hexisting hspelling
    refine ⟨?_, horphans⟩
    refine eq_of_ascending (k := fun r : OutputRecord => r.path.components)
      Settlement.records_settle_ascending Settlement.records_settle_ascending fun r => ?_
    simp only [Settlement.mem_records_settle_iff, hheld, horphans]
  · simp only [Settlement.settle, winners_eq_self hpaths, winners_eq_self hpaths']
    exact hclaims.filterMap Claim.write?
  · exact duplicatesAfter_eq_nil_iff.2 ⟨by simp, hpaths⟩
  · exact duplicatesAfter_eq_nil_iff.2 ⟨by simp, hpaths'⟩

/-- The theorem at claims in two orders, and at outputs that are listed twice and in two spellings. -/
theorem settle_perm_sample : ∃ s s', s = Settlement.settle [⟨"o/D"⟩, ⟨"o/B"⟩, ⟨"o//D"⟩]
        [⟨⟨"o/A"⟩, "a", .write "x"⟩, ⟨⟨"o/B"⟩, "b", .keep⟩, ⟨⟨"o/C"⟩, "c", .write "y"⟩]
    ∧ s' = Settlement.settle [⟨"o//B"⟩, ⟨"o//D"⟩]
        [⟨⟨"o/C"⟩, "c", .write "y"⟩, ⟨⟨"o/A"⟩, "a", .write "x"⟩, ⟨⟨"o/B"⟩, "b", .keep⟩]
    ∧ s.records.map OutputRecord.key = s'.records.map OutputRecord.key
    ∧ s.orphans.map Path.components = s'.orphans.map Path.components
    ∧ s.writes.Perm s'.writes ∧ s.duplicates = [] ∧ s'.duplicates = [] := by
  have hB : (⟨"o//B"⟩ : Path).components = (⟨"o/B"⟩ : Path).components := by decide +kernel
  have hD : (⟨"o//D"⟩ : Path).components = (⟨"o/D"⟩ : Path).components := by decide +kernel
  have hclaims : [(⟨⟨"o/A"⟩, "a", .write "x"⟩ : Claim), ⟨⟨"o/B"⟩, "b", .keep⟩,
        ⟨⟨"o/C"⟩, "c", .write "y"⟩].Perm
      [⟨⟨"o/C"⟩, "c", .write "y"⟩, ⟨⟨"o/A"⟩, "a", .write "x"⟩, ⟨⟨"o/B"⟩, "b", .keep⟩] := by decide
  have hexisting (cs : List Component) :
      (∃ q ∈ [(⟨"o/D"⟩ : Path), ⟨"o/B"⟩, ⟨"o//D"⟩], q.components = cs)
        ↔ ∃ q ∈ [(⟨"o//B"⟩ : Path), ⟨"o//D"⟩], q.components = cs := by
    simp only [List.mem_cons, List.not_mem_nil, or_false, exists_eq_or_imp, exists_eq_left, hB, hD]
    rw [or_comm, or_assoc, or_self]
  obtain ⟨hrecords, horphans, -, hwrites, hduplicates, hduplicates'⟩ :=
    settle_perm hclaims (by decide +kernel) hexisting
  exact ⟨_, _, rfl, rfl, hrecords, horphans, hwrites, hduplicates, hduplicates'⟩

end Stencil
