import Stencil.Generation.Claim

/-!
# Settled claims

Of the claims on one path the first one holds. Existing outputs on which there is no claim are
orphans. Every claim that holds and every orphan has one record, so that the numbers of a settlement
are those of the claims and the orphans, also after the orphans have been deleted.

Results: the claims that hold are the first ones on their paths (`mem_winners_iff`). The numbers
after the orphans have been deleted (`Settlement.countP_deleted`).
-/

namespace Stencil

/-! ## The first of each kind -/

section FirstOfEach

variable {α κ : Type} [BEq κ] [LawfulBEq κ] {f : α → κ} {as : List α} {a b : α}

theorem length_filter_lt_cons {p : α → Bool} : (as.filter p).length < (b :: as).length :=
  Nat.lt_succ_of_le (List.length_filter_le p as)

/-- Of the elements with one key the first one is left. -/
theorem mem_eraseDupsBy_iff : a ∈ as.eraseDupsBy (fun x y => f x == f y)
    ↔ as.find? (fun x => f x == f a) = some a := by
  induction hn : as.length using Nat.strongRecOn generalizing as with
  | _ n ih =>
    cases as with
    | nil => simp
    | cons b as =>
      rw [List.eraseDupsBy_cons, List.mem_cons, List.find?_cons]
      rw [ih _ (hn ▸ length_filter_lt_cons) rfl, List.find?_filter]
      by_cases hab : f b = f a
      · rw [beq_iff_eq.2 hab]
        constructor
        · rintro (rfl | hfound)
          · rfl
          · have := List.find?_some hfound
            simp [hab] at this
        · intro heq
          exact .inl (Option.some.inj heq).symm
      · rw [beq_eq_false_iff_ne.2 hab]
        have hcongr : (fun x => decide ((decide ((f x == f b) = false) = true) ∧ (f x == f a) = true))
            = fun x => f x == f a := by
          funext x
          by_cases hxa : f x = f a
          · simp [hxa, Ne.symm hab]
          · simp [hxa]
        rw [hcongr]
        constructor
        · rintro (rfl | hfound)
          · exact absurd rfl hab
          · exact hfound
        · exact .inr

theorem pairwise_eraseDupsBy :
    (as.eraseDupsBy fun x y => f x == f y).Pairwise fun x y => f x ≠ f y := by
  induction hn : as.length using Nat.strongRecOn generalizing as with
  | _ n ih =>
    cases as with
    | nil => simp
    | cons b as =>
      rw [List.eraseDupsBy_cons, List.pairwise_cons]
      refine ⟨fun x hx heq => ?_, ih _ (hn ▸ length_filter_lt_cons) rfl⟩
      have hmem := List.mem_of_find?_eq_some (mem_eraseDupsBy_iff.1 hx)
      have := (List.mem_filter.1 hmem).2
      simp [heq] at this

end FirstOfEach

/-! ## Claims that hold, and orphans -/

variable {claims : List Claim} {existing : List Path} {c : Claim} {p : Path}

/-- The first claim on each path holds. -/
theorem mem_winners_iff : c ∈ winners claims
    ↔ claims.find? (fun d => d.path.components == c.path.components) = some c :=
  mem_eraseDupsBy_iff (f := fun d : Claim => d.path.components)

theorem pairwise_winners :
    (winners claims).Pairwise fun c d => c.path.components ≠ d.path.components :=
  pairwise_eraseDupsBy (f := fun d : Claim => d.path.components)

/-- Only a claim that writes has something to write. -/
theorem Claim.write?_eq_some_iff {o : Path × String} :
    c.write? = some o ↔ c.action = .write o.2 ∧ c.path = o.1 := by
  obtain ⟨path, owner, action⟩ := c
  obtain ⟨path', text⟩ := o
  cases action <;> simp [Claim.write?, and_comm]

theorem mem_of_mem_winners (h : c ∈ winners claims) : c ∈ claims :=
  List.mem_of_find?_eq_some (mem_winners_iff.1 h)

theorem mem_of_mem_orphansOf (h : p ∈ orphansOf existing claims) : p ∈ existing := by
  rw [orphansOf, List.mem_mergeSort, List.mem_filter] at h
  exact List.mem_of_find?_eq_some (mem_eraseDupsBy_iff (f := Path.components) |>.1 h.1)

/-- An existing output on which there is no claim is one of the orphans, perhaps in another
spelling. -/
theorem exists_mem_orphansOf (hp : p ∈ existing) (hc : ∀ c ∈ claims, c.path.components ≠ p.components) :
    ∃ q ∈ orphansOf existing claims, q.components = p.components := by
  cases hfound : existing.find? (fun q => q.components == p.components) with
  | none =>
    have := List.find?_eq_none.1 hfound p hp
    simp at this
  | some q =>
    have heq : q.components = p.components := by simpa using List.find?_some hfound
    refine ⟨q, ?_, heq⟩
    rw [orphansOf, List.mem_mergeSort, List.mem_filter]
    refine ⟨(mem_eraseDupsBy_iff (f := Path.components)).2 ?_, ?_⟩
    · rwa [heq]
    · simpa [Path.same, heq] using hc

theorem pairwise_orphansOf :
    (orphansOf existing claims).Pairwise fun p q => p.components ≠ q.components := by
  have hsorted := List.mergeSort_perm
    ((existing.eraseDupsBy Path.same).filter fun p => !claims.any fun c => c.path.same p) Path.le
  refine (hsorted.pairwise_iff fun h => Ne.symm h).2 ?_
  exact (pairwise_eraseDupsBy (f := Path.components)).filter _

/-! ## Numbers -/

namespace Settlement

/-- Marking outputs as deleted one after the other. -/
theorem records_foldl_mark (s : Settlement) (orphans : List Path) :
    (orphans.foldl (fun s p => s.mark p .deleted) s).records = s.records.map fun r =>
      if orphans.any r.path.same then { r with state := .deleted } else r := by
  induction orphans generalizing s with
  | nil => simp
  | cons p rest ih =>
    rw [List.foldl_cons, ih, mark, List.map_map]
    refine List.map_congr_left fun r _ => ?_
    simp only [Function.comp_apply, List.any_cons]
    by_cases hp : r.path.same p = true
    · simp [hp]
    · simp [hp]

/-- How many outputs are in a state of some sort after the orphans have been deleted: the claims
count that hold, and the orphans if being deleted is of that sort. -/
theorem countP_deleted (existing : List Path) (claims : List Claim) (sort : OutputState → Bool) :
    ((orphansOf existing claims).foldl (fun s p => s.mark p .deleted)
        (settle existing claims)).records.countP (fun r => sort r.state)
      = (winners claims).countP (fun c => sort c.action.state)
        + (if sort .deleted then (orphansOf existing claims).length else 0) := by
  rw [records_foldl_mark, List.countP_map]
  simp only [settle]
  rw [(List.mergeSort_perm _ _).countP_eq, List.countP_append, List.countP_map, List.countP_map]
  congr 1
  · refine List.countP_congr fun c hc => ?_
    have hclaimed : (orphansOf existing claims).any c.path.same = false := by
      rw [List.any_eq_false]
      intro p hp
      rw [not_same_of_mem_orphansOf hp (mem_of_mem_winners hc)]
      exact Bool.false_ne_true
    simp only [Function.comp_apply, Claim.record, hclaimed, Bool.false_eq_true, if_false]
  · have hall : ∀ p ∈ orphansOf existing claims, (orphansOf existing claims).any p.same = true := by
      intro p hp
      rw [List.any_eq_true]
      exact ⟨p, hp, by simp [Path.same]⟩
    have hdeleted : ∀ p ∈ orphansOf existing claims,
        (((fun r : OutputRecord => sort r.state) ∘ fun r =>
            if (orphansOf existing claims).any r.path.same then { r with state := .deleted } else r)
          ∘ (OutputRecord.mk · .unclaimed)) p = true ↔ sort .deleted = true := by
      intro p hp
      simp only [Function.comp_apply, hall p hp, if_true]
    rw [List.countP_congr (q := fun _ => sort .deleted) hdeleted]
    cases sort .deleted <;> simp

end Settlement

end Stencil
