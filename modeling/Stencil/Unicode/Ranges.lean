/-!
# Sets of code points

A set of code points is a list of closed intervals in ascending order. Membership stops at the
first interval that ends at or after the code point.

Results: a code point that a list of intervals contains lies in one of them
(`Ranges.exists_mem_of_contains`).
-/

namespace Stencil.Unicode

/-- Closed intervals of code points, ascending and disjoint. -/
abbrev Ranges := List (Nat × Nat)

namespace Ranges

/-- Is the code point in one of the intervals? Later intervals start higher, so the search stops at
the first interval that does not lie wholly below the code point. -/
def contains : Ranges → Nat → Bool
  | [], _ => false
  | (first, last) :: rest, n => if n ≤ last then decide (first ≤ n) else contains rest n

theorem exists_mem_of_contains {rs : Ranges} {n : Nat} (h : rs.contains n = true) :
    ∃ r ∈ rs, r.1 ≤ n ∧ n ≤ r.2 := by
  induction rs with
  | nil => simp [contains] at h
  | cons r rest ih =>
    obtain ⟨first, last⟩ := r
    by_cases hn : n ≤ last
    · exact ⟨(first, last), by simp, by simpa [contains, hn] using h, hn⟩
    · obtain ⟨r, hr, hb⟩ := ih (by simpa [contains, hn] using h)
      exact ⟨r, List.mem_cons_of_mem _ hr, hb⟩

end Ranges

end Stencil.Unicode
