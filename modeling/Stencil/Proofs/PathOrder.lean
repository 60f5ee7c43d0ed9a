import Mathlib.Data.List.Basic
import Stencil.Path

/-!
# The order of paths

Paths are ordered by their components, as lists of components are ordered by the order of single
ones. It is a linear order on paths that have other components.

Results: components and lists of them are linearly ordered (the instances of `TransCmp`), so paths are
(`le_trans`, `le_total`), and paths that are in order and have other components are strictly in order
(`order_lt_of_le`).
-/

namespace Stencil

namespace Component

/-- The name, if the component is one, and else nothing. -/
def name : Component → String
  | .normal name => name
  | _ => ""

/-- Ranks are compared first, and names only where the ranks are equal. -/
theorem order_eq_compareLex : order = compareLex (compareOn rank) (compareOn name) := by
  funext a b
  cases a with
  | normal x =>
    cases b with
    | normal y => rfl
    | _ => rfl
  | _ => cases b <;> rfl

instance : Std.TransCmp order := by
  rw [order_eq_compareLex]
  infer_instance

end Component

namespace Path

theorem componentsOrder_eq_compareLex (as bs : List Component) :
    componentsOrder as bs = List.compareLex Component.order as bs := by
  induction as generalizing bs with
  | nil => cases bs <;> rfl
  | cons a as ih =>
    cases bs with
    | nil => rfl
    | cons b bs => rw [componentsOrder, List.compareLex_cons_cons, ih]

instance : Std.TransCmp componentsOrder := by
  rw [show componentsOrder = List.compareLex Component.order from
    funext fun as => funext fun bs => componentsOrder_eq_compareLex as bs]
  infer_instance

theorem componentsOrder_swap (as bs : List Component) :
    componentsOrder as bs = (componentsOrder bs as).swap :=
  Std.OrientedCmp.eq_swap

theorem order_swap (p q : Path) : p.order q = (q.order p).swap :=
  componentsOrder_swap p.components q.components

theorem le_trans (p q r : Path) (h : p.le q = true) (h' : q.le r = true) : p.le r = true :=
  @Std.TransCmp.isLE_trans _ componentsOrder _ p.components q.components r.components h h'

variable {p q : Path}

theorem le_total (p q : Path) : (p.le q || q.le p) = true := by
  rw [le, le, order_swap q]
  cases p.order q <;> rfl

theorem order_lt_of_le (h : p.le q = true) (hne : p.components ≠ q.components) :
    p.order q = .lt := by
  rw [Ne, ← order_eq_eq_iff] at hne
  rw [le] at h
  cases horder : p.order q with
  | lt => rfl
  | eq => exact absurd horder hne
  | gt => simp [horder] at h

end Path

end Stencil
