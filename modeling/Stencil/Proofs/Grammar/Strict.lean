import Stencil.Proofs.Grammar.Reads

/-!
# Forms that hold a token

A form is strict if no run of that form is empty. A form that is put together is strict as soon as
one of its parts is.

Results: every node of a tree but an expression holds at least one token (`strict_reads` for each),
and an expression is empty exactly if it has no elements (`Elem.readsAll_eq_nil_iff`).
-/

namespace Stencil

open Stretch

namespace Stretch

variable {a b : Stretch} {s : Script}

/-- Does every run of the form hold a token? -/
def Strict (a : Stretch) : Prop :=
  ∀ ⦃p q⦄, a p q → p < q

theorem strict_wordOf {P : Kind → Prop} : (wordOf s P).Strict :=
  fun p q h => by
    rw [h.2]
    exact p.lt_succ_self

theorem strict_word {k : Kind} : (word s k).Strict :=
  strict_wordOf

theorem strict_nameOf {i : Ident} : (nameOf s i).Strict :=
  fun p q h => by
    rw [h.2.2]
    exact p.lt_succ_self

theorem Strict.left (h : a.Strict) : (a ++ b).Strict :=
  fun _ _ ⟨_, ha, hb⟩ => Nat.lt_of_lt_of_le (h ha) (b.le hb)

theorem Strict.right (h : b.Strict) : (a ++ b).Strict :=
  fun _ _ ⟨_, ha, hb⟩ => Nat.lt_of_le_of_lt (a.le ha) (h hb)

theorem Strict.within {e : Extent} (h : a.Strict) : (within e a).Strict :=
  fun _ _ ha => h ha.1

theorem Strict.given {c : Prop} (h : a.Strict) : (given c a).Strict :=
  fun _ _ ha => h ha.2

end Stretch

variable {s : Script}

/-! ## Names and types -/

theorem Ident.strict_readsBehind {lead : Stretch} {is : List Ident} (h : is ≠ []) :
    (Ident.readsBehind s lead is).Strict := by
  cases is with
  | nil => contradiction
  | cons i is => exact .left (.right strict_nameOf)

theorem QualifiedName.strict_reads (n : QualifiedName) : (n.reads s).Strict := by
  intro p q h
  obtain ⟨⟨hne, h⟩, -⟩ := h
  exact Ident.strict_readsBehind hne h

theorem AnnotationUse.strict_reads : ∀ a : AnnotationUse, (a.reads s).Strict
  | ⟨_, _, _⟩ => .within (.left (.left strict_word))

theorem TypeCore.strict_reads : ∀ c : TypeCore, (c.reads s).Strict
  | .primitive _ => .given strict_word
  | .named [] => fun _ _ h => absurd rfl h.1
  | .named (⟨_, _⟩ :: _) => .given (.left (.left (.right strict_nameOf)))

theorem TypeExpr.strict_reads : ∀ t : TypeExpr, (t.reads s).Strict
  | ⟨_, core, _, _⟩ => .within (.left (.right core.strict_reads))

theorem TypeArgs.strict_reads : ∀ a : TypeArgs, (a.reads s).Strict
  | ⟨_, _⟩ => .within (.right strict_word)

theorem TypeParam.strict_reads : ∀ a : TypeParam, (a.reads s).Strict
  | ⟨_, _, _, _⟩ => .within (.left (.right strict_nameOf))

/-! ## Bodies -/

theorem Group.strict_reads : ∀ g : Group, (g.reads s).Strict
  | ⟨_, _, _⟩ => .within (.right strict_word)

theorem IntrinsicCall.strict_reads : ∀ c : IntrinsicCall, (c.reads s).Strict
  | ⟨_, _, _, _, _⟩ => .within (.given (.right strict_word))

theorem ClassBody.strict_reads : ∀ b : ClassBody, (b.reads s).Strict
  | ⟨_, _, _⟩ => .within (.right strict_word)

theorem TypeDecl.strict_reads : ∀ d : TypeDecl, (d.reads s).Strict
  | ⟨_, _, _, _, _, _, body, _⟩ => .within (.right body.strict_reads)

theorem Elem.strict_reads : ∀ e : Elem, (e.reads s).Strict
  | .token _ => .within strict_wordOf
  | .ident _ => strict_nameOf
  | .type t => t.strict_reads
  | .typeArgs a => a.strict_reads
  | .group g => g.strict_reads
  | .intrinsic c => c.strict_reads
  | .anonymous b => b.strict_reads
  | .localType d => d.strict_reads

/-- Elements take up no tokens exactly if there are none. -/
theorem Elem.readsAll_eq_nil_iff {es : List Elem} {p q : Nat} (h : Elem.readsAll s es p q) :
    es = [] ↔ p = q := by
  cases es with
  | nil => exact iff_of_true rfl (empty_iff.1 h)
  | cons e es =>
    have hlt : p < q := Strict.left e.strict_reads h
    exact iff_of_false (by simp) (Nat.ne_of_lt hlt)

/-! ## Members -/

theorem FieldDecl.strict_reads : ∀ f : FieldDecl, (f.reads s).Strict
  | ⟨_, _, _, _⟩ => .within (.right strict_word)

theorem Group.strict_readsOr_semicolon : ∀ g : Option Group,
    (Group.readsOr s (word s .semicolon) g).Strict
  | none => strict_word
  | some g => g.strict_reads

theorem MethodDecl.strict_reads : ∀ d : MethodDecl, (d.reads s).Strict
  | ⟨_, _, _, _, _, _, _, _, body, _⟩ => .within (.right (Group.strict_readsOr_semicolon body))

theorem Param.strict_reads : ∀ a : Param, (a.reads s).Strict
  | ⟨_, _, _, _, _, _⟩ => .within (.left (.right strict_nameOf))

end Stencil
