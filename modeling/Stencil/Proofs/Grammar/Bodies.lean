import Stencil.Proofs.Grammar.Declarations

/-!
# What the rules for bodies find

The elements that the rules find in a body read the tokens passed one after the other, so no token
of a body is left out and none is read twice.

Results: what is found for an intrinsic call and for the elements of a body reads the tokens passed
(`reads_of_intrinsicCall`, `readsAll_of_elem`, `readsAll_of_elems`).
-/

namespace Stencil

namespace Grammar

open Rule Stretch

variable {s : Script} {p q : Nat} {g : Nested}

/-! ## Intrinsic calls -/

theorem run_intrinsicFollows {b : Bool} (h : intrinsicFollows.run s p = .ok b q) :
    q = p ∧ (b = true → (s.word p).text = s.receiver) := by
  simp [intrinsicFollows, and_assoc] at h
  obtain ⟨k, m, hm, h⟩ := h
  obtain rfl := run_previousKind hm
  rcases h with ⟨hr, -, -, h⟩ | ⟨-, rfl, rfl⟩
  · refine ⟨?_, fun _ => hr⟩
    split at h <;> simp at h <;> exact h.2.symm
  · simp

theorem reads_of_callArgs (hg : g.Sound s) {as : List Expr} (h : (callArgs g).run s p = .ok as q) :
    (word s .leftParen ++ Expr.readsBehind s .empty as ++ word s .rightParen) p q := by
  simp [callArgs, and_assoc] at h
  obtain ⟨hp, ⟨hm, rfl, rfl⟩ | ⟨-, m, ha, hm, rfl⟩⟩ := h
  · exact ⟨p + 1, ⟨p + 1, ⟨hp, rfl⟩, rfl⟩, hm, rfl⟩
  · have has := list_of_sepBy (R := Expr.readsBehind s) (by simp) (fun _ => rfl)
      (fun _ _ _ => rfl) (reads_of_expr hg) (empty_iff.2 rfl) ha
    exact ⟨m, ⟨p + 1, ⟨hp, rfl⟩, has.2⟩, hm, rfl⟩

theorem reads_of_intrinsicCall (hg : g.Sound s) (hname : (s.word p).text = s.receiver)
    {c : IntrinsicCall} (h : (intrinsicCall g).run s p = .ok c q) : c.reads s p q := by
  simp [intrinsicCall, and_assoc] at h
  obtain ⟨hp, hdot, hint, m₁, hh, hi, as, has, rfl⟩ := h
  obtain ⟨m₃, ⟨m₄, hl, has⟩, hr⟩ := reads_of_callArgs hg has
  have hh := reads_of_optionalTypeArgs hg hh
  have hi : (nameOf s ⟨(s.word p).text, p⟩ ++ word s .dot ++ TypeArgs.reads? s hint
      ++ nameOf s ⟨(s.word m₁).text, m₁⟩) p (m₁ + 1) :=
    ⟨m₁, ⟨p + 1 + 1, ⟨p + 1, ⟨hp, rfl, rfl⟩, hdot, rfl⟩, hh⟩, hi, rfl, rfl⟩
  exact ⟨⟨hname, m₃, ⟨m₄, ⟨m₁ + 1, hi, hl⟩, has⟩, hr⟩, rfl⟩

/-! ## Generic types -/

theorem reads_of_genericType (hg : g.Sound s) {t : TypeExpr}
    (h : (genericType g).run s p = .ok t q) : t.reads s p q := by
  simp [genericType, and_assoc] at h
  obtain ⟨k, m, hm, base, m₁, hb, -, n, hn, -, rfl⟩ := h
  obtain rfl := run_previousKind hm
  obtain ⟨core, hc, rfl⟩ := exists_core_of_classType hg hb
  exact reads_of_core hc (dims_of_dims hn)

theorem reads_of_genericType? (hg : g.Sound s) {t : Option TypeExpr}
    (h : (genericType? g).run s p = .ok t q) : TypeExpr.reads? s t p q := by
  simp [genericType?, and_assoc] at h
  obtain ⟨k, m, hm, h⟩ := h
  obtain rfl := run_previousKind hm
  rcases h with ⟨-, rfl, rfl⟩ | ⟨-, ⟨-, h⟩ | ⟨-, -, rfl, rfl⟩⟩
  · rfl
  · rcases attempt_ok h with ⟨t, rfl, ht⟩ | ⟨rfl, rfl⟩
    · exact reads_of_genericType hg ht
    · rfl
  · rfl

/-! ## Elements -/

/-- Type arguments as elements, if there are any. -/
theorem readsAll_of_hint {a : Option TypeArgs} (h : TypeArgs.reads? s a p q) :
    Elem.readsAll s (a.map Elem.typeArgs).toList p q := by
  cases a with
  | none => exact h
  | some a => exact ⟨q, h, rfl⟩

theorem readsAll_of_creator (hg : g.Sound s) {es : List Elem}
    (h : (creator g).run s p = .ok es q) : Elem.readsAll s es p q := by
  simp [creator, and_assoc] at h
  obtain ⟨hint, m₁, hh, h⟩ := h
  have hh := readsAll_of_hint (reads_of_optionalTypeArgs hg hh)
  rcases h with ⟨-, rfl, rfl⟩ | ⟨-, -, t, m₂, ht, args, m₃, ha, b, hb, rfl⟩
  · exact hh
  · have ht := reads_of_classType hg ht
    have ha : Elem.readsAll s (args.map Elem.group).toList m₂ m₃ := by
      cases args with
      | none => exact reads_of_optionalGroup hg ha
      | some a => exact ⟨m₃, reads_of_optionalGroup hg ha, rfl⟩
    have hb : Elem.readsAll s (b.map Elem.anonymous).toList m₃ q := by
      rcases hb with ⟨-, -, b, hb, rfl⟩ | ⟨-, rfl, rfl⟩
      · exact ⟨q, hg.classBody hb, rfl⟩
      · rfl
    exact Elem.readsAll_append hh ⟨m₂, ht, Elem.readsAll_append ha hb⟩

theorem reads_of_namedElem (hg : g.Sound s) {e : Elem} (h : (namedElem g).run s p = .ok e q) :
    e.reads s p q := by
  simp [namedElem] at h
  rcases h with ⟨m, hm, t, m₁, ht, h⟩ | ⟨m, hm, c, hc, rfl⟩
  · obtain rfl := (run_intrinsicFollows hm).1
    have ht := reads_of_genericType? hg ht
    cases t with
    | some t =>
      simp at h
      obtain ⟨rfl, rfl⟩ := h
      exact ht
    | none =>
      simp at h
      obtain ⟨⟨hi, rfl⟩, rfl⟩ := h
      obtain rfl := empty_iff.1 ht
      exact ⟨hi, rfl, rfl⟩
  · obtain ⟨rfl, hr⟩ := run_intrinsicFollows hm
    exact reads_of_intrinsicCall hg (hr rfl) hc

theorem reads_of_plainToken {e : Elem} (hk : (s.kind p).IsPlain)
    (h : plainToken.run s p = .ok e q) : e.reads s p q := by
  simp [plainToken, and_assoc] at h
  obtain ⟨⟨u, hu⟩, rfl⟩ := h
  rw [run_advance_of_kind hk.1] at hu
  subst hu
  exact ⟨⟨hk, rfl⟩, rfl⟩

theorem readsAll_of_elem (hg : g.Sound s) {es : List Elem} (he : s.kind p ≠ .eof)
    (hc : (s.kind p).isCloseDelimiter = false) (h : (elem g).run s p = .ok es q) :
    Elem.readsAll s es p q := by
  simp [elem, and_assoc] at h
  rcases h with ⟨-, b, hb, rfl⟩ | ⟨ho, h⟩
  · exact Elem.readsAll_singleton.2 (reads_of_group hg hb)
  have plain {e : Elem} {m : Nat} (hi : s.kind p ≠ .identifier) (h : plainToken.run s p = .ok e m) :
      e.reads s p m :=
    reads_of_plainToken ⟨he, hi, ho, hc⟩ h
  rcases h with ⟨hk, e, m, hf, es, hes, rfl⟩ | ⟨-, k, m, hm, h⟩
  · exact ⟨m, plain (by simp [hk]) hf, readsAll_of_creator hg hes⟩
  obtain rfl := run_previousKind hm
  rcases h with ⟨-, -, d, hd, rfl⟩ | ⟨-, ⟨hk, -, e, m, hf, a, ha, rfl⟩ | ⟨-, h⟩⟩
  · have hms : Modifiers.reads s ⟨[], []⟩ p p := ⟨by simp, rfl⟩
    exact Elem.readsAll_singleton.2 (reads_of_typeDeclFrom hg hms hd)
  · exact ⟨m, plain (by simp [hk]) hf, q, reads_of_typeArgs hg ha, rfl⟩
  rcases h with ⟨-, e, hn, rfl⟩ | ⟨hi, e, hf, rfl⟩
  · exact Elem.readsAll_singleton.2 (reads_of_namedElem hg hn)
  · exact Elem.readsAll_singleton.2 (plain hi hf)

theorem run_elemFollows {u b : Bool} (h : (elemFollows u).run s p = .ok b q) :
    q = p ∧ (b = true → s.kind p ≠ .eof ∧ (s.kind p).isCloseDelimiter = false) := by
  simp only [elemFollows, run_bind, run_kind, run_pure] at h
  obtain ⟨_, _, ⟨rfl, rfl⟩, rfl, rfl⟩ := h
  refine ⟨rfl, fun h => ?_⟩
  simp at h
  exact ⟨h.1.1, h.1.2⟩

theorem readsAll_of_elems (hg : g.Sound s) {u : Bool} {es : List Elem}
    (h : (elems g u).run s p = .ok es q) : Elem.readsAll s es p q := by
  simp [elems] at h
  obtain ⟨ess, h, rfl⟩ := h
  refine manyWhile_induction (P := fun ess => Elem.readsAll s ess.flatten) ?_ ?_ h
  · intro p q h
    exact (run_elemFollows h).1.symm
  · intro p m n q es ess hm he ih
    obtain ⟨rfl, hk⟩ := run_elemFollows hm
    exact Elem.readsAll_append (readsAll_of_elem hg (hk rfl).1 (hk rfl).2 he) ih

/-! ## Type arguments among elements -/

theorem areOrderly_of_false {es : List Elem} (h : Elem.areOrderly false es = true) (b : Bool) :
    Elem.areOrderly b es = true := by
  match es with
  | [] => rfl
  | .typeArgs _ :: _ => contradiction
  | .token _ :: _ | .ident _ :: _ | .type _ :: _ | .group _ :: _ | .intrinsic _ :: _
  | .anonymous _ :: _ | .localType _ :: _ => exact h

theorem areOrderly_append {es fs : List Elem} {b : Bool} (he : Elem.areOrderly b es = true)
    (hf : Elem.areOrderly false fs = true) : Elem.areOrderly b (es ++ fs) = true := by
  induction es generalizing b with
  | nil => exact areOrderly_of_false hf b
  | cons e es ih =>
    cases e with
    | typeArgs a =>
      obtain ⟨hb, he⟩ := Bool.and_eq_true_iff.1 he
      exact Bool.and_eq_true_iff.2 ⟨hb, ih he⟩
    | _ => exact ih he

theorem areOrderly_of_creator {es : List Elem} (h : (creator g).run s p = .ok es q) :
    Elem.areOrderly true es = true := by
  simp [creator, and_assoc] at h
  obtain ⟨hint, m₁, -, h⟩ := h
  rcases h with ⟨-, rfl, rfl⟩ | ⟨-, -, t, m₂, -, args, m₃, -, b, -, rfl⟩
  · cases hint <;> rfl
  · cases hint <;> cases args <;> cases b <;> rfl

theorem areOrderly_of_elem {es : List Elem} (h : (elem g).run s p = .ok es q) :
    Elem.areOrderly false es = true := by
  have plain {e : Elem} {m : Nat} (h : plainToken.run s p = .ok e m) : ∃ n, e = .token n := by
    simp [plainToken, and_assoc] at h
    exact ⟨p, h.2.symm⟩
  have named {e : Elem} {m n : Nat} (h : (namedElem g).run s n = .ok e m) :
      Elem.areOrderly false [e] = true := by
    simp [namedElem] at h
    rcases h with ⟨_, _, t, _, _, h⟩ | ⟨_, _, c, _, rfl⟩
    · cases t with
      | some t =>
        simp at h
        obtain ⟨rfl, -⟩ := h
        rfl
      | none =>
        simp at h
        obtain ⟨⟨-, -⟩, rfl⟩ := h
        rfl
    · rfl
  simp [elem, and_assoc] at h
  rcases h with ⟨-, b, -, rfl⟩ | ⟨-, ⟨-, e, m, he, es, hes, rfl⟩ | ⟨-, k, m, hm, h⟩⟩
  · rfl
  · obtain ⟨n, rfl⟩ := plain he
    exact areOrderly_of_creator hes
  obtain rfl := run_previousKind hm
  rcases h with ⟨-, -, d, -, rfl⟩ | ⟨-, ⟨-, -, e, m, he, a, -, rfl⟩ | ⟨-, ⟨-, e, he, rfl⟩ | ⟨-, e, he, rfl⟩⟩⟩
  · rfl
  · obtain ⟨n, rfl⟩ := plain he
    rfl
  · exact named he
  · obtain ⟨n, rfl⟩ := plain he
    rfl

/-- Lists of type arguments are found behind a dot or `new` only. -/
theorem areOrderly_of_elems {u : Bool} {es : List Elem} (h : (elems g u).run s p = .ok es q) :
    Elem.areOrderly false es = true := by
  simp [elems] at h
  obtain ⟨ess, h, rfl⟩ := h
  refine manyWhile_induction (P := fun ess _ _ => Elem.areOrderly false ess.flatten = true) ?_ ?_ h
  · exact fun _ _ _ => rfl
  · exact fun _ _ _ _ es ess _ he ih => areOrderly_append (areOrderly_of_elem he) ih

end Grammar

end Stencil
