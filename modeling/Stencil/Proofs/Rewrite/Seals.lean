import Stencil.Proofs.Grammar.Part
import Stencil.Proofs.Rewrite.Nests

/-!
# Arguments that show no operator

An argument stands without parentheses beside an operator if none of its elements is an operator. What
is rewritten is the text of these elements, and in there calls have become sums and comparisons. Still no
operator shows: an element that is no token is a name, a type, a list, a group, a body or a declaration,
and what it becomes has its operators in brackets or in lists of type arguments and type parameters.

Results: the types and declarations of a part show no operator but for the lists in the part
(`TypeExpr.seals`, `TypeDecl.seals`), and neither do the arguments of a call that need no parentheses
(`IntrinsicCall.operands`).
-/

namespace Stencil.Rewrite

open Stretch

variable {j : Job} {text : String} {r : Part} {lists : List Mark → Prop}

/-! ## Lists of a part -/

/-- Are these the tokens of a list of type arguments or type parameters in the part, as it is written
in the end, with its brackets well nested? -/
inductive Listed (j : Job) (r : Part) : List Mark → Prop where
  | typeArgs {a : Stencil.TypeArgs} (owner : Option String) (ha : r.Holds (.typeArgs a))
    (hbalanced : Balanced (j.marks (j.rendered a.extent ((TypeArgs.outline owner a).patches j)))) :
    Listed j r (j.marks (j.rendered a.extent ((TypeArgs.outline owner a).patches j)))
  | typeParams {x : Part} {a : Stencil.TypeParams} (hx : r.Holds x) (ha : x.typeParams? = some a)
    (hbalanced : Balanced (j.marks (j.rendered a.extent
      (Outline.patchesAll j (TypeParams.outline? (some a)))))) :
    Listed j r (j.marks (j.rendered a.extent (Outline.patchesAll j (TypeParams.outline? (some a)))))

theorem Listed.balanced {xs : List Mark} (h : Listed j r xs) : Balanced xs := by
  cases h with
  | typeArgs _ _ hbalanced => exact hbalanced
  | typeParams _ _ hbalanced => exact hbalanced

theorem Sealed.single {x : Mark} (hbracket : x.kind.isBracket = false) (hjoins : x.kind.joins = false) :
    Sealed lists [x] :=
  .word hbracket hjoins .nil

/-! ## Stretches that show no operator -/

/-- With the patches of the outline put in, does each such stretch show no operator but for the lists? -/
def Seals (j : Job) (lists : List Mark → Prop) (a : Stretch) (os : List Outline) : Prop :=
  Keeps j (Sealed lists) a (Outline.patchesAll j os)

namespace Seals

variable {a b : Stretch} {os os' : List Outline}

theorem within {e : Extent} (h : Seals j lists a os) : Seals j lists (within e a) os :=
  Keeps.within h

theorem given {c : Prop} (h : Seals j lists a os) : Seals j lists (given c a) os :=
  Keeps.given h

theorem congr (h : Seals j lists a os) (ho : os = os') : Seals j lists a os' :=
  ho ▸ h

theorem empty : Seals j lists .empty [] :=
  Keeps.empty joint_sealed

variable (hj : j.IsApt text)
include hj

theorem append (ha : Seals j lists a os) (hb : Seals j lists b os') :
    Seals j lists (a ++ b) (os ++ os') := by
  rw [Seals, Outline.patchesAll_append]
  exact Keeps.append hj.toIsReady joint_sealed ha hb

theorem behind (hb : Seals j lists b []) (ha : Seals j lists a os) : Seals j lists (b ++ a) os :=
  hb.append hj ha

theorem front (ha : Seals j lists a os) (hb : Seals j lists b []) : Seals j lists (a ++ b) os :=
  (ha.append hj hb).congr (List.append_nil os)

theorem word {k : Kind} (hbracket : k.isBracket = false) (hjoins : k.joins = false) :
    Seals j lists (word j.script k) [] :=
  Keeps.word hj.toIsReady fun _ h => .single (h ▸ hbracket) (h ▸ hjoins)

theorem words {ks : List Kind} (hks : ∀ k ∈ ks, k.isBracket = false ∧ k.joins = false) :
    Seals j lists (words j.script ks) [] :=
  Keeps.words hj.toIsReady joint_sealed fun k hk _ h => .single (h ▸ (hks k hk).1) (h ▸ (hks k hk).2)

theorem dims (n : Nat) : Seals j lists (Stretch.dims j.script n) [] :=
  Keeps.dims hj.toIsReady joint_sealed n

omit hj in
theorem joins_of_word {k : Kind} (hk : k = .identifier ∨ k.isPrimitiveType = true) : k.joins = false := by
  rcases hk with rfl | hk
  · rfl
  · revert hk
    cases k <;> decide

theorem name (i : Ident) : Seals j lists (nameOf j.script i) [.name i] := by
  rw [Seals, Outline.patchesAll, Outline.patches, Outline.patchesAll, List.append_nil]
  exact .nameOf hj.toIsReady (fun _ h => .single (Nests.isBracket_of_word h) (joins_of_word h))
    isWordText_ident

theorem part (i : Ident) (args : List TypeArg) : Seals j lists (nameOf j.script i) [.part i args] := by
  rw [Seals, Outline.patchesAll, Outline.patches, Outline.patchesAll, List.append_nil]
  exact .nameOf hj.toIsReady (fun _ h => .single (Nests.isBracket_of_word h) (joins_of_word h))
    (isWordText_segment args)

/-- What is in a pair of brackets does not show. -/
theorem pair (d : Delimiter) (ha : Nests j a os) : Seals j lists
    (Stretch.word j.script d.opening ++ a ++ Stretch.word j.script d.closing) os :=
  ha.patched.pair hj.toIsReady joint_sealed d

end Seals

/-! ## Types and declarations -/

theorem QualifiedName.seals (hj : j.IsApt text) (n : Stencil.QualifiedName) :
    Seals j lists (n.reads j.script) (QualifiedName.outline n) := by
  have behind {is : List Ident} : ∀ {lead : Stretch}, Seals j lists lead [] →
      Seals j lists (Ident.readsBehind j.script lead is) (is.map .name) := by
    induction is with
    | nil => exact fun _ => .empty
    | cons i is ih => exact fun hl => ((hl.behind hj (.name hj i)).append hj (ih (.word hj rfl rfl)))
  exact .within (.given (behind .empty))

theorem Group.seals (hj : j.IsApt text) (g : Stencil.Group) :
    Seals j lists (g.reads j.script) (Group.outline g) := by
  obtain ⟨d, elems, extent⟩ := g
  exact .within (.pair hj d (Elem.nestsAll hj elems))

theorem AnnotationUse.seals (hj : j.IsApt text) : ∀ a : Stencil.AnnotationUse,
    Seals j lists (a.reads j.script) (AnnotationUse.outline a)
  | ⟨name, none, _⟩ => .within (((Seals.word hj rfl rfl).behind hj (QualifiedName.seals hj name)).append hj
      .empty)
  | ⟨name, some g, _⟩ => .within (((Seals.word hj rfl rfl).behind hj (QualifiedName.seals hj name)).append
      hj (Group.seals hj g))

theorem AnnotationUse.sealsAll (hj : j.IsApt text) (as : List Stencil.AnnotationUse) :
    Seals j lists (AnnotationUse.readsAll j.script as) (AnnotationUse.outlines as) := by
  induction as with
  | nil => exact .empty
  | cons a rest ih => exact (AnnotationUse.seals hj a).append hj ih

theorem joins_of_isModifier {k : Kind} (h : k.isModifier = true) : k.joins = false := by
  revert h
  cases k <;> decide

theorem AnnotationUse.sealsAmong (hj : j.IsApt text) {as : List Stencil.AnnotationUse}
    {flags : List Kind} (hflags : ∀ k ∈ flags, k.isModifier = true) :
    Seals j lists (AnnotationUse.readsAmong j.script as flags) (AnnotationUse.outlines as) := by
  have hquiet : ∀ k ∈ flags, k.isBracket = false ∧ k.joins = false := fun k hk =>
    ⟨isBracket_of_isModifier (hflags k hk), joins_of_isModifier (hflags k hk)⟩
  induction as generalizing flags with
  | nil => exact .words hj hquiet
  | cons a rest ih =>
    refine Keeps.any fun n => ?_
    have hfront : Seals j lists (words j.script (flags.take n)) [] :=
      .words hj fun k hk => hquiet k (List.mem_of_mem_take hk)
    exact (hfront.behind hj (AnnotationUse.seals hj a)).append hj
      (ih (fun k hk => hflags k (List.mem_of_mem_drop hk)) fun k hk => hquiet k (List.mem_of_mem_drop hk))

theorem Modifiers.seals (hj : j.IsApt text) (ms : Stencil.Modifiers) :
    Seals j lists (ms.reads j.script) (Modifiers.outline ms) := by
  obtain ⟨flags, annotations⟩ := ms
  rintro p q ⟨hflags, h⟩ hq
  exact AnnotationUse.sealsAmong hj hflags h hq

/-- The list of a part is one of the lists that do not count. -/
theorem TypeArgs.seals (hj : j.IsApt text) (owner : Option String) {a : Stencil.TypeArgs}
    (ha : r.Holds (.typeArgs a)) : Seals j (Listed j r) (a.reads j.script) [TypeArgs.outline owner a] := by
  intro p q h hq
  have hpatches : Outline.patchesAll j [TypeArgs.outline owner a] = (TypeArgs.outline owner a).patches j := by
    rw [Outline.patchesAll, Outline.patchesAll, List.append_nil]
  obtain ⟨xs, hxs, hbalanced⟩ := (TypeArgs.nests hj owner a).patched h hq
  refine ⟨xs, hxs, ?_⟩
  have hmarks := hxs.marks_rendered hj.toIsReady hq
  rw [hpatches] at hmarks
  obtain ⟨entries, extent⟩ := a
  obtain ⟨-, rfl⟩ := h
  rw [← hmarks] at hbalanced ⊢
  exact .of_list (.typeArgs owner ha hbalanced)

theorem TypeParams.seals? (hj : j.IsApt text) {x : Part} (hx : r.Holds x) :
    Seals j (Listed j r) (TypeParams.reads? j.script x.typeParams?) (TypeParams.outline? x.typeParams?) := by
  cases ha : x.typeParams? with
  | none => exact .empty
  | some a =>
    intro p q h hq
    obtain ⟨xs, hxs, hbalanced⟩ := (TypeParams.nests? hj (some a)).patched h hq
    refine ⟨xs, hxs, ?_⟩
    have hmarks := hxs.marks_rendered hj.toIsReady hq
    obtain ⟨entries, extent⟩ := a
    obtain ⟨-, rfl⟩ := h
    rw [← hmarks] at hbalanced ⊢
    exact .of_list (.typeParams hx ha hbalanced)

theorem TypeSegment.sealsBehind (hj : j.IsApt text) {lead : Stretch} (hl : Seals j (Listed j r) lead []) :
    ∀ ss : List Stencil.TypeSegment, (∀ s ∈ ss, ∀ a ∈ s.args, r.Holds (.typeArgs a)) →
    Seals j (Listed j r) (TypeSegment.readsBehind j.script lead ss) (TypeSegment.outlines ss)
  | [], _ => .empty
  | ⟨i, none⟩ :: rest, h => ((hl.behind hj (.part hj i [])).front hj .empty).append hj
    (TypeSegment.sealsBehind hj (.word hj rfl rfl) rest fun s hs => h s (List.mem_cons_of_mem _ hs))
  | ⟨i, some args⟩ :: rest, h => by
    have hargs := TypeArgs.seals hj (some i.name) (h _ List.mem_cons_self args rfl)
    have hrest := TypeSegment.sealsBehind hj (.word hj (k := .dot) rfl rfl) rest
      fun s hs => h s (List.mem_cons_of_mem _ hs)
    exact ((hl.behind hj (.part hj i args.entries)).append hj hargs).append hj hrest

theorem TypeExpr.seals (hj : j.IsApt text) : ∀ {t : Stencil.TypeExpr}, r.Holds (.type t) →
    Seals j (Listed j r) (t.reads j.script) (TypeExpr.outline t)
  | ⟨annotations, .primitive k, dims, _⟩, _ => by
    have hcore : Seals j (Listed j r) (TypeCore.reads j.script (.primitive k)) [] := by
      rintro p q ⟨hk, h⟩ hq
      exact Seals.word hj (Nests.isBracket_of_word (.inr hk)) (Seals.joins_of_word (.inr hk)) h hq
    exact .within (((AnnotationUse.sealsAll hj annotations).append hj hcore).front hj (.dims hj dims))
  | ⟨annotations, .named segments, dims, _⟩, ht => by
    have hsegments := TypeSegment.sealsBehind hj .empty segments fun s hs a ha =>
      ht.tail (List.mem_append_right _ (List.mem_flatMap.2 ⟨s, hs, by simpa using ha⟩))
    exact .within (((AnnotationUse.sealsAll hj annotations).append hj (.given hsegments)).front hj
      (.dims hj dims))

theorem TypeExpr.sealsBehind (hj : j.IsApt text) {lead : Stretch} {k : Kind}
    (hl : Seals j (Listed j r) lead []) (hbracket : k.isBracket = false) (hjoins : k.joins = false) :
    ∀ ts : List Stencil.TypeExpr, (∀ t ∈ ts, r.Holds (.type t)) →
    Seals j (Listed j r) (TypeExpr.readsBehind j.script lead k ts) (TypeExpr.outlines ts)
  | [], _ => .empty
  | t :: rest, h => by
    rw [List.forall_mem_cons] at h
    exact (hl.behind hj (TypeExpr.seals hj h.1)).append hj
      (TypeExpr.sealsBehind hj (.word hj hbracket hjoins) hbracket hjoins rest h.2)

theorem ClassBody.seals (hj : j.IsApt text) (b : Stencil.ClassBody) :
    Seals j lists (b.reads j.script) (ClassBody.outline b) := by
  obtain ⟨constants, members, extent⟩ := b
  have hinner := (EnumConstant.nestsBehind hj .empty constants).append hj (Member.nestsAll hj members)
  refine .within ((Seals.pair hj .brace hinner).mono ?_)
  rintro p q ⟨m, ⟨m', ⟨n, hopening, hconstants⟩, hmembers⟩, hclosing⟩
  exact ⟨m, ⟨n, hopening, m', hconstants, hmembers⟩, hclosing⟩

theorem TypeDecl.seals (hj : j.IsApt text) : ∀ {d : Stencil.TypeDecl}, r.Holds (.typeDecl d) →
    Seals j (Listed j r) (d.reads j.script) (TypeDecl.outline d)
  | ⟨modifiers, kind, i, typeParams, supertypes, interfaces, body, extent⟩, hd => by
    have hwords : ∀ k ∈ kind.words, k.isBracket = false ∧ k.joins = false := by
      cases kind <;> decide
    have hparams := TypeParams.seals? hj hd
    have hsupertypes := TypeExpr.sealsBehind hj (.word hj (k := .kwExtends) rfl rfl) (k := .comma) rfl rfl
      supertypes fun t ht => hd.tail (by simp [Part.below, ht])
    have hinterfaces := TypeExpr.sealsBehind hj (.word hj (k := .kwImplements) rfl rfl) (k := .comma) rfl
      rfl interfaces fun t ht => hd.tail (by simp [Part.below, ht])
    have hhead := (((Modifiers.seals hj modifiers).front hj (.words hj hwords)).append hj
      (.name hj i)).append hj hparams
    have h := ((hhead.append hj hsupertypes).append hj hinterfaces).append hj (ClassBody.seals hj body)
    exact .within (h.congr (by simp [TypeDecl.outline, Part.typeParams?]))

/-! ## Arguments -/

theorem joins_of_not_isOperator {k : Kind} (h : Job.isOperator k = false) : k.joins = false := by
  revert h
  cases k <;> decide

/-- Is the element no token, or the token of no operator? -/
def Job.isQuiet (j : Job) : Elem → Bool
  | .token p => !isOperator (j.source.codeToken p).kind
  | _ => true

theorem isQuiet_of_isAtomic {es : List Elem} (h : j.isAtomic es = true) : ∀ e ∈ es, j.isQuiet e = true := by
  simp only [Job.isAtomic, Bool.and_eq_true, List.all_eq_true] at h
  intro e he
  have hquiet := h.2 e he
  cases e <;> first | rfl | exact hquiet

mutual

/-- The arguments of a call have well-nested brackets, and those that need no parentheses show no
operator. -/
theorem IntrinsicCall.operands (hj : j.IsApt text) : ∀ {c : Stencil.IntrinsicCall} {p q : Nat},
    r.Holds (.call c) → c.reads j.script p q → q ≤ j.source.code.size →
    Operands j (Listed j r) (Outline.chunkedOperands j (Expr.entries c.args))
  | ⟨rec, hint, i, args, extent⟩, p, q, hc, h, hq => by
    obtain ⟨-, -, a, b, -, -, hargs, hb⟩ := IntrinsicCall.exists_of_reads h
    have hheld (e : Stencil.Expr) (he : e ∈ args) : r.Holds (.expr e) :=
      hc.tail (by simp [Part.below, he])
    exact ⟨Expr.balanced_operands hj args hargs (by omega),
      Expr.sealed_operands hj args hheld hargs (by omega)⟩

theorem Expr.sealed_operands (hj : j.IsApt text) {lead : Stretch} : ∀ (es : List Stencil.Expr)
    {p q : Nat}, (∀ e ∈ es, r.Holds (.expr e)) → Expr.readsBehind j.script lead es p q →
    q ≤ j.source.code.size → ∀ a ∈ Outline.chunkedOperands j (Expr.entries es), a.atomic = true →
    Sealed (Listed j r) (j.marks a.chunks)
  | [], _, _, _, _, _ => by simp [Expr.entries, Outline.chunkedOperands]
  | ⟨elems, extent⟩ :: rest, p, q, hheld, ⟨m, ⟨m', _, he⟩, hrest⟩, hq => by
    rw [List.forall_mem_cons] at hheld
    have hm := Nat.le_trans ((Expr.readsBehind _ _ rest).le hrest) hq
    rw [Expr.entries, Outline.chunkedOperands]
    refine List.forall_mem_cons.2 ⟨fun hatomic => ?_, Expr.sealed_operands hj rest hheld.2 hrest hq⟩
    have helems := Elem.sealsAll hj elems (fun e he x hx => hheld.1.tail
      (List.mem_flatMap.2 ⟨e, he, by simpa using hx⟩)) (isQuiet_of_isAtomic hatomic)
    exact Keeps.rendered hj.toIsReady helems.given he hm

theorem Elem.sealsAll (hj : j.IsApt text) : ∀ es : List Stencil.Elem,
    (∀ e ∈ es, ∀ x ∈ e.part?, r.Holds x) → (∀ e ∈ es, j.isQuiet e = true) →
    Seals j (Listed j r) (Elem.readsAll j.script es) (Elem.outlines es)
  | [], _, _ => .empty
  | e :: rest, hheld, hquiet => by
    rw [List.forall_mem_cons] at hheld hquiet
    exact (Elem.seals hj e hheld.1 hquiet.1).append hj (Elem.sealsAll hj rest hheld.2 hquiet.2)

theorem Elem.seals (hj : j.IsApt text) : ∀ e : Stencil.Elem, (∀ x ∈ e.part?, r.Holds x) →
    j.isQuiet e = true → Seals j (Listed j r) (e.reads j.script) (Elem.outline e)
  | .token n, _, hquiet => by
    rintro p q ⟨⟨hplain, rfl⟩, hextent⟩ hq
    obtain rfl : n = p := congrArg Extent.first hextent
    rw [Source.kind_ofSource hq] at hplain
    have hbracket : (j.source.codeToken n).kind.isBracket = false := by
      simp [Kind.isBracket, hplain.2.2.1, hplain.2.2.2]
    have hjoins := joins_of_not_isOperator (by simpa [Job.isQuiet] using hquiet)
    exact ⟨_, .token hj.toIsReady hq, .single hbracket hjoins⟩
  | .ident i, _, _ => .name hj i
  | .type t, hheld, _ => TypeExpr.seals hj (hheld _ rfl)
  | .typeArgs a, hheld, _ => TypeArgs.seals hj none (hheld _ rfl)
  | .group g, _, _ => Group.seals hj g
  | .intrinsic ⟨rec, hint, i, args, extent⟩, hheld, _ => by
    rw [Elem.outline, Seals, Outline.patchesAll, Outline.patches, Outline.patchesAll, List.append_nil]
    intro p q h hq
    have hc : r.Holds (.call ⟨rec, hint, i, args, extent⟩) := hheld _ rfl
    have hsealed := sealed_callChunks hj (IntrinsicCall.operands hj hc h hq)
      fun _ => IntrinsicCall.balanced_variable hj h hq
    have hlt := IntrinsicCall.strict_reads _ h
    obtain ⟨-, rfl⟩ := h
    exact ⟨_, .patch_range hj.toIsReady hlt hq _, hsealed⟩
  | .anonymous body, _, _ => ClassBody.seals hj body
  | .localType d, hheld, _ => TypeDecl.seals hj (hheld _ rfl)

end

end Stencil.Rewrite
