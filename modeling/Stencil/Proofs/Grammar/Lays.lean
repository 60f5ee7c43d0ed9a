import Stencil.Proofs.Grammar.Declarations
import Stencil.Proofs.Grammar.Node

/-!
# Trees laid out by their nodes

A form lays out nodes if in every run of the form the nodes stand one after the other. The forms that
trees read are put together from words, names and the forms of smaller trees, and so are the nodes of
a tree from those of smaller trees.

Results: a form is laid out by the nodes of its parts one after the other (`Lays.append`), and every
tree lays out what it reads by its nodes (`lays_reads` for each sort, `CompilationUnit.lays_reads`).
-/

namespace Stencil

open Stretch

/-! ## Forms and the nodes in them -/

/-- Is every run of the form laid out by the nodes? -/
def Stretch.Lays (s : Script) (a : Stretch) (ns : List Node) : Prop :=
  ∀ ⦃p q⦄, a p q → Node.laidAll s ns p q

/-- Is every run of the form laid out by the nodes as long as at least one token follows? -/
def Stretch.LaysBefore (s : Script) (a : Stretch) (ns : List Node) : Prop :=
  ∀ ⦃p m q⦄ ⦃ms⦄, a p m → Node.laidAll s ms m q → m < q → Node.laidAll s (ns ++ ms) p q

namespace Stretch

variable {s : Script} {a b : Stretch} {ns ms : List Node}

theorem lays_empty : empty.Lays s [] := by
  intro p q h
  obtain rfl := empty_iff.1 h
  exact run_self

theorem lays_run {P : Kind → Prop} (hP : ∀ k, P k → k ≠ .eof) : (run s P).Lays s [] :=
  fun _ _ h => run_mono hP h

theorem lays_wordOf {P : Kind → Prop} (hP : ∀ k, P k → k ≠ .eof) : (wordOf s P).Lays s [] := by
  intro p q h
  obtain ⟨hp, rfl⟩ := h
  exact run_succ (hP _ hp)

theorem lays_word {k : Kind} (hk : k ≠ .eof) : (word s k).Lays s [] :=
  lays_wordOf fun _ h => h ▸ hk

theorem lays_nameOf {i : Ident} : (nameOf s i).Lays s [.name i] :=
  fun _ _ h => Node.laidAll_singleton h (by simp)

theorem Lays.append (ha : a.Lays s ns) (hb : b.Lays s ms) : (a ++ b).Lays s (ns ++ ms) :=
  fun _ _ ⟨_, h, h'⟩ => Node.laidAll_append (ha h) (hb h')

theorem Lays.lead (ha : a.Lays s []) (hb : b.Lays s ns) : (a ++ b).Lays s ns :=
  ha.append hb

theorem Lays.trail (ha : a.Lays s ns) (hb : b.Lays s []) : (a ++ b).Lays s ns := by
  have h := ha.append hb
  rwa [List.append_nil] at h

theorem Lays.given {c : Prop} (h : a.Lays s ns) : (given c a).Lays s ns :=
  fun _ _ ha => h ha.2

theorem Lays.optional (h : a.Lays s []) : (optional a).Lays s [] := by
  rintro p q (rfl | ha)
  · exact run_self
  · exact h ha

theorem Lays.ite {c : Prop} [Decidable c] (ha : a.Lays s ns) (hb : b.Lays s ns) :
    (if c then a else b).Lays s ns := by
  split
  · exact ha
  · exact hb

/-- What covers an extent is a phrase. -/
theorem Lays.phrase {e : Extent} (h : a.Lays s ns) (hs : (within e a).Strict) :
    (within e a).Lays s [.phrase e ns] :=
  fun _ _ ha => Node.laidAll_singleton ⟨⟨h ha.1, hs ha⟩, ha.2⟩ (by simp)

theorem lays_token {P : Kind → Prop} {position : Nat} (hP : ∀ k, P k → k ≠ .eof) :
    (within ⟨position, position + 1⟩ (wordOf s P)).Lays s [.token position] := by
  rintro p q ⟨⟨hp, hq⟩, he⟩
  exact Node.laidAll_singleton ⟨⟨hP _ hp, hq⟩, he⟩ (by simp)

theorem lays_words {ks : List Kind} (hks : ∀ k ∈ ks, k ≠ .eof) : (words s ks).Lays s [] := by
  induction ks with
  | nil => exact lays_empty
  | cons k ks ih =>
    rw [List.forall_mem_cons] at hks
    exact (lays_word hks.1).lead (ih hks.2)

theorem lays_dims {n : Nat} : (Stretch.dims s n).Lays s [] := by
  induction n with
  | zero => exact lays_empty
  | succ n ih => exact ((lays_word (by simp)).lead (lays_word (by simp))).lead ih

/-! ### In front of another token -/

theorem Lays.before (h : a.Lays s ns) : a.LaysBefore s ns :=
  fun _ _ _ _ ha hms _ => Node.laidAll_append (h ha) hms

theorem laysBefore_of_laid {n : Node} (h : ∀ {p q}, a p q → n.laid s p q) : a.LaysBefore s [n] :=
  fun _ _ _ _ ha hms hlt => Node.laidAll_cons (h ha) (Node.before_of_lt hms hlt)

theorem LaysBefore.append (ha : a.LaysBefore s ns) (hb : b.LaysBefore s ms) :
    (a ++ b).LaysBefore s (ns ++ ms) := by
  rintro p m q ks ⟨m', h, h'⟩ hks hlt
  rw [List.append_assoc]
  exact ha h (hb h' hks hlt) (Nat.lt_of_le_of_lt (b.le h') hlt)

/-- The token that follows may belong to the form. -/
theorem LaysBefore.closed (ha : a.LaysBefore s ns) (hb : b.Lays s ms) (hs : b.Strict) :
    (a ++ b).Lays s (ns ++ ms) :=
  fun _ _ ⟨_, h, h'⟩ => ha h (hb h') (hs h')

theorem LaysBefore.closed_word {k : Kind} (ha : a.LaysBefore s ns) (hk : k ≠ .eof) :
    (a ++ word s k).Lays s ns := by
  have h := ha.closed (lays_word hk) strict_word
  rwa [List.append_nil] at h

end Stretch

variable {s : Script}

/-! ## Names and keywords -/

theorem Ident.lays_readsBehind {lead : Stretch} (hl : lead.Lays s []) (is : List Ident) :
    (Ident.readsBehind s lead is).Lays s (is.map .name) := by
  induction is generalizing lead with
  | nil => exact lays_empty
  | cons i is ih => exact (hl.lead lays_nameOf).append (ih (lays_word (by simp)))

theorem QualifiedName.lays_reads (n : QualifiedName) : (n.reads s).Lays s [n.node] :=
  .phrase (.given (Ident.lays_readsBehind lays_empty n.segments)) n.strict_reads

theorem BoundKind.keyword_ne_eof (k : BoundKind) : k.keyword ≠ .eof := by
  cases k <;> simp [BoundKind.keyword]

theorem DeclKind.lays_words (k : DeclKind) : (Stretch.words s k.words).Lays s [] := by
  have hk : ∀ w ∈ k.words, w ≠ .eof := by
    cases k <;> simp [DeclKind.words]
  exact Stretch.lays_words hk

theorem lays_semicolons : (run s (· = .semicolon)).Lays s [] :=
  lays_run (by simp)

theorem Elem.nodes_eq_nil_iff {es : List Elem} : Elem.nodes es = [] ↔ es = [] := by
  cases es <;> simp [Elem.nodes]

/-! ## Parts of declarations and bodies -/

mutual

theorem AnnotationUse.lays_reads : ∀ a : AnnotationUse, (a.reads s).Lays s [a.node]
  | ⟨name, args, extent⟩ =>
    .phrase (.append (.lead (lays_word (by simp)) name.lays_reads) (Group.lays_readsOr lays_empty args))
      (AnnotationUse.strict_reads ⟨name, args, extent⟩)

theorem AnnotationUse.lays_readsAll :
    ∀ as : List AnnotationUse, (AnnotationUse.readsAll s as).Lays s (AnnotationUse.nodes as)
  | [] => lays_empty
  | a :: rest => a.lays_reads.append (AnnotationUse.lays_readsAll rest)

theorem AnnotationUse.lays_readsAmong : ∀ (as : List AnnotationUse) {flags : List Kind},
    (∀ k ∈ flags, k ≠ .eof) → (AnnotationUse.readsAmong s as flags).Lays s (AnnotationUse.nodes as)
  | [], _, hf => lays_words hf
  | a :: rest, flags, hf => by
    intro p q h
    obtain ⟨n, h⟩ := h
    have hlead : (words s (flags.take n)).Lays s [] :=
      lays_words fun k hk => hf k (List.mem_of_mem_take hk)
    have hrest : (AnnotationUse.readsAmong s rest (flags.drop n)).Lays s (AnnotationUse.nodes rest) :=
      AnnotationUse.lays_readsAmong rest fun k hk => hf k (List.mem_of_mem_drop hk)
    exact (hlead.lead a.lays_reads).append hrest h

theorem TypeExpr.lays_reads : ∀ t : TypeExpr, (t.reads s).Lays s [t.node]
  | ⟨annotations, core, dims, extent⟩ =>
    .phrase (.trail (.append (AnnotationUse.lays_readsAll annotations) core.lays_reads) lays_dims)
      (TypeExpr.strict_reads ⟨annotations, core, dims, extent⟩)

theorem TypeExpr.lays_reads? : ∀ t : Option TypeExpr, (TypeExpr.reads? s t).Lays s (TypeExpr.node? t)
  | none => lays_empty
  | some t => t.lays_reads

theorem TypeExpr.lays_readsBehind {lead : Stretch} {separator : Kind} (hl : lead.Lays s [])
    (hk : separator ≠ .eof) : ∀ ts : List TypeExpr,
    (TypeExpr.readsBehind s lead separator ts).Lays s (TypeExpr.nodes ts)
  | [] => lays_empty
  | t :: rest =>
    .append (hl.lead t.lays_reads) (TypeExpr.lays_readsBehind (lays_word hk) hk rest)

theorem TypeCore.lays_reads : ∀ c : TypeCore, (c.reads s).Lays s c.nodes
  | .primitive kind => by
    rintro p q ⟨hprimitive, h⟩
    have hk : kind ≠ .eof := by
      rintro rfl
      simp [Kind.isPrimitiveType, Kind.primitiveTypes] at hprimitive
    exact lays_word hk h
  | .named segments => .given (TypeSegment.lays_readsBehind lays_empty segments)

theorem TypeSegment.lays_readsBehind {lead : Stretch} (hl : lead.Lays s []) :
    ∀ ss : List TypeSegment, (TypeSegment.readsBehind s lead ss).Lays s (TypeSegment.nodes ss)
  | [] => lays_empty
  | ⟨_, args⟩ :: rest =>
    .append (.append (hl.lead lays_nameOf) (TypeArgs.lays_reads? args))
      (TypeSegment.lays_readsBehind (lays_word (by simp)) rest)

theorem TypeArgs.lays_reads : ∀ a : TypeArgs, (a.reads s).Lays s [a.node]
  | ⟨entries, extent⟩ =>
    .phrase (.trail (.lead (lays_word (by simp)) (TypeArg.lays_readsBehind lays_empty entries))
      (lays_word (by simp))) (TypeArgs.strict_reads ⟨entries, extent⟩)

theorem TypeArgs.lays_reads? : ∀ a : Option TypeArgs, (TypeArgs.reads? s a).Lays s (TypeArgs.node? a)
  | none => lays_empty
  | some a => a.lays_reads

theorem TypeArg.lays_readsBehind {lead : Stretch} (hl : lead.Lays s []) :
    ∀ as : List TypeArg, (TypeArg.readsBehind s lead as).Lays s (TypeArg.nodes as)
  | [] => lays_empty
  | a :: rest =>
    .append (hl.lead a.lays_reads) (TypeArg.lays_readsBehind (lays_word (by simp)) rest)

theorem TypeArg.lays_reads : ∀ a : TypeArg, (a.reads s).Lays s [a.node]
  | .type t => t.lays_reads
  | .wildcard _ => .phrase (lays_word (by simp)) (.within strict_word)
  | .bounded kind t _ =>
    .phrase (.lead (.lead (lays_word (by simp)) (lays_word kind.keyword_ne_eof)) t.lays_reads)
      (.within (.right t.strict_reads))

theorem TypeParam.lays_reads : ∀ a : TypeParam, (a.reads s).Lays s [a.node]
  | ⟨annotations, i, bounds, extent⟩ =>
    .phrase (.append (.append (AnnotationUse.lays_readsAll annotations) lays_nameOf)
      (TypeExpr.lays_readsBehind (lays_word (by simp)) (by simp) bounds))
      (TypeParam.strict_reads ⟨annotations, i, bounds, extent⟩)

theorem TypeParam.lays_readsBehind {lead : Stretch} (hl : lead.Lays s []) :
    ∀ as : List TypeParam, (TypeParam.readsBehind s lead as).Lays s (TypeParam.nodes as)
  | [] => lays_empty
  | a :: rest =>
    .append (hl.lead a.lays_reads) (TypeParam.lays_readsBehind (lays_word (by simp)) rest)

theorem TypeParams.lays_reads? :
    ∀ a : Option TypeParams, (TypeParams.reads? s a).Lays s (TypeParams.node? a)
  | none => lays_empty
  | some ⟨entries, _⟩ =>
    .phrase (.given (.trail (.lead (lays_word (by simp))
      (TypeParam.lays_readsBehind lays_empty entries)) (lays_word (by simp))))
      (.within (.given (.right strict_word)))

theorem Modifiers.lays_reads : ∀ ms : Modifiers, (ms.reads s).Lays s ms.nodes
  | ⟨_, annotations⟩ => by
    rintro p q ⟨hf, h⟩
    exact AnnotationUse.lays_readsAmong annotations
      (fun k hk => Grammar.isModifier_ne_eof (hf k hk)) h

theorem Group.lays_reads : ∀ g : Group, (g.reads s).Lays s [g.node]
  | ⟨delimiter, elems, extent⟩ =>
    .phrase (.trail (.lead (lays_word (Grammar.opening_ne_eof delimiter)) (Elem.lays_readsAll elems))
      (lays_word (Grammar.closing_ne_eof delimiter)))
      (Group.strict_reads ⟨delimiter, elems, extent⟩)

theorem Group.lays_readsOr {absent : Stretch} (ha : absent.Lays s []) :
    ∀ g : Option Group, (Group.readsOr s absent g).Lays s (Group.node? g)
  | none => ha
  | some g => g.lays_reads

theorem Expr.laid_node {p q : Nat} : ∀ e : Expr, e.reads s p q → e.node.laid s p q
  | ⟨elems, _⟩, ⟨⟨_, h⟩, he⟩ => by
    refine ⟨⟨?_, Elem.lays_readsAll elems h⟩, he⟩
    rw [he, Elem.nodes_eq_nil_iff]
    exact Elem.readsAll_eq_nil_iff h

theorem Expr.laysBefore_reads? {lead : Stretch} (hl : lead.Lays s []) :
    ∀ e : Option Expr, (Expr.reads? s lead e).LaysBefore s (Expr.node? e)
  | none => lays_empty.before
  | some e => hl.before.append (laysBefore_of_laid e.laid_node)

theorem Expr.laysBefore_readsBehind {lead : Stretch} (hl : lead.Lays s []) :
    ∀ es : List Expr, (Expr.readsBehind s lead es).LaysBefore s (Expr.nodes es)
  | [] => lays_empty.before
  | e :: rest =>
    .append (hl.before.append (laysBefore_of_laid e.laid_node))
      (Expr.laysBefore_readsBehind (lays_word (by simp)) rest)

theorem Elem.lays_readsAll : ∀ es : List Elem, (Elem.readsAll s es).Lays s (Elem.nodes es)
  | [] => lays_empty
  | e :: rest => e.lays_reads.append (Elem.lays_readsAll rest)

theorem Elem.lays_reads : ∀ e : Elem, (e.reads s).Lays s [e.node]
  | .token _ => lays_token fun _ hk => hk.1
  | .ident _ => lays_nameOf
  | .type t => t.lays_reads
  | .typeArgs args => args.lays_reads
  | .group g => g.lays_reads
  | .intrinsic call => call.lays_reads
  | .anonymous body => body.lays_reads
  | .localType decl => decl.lays_reads

theorem IntrinsicCall.lays_reads : ∀ c : IntrinsicCall, (c.reads s).Lays s [c.node]
  | ⟨receiver, hint, i, args, extent⟩ => by
    have hargs : (Expr.readsBehind s .empty args).LaysBefore s (Expr.nodes args) :=
      Expr.laysBefore_readsBehind lays_empty args
    have hname : (nameOf s receiver ++ word s .dot ++ TypeArgs.reads? s hint ++ nameOf s i
        ++ word s .leftParen).Lays s ([.name receiver] ++ TypeArgs.node? hint ++ [.name i]) :=
      .trail (.append (.append (.trail lays_nameOf (lays_word (by simp)))
        (TypeArgs.lays_reads? hint)) lays_nameOf) (lays_word (by simp))
    exact .phrase (.given ((hname.before.append hargs).closed_word (by simp)))
      (IntrinsicCall.strict_reads ⟨receiver, hint, i, args, extent⟩)

theorem ClassBody.lays_reads : ∀ b : ClassBody, (b.reads s).Lays s [b.node]
  | ⟨constants, members, extent⟩ =>
    .phrase (.trail (.append (.lead (lays_word (by simp))
      (EnumConstant.lays_readsBehind lays_empty constants)) (Member.lays_readsAll members))
      (lays_word (by simp))) (ClassBody.strict_reads ⟨constants, members, extent⟩)

theorem ClassBody.lays_reads? :
    ∀ b : Option ClassBody, (ClassBody.reads? s b).Lays s (ClassBody.node? b)
  | none => lays_empty
  | some b => b.lays_reads

theorem EnumConstant.lays_reads : ∀ c : EnumConstant, (c.reads s).Lays s c.nodes
  | ⟨annotations, _, args, body⟩ =>
    .append (.append (.append (AnnotationUse.lays_readsAll annotations) lays_nameOf)
      (Group.lays_readsOr lays_empty args)) (ClassBody.lays_reads? body)

theorem EnumConstant.lays_readsBehind {lead : Stretch} (hl : lead.Lays s []) :
    ∀ cs : List EnumConstant, (EnumConstant.readsBehind s lead cs).Lays s (EnumConstant.nodesAll cs)
  | [] => hl.optional
  | c :: rest =>
    .append (hl.lead c.lays_reads) (EnumConstant.lays_readsBehind (lays_word (by simp)) rest)

theorem Member.lays_readsAll : ∀ ms : List Member, (Member.readsAll s ms).Lays s (Member.nodes ms)
  | [] => lays_semicolons
  | m :: rest => .append (lays_semicolons.lead m.lays_reads) (Member.lays_readsAll rest)

theorem Member.lays_reads : ∀ m : Member, (m.reads s).Lays s [m.node]
  | .field f => f.lays_reads
  | .method d => d.lays_reads
  | .block _ body => .lead (.ite (lays_word (by simp)) lays_empty) body.lays_reads
  | .nested decl => decl.lays_reads

theorem FieldDecl.lays_reads : ∀ f : FieldDecl, (f.reads s).Lays s [f.node]
  | ⟨modifiers, t, declarators, extent⟩ => by
    have hfields : (Declarator.readsBehind s .empty declarators).LaysBefore s
        (Declarator.nodesAll declarators) :=
      Declarator.laysBefore_readsBehind lays_empty declarators
    have htype : (modifiers.reads s ++ t.reads s).Lays s (modifiers.nodes ++ [t.node]) :=
      modifiers.lays_reads.append t.lays_reads
    exact .phrase ((htype.before.append hfields).closed_word (by simp))
      (FieldDecl.strict_reads ⟨modifiers, t, declarators, extent⟩)

theorem Declarator.laysBefore_reads : ∀ d : Declarator, (d.reads s).LaysBefore s d.nodes
  | ⟨_, _, value⟩ =>
    .append (Lays.before (lays_nameOf.trail lays_dims)) (Expr.laysBefore_reads? (lays_word (by simp)) value)

theorem Declarator.laysBefore_readsBehind {lead : Stretch} (hl : lead.Lays s []) :
    ∀ ds : List Declarator, (Declarator.readsBehind s lead ds).LaysBefore s (Declarator.nodesAll ds)
  | [] => lays_empty.before
  | d :: rest =>
    .append (hl.before.append d.laysBefore_reads)
      (Declarator.laysBefore_readsBehind (lays_word (by simp)) rest)

theorem MethodDecl.lays_reads : ∀ d : MethodDecl, (d.reads s).Lays s [d.node]
  | ⟨modifiers, typeParams, returnType, i, params, dims, throws, defaultValue, body, extent⟩ => by
    have hname : (modifiers.reads s ++ TypeParams.reads? s typeParams
        ++ TypeExpr.reads? s returnType ++ nameOf s i).Lays s (modifiers.nodes
          ++ TypeParams.node? typeParams ++ TypeExpr.node? returnType ++ [.name i]) :=
      .append (.append (.append modifiers.lays_reads (TypeParams.lays_reads? typeParams))
        (TypeExpr.lays_reads? returnType)) lays_nameOf
    have hparams : (Param.readsBehind s .empty params).Lays s (Param.nodes params) :=
      Param.lays_readsBehind lays_empty params
    have hthrows : (TypeExpr.readsBehind s (word s .kwThrows) .comma throws).Lays s
        (TypeExpr.nodes throws) :=
      TypeExpr.lays_readsBehind (lays_word (by simp)) (by simp) throws
    have hdefault : (Expr.reads? s (word s .kwDefault) defaultValue).LaysBefore s
        (Expr.node? defaultValue) :=
      Expr.laysBefore_reads? (lays_word (by simp)) defaultValue
    have hbody : (Group.readsOr s (word s .semicolon) body).Lays s (Group.node? body) :=
      Group.lays_readsOr (lays_word (by simp)) body
    have hopened := (hname.trail (lays_word (k := .leftParen) (by simp))).append hparams
    have hhead := (hopened.trail (lays_word (k := .rightParen) (by simp))).trail (lays_dims (n := dims))
    exact .phrase (((hhead.append hthrows).before.append hdefault).closed hbody
      (Group.strict_readsOr_semicolon body)) (MethodDecl.strict_reads
        ⟨modifiers, typeParams, returnType, i, params, dims, throws, defaultValue, body, extent⟩)

theorem Param.lays_reads : ∀ a : Param, (a.reads s).Lays s [a.node]
  | ⟨modifiers, t, variadic, i, dims, extent⟩ =>
    .phrase (.trail (.append (.trail (modifiers.lays_reads.append t.lays_reads)
      (.ite (lays_word (by simp)) lays_empty)) lays_nameOf) lays_dims)
      (Param.strict_reads ⟨modifiers, t, variadic, i, dims, extent⟩)

theorem Param.lays_readsBehind {lead : Stretch} (hl : lead.Lays s []) :
    ∀ as : List Param, (Param.readsBehind s lead as).Lays s (Param.nodes as)
  | [] => lays_empty
  | a :: rest => .append (hl.lead a.lays_reads) (Param.lays_readsBehind (lays_word (by simp)) rest)

theorem TypeDecl.lays_reads : ∀ d : TypeDecl, (d.reads s).Lays s [d.node]
  | ⟨modifiers, kind, i, typeParams, supertypes, interfaces, body, extent⟩ => by
    have hname : (modifiers.reads s ++ words s kind.words ++ nameOf s i
        ++ TypeParams.reads? s typeParams).Lays s (modifiers.nodes ++ [.name i]
          ++ TypeParams.node? typeParams) :=
      .append (.append (.trail modifiers.lays_reads kind.lays_words) lays_nameOf)
        (TypeParams.lays_reads? typeParams)
    have hsupertypes : (TypeExpr.readsBehind s (word s .kwExtends) .comma supertypes).Lays s
        (TypeExpr.nodes supertypes) :=
      TypeExpr.lays_readsBehind (lays_word (by simp)) (by simp) supertypes
    have hinterfaces : (TypeExpr.readsBehind s (word s .kwImplements) .comma interfaces).Lays s
        (TypeExpr.nodes interfaces) :=
      TypeExpr.lays_readsBehind (lays_word (by simp)) (by simp) interfaces
    exact .phrase (((hname.append hsupertypes).append hinterfaces).append body.lays_reads)
      (TypeDecl.strict_reads ⟨modifiers, kind, i, typeParams, supertypes, interfaces, body, extent⟩)

end

/-! ## Files -/

theorem PackageDecl.lays_reads? :
    ∀ d : Option PackageDecl, (PackageDecl.reads? s d).Lays s (PackageDecl.node? d)
  | none => lays_empty
  | some d =>
    .phrase (.trail (.append (.trail (AnnotationUse.lays_readsAll d.annotations)
      (lays_word (by simp))) d.name.lays_reads) (lays_word (by simp))) (.within (.right strict_word))

theorem ImportDecl.lays_reads (i : ImportDecl) : (i.reads s).Lays s [i.node] :=
  .phrase (.trail (.trail (.lead (.lead (lays_word (by simp)) (.ite (lays_word (by simp)) lays_empty))
    i.name.lays_reads) (.ite (.lead (lays_word (by simp)) (lays_word (by simp))) lays_empty))
    (lays_word (by simp))) (.within (.right strict_word))

theorem ImportDecl.lays_readsAll (is : List ImportDecl) :
    (ImportDecl.readsAll s is).Lays s (is.map ImportDecl.node) := by
  induction is with
  | nil => exact lays_empty
  | cons i is ih => exact i.lays_reads.append ih

theorem TypeDecl.lays_readsAll (ds : List TypeDecl) :
    (TypeDecl.readsAll s ds).Lays s (ds.map TypeDecl.node) := by
  induction ds with
  | nil => exact lays_semicolons
  | cons d ds ih => exact (lays_semicolons.lead d.lays_reads).append ih

theorem CompilationUnit.lays_reads (u : CompilationUnit) : (u.reads s).Lays s u.nodes :=
  .append (.append (PackageDecl.lays_reads? u.package) (ImportDecl.lays_readsAll u.imports))
    (TypeDecl.lays_readsAll u.types)

end Stencil
