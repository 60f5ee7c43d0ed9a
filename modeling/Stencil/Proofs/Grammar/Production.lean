import Stencil.Proofs.Grammar.Lays
import Stencil.Proofs.Grammar.Placed
import Stencil.Proofs.Grammar.Unit

/-!
# Where the nodes of a tree stand

Each rule takes the extent of its node from a mark of its own: in front of modifiers, behind `new`, in
front of a type that is tried and widened by array dimensions. Whatever the rule, what it finds reads
the tokens passed, and what reads tokens is laid out by its nodes; so the nodes stand where they
should.

Results: on any text and from any position on, the nodes of what a rule finds stand within the range
passed, each between its first code token and its last one, and those below a node within it and one
after the other (`standIn_of_run`).
-/

namespace Stencil.Grammar

open Rule Stretch

/-- The rules of the grammar, and the nodes of what each of them finds. A rule that goes on behind a
head, such as the rest of a declaration behind its modifiers, is part of the rules that read the head
first. An intrinsic call and an element are looked for only where they can begin. -/
inductive Yields : {α : Type} → (Nested → Rule α) → (α → List Node) → Prop
  -- names, brackets and annotations
  | identifier : Yields (fun _ => identifier) fun i => [.name i]
  | qualifiedName : Yields (fun _ => qualifiedName) fun n => [n.node]
  | group : Yields group fun b => [b.node]
  | optionalGroup (opening : Kind) : Yields (optionalGroup · opening) Group.node?
  | expr : Yields expr fun e => [e.node]
  | annotationUse : Yields annotationUse fun a => [a.node]
  | annotations : Yields annotations AnnotationUse.nodes
  -- types
  | typeArg : Yields typeArg fun a => [a.node]
  | typeArgs : Yields typeArgs fun a => [a.node]
  | optionalTypeArgs : Yields optionalTypeArgs TypeArgs.node?
  | typeSegment : Yields typeSegment fun a => TypeSegment.nodes [a]
  | typeSegments : Yields typeSegments TypeSegment.nodes
  | classType : Yields classType fun t => [t.node]
  | type : Yields type fun t => [t.node]
  | typeList : Yields typeList TypeExpr.nodes
  | typeParam : Yields typeParam fun a => [a.node]
  | typeParams : Yields typeParams fun a => TypeParams.node? (some a)
  | optionalTypeParams : Yields optionalTypeParams TypeParams.node?
  -- declarations
  | modifiers : Yields modifiers Modifiers.nodes
  | typeDecl : Yields typeDecl fun d => [d.node]
  | param : Yields param fun a => [a.node]
  | params : Yields params Param.nodes
  | methodBody : Yields methodBody Group.node?
  | member : Yields member fun m => Member.nodes m.toList
  | enumConstant : Yields enumConstant EnumConstant.nodes
  | enumConstants : Yields enumConstants EnumConstant.nodesAll
  | classBody (isEnum : Bool) : Yields (classBody · isEnum) fun b => [b.node]
  -- bodies
  | callArgs : Yields callArgs Expr.nodes
  | intrinsicCall : Yields (fun g => do when (← intrinsicFollows) (intrinsicCall g))
      fun c => c.toList.map IntrinsicCall.node
  | genericType : Yields genericType fun t => [t.node]
  | genericType? : Yields genericType? TypeExpr.node?
  | creator : Yields creator Elem.nodes
  | namedElem : Yields namedElem fun e => [e.node]
  | elem (untilSeparator : Bool) :
    Yields (fun g => do if ← elemFollows untilSeparator then elem g else return []) Elem.nodes
  | elems (untilSeparator : Bool) : Yields (elems · untilSeparator) Elem.nodes
  -- files
  | packageDecl : Yields packageDecl PackageDecl.node?
  | importDecl : Yields (fun _ => importDecl) fun i => [i.node]
  | compilationUnit : Yields compilationUnit CompilationUnit.nodes

variable {s : Script} {p q : Nat} {g : Nested}

/-! ## Rules whose results are no nodes -/

theorem laidAll_of_typeSegment (hg : g.Sound s) {a : TypeSegment}
    (h : (typeSegment g).run s p = .ok a q) : Node.laidAll s (TypeSegment.nodes [a]) p q := by
  obtain ⟨i, args⟩ := a
  obtain ⟨m, hi, hargs⟩ := reads_of_typeSegment hg h
  exact TypeSegment.lays_readsBehind lays_empty _ ⟨q, ⟨m, ⟨p, rfl, hi⟩, hargs⟩, rfl⟩

theorem laidAll_of_member (hg : g.Sound s) {m : Option Member}
    (h : (member g).run s p = .ok m q) : Node.laidAll s (Member.nodes m.toList) p q := by
  have hreads := reads_of_member hg h
  cases m with
  | none => exact lays_word (by simp) hreads
  | some m => exact m.lays_reads hreads

theorem laidAll_of_enumConstants (hg : g.Sound s) {cs : List EnumConstant}
    (h : (enumConstants g).run s p = .ok cs q) : Node.laidAll s (EnumConstant.nodesAll cs) p q :=
  (EnumConstant.lays_readsBehind lays_empty cs).trail lays_semicolons (reads_of_enumConstants hg h)

theorem laidAll_of_params (hg : g.Sound s) {as : List Param}
    (h : (params g).run s p = .ok as q) : Node.laidAll s (Param.nodes as) p q :=
  Lays.trail (.lead (lays_word (by simp)) (Param.lays_readsBehind lays_empty as))
    (lays_word (by simp)) (reads_of_params hg h)

theorem laidAll_of_callArgs (hg : g.Sound s) {es : List Expr}
    (h : (callArgs g).run s p = .ok es q) : Node.laidAll s (Expr.nodes es) p q := by
  have hopened : (word s .leftParen).LaysBefore s [] := (lays_word (by simp)).before
  have hargs := hopened.append (Expr.laysBefore_readsBehind lays_empty es)
  exact hargs.closed_word (by simp) (reads_of_callArgs hg h)

/-- A call is looked for behind the name of the receiver only. -/
theorem laidAll_of_intrinsicCall (hg : g.Sound s) {c : Option IntrinsicCall}
    (h : (do when (← intrinsicFollows) (intrinsicCall g) : Rule (Option IntrinsicCall)).run s p
      = .ok c q) : Node.laidAll s (c.toList.map IntrinsicCall.node) p q := by
  simp only [run_bind, run_when] at h
  obtain ⟨b, m, hb, ⟨rfl, c, hc, rfl⟩ | ⟨rfl, rfl, rfl⟩⟩ := h
  · obtain ⟨rfl, hname⟩ := run_intrinsicFollows hb
    exact c.lays_reads (reads_of_intrinsicCall hg (hname rfl) hc)
  · obtain ⟨rfl, -⟩ := run_intrinsicFollows hb
    exact run_self

theorem laidAll_of_elem (hg : g.Sound s) {u : Bool} {es : List Elem}
    (h : (do if ← elemFollows u then elem g else return [] : Rule (List Elem)).run s p
      = .ok es q) : Node.laidAll s (Elem.nodes es) p q := by
  simp only [run_bind, run_ite, run_pure] at h
  obtain ⟨b, m, hb, ⟨rfl, hes⟩ | ⟨-, rfl, rfl⟩⟩ := h
  · obtain ⟨rfl, hk⟩ := run_elemFollows hb
    exact Elem.lays_readsAll es (readsAll_of_elem hg (hk rfl).1 (hk rfl).2 hes)
  · obtain ⟨rfl, -⟩ := run_elemFollows hb
    exact run_self

/-! ## All rules -/

variable {α : Type} {rule : Nested → Rule α} {nodes : α → List Node} {t : α}

/-- What a rule finds is laid out by its nodes. The node of an expression may be empty, and then
nothing is passed behind it. -/
theorem Yields.laidAll_of_run (hg : g.Sound s) (hy : Yields rule nodes)
    (h : (rule g).run s p = .ok t q) :
    Node.laidAll s (nodes t) p q ∨ ∃ n, nodes t = [n] ∧ n.laid s p q := by
  cases hy with
  | expr => exact .inr ⟨_, rfl, Expr.laid_node _ (reads_of_expr hg h)⟩
  | identifier => exact .inl (lays_nameOf (run_identifier.1 h))
  | qualifiedName => exact .inl (QualifiedName.lays_reads _ (reads_of_qualifiedName h))
  | group => exact .inl (Group.lays_reads _ (reads_of_group hg h))
  | optionalGroup opening =>
    exact .inl (Group.lays_readsOr lays_empty _ (reads_of_optionalGroup hg h))
  | annotationUse => exact .inl (AnnotationUse.lays_reads _ (reads_of_annotationUse hg h))
  | annotations => exact .inl (AnnotationUse.lays_readsAll _ (readsAll_of_annotations hg h))
  | typeArg => exact .inl (TypeArg.lays_reads _ (reads_of_typeArg hg h))
  | typeArgs => exact .inl (TypeArgs.lays_reads _ (reads_of_typeArgs hg h))
  | optionalTypeArgs => exact .inl (TypeArgs.lays_reads? _ (reads_of_optionalTypeArgs hg h))
  | typeSegment => exact .inl (laidAll_of_typeSegment hg h)
  | typeSegments => exact .inl (TypeCore.lays_reads (.named _) (reads_of_typeSegments hg h))
  | classType => exact .inl (TypeExpr.lays_reads _ (reads_of_classType hg h))
  | type => exact .inl (TypeExpr.lays_reads _ (reads_of_type hg h))
  | typeList =>
    have hreads := readsBehind_of_sepBy hg (by simp) (empty_iff.2 rfl) h
    exact .inl (TypeExpr.lays_readsBehind lays_empty (by simp) _ hreads)
  | typeParam => exact .inl (TypeParam.lays_reads _ (reads_of_typeParam hg h))
  | typeParams => exact .inl (TypeParams.lays_reads? _ (reads_of_typeParams hg h))
  | optionalTypeParams => exact .inl (TypeParams.lays_reads? _ (reads_of_optionalTypeParams hg h))
  | modifiers => exact .inl (Modifiers.lays_reads _ (reads_of_modifiers hg h))
  | typeDecl => exact .inl (TypeDecl.lays_reads _ (reads_of_typeDecl hg h))
  | param => exact .inl (Param.lays_reads _ (reads_of_param hg h))
  | params => exact .inl (laidAll_of_params hg h)
  | methodBody =>
    exact .inl (Group.lays_readsOr (lays_word (by simp)) _ (reads_of_methodBody hg h))
  | member => exact .inl (laidAll_of_member hg h)
  | enumConstant => exact .inl (EnumConstant.lays_reads _ (reads_of_enumConstant hg h))
  | enumConstants => exact .inl (laidAll_of_enumConstants hg h)
  | classBody isEnum => exact .inl (ClassBody.lays_reads _ (reads_of_classBody hg h))
  | callArgs => exact .inl (laidAll_of_callArgs hg h)
  | intrinsicCall => exact .inl (laidAll_of_intrinsicCall hg h)
  | genericType => exact .inl (TypeExpr.lays_reads _ (reads_of_genericType hg h))
  | genericType? => exact .inl (TypeExpr.lays_reads? _ (reads_of_genericType? hg h))
  | creator => exact .inl (Elem.lays_readsAll _ (readsAll_of_creator hg h))
  | namedElem => exact .inl (Elem.lays_reads _ (reads_of_namedElem hg h))
  | elem u => exact .inl (laidAll_of_elem hg h)
  | elems u => exact .inl (Elem.lays_readsAll _ (readsAll_of_elems hg h))
  | packageDecl => exact .inl (PackageDecl.lays_reads? _ (reads_of_packageDecl hg h))
  | importDecl => exact .inl (ImportDecl.lays_reads _ (reads_of_importDecl h))
  | compilationUnit => exact .inl (CompilationUnit.lays_reads _ (reads_of_compilationUnit hg h).1)

/-- Whatever a rule finds in a text, from whatever position on, its nodes stand within the range of the
tokens passed. Each of them begins with a code token and ends directly behind one, or is an expression
without elements and stands empty in front of a code token or the end mark; the nodes below it lie
within it, each behind the one before; and each name is that of its token. -/
theorem standIn_of_run (hy : Yields rule nodes) {text receiver : String}
    (h : (complete rule).run (.ofSource (.ofString text) receiver) p = .ok t q) :
    Node.StandIn (.ofString text) ((Source.ofString text).range ⟨p, q⟩) (nodes t) := by
  rw [run_complete] at h
  have hsource := Source.indexed_ofString text
  rcases hy.laidAll_of_run (sound_nested _ _) h with hlaid | ⟨n, hn, hlaid⟩
  · exact Node.standIn_of_laidAll hsource hlaid
  · rw [hn]
    exact Node.standIn_of_laid hsource hlaid

/-- The theorem at a call whose first operand is empty, with a comment in the second one. -/
theorem standIn_of_run_emptyOperand : ∃ es q,
    (complete fun g => elems g false).run
        (.ofSource (.ofString "x = I.mix( , a /* b */ c)") "I") 0 = .ok es q
      ∧ (Source.ofString "x = I.mix( , a /* b */ c)").range ⟨0, q⟩ = ⟨0, 17⟩
      ∧ (Elem.nodes es).map (Node.range (.ofString "x = I.mix( , a /* b */ c)"))
        = [⟨0, 1⟩, ⟨2, 3⟩, ⟨4, 17⟩]
      ∧ Node.StandIn (.ofString "x = I.mix( , a /* b */ c)") ⟨0, 17⟩ (Elem.nodes es) := by
  obtain ⟨es, q, hrun, hranges⟩ := exists_run_of_sees (r := complete fun g => elems g false)
    (s := .ofSource (.ofString "x = I.mix( , a /* b */ c)") "I") (p := 0)
    (fun es q => decide ((Source.ofString "x = I.mix( , a /* b */ c)").range ⟨0, q⟩ = ⟨0, 17⟩)
      && decide ((Elem.nodes es).map (Node.range (.ofString "x = I.mix( , a /* b */ c)"))
        = [⟨0, 1⟩, ⟨2, 3⟩, ⟨4, 17⟩]))
    (by decide +kernel)
  simp only [Bool.and_eq_true, decide_eq_true_eq] at hranges
  have hstand := standIn_of_run (.elems false) hrun
  rw [hranges.1] at hstand
  exact ⟨es, q, hrun, hranges.1, hranges.2, hstand⟩

end Stencil.Grammar
