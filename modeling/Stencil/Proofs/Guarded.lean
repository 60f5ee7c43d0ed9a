import Stencil.Proofs.Edits
import Stencil.Proofs.Rewrite.Places
import Stencil.Proofs.Rewrite.Casts

/-!
# Replacements among operators

An intrinsic call can stand anywhere in an expression, and so can what it is replaced by: the operators
beside it cannot take a part of the replacement for their operand. Nor can the operators of the
replacement take a part of an argument.

Results: a replacement shows no operator, and each of its arguments stands in it once, where nothing
but brackets and commas are beside it, in parentheses, or without an operator or a cast of its own
(`Template.guarded_of_steps`).
-/

namespace Stencil

open Rewrite

/-- A name has neither marks of comments nor line ends. -/
theorem isInner_of_isName {text : String} (h : isName text = true) : IsInner text.toList := by
  have hpart : ∀ c, c = '*' ∨ c = '/' ∨ Scan.isLineEnd c = true →
      Scan.isNamePart c = false ∧ Scan.isNameStart c = false := by
    rintro c (rfl | rfl | hend)
    · decide +kernel
    · decide +kernel
    · simp only [Scan.isLineEnd, Bool.or_eq_true, beq_iff_eq] at hend
      rcases hend with rfl | rfl <;> decide +kernel
  have hinner {c : Char} (hc : Scan.isNamePart c = true ∨ Scan.isNameStart c = true) :
      c ≠ '*' ∧ c ≠ '/' ∧ Scan.isLineEnd c = false := by
    have hnot : ¬(c = '*' ∨ c = '/' ∨ Scan.isLineEnd c = true) := fun h => by
      obtain ⟨hpart, hstart⟩ := hpart c h
      simp [hpart, hstart] at hc
    simpa [not_or] using hnot
  rw [isName] at h
  split at h
  · cases h
  · rename_i c cs hchars
    simp only [Bool.and_eq_true, List.all_eq_true] at h
    rw [hchars]
    exact ⟨List.cons_ne_nil c cs, List.forall_mem_cons.2
      ⟨hinner (.inr h.1.1), fun x hx => hinner (.inl (h.1.2 x hx))⟩⟩

namespace Rewrite

variable {j : Job} {text : String} {c : Stencil.IntrinsicCall} {e : Edit} {p q : Nat}

/-- An accepted call is replaced by the pattern of its operation, with its arguments filled in. -/
theorem exists_pattern_of_steps (hs : j.source.Indexed) (hq : q ≤ j.source.code.size)
    (h : c.reads j.script p q) (he : (Outline.call c (Expr.entries c.args)).steps j = [.ok e]) :
    ∃ target os o pattern, j.target c.hint = .ok target ∧ Outline.operands j (Expr.entries c.args) = .ok os
      ∧ Operation.ofName? c.name.name = some o
      ∧ o.pattern j.vocabulary.mixer target c.args.length = .ok pattern
      ∧ e.text = j.chunksText (pattern.flatMap (Fragment.chunks (c.args.map j.chunkedOperand))) := by
  obtain ⟨-, -, a, b, -, -, hargs, hb⟩ := IntrinsicCall.exists_of_reads h
  have hrow := Expr.row_of_readsBehind nameless_of_empty hargs
  have hok : firstError? (j.call c (Outline.operands j (Expr.entries c.args))) = none := by
    rw [Outline.steps] at he
    rw [he, firstError?, firstError?]
  obtain ⟨target, os, o, pattern, htarget, hoperands, ho, hpattern, hcall⟩ := exists_of_call hok
  have hos := Outline.operands_eq hs (by omega) hrow hoperands
  rw [chunkedOperands_entries] at hos
  rw [hos] at hpattern hcall
  rw [List.length_map, List.length_map] at hpattern
  refine ⟨target, os, o, pattern, htarget, hoperands, ho, hpattern, ?_⟩
  rw [Outline.steps, hcall] at he
  obtain rfl := Except.ok.inj (List.singleton_inj.1 he)
  exact (Job.chunksText_flatMap _ _).symm

/-! ## Replacements -/

/-- Is the text that a call is replaced by put together from the pattern so that neither the operators
beside the text nor those in it can take the text or one of its arguments apart? -/
structure Guarded (j : Job) (c : Stencil.IntrinsicCall) (pattern : List Fragment) (text : String) :
    Prop where
  /-- The text is that of the pieces of the pattern, in which the arguments are filled in. -/
  text_eq : text = j.chunksText (pattern.flatMap (Fragment.chunks (c.args.map j.chunkedOperand)))
  /-- If no piece goes on into what is behind it, the tokens of the text are those of its pieces. -/
  kinds_eq : j.Apart (pattern.flatMap (Fragment.chunks (c.args.map j.chunkedOperand))) →
    kindsOf text = (patternMarks j (c.args.map j.chunkedOperand) pattern).map (·.kind)
  /-- The brackets of the pieces are well nested. -/
  balanced : Balanced (patternMarks j (c.args.map j.chunkedOperand) pattern)
  /-- No operator is outside of brackets and of the lists of type arguments and type parameters that
  stand in the call. -/
  sealed : Sealed (Listed j (.call c)) (patternMarks j (c.args.map j.chunkedOperand) pattern)
  /-- Each argument stands in it once, in order, and between brackets and commas if it stands as it
  is. -/
  placed : Fragment.Placed c.args.length pattern
  /-- The brackets of each argument are well nested. -/
  argument : ∀ x ∈ c.args, Balanced (j.marks (j.chunkedOperand x).chunks)
  /-- An argument that stands beside an operator without parentheses has no operator of its own. Where no
  operator shows, a cast can stand at the beginning only, and there is none, unless a call at the
  beginning of the argument, or of an argument of that call, is directly followed by an operand. -/
  bare : ∀ x ∈ c.args, (j.chunkedOperand x).atomic = true →
    Sealed (Listed j (.call c)) (j.marks (j.chunkedOperand x).chunks)
      ∧ (Expr.opensApart j x = true → ¬BeginsCast (j.marks (j.chunkedOperand x).chunks))

theorem exists_guarded_of_steps (hj : j.IsApt text) (h : c.reads j.script p q)
    (hq : q ≤ j.source.code.size) (he : (Outline.call c (Expr.entries c.args)).steps j = [.ok e]) :
    ∃ target o pattern, j.target c.hint = .ok target ∧ Operation.ofName? c.name.name = some o
      ∧ o.pattern j.vocabulary.mixer target c.args.length = .ok pattern ∧ Guarded j c pattern e.text := by
  obtain ⟨target, os, o, pattern, htarget, hoperands, ho, hpattern, htext⟩ :=
    exists_pattern_of_steps hj.indexed hq h he
  have hargs := IntrinsicCall.operands hj (r := .call c) .refl h hq
  rw [chunkedOperands_entries] at hargs
  have hformed := formed_pattern hargs.balanced hj.mixer
    (IntrinsicCall.balanced_variable hj h hq htarget) (by rwa [List.length_map])
  have hsealed := hformed.sealed fun _ => hargs.sealed_of_bare
  refine ⟨target, o, pattern, htarget, ho, hpattern, htext, ?_, ?_, hsealed,
    Operation.placed_of_pattern hpattern, ?_, ?_⟩
  · intro hapart
    rw [htext, hapart.kindsOf_eq, patternMarks]
  · exact hsealed.balanced fun _ h => h.balanced
  · exact fun x hx => hargs.balanced _ (List.mem_map_of_mem hx)
  · exact fun x hx hatomic => ⟨hargs.atomic _ (List.mem_map_of_mem hx) hatomic,
      IntrinsicCall.not_beginsCast hj h hq hoperands hx hatomic⟩

theorem IntrinsicCall.le_size_of_reads (h : c.reads j.script p q) : q ≤ j.source.code.size := by
  obtain ⟨r, hint, i, args, extent⟩ := c
  obtain ⟨⟨-, m, -, hclosing⟩, -⟩ := h
  have hle := Grammar.le_size_of_word (by decide) hclosing
  rwa [Source.size_ofSource] at hle

/-- Is the place a list of type arguments? -/
def Outline.isTypeArgs : Outline → Bool
  | .typeArgs _ _ _ => true
  | _ => false

end Rewrite

namespace Template

variable {path : Path} {text : String} {v : Vocabulary} {t : Template} {c : IntrinsicCall} {y : Part}
  {e : Edit}

theorem isApt_of_ofText (h : ofText path text v = .ok t) (hmixer : IsDottedName v.mixer)
    (hnames : ∀ p, isName (v.name p) = true) (b : Binding) : (t.job b).IsApt text := by
  obtain ⟨rfl, hsource, hproblems, -⟩ := laidAll_of_ofText h
  exact ⟨⟨hsource, hproblems, fun p => isInner_of_isName (hnames p)⟩, hnames .primary, hmixer⟩

/-- The nodes of the tree of a template read their tokens, at any depth. -/
theorem reads_of_holds (h : ofText path text v = .ok t) (hy : y ∈ t.file.tree.parts) {x : Part}
    (hx : y.Holds x) (b : Binding) : ∃ p q, x.reads (t.job b).script p q := by
  simp only [ofText] at h
  split at h
  · contradiction
  · rename_i file hfile
    obtain ⟨-, -, q, hreads, -⟩ := ParsedFile.reads_of_ofString hfile
    split at h
    · cases h
      exact (Part.allRead_compilationUnit hreads).of_holds hy hx
    · split at h <;> contradiction

/-- What an intrinsic call is replaced by, wherever it stands in the tree of a template and whatever
the binding, can stand among operators, and so can its arguments. -/
theorem guarded_of_steps (h : ofText path text v = .ok t) (hmixer : IsDottedName v.mixer)
    (hnames : ∀ p, isName (v.name p) = true) (b : Binding) (hy : y ∈ t.file.tree.parts)
    (hc : y.Holds (.call c)) (he : (Outline.call c (Expr.entries c.args)).steps (t.job b) = [.ok e]) :
    ∃ target o pattern, (t.job b).target c.hint = .ok target ∧ Operation.ofName? c.name.name = some o
      ∧ o.pattern v.mixer target c.args.length = .ok pattern
      ∧ Guarded (t.job b) c pattern e.text := by
  obtain ⟨p, q, hreads⟩ := reads_of_holds h hy hc b
  have hj := isApt_of_ofText h hmixer hnames b
  obtain ⟨rfl, -⟩ := laidAll_of_ofText h
  exact exists_guarded_of_steps hj hreads (IntrinsicCall.le_size_of_reads hreads) he

/-- The pieces of the pattern are those that the walk puts in place of the call. -/
theorem callChunks_of_ofText (h : ofText path text v = .ok t) {b : Binding} {target : Target} {o : Operation}
    {pattern : List Fragment} (htarget : (t.job b).target c.hint = .ok target)
    (ho : Operation.ofName? c.name.name = some o)
    (hpattern : o.pattern v.mixer target c.args.length = .ok pattern) :
    (t.job b).callChunks c (c.args.map (t.job b).chunkedOperand)
      = pattern.flatMap (Fragment.chunks (c.args.map (t.job b).chunkedOperand)) := by
  obtain ⟨rfl, -⟩ := laidAll_of_ofText h
  exact callChunks_eq htarget ho (by rwa [List.length_map])

/-- For the template and the binding, is there an accepted call at the head of the value of a field,
with a text of this kind put in place of it? -/
def anyReplaced (path : Path) (text : String) (v : Vocabulary) (b : Binding)
    (P : Template → IntrinsicCall → String → Bool) : Bool :=
  match ofText path text v with
  | .error _ => false
  | .ok t => t.file.tree.types.any fun d => d.body.members.any fun
    | .field f => f.declarators.any fun x => x.value.toList.any fun x => x.elems.any fun
      | .intrinsic c =>
        match (Outline.call c (Expr.entries c.args)).steps (t.job b) with
        | [.ok e] => P t c e.text
        | _ => false
      | _ => false
    | _ => false

/-- For the template and the binding, is there an accepted call with a text of this kind put in place
of it? -/
def Replaces (path : Path) (text : String) (v : Vocabulary) (b : Binding)
    (P : Template → IntrinsicCall → String → Prop) : Prop :=
  ∃ t y c e, ofText path text v = .ok t ∧ y ∈ t.file.tree.parts ∧ y.Holds (.call c)
    ∧ (Outline.call c (Expr.entries c.args)).steps (t.job b) = [.ok e] ∧ P t c e.text

theorem Replaces.mono {b : Binding} {P Q : Template → IntrinsicCall → String → Prop}
    (h : Replaces path text v b P) (hPQ : ∀ t c text, P t c text → Q t c text) :
    Replaces path text v b Q := by
  obtain ⟨t, y, c, e, ht, hy, hc, he, hP⟩ := h
  exact ⟨t, y, c, e, ht, hy, hc, he, hPQ t c e.text hP⟩

theorem replaces_of_any {b : Binding} {P : Template → IntrinsicCall → String → Bool}
    (h : anyReplaced path text v b P = true) : Replaces path text v b fun t c text => P t c text = true := by
  unfold anyReplaced at h
  split at h
  · contradiction
  rename_i t ht
  obtain ⟨d, hd, h⟩ := List.any_eq_true.1 h
  obtain ⟨m, hm, h⟩ := List.any_eq_true.1 h
  split at h
  · rename_i f
    obtain ⟨x, hx, h⟩ := List.any_eq_true.1 h
    obtain ⟨z, hz, h⟩ := List.any_eq_true.1 h
    obtain ⟨a, ha, h⟩ := List.any_eq_true.1 h
    split at h
    · rename_i c
      split at h
      · rename_i e he
        have hy : Part.typeDecl d ∈ t.file.tree.parts := by
          simp [CompilationUnit.parts, hd]
        have hfield : (Part.typeDecl d).Holds (.member (.field f)) :=
          .tail (.single (show .classBody d.body ∈ _ by simp [Part.below])) (by simp [Part.below, hm])
        have hvalue : (Part.member (.field f)).Holds (.expr z) :=
          .tail (.single (show .declarator x ∈ _ by simp [Part.below, hx])) (List.mem_map_of_mem hz)
        have hcall : Part.call c ∈ (Part.expr z).below :=
          List.mem_flatMap.2 ⟨_, ha, by simp [Elem.part?]⟩
        exact ⟨t, _, c, e, ht, hy, (hfield.trans hvalue).tail hcall, he, h⟩
      · contradiction
    · contradiction
  · contradiction

/-- The theorem at a call with a call and a negation as its arguments. No piece of what replaces it goes on
into the next one, and the first argument, which stands without further parentheses, begins with no
cast. -/
theorem guarded_of_steps_sample : IsDottedName "BitMixer.mix"
    ∧ (∀ p, isName (({} : Vocabulary).name p) = true)
    ∧ Replaces ⟨"KTypeA.java"⟩
      "class KTypeA<KType> \x7b int f = Intrinsics.mix(Intrinsics.add(a, b), -c); \x7d" {}
      ⟨.byte, none⟩ fun t c text => text = "BitMixer.mix(((byte) (a + b)) ^ (-c))"
        ∧ ∃ target o pattern, (t.job ⟨.byte, none⟩).target c.hint = .ok target
          ∧ Operation.ofName? c.name.name = some o
          ∧ o.pattern "BitMixer.mix" target c.args.length = .ok pattern
          ∧ Guarded (t.job ⟨.byte, none⟩) c pattern text
          ∧ kindsOf text = (patternMarks (t.job ⟨.byte, none⟩)
            (c.args.map (t.job ⟨.byte, none⟩).chunkedOperand) pattern).map (·.kind)
          ∧ ∃ x rest, c.args = x :: rest ∧ ((t.job ⟨.byte, none⟩).chunkedOperand x).atomic = true
            ∧ ¬BeginsCast ((t.job ⟨.byte, none⟩).marks ((t.job ⟨.byte, none⟩).chunkedOperand x).chunks) := by
  have hmixer : IsDottedName "BitMixer.mix" := ⟨["BitMixer", "mix"], by simp, by decide +kernel, rfl⟩
  have hnames : ∀ p, isName (({} : Vocabulary).name p) = true := by
    intro p
    cases p <;> decide +kernel
  have hany : anyReplaced ⟨"KTypeA.java"⟩
      "class KTypeA<KType> \x7b int f = Intrinsics.mix(Intrinsics.add(a, b), -c); \x7d" {} ⟨.byte, none⟩
      (fun t c text => text == "BitMixer.mix(((byte) (a + b)) ^ (-c))"
        && ((t.job ⟨.byte, none⟩).callChunks c (c.args.map (t.job ⟨.byte, none⟩).chunkedOperand)).map
          (t.job ⟨.byte, none⟩).chunkText == ["BitMixer.mix", "(", "((", "byte", ") ", "(", "a", " + ", "b", ")", ")",
            " ^ ", "(", "-", "c", ")", ")"]
        && c.args.head?.any fun x => (t.job ⟨.byte, none⟩).isAtomic x.elems
          && Expr.opensApart (t.job ⟨.byte, none⟩) x) = true := by
    decide +kernel
  have hstay : StayApart ["BitMixer.mix", "(", "((", "byte", ") ", "(", "a", " + ", "b", ")", ")", " ^ ", "(", "-",
      "c", ")", ")"] := by
    decide +kernel
  obtain ⟨t, y, c, e, ht, hy, hc, he, h⟩ := replaces_of_any hany
  simp only [Bool.and_eq_true, beq_iff_eq, Option.any_eq_true] at h
  obtain ⟨⟨htext, hpieces⟩, x, hx, hatomic, hopens⟩ := h
  obtain ⟨rest, hargs⟩ := List.head?_eq_some_iff.1 hx
  obtain ⟨target, o, pattern, htarget, ho, hpattern, hguarded⟩ :=
    guarded_of_steps ht hmixer hnames ⟨.byte, none⟩ hy hc he
  rw [callChunks_of_ofText ht htarget ho hpattern] at hpieces
  refine ⟨hmixer, hnames, t, y, c, e, ht, hy, hc, he, htext, target, o, pattern, htarget, ho, hpattern,
    hguarded, hguarded.kinds_eq (.of_texts hpieces hstay), x, rest, hargs, hatomic, ?_⟩
  exact (hguarded.bare x (List.mem_of_mem_head? hx) hatomic).2 hopens

/-- The theorem says no more of the replaced text. The type parameters of a declaration show their
brackets, not only lists of type arguments do; a call in front of a name is read as a cast; two pieces
that are put together can be read as one; and a name that is no identifier can hold a bracket. -/
theorem not_sealed_of_steps : Replaces ⟨"KTypeA.java"⟩
      "class KTypeA<KType> \x7b int f = Intrinsics.numeric(class A<T> \x7b \x7d); \x7d" {} ⟨.int, none⟩
      (fun _ c text => c.hint = none
        ∧ (Outline.operandPlaces (Expr.entries c.args)).any Outline.isTypeArgs = false
        ∧ ¬Sealed (fun _ => False) (own (kindsOf text)))
    ∧ Replaces ⟨"KTypeA.java"⟩
      "class KTypeA<KType> \x7b int f = Intrinsics.add(Intrinsics.cast(a & b) c, d); \x7d" {} ⟨.int, none⟩
      (fun t c text => text = "((a & b) c + d)"
        ∧ ∃ x ∈ c.args, ((t.job ⟨.int, none⟩).chunkedOperand x).atomic = true
          ∧ BeginsCast ((t.job ⟨.int, none⟩).marks ((t.job ⟨.int, none⟩).chunkedOperand x).chunks))
    ∧ Replaces ⟨"KTypeA.java"⟩
      "class KTypeA<KType> \x7b int f = Intrinsics.isEmpty(\"\"Intrinsics.numeric(\"x\")); \x7d" {} ⟨.int, none⟩
      (fun _ _ text => ¬Balanced (own (kindsOf text)))
    ∧ Replaces ⟨"K)A.java"⟩ "class A<T> \x7b int f = Intrinsics.compare(a, b); \x7d"
      ⟨"K)", "VType", "Intrinsics", "BitMixer.mix"⟩ ⟨.generic, none⟩
      (fun _ _ text => ¬Balanced (own (kindsOf text))) := by
  have hdeclaration : ¬Sealed (fun _ => False) (own (kindsOf "class A<T> \x7b \x7d")) := by
    intro h
    have hkinds : kindsOf "class A<T> \x7b \x7d"
        = [.kwClass, .identifier, .less, .identifier, .greater, .leftBrace, .rightBrace] := by
      decide +kernel
    rw [hkinds] at h
    have hless := ((h.of_cons rfl).2.of_cons rfl).2.of_cons rfl
    cases hless.1
  have hcount {text : String}
      (h : ((kindsOf text).count .leftParen != (kindsOf text).count .rightParen) = true) :
      ¬Balanced (own (kindsOf text)) := by
    intro hbalanced
    have heq := hbalanced.count_eq .paren
    rw [map_kind_own] at heq
    exact bne_iff_ne.1 h heq
  have hlist : anyReplaced ⟨"KTypeA.java"⟩
      "class KTypeA<KType> \x7b int f = Intrinsics.numeric(class A<T> \x7b \x7d); \x7d" {} ⟨.int, none⟩
      (fun _ c text => c.hint.isNone && !(Outline.operandPlaces (Expr.entries c.args)).any Outline.isTypeArgs
        && text == "class A<T> \x7b \x7d") = true := by
    decide +kernel
  have hcast : anyReplaced ⟨"KTypeA.java"⟩
      "class KTypeA<KType> \x7b int f = Intrinsics.add(Intrinsics.cast(a & b) c, d); \x7d" {} ⟨.int, none⟩
      (fun t c text => text == "((a & b) c + d)"
        && c.args.any fun x => ((t.job ⟨.int, none⟩).chunkedOperand x).atomic
          && ((t.job ⟨.int, none⟩).marks ((t.job ⟨.int, none⟩).chunkedOperand x).chunks).map (·.kind)
            == [.leftParen, .identifier, .amp, .identifier, .rightParen, .identifier]) = true := by
    decide +kernel
  have hjoint : anyReplaced ⟨"KTypeA.java"⟩
      "class KTypeA<KType> \x7b int f = Intrinsics.isEmpty(\"\"Intrinsics.numeric(\"x\")); \x7d" {} ⟨.int, none⟩
      (fun _ _ text => (kindsOf text).count .leftParen != (kindsOf text).count .rightParen) = true := by
    decide +kernel
  have hname : anyReplaced ⟨"K)A.java"⟩ "class A<T> \x7b int f = Intrinsics.compare(a, b); \x7d"
      ⟨"K)", "VType", "Intrinsics", "BitMixer.mix"⟩ ⟨.generic, none⟩
      (fun _ _ text => (kindsOf text).count .leftParen != (kindsOf text).count .rightParen) = true := by
    decide +kernel
  refine ⟨(replaces_of_any hlist).mono fun _ c text h => ?_, (replaces_of_any hcast).mono fun _ _ _ h => ?_,
    (replaces_of_any hjoint).mono fun _ _ _ => hcount, (replaces_of_any hname).mono fun _ _ _ => hcount⟩
  · simp only [Bool.and_eq_true, Option.isNone_iff_eq_none, Bool.not_eq_true', beq_iff_eq] at h
    exact ⟨h.1.1, h.1.2, h.2 ▸ hdeclaration⟩
  · have hinner : WellNested ([.identifier, .amp, .identifier].filter Kind.isBracket) := .nil
    simp only [Bool.and_eq_true, beq_iff_eq, List.any_eq_true] at h
    obtain ⟨htext, x, hx, hatomic, hkinds⟩ := h
    exact ⟨htext, x, hx, hatomic, beginsCast_of_kinds hkinds
      hinner rfl⟩

end Template

end Stencil
