import Stencil.Proofs.Grammar.Bracket
import Stencil.Proofs.Rewrite.Marks

/-!
# What operations are replaced by

A replacement stands among the operators of the template, so none of its own may show: outside of
brackets it holds no operator, but for the angle brackets of lists. Each pattern says so of its own
texts, as they are a name, a creation, a pair of parentheses, or a member of what is in front of them.
Of the arguments it is asked that their brackets are well nested and that those that stand without
parentheses show no operator either.

Results: a pattern with such arguments filled in is a name, a creation, a pair of parentheses, an
argument as it is, or a member of one of these (`formed_pattern`), so it shows no operator
(`Formed.sealed`); and each argument stands in it once, in order, and where nothing but brackets and
commas are beside it if it stands as it is (`Operation.placed_of_pattern`).
-/

namespace Stencil

/-- Does a token of the kind join what is beside it: is it an operator of arithmetic, comparison, logic,
assignment or choice, an arrow, or a type test? -/
def Kind.joins : Kind → Bool
  | .equal | .equalEqual | .bang | .bangEqual | .less | .lessEqual | .lessLess | .lessLessEqual
  | .greater | .plus | .plusEqual | .plusPlus | .minus | .minusEqual | .minusMinus | .arrow | .star
  | .starEqual | .slash | .slashEqual | .percent | .percentEqual | .amp | .ampEqual | .ampAmp
  | .pipe | .pipeEqual | .pipePipe | .caret | .caretEqual | .tilde | .question | .colon
  | .kwInstanceof => true
  | _ => false

/-- Names with dots between them. -/
def IsDottedName (text : String) : Prop :=
  ∃ names, names ≠ [] ∧ (∀ name ∈ names, isName name = true) ∧ text = ".".intercalate names

namespace Rewrite

/-- Are the brackets among the tokens well nested? -/
def Balanced (xs : List Mark) : Prop :=
  WellNested ((xs.map (·.kind)).filter Kind.isBracket)

/-- Tokens with well-nested brackets, and with no operator outside of brackets and of the given lists. -/
inductive Sealed (lists : List Mark → Prop) : List Mark → Prop where
  | nil : Sealed lists []
  | word {x : Mark} {xs : List Mark} (hbracket : x.kind.isBracket = false)
    (hjoins : x.kind.joins = false) (h : Sealed lists xs) : Sealed lists (x :: xs)
  | pair {x y : Mark} {inner xs : List Mark} (d : Delimiter) (hx : x.kind = d.opening)
    (hy : y.kind = d.closing) (hinner : Balanced inner) (h : Sealed lists xs) :
    Sealed lists (x :: (inner ++ y :: xs))
  | list {xs ys : List Mark} (hlist : lists xs) (h : Sealed lists ys) : Sealed lists (xs ++ ys)

variable {lists lists' : List Mark → Prop} {xs ys : List Mark} {x y : Mark} {d : Delimiter}

namespace Balanced

theorem append (hx : Balanced xs) (hy : Balanced ys) : Balanced (xs ++ ys) := by
  rw [Balanced, List.map_append, List.filter_append]
  exact WellNested.append hx hy

theorem of_words (h : ∀ x ∈ xs, x.kind.isBracket = false) : Balanced xs := by
  have hnone : (xs.map (·.kind)).filter Kind.isBracket = [] := by
    simpa [List.filter_eq_nil_iff] using h
  rw [Balanced, hnone]
  exact .nil

theorem nil : Balanced [] :=
  .of_words (by simp)

theorem word (h : x.kind.isBracket = false) : Balanced [x] :=
  .of_words (by simpa using h)

theorem wrap (d : Delimiter) (hx : x.kind = d.opening) (hy : y.kind = d.closing) (h : Balanced xs) :
    Balanced ([x] ++ xs ++ [y]) := by
  have hwrap := WellNested.wrap d h
  simpa [Balanced, hx, hy, d.isBracket_opening, d.isBracket_closing] using hwrap

theorem parens (h : Balanced xs) : Balanced (own [.leftParen] ++ xs ++ own [.rightParen]) :=
  h.wrap .paren rfl rfl

theorem squares (h : Balanced xs) : Balanced (own [.leftBracket] ++ xs ++ own [.rightBracket]) :=
  h.wrap .bracket rfl rfl

/-- As many brackets open as close. -/
theorem count_eq (h : Balanced xs) (d : Delimiter) :
    (xs.map (·.kind)).count d.opening = (xs.map (·.kind)).count d.closing := by
  have hnested {ks : List Kind} (hks : WellNested ks) : ks.count d.opening = ks.count d.closing := by
    induction hks with
    | nil => rfl
    | pair d' _ _ hinner hrest =>
      simp only [List.count_cons, List.count_append, hinner, hrest]
      cases d <;> cases d' <;> simp [Delimiter.opening, Delimiter.closing] <;> omega
  rw [← List.count_filter d.isBracket_opening, ← List.count_filter d.isBracket_closing]
  exact hnested h

end Balanced

namespace Sealed

theorem append (hx : Sealed lists xs) (hy : Sealed lists ys) : Sealed lists (xs ++ ys) := by
  induction hx with
  | nil => exact hy
  | word hbracket hjoins _ ih => exact .word hbracket hjoins ih
  | pair d hopening hclosing hinner _ ih =>
    rw [List.cons_append, List.append_assoc, List.cons_append]
    exact .pair d hopening hclosing hinner ih
  | list hlist _ ih =>
    rw [List.append_assoc]
    exact .list hlist ih

theorem of_words (h : ∀ x ∈ xs, x.kind.isBracket = false ∧ x.kind.joins = false) : Sealed lists xs := by
  induction xs with
  | nil => exact .nil
  | cons x xs ih =>
    rw [List.forall_mem_cons] at h
    exact .word h.1.1 h.1.2 (ih h.2)

theorem wrap (d : Delimiter) (hx : x.kind = d.opening) (hy : y.kind = d.closing) (h : Balanced xs) :
    Sealed lists ([x] ++ xs ++ [y]) := by
  rw [List.append_assoc]
  exact .pair d hx hy h .nil

theorem parens (h : Balanced xs) : Sealed lists (own [.leftParen] ++ xs ++ own [.rightParen]) :=
  .wrap .paren rfl rfl h

theorem squares (h : Balanced xs) : Sealed lists (own [.leftBracket] ++ xs ++ own [.rightBracket]) :=
  .wrap .bracket rfl rfl h

theorem of_list (h : lists xs) : Sealed lists xs := by
  simpa using Sealed.list h .nil

theorem mono (hlists : ∀ xs, lists xs → lists' xs) (h : Sealed lists xs) : Sealed lists' xs := by
  induction h with
  | nil => exact .nil
  | word hbracket hjoins _ ih => exact .word hbracket hjoins ih
  | pair d hx hy hinner _ ih => exact .pair d hx hy hinner ih
  | list hlist _ ih => exact .list (hlists _ hlist) ih

/-- Where no list counts, a token that is no bracket is no operator. -/
theorem of_cons (h : Sealed (fun _ => False) (x :: xs)) (hx : x.kind.isBracket = false) :
    x.kind.joins = false ∧ Sealed (fun _ => False) xs := by
  generalize hys : x :: xs = ys at h
  cases h with
  | nil => contradiction
  | word _ hjoins hrest =>
    obtain ⟨rfl, rfl⟩ := List.cons.inj hys
    exact ⟨hjoins, hrest⟩
  | pair d hopening _ _ _ =>
    obtain ⟨rfl, -⟩ := List.cons.inj hys
    rw [hopening, d.isBracket_opening] at hx
    contradiction
  | list hlist _ => exact hlist.elim

theorem balanced (hlists : ∀ xs, lists xs → Balanced xs) (h : Sealed lists xs) : Balanced xs := by
  induction h with
  | nil => exact .nil
  | word hbracket _ _ ih =>
    rw [← List.singleton_append]
    exact (Balanced.word hbracket).append ih
  | @pair x y inner xs d hx hy hinner _ ih =>
    have hsplit : x :: (inner ++ y :: xs) = [x] ++ inner ++ [y] ++ xs := by
      simp
    rw [hsplit]
    exact (hinner.wrap d hx hy).append ih
  | list hlist _ ih => exact (hlists _ hlist).append ih

end Sealed

variable {j : Job} {mixer : String} {target : Target} {args : List ChunkedOperand}
  {pattern : List Fragment} {n : Nat}

/-! ## Own texts -/

/-- The tokens of the texts that patterns are made of. -/
theorem kindsOf_own : kindsOf "(" = [.leftParen] ∧ kindsOf ")" = [.rightParen]
    ∧ kindsOf "[" = [.leftBracket] ∧ kindsOf "]" = [.rightBracket] ∧ kindsOf ", " = [.comma]
    ∧ kindsOf "<" = [.less] ∧ kindsOf ">" = [.greater]
    ∧ kindsOf " == " = [.equalEqual] ∧ kindsOf " + " = [.plus] ∧ kindsOf " ^ " = [.caret]
    ∧ kindsOf " == null)" = [.equalEqual, .kwNull, .rightParen]
    ∧ kindsOf " == 0)" = [.equalEqual, .intLiteral, .rightParen]
    ∧ kindsOf " == 0L)" = [.equalEqual, .intLiteral, .rightParen]
    ∧ kindsOf "Float.floatToIntBits(" = [.identifier, .dot, .identifier, .leftParen]
    ∧ kindsOf "Double.doubleToLongBits(" = [.identifier, .dot, .identifier, .leftParen]
    ∧ kindsOf ".equals(" = [.dot, .identifier, .leftParen]
    ∧ kindsOf "java.util.Objects.equals("
      = [.identifier, .dot, .identifier, .dot, .identifier, .dot, .identifier, .leftParen]
    ∧ kindsOf "java.util.Objects.hashCode("
      = [.identifier, .dot, .identifier, .dot, .identifier, .dot, .identifier, .leftParen]
    ∧ kindsOf "((Comparable<? super "
      = [.leftParen, .leftParen, .identifier, .less, .question, .kwSuper]
    ∧ kindsOf ">) " = [.greater, .rightParen]
    ∧ kindsOf ").compareTo(" = [.rightParen, .dot, .identifier, .leftParen]
    ∧ kindsOf ".compare(" = [.dot, .identifier, .leftParen]
    ∧ kindsOf "((" = [.leftParen, .leftParen] ∧ kindsOf ") " = [.rightParen]
    ∧ kindsOf "[]) new Object[" = [.leftBracket, .rightBracket, .rightParen, .kwNew, .identifier, .leftBracket]
    ∧ kindsOf "])" = [.rightBracket, .rightParen] ∧ kindsOf "new " = [.kwNew] := by
  decide +kernel

theorem quiet_typeName (t : ConcreteType) :
    ∀ x ∈ own (kindsOf t.typeName), x.kind.isBracket = false ∧ x.kind.joins = false := by
  cases t <;> decide +kernel

/-- The tokens of names with dots between them. -/
theorem exists_strewn_dotted {names : List String} : ∀ {name : String},
    (∀ x ∈ name :: names, isName x = true) →
    ∃ xs, (∀ x ∈ xs, x.kind = .identifier ∨ x.kind = .dot) ∧ Phrase (⟨.identifier, name⟩ :: xs)
      ∧ Strewn (⟨.identifier, name⟩ :: xs) (".".intercalate (name :: names)).toList := by
  induction names with
  | nil =>
    intro name h
    have hstrewn := Strewn.token ⟨.identifier, name⟩
    exact ⟨[], by simp, phrase_name (h name List.mem_cons_self), by simpa using hstrewn⟩
  | cons next names ih =>
    intro name h
    rw [List.forall_mem_cons] at h
    obtain ⟨xs, hkinds, hphrase, hstrewn⟩ := ih h.2
    have hname := phrase_name h.1
    have hdotted := phrase_dot (x := ⟨.identifier, next⟩) rfl hphrase
    have hdot : Strewn (Kind.dot.lexeme :: ⟨.identifier, next⟩ :: xs)
        ('.' :: (".".intercalate (next :: names)).toList) :=
      (Strewn.token Kind.dot.lexeme).append hstrewn (by simpa using isOfType_of_mem (by decide))
        (.inl (by rintro _ ⟨⟩; rfl))
    refine ⟨Kind.dot.lexeme :: ⟨.identifier, next⟩ :: xs, ?_, hname.append hdotted, ?_⟩
    · simpa [Kind.lexeme] using hkinds
    · have hpoint : Scan.isNamePart '.' = false := by decide +kernel
      have htext := (Strewn.token ⟨.identifier, name⟩).append hdot hname.tokens (.inr hpoint)
      simpa [String.intercalate_cons_cons] using htext

/-- The name of the mixer is made up of words. -/
theorem quiet_dotted {text : String} (h : IsDottedName text) : kindsOf text ≠ []
    ∧ ∀ x ∈ own (kindsOf text), x.kind.isBracket = false ∧ x.kind.joins = false := by
  obtain ⟨names, hne, hnames, rfl⟩ := h
  obtain ⟨name, names, rfl⟩ := List.exists_cons_of_ne_nil hne
  obtain ⟨xs, hkinds, hphrase, hstrewn⟩ := exists_strewn_dotted hnames
  rw [kindsOf_of_strewn hstrewn hphrase]
  refine ⟨by simp, fun x hx => ?_⟩
  obtain ⟨k, hk, rfl⟩ := List.mem_map.1 hx
  have hkind : k = .identifier ∨ k = .dot := by
    obtain ⟨y, hy, rfl⟩ := List.mem_map.1 hk
    exact (List.mem_cons.1 hy).elim (fun h => .inl (h ▸ rfl)) (hkinds y)
  rcases hkind with rfl | rfl <;> exact ⟨rfl, rfl⟩

/-! ## Forms of replacements -/

/-- Tokens as a replacement shows them, if those of the arguments that stand as they are are given: such
an argument, tokens in parentheses, a word with tokens behind it that show no operator, or a member of
one of these. -/
inductive Formed (stands : List Mark → Prop) : List Mark → Prop where
  | bare {xs : List Mark} (h : stands xs) : Formed stands xs
  | parens {xs : List Mark} (h : Balanced xs) :
    Formed stands (own [.leftParen] ++ xs ++ own [.rightParen])
  | word {x : Mark} {xs : List Mark} (hbracket : x.kind.isBracket = false)
    (hjoins : x.kind.joins = false) (h : Sealed (fun _ => False) xs) : Formed stands (x :: xs)
  | member {xs ys : List Mark} (hx : Formed stands xs) (hy : Sealed (fun _ => False) ys) :
    Formed stands (xs ++ (own [.dot] ++ ys))

namespace Formed

variable {stands : List Mark → Prop}

theorem words (hne : xs ≠ []) (hxs : ∀ x ∈ xs, x.kind.isBracket = false ∧ x.kind.joins = false)
    (hys : Sealed (fun _ => False) ys) : Formed stands (xs ++ ys) := by
  obtain ⟨x, xs, rfl⟩ := List.exists_cons_of_ne_nil hne
  rw [List.forall_mem_cons] at hxs
  exact .word hxs.1.1 hxs.1.2 ((Sealed.of_words hxs.2).append hys)

/-- What has one of these forms shows no operator, if the arguments show none. -/
theorem sealed (hstands : ∀ xs, stands xs → Sealed lists xs) (h : Formed stands xs) :
    Sealed lists xs := by
  induction h with
  | bare h => exact hstands _ h
  | parens h => exact .parens h
  | word hbracket hjoins h => exact .word hbracket hjoins (h.mono fun _ => False.elim)
  | member _ hy ih => exact ih.append (.word rfl rfl (hy.mono fun _ => False.elim))

end Formed

/-! ## Arguments -/

/-- Are the brackets of the arguments well nested, and do those that stand without parentheses show no
operator? -/
structure Operands (j : Job) (lists : List Mark → Prop) (args : List ChunkedOperand) : Prop where
  balanced : ∀ a ∈ args, Balanced (j.marks a.chunks)
  atomic : ∀ a ∈ args, a.atomic = true → Sealed lists (j.marks a.chunks)

/-- The code tokens of a pattern with the arguments filled in. -/
def patternMarks (j : Job) (args : List ChunkedOperand) (pattern : List Fragment) : List Mark :=
  j.marks (pattern.flatMap (Fragment.chunks args))

@[simp] theorem patternMarks_nil : patternMarks j args [] = [] := rfl

@[simp] theorem patternMarks_cons {f : Fragment} : patternMarks j args (f :: pattern)
    = j.marks (f.chunks args) ++ patternMarks j args pattern := by
  rw [patternMarks, List.flatMap_cons, Job.marks_append, patternMarks]

@[simp] theorem patternMarks_append {pattern' : List Fragment} : patternMarks j args (pattern ++ pattern')
    = patternMarks j args pattern ++ patternMarks j args pattern' := by
  rw [patternMarks, List.flatMap_append, Job.marks_append, patternMarks, patternMarks]

@[simp] theorem marks_fixed {text : String} :
    j.marks ((Fragment.fixed text).chunks args) = own (kindsOf text) := by
  simp [Fragment.chunks]

/-- Are these the tokens of an argument that stands without parentheses? -/
def Bare (j : Job) (args : List ChunkedOperand) (xs : List Mark) : Prop :=
  ∃ a ∈ args, a.atomic = true ∧ xs = j.marks a.chunks

theorem Operands.sealed_of_bare (h : Operands j lists args) (hxs : Bare j args xs) : Sealed lists xs := by
  obtain ⟨a, ha, hatomic, rfl⟩ := hxs
  exact h.atomic a ha hatomic

section

variable (h : ∀ a ∈ args, Balanced (j.marks a.chunks))
include h

theorem balanced_plain (i : Nat) : Balanced (j.marks ((Fragment.plain i).chunks args)) := by
  rw [Fragment.chunks]
  cases hi : args[i]? with
  | none => exact .nil
  | some a => exact h a (List.mem_of_getElem? hi)

theorem formed_beside {i : Nat} (hi : i < args.length) :
    Formed (Bare j args) (j.marks ((Fragment.beside i).chunks args)) := by
  have ha : args[i] ∈ args := List.getElem_mem hi
  rw [Fragment.chunks, List.getElem?_eq_getElem hi, Option.map_some, Option.getD_some,
    ChunkedOperand.wrapped]
  split
  · rename_i hatomic
    exact .bare ⟨_, ha, hatomic, rfl⟩
  · have hwrapped : Formed (Bare j args) (own [.leftParen] ++ j.marks args[i].chunks ++ own [.rightParen]) :=
      .parens (h _ ha)
    simpa [kindsOf_own] using hwrapped

theorem balanced_beside (i : Nat) : Balanced (j.marks ((Fragment.beside i).chunks args)) := by
  by_cases hi : i < args.length
  · have hlists : ∀ xs, Bare j args xs → Sealed Balanced xs := by
      rintro _ ⟨a, ha, -, rfl⟩
      exact .of_list (h a ha)
    exact ((formed_beside h hi).sealed hlists).balanced fun _ h => h
  · rw [Fragment.chunks, List.getElem?_eq_none (Nat.le_of_not_lt hi)]
    exact .nil

/-! ## Patterns -/

theorem balanced_bits (t : ConcreteType) (i : Nat) :
    Balanced (patternMarks j args (Operation.bits t i)) := by
  have hcall : Balanced (own [.identifier, .dot, .identifier]
      ++ (own [.leftParen] ++ j.marks ((Fragment.plain i).chunks args) ++ own [.rightParen])) :=
    .append (.of_words (by decide)) (balanced_plain h i).parens
  cases t <;> first
    | simpa [Operation.bits] using balanced_plain h i
    | simpa [Operation.bits, kindsOf_own] using hcall

theorem formed_isEmpty (t : ConcreteType) :
    Formed (Bare j args) (patternMarks j args (Operation.isEmptyPattern t)) := by
  have compared {xs : List Mark} (hx : Balanced xs) {k : Kind} (hk : k.isBracket = false) :
      Formed (Bare j args) (own [.leftParen] ++ (xs ++ own [.equalEqual, k]) ++ own [.rightParen]) :=
    .parens (hx.append (.of_words (by simpa using ⟨rfl, hk⟩)))
  have hnull := compared (balanced_beside h 0) (k := .kwNull) rfl
  have hzero := compared (balanced_beside h 0) (k := .intLiteral) rfl
  have hbits (t : ConcreteType) := compared (balanced_bits h t 0) (k := .intLiteral) rfl
  cases t with
  | generic => simpa [Operation.isEmptyPattern, kindsOf_own] using hnull
  | float => simpa [Operation.isEmptyPattern, kindsOf_own] using hbits .float
  | double => simpa [Operation.isEmptyPattern, kindsOf_own] using hbits .double
  | _ => simpa [Operation.isEmptyPattern, kindsOf_own] using hzero

omit h in
theorem formed_emptyText (t : ConcreteType) :
    Formed (Bare j args) (own (kindsOf (Operation.emptyText t))) := by
  have hcast {k : Kind} (hk : k.isBracket = false) : Formed (Bare j args)
      (own [.leftParen, .leftParen, k, .rightParen, .intLiteral, .rightParen]) := by
    have hname : Balanced (own [k]) := .word hk
    have hzero : Balanced (own [.intLiteral]) := .word rfl
    exact .parens (hname.parens.append hzero)
  cases t with
  | generic => exact .word rfl rfl .nil
  | float => exact .word rfl rfl .nil
  | double => exact .word rfl rfl .nil
  | byte => exact hcast (k := .kwByte) rfl
  | char => exact hcast (k := .kwChar) rfl
  | short => exact hcast (k := .kwShort) rfl
  | int => exact hcast (k := .kwInt) rfl
  | long => exact hcast (k := .kwLong) rfl

theorem formed_equals (t : ConcreteType) (comparer : Option Nat) (a c : Nat)
    (hcomparer : ∀ o ∈ comparer, o < args.length) :
    Formed (Bare j args) (patternMarks j args (Operation.equalsPattern t comparer a c)) := by
  have joined {xs ys : List Mark} (hx : Balanced xs) (hy : Balanced ys) {k : Kind}
      (hk : k.isBracket = false) :
      Formed (Bare j args) (own [.leftParen] ++ (xs ++ own [k] ++ ys) ++ own [.rightParen]) :=
    .parens ((hx.append (.word hk)).append hy)
  have hvalues := joined (balanced_beside h a) (balanced_beside h c) (k := .equalEqual) rfl
  have hbits (t : ConcreteType) := joined (balanced_bits h t a) (balanced_bits h t c) (k := .equalEqual) rfl
  cases t with
  | generic =>
    have hboth : Sealed (fun _ => False) (own [.leftParen] ++ (j.marks ((Fragment.plain a).chunks args)
        ++ own [.comma] ++ j.marks ((Fragment.plain c).chunks args)) ++ own [.rightParen]) :=
      .parens (((balanced_plain h a).append (.word rfl)).append (balanced_plain h c))
    cases comparer with
    | none =>
      have hcall : Formed (Bare j args)
          (own [.identifier, .dot, .identifier, .dot, .identifier, .dot, .identifier] ++ _) :=
        .words (by simp [own]) (by decide) hboth
      simpa [Operation.equalsPattern, kindsOf_own] using hcall
    | some o =>
      have hname : Sealed (fun _ => False) (own [.identifier]) := .of_words (by decide)
      have hcall := (formed_beside h (hcomparer o rfl)).member (hname.append hboth)
      simpa [Operation.equalsPattern, kindsOf_own] using hcall
  | float => simpa [Operation.equalsPattern, ConcreteType.isFloating, kindsOf_own] using hbits .float
  | double => simpa [Operation.equalsPattern, ConcreteType.isFloating, kindsOf_own] using hbits .double
  | _ => simpa [Operation.equalsPattern, ConcreteType.isFloating, kindsOf_own] using hvalues

theorem formed_compare (hvariable : Balanced (own (kindsOf target.variableText))) :
    Formed (Bare j args) (patternMarks j args (Operation.comparePattern target)) := by
  have hclass (t : ConcreteType) : kindsOf t.wrapperClass = [.identifier] := by
    cases t <;> decide +kernel
  have hcomparable : Balanced (own [.leftParen] ++ (own [.identifier, .less, .question, .kwSuper]
      ++ own (kindsOf target.variableText) ++ own [.greater]) ++ own [.rightParen]) :=
    .parens ((Balanced.of_words (by decide)).append hvariable |>.append (.word rfl))
  have hoperand : Formed (Bare j args) (own [.leftParen] ++ (_ ++ _) ++ own [.rightParen]) :=
    .parens (hcomparable.append (balanced_beside h 0))
  have hname : Sealed (fun _ => False) (own [.identifier]) := .of_words (by decide)
  have hother : Sealed (fun _ => False) (own [.leftParen] ++ j.marks ((Fragment.plain 1).chunks args)
      ++ own [.rightParen]) := .parens (balanced_plain h 1)
  have hboth : Sealed (fun _ => False) (own [.leftParen] ++ (j.marks ((Fragment.plain 0).chunks args)
      ++ own [.comma] ++ j.marks ((Fragment.plain 1).chunks args)) ++ own [.rightParen]) :=
    .parens (((balanced_plain h 0).append (.word rfl)).append (balanced_plain h 1))
  have hcall : Formed (Bare j args) (own [.identifier, .dot, .identifier] ++ _) :=
    .words (by simp [own]) (by decide) hboth
  rw [Operation.comparePattern]
  split
  · simpa [kindsOf_own] using hoperand.member (hname.append hother)
  · simpa [kindsOf_own, hclass] using hcall

theorem formed_mix (hmixer : IsDottedName mixer) (t : ConcreteType) (seeded : Bool) :
    Formed (Bare j args) (patternMarks j args (Operation.mixPattern mixer t seeded)) := by
  have hhash : Balanced (own [.identifier, .dot, .identifier, .dot, .identifier, .dot, .identifier]
      ++ (own [.leftParen] ++ j.marks ((Fragment.plain 0).chunks args) ++ own [.rightParen])) :=
    .append (.of_words (by decide)) (balanced_plain h 0).parens
  obtain ⟨hne, hquiet⟩ := quiet_dotted hmixer
  have mixed {xs : List Mark} (hx : Balanced xs) : Formed (Bare j args)
      (own (kindsOf mixer) ++ (own [.leftParen] ++ xs ++ own [.rightParen])) :=
    .words (by simpa [own] using hne) hquiet (.parens hx)
  unfold Operation.mixPattern
  extract_lets hashed
  have hhashed : Balanced (patternMarks j args hashed) := by
    unfold hashed
    split
    · simpa [kindsOf_own] using hhash
    split
    · exact balanced_bits h t 0
    split
    · simpa using balanced_beside h 0
    · simpa using balanced_plain h 0
  have hseeded : Balanced (patternMarks j args hashed ++ own [.caret]
      ++ j.marks ((Fragment.beside 1).chunks args)) :=
    (hhashed.append (.word rfl)).append (balanced_beside h 1)
  cases seeded with
  | false => simpa [kindsOf_own] using mixed hhashed
  | true => simpa [kindsOf_own] using mixed hseeded

theorem formed_newArray (hvariable : Balanced (own (kindsOf target.variableText))) :
    Formed (Bare j args) (patternMarks j args (Operation.newArrayPattern target)) := by
  have hcast : Balanced (own [.leftParen] ++ (own (kindsOf target.variableText)
      ++ (own [.leftBracket] ++ [] ++ own [.rightBracket])) ++ own [.rightParen]) :=
    .parens (hvariable.append Balanced.nil.squares)
  have hobjects : Balanced (own [.kwNew, .identifier]) := .of_words (by decide)
  have hlength := (balanced_plain h 0).squares
  have hgeneric : Formed (Bare j args) (own [.leftParen] ++ (_ ++ _) ++ own [.rightParen]) :=
    .parens (hcast.append (hobjects.append hlength))
  have hname : Sealed (fun _ => False) (own (kindsOf target.type.typeName)) :=
    .of_words (quiet_typeName target.type)
  have hprimitive : Formed (Bare j args) (own [.kwNew] ++ (_ ++ _)) :=
    .words (by simp [own]) (by decide) (hname.append (.squares (balanced_plain h 0)))
  rw [Operation.newArrayPattern]
  split
  · simpa [kindsOf_own] using hgeneric
  · simpa [kindsOf_own] using hprimitive

theorem formed_cast (hvariable : Balanced (own (kindsOf target.variableText)))
    (hargs : 0 < args.length) :
    Formed (Bare j args) (patternMarks j args (Operation.castPattern target)) := by
  have hcast : Formed (Bare j args) (own [.leftParen] ++ (_ ++ _) ++ own [.rightParen]) :=
    .parens (hvariable.parens.append (balanced_beside h 0))
  rw [Operation.castPattern]
  split
  · simpa [kindsOf_own] using hcast
  · simpa using formed_beside h hargs

theorem formed_add (t : ConcreteType) :
    Formed (Bare j args) (patternMarks j args (Operation.addPattern t)) := by
  have hsum : Balanced (j.marks ((Fragment.beside 0).chunks args) ++ own [.plus]
      ++ j.marks ((Fragment.beside 1).chunks args)) :=
    ((balanced_beside h 0).append (.word rfl)).append (balanced_beside h 1)
  have hname : Balanced (own (kindsOf t.typeName)) := .of_words fun x hx => (quiet_typeName t x hx).1
  have hcast : Formed (Bare j args) (own [.leftParen] ++ (_ ++ _) ++ own [.rightParen]) :=
    .parens (hname.parens.append hsum.parens)
  have hplain : Formed (Bare j args) (own [.leftParen] ++ _ ++ own [.rightParen]) := .parens hsum
  rw [Operation.addPattern]
  split
  · simpa [kindsOf_own] using hcast
  · simpa [kindsOf_own] using hplain

/-- A replacement has one of the forms, if the mixer is a name with dots and the brackets of the type
variable are well nested. -/
theorem formed_pattern (hmixer : IsDottedName mixer)
    (hvariable : Balanced (own (kindsOf target.variableText))) {o : Operation}
    (hpattern : o.pattern mixer target args.length = .ok pattern) :
    Formed (Bare j args) (patternMarks j args pattern) := by
  generalize hn : args.length = n at hpattern
  unfold Operation.pattern at hpattern
  split at hpattern
  · cases hpattern
    exact formed_isEmpty h target.type
  · cases hpattern
    simpa using formed_emptyText target.type
  · cases hpattern
    exact formed_equals h target.type (some 0) 1 2 (by simp [hn])
  · cases hpattern
    exact formed_equals h target.type none 0 1 (by simp)
  · cases hpattern
    exact formed_compare h hvariable
  · cases hpattern
    exact formed_mix h hmixer target.type false
  · cases hpattern
    exact formed_mix h hmixer target.type true
  · cases hpattern
    exact formed_newArray h hvariable
  · cases hpattern
    exact formed_cast h hvariable (by omega)
  · split at hpattern
    · cases hpattern
    · cases hpattern
      exact formed_add h target.type
  · split at hpattern
    · cases hpattern
    · cases hpattern
      simpa using formed_beside h (i := 0) (by omega)
  · cases hpattern

end

/-! ## Where arguments stand -/

namespace Fragment

/-- The number of the argument that the fragment is. -/
def argument? : Fragment → Option Nat
  | .fixed _ => none
  | .plain i => some i
  | .beside i => some i

/-- Does the fragment end with an opening bracket or a comma? -/
def opens : Fragment → Bool
  | .fixed text => (kindsOf text).getLast?.any fun k => k.isOpenDelimiter || k == .comma
  | _ => false

/-- Does the fragment begin with a closing bracket or a comma? -/
def closes : Fragment → Bool
  | .fixed text => (kindsOf text).head?.any fun k => k.isCloseDelimiter || k == .comma
  | _ => false

/-- Does an argument that stands as it is stand between a bracket or comma and the next one? -/
def isHeld (before behind : Option Fragment) : Fragment → Bool
  | .plain _ => before.any opens && behind.any closes
  | _ => true

/-- Do all of them? -/
def areHeld (before : Option Fragment) : List Fragment → Bool
  | [] => true
  | f :: rest => f.isHeld before rest.head? && areHeld (some f) rest

/-- Of so many arguments, does each one that the pattern uses stand in it once, in order, and between
brackets and commas if it stands as it is? -/
structure Placed (n : Nat) (pattern : List Fragment) : Prop where
  once : (pattern.filterMap argument?).Sublist (List.range n)
  held : areHeld none pattern = true

end Fragment

namespace Operation

open Fragment

theorem placed_isEmpty (t : ConcreteType) : Placed 1 (isEmptyPattern t) := by
  cases t <;> exact ⟨by decide, by decide +kernel⟩

theorem placed_equals (t : ConcreteType) : Placed 2 (equalsPattern t none 0 1)
    ∧ Placed 3 (equalsPattern t (some 0) 1 2) := by
  cases t <;> exact ⟨⟨by decide, by decide +kernel⟩, ⟨by decide, by decide +kernel⟩⟩

theorem placed_compare : Placed 2 (comparePattern target) := by
  have honce : [0, 1].Sublist (List.range 2) := by decide
  rw [comparePattern]
  split <;> exact ⟨honce, by simp [areHeld, isHeld, opens, closes, kindsOf_own, Kind.isOpenDelimiter,
    Kind.isCloseDelimiter]⟩

theorem placed_mix (t : ConcreteType) : Placed 1 (mixPattern mixer t false)
    ∧ Placed 2 (mixPattern mixer t true) := by
  have hone : [0].Sublist (List.range 1) := by decide
  have htwo : [0, 1].Sublist (List.range 2) := by decide
  cases t <;> constructor <;> first
    | exact ⟨hone, by simp [mixPattern, bits, ConcreteType.isGeneric, ConcreteType.isFloating, areHeld, isHeld,
        opens, closes, kindsOf_own, Kind.isOpenDelimiter, Kind.isCloseDelimiter]⟩
    | exact ⟨htwo, by simp [mixPattern, bits, ConcreteType.isGeneric, ConcreteType.isFloating, areHeld, isHeld,
        opens, closes, kindsOf_own, Kind.isOpenDelimiter, Kind.isCloseDelimiter]⟩

theorem placed_newArray : Placed 1 (newArrayPattern target) := by
  have honce : [0].Sublist (List.range 1) := by decide
  rw [newArrayPattern]
  split <;> exact ⟨honce, by simp [areHeld, isHeld, opens, closes, kindsOf_own, Kind.isOpenDelimiter,
    Kind.isCloseDelimiter]⟩

theorem placed_cast : Placed 1 (castPattern target) := by
  have honce : [0].Sublist (List.range 1) := by decide
  rw [castPattern]
  split <;> exact ⟨honce, rfl⟩

theorem placed_add (t : ConcreteType) : Placed 2 (addPattern t) := by
  cases t <;> exact ⟨by decide, rfl⟩

/-- Each argument that a pattern uses stands in it once, in order, and an argument that stands as it is has
brackets and commas beside it. -/
theorem placed_of_pattern {o : Operation} (h : o.pattern mixer target n = .ok pattern) :
    Placed n pattern := by
  unfold Operation.pattern at h
  split at h
  · cases h
    exact placed_isEmpty target.type
  · cases h
    exact ⟨List.nil_sublist _, rfl⟩
  · cases h
    exact (placed_equals target.type).2
  · cases h
    exact (placed_equals target.type).1
  · cases h
    exact placed_compare
  · cases h
    exact (placed_mix target.type).1
  · cases h
    exact (placed_mix target.type).2
  · cases h
    exact placed_newArray
  · cases h
    exact placed_cast
  · split at h
    · cases h
    · cases h
      exact placed_add target.type
  · split at h
    · cases h
    · cases h
      exact ⟨by decide, rfl⟩
  · cases h

end Operation

end Rewrite

end Stencil
