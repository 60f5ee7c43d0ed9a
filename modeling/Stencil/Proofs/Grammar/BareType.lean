import Stencil.Proofs.Grammar.Bracket
import Stencil.Proofs.Grammar.Reads
import Stencil.Proofs.Token.Written

/-!
# Types as they are written

A type without annotations is told by its words alone: wherever its tokens stand, they are the same.
Here are the types without the positions of their tokens, and the tokens that each is written with.

Results: the tokens of a type can be written down without a gap, words apart (`BareType.phrase_words`),
and what a type reads are the tokens that it is written with (`TypeExpr.verbatim_of_reads`).
-/

namespace Stencil

open Stretch

mutual

/-- A type without annotations, wherever it stands. -/
structure BareType where
  core : BareCore
  dims : Nat

/-- A type without annotations and array dimensions, wherever it stands. -/
inductive BareCore where
  | primitive (kind : Kind)
  | named (segments : List BareSegment)

/-- One part of the name of a class, with its type arguments. -/
structure BareSegment where
  name : String
  args : Option (List BareArg)

/-- One type argument. -/
inductive BareArg where
  | type (t : BareType)
  | wildcard
  | bounded (kind : BoundKind) (t : BareType)

end

/-- The token that a keyword or a symbol is written with. -/
def Kind.lexeme (k : Kind) : Lexeme :=
  ⟨k, k.spelling.getD ""⟩

/-! ## The tokens of types -/

mutual

/-- `(Primitive | ClassType) ('[' ']')*` -/
def BareType.words : BareType → List Lexeme
  | ⟨core, dims⟩ =>
    core.words ++ (List.replicate dims [Kind.leftBracket.lexeme, Kind.rightBracket.lexeme]).flatten

/-- The keyword of a primitive type, or the parts of a class name with dots between them. -/
def BareCore.words : BareCore → List Lexeme
  | .primitive kind => [kind.lexeme]
  | .named segments => BareSegment.wordsBehind [] segments

/-- `Name TypeArgs?` for each part, the first one behind the lead and each other one behind a dot. -/
def BareSegment.wordsBehind (lead : List Lexeme) : List BareSegment → List Lexeme
  | [] => []
  | ⟨name, args⟩ :: rest =>
    lead ++ ⟨.identifier, name⟩ :: (BareArg.words? args
      ++ BareSegment.wordsBehind [Kind.dot.lexeme] rest)

/-- `('<' (TypeArg (',' TypeArg)*)? '>')?` -/
def BareArg.words? : Option (List BareArg) → List Lexeme
  | none => []
  | some args => Kind.less.lexeme :: (BareArg.wordsBehind [] args ++ [Kind.greater.lexeme])

/-- Type arguments, the first one behind the lead and each other one behind a comma. -/
def BareArg.wordsBehind (lead : List Lexeme) : List BareArg → List Lexeme
  | [] => []
  | a :: rest => lead ++ (a.words ++ BareArg.wordsBehind [Kind.comma.lexeme] rest)

/-- `Type | '?' (('extends' | 'super') Type)?` -/
def BareArg.words : BareArg → List Lexeme
  | .type t => t.words
  | .wildcard => [Kind.question.lexeme]
  | .bounded kind t => Kind.question.lexeme :: kind.keyword.lexeme :: t.words

end

/-! ## The types of the grammar -/

mutual

/-- Is the type one of the grammar: are the keywords those of primitive types, and the names names, at
least one in each class? -/
def BareType.isValid : BareType → Bool
  | ⟨core, _⟩ => core.isValid

def BareCore.isValid : BareCore → Bool
  | .primitive kind => kind.isPrimitiveType
  | .named segments => !segments.isEmpty && BareSegment.areValid segments

def BareSegment.areValid : List BareSegment → Bool
  | [] => true
  | ⟨name, args⟩ :: rest => isName name && BareArg.areValid? args && BareSegment.areValid rest

def BareArg.areValid? : Option (List BareArg) → Bool
  | none => true
  | some args => BareArg.areValid args

def BareArg.areValid : List BareArg → Bool
  | [] => true
  | a :: rest => a.isValid && BareArg.areValid rest

def BareArg.isValid : BareArg → Bool
  | .type t => t.isValid
  | .wildcard => true
  | .bounded _ t => t.isValid

end

/-! ## Types without gaps -/

theorem BareType.exists_head (t : BareType) (h : t.isValid = true) : ∃ x xs, t.words = x :: xs
    ∧ (x.kind.isPrimitiveType = true ∨ x.kind = .identifier) := by
  obtain ⟨core, dims⟩ := t
  cases core with
  | primitive kind => exact ⟨kind.lexeme, _, rfl, .inl h⟩
  | named segments =>
    match segments with
    | [] => simp [isValid, BareCore.isValid] at h
    | ⟨name, args⟩ :: rest => exact ⟨⟨.identifier, name⟩, _, rfl, .inr rfl⟩

theorem BareArg.exists_head (a : BareArg) (h : a.isValid = true) : ∃ x xs, a.words = x :: xs
    ∧ (x.kind.isPrimitiveType = true ∨ x.kind = .identifier ∨ x.kind = .question) := by
  cases a with
  | type t =>
    obtain ⟨x, xs, hwords, hx⟩ := t.exists_head h
    exact ⟨x, xs, hwords, hx.imp_right .inl⟩
  | wildcard => exact ⟨Kind.question.lexeme, [], rfl, .inr (.inr rfl)⟩
  | bounded kind t => exact ⟨Kind.question.lexeme, _, rfl, .inr (.inr rfl)⟩

section

variable {k : Kind} {xs : List Lexeme}

theorem phrase_of_isPrimitiveType (h : k.isPrimitiveType = true) : Phrase [k.lexeme] := by
  have hall : (Kind.primitiveTypes.all fun k => Kind.keywordKinds.contains k
      && k.spelling == some (k.spelling.getD "") && k != .less && k != .dot && k != .amp) = true := by
    decide +kernel
  have hk := List.all_eq_true.1 hall k (by simpa [Kind.isPrimitiveType] using h)
  simp only [Bool.and_eq_true, List.contains_eq_mem, decide_eq_true_eq, beq_iff_eq, bne_iff_ne] at hk
  obtain ⟨⟨⟨⟨hkeyword, hspelling⟩, hless⟩, hdot⟩, hamp⟩ := hk
  exact .singleton (.keyword hkeyword hspelling) ⟨hless, hdot, hamp⟩

theorem phrase_keyword (b : BoundKind) : Phrase [b.keyword.lexeme] := by
  cases b
  · exact .singleton (.keyword (by decide) rfl) ⟨by decide, by decide, by decide⟩
  · exact .singleton (.keyword (by decide) rfl) ⟨by decide, by decide, by decide⟩

theorem phrase_name {name : String} (h : isName name = true) : Phrase [⟨.identifier, name⟩] :=
  .singleton (.name h) ⟨nofun, nofun, nofun⟩

theorem isOfType_of_mem (hk : k ∈ Kind.typeSymbols) : k.lexeme.IsOfType := by
  have hall : (Kind.typeSymbols.all fun k => k.spelling == some (k.spelling.getD "")) = true := by
    decide +kernel
  exact .symbol hk (by simpa using List.all_eq_true.1 hall k hk)

theorem phrase_symbol (hk : k ∈ [Kind.greater, .comma, .question, .leftBracket, .rightBracket]) :
    Phrase [k.lexeme] := by
  have hmem : k ∈ Kind.typeSymbols := by
    revert k
    decide
  have hclosed : k ≠ .less ∧ k ≠ .dot ∧ k ≠ .amp := by
    revert k
    decide
  exact .singleton (isOfType_of_mem hmem) hclosed

theorem phrase_dims (n : Nat) :
    Phrase (List.replicate n [Kind.leftBracket.lexeme, Kind.rightBracket.lexeme]).flatten := by
  induction n with
  | zero => exact .nil
  | succ n ih =>
    rw [List.replicate_succ, List.flatten_cons]
    exact ((phrase_symbol (k := .leftBracket) (by decide)).append (phrase_symbol (by decide))).append ih

theorem phrase_angles (hx : Phrase xs) (hhead : ∀ x ∈ xs.head?, x.kind ≠ .less) :
    Phrase (Kind.less.lexeme :: (xs ++ [Kind.greater.lexeme])) := by
  have hbody : Phrase (xs ++ [Kind.greater.lexeme]) := hx.append (phrase_symbol (by decide))
  cases xs with
  | nil => exact hbody.cons (isOfType_of_mem (by decide)) ⟨fun _ => by decide, nofun, nofun⟩
  | cons x xs => exact hbody.cons (isOfType_of_mem (by decide)) ⟨fun _ => hhead x rfl, nofun, nofun⟩

end

theorem BareArg.kind_ne_less {as : List BareArg} (h : BareArg.areValid as = true) :
    ∀ x ∈ (BareArg.wordsBehind [] as).head?, x.kind ≠ .less := by
  cases as with
  | nil => nofun
  | cons a as =>
    obtain ⟨x, xs, hwords, hx⟩ := a.exists_head (Bool.and_eq_true_iff.1 h).1
    intro y hy
    have hhead : (BareArg.wordsBehind [] (a :: as)).head? = some x := by
      simp [BareArg.wordsBehind, hwords]
    obtain rfl : x = y := Option.some.inj (hhead.symm.trans hy)
    intro hless
    rw [hless] at hx
    exact absurd hx (by decide)

mutual

/-- The tokens of a type can be written down without a gap, words apart. -/
theorem BareType.phrase_words : ∀ t : BareType, t.isValid = true → Phrase t.words
  | ⟨core, dims⟩, h => (core.phrase_words h).append (phrase_dims dims)

theorem BareCore.phrase_words : ∀ c : BareCore, c.isValid = true → Phrase c.words
  | .primitive _, h => phrase_of_isPrimitiveType h
  | .named segments, h =>
    BareSegment.phrase_wordsBehind (fun _ _ hy => hy) segments (Bool.and_eq_true_iff.1 h).2

/-- The lead of a name is nothing or a dot, so it can stand in front of a name. -/
theorem BareSegment.phrase_wordsBehind {lead : List Lexeme}
    (hlead : ∀ name ys, Phrase (⟨.identifier, name⟩ :: ys) → Phrase (lead ++ ⟨.identifier, name⟩ :: ys)) :
    ∀ as, BareSegment.areValid as = true → Phrase (BareSegment.wordsBehind lead as)
  | [], _ => .nil
  | ⟨name, args⟩ :: rest, h => by
    simp only [BareSegment.areValid, Bool.and_eq_true] at h
    obtain ⟨⟨hname, hargs⟩, hrest⟩ := h
    have hdot {name : String} {ys : List Lexeme} (hy : Phrase (⟨.identifier, name⟩ :: ys)) :
        Phrase ([Kind.dot.lexeme] ++ ⟨.identifier, name⟩ :: ys) :=
      hy.cons (isOfType_of_mem (by decide)) ⟨nofun, fun _ => rfl, nofun⟩
    exact hlead _ _ ((phrase_name hname).append ((BareArg.phrase_words? args hargs).append
      (BareSegment.phrase_wordsBehind (fun _ _ => hdot) rest hrest)))

theorem BareArg.phrase_words? : ∀ as, BareArg.areValid? as = true → Phrase (BareArg.words? as)
  | none, _ => .nil
  | some as, h => phrase_angles (BareArg.phrase_wordsBehind .nil as h) (BareArg.kind_ne_less h)

theorem BareArg.phrase_wordsBehind {lead : List Lexeme} (hlead : Phrase lead) :
    ∀ as, BareArg.areValid as = true → Phrase (BareArg.wordsBehind lead as)
  | [], _ => .nil
  | a :: rest, h => by
    simp only [BareArg.areValid, Bool.and_eq_true] at h
    exact hlead.append ((a.phrase_words h.1).append
      (BareArg.phrase_wordsBehind (phrase_symbol (by decide)) rest h.2))

theorem BareArg.phrase_words : ∀ a : BareArg, a.isValid = true → Phrase a.words
  | .type t, h => t.phrase_words h
  | .wildcard, _ => phrase_symbol (by decide)
  | .bounded kind t, h =>
    (phrase_symbol (k := .question) (by decide)).append ((phrase_keyword kind).append (t.phrase_words h))

end

/-! ## The types of a tree -/

mutual

/-- The type wherever it stands, if there are no annotations on it nor on the types in it. -/
def TypeExpr.bare? : TypeExpr → Option BareType
  | ⟨[], core, dims, _⟩ => core.bare?.map (⟨·, dims⟩)
  | ⟨_ :: _, _, _, _⟩ => none

def TypeCore.bare? : TypeCore → Option BareCore
  | .primitive kind => some (.primitive kind)
  | .named segments => (TypeSegment.bareAll? segments).map .named

def TypeSegment.bareAll? : List TypeSegment → Option (List BareSegment)
  | [] => some []
  | ⟨i, args⟩ :: rest => do
    let args ← TypeArgs.bare? args
    let rest ← TypeSegment.bareAll? rest
    return ⟨i.name, args⟩ :: rest

def TypeArgs.bare? : Option TypeArgs → Option (Option (List BareArg))
  | none => some none
  | some ⟨entries, _⟩ => (TypeArg.bareAll? entries).map some

def TypeArg.bareAll? : List TypeArg → Option (List BareArg)
  | [] => some []
  | a :: rest => do
    let a ← a.bare?
    let rest ← TypeArg.bareAll? rest
    return a :: rest

def TypeArg.bare? : TypeArg → Option BareArg
  | .type t => t.bare?.map .type
  | .wildcard _ => some .wildcard
  | .bounded kind t _ => t.bare?.map (.bounded kind)

end

/-! ## Runs of given tokens -/

namespace Stretch

variable {s : Script} {p q : Nat} {xs ys : List Lexeme}

/-- The given tokens in order. -/
def verbatim (s : Script) : List Lexeme → Stretch
  | [] => empty
  | x :: xs => ⟨fun p q => s.words[p]? = some x ∧ q = p + 1, fun h => by omega⟩ ++ verbatim s xs

theorem verbatim_of_empty (h : empty p q) : verbatim s [] p q :=
  h

theorem verbatim_cons {x : Lexeme} :
    verbatim s (x :: xs) p q ↔ s.words[p]? = some x ∧ verbatim s xs (p + 1) q := by
  constructor
  · rintro ⟨m, ⟨hx, rfl⟩, h⟩
    exact ⟨hx, h⟩
  · rintro ⟨hx, h⟩
    exact ⟨p + 1, ⟨hx, rfl⟩, h⟩

theorem verbatim_append :
    verbatim s (xs ++ ys) p q ↔ ∃ m, verbatim s xs p m ∧ verbatim s ys m q := by
  induction xs generalizing p with
  | nil =>
    constructor
    · exact fun h => ⟨p, rfl, h⟩
    · rintro ⟨_, rfl, h⟩
      exact h
  | cons x xs ih =>
    simp only [List.cons_append, verbatim_cons, ih]
    constructor
    · rintro ⟨hx, m, h, h'⟩
      exact ⟨m, ⟨hx, h⟩, h'⟩
    · rintro ⟨m, ⟨hx, h⟩, h'⟩
      exact ⟨hx, m, h, h'⟩

theorem verbatim_of_append {m : Nat} (hx : verbatim s xs p m) (hy : verbatim s ys m q) :
    verbatim s (xs ++ ys) p q :=
  verbatim_append.2 ⟨m, hx, hy⟩

theorem code_of_verbatim (h : verbatim s xs p q) : s.code p q = xs := by
  induction xs generalizing p with
  | nil =>
    obtain rfl := empty_iff.1 h
    exact Script.code_self
  | cons x xs ih =>
    obtain ⟨hx, h⟩ := verbatim_cons.1 h
    obtain ⟨hp, hx⟩ := Array.getElem?_eq_some_iff.1 hx
    have hword : s.word p = x := by simp [Script.word_eq, hp, hx]
    rw [Script.code_append p.le_succ ((verbatim s xs).le h), Script.code_succ (Script.size_words ▸ hp), hword, ih h]
    rfl

theorem verbatim_of_drop (h : s.words.toList.drop p = xs ++ ys) : verbatim s xs p (p + xs.length) := by
  induction xs generalizing p with
  | nil => rfl
  | cons x xs ih =>
    have hx : s.words[p]? = some x := by
      rw [← Array.getElem?_toList, ← List.head?_drop, h]
      rfl
    have hrest : s.words.toList.drop (p + 1) = xs ++ ys := by
      rw [← List.tail_drop, h]
      rfl
    have hnext := ih hrest
    rw [Nat.succ_add_eq_add_succ] at hnext
    exact verbatim_cons.2 ⟨hx, hnext⟩

end Stretch

/-! ## What is read is what would be written -/

section

variable {s : Script} {p q : Nat}

/-- Are the tokens of the script spelled as their kinds demand? -/
def Script.IsSpelled (s : Script) : Prop :=
  ∀ x ∈ s.words, x.IsSpelled

theorem Script.IsSpelled.verbatim_of_word (hs : s.IsSpelled) (k : Kind) (hk : k.spelling.isSome = true)
    (h : Stretch.word s k p q) : verbatim s [k.lexeme] p q := by
  obtain ⟨rfl, rfl⟩ := h
  have hne : s.kind p ≠ .eof := by
    intro heof
    rw [heof] at hk
    contradiction
  have hp : p < s.words.size := Script.size_words ▸ lt_size_of_kind_ne hne
  have hword : s.word p = s.words[p] := by simp [Script.word_eq, hp]
  have hlexeme : s.words[p] = (s.kind p).lexeme := by
    obtain ⟨text, htext⟩ := Option.isSome_iff_exists.1 hk
    have hspelled := (hs _ (Array.getElem_mem hp)).spelling text
    rw [← hword] at hspelled ⊢
    rw [Kind.lexeme, htext, Option.getD_some, ← hspelled htext]
    rfl
  exact verbatim_cons.2 ⟨by rw [Array.getElem?_eq_getElem hp, hlexeme], rfl⟩

theorem Script.IsSpelled.verbatim_of_nameOf (hs : s.IsSpelled) {i : Ident} (h : nameOf s i p q) :
    isName i.name = true ∧ verbatim s [⟨.identifier, i.name⟩] p q := by
  obtain ⟨hk, rfl, rfl⟩ := h
  have hp : p < s.words.size := Script.size_words ▸ lt_size_of_kind_ne (hk ▸ by decide)
  have hword : s.word p = s.words[p] := by simp [Script.word_eq, hp]
  have hlexeme : s.words[p] = ⟨.identifier, (s.word p).text⟩ := by
    rw [← hword, ← hk]
    rfl
  refine ⟨?_, verbatim_cons.2 ⟨by rw [Array.getElem?_eq_getElem hp, hlexeme], rfl⟩⟩
  have hspelled := (hs _ (Array.getElem_mem hp)).name
  rw [← hword] at hspelled
  exact hspelled hk

theorem Script.IsSpelled.verbatim_of_dims (hs : s.IsSpelled) {n : Nat} (h : Stretch.dims s n p q) :
    verbatim s (List.replicate n [Kind.leftBracket.lexeme, Kind.rightBracket.lexeme]).flatten p q := by
  induction n generalizing p with
  | zero => exact h
  | succ n ih =>
    obtain ⟨m, ⟨_, hleft, hright⟩, h⟩ := h
    rw [List.replicate_succ, List.flatten_cons]
    have hleft := hs.verbatim_of_word .leftBracket rfl hleft
    have hright := hs.verbatim_of_word .rightBracket rfl hright
    exact verbatim_of_append (verbatim_of_append hleft hright) (ih h)

theorem TypeSegment.bareAll?_ne_nil {as : List TypeSegment} {bs : List BareSegment}
    (h : TypeSegment.bareAll? as = some bs) (has : as ≠ []) : bs ≠ [] := by
  match as with
  | [] => exact absurd rfl has
  | ⟨i, args⟩ :: rest =>
    simp only [TypeSegment.bareAll?, bind, Option.bind_eq_some_iff, pure, Option.some.injEq] at h
    obtain ⟨_, _, _, _, rfl⟩ := h
    exact List.cons_ne_nil _ _

mutual

/-- The tokens that a type without annotations reads are those that it is written with. -/
theorem TypeExpr.verbatim_of_reads (hs : s.IsSpelled) : ∀ (t : TypeExpr) {b p q}, t.bare? = some b →
    t.reads s p q → b.isValid = true ∧ verbatim s b.words p q
  | ⟨[], core, dims, _⟩, b, p, q, hb, ⟨⟨m, ⟨_, rfl, hcore⟩, hdims⟩, _⟩ => by
    obtain ⟨c, hc, rfl⟩ := Option.map_eq_some_iff.1 hb
    obtain ⟨hvalid, hwords⟩ := core.verbatim_of_reads hs hc hcore
    exact ⟨hvalid, verbatim_of_append hwords (hs.verbatim_of_dims hdims)⟩

theorem TypeCore.verbatim_of_reads (hs : s.IsSpelled) : ∀ (c : TypeCore) {b p q}, c.bare? = some b →
    c.reads s p q → b.isValid = true ∧ verbatim s b.words p q
  | .primitive kind, b, p, q, hb, ⟨hkind, h⟩ => by
    obtain rfl := Option.some.inj hb
    have hall : (Kind.primitiveTypes.all fun k => k.spelling.isSome) = true := by decide
    have hspelling := List.all_eq_true.1 hall kind (by simpa [Kind.isPrimitiveType] using hkind)
    exact ⟨hkind, hs.verbatim_of_word kind hspelling h⟩
  | .named segments, b, p, q, hb, ⟨hne, h⟩ => by
    obtain ⟨bs, hbs, rfl⟩ := Option.map_eq_some_iff.1 hb
    obtain ⟨hvalid, hwords⟩ := TypeSegment.verbatim_of_readsBehind hs verbatim_of_empty segments hbs h
    have hbne := TypeSegment.bareAll?_ne_nil hbs hne
    exact ⟨by simp [BareCore.isValid, hvalid, hbne], hwords⟩

theorem TypeSegment.verbatim_of_readsBehind (hs : s.IsSpelled) {lead : Stretch} {xs : List Lexeme}
    (hlead : ∀ {p q}, lead p q → verbatim s xs p q) : ∀ (as : List TypeSegment) {bs p q},
    TypeSegment.bareAll? as = some bs → TypeSegment.readsBehind s lead as p q →
    BareSegment.areValid bs = true ∧ verbatim s (BareSegment.wordsBehind xs bs) p q
  | [], bs, p, q, hb, h => by
    obtain rfl := Option.some.inj hb
    exact ⟨rfl, h⟩
  | ⟨i, args⟩ :: rest, bs, p, q, hb, ⟨m, ⟨m₁, ⟨m₂, hl, hi⟩, hargs⟩, hrest⟩ => by
    simp only [TypeSegment.bareAll?, bind, Option.bind_eq_some_iff, pure, Option.some.injEq] at hb
    obtain ⟨bargs, hbargs, brest, hbrest, rfl⟩ := hb
    obtain ⟨hname, hi⟩ := hs.verbatim_of_nameOf hi
    obtain ⟨hvalid, hargs⟩ := TypeArgs.verbatim_of_reads? hs args hbargs hargs
    obtain ⟨hvalids, hrest⟩ := TypeSegment.verbatim_of_readsBehind hs
      (hs.verbatim_of_word .dot rfl) rest hbrest hrest
    refine ⟨by simp [BareSegment.areValid, hname, hvalid, hvalids], ?_⟩
    exact verbatim_of_append (hlead hl) (verbatim_of_append hi (verbatim_of_append hargs hrest))

theorem TypeArgs.verbatim_of_reads? (hs : s.IsSpelled) : ∀ (as : Option TypeArgs) {bs p q},
    TypeArgs.bare? as = some bs → TypeArgs.reads? s as p q →
    BareArg.areValid? bs = true ∧ verbatim s (BareArg.words? bs) p q
  | none, bs, p, q, hb, h => by
    obtain rfl := Option.some.inj hb
    exact ⟨rfl, h⟩
  | some ⟨entries, _⟩, bs, p, q, hb, ⟨⟨m, ⟨_, hless, h⟩, hgreater⟩, _⟩ => by
    obtain ⟨bentries, hbentries, rfl⟩ := Option.map_eq_some_iff.1 hb
    obtain ⟨hvalid, hwords⟩ := TypeArg.verbatim_of_readsBehind hs verbatim_of_empty entries hbentries h
    have hbody := verbatim_of_append hwords (hs.verbatim_of_word .greater rfl hgreater)
    exact ⟨hvalid, verbatim_of_append (hs.verbatim_of_word .less rfl hless) hbody⟩

theorem TypeArg.verbatim_of_readsBehind (hs : s.IsSpelled) {lead : Stretch} {xs : List Lexeme}
    (hlead : ∀ {p q}, lead p q → verbatim s xs p q) : ∀ (as : List TypeArg) {bs p q},
    TypeArg.bareAll? as = some bs → TypeArg.readsBehind s lead as p q →
    BareArg.areValid bs = true ∧ verbatim s (BareArg.wordsBehind xs bs) p q
  | [], bs, p, q, hb, h => by
    obtain rfl := Option.some.inj hb
    exact ⟨rfl, h⟩
  | a :: rest, bs, p, q, hb, ⟨m, ⟨m', hl, ha⟩, hrest⟩ => by
    simp only [TypeArg.bareAll?, bind, Option.bind_eq_some_iff, pure, Option.some.injEq] at hb
    obtain ⟨ba, hba, brest, hbrest, rfl⟩ := hb
    obtain ⟨hvalid, ha⟩ := a.verbatim_of_reads hs hba ha
    obtain ⟨hvalids, hrest⟩ := TypeArg.verbatim_of_readsBehind hs
      (hs.verbatim_of_word .comma rfl) rest hbrest hrest
    refine ⟨by simp [BareArg.areValid, hvalid, hvalids], ?_⟩
    exact verbatim_of_append (hlead hl) (verbatim_of_append ha hrest)

theorem TypeArg.verbatim_of_reads (hs : s.IsSpelled) : ∀ (a : TypeArg) {b p q}, a.bare? = some b →
    a.reads s p q → b.isValid = true ∧ verbatim s b.words p q
  | .type t, b, p, q, hb, h => by
    obtain ⟨c, hc, rfl⟩ := Option.map_eq_some_iff.1 hb
    exact t.verbatim_of_reads hs hc h
  | .wildcard _, b, p, q, hb, h => by
    obtain rfl := Option.some.inj hb
    exact ⟨rfl, hs.verbatim_of_word .question rfl h.1⟩
  | .bounded kind t _, b, p, q, hb, ⟨⟨m, ⟨_, hquestion, hkeyword⟩, h⟩, _⟩ => by
    obtain ⟨c, hc, rfl⟩ := Option.map_eq_some_iff.1 hb
    obtain ⟨hvalid, hwords⟩ := t.verbatim_of_reads hs hc h
    have hspelling : kind.keyword.spelling.isSome = true := by cases kind <;> rfl
    have hbound := hs.verbatim_of_word kind.keyword hspelling hkeyword
    have hquestion := hs.verbatim_of_word .question rfl hquestion
    exact ⟨hvalid, verbatim_of_append hquestion (verbatim_of_append hbound hwords)⟩

end

end

end Stencil
