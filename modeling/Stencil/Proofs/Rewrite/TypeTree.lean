import Stencil.Proofs.Grammar.BareType
import Stencil.Proofs.Rewrite.Identifier

/-!
# Types rewritten as trees

The walk rewrites types as text, in two ways: names are exchanged in place, and a list that loses an
entry is put together anew from the texts of the entries that stay. Here a type is rewritten as a tree,
node by node and with the same decisions: each part of a name gets its new name, each list keeps the
rewritten entries that stay in order, and goes with its brackets if it keeps none.

The new name of a part may be a keyword. Printed, such a name is read as the keyword.

Results: a rewritten type can be written down as it is read (`TypeExpr.phrase_rewritten`), and so can
rewritten type parameters (`TypeParams.phrase_rewritten?`).
-/

namespace Stencil

/-- The token that is read where the token is printed: a name that is spelled like a keyword is read as
the keyword. -/
def Lexeme.asRead (x : Lexeme) : Lexeme :=
  if x.kind = .identifier then ⟨(Kind.ofKeyword? x.text).getD .identifier, x.text⟩ else x

/-! ## Type parameters as they are written -/

/-- A type parameter without annotations, wherever it stands. -/
structure BareParam where
  name : String
  bounds : List BareType

/-- Types, the first one behind the lead and each other one behind an ampersand. -/
def BareType.wordsBehind (lead : List Lexeme) : List BareType → List Lexeme
  | [] => []
  | t :: rest => lead ++ (t.words ++ BareType.wordsBehind [Kind.amp.lexeme] rest)

/-- `Name ('extends' Type ('&' Type)*)?` -/
def BareParam.words (a : BareParam) : List Lexeme :=
  ⟨.identifier, a.name⟩ :: BareType.wordsBehind [Kind.kwExtends.lexeme] a.bounds

/-- Type parameters, the first one behind the lead and each other one behind a comma. -/
def BareParam.wordsBehind (lead : List Lexeme) : List BareParam → List Lexeme
  | [] => []
  | a :: rest => lead ++ (a.words ++ BareParam.wordsBehind [Kind.comma.lexeme] rest)

/-- `('<' TypeParam (',' TypeParam)* '>')?` -/
def BareParam.words? : Option (List BareParam) → List Lexeme
  | none => []
  | some as => Kind.less.lexeme :: (BareParam.wordsBehind [] as ++ [Kind.greater.lexeme])

/-- Are there no annotations on the type parameter nor on the types in it? -/
def TypeParam.isBare (a : TypeParam) : Bool :=
  a.annotations.isEmpty && a.bounds.all fun t => t.bare?.isSome

namespace Rewrite

section

variable (v : Vocabulary) (b : Binding)

/-! ## Rewriting trees -/

mutual

/-- The type with its names and lists rewritten. -/
def TypeExpr.rewritten : TypeExpr → BareType
  | ⟨_, core, dims, _⟩ => ⟨TypeCore.rewritten core, dims⟩

/-- The type without its annotations and array dimensions, rewritten. -/
def TypeCore.rewritten : TypeCore → BareCore
  | .primitive kind => .primitive kind
  | .named segments => .named (TypeSegment.rewrittenAll segments)

/-- The parts of a class name, each with its new name and its type arguments rewritten. -/
def TypeSegment.rewrittenAll : List TypeSegment → List BareSegment
  | [] => []
  | ⟨i, none⟩ :: rest =>
    ⟨(renameSegment? v b i.name []).getD i.name, none⟩ :: TypeSegment.rewrittenAll rest
  | ⟨i, some args⟩ :: rest =>
    ⟨(renameSegment? v b i.name args.entries).getD i.name, TypeArgs.rewritten? i.name args⟩
      :: TypeSegment.rewrittenAll rest

/-- The type arguments of a class rewritten. A list to be inferred stays unless all slots of the class
are bound to primitive types, and any other one stays if an entry does. -/
def TypeArgs.rewritten? (owner : String) : TypeArgs → Option (List BareArg)
  | ⟨entries, _⟩ =>
    if entries.isEmpty then if keepsDiamond v b (some owner) then some [] else none
    else
      let kept := TypeArg.rewrittenAll (slotsOf v (some owner)) entries
      if kept.isEmpty then none else some kept

/-- The type arguments that stay, if they stand in the given slots, rewritten. -/
def TypeArg.rewrittenAll : List Placeholder → List TypeArg → List BareArg
  | _, [] => []
  | slots, a :: rest =>
    if isDropped v b slots.head? a then TypeArg.rewrittenAll slots.tail rest
    else TypeArg.rewritten a :: TypeArg.rewrittenAll slots.tail rest

/-- The type argument rewritten. The keywords of wildcards stay. -/
def TypeArg.rewritten : TypeArg → BareArg
  | .type t => .type (TypeExpr.rewritten t)
  | .wildcard _ => .wildcard
  | .bounded kind t _ => .bounded kind (TypeExpr.rewritten t)

end

/-- The type parameter with its new name and its bounds rewritten. -/
def TypeParam.rewritten (a : TypeParam) : BareParam :=
  ⟨(renameIdent? v b a.name.name).getD a.name.name, a.bounds.map (TypeExpr.rewritten v b)⟩

/-- The type parameters that stay, rewritten. -/
def TypeParam.rewrittenAll (as : List TypeParam) : List BareParam :=
  (as.filter fun a => !isDroppedParam v b a).map (TypeParam.rewritten v b)

/-- The type parameters rewritten. The list stays if an entry does. -/
def TypeParams.rewritten? (as : TypeParams) : Option (List BareParam) :=
  if (TypeParam.rewrittenAll v b as.entries).isEmpty then none
  else some (TypeParam.rewrittenAll v b as.entries)

end

/-! ## Names that are read as keywords -/

variable {v : Vocabulary} {b : Binding} {name : String} {xs : List Lexeme}

/-- Is the word a name or the keyword of a primitive type? -/
def IsWordText (word : String) : Prop :=
  isName word = true ∨ ∃ t : ConcreteType, t.keyword? = some word

theorem isWordText_ident (h : isName name = true) : IsWordText ((renameIdent? v b name).getD name) := by
  cases hrename : renameIdent? v b name with
  | none => exact .inl h
  | some text =>
    rcases renameIdent?_cases h hrename with ⟨p, t, -, -, hk⟩ | ⟨-, hname, -⟩
    · exact .inr ⟨t, hk⟩
    · exact .inl hname

theorem isWordText_segment (args : List TypeArg) (h : isName name = true) :
    IsWordText ((renameSegment? v b name args).getD name) := by
  cases hrename : renameSegment? v b name args with
  | none => exact .inl h
  | some text =>
    rcases renameSegment?_cases h hrename with ⟨p, t, -, -, hk⟩ | ⟨-, hname, -⟩
    · exact .inr ⟨t, hk⟩
    · exact .inl hname

/-- A name is read as it is written, or as the keyword that it is spelled like. -/
theorem asRead_name (h : IsWordText name) : Phrase [Lexeme.asRead ⟨.identifier, name⟩]
    ∧ (Lexeme.asRead ⟨.identifier, name⟩).isWord = true
    ∧ (Lexeme.asRead ⟨.identifier, name⟩).text = name := by
  rcases h with h | ⟨t, ht⟩
  · obtain ⟨-, -, -, -, -, hkeyword⟩ := isName_iff.1 h
    have hread : Lexeme.asRead ⟨.identifier, name⟩ = ⟨.identifier, name⟩ := by
      simp [Lexeme.asRead, hkeyword]
    rw [hread]
    exact ⟨phrase_name h, rfl, rfl⟩
  · have hread : ∃ k, Kind.isPrimitiveType k = true ∧ Lexeme.asRead ⟨.identifier, name⟩ = k.lexeme
        ∧ k.lexeme.isWord = true ∧ k.lexeme.text = name := by
      cases t <;> cases ht <;> exact ⟨_, by decide, rfl, by decide, rfl⟩
    obtain ⟨k, hk, hread, hword, htext⟩ := hread
    rw [hread]
    exact ⟨phrase_of_isPrimitiveType hk, hword, htext⟩

theorem asRead_lexeme {k : Kind} (h : k ≠ .identifier) : k.lexeme.asRead = k.lexeme :=
  if_neg h

/-! ## The tokens of rewritten trees -/

/-- The tokens as they are read. -/
abbrev readAll (xs : List Lexeme) : List Lexeme :=
  xs.map Lexeme.asRead

/-- Can the tokens stand in front of anything, and do they begin with a word? -/
def IsTypePhrase (xs : List Lexeme) : Prop :=
  Phrase xs ∧ ∃ x ∈ xs.head?, x.isWord = true

theorem notMem_typeSymbols {x : Lexeme} (h : x.isWord = true) : x.kind ∉ Kind.typeSymbols := by
  intro hk
  rw [Lexeme.not_isWord_of_typeSymbols hk] at h
  contradiction

theorem phrase_dot {x : Lexeme} (hx : x.isWord = true) (h : Phrase (x :: xs)) :
    Phrase (Kind.dot.lexeme :: x :: xs) :=
  h.cons (isOfType_of_mem (by decide)) ⟨nofun, fun _ => hx, nofun⟩

theorem phrase_amp (h : IsTypePhrase xs) : Phrase (Kind.amp.lexeme :: xs) := by
  obtain ⟨hphrase, x, hx, hword⟩ := h
  obtain ⟨xs, rfl⟩ := List.head?_eq_some_iff.1 hx
  refine hphrase.cons (isOfType_of_mem (by decide)) ⟨nofun, nofun, fun _ hamp => ?_⟩
  exact notMem_typeSymbols hword (hamp ▸ by decide)

theorem readAll_dims (n : Nat) :
    readAll (List.replicate n [Kind.leftBracket.lexeme, Kind.rightBracket.lexeme]).flatten
      = (List.replicate n [Kind.leftBracket.lexeme, Kind.rightBracket.lexeme]).flatten := by
  rw [readAll, List.map_flatten, List.map_replicate]
  rfl

theorem isWord_lexeme {k : Kind} (h : k.isPrimitiveType = true) : k.lexeme.isWord = true := by
  have hall : Kind.primitiveTypes.all (fun k => Kind.keywordKinds.contains k) = true := by decide
  have hk := List.all_eq_true.1 hall k (by simpa [Kind.isPrimitiveType] using h)
  simp only [Lexeme.isWord, Kind.lexeme, hk, Bool.or_true]

theorem asRead_primitive {k : Kind} (h : k.isPrimitiveType = true) : k.lexeme.asRead = k.lexeme := by
  refine asRead_lexeme ?_
  rintro rfl
  contradiction

theorem asRead_keyword (kind : BoundKind) : kind.keyword.lexeme.asRead = kind.keyword.lexeme := by
  cases kind <;> rfl

section

variable (v : Vocabulary) (b : Binding)

mutual

/-- The tokens of a rewritten type can be written down without a gap, words apart. -/
theorem TypeExpr.phrase_rewritten : ∀ (e : Stencil.TypeExpr) {t : BareType}, e.bare? = some t →
    t.isValid = true → IsTypePhrase (readAll (TypeExpr.rewritten v b e).words)
  | ⟨[], core, dims, _⟩, t, h, hvalid => by
    obtain ⟨c, hc, rfl⟩ := Option.map_eq_some_iff.1 h
    obtain ⟨hphrase, x, hx, hword⟩ := TypeCore.phrase_rewritten core hc hvalid
    rw [TypeExpr.rewritten, BareType.words, readAll, List.map_append, ← readAll, ← readAll, readAll_dims]
    refine ⟨hphrase.append (phrase_dims dims), x, ?_, hword⟩
    rw [List.head?_append, hx]
    rfl

theorem TypeCore.phrase_rewritten : ∀ (e : Stencil.TypeCore) {t : BareCore}, e.bare? = some t →
    t.isValid = true → IsTypePhrase (readAll (TypeCore.rewritten v b e).words)
  | .primitive kind, t, h, hvalid => by
    cases h
    rw [TypeCore.rewritten, BareCore.words, readAll, List.map_singleton, asRead_primitive hvalid]
    exact ⟨phrase_of_isPrimitiveType hvalid, _, rfl, isWord_lexeme hvalid⟩
  | .named segments, t, h, hvalid => by
    obtain ⟨bs, hbs, rfl⟩ := Option.map_eq_some_iff.1 h
    simp only [BareCore.isValid, Bool.and_eq_true] at hvalid
    have hphrase := TypeSegment.phrase_rewrittenAll segments [] hbs hvalid.2 fun _ h => h
    refine ⟨hphrase, ?_⟩
    match segments with
    | [] =>
      cases hbs
      simp at hvalid
    | ⟨i, none⟩ :: rest =>
      simp only [TypeSegment.bareAll?, bind, Option.bind_eq_some_iff, pure, Option.some.injEq] at hbs
      obtain ⟨args', -, rest', -, rfl⟩ := hbs
      simp only [BareSegment.areValid, Bool.and_eq_true] at hvalid
      exact ⟨_, rfl, (asRead_name (isWordText_segment _ hvalid.2.1.1)).2.1⟩
    | ⟨i, some args⟩ :: rest =>
      simp only [TypeSegment.bareAll?, bind, Option.bind_eq_some_iff, pure, Option.some.injEq] at hbs
      obtain ⟨args', -, rest', -, rfl⟩ := hbs
      simp only [BareSegment.areValid, Bool.and_eq_true] at hvalid
      exact ⟨_, rfl, (asRead_name (isWordText_segment _ hvalid.2.1.1)).2.1⟩

/-- The lead of a name is nothing or a dot, so it can stand in front of a word. -/
theorem TypeSegment.phrase_rewrittenAll : ∀ (es : List Stencil.TypeSegment) {bs : List BareSegment}
    (lead : List Lexeme), TypeSegment.bareAll? es = some bs → BareSegment.areValid bs = true →
    (∀ {x : Lexeme} {xs : List Lexeme}, x.isWord = true → Phrase (x :: xs) →
      Phrase (readAll lead ++ x :: xs)) →
    Phrase (readAll (BareSegment.wordsBehind lead (TypeSegment.rewrittenAll v b es)))
  | [], _, _, _, _, _ => .nil
  | ⟨i, none⟩ :: rest, _, lead, h, hvalid, hlead => by
    simp only [TypeSegment.bareAll?, bind, Option.bind_eq_some_iff, pure, Option.some.injEq] at h
    obtain ⟨args', -, rest', hrest, rfl⟩ := h
    simp only [BareSegment.areValid, Bool.and_eq_true] at hvalid
    obtain ⟨hname, hword, -⟩ := asRead_name (isWordText_segment (v := v) (b := b) [] hvalid.1.1)
    have hbehind := TypeSegment.phrase_rewrittenAll rest [Kind.dot.lexeme] hrest hvalid.2
      phrase_dot
    simp only [TypeSegment.rewrittenAll, BareSegment.wordsBehind, BareArg.words?, List.nil_append,
      readAll, List.map_append, List.map_cons]
    exact hlead hword (hname.append hbehind)
  | ⟨i, some args⟩ :: rest, _, lead, h, hvalid, hlead => by
    simp only [TypeSegment.bareAll?, bind, Option.bind_eq_some_iff, pure, Option.some.injEq] at h
    obtain ⟨args', hargs, rest', hrest, rfl⟩ := h
    simp only [BareSegment.areValid, Bool.and_eq_true] at hvalid
    obtain ⟨hname, hword, -⟩ :=
      asRead_name (isWordText_segment (v := v) (b := b) args.entries hvalid.1.1)
    have hlist := TypeArgs.phrase_rewritten? args i.name hargs hvalid.1.2
    have hbehind := TypeSegment.phrase_rewrittenAll rest [Kind.dot.lexeme] hrest hvalid.2
      phrase_dot
    simp only [TypeSegment.rewrittenAll, BareSegment.wordsBehind, readAll, List.map_append,
      List.map_cons] at hlist hbehind ⊢
    exact hlead hword (hname.append (hlist.append hbehind))

theorem TypeArgs.phrase_rewritten? : ∀ (e : Stencil.TypeArgs) (owner : String)
    {bs : Option (List BareArg)}, TypeArgs.bare? (some e) = some bs → BareArg.areValid? bs = true →
    Phrase (readAll (BareArg.words? (TypeArgs.rewritten? v b owner e)))
  | ⟨entries, _⟩, owner, bs, h, hvalid => by
    obtain ⟨as, has, rfl⟩ := Option.map_eq_some_iff.1 h
    simp only [TypeArgs.rewritten?]
    split
    · split
      · exact phrase_angles .nil nofun
      · exact .nil
    · obtain ⟨hphrase, hhead⟩ := TypeArg.phrase_rewrittenAll entries (slotsOf v (some owner))
        [] has hvalid .nil
      split
      · exact .nil
      · simp only [BareArg.words?, readAll, List.map_append, List.map_cons, List.map_nil]
        exact phrase_angles hphrase (hhead rfl)

/-- Only a bracket that opens a list must not stand in front of the entries. -/
theorem TypeArg.phrase_rewrittenAll : ∀ (es : List Stencil.TypeArg) (slots : List Placeholder)
    {bs : List BareArg} (lead : List Lexeme), TypeArg.bareAll? es = some bs →
    BareArg.areValid bs = true → Phrase (readAll lead) →
    Phrase (readAll (BareArg.wordsBehind lead (TypeArg.rewrittenAll v b slots es)))
      ∧ (lead = [] → ∀ x ∈ (readAll (BareArg.wordsBehind lead
        (TypeArg.rewrittenAll v b slots es))).head?, x.kind ≠ .less)
  | [], _, _, _, _, _, _ => ⟨.nil, fun _ => nofun⟩
  | a :: rest, slots, bs, lead, h, hvalid, hlead => by
    simp only [TypeArg.bareAll?, bind, Option.bind_eq_some_iff, pure, Option.some.injEq] at h
    obtain ⟨a', ha, rest', hrest, rfl⟩ := h
    simp only [BareArg.areValid, Bool.and_eq_true] at hvalid
    rw [TypeArg.rewrittenAll]
    split
    · exact TypeArg.phrase_rewrittenAll rest slots.tail lead hrest hvalid.2 hlead
    · obtain ⟨hphrase, x, hx, hne⟩ := TypeArg.phrase_rewritten a ha hvalid.1
      obtain ⟨hbehind, -⟩ := TypeArg.phrase_rewrittenAll rest slots.tail [Kind.comma.lexeme]
        hrest hvalid.2 (phrase_symbol (by decide))
      simp only [BareArg.wordsBehind, readAll, List.map_append] at hphrase hbehind hlead ⊢
      refine ⟨hlead.append (hphrase.append hbehind), fun hnil y hy => ?_⟩
      rw [hnil, List.map_nil, List.nil_append, List.head?_append, hx] at hy
      exact Option.some.inj hy ▸ hne

theorem TypeArg.phrase_rewritten : ∀ (e : Stencil.TypeArg) {a : BareArg}, e.bare? = some a →
    a.isValid = true → Phrase (readAll (TypeArg.rewritten v b e).words)
      ∧ ∃ x ∈ (readAll (TypeArg.rewritten v b e).words).head?, x.kind ≠ .less
  | .type t, a, h, hvalid => by
    obtain ⟨t', ht, rfl⟩ := Option.map_eq_some_iff.1 h
    obtain ⟨hphrase, x, hx, hword⟩ := TypeExpr.phrase_rewritten t ht hvalid
    exact ⟨hphrase, x, hx, fun hless => notMem_typeSymbols hword (hless ▸ by decide)⟩
  | .wildcard _, _, _, _ => ⟨phrase_symbol (k := .question) (by decide), _, rfl, by decide⟩
  | .bounded kind t _, a, h, hvalid => by
    obtain ⟨t', ht, rfl⟩ := Option.map_eq_some_iff.1 h
    obtain ⟨hphrase, -⟩ := TypeExpr.phrase_rewritten t ht hvalid
    simp only [TypeArg.rewritten, BareArg.words, readAll, List.map_cons, asRead_keyword]
    exact ⟨(phrase_symbol (k := .question) (by decide)).append ((phrase_keyword kind).append hphrase),
      _, rfl, by decide⟩

end

/-- Are the name of the type parameter and its bounds such as the grammar finds, the bounds without
annotations? -/
structure TypeParam.IsWritable (a : Stencil.TypeParam) : Prop where
  name : isName a.name.name = true
  bounds : ∀ e ∈ a.bounds, ∃ t, e.bare? = some t ∧ t.isValid = true

theorem IsTypePhrase.append {ys : List Lexeme} (hx : IsTypePhrase xs) (hy : Phrase ys) :
    IsTypePhrase (xs ++ ys) := by
  obtain ⟨hphrase, x, hx, hword⟩ := hx
  refine ⟨hphrase.append hy, x, ?_, hword⟩
  rw [List.head?_append, hx]
  rfl

/-- The lead of a bound is a keyword or an ampersand, so it can stand in front of a type. -/
theorem phrase_bounds {es : List Stencil.TypeExpr} (lead : List Lexeme)
    (h : ∀ e ∈ es, ∃ t, e.bare? = some t ∧ t.isValid = true)
    (hlead : ∀ {xs : List Lexeme}, IsTypePhrase xs → Phrase (readAll lead ++ xs)) :
    Phrase (readAll (BareType.wordsBehind lead (es.map (TypeExpr.rewritten v b)))) := by
  induction es generalizing lead with
  | nil => exact .nil
  | cons e es ih =>
    rw [List.forall_mem_cons] at h
    obtain ⟨⟨t, ht, hvalid⟩, hrest⟩ := h
    have hbehind := ih [Kind.amp.lexeme] hrest phrase_amp
    have hfirst := (TypeExpr.phrase_rewritten v b e ht hvalid).append hbehind
    simp only [List.map_cons, BareType.wordsBehind, readAll, List.map_append] at hfirst ⊢
    exact hlead hfirst

theorem TypeParam.phrase_rewritten {a : Stencil.TypeParam} (h : TypeParam.IsWritable a) :
    IsTypePhrase (readAll (TypeParam.rewritten v b a).words) := by
  obtain ⟨hname, hword, -⟩ := asRead_name (isWordText_ident (v := v) (b := b) h.name)
  have hbounds := phrase_bounds v b [Kind.kwExtends.lexeme] h.bounds
    fun h => (phrase_keyword .upper).append h.1
  exact ⟨hname.append hbounds, _, rfl, hword⟩

/-- The lead of a type parameter is nothing or a comma. -/
theorem phrase_params {as : List Stencil.TypeParam} (lead : List Lexeme)
    (h : ∀ a ∈ as, TypeParam.IsWritable a) (hlead : Phrase (readAll lead)) :
    Phrase (readAll (BareParam.wordsBehind lead (as.map (TypeParam.rewritten v b)))) := by
  induction as generalizing lead with
  | nil => exact .nil
  | cons a as ih =>
    rw [List.forall_mem_cons] at h
    have hbehind := ih [Kind.comma.lexeme] h.2 (phrase_symbol (by decide))
    have hfirst := (TypeParam.phrase_rewritten v b h.1).1
    simp only [List.map_cons, BareParam.wordsBehind, readAll, List.map_append] at hfirst hbehind hlead ⊢
    exact hlead.append (hfirst.append hbehind)

/-- The tokens of rewritten type parameters can be written down without a gap, words apart. -/
theorem TypeParams.phrase_rewritten? {as : Stencil.TypeParams}
    (h : ∀ a ∈ as.entries, TypeParam.IsWritable a) :
    Phrase (readAll (BareParam.words? (TypeParams.rewritten? v b as))) := by
  rw [TypeParams.rewritten?]
  split
  · exact .nil
  · rename_i hkept
    have hwritable : ∀ a ∈ as.entries.filter fun a => !isDroppedParam v b a, TypeParam.IsWritable a :=
      fun a ha => h a (List.mem_of_mem_filter ha)
    have hphrase := phrase_params v b [] hwritable .nil
    simp only [BareParam.words?, readAll, List.map_append, List.map_cons, List.map_nil]
    refine phrase_angles hphrase fun x hx => ?_
    rw [TypeParam.rewrittenAll] at hkept
    match hfilter : as.entries.filter fun a => !isDroppedParam v b a with
    | [] => simp [hfilter] at hkept
    | a :: rest =>
      obtain ⟨-, y, hy, hword⟩ := TypeParam.phrase_rewritten v b (hwritable a (hfilter ▸ List.mem_cons_self))
      rw [TypeParam.rewrittenAll, hfilter, List.map_cons, BareParam.wordsBehind, List.nil_append,
        List.map_append, List.head?_append, hy] at hx
      obtain rfl : y = x := Option.some.inj hx
      exact fun hless => notMem_typeSymbols hword (hless ▸ by decide)

end

end Rewrite

end Stencil
