import Stencil.Proofs.Grammar.TypeRoundTrip
import Stencil.Proofs.Rewrite.Slots
import Stencil.Proofs.Rewrite.Writes

/-!
# The text of a type is that of the rewritten tree

The walk over a type makes patches, and each list that loses an entry is put together from the chunks
of the entries that stay. Either way the text is that of the tree that is rewritten node by node, at
every depth.

Results: the patches of a type write the tokens of the rewritten type (`TypeExpr.writes`), and so do
those of type parameters (`TypeParams.writes`).
-/

namespace Stencil.Rewrite

open Stretch

/-! ## Tokens that lists begin and go on with -/

theorem isOpen_symbol {k : Kind} {xs : List Lexeme} (hk : k ∈ Kind.typeSymbols) :
    IsOpen (k.lexeme :: xs) := by
  rintro _ ⟨⟩
  exact Lexeme.not_isWord_of_typeSymbols hk

theorem isShut_symbol {k : Kind} (hk : k ∈ Kind.typeSymbols) : IsShut [k.lexeme] := by
  rintro _ ⟨⟩
  exact Lexeme.not_isWord_of_typeSymbols hk

theorem isOpen_dims (n : Nat) :
    IsOpen (List.replicate n [Kind.leftBracket.lexeme, Kind.rightBracket.lexeme]).flatten := by
  cases n with
  | zero => exact .nil
  | succ n => exact isOpen_symbol (by decide)

theorem isOpen_words? (as : Option (List BareArg)) : IsOpen (readAll (BareArg.words? as)) := by
  cases as with
  | none => exact .nil
  | some as => exact isOpen_symbol (k := .less) (by decide)

theorem isOpen_segments (as : List BareSegment) :
    IsOpen (readAll (BareSegment.wordsBehind [Kind.dot.lexeme] as)) := by
  match as with
  | [] => exact .nil
  | ⟨_, _⟩ :: _ => exact isOpen_symbol (k := .dot) (by decide)

theorem isOpen_args (as : List BareArg) :
    IsOpen (readAll (BareArg.wordsBehind [Kind.comma.lexeme] as)) := by
  cases as with
  | nil => exact .nil
  | cons _ _ => exact isOpen_symbol (k := .comma) (by decide)

theorem isOpen_params (as : List BareParam) :
    IsOpen (readAll (BareParam.wordsBehind [Kind.comma.lexeme] as)) := by
  cases as with
  | nil => exact .nil
  | cons _ _ => exact isOpen_symbol (k := .comma) (by decide)

theorem isOpen_bounds (as : List BareType) :
    IsOpen (readAll (BareType.wordsBehind [Kind.amp.lexeme] as)) := by
  cases as with
  | nil => exact .nil
  | cons _ _ => exact isOpen_symbol (k := .amp) (by decide)

/-! ## Lists that are put together -/

variable {j : Job} {text receiver : String}

/-- Do the chunks make up the tokens? -/
def Spells (j : Job) (cs : List Chunk) (xs : List Lexeme) : Prop :=
  (∀ x ∈ xs, x.IsOfType) ∧ Strewn xs (j.chunksText cs).toList

theorem Outline.patchesAll_append (os os' : List Outline) :
    Outline.patchesAll j (os ++ os') = Outline.patchesAll j os ++ Outline.patchesAll j os' := by
  induction os with
  | nil => rfl
  | cons o os ih => rw [List.cons_append, Outline.patchesAll, Outline.patchesAll, ih, List.append_assoc]

theorem Spells.append {cs ds : List Chunk} {xs ys : List Lexeme} (hx : Spells j cs xs)
    (hy : Spells j ds ys) (h : IsShut xs ∨ IsOpen ys) : Spells j (cs ++ ds) (xs ++ ys) := by
  refine ⟨List.forall_mem_append.2 ⟨hx.1, hy.1⟩, ?_⟩
  rw [Job.chunksText_append, String.toList_append]
  exact hx.2.append hy.2 hx.1 (h.imp_right fun hopen => hy.2.isLoose hy.1 hopen)

/-- A symbol, and a gap behind it. -/
theorem spells_symbol {k : Kind} {text : String} {w : List Char} (hk : k ∈ Kind.typeSymbols) (hw : Gap w)
    (htext : text.toList = k.lexeme.text.toList ++ w) : Spells j [.put text] [k.lexeme] := by
  refine ⟨by simpa using isOfType_of_mem hk, w, hw, ?_⟩
  have hwritten : Written w [k.lexeme] ([] ++ (k.lexeme.text.toList ++ w)) := by
    refine .token .nil (fun hword => ?_) .done
    rw [Lexeme.not_isWord_of_typeSymbols hk] at hword
    contradiction
  simpa [Job.chunkText, htext] using hwritten

/-- Entries with commas between them. -/
theorem spells_intercalate {es : List (List Chunk)} {xss : List (List Lexeme)}
    (h : List.Forall₂ (Spells j) es xss) :
    Spells j ([.put ", "].intercalate es) ([Kind.comma.lexeme].intercalate xss) := by
  induction h with
  | nil => exact ⟨by simp, .of_gap .nil⟩
  | @cons e xs es xss hx hrest ih =>
    cases hrest with
    | nil => simpa using hx
    | @cons f ys es xss _ _ =>
      have hcomma : Spells j [.put ", "] [Kind.comma.lexeme] :=
        spells_symbol (by decide) (w := [' ']) (.blank rfl .nil) rfl
      rw [List.intercalate_cons_cons, List.intercalate_cons_cons, List.append_assoc, List.append_assoc]
      exact hx.append (hcomma.append ih (.inl (isShut_symbol (by decide)))) (.inr (isOpen_symbol (by decide)))

/-- The same between angle brackets, or nothing if there are no entries. -/
theorem spells_angleChunks {es : List (List Chunk)} {xss : List (List Lexeme)}
    (h : List.Forall₂ (Spells j) es xss) : Spells j (angleChunks es) (if xss.isEmpty then [] else
      Kind.less.lexeme :: ([Kind.comma.lexeme].intercalate xss ++ [Kind.greater.lexeme])) := by
  have hless : Spells j [.put "<"] [Kind.less.lexeme] := spells_symbol (by decide) (w := []) .nil rfl
  have hgreater : Spells j [.put ">"] [Kind.greater.lexeme] := spells_symbol (by decide) (w := []) .nil rfl
  have hentries := spells_intercalate h
  cases h with
  | nil => exact ⟨by simp, .of_gap .nil⟩
  | cons _ _ =>
    exact hless.append (hentries.append hgreater (.inr (isOpen_symbol (by decide))))
      (.inl (isShut_symbol (by decide)))

theorem readAll_args (as : List BareArg) : readAll (BareArg.wordsBehind [] as)
    = [Kind.comma.lexeme].intercalate (as.map fun a => readAll a.words) := by
  induction as with
  | nil => rfl
  | cons a as ih =>
    cases as with
    | nil => simp [BareArg.wordsBehind]
    | cons b as =>
      rw [List.map_cons] at ih
      rw [List.map_cons, List.map_cons, List.intercalate_cons_cons, ← ih]
      simp only [BareArg.wordsBehind, List.nil_append, readAll, List.map_append, List.append_assoc]
      rfl

theorem readAll_params (as : List BareParam) : readAll (BareParam.wordsBehind [] as)
    = [Kind.comma.lexeme].intercalate (as.map fun a => readAll a.words) := by
  induction as with
  | nil => rfl
  | cons a as ih =>
    cases as with
    | nil => simp [BareParam.wordsBehind]
    | cons b as =>
      rw [List.map_cons] at ih
      rw [List.map_cons, List.map_cons, List.intercalate_cons_cons, ← ih]
      simp only [BareParam.wordsBehind, List.nil_append, readAll, List.map_append, List.append_assoc]
      rfl

/-! ## Types -/

/-- Is what the lead of a list reads copied as the tokens, and do these end with no word? -/
structure IsLead (j : Job) (lead : Stretch) (xs : List Lexeme) : Prop where
  isShut : IsShut (readAll xs)
  writes : ∀ {p q}, lead p q → q ≤ j.source.code.size → Writes j p q [] (readAll xs)

theorem Job.IsReady.isSpelled (hj : j.IsReady text) (receiver : String) :
    (Script.ofSource j.source receiver).IsSpelled := by
  rw [hj.source]
  exact Grammar.isSpelled_ofSource text receiver

theorem isLead_empty : IsLead j .empty [] := by
  refine ⟨nofun, fun {p q} h _ => ?_⟩
  obtain rfl := empty_iff.1 h
  exact .nil (Nat.le_refl p) (Nat.le_refl p)

/-- A symbol that is copied. -/
theorem writes_symbol (hj : j.IsReady text) {k : Kind} (hk : k ∈ Kind.typeSymbols) {p q : Nat}
    (h : word (.ofSource j.source receiver) k p q) : Writes j p q [] [k.lexeme] := by
  have hall : (Kind.typeSymbols.all fun k => k.spelling.isSome) = true := by decide
  have hspelling := List.all_eq_true.1 hall k hk
  exact .of_verbatim hj ((hj.isSpelled receiver).verbatim_of_word k hspelling h) (isOfType_of_mem hk)

theorem isLead_symbol (hj : j.IsReady text) {k : Kind} (hk : k ∈ Kind.typeSymbols) :
    IsLead j (word (.ofSource j.source receiver) k) [k.lexeme] := by
  have hread : readAll [k.lexeme] = [k.lexeme] := by
    rw [readAll, List.map_singleton, asRead_lexeme]
    rintro rfl
    revert hk
    decide
  refine ⟨?_, fun h _ => ?_⟩
  · rw [hread]
    exact isShut_symbol hk
  · rw [hread]
    exact writes_symbol hj hk h

theorem writes_dims (hj : j.IsReady text) {n p q : Nat} (hq : q ≤ j.source.code.size)
    (h : Stretch.dims (.ofSource j.source receiver) n p q) : Writes j p q []
      (List.replicate n [Kind.leftBracket.lexeme, Kind.rightBracket.lexeme]).flatten := by
  refine .of_symbols hj hq ((hj.isSpelled receiver).verbatim_of_dims h) fun x hx => ?_
  obtain ⟨pair, hpair, hx⟩ := List.mem_flatten.1 hx
  rw [List.eq_of_mem_replicate hpair] at hx
  simp only [List.mem_cons, List.not_mem_nil, or_false] at hx
  rcases hx with rfl | rfl
  · exact ⟨by decide, isOfType_of_mem (by decide)⟩
  · exact ⟨by decide, isOfType_of_mem (by decide)⟩

/-- A type behind the keyword of a bound, with a gap between them. -/
theorem Writes.behind_keyword (hj : j.IsReady text) {p m q : Nat} (hq : q ≤ j.source.code.size)
    (kind : BoundKind) (h : word (.ofSource j.source receiver) kind.keyword p m) {e : Stencil.TypeExpr}
    {t : BareType} (hbare : e.bare? = some t) (he : e.reads (.ofSource j.source receiver) m q)
    {px : List Patch} {xs : List Lexeme} (hx : Writes j m q px xs) :
    Writes j p q px (kind.keyword.lexeme :: xs) := by
  have hs := hj.isSpelled receiver
  have hkeyword := hs.verbatim_of_word kind.keyword (by cases kind <;> rfl) h
  obtain ⟨hvalid, hwords⟩ := e.verbatim_of_reads hs hbare he
  obtain ⟨x, more, hfirst, hkind⟩ := t.exists_head hvalid
  rw [hfirst] at hwords
  obtain rfl : p + 1 = m := h.2.symm
  have hword : x.isWord = true := by
    rcases hkind with hprimitive | hname
    · exact isWord_lexeme hprimitive
    · simp [Lexeme.isWord, hname]
  refine (Writes.of_verbatim hj hkeyword ((phrase_keyword kind).tokens _ List.mem_cons_self)).append hj hq
    hx (.inr (.inr ?_))
  exact Writes.index_add_one_lt_of_words hj (verbatim_cons.1 hkeyword).1 (verbatim_cons.1 hwords).1
    (by cases kind <;> rfl) hword

theorem readAll_args? (as : List BareArg) : readAll (BareArg.words? (if as.isEmpty then none else some as))
    = if (as.map fun a => readAll a.words).isEmpty then [] else Kind.less.lexeme
      :: ([Kind.comma.lexeme].intercalate (as.map fun a => readAll a.words) ++ [Kind.greater.lexeme]) := by
  rw [← readAll_args]
  cases as with
  | nil => rfl
  | cons a as =>
    simp only [List.isEmpty_cons, Bool.false_eq_true, if_false, List.map_cons, BareArg.words?, readAll,
      List.map_append]
    rfl

theorem readAll_params? (as : List BareParam) :
    readAll (BareParam.words? (if as.isEmpty then none else some as))
      = if (as.map fun a => readAll a.words).isEmpty then [] else Kind.less.lexeme
        :: ([Kind.comma.lexeme].intercalate (as.map fun a => readAll a.words) ++ [Kind.greater.lexeme]) := by
  rw [← readAll_params]
  cases as with
  | nil => rfl
  | cons a as =>
    simp only [List.isEmpty_cons, Bool.false_eq_true, if_false, List.map_cons, BareParam.words?, readAll,
      List.map_append]
    rfl

theorem rewrittenAll_eq_map {v : Vocabulary} {b : Binding} {slots : List Placeholder}
    {es : List Stencil.TypeArg} (h : anyDropped v b slots es = false) :
    TypeArg.rewrittenAll v b slots es = es.map (TypeArg.rewritten v b) := by
  induction es generalizing slots with
  | nil => rfl
  | cons a es ih =>
    rw [anyDropped, Bool.or_eq_false_iff] at h
    rw [TypeArg.rewrittenAll, if_neg (by simp [h.1]), ih h.2, List.map_cons]

mutual

/-- The patches of a type write the tokens of the rewritten type. -/
theorem TypeExpr.writes (hj : j.IsReady text) : ∀ (e : Stencil.TypeExpr) {t : BareType} {p q : Nat},
    e.bare? = some t → e.reads (.ofSource j.source receiver) p q → q ≤ j.source.code.size →
    Writes j p q (Outline.patchesAll j (TypeExpr.outline e))
      (readAll (TypeExpr.rewritten j.vocabulary j.binding e).words)
  | ⟨[], core, dims, _⟩, t, p, q, h, ⟨⟨m, ⟨_, rfl, hcore⟩, hdims⟩, _⟩, hq => by
    obtain ⟨c, hc, rfl⟩ := Option.map_eq_some_iff.1 h
    have hm := Nat.le_trans ((Stretch.dims _ dims).le hdims) hq
    have hcore := TypeCore.writes hj core hc hcore hm
    have hdims := writes_dims hj hq hdims
    rw [TypeExpr.rewritten, BareType.words, readAll, List.map_append, ← readAll, ← readAll, readAll_dims]
    have hboth := hcore.append hj hq hdims (.inr (.inl (isOpen_dims dims)))
    rwa [List.append_nil] at hboth

theorem TypeCore.writes (hj : j.IsReady text) : ∀ (e : Stencil.TypeCore) {t : BareCore} {p q : Nat},
    e.bare? = some t → e.reads (.ofSource j.source receiver) p q → q ≤ j.source.code.size →
    Writes j p q (Outline.patchesAll j (TypeCore.outline e))
      (readAll (TypeCore.rewritten j.vocabulary j.binding e).words)
  | .primitive kind, _, _, _, _, ⟨hkind, h⟩, _ => by
    have hall : (Kind.primitiveTypes.all fun k => k.spelling.isSome) = true := by decide
    have hspelling := List.all_eq_true.1 hall kind (by simpa [Kind.isPrimitiveType] using hkind)
    rw [TypeCore.rewritten, BareCore.words, readAll, List.map_singleton, asRead_primitive hkind]
    exact .of_verbatim hj ((hj.isSpelled receiver).verbatim_of_word kind hspelling h)
      ((phrase_of_isPrimitiveType hkind).tokens _ List.mem_cons_self)
  | .named segments, t, _, _, h, ⟨_, hreads⟩, hq => by
    obtain ⟨bs, hbs, rfl⟩ := Option.map_eq_some_iff.1 h
    exact TypeSegment.writes hj isLead_empty segments hbs hreads hq

theorem TypeSegment.writes (hj : j.IsReady text) {lead : Stretch} {xs : List Lexeme}
    (hlead : IsLead j lead xs) : ∀ (es : List Stencil.TypeSegment) {bs : List BareSegment} {p q : Nat},
    TypeSegment.bareAll? es = some bs →
    TypeSegment.readsBehind (.ofSource j.source receiver) lead es p q → q ≤ j.source.code.size →
    Writes j p q (Outline.patchesAll j (TypeSegment.outlines es))
      (readAll (BareSegment.wordsBehind xs (TypeSegment.rewrittenAll j.vocabulary j.binding es)))
  | [], _, p, _, _, h, _ => by
    obtain rfl := empty_iff.1 h
    exact .nil (Nat.le_refl p) (Nat.le_refl p)
  | ⟨i, none⟩ :: rest, bs, p, q, h, ⟨m, ⟨m₁, ⟨m₂, hl, hi⟩, hargs⟩, hrest⟩, hq => by
    simp only [TypeSegment.bareAll?, bind, Option.bind_eq_some_iff, pure, Option.some.injEq] at h
    obtain ⟨args', -, rest', hbrest, rfl⟩ := h
    obtain rfl := empty_iff.1 hargs
    have hm := Nat.le_trans ((TypeSegment.readsBehind _ _ rest).le hrest) hq
    have hm₂ := Nat.le_trans ((nameOf _ i).le hi) hm
    have hname := Writes.of_nameOf hj hi (isWordText_segment (v := j.vocabulary) (b := j.binding)
      [] ((hj.isSpelled receiver).verbatim_of_nameOf hi).1)
    have hrest := TypeSegment.writes hj (isLead_symbol hj (k := .dot) (by decide)) rest hbrest hrest hq
    have hboth := hname.append hj hq hrest (.inr (.inl (isOpen_segments _)))
    have hall := (hlead.writes hl hm₂).append hj hq hboth (.inl hlead.isShut)
    simpa only [TypeSegment.outlines, Outline.patchesAll, Outline.patches, TypeSegment.rewrittenAll,
      BareSegment.wordsBehind, BareArg.words?, List.nil_append, List.cons_append, readAll, List.map_append,
      List.map_cons] using hall
  | ⟨i, some args⟩ :: rest, bs, p, q, h, ⟨m, ⟨m₁, ⟨m₂, hl, hi⟩, hargs⟩, hrest⟩, hq => by
    simp only [TypeSegment.bareAll?, bind, Option.bind_eq_some_iff, pure, Option.some.injEq] at h
    obtain ⟨args', hbargs, rest', hbrest, rfl⟩ := h
    have hm := Nat.le_trans ((TypeSegment.readsBehind _ _ rest).le hrest) hq
    have hm₁ := Nat.le_trans ((TypeArgs.reads _ args).le hargs) hm
    have hm₂ := Nat.le_trans ((nameOf _ i).le hi) hm₁
    have hname := Writes.of_nameOf hj hi (isWordText_segment (v := j.vocabulary) (b := j.binding)
      args.entries ((hj.isSpelled receiver).verbatim_of_nameOf hi).1)
    have hargs := TypeArgs.writes hj args i.name hbargs hargs hm
    have hrest := TypeSegment.writes hj (isLead_symbol hj (k := .dot) (by decide)) rest hbrest hrest hq
    have hbehind := hargs.append hj hq hrest (.inr (.inl (isOpen_segments _)))
    have hboth := hname.append hj hq hbehind (.inr (.inl ((isOpen_words? _).append (isOpen_segments _))))
    have hall := (hlead.writes hl hm₂).append hj hq hboth (.inl hlead.isShut)
    simpa only [TypeSegment.outlines, Outline.patchesAll, Outline.patches, TypeSegment.rewrittenAll,
      BareSegment.wordsBehind, List.nil_append, List.cons_append, readAll, List.map_append, List.map_cons]
      using hall

/-- A list that loses an entry is written by one patch. -/
theorem TypeArgs.writes (hj : j.IsReady text) : ∀ (e : Stencil.TypeArgs) (owner : String)
    {bs : Option (List BareArg)} {p q : Nat}, TypeArgs.bare? (some e) = some bs →
    e.reads (.ofSource j.source receiver) p q → q ≤ j.source.code.size →
    Writes j p q ((TypeArgs.outline (some owner) e).patches j)
      (readAll (BareArg.words? (TypeArgs.rewritten? j.vocabulary j.binding owner e)))
  | ⟨entries, extent⟩, owner, bs, p, q, h, ⟨⟨m, ⟨m₁, hless, hentries⟩, hgreater⟩, he⟩, hq => by
    obtain ⟨as, has, rfl⟩ := Option.map_eq_some_iff.1 h
    obtain rfl : extent = ⟨p, q⟩ := he
    have hm := Nat.le_trans ((word _ Kind.greater).le hgreater) hq
    have hlt : p < q := by
      have := hless.2
      have := hgreater.2
      have := (TypeArg.readsBehind _ _ entries).le hentries
      omega
    have hless := writes_symbol hj (by decide) hless
    have hgreater := writes_symbol hj (by decide) hgreater
    have hopen : IsOpen [Kind.greater.lexeme] := isOpen_symbol (by decide)
    match entries with
    | [] =>
      obtain rfl := empty_iff.1 hentries
      simp only [TypeArgs.outline, TypeArg.entries, Outline.patches, TypeArgs.rewritten?, List.isEmpty_nil,
        if_true]
      split
      · exact hless.append hj hq hgreater (.inr (.inl hopen))
      · change Writes j p q _ []
        exact .of_patch hj hlt (by simp) (.of_gap .nil)
    | a :: rest =>
      have hkept := TypeArg.spellsKept hj (a :: rest) (slotsOf j.vocabulary (some owner)) has hentries hm
      have hinplace := TypeArg.writesBehind hj isLead_empty (a :: rest) has hentries hm
      have hempty : (TypeArg.entries (a :: rest)).isEmpty = false := rfl
      simp only [TypeArgs.outline, Outline.patches, TypeArgs.rewritten?, hempty, List.isEmpty_cons,
        Bool.false_eq_true, if_false, map_fst_entries, readAll_args?]
      split
      · obtain ⟨htokens, hstrewn⟩ := spells_angleChunks hkept
        exact .of_patch hj hlt htokens hstrewn
      · rename_i hnone
        rw [rewrittenAll_eq_map (Bool.eq_false_iff.2 hnone), ← readAll_args]
        have hbody := hinplace.append hj hq hgreater (.inr (.inl hopen))
        have hall := hless.append hj hq hbody (.inl (isShut_symbol (by decide)))
        rw [List.append_nil] at hall
        exact hall

/-- The entries of a list that all stay. -/
theorem TypeArg.writesBehind (hj : j.IsReady text) {lead : Stretch} {xs : List Lexeme}
    (hlead : IsLead j lead xs) : ∀ (es : List Stencil.TypeArg) {bs : List BareArg} {p q : Nat},
    TypeArg.bareAll? es = some bs →
    TypeArg.readsBehind (.ofSource j.source receiver) lead es p q → q ≤ j.source.code.size →
    Writes j p q (Outline.argPatches j (TypeArg.entries es))
      (readAll (BareArg.wordsBehind xs (es.map (TypeArg.rewritten j.vocabulary j.binding))))
  | [], _, p, _, _, h, _ => by
    obtain rfl := empty_iff.1 h
    exact .nil (Nat.le_refl p) (Nat.le_refl p)
  | a :: rest, bs, p, q, h, ⟨m, ⟨m', hl, ha⟩, hrest⟩, hq => by
    simp only [TypeArg.bareAll?, bind, Option.bind_eq_some_iff, pure, Option.some.injEq] at h
    obtain ⟨ba, hba, brest, hbrest, rfl⟩ := h
    have hm := Nat.le_trans ((TypeArg.readsBehind _ _ rest).le hrest) hq
    have hm' := Nat.le_trans ((Stencil.TypeArg.reads _ a).le ha) hm
    have ha := TypeArg.writes hj a hba ha hm
    have hrest := TypeArg.writesBehind hj (isLead_symbol hj (k := .comma) (by decide)) rest hbrest hrest hq
    have hboth := ha.append hj hq hrest (.inr (.inl (isOpen_args _)))
    have hall := (hlead.writes hl hm').append hj hq hboth (.inl hlead.isShut)
    simpa only [TypeArg.entries, Outline.argPatches, List.nil_append, List.map_cons, BareArg.wordsBehind,
      readAll, List.map_append] using hall

/-- The entries that stay, each of them put in as a text. -/
theorem TypeArg.spellsKept (hj : j.IsReady text) {lead : Stretch} : ∀ (es : List Stencil.TypeArg)
    (slots : List Placeholder) {bs : List BareArg} {p q : Nat}, TypeArg.bareAll? es = some bs →
    TypeArg.readsBehind (.ofSource j.source receiver) lead es p q → q ≤ j.source.code.size →
    List.Forall₂ (Spells j) (Outline.keptArgChunks j slots (TypeArg.entries es))
      ((TypeArg.rewrittenAll j.vocabulary j.binding slots es).map fun a => readAll a.words)
  | [], _, _, _, _, _, _, _ => .nil
  | a :: rest, slots, bs, p, q, h, ⟨m, ⟨m', _, ha⟩, hrest⟩, hq => by
    simp only [TypeArg.bareAll?, bind, Option.bind_eq_some_iff, pure, Option.some.injEq] at h
    obtain ⟨ba, hba, brest, hbrest, rfl⟩ := h
    have hm := Nat.le_trans ((TypeArg.readsBehind _ _ rest).le hrest) hq
    have hkept := TypeArg.spellsKept hj rest slots.tail hbrest hrest hq
    rw [TypeArg.entries, Outline.keptArgChunks, TypeArg.rewrittenAll]
    split
    · exact hkept
    · have hwrites := TypeArg.writes hj a hba ha hm
      rw [(TypeArg.laid_of_reads ha).2]
      exact .cons ⟨hwrites.tokens, hwrites.strewn⟩ hkept

theorem TypeArg.writes (hj : j.IsReady text) : ∀ (e : Stencil.TypeArg) {a : BareArg} {p q : Nat},
    e.bare? = some a → e.reads (.ofSource j.source receiver) p q → q ≤ j.source.code.size →
    Writes j p q (Outline.patchesAll j (TypeArg.outline e))
      (readAll (TypeArg.rewritten j.vocabulary j.binding e).words)
  | .type t, _, _, _, h, hreads, hq => by
    obtain ⟨t', ht, rfl⟩ := Option.map_eq_some_iff.1 h
    exact TypeExpr.writes hj t ht hreads hq
  | .wildcard _, _, _, _, _, ⟨h, _⟩, _ => writes_symbol hj (k := .question) (by decide) h
  | .bounded kind t _, _, p, q, h, ⟨⟨m, ⟨m', hquestion, hkeyword⟩, ht⟩, _⟩, hq => by
    obtain ⟨t', hbt, rfl⟩ := Option.map_eq_some_iff.1 h
    have hbound := (TypeExpr.writes hj t hbt ht hq).behind_keyword hj hq kind hkeyword hbt ht
    have hall := (writes_symbol hj (by decide) hquestion).append hj hq hbound
      (.inl (isShut_symbol (by decide)))
    rw [TypeArg.rewritten, BareArg.words, readAll, List.map_cons, List.map_cons, asRead_keyword]
    exact hall

end

/-! ## Type parameters -/

/-- Bounds, the first one behind the lead and each other one behind an ampersand. -/
theorem writes_bounds (hj : j.IsReady text) {lead : Stretch} (xs : List Lexeme)
    {es : List Stencil.TypeExpr} {p q : Nat}
    (hlead : ∀ {p m q e t px ys}, lead p m → TypeExpr.bare? e = some t →
      TypeExpr.reads (.ofSource j.source receiver) e m q → q ≤ j.source.code.size →
      Writes j m q px ys → Writes j p q px (readAll xs ++ ys))
    (hbare : ∀ e ∈ es, ∃ t, e.bare? = some t)
    (h : TypeExpr.readsBehind (.ofSource j.source receiver) lead .amp es p q)
    (hq : q ≤ j.source.code.size) : Writes j p q (Outline.patchesAll j (TypeExpr.outlines es))
      (readAll (BareType.wordsBehind xs (es.map (TypeExpr.rewritten j.vocabulary j.binding)))) := by
  induction es generalizing lead xs p with
  | nil =>
    obtain rfl := empty_iff.1 h
    exact .nil (Nat.le_refl p) (Nat.le_refl p)
  | cons e es ih =>
    obtain ⟨m, ⟨m', hl, he⟩, hrest⟩ := h
    rw [List.forall_mem_cons] at hbare
    obtain ⟨⟨t, ht⟩, hbare⟩ := hbare
    have hm := Nat.le_trans ((TypeExpr.readsBehind _ _ _ es).le hrest) hq
    have hamp : IsLead j (word (.ofSource j.source receiver) .amp) [Kind.amp.lexeme] := isLead_symbol hj (by decide)
    have hrest := ih [Kind.amp.lexeme] (fun {p m q e t px ys} hl _ he hq hx => by
      have hm := Nat.le_trans ((Stencil.TypeExpr.reads _ e).le he) hq
      exact (hamp.writes hl hm).append hj hq hx (.inl hamp.isShut)) hbare hrest
    have hfirst := hlead hl ht he hm (TypeExpr.writes hj e ht he hm)
    have hall := hfirst.append hj hq hrest (.inr (.inl (isOpen_bounds _)))
    rw [TypeExpr.outlines, Outline.patchesAll_append]
    simpa only [List.map_cons, BareType.wordsBehind, readAll, List.map_append, List.append_assoc] using hall

theorem TypeParam.of_isBare {a : Stencil.TypeParam} (h : a.isBare = true) :
    a.annotations = [] ∧ ∀ e ∈ a.bounds, ∃ t, e.bare? = some t := by
  simpa only [Stencil.TypeParam.isBare, Bool.and_eq_true, List.isEmpty_iff, List.all_eq_true,
    Option.isSome_iff_exists] using h

theorem TypeParam.writes (hj : j.IsReady text) : ∀ (a : Stencil.TypeParam) {p q : Nat},
    a.isBare = true → a.reads (.ofSource j.source receiver) p q → q ≤ j.source.code.size →
    Writes j p q (Outline.patchesAll j (TypeParam.outline a))
      (readAll (TypeParam.rewritten j.vocabulary j.binding a).words)
  | ⟨annotations, i, bounds, extent⟩, p, q, hbare, ⟨⟨m, ⟨m', hannotations, hi⟩, hbounds⟩, _⟩, hq => by
    obtain ⟨rfl, hbare⟩ := TypeParam.of_isBare hbare
    obtain rfl := empty_iff.1 hannotations
    have hs := hj.isSpelled receiver
    obtain ⟨hisName, hverbatim⟩ := hs.verbatim_of_nameOf hi
    have hname := Writes.of_nameOf hj hi
      (isWordText_ident (v := j.vocabulary) (b := j.binding) hisName)
    have hwrites := writes_bounds hj [Kind.kwExtends.lexeme]
      (fun hl ht he hq hx => hx.behind_keyword hj hq .upper hl ht he) hbare hbounds hq
    refine hname.append hj hq hwrites (.inr ?_)
    match bounds with
    | [] => exact .inl .nil
    | e :: rest =>
      obtain ⟨_, ⟨_, hkeyword, -⟩, -⟩ := hbounds
      have hkeyword := hs.verbatim_of_word .kwExtends rfl hkeyword
      obtain rfl : p + 1 = m := hi.2.2.symm
      exact .inr (Writes.index_add_one_lt_of_words hj (verbatim_cons.1 hverbatim).1
        (verbatim_cons.1 hkeyword).1 rfl rfl)

/-- The entries of a list that all stay. -/
theorem TypeParam.writesBehind (hj : j.IsReady text) {lead : Stretch} {xs : List Lexeme}
    (hlead : IsLead j lead xs) {as : List Stencil.TypeParam} {p q : Nat}
    (hbare : ∀ a ∈ as, a.isBare = true)
    (h : TypeParam.readsBehind (.ofSource j.source receiver) lead as p q) (hq : q ≤ j.source.code.size) :
    Writes j p q (Outline.paramPatches j (TypeParam.entries as))
      (readAll (BareParam.wordsBehind xs (as.map (TypeParam.rewritten j.vocabulary j.binding)))) := by
  induction as generalizing lead xs p with
  | nil =>
    obtain rfl := empty_iff.1 h
    exact .nil (Nat.le_refl p) (Nat.le_refl p)
  | cons a as ih =>
    obtain ⟨m, ⟨m', hl, ha⟩, hrest⟩ := h
    rw [List.forall_mem_cons] at hbare
    have hm := Nat.le_trans ((TypeParam.readsBehind _ _ as).le hrest) hq
    have hm' := Nat.le_trans ((Stencil.TypeParam.reads _ a).le ha) hm
    have ha := TypeParam.writes hj a hbare.1 ha hm
    have hrest := ih (isLead_symbol hj (k := .comma) (by decide)) hbare.2 hrest
    have hboth := ha.append hj hq hrest (.inr (.inl (isOpen_params _)))
    have hall := (hlead.writes hl hm').append hj hq hboth (.inl hlead.isShut)
    simpa only [TypeParam.entries, Outline.paramPatches, List.nil_append, List.map_cons,
      BareParam.wordsBehind, readAll, List.map_append] using hall

/-- The entries that stay, each of them put in as a text. -/
theorem TypeParam.spellsKept (hj : j.IsReady text) {lead : Stretch} {as : List Stencil.TypeParam}
    {p q : Nat} (hbare : ∀ a ∈ as, a.isBare = true)
    (h : TypeParam.readsBehind (.ofSource j.source receiver) lead as p q) (hq : q ≤ j.source.code.size) :
    List.Forall₂ (Spells j) (Outline.keptParamChunks j (TypeParam.entries as))
      ((TypeParam.rewrittenAll j.vocabulary j.binding as).map fun a => readAll a.words) := by
  induction as generalizing lead p with
  | nil => exact .nil
  | cons a as ih =>
    obtain ⟨m, ⟨m', -, ha⟩, hrest⟩ := h
    rw [List.forall_mem_cons] at hbare
    have hm := Nat.le_trans ((TypeParam.readsBehind _ _ as).le hrest) hq
    have hkept := ih hbare.2 hrest
    rw [TypeParam.entries, Outline.keptParamChunks, TypeParam.rewrittenAll]
    split
    · rename_i hdropped
      rwa [List.filter_cons_of_neg (by simp [hdropped])]
    · rename_i hstays
      have hwrites := TypeParam.writes hj a hbare.1 ha hm
      rw [List.filter_cons_of_pos (by simpa using hstays), (TypeParam.laid_of_reads ha).2]
      exact .cons ⟨hwrites.tokens, hwrites.strewn⟩ hkept

end Stencil.Rewrite
