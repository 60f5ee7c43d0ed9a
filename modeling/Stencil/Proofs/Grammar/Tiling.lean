import Mathlib.Data.List.Chain
import Stencil.Proofs.Grammar.Lays
import Stencil.Proofs.Grammar.Part
import Stencil.Proofs.Grammar.Placed

/-!
# Elements lose no token

A body is kept as a list of elements. Some of them are found one at a time, others come as the few
that belong to one `new`, and a generic type may be given up and read again as a name; still every
code token of a body is part of one element, and of one only.

Results: the elements of each group, at any depth of what a rule finds, cover the code between its
brackets without gaps and overlaps, and those of each expression cover all of its code
(`tiled_of_run`).
-/

namespace Stencil

namespace Source

/-- The elements cover the code of a range: each of them lies in the range, begins and ends with code
and begins where the one before has ended, but for tokens that are no code; each code token of the
range is in exactly one of them; and none of them is a bracket alone. -/
structure TiledBy (s : Source) (r : TokenRange) (es : List Elem) : Prop where
  delimits : ∀ e ∈ es, s.Delimits (s.range e.extent)
  inside : ∀ e ∈ es, r.contains (s.range e.extent) = true
  adjacent : es.IsChain fun e e' => (s.range e.extent).stop ≤ (s.range e'.extent).start
    ∧ ∀ i, (s.range e.extent).stop ≤ i → i < (s.range e'.extent).start → ¬s.IsCodeAt i
  once : ∀ i, s.IsCodeAt i → r.contains (.single i) = true →
    es.countP (fun e => (s.range e.extent).contains (.single i)) = 1
  noBracket : ∀ p, .token p ∈ es → (s.codeToken p).kind.isOpenDelimiter = false
    ∧ (s.codeToken p).kind.isCloseDelimiter = false

/-- The group begins and ends with its brackets, and its elements cover the code in between. -/
structure TiledGroup (s : Source) (g : Group) : Prop where
  delimits : s.Delimits (s.range g.extent)
  opening : (s.tokenAt (s.range g.extent).start).kind = g.delimiter.opening
  closing : (s.tokenAt ((s.range g.extent).stop - 1)).kind = g.delimiter.closing
  tiled : s.TiledBy ⟨(s.range g.extent).start + 1, (s.range g.extent).stop - 1⟩ g.elems

end Source

/-! ## Positions of elements -/

namespace Elem

variable {s : Script} {p q n : Nat} {e : Elem} {es : List Elem}

theorem extent_of_reads (h : e.reads s p q) : e.extent = ⟨p, q⟩ := by
  cases e with
  | token position => exact h.2
  | ident i =>
    obtain ⟨-, rfl, rfl⟩ := h
    rfl
  | type t =>
    obtain ⟨annotations, core, dims, extent⟩ := t
    exact h.2
  | typeArgs a =>
    obtain ⟨entries, extent⟩ := a
    exact h.2
  | group g =>
    obtain ⟨delimiter, elems, extent⟩ := g
    exact h.2
  | intrinsic c =>
    obtain ⟨receiver, hint, i, args, extent⟩ := c
    exact h.2
  | anonymous b =>
    obtain ⟨constants, members, extent⟩ := b
    exact h.2
  | localType d =>
    obtain ⟨modifiers, kind, i, typeParams, supertypes, interfaces, body, extent⟩ := d
    exact h.2

theorem exists_of_mem_readsAll (h : Elem.readsAll s es p q) (he : e ∈ es) :
    ∃ m n, e.reads s m n ∧ p ≤ m ∧ n ≤ q := by
  induction es generalizing p with
  | nil => cases he
  | cons e' rest ih =>
    obtain ⟨n, he', hrest⟩ := h
    rcases List.mem_cons.1 he with rfl | hmem
    · exact ⟨p, n, he', p.le_refl, (Elem.readsAll s rest).le hrest⟩
    · obtain ⟨k, l, hkl, hnk, hlq⟩ := ih hrest hmem
      exact ⟨k, l, hkl, Nat.le_trans ((e'.reads s).le he') hnk, hlq⟩

/-- Does the second element begin where the first one ends, and no later than the given position? -/
def Meets (q : Nat) (e e' : Elem) : Prop :=
  ∃ k m n, e.extent = ⟨k, m⟩ ∧ e'.extent = ⟨m, n⟩ ∧ k < m ∧ m < n ∧ n ≤ q

theorem isChain_of_readsAll (h : Elem.readsAll s es p q) : es.IsChain (Meets q) := by
  induction es generalizing p with
  | nil => exact .nil
  | cons e rest ih =>
    obtain ⟨m, he, hrest⟩ := h
    cases rest with
    | nil => exact .singleton e
    | cons e' rest =>
      refine .cons_cons ?_ (ih hrest)
      obtain ⟨n, he', hrest⟩ := hrest
      exact ⟨p, m, n, extent_of_reads he, extent_of_reads he', e.strict_reads he, e'.strict_reads he',
        (Elem.readsAll s rest).le hrest⟩

/-- No element in front of a position and behind another one covers it. -/
theorem countP_eq_zero_of_readsAll (h : Elem.readsAll s es p q) (hn : n < p ∨ q ≤ n) :
    es.countP (fun e => e.extent.first ≤ n && n < e.extent.stop) = 0 := by
  refine List.countP_eq_zero.2 fun e he => ?_
  obtain ⟨k, l, hkl, hpk, hlq⟩ := exists_of_mem_readsAll h he
  rw [extent_of_reads hkl]
  simp only [Bool.and_eq_true, decide_eq_true_eq]
  omega

/-- Each position between the first and the last one is covered by one element. -/
theorem countP_of_readsAll (h : Elem.readsAll s es p q) (hpn : p ≤ n) (hnq : n < q) :
    es.countP (fun e => e.extent.first ≤ n && n < e.extent.stop) = 1 := by
  induction es generalizing p with
  | nil =>
    obtain rfl := Stretch.empty_iff.1 h
    omega
  | cons e rest ih =>
    obtain ⟨m, he, hrest⟩ := h
    rw [List.countP_cons, extent_of_reads he]
    by_cases hnm : n < m
    · rw [countP_eq_zero_of_readsAll hrest (.inl hnm)]
      simp [hpn, hnm]
    · rw [ih hrest (Nat.le_of_not_lt hnm)]
      simp [hnm]

end Elem

/-! ## Ranges of elements -/

theorem TokenRange.contains_single_iff {r : TokenRange} {i : Nat} :
    r.contains (.single i) = true ↔ r.start ≤ i ∧ i < r.stop :=
  contains_iff

namespace Source

variable {s : Source} {receiver : String} {p q n a b : Nat} {es : List Elem}

theorem Indexed.lt_of_index_lt (hs : s.Indexed) (h : s.index a < s.index b) : a < b :=
  Nat.lt_of_not_le fun hba => Nat.not_le_of_lt h (hs.index_le_index hba)

/-- A range holds the indices of the code tokens of its extent and of no other ones. -/
theorem Indexed.contains_single_iff (hs : s.Indexed) (hab : a < b) (hn : n < s.code.size) :
    (s.range ⟨a, b⟩).contains (.single (s.index n)) = true ↔ a ≤ n ∧ n < b := by
  rw [range_of_lt hab, TokenRange.contains_single_iff]
  constructor
  · rintro ⟨han, hnb⟩
    refine ⟨Nat.le_of_not_lt fun hna => ?_, Nat.lt_of_not_le fun hbn => ?_⟩
    · exact Nat.not_le_of_lt (hs.index_lt_index hna hn) han
    · have hlast := hs.index_lt_index (p := b - 1) (q := n) (by omega) (by omega)
      exact Nat.not_le_of_lt hlast (Nat.le_of_lt_succ hnb)
  · rintro ⟨han, hnb⟩
    exact ⟨hs.index_le_index han, Nat.lt_succ_of_le (hs.index_le_index (by omega))⟩

/-- Elements one after the other cover a range that holds the code of these elements only. -/
theorem Indexed.tiledBy_of_readsAll (hs : s.Indexed)
    (h : Elem.readsAll (.ofSource s receiver) es p q) (hq : q ≤ s.code.size) {r : TokenRange}
    (hr : ∀ n < s.code.size, r.contains (.single (s.index n)) = true ↔ p ≤ n ∧ n < q) :
    s.TiledBy r es := by
  refine ⟨fun e he => ?_, fun e he => ?_, ?_, fun i hi hir => ?_, fun n hn => ?_⟩
  · obtain ⟨k, l, hkl, -, hlq⟩ := Elem.exists_of_mem_readsAll h he
    rw [Elem.extent_of_reads hkl]
    exact hs.delimits_range (e.strict_reads hkl) (Nat.le_trans hlq hq)
  · obtain ⟨k, l, hkl, hpk, hlq⟩ := Elem.exists_of_mem_readsAll h he
    have hlt := e.strict_reads hkl
    have hfirst := (hr k (by omega)).2 ⟨hpk, by omega⟩
    have hlast := (hr (l - 1) (by omega)).2 ⟨by omega, by omega⟩
    rw [TokenRange.contains_single_iff] at hfirst hlast
    rw [Elem.extent_of_reads hkl, range_of_lt hlt, TokenRange.contains_iff]
    exact ⟨hfirst.1, hlast.2⟩
  · refine (Elem.isChain_of_readsAll h).imp fun e e' ⟨k, m, l, he, he', hkm, hml, hlq⟩ => ?_
    rw [he, he', range_of_lt hkm, range_of_lt hml]
    refine ⟨hs.index_lt_index (by omega) (by omega), fun i hi hi' hcode => ?_⟩
    obtain ⟨n, hn, rfl⟩ := hs.exists_index_eq hcode.1 hcode.2
    have hmn := hs.lt_of_index_lt (a := m - 1) (b := n) hi
    have hnm := hs.lt_of_index_lt (a := n) (b := m) hi'
    omega
  · obtain ⟨n, hn, rfl⟩ := hs.exists_index_eq hi.1 hi.2
    obtain ⟨hpn, hnq⟩ := (hr n hn).1 hir
    rw [← Elem.countP_of_readsAll h hpn hnq]
    refine List.countP_congr fun e he => ?_
    obtain ⟨k, l, hkl, -, -⟩ := Elem.exists_of_mem_readsAll h he
    rw [Elem.extent_of_reads hkl, hs.contains_single_iff (e.strict_reads hkl) hn]
    simp
  · obtain ⟨k, l, ⟨⟨hplain, hl⟩, hext⟩, -, hlq⟩ := Elem.exists_of_mem_readsAll h hn
    obtain ⟨rfl, -⟩ := Extent.mk.inj hext
    have hsize : n < s.code.size := by omega
    rw [kind_ofSource hsize] at hplain
    exact hplain.2.2

theorem Indexed.tiledGroup_of_reads (hs : s.Indexed) {g : Group}
    (h : g.reads (.ofSource s receiver) p q) : s.TiledGroup g := by
  obtain ⟨delimiter, elems, extent⟩ := g
  obtain ⟨⟨m, ⟨_, ⟨hopening, rfl⟩, helems⟩, hclosing, rfl⟩, rfl⟩ := h
  have hpm : p < m := (Elem.readsAll _ elems).le helems
  have hm : m < s.code.size := lt_size_of_kind_ne (hclosing ▸ Grammar.closing_ne_eof delimiter)
  have hrange : s.range ⟨p, m + 1⟩ = ⟨s.index p, s.index m + 1⟩ := range_of_lt (by omega)
  rw [kind_ofSource (by omega)] at hopening hclosing
  refine ⟨hs.delimits_range (by omega) hm, ?_, ?_, ?_⟩
  · rw [hrange]
    exact hopening
  · rw [hrange]
    exact hclosing
  · rw [hrange]
    refine hs.tiledBy_of_readsAll helems (Nat.le_of_lt hm) fun n hn => ?_
    rw [TokenRange.contains_single_iff]
    constructor
    · rintro ⟨hpn, hnm⟩
      exact ⟨hs.lt_of_index_lt hpn, hs.lt_of_index_lt hnm⟩
    · rintro ⟨hpn, hnm⟩
      exact ⟨hs.index_lt_index hpn (by omega), hs.index_lt_index hnm hn⟩

theorem Indexed.tiledBy_of_reads (hs : s.Indexed) {e : Expr}
    (h : e.reads (.ofSource s receiver) p q) : s.TiledBy (s.range e.extent) e.elems := by
  obtain ⟨elems, extent⟩ := e
  obtain ⟨⟨-, helems⟩, rfl⟩ := h
  by_cases hpq : p < q
  · have hcode := Node.code_of_laidAll (Elem.lays_readsAll elems helems)
    have hq := Node.le_size_of_code hcode hpq
    exact hs.tiledBy_of_readsAll helems hq fun n hn => hs.contains_single_iff hpq hn
  · obtain rfl : p = q := Nat.le_antisymm ((Elem.readsAll _ elems).le helems) (Nat.le_of_not_lt hpq)
    obtain rfl := (Elem.readsAll_eq_nil_iff helems).2 rfl
    refine ⟨by simp, by simp, .nil, fun i _ hi => ?_, by simp⟩
    rw [range_self, TokenRange.contains_single_iff] at hi
    exact absurd (Nat.lt_of_le_of_lt hi.1 hi.2) (Nat.lt_irrefl _)

end Source

/-! ## Rules -/

namespace Grammar

open Rule

/-- The rules of the grammar, and the parts of what each of them finds. A rule that goes on behind a
head, such as the rest of a declaration behind its modifiers, is part of the rules that read the head
first, and a single element or an intrinsic call is looked for among elements only. -/
inductive Finds : {α : Type} → (Nested → Rule α) → (α → List Part) → Prop
  -- brackets and annotations
  | group : Finds group fun b => [.group b]
  | optionalGroup (opening : Kind) : Finds (optionalGroup · opening) fun b => b.toList.map .group
  | expr : Finds expr fun e => [.expr e]
  | elems (untilSeparator : Bool) :
    Finds (elems · untilSeparator) fun es => es.flatMap (·.part?.toList)
  | creator : Finds creator fun es => es.flatMap (·.part?.toList)
  | callArgs : Finds callArgs fun es => es.map .expr
  | annotationUse : Finds annotationUse fun a => [.annotationUse a]
  | annotations : Finds annotations fun as => as.map .annotationUse
  -- types
  | typeArgs : Finds typeArgs fun a => [.typeArgs a]
  | optionalTypeArgs : Finds optionalTypeArgs fun a => a.toList.map .typeArgs
  | classType : Finds classType fun t => [.type t]
  | type : Finds type fun t => [.type t]
  | typeList : Finds typeList fun ts => ts.map .type
  | typeParam : Finds typeParam fun a => [.typeParam a]
  | typeParams : Finds typeParams fun a => TypeParams.parts? (some a)
  | optionalTypeParams : Finds optionalTypeParams TypeParams.parts?
  | genericType : Finds genericType fun t => [.type t]
  | genericType? : Finds genericType? fun t => t.toList.map .type
  -- declarations
  | modifiers : Finds modifiers Modifiers.parts
  | param : Finds param fun a => [.param a]
  | params : Finds params fun as => as.map .param
  | methodBody : Finds methodBody fun b => b.toList.map .group
  | member : Finds member fun m => m.toList.map .member
  | enumConstant : Finds enumConstant fun c => [.enumConstant c]
  | enumConstants : Finds enumConstants fun cs => cs.map .enumConstant
  | classBody (isEnum : Bool) : Finds (classBody · isEnum) fun b => [.classBody b]
  | typeDecl : Finds typeDecl fun d => [.typeDecl d]
  -- files
  | compilationUnit : Finds compilationUnit CompilationUnit.parts

variable {s : Script} {p q : Nat} {g : Nested} {α : Type} {rule : Nested → Rule α}
  {parts : α → List Part} {t : α}

open Stencil.Part in
theorem Finds.allRead_of_run (hf : Finds rule parts) (hg : g.Sound s)
    (h : (rule g).run s p = .ok t q) : AllRead s (parts t) := by
  cases hf with
  | group => exact .singleton (x := .group t) (reads_of_group hg h)
  | optionalGroup opening => exact allRead_group? (reads_of_optionalGroup hg h)
  | expr => exact .singleton (x := .expr t) (reads_of_expr hg h)
  | elems untilSeparator => exact allRead_elems (readsAll_of_elems hg h)
  | creator => exact allRead_elems (readsAll_of_creator hg h)
  | callArgs =>
    obtain ⟨_, ⟨_, -, h⟩, -⟩ := reads_of_callArgs hg h
    exact allRead_exprs h
  | annotationUse => exact .singleton (x := .annotationUse t) (reads_of_annotationUse hg h)
  | annotations => exact allRead_annotations (readsAll_of_annotations hg h)
  | typeArgs => exact .singleton (x := .typeArgs t) (reads_of_typeArgs hg h)
  | optionalTypeArgs => exact allRead_typeArgs? (reads_of_optionalTypeArgs hg h)
  | classType => exact .singleton (x := .type t) (reads_of_classType hg h)
  | type => exact .singleton (x := .type t) (reads_of_type hg h)
  | typeList =>
    exact allRead_types (readsBehind_of_sepBy hg (by simp) (Stretch.empty_iff.2 rfl) h)
  | typeParam => exact .singleton (x := .typeParam t) (reads_of_typeParam hg h)
  | typeParams => exact allRead_typeParams? (reads_of_typeParams hg h)
  | optionalTypeParams => exact allRead_typeParams? (reads_of_optionalTypeParams hg h)
  | genericType => exact .singleton (x := .type t) (reads_of_genericType hg h)
  | genericType? => exact allRead_type? (reads_of_genericType? hg h)
  | modifiers => exact allRead_modifiers (reads_of_modifiers hg h)
  | param => exact .singleton (x := .param t) (reads_of_param hg h)
  | params =>
    obtain ⟨_, ⟨_, -, h⟩, -⟩ := reads_of_params hg h
    exact allRead_params h
  | methodBody => exact allRead_group? (reads_of_methodBody hg h)
  | member =>
    cases t with
    | none => exact allRead_nil
    | some m => exact .singleton (x := .member m) (reads_of_member hg h)
  | enumConstant => exact .singleton (x := .enumConstant t) (reads_of_enumConstant hg h)
  | enumConstants =>
    obtain ⟨_, h, -⟩ := reads_of_enumConstants hg h
    exact allRead_constants h
  | classBody isEnum => exact .singleton (x := .classBody t) (reads_of_classBody hg h)
  | typeDecl => exact .singleton (x := .typeDecl t) (reads_of_typeDecl hg h)
  | compilationUnit => exact allRead_compilationUnit (reads_of_compilationUnit hg h).1

/-- Whatever a rule finds in a text, from whatever position on, at any depth of it a group is a pair of
brackets and the elements that cover the code between the two, and the elements of an expression cover
all of its code: each code token is in exactly one element, each element begins where the one before
ends, and no bracket is an element of its own. -/
theorem tiled_of_run (hf : Finds rule parts) {text receiver : String}
    (h : (complete rule).run (.ofSource (.ofString text) receiver) p = .ok t q) {x : Part}
    (hx : x ∈ parts t) :
    (∀ b, x.Holds (.group b) → (Source.ofString text).TiledGroup b)
      ∧ ∀ e, x.Holds (.expr e) →
        (Source.ofString text).TiledBy ((Source.ofString text).range e.extent) e.elems := by
  rw [run_complete] at h
  have hread := hf.allRead_of_run (sound_nested _ _) h
  have hsource := Source.indexed_ofString text
  constructor
  · intro b hb
    obtain ⟨k, l, hreads⟩ := hread.of_holds hx hb
    exact hsource.tiledGroup_of_reads hreads
  · intro e he
    obtain ⟨k, l, hreads⟩ := hread.of_holds hx he
    exact hsource.tiledBy_of_reads hreads

/-- The theorem at a group with a type that is given up, the four elements of one `new`, and an
intrinsic call. -/
theorem tiled_of_run_creator : ∃ b q,
    (complete group).run
        (.ofSource (.ofString "{ a < /* b */ c, new D(e) { }, I.m(f , g) }") "I") 0 = .ok b q
      ∧ b.elems.map (fun e => (Source.ofString "{ a < /* b */ c, new D(e) { }, I.m(f , g) }").range
          e.extent)
        = [⟨2, 3⟩, ⟨4, 5⟩, ⟨8, 9⟩, ⟨9, 10⟩, ⟨11, 12⟩, ⟨13, 14⟩, ⟨14, 17⟩, ⟨18, 21⟩, ⟨21, 22⟩, ⟨23, 33⟩]
      ∧ (Source.ofString "{ a < /* b */ c, new D(e) { }, I.m(f , g) }").TiledGroup b := by
  obtain ⟨b, q, hrun, hranges⟩ := exists_run_of_sees (r := complete group)
    (s := .ofSource (.ofString "{ a < /* b */ c, new D(e) { }, I.m(f , g) }") "I") (p := 0)
    (fun b _ => decide (b.elems.map (fun e =>
        (Source.ofString "{ a < /* b */ c, new D(e) { }, I.m(f , g) }").range e.extent)
      = [⟨2, 3⟩, ⟨4, 5⟩, ⟨8, 9⟩, ⟨9, 10⟩, ⟨11, 12⟩, ⟨13, 14⟩, ⟨14, 17⟩, ⟨18, 21⟩, ⟨21, 22⟩, ⟨23, 33⟩]))
    (by decide +kernel)
  have htiled := (tiled_of_run .group hrun (List.mem_singleton.2 rfl)).1 b .refl
  exact ⟨b, q, hrun, of_decide_eq_true hranges, htiled⟩

end Grammar

end Stencil
