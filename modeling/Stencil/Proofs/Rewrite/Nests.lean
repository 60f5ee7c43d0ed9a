import Stencil.Proofs.Rewrite.Free
import Stencil.Proofs.Rewrite.Keeps

/-!
# Brackets in what is written anew

Every node of a tree has well-nested brackets, and what the walk makes of it has, too: a patch puts in
names, lists and replacements whose brackets are well nested, in place of stretches whose brackets are.

Results: the outline of every node leaves its brackets well nested (`nests` for each node), and so are
the brackets of every argument of a call (`Expr.balanced_operands`) and of its replacement
(`balanced_callChunks`).
-/

namespace Stencil.Rewrite

open Stretch

variable {j : Job} {text : String} {p m q : Nat} {a b : Stretch} {os os' : List Outline}

/-- A template that has been read, written with names. -/
structure Job.IsApt (j : Job) (text : String) : Prop extends j.IsReady text where
  primary : isName j.vocabulary.primary = true
  mixer : IsDottedName j.vocabulary.mixer

/-- Are the brackets of each such stretch well nested, as it is and with the patches of the outline? -/
structure Nests (j : Job) (a : Stretch) (os : List Outline) : Prop where
  copied : Keeps j Balanced a []
  patched : Keeps j Balanced a (Outline.patchesAll j os)

namespace Nests

theorem within {e : Extent} (h : Nests j a os) : Nests j (within e a) os :=
  ⟨h.copied.within, h.patched.within⟩

theorem given {c : Prop} (h : Nests j a os) : Nests j (given c a) os :=
  ⟨h.copied.given, h.patched.given⟩

theorem any {ι : Type} {f : ι → Stretch} (h : ∀ i, Nests j (f i) os) : Nests j (any f) os :=
  ⟨.any fun i => (h i).copied, .any fun i => (h i).patched⟩

theorem mono (h : Nests j a os) (hab : ∀ ⦃p q⦄, b p q → a p q) : Nests j b os :=
  ⟨h.copied.mono hab, h.patched.mono hab⟩

theorem congr (h : Nests j a os) (ho : os = os') : Nests j a os' :=
  ho ▸ h

/-- A stretch without places. -/
theorem plain (h : Keeps j Balanced a []) : Nests j a [] :=
  ⟨h, h⟩

theorem empty : Nests j .empty [] :=
  .plain (.empty joint_balanced)

variable (hj : j.IsApt text)
include hj

theorem append (ha : Nests j a os) (hb : Nests j b os') : Nests j (a ++ b) (os ++ os') := by
  refine ⟨ha.copied.append hj.toIsReady joint_balanced hb.copied, ?_⟩
  rw [Outline.patchesAll_append]
  exact ha.patched.append hj.toIsReady joint_balanced hb.patched

theorem wordOf {Q : Kind → Prop} (hQ : ∀ k, Q k → k.isBracket = false) :
    Nests j (wordOf j.script Q) [] :=
  .plain (.wordOf hj.toIsReady fun _ h => .word (hQ _ h))

theorem word {k : Kind} (hk : k.isBracket = false) : Nests j (word j.script k) [] :=
  wordOf hj fun _ h => h ▸ hk

theorem words {ks : List Kind} (hks : ∀ k ∈ ks, k.isBracket = false) :
    Nests j (words j.script ks) [] :=
  .plain (.words hj.toIsReady joint_balanced fun k hk _ h => .word (h ▸ hks k hk))

theorem semicolons : Nests j (run j.script (· = .semicolon)) [] :=
  .plain (.run hj.toIsReady joint_balanced fun _ h => .word (h ▸ rfl))

theorem dims (n : Nat) : Nests j (Stretch.dims j.script n) [] :=
  .plain (.dims hj.toIsReady joint_balanced n)

/-- Words in front have no places. -/
theorem behind (hb : Nests j b []) (ha : Nests j a os) : Nests j (b ++ a) os :=
  hb.append hj ha

/-- Nor have words at the end. -/
theorem front (ha : Nests j a os) (hb : Nests j b []) : Nests j (a ++ b) os :=
  (ha.append hj hb).congr (List.append_nil os)

theorem pair (d : Delimiter) (ha : Nests j a os) : Nests j
    (Stretch.word j.script d.opening ++ a
      ++ Stretch.word j.script d.closing) os :=
  ⟨ha.copied.pair hj.toIsReady joint_balanced d, ha.patched.pair hj.toIsReady joint_balanced d⟩

theorem pairBehind (d : Delimiter) (hb : Nests j b os') (ha : Nests j a os) : Nests j
    (b ++ Stretch.word j.script d.opening ++ a
      ++ Stretch.word j.script d.closing) (os' ++ os) := by
  refine ⟨hb.copied.pairBehind hj.toIsReady joint_balanced d ha.copied, ?_⟩
  rw [Outline.patchesAll_append]
  exact hb.patched.pairBehind hj.toIsReady joint_balanced d ha.patched

omit hj in
theorem isBracket_of_word {k : Kind} (hk : k = .identifier ∨ k.isPrimitiveType = true) :
    k.isBracket = false := by
  rcases hk with rfl | hk
  · rfl
  · revert hk
    cases k <;> decide

theorem name (i : Ident) : Nests j (nameOf j.script i) [.name i] := by
  have hword (x : Mark) (h : x.kind = .identifier ∨ x.kind.isPrimitiveType = true) : Balanced [x] :=
    .word (isBracket_of_word h)
  have hcopied : Keeps j Balanced (nameOf j.script i) (j.renamedPatch i none) :=
    .nameOf hj.toIsReady hword .inl
  refine ⟨hcopied, ?_⟩
  rw [Outline.patchesAll, Outline.patches, Outline.patchesAll, List.append_nil]
  exact .nameOf hj.toIsReady hword isWordText_ident

theorem part (i : Ident) (args : List TypeArg) :
    Nests j (nameOf j.script i) [.part i args] := by
  refine ⟨(name hj i).copied, ?_⟩
  rw [Outline.patchesAll, Outline.patches, Outline.patchesAll, List.append_nil]
  exact .nameOf hj.toIsReady (fun _ h => .word (isBracket_of_word h)) (isWordText_segment args)

end Nests

/-! ## Lists and calls -/

section

variable (hj : j.IsApt text)
include hj

omit hj in
/-- Entries between angle brackets. -/
theorem balanced_angleChunks {es : List (List Chunk)} (h : ∀ e ∈ es, Balanced (j.marks e)) :
    Balanced (j.marks (angleChunks es)) := by
  have hentries : Balanced (j.marks ([.put ", "].intercalate es)) := by
    induction es with
    | nil => exact .nil
    | cons e es ih =>
      rw [List.forall_mem_cons] at h
      cases es with
      | nil => simpa using h.1
      | cons f es =>
        have hcomma : Balanced (own [.comma]) := .word rfl
        rw [List.intercalate_cons_cons]
        simpa [kindsOf_own] using (h.1.append hcomma).append (ih h.2)
  rw [angleChunks]
  split
  · exact .nil
  · have hless : Balanced (own [.less]) := .word rfl
    have hgreater : Balanced (own [.greater]) := .word rfl
    simpa [kindsOf_own] using (hless.append hentries).append hgreater

omit hj in
theorem text_ne_point (hj : j.IsReady text) (hp : p < j.source.code.size)
    (hk : (j.source.codeToken p).kind = .identifier ∨ (j.source.codeToken p).kind = .leftBracket
      ∨ (j.source.codeToken p).kind = .rightBracket) : (j.source.codeToken p).text ≠ "." := by
  have hsize : p < (Script.ofSource j.source "").words.size := by
    rwa [Script.size_words, Source.size_ofSource]
  have hword : (Script.ofSource j.source "").words[p] = (j.source.codeToken p).toLexeme := by
    have hsame : (Script.ofSource j.source "").word p = _ := Source.word_ofSource hp
    rw [← hsame]
    simp [Script.word_eq, hsize]
  have hspelled : (j.source.codeToken p).toLexeme.IsSpelled :=
    hword ▸ hj.isSpelled "" _ (Array.getElem_mem hsize)
  intro htext
  rcases hk with hk | hk | hk
  · have hname := hspelled.name hk
    rw [show (j.source.codeToken p).toLexeme.text = "." from htext] at hname
    revert hname
    decide +kernel
  · have hbracket := hspelled.spelling "[" (congrArg Kind.spelling hk)
    rw [show (j.source.codeToken p).toLexeme.text = "." from htext] at hbracket
    contradiction
  · have hbracket := hspelled.spelling "]" (congrArg Kind.spelling hk)
    rw [show (j.source.codeToken p).toLexeme.text = "." from htext] at hbracket
    contradiction

omit hj in
/-- A type without arguments ends with a name or with dimensions. -/
theorem last_of_reads {t : Stencil.TypeExpr} {i : Ident}
    (h : t.reads j.script p q) (hq : q ≤ j.source.code.size)
    (hsegments : t.segments = [⟨i, none⟩]) : p < q
      ∧ ((j.source.codeToken (q - 1)).kind = .identifier
        ∨ (j.source.codeToken (q - 1)).kind = .leftBracket
        ∨ (j.source.codeToken (q - 1)).kind = .rightBracket) := by
  obtain ⟨annotations, core, dims, extent⟩ := t
  cases core with
  | primitive k => cases hsegments
  | named segments =>
    obtain rfl : segments = [⟨i, none⟩] := hsegments
    obtain ⟨⟨m, ⟨m₁, hannotations, -, m₂, ⟨m₃, ⟨m₄, hlead, hname⟩, hargs⟩, hrest⟩, hdims⟩, -⟩ := h
    obtain rfl := empty_iff.1 hlead
    obtain rfl := empty_iff.1 hargs
    obtain rfl := empty_iff.1 hrest
    obtain ⟨hkind, -, rfl⟩ := hname
    have hle := (AnnotationUse.readsAll _ annotations).le hannotations
    have hrun := run_of_dims hdims
    have hm := hrun.1
    refine ⟨by omega, ?_⟩
    rcases Nat.eq_or_lt_of_le hm with rfl | hlt
    · rw [Source.kind_ofSource (by omega)] at hkind
      exact .inl hkind
    · have hlast := hrun.2 (q - 1) (by omega) (by omega)
      rw [Source.kind_ofSource (by omega)] at hlast
      exact .inr hlast

/-- What is written for the type variable has well-nested brackets: it is the name of a placeholder, or
the type that the hint names. -/
theorem balanced_variable {hint : Option TypeArgs} {target : Target}
    (h : TypeArgs.reads? j.script hint p q) (hq : q ≤ j.source.code.size)
    (hentries : ∀ as extent, hint = some ⟨as, extent⟩ →
      Keeps j Balanced (TypeArg.readsBehind j.script .empty as) [])
    (htarget : j.target hint = .ok target) : Balanced (own (kindsOf target.variableText)) := by
  cases hint with
  | none =>
    obtain rfl : target = ⟨j.binding.primary, j.vocabulary.primary⟩ := by
      simp only [Job.target] at htarget
      split at htarget <;> simp_all
    obtain ⟨k, hk, hkinds⟩ := exists_kindsOf_of_isWordText (.inl hj.primary)
    rw [hkinds]
    exact .word (Nests.isBracket_of_word hk)
  | some as =>
    obtain ⟨entries, extent⟩ := as
    obtain ⟨w, t, hhint, htext⟩ : ∃ w t, j.hinted? ⟨entries, extent⟩ = some (w, t)
        ∧ target.variableText = j.sourceText t.extent := by
      simp only [Job.target] at htarget
      split at htarget
      · contradiction
      · rename_i w t hhint
        split at htarget
        · contradiction
        · cases htarget
          exact ⟨w, t, hhint, rfl⟩
    obtain ⟨hone, i, hsegments, -⟩ := hinted?_eq_some hhint
    obtain rfl : entries = [.type t] := hone
    obtain ⟨⟨m, ⟨m₁, ⟨-, rfl⟩, hargs⟩, -, rfl⟩, -⟩ := h
    obtain ⟨xs, hxs, hbalanced⟩ := hentries _ _ rfl hargs (by omega)
    obtain ⟨m₂, ⟨m₃, hlead, ht⟩, hrest⟩ := hargs
    obtain rfl := empty_iff.1 hlead
    obtain rfl := empty_iff.1 hrest
    obtain ⟨hlt, hlast⟩ := last_of_reads ht (by omega) hsegments
    have hkinds := hxs.kindsOf_sourceText hj.toIsReady (by omega) hlt
      (text_ne_point hj.toIsReady (by omega) hlast)
    rw [htext, TypeExpr.extent_of_reads ht, hkinds]
    simpa [Balanced] using hbalanced

/-- What a call is replaced by shows no operator. -/
theorem sealed_callChunks {lists : List Mark → Prop} {c : IntrinsicCall} {args : List ChunkedOperand}
    (hargs : Operands j lists args)
    (hvariable : ∀ target, j.target c.hint = .ok target → Balanced (own (kindsOf target.variableText))) :
    Sealed lists (j.marks (j.callChunks c args)) := by
  rw [Job.callChunks]
  split
  · rename_i target o htarget ho
    split
    · rename_i pattern hpattern
      exact (formed_pattern hargs.balanced hj.mixer (hvariable target htarget) hpattern).sealed
        fun _ => hargs.sealed_of_bare
    · exact .nil
  · exact .nil

/-- What a call is replaced by has well-nested brackets. -/
theorem balanced_callChunks {c : IntrinsicCall} {args : List ChunkedOperand}
    (hargs : ∀ a ∈ args, Balanced (j.marks a.chunks))
    (hvariable : ∀ target, j.target c.hint = .ok target → Balanced (own (kindsOf target.variableText))) :
    Balanced (j.marks (j.callChunks c args)) :=
  (sealed_callChunks hj ⟨hargs, fun a ha _ => .of_list (hargs a ha)⟩ hvariable).balanced
    fun _ h => h

/-- The blank that goes with a list stands in front of the next code token. -/
theorem absorbBlank_range (hpq : p < q) (hq : q ≤ j.source.code.size) :
    (j.absorbBlank (j.source.range ⟨p, q⟩)).start = j.source.index p
      ∧ j.source.index (q - 1) < (j.absorbBlank (j.source.range ⟨p, q⟩)).stop
      ∧ (j.absorbBlank (j.source.range ⟨p, q⟩)).stop ≤ j.source.index q := by
  have hs := hj.indexed
  have hlt := hs.index_lt_index (show q - 1 < q by omega) (by omega)
  have hstop : (j.source.range ⟨p, q⟩).stop = j.source.index (q - 1) + 1 := by
    simp [Source.range, hpq]
  simp only [Job.absorbBlank]
  split
  · rename_i hblank
    rw [hstop] at hblank ⊢
    simp only [Bool.and_eq_true, beq_iff_eq] at hblank
    have hne : j.source.index q ≠ j.source.index (q - 1) + 1 := by
      intro hnext
      have hkind := hblank.2
      rw [← hnext] at hkind
      by_cases hlast : q < j.source.code.size
      · have hcode := hs.isCode_tokenAt_index hlast
        rw [Token.isCode, hkind] at hcode
        contradiction
      · have hend : j.source.tokenAt (j.source.index q) = j.source.stop := by
          simp [Source.index_of_size_le (Nat.le_of_not_lt hlast), Source.tokenAt]
        rw [hend, hj.source] at hkind
        contradiction
    have hbehind : j.source.index (q - 1) + 2 ≤ j.source.index q := by omega
    exact ⟨rfl, Nat.lt_succ_of_lt (Nat.lt_succ_self _), hbehind⟩
  · rw [hstop]
    exact ⟨rfl, Nat.lt_succ_self _, hlt⟩

end

/-! ## Trees -/

theorem QualifiedName.nests (hj : j.IsApt text) (n : Stencil.QualifiedName) :
    Nests j (n.reads j.script) (QualifiedName.outline n) := by
  have behind {is : List Ident} : ∀ {lead : Stretch}, Nests j lead [] →
      Nests j (Ident.readsBehind j.script lead is) (is.map .name) := by
    induction is with
    | nil => exact fun _ => .empty
    | cons i is ih => exact fun hl => ((hl.behind hj (.name hj i)).append hj (ih (.word hj rfl)))
  exact .within (.given (behind .empty))

theorem isBracket_of_isModifier {k : Kind} (h : k.isModifier = true) : k.isBracket = false := by
  revert h
  cases k <;> decide

theorem TypeArg.extent_of_reads {s : Script} {a : Stencil.TypeArg} (h : a.reads s p q) :
    a.extent = ⟨p, q⟩ := by
  cases a with
  | type t => exact TypeExpr.extent_of_reads h
  | wildcard _ => exact h.2
  | bounded _ _ _ => exact h.2

theorem TypeParam.extent_of_reads {s : Script} {a : Stencil.TypeParam} (h : a.reads s p q) :
    a.extent = ⟨p, q⟩ := by
  cases a
  exact h.2

theorem Expr.extent_of_reads {s : Script} {e : Stencil.Expr} (h : e.reads s p q) :
    e.extent = ⟨p, q⟩ := by
  cases e
  exact h.2

/-- The hint and the arguments of a call. -/
theorem IntrinsicCall.exists_of_reads {s : Script} {c : Stencil.IntrinsicCall} (h : c.reads s p q) :
    ∃ a b a' b', TypeArgs.reads? s c.hint a b ∧ b ≤ q ∧ Expr.readsBehind s .empty c.args a' b' ∧ b' ≤ q := by
  obtain ⟨r, hint, i, args, extent⟩ := c
  obtain ⟨⟨-, m, ⟨m₁, ⟨m₂, ⟨m₃, ⟨m₄, -, hhint⟩, hname⟩, hopening⟩, hargs⟩, hclosing⟩, -⟩ := h
  have hm := (word s _).le hclosing
  have hm₁ := (Expr.readsBehind s _ args).le hargs
  have hm₂ := (word s _).le hopening
  have hm₃ := (nameOf s i).le hname
  exact ⟨m₄, m₃, m₁, m, hhint, by omega, hargs, by omega⟩

mutual

theorem AnnotationUse.nests (hj : j.IsApt text) : ∀ a : Stencil.AnnotationUse,
    Nests j (a.reads j.script) (AnnotationUse.outline a)
  | ⟨name, args, _⟩ =>
    .within (((Nests.word hj rfl).behind hj (QualifiedName.nests hj name)).append hj
      (Group.nestsOr hj .empty args))

theorem AnnotationUse.nestsAll (hj : j.IsApt text) : ∀ as : List Stencil.AnnotationUse,
    Nests j (AnnotationUse.readsAll j.script as) (AnnotationUse.outlines as)
  | [] => .empty
  | a :: rest => (AnnotationUse.nests hj a).append hj (AnnotationUse.nestsAll hj rest)

theorem AnnotationUse.nestsAmong (hj : j.IsApt text) : ∀ (as : List Stencil.AnnotationUse)
    (flags : List Kind), (∀ k ∈ flags, k.isModifier = true) →
    Nests j (AnnotationUse.readsAmong j.script as flags) (AnnotationUse.outlines as)
  | [], flags, hflags => .words hj fun k hk => isBracket_of_isModifier (hflags k hk)
  | a :: rest, flags, hflags => .any fun n => by
    have hwords : ∀ k ∈ flags.take n, k.isBracket = false := fun k hk =>
      isBracket_of_isModifier (hflags k (List.mem_of_mem_take hk))
    exact ((Nests.words hj hwords).behind hj (AnnotationUse.nests hj a)).append hj
      (AnnotationUse.nestsAmong hj rest _ fun k hk => hflags k (List.mem_of_mem_drop hk))

theorem TypeExpr.nests (hj : j.IsApt text) : ∀ t : Stencil.TypeExpr,
    Nests j (t.reads j.script) (TypeExpr.outline t)
  | ⟨annotations, core, dims, _⟩ =>
    .within (((AnnotationUse.nestsAll hj annotations).append hj (TypeCore.nests hj core)).front hj
      (.dims hj dims))

theorem TypeExpr.nests? (hj : j.IsApt text) : ∀ t : Option Stencil.TypeExpr,
    Nests j (TypeExpr.reads? j.script t) (TypeExpr.outline? t)
  | none => .empty
  | some t => TypeExpr.nests hj t

theorem TypeExpr.nestsBehind (hj : j.IsApt text) {lead : Stretch} {k : Kind}
    (hl : Nests j lead []) (hk : k.isBracket = false) : ∀ ts : List Stencil.TypeExpr,
    Nests j (TypeExpr.readsBehind j.script lead k ts) (TypeExpr.outlines ts)
  | [] => .empty
  | t :: rest => (hl.behind hj (TypeExpr.nests hj t)).append hj
    (TypeExpr.nestsBehind hj (.word hj hk) hk rest)

theorem TypeCore.nests (hj : j.IsApt text) : ∀ c : Stencil.TypeCore,
    Nests j (c.reads j.script) (TypeCore.outline c)
  | .primitive kind => by
    refine ⟨?_, ?_⟩ <;>
      · rintro p q ⟨hkind, h⟩ hq
        exact (Nests.word hj (Nests.isBracket_of_word (.inr hkind))).copied h hq
  | .named segments => .given (TypeSegment.nestsBehind hj .empty segments)

theorem TypeSegment.nestsBehind (hj : j.IsApt text) {lead : Stretch} (hl : Nests j lead []) :
    ∀ ss : List Stencil.TypeSegment,
    Nests j (TypeSegment.readsBehind j.script lead ss) (TypeSegment.outlines ss)
  | [] => .empty
  | ⟨i, none⟩ :: rest => ((hl.behind hj (.part hj i [])).front hj .empty).append hj
    (TypeSegment.nestsBehind hj (.word hj rfl) rest)
  | ⟨i, some args⟩ :: rest =>
    ((hl.behind hj (.part hj i args.entries)).append hj (TypeArgs.nests hj (some i.name) args)).append hj
      (TypeSegment.nestsBehind hj (.word hj rfl) rest)

theorem TypeArgs.nests (hj : j.IsApt text) (owner : Option String) : ∀ a : Stencil.TypeArgs,
    Nests j (a.reads j.script) [TypeArgs.outline owner a]
  | ⟨entries, extent⟩ => by
    obtain ⟨hcopied, hpatched⟩ := TypeArg.nestsBehind hj .empty entries
    have angles {px : List Patch}
        (h : Keeps j Balanced (TypeArg.readsBehind j.script .empty entries) px) :
        Keeps j Balanced (TypeArgs.reads j.script ⟨entries, extent⟩) px := by
      have hall := ((Nests.word hj (k := .less) rfl).copied.append hj.toIsReady joint_balanced h).append
        hj.toIsReady joint_balanced (Nests.word hj (k := .greater) rfl).copied
      rw [List.append_nil] at hall
      exact .within hall
    -- one patch in place of the whole list
    have replaced {cs : List Chunk} (hcs : ∀ {p q : Nat},
        TypeArg.readsBehind j.script .empty entries p q → q ≤ j.source.code.size →
        Balanced (j.marks cs)) :
        Keeps j Balanced (TypeArgs.reads j.script ⟨entries, extent⟩)
          [⟨j.source.range extent, cs⟩] := by
      refine .patch hj.toIsReady (fun p q h => ?_) fun p q h hq => ?_
      · exact TypeArgs.strict_reads ⟨entries, ⟨p, q⟩⟩ ⟨h, rfl⟩
      · obtain ⟨m, ⟨m', -, hentries⟩, -, rfl⟩ := h
        exact hcs hentries (by omega)
    refine ⟨angles hcopied, ?_⟩
    rw [TypeArgs.outline, Outline.patchesAll, Outline.patches, Outline.patchesAll, List.append_nil]
    split
    · split
      · exact angles hcopied
      · exact replaced fun _ _ => .nil
    · dsimp only
      split
      · exact replaced fun h hq => balanced_angleChunks (TypeArg.balanced_kept hj entries h hq)
      · exact angles hpatched

theorem TypeArgs.keeps? (hj : j.IsApt text) : ∀ a : Option Stencil.TypeArgs,
    Keeps j Balanced (TypeArgs.reads? j.script a) []
  | none => Nests.empty.copied
  | some a => (TypeArgs.nests hj none a).copied

theorem TypeArgs.keepsEntries (hj : j.IsApt text) : ∀ (a : Option Stencil.TypeArgs) as extent,
    a = some ⟨as, extent⟩ →
    Keeps j Balanced (TypeArg.readsBehind j.script .empty as) []
  | none, _, _, h => nomatch h
  | some ⟨entries, _⟩, _, _, h => by
    cases h
    exact (TypeArg.nestsBehind hj .empty entries).1

theorem TypeArg.nestsBehind (hj : j.IsApt text) {lead : Stretch} (hl : Nests j lead []) :
    ∀ as : List Stencil.TypeArg,
    Keeps j Balanced (TypeArg.readsBehind j.script lead as) []
      ∧ Keeps j Balanced (TypeArg.readsBehind j.script lead as)
        (Outline.argPatches j (TypeArg.entries as))
  | [] => ⟨Nests.empty.copied, Nests.empty.copied⟩
  | a :: rest => by
    have ha := hl.behind hj (TypeArg.nests hj a)
    obtain ⟨hcopied, hpatched⟩ := TypeArg.nestsBehind hj (.word hj (k := .comma) rfl) rest
    exact ⟨ha.copied.append hj.toIsReady joint_balanced hcopied,
      ha.patched.append hj.toIsReady joint_balanced hpatched⟩

theorem TypeArg.balanced_kept (hj : j.IsApt text) {lead : Stretch} : ∀ (as : List Stencil.TypeArg)
    {slots : List Placeholder} {p q : Nat},
    TypeArg.readsBehind j.script lead as p q → q ≤ j.source.code.size →
    ∀ cs ∈ Outline.keptArgChunks j slots (TypeArg.entries as), Balanced (j.marks cs)
  | [], _, _, _, _, _ => by simp [TypeArg.entries, Outline.keptArgChunks]
  | a :: rest, slots, p, q, ⟨m, ⟨m', _, ha⟩, hrest⟩, hq => by
    have hm := Nat.le_trans ((TypeArg.readsBehind _ _ rest).le hrest) hq
    have hone := (TypeArg.nests hj a).patched.rendered hj.toIsReady ⟨ha, TypeArg.extent_of_reads ha⟩ hm
    rw [TypeArg.entries, Outline.keptArgChunks]
    split
    · exact TypeArg.balanced_kept hj rest hrest hq
    · exact List.forall_mem_cons.2 ⟨hone, TypeArg.balanced_kept hj rest hrest hq⟩

theorem TypeArg.nests (hj : j.IsApt text) : ∀ a : Stencil.TypeArg,
    Nests j (a.reads j.script) (TypeArg.outline a)
  | .type t => TypeExpr.nests hj t
  | .wildcard _ => .within (.word hj rfl)
  | .bounded kind t _ => .within (((Nests.word hj rfl).behind hj
      (.word hj (by cases kind <;> rfl))).behind hj (TypeExpr.nests hj t))

theorem TypeParam.nests (hj : j.IsApt text) : ∀ a : Stencil.TypeParam,
    Nests j (a.reads j.script) (TypeParam.outline a)
  | ⟨annotations, i, bounds, _⟩ => by
    have h := ((AnnotationUse.nestsAll hj annotations).append hj (.name hj i)).append hj
      (TypeExpr.nestsBehind hj (.word hj (k := .kwExtends) rfl) (k := .amp) rfl bounds)
    exact .within (h.congr (by simp [TypeParam.outline]))

theorem TypeParam.nestsBehind (hj : j.IsApt text) {lead : Stretch} (hl : Nests j lead []) :
    ∀ as : List Stencil.TypeParam,
    Keeps j Balanced (TypeParam.readsBehind j.script lead as) []
      ∧ Keeps j Balanced (TypeParam.readsBehind j.script lead as)
        (Outline.paramPatches j (TypeParam.entries as))
  | [] => ⟨Nests.empty.copied, Nests.empty.copied⟩
  | a :: rest => by
    have ha := hl.behind hj (TypeParam.nests hj a)
    obtain ⟨hcopied, hpatched⟩ := TypeParam.nestsBehind hj (.word hj (k := .comma) rfl) rest
    exact ⟨ha.copied.append hj.toIsReady joint_balanced hcopied,
      ha.patched.append hj.toIsReady joint_balanced hpatched⟩

theorem TypeParam.balanced_kept (hj : j.IsApt text) {lead : Stretch} : ∀ (as : List Stencil.TypeParam)
    {p q : Nat},
    TypeParam.readsBehind j.script lead as p q → q ≤ j.source.code.size →
    ∀ cs ∈ Outline.keptParamChunks j (TypeParam.entries as), Balanced (j.marks cs)
  | [], _, _, _, _ => by simp [TypeParam.entries, Outline.keptParamChunks]
  | a :: rest, p, q, ⟨m, ⟨m', _, ha⟩, hrest⟩, hq => by
    have hm := Nat.le_trans ((TypeParam.readsBehind _ _ rest).le hrest) hq
    have hone := (TypeParam.nests hj a).patched.rendered hj.toIsReady
      ⟨ha, TypeParam.extent_of_reads ha⟩ hm
    have hmore := TypeParam.balanced_kept hj rest hrest hq
    rw [TypeParam.entries, Outline.keptParamChunks]
    split
    · exact hmore
    · exact List.forall_mem_cons.2 ⟨hone, hmore⟩

theorem TypeParams.nests? (hj : j.IsApt text) : ∀ a : Option Stencil.TypeParams,
    Nests j (TypeParams.reads? j.script a) (TypeParams.outline? a)
  | none => .empty
  | some ⟨entries, extent⟩ => by
    obtain ⟨hcopied, hpatched⟩ := TypeParam.nestsBehind hj .empty entries
    have angles {px : List Patch}
        (h : Keeps j Balanced (TypeParam.readsBehind j.script .empty entries) px) :
        Keeps j Balanced (TypeParams.reads? j.script (some ⟨entries, extent⟩)) px := by
      have hall := ((Nests.word hj (k := .less) rfl).copied.append hj.toIsReady joint_balanced h).append
        hj.toIsReady joint_balanced (Nests.word hj (k := .greater) rfl).copied
      rw [List.append_nil] at hall
      exact .within (.given hall)
    refine ⟨angles hcopied, ?_⟩
    rw [TypeParams.outline?, Outline.patchesAll, Outline.patches, Outline.patchesAll, List.append_nil]
    split
    · rintro p q ⟨⟨-, m, ⟨m', ⟨-, rfl⟩, hentries⟩, -, rfl⟩, rfl⟩ hq
      have hle := (TypeParam.readsBehind _ _ entries).le hentries
      have hkept := balanced_angleChunks (TypeParam.balanced_kept hj entries hentries (by omega))
      refine ⟨_, ?_, hkept⟩
      dsimp only
      split
      · obtain ⟨hstart, hlast, hstop⟩ := absorbBlank_range hj (show p < m + 1 by omega) hq
        exact .patch hj.toIsReady (by omega) hstart hlast hstop _
      · exact .patch_range hj.toIsReady (by omega) hq _
    · exact angles hpatched

theorem Modifiers.nests (hj : j.IsApt text) : ∀ ms : Stencil.Modifiers,
    Nests j (ms.reads j.script) (Modifiers.outline ms)
  | ⟨flags, annotations⟩ => by
    refine ⟨?_, ?_⟩ <;> rintro p q ⟨hflags, h⟩ hq
    · exact (AnnotationUse.nestsAmong hj annotations flags hflags).copied h hq
    · exact (AnnotationUse.nestsAmong hj annotations flags hflags).patched h hq

theorem Group.nests (hj : j.IsApt text) : ∀ g : Stencil.Group,
    Nests j (g.reads j.script) (Group.outline g)
  | ⟨d, elems, _⟩ => .within (.pair hj d (Elem.nestsAll hj elems))

theorem Group.nestsOr (hj : j.IsApt text) {absent : Stretch} (ha : Nests j absent []) :
    ∀ g : Option Stencil.Group,
    Nests j (Group.readsOr j.script absent g) (Group.outline? g)
  | none => ha
  | some g => Group.nests hj g

theorem Expr.nests (hj : j.IsApt text) : ∀ e : Stencil.Expr,
    Nests j (e.reads j.script) (Expr.outline e)
  | ⟨elems, _⟩ => .within (.given (Elem.nestsAll hj elems))

theorem Expr.nests? (hj : j.IsApt text) {lead : Stretch} (hl : Nests j lead []) :
    ∀ e : Option Stencil.Expr,
    Nests j (Expr.reads? j.script lead e) (Expr.outline? e)
  | none => .empty
  | some e => hl.behind hj (Expr.nests hj e)

theorem Expr.keepsBehind (hj : j.IsApt text) {lead : Stretch} (hl : Nests j lead []) :
    ∀ es : List Stencil.Expr,
    Keeps j Balanced (Expr.readsBehind j.script lead es) []
  | [] => Nests.empty.copied
  | e :: rest => (hl.behind hj (Expr.nests hj e)).copied.append hj.toIsReady joint_balanced
    (Expr.keepsBehind hj (.word hj (k := .comma) rfl) rest)

theorem Expr.balanced_operands (hj : j.IsApt text) {lead : Stretch} : ∀ (es : List Stencil.Expr)
    {p q : Nat},
    Expr.readsBehind j.script lead es p q → q ≤ j.source.code.size →
    ∀ a ∈ Outline.chunkedOperands j (Expr.entries es), Balanced (j.marks a.chunks)
  | [], _, _, _, _ => by simp [Expr.entries, Outline.chunkedOperands]
  | e :: rest, p, q, ⟨m, ⟨m', _, he⟩, hrest⟩, hq => by
    have hm := Nat.le_trans ((Expr.readsBehind _ _ rest).le hrest) hq
    have hone := (Expr.nests hj e).patched.rendered hj.toIsReady ⟨he, Expr.extent_of_reads he⟩ hm
    rw [Expr.entries, Outline.chunkedOperands]
    exact List.forall_mem_cons.2 ⟨hone, Expr.balanced_operands hj rest hrest hq⟩

theorem Elem.nestsAll (hj : j.IsApt text) : ∀ es : List Stencil.Elem,
    Nests j (Elem.readsAll j.script es) (Elem.outlines es)
  | [] => .empty
  | e :: rest => (Elem.nests hj e).append hj (Elem.nestsAll hj rest)

theorem Elem.nests (hj : j.IsApt text) : ∀ e : Stencil.Elem,
    Nests j (e.reads j.script) (Elem.outline e)
  | .token _ => .within (.wordOf hj fun k hk => by simp [Kind.isBracket, hk.2.2.1, hk.2.2.2])
  | .ident i => .name hj i
  | .type t => TypeExpr.nests hj t
  | .typeArgs a => TypeArgs.nests hj none a
  | .group g => Group.nests hj g
  | .intrinsic ⟨r, hint, i, args, extent⟩ => IntrinsicCall.nests hj ⟨r, hint, i, args, extent⟩
  | .anonymous body => ClassBody.nests hj body
  | .localType d => TypeDecl.nests hj d

theorem IntrinsicCall.nests (hj : j.IsApt text) : ∀ c : Stencil.IntrinsicCall,
    Nests j (c.reads j.script) [.call c (Expr.entries c.args)]
  | ⟨r, hint, i, args, extent⟩ => by
    have hhint := TypeArgs.keeps? hj hint
    have hargs := Expr.keepsBehind hj .empty args
    refine ⟨?_, ?_⟩
    · have hhead := (((Nests.name hj r).front hj (.word hj (k := .dot) rfl)).copied.append hj.toIsReady
        joint_balanced hhint).append hj.toIsReady joint_balanced (Nests.name hj i).copied
      exact .within (.given (hhead.pairBehind hj.toIsReady joint_balanced .paren hargs))
    · rw [Outline.patchesAll, Outline.patches, Outline.patchesAll, List.append_nil]
      refine .patch hj.toIsReady (fun p q h => ?_) fun p q h hq => ?_
      · exact IntrinsicCall.strict_reads ⟨r, hint, i, args, ⟨p, q⟩⟩ ⟨h, rfl⟩
      · obtain ⟨a, b, a', b', hreads, hb, hoperands, hb'⟩ :=
          IntrinsicCall.exists_of_reads (c := ⟨r, hint, i, args, ⟨p, q⟩⟩) ⟨h, rfl⟩
        refine balanced_callChunks hj (Expr.balanced_operands hj args hoperands (by omega)) fun target => ?_
        exact balanced_variable hj hreads (by omega) (TypeArgs.keepsEntries hj hint)

theorem ClassBody.nests (hj : j.IsApt text) : ∀ b : Stencil.ClassBody,
    Nests j (b.reads j.script) (ClassBody.outline b)
  | ⟨constants, members, _⟩ => by
    have hinner := (EnumConstant.nestsBehind hj .empty constants).append hj (Member.nestsAll hj members)
    exact .within ((hinner.pair hj .brace).mono
      fun p q ⟨m, ⟨m', ⟨n, hopening, hconstants⟩, hmembers⟩, hclosing⟩ =>
        ⟨m, ⟨n, hopening, m', hconstants, hmembers⟩, hclosing⟩)

theorem ClassBody.nests? (hj : j.IsApt text) : ∀ b : Option Stencil.ClassBody,
    Nests j (ClassBody.reads? j.script b) (ClassBody.outline? b)
  | none => .empty
  | some b => ClassBody.nests hj b

theorem EnumConstant.nestsBehind (hj : j.IsApt text) {lead : Stretch} (hl : Nests j lead []) :
    ∀ cs : List Stencil.EnumConstant,
    Nests j (EnumConstant.readsBehind j.script lead cs) (EnumConstant.outlines cs)
  | [] => .plain (.optional joint_balanced hl.copied)
  | ⟨annotations, i, args, body⟩ :: rest => by
    have hone := (((AnnotationUse.nestsAll hj annotations).append hj (.name hj i)).append hj
      (Group.nestsOr hj .empty args)).append hj (ClassBody.nests? hj body)
    have h := (hl.behind hj hone).append hj (EnumConstant.nestsBehind hj (.word hj (k := .comma) rfl) rest)
    exact h.congr (by simp [EnumConstant.outlines])

theorem Member.nestsAll (hj : j.IsApt text) : ∀ ms : List Stencil.Member,
    Nests j (Member.readsAll j.script ms) (Member.outlines ms)
  | [] => .semicolons hj
  | m :: rest => ((Nests.semicolons hj).behind hj (Member.nests hj m)).append hj (Member.nestsAll hj rest)

theorem Member.nests (hj : j.IsApt text) : ∀ m : Stencil.Member,
    Nests j (m.reads j.script) (Member.outline m)
  | .field f => FieldDecl.nests hj f
  | .method d => MethodDecl.nests hj d
  | .block true body => (Nests.word hj rfl).behind hj (Group.nests hj body)
  | .block false body => Nests.empty.behind hj (Group.nests hj body)
  | .nested d => TypeDecl.nests hj d

theorem FieldDecl.nests (hj : j.IsApt text) : ∀ f : Stencil.FieldDecl,
    Nests j (f.reads j.script) (FieldDecl.outline f)
  | ⟨modifiers, t, declarators, _⟩ =>
    .within ((((Modifiers.nests hj modifiers).append hj (TypeExpr.nests hj t)).append hj
      (Declarator.nestsBehind hj .empty declarators)).front hj (.word hj rfl))

theorem Declarator.nestsBehind (hj : j.IsApt text) {lead : Stretch} (hl : Nests j lead []) :
    ∀ ds : List Stencil.Declarator,
    Nests j (Declarator.readsBehind j.script lead ds) (Declarator.outlines ds)
  | [] => .empty
  | ⟨i, dims, value⟩ :: rest => by
    have hone := ((Nests.name hj i).front hj (.dims hj dims)).append hj
      (Expr.nests? hj (.word hj (k := .equal) rfl) value)
    have h := (hl.behind hj hone).append hj (Declarator.nestsBehind hj (.word hj (k := .comma) rfl) rest)
    exact h.congr (by simp [Declarator.outlines])

theorem MethodDecl.nests (hj : j.IsApt text) : ∀ d : Stencil.MethodDecl,
    Nests j (d.reads j.script) (MethodDecl.outline d)
  | ⟨modifiers, typeParams, returnType, i, params, dims, throws, defaultValue, body, _⟩ => by
    have hhead := (((Modifiers.nests hj modifiers).append hj (TypeParams.nests? hj typeParams)).append hj
      (TypeExpr.nests? hj returnType)).append hj (.name hj i)
    have hsignature := (((hhead.pairBehind hj .paren (Param.nestsBehind hj .empty params)).front hj
      (.dims hj dims)).append hj
        (TypeExpr.nestsBehind hj (.word hj (k := .kwThrows) rfl) (k := .comma) rfl throws))
    have h := (hsignature.append hj (Expr.nests? hj (.word hj (k := .kwDefault) rfl) defaultValue)).append
      hj (Group.nestsOr hj (.word hj (k := .semicolon) rfl) body)
    exact .within (h.congr (by simp [MethodDecl.outline]))

theorem Param.nestsBehind (hj : j.IsApt text) {lead : Stretch} (hl : Nests j lead []) :
    ∀ as : List Stencil.Param,
    Nests j (Param.readsBehind j.script lead as) (Param.outlines as)
  | [] => .empty
  | ⟨modifiers, t, variadic, i, dims, extent⟩ :: rest => by
    have hdots : Nests j (if variadic then word j.script .ellipsis else .empty) [] := by
      split
      · exact .word hj rfl
      · exact .empty
    have hone := ((((Modifiers.nests hj modifiers).append hj (TypeExpr.nests hj t)).front hj hdots).append hj
      (.name hj i)).front hj (.dims hj dims)
    have h := (hl.behind hj (hone.within (e := extent))).append hj
      (Param.nestsBehind hj (.word hj (k := .comma) rfl) rest)
    exact h.congr (by simp [Param.outlines])

theorem TypeDecl.nests (hj : j.IsApt text) : ∀ d : Stencil.TypeDecl,
    Nests j (d.reads j.script) (TypeDecl.outline d)
  | ⟨modifiers, kind, i, typeParams, supertypes, interfaces, body, _⟩ => by
    have hwords : ∀ k ∈ kind.words, k.isBracket = false := by
      cases kind <;> decide
    have hhead := (((Modifiers.nests hj modifiers).front hj (.words hj hwords)).append hj
      (.name hj i)).append hj (TypeParams.nests? hj typeParams)
    have htypes := (hhead.append hj
      (TypeExpr.nestsBehind hj (.word hj (k := .kwExtends) rfl) (k := .comma) rfl supertypes)).append hj
        (TypeExpr.nestsBehind hj (.word hj (k := .kwImplements) rfl) (k := .comma) rfl interfaces)
    have h := htypes.append hj (ClassBody.nests hj body)
    exact .within (h.congr (by simp [TypeDecl.outline]))

end

/-- What a call writes for the type variable has well-nested brackets. -/
theorem IntrinsicCall.balanced_variable (hj : j.IsApt text) {c : Stencil.IntrinsicCall}
    (h : c.reads j.script p q) (hq : q ≤ j.source.code.size) {target : Target}
    (htarget : j.target c.hint = .ok target) : Balanced (own (kindsOf target.variableText)) := by
  obtain ⟨a, b, -, -, hhint, hb, -, -⟩ := IntrinsicCall.exists_of_reads h
  exact Rewrite.balanced_variable hj hhint (by omega) (TypeArgs.keepsEntries hj c.hint) htarget

end Stencil.Rewrite
