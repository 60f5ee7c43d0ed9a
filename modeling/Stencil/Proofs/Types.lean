import Stencil.Proofs.Grammar.Tiling
import Stencil.Proofs.Refusals
import Stencil.Proofs.Rewrite.TypeText

/-!
# Types of a template

What the text of a type is for a binding can be told without the walk: rewrite the type as a tree and
print it. The same holds of type parameters. If no parameter is left the text is empty, and a blank
behind the list goes with it.

Results: the text of a type and that of type parameters have the code tokens of the printed tree
(`Grammar.lexemes_rewritten_of_run`).
-/

namespace Stencil

open Rewrite Stretch
open Outline (placesAll argPlaces paramPlaces)

/-! ## Printed trees -/

/-- The tokens written down with a blank behind each of them. -/
def Lexeme.print (xs : List Lexeme) : String :=
  String.join (xs.map fun x => x.text ++ " ")

/-- The type, written down. -/
def BareType.print (t : BareType) : String :=
  Lexeme.print t.words

/-- The type parameters, written down. -/
def BareParam.print? (as : Option (List BareParam)) : String :=
  Lexeme.print (BareParam.words? as)

theorem strewn_print (xs : List Lexeme) (hx : ∀ x ∈ xs, x.IsOfType) :
    Strewn xs (Lexeme.print xs).toList := by
  induction xs with
  | nil => exact .of_gap .nil
  | cons x xs ih =>
    rw [List.forall_mem_cons] at hx
    have hrest := (ih hx.2).behind (w := [' ']) (.blank rfl .nil)
    have hblank : IsLoose ([' '] ++ (Lexeme.print xs).toList) := by
      rw [IsLoose, List.singleton_append, List.head?_cons]
      decide +kernel
    have hboth := (Strewn.token x).append hrest (by simpa using hx.1) (.inr hblank)
    simpa [Lexeme.print, String.join_cons] using hboth

theorem Lexeme.text_asRead (x : Lexeme) : x.asRead.text = x.text := by
  unfold asRead
  split <;> rfl

/-- Printed names are read as the keywords that they are spelled like. -/
theorem lexemes_print {xs : List Lexeme} (h : Phrase (readAll xs)) :
    lexemes Kind.isCode (Lexeme.print xs) = readAll xs := by
  have htexts : Lexeme.print (readAll xs) = Lexeme.print xs := by
    simp [Lexeme.print, Lexeme.text_asRead, Function.comp_def]
  rw [← htexts, lexemes_isCode_eq]
  exact (strewn_print _ h.tokens).code_eq h

namespace Rewrite

/-! ## Types without annotations hold no calls -/

mutual

theorem TypeExpr.callless_of_bare : ∀ (e : Stencil.TypeExpr) {t : BareType}, e.bare? = some t →
    Callless (placesAll (TypeExpr.outline e))
  | ⟨[], core, _, _⟩, _, h => by
    obtain ⟨c, hc, -⟩ := Option.map_eq_some_iff.1 h
    exact TypeCore.callless_of_bare core hc

theorem TypeCore.callless_of_bare : ∀ (e : Stencil.TypeCore) {t : BareCore}, e.bare? = some t →
    Callless (placesAll (TypeCore.outline e))
  | .primitive _, _, _ => callless_nil
  | .named segments, _, h => by
    obtain ⟨bs, hbs, -⟩ := Option.map_eq_some_iff.1 h
    exact TypeSegment.callless_of_bareAll segments hbs

theorem TypeSegment.callless_of_bareAll : ∀ (es : List Stencil.TypeSegment) {bs : List BareSegment},
    TypeSegment.bareAll? es = some bs → Callless (placesAll (TypeSegment.outlines es))
  | [], _, _ => callless_nil
  | ⟨_, none⟩ :: rest, _, h => by
    simp only [TypeSegment.bareAll?, bind, Option.bind_eq_some_iff] at h
    obtain ⟨-, -, rest', hrest, -⟩ := h
    exact callless_cons (by simp) (TypeSegment.callless_of_bareAll rest hrest)
  | ⟨_, some ⟨entries, _⟩⟩ :: rest, _, h => by
    simp only [TypeSegment.bareAll?, bind, Option.bind_eq_some_iff] at h
    obtain ⟨args', hargs, rest', hrest, -⟩ := h
    obtain ⟨as, has, -⟩ := Option.map_eq_some_iff.1 hargs
    have hcalls := callless_append.2
      ⟨TypeArg.callless_of_bareAll entries has, TypeSegment.callless_of_bareAll rest hrest⟩
    exact callless_cons (by simp) (callless_cons (by simp) hcalls)

theorem TypeArg.callless_of_bareAll : ∀ (es : List Stencil.TypeArg) {bs : List BareArg},
    TypeArg.bareAll? es = some bs → Callless (argPlaces (TypeArg.entries es))
  | [], _, _ => callless_nil
  | a :: rest, _, h => by
    simp only [TypeArg.bareAll?, bind, Option.bind_eq_some_iff] at h
    obtain ⟨a', ha, rest', hrest, -⟩ := h
    exact callless_append.2 ⟨TypeArg.callless_of_bare a ha, TypeArg.callless_of_bareAll rest hrest⟩

theorem TypeArg.callless_of_bare : ∀ (e : Stencil.TypeArg) {a : BareArg}, e.bare? = some a →
    Callless (placesAll (TypeArg.outline e))
  | .type t, _, h => by
    obtain ⟨t', ht, -⟩ := Option.map_eq_some_iff.1 h
    exact TypeExpr.callless_of_bare t ht
  | .wildcard _, _, _ => callless_nil
  | .bounded _ t _, _, h => by
    obtain ⟨t', ht, -⟩ := Option.map_eq_some_iff.1 h
    exact TypeExpr.callless_of_bare t ht

end

theorem TypeExpr.callless_of_bareAll {es : List Stencil.TypeExpr} (h : ∀ e ∈ es, ∃ t, e.bare? = some t) :
    Callless (placesAll (TypeExpr.outlines es)) := by
  induction es with
  | nil => exact callless_nil
  | cons e es ih =>
    rw [List.forall_mem_cons] at h
    obtain ⟨⟨t, ht⟩, hrest⟩ := h
    rw [TypeExpr.outlines, Outline.placesAll_append]
    exact callless_append.2 ⟨TypeExpr.callless_of_bare e ht, ih hrest⟩

theorem TypeParam.callless_of_bare {as : List Stencil.TypeParam} (h : ∀ a ∈ as, a.isBare = true) :
    Callless (paramPlaces (TypeParam.entries as)) := by
  induction as with
  | nil => exact callless_nil
  | cons a as ih =>
    rw [List.forall_mem_cons] at h
    obtain ⟨annotations, i, bounds, extent⟩ := a
    obtain ⟨rfl, hbounds⟩ := TypeParam.of_isBare h.1
    exact callless_append.2 ⟨callless_cons (by simp) (TypeExpr.callless_of_bareAll hbounds), ih h.2⟩

/-! ## Texts -/

variable {j : Job} {text receiver : String} {p q : Nat}

/-- Has the text of the type for the binding the code tokens of the printed tree? -/
def Job.RewritesType (j : Job) (e : Stencil.TypeExpr) : Prop :=
  ∃ out, j.render e.extent (Outline.stepsAll j (TypeExpr.outline e)) = .ok out
    ∧ lexemes Kind.isCode out
      = lexemes Kind.isCode (TypeExpr.rewritten j.vocabulary j.binding e).print

/-- The text of a type is that of the tree. -/
theorem TypeExpr.rewrites_of_reads (hj : j.IsReady text) {e : Stencil.TypeExpr} {t : BareType}
    (hbare : e.bare? = some t) (h : e.reads (.ofSource j.source receiver) p q) :
    j.RewritesType e := by
  have hs := hj.indexed
  obtain ⟨hvalid, hwords⟩ := e.verbatim_of_reads (hj.isSpelled receiver) hbare h
  have hq : q ≤ j.source.code.size := by
    obtain ⟨x, xs, hfirst, -⟩ := t.exists_head hvalid
    have hle := le_size_of_verbatim hwords (Nat.le_of_lt (lt_size_of_verbatim (hfirst ▸ hwords)))
    rwa [Source.size_ofSource] at hle
  have hlaid := TypeExpr.laid_of_reads h
  have hcalls := TypeExpr.callless_of_bare e hbare
  have hnone : firstError? (Outline.stepsAll j (TypeExpr.outline e)) = none := by
    rw [Outline.firstError?_stepsAll hs hq hlaid (plain_of_callless hcalls), Outline.turnsAll_eq_nil hcalls]
    rfl
  have hok := (failure?_render hs hq hlaid).trans hnone
  have hphrase := (TypeExpr.phrase_rewritten j.vocabulary j.binding e hbare hvalid).1
  rw [Job.RewritesType, TypeExpr.extent_of_reads h]
  cases hrender : j.render ⟨p, q⟩ (Outline.stepsAll j (TypeExpr.outline e)) with
  | error e =>
    rw [hrender] at hok
    contradiction
  | ok out =>
    have htext := (Outline.agrees_stepsAll hs hq hlaid).text_of_render hs hq
      (Outline.fits_stepsAll hs hq hlaid) hrender
    refine ⟨out, rfl, ?_⟩
    rw [BareType.print, lexemes_print hphrase, lexemes_isCode_eq, htext]
    exact (TypeExpr.writes hj e hbare h hq).strewn.code_eq hphrase

/-- The tokens that rewritten type parameters take the place of. Where the list goes, a blank may go
with it. -/
def Job.rangeOf (j : Job) (as : Stencil.TypeParams) : TokenRange :=
  if (TypeParams.rewritten? j.vocabulary j.binding as).isNone then j.absorbBlank (j.source.range as.extent)
  else j.source.range as.extent

theorem Job.finish_edit {r : TokenRange} {out : String} (h : r.start < r.stop) :
    j.finish r [⟨r, out⟩] = .ok out := by
  have hempty (i : Nat) : copy j.vocabulary j.binding j.source.tokens ⟨i, i⟩ = "" := by
    rw [Job.copy_eq, Job.copies_self, Job.chunksText_nil]
  rw [Job.finish, reconstruct_of_pairwise (by simp [TokenRange.contains]) (by simpa using h)
    (List.pairwise_singleton _ _), splice, splice, hempty, hempty, String.empty_append, String.append_empty]

theorem Job.start_lt_absorbBlank {r : TokenRange} (h : r.start < r.stop) :
    (j.absorbBlank r).start < (j.absorbBlank r).stop := by
  simp only [Job.absorbBlank]
  split
  · exact Nat.lt_succ_of_lt h
  · exact h

/-- The text that type parameters are put together as. -/
theorem Job.finish_keepParams (as : Stencil.TypeParams) {texts : List String}
    (hrange : (j.source.range as.extent).start < (j.source.range as.extent).stop)
    (h : texts.isEmpty = (TypeParam.rewrittenAll j.vocabulary j.binding as.entries).isEmpty) :
    j.finish (j.rangeOf as) (editsBefore (j.keepParams as.extent (.ok texts))) = .ok (angleList texts) := by
  have hnone : (TypeParams.rewritten? j.vocabulary j.binding as).isNone = texts.isEmpty := by
    rw [h, TypeParams.rewritten?]
    cases (TypeParam.rewrittenAll j.vocabulary j.binding as.entries).isEmpty <;> rfl
  rw [Job.rangeOf, hnone]
  refine Job.finish_edit ?_
  split
  · exact Job.start_lt_absorbBlank hrange
  · exact hrange

theorem TypeParam.isWritable_of_reads {s : Script} (hs : s.IsSpelled) {a : Stencil.TypeParam}
    (hbare : a.isBare = true) (h : a.reads s p q) : TypeParam.IsWritable a := by
  obtain ⟨-, hbounds⟩ := TypeParam.of_isBare hbare
  obtain ⟨annotations, i, bounds, extent⟩ := a
  obtain ⟨⟨m, ⟨m', -, hi⟩, hreads⟩, -⟩ := h
  refine ⟨(hs.verbatim_of_nameOf hi).1, fun e he => ?_⟩
  obtain ⟨t, ht⟩ := hbounds e he
  obtain ⟨k, l, he⟩ := Part.allRead_types hreads _ (List.mem_map_of_mem he)
  exact ⟨t, ht, (e.verbatim_of_reads hs ht he).1⟩

theorem any_entries_params {f : Stencil.TypeParam → Bool} (es : List Stencil.TypeParam) :
    (TypeParam.entries es).any (fun e => f e.1) = es.any f := by
  induction es with
  | nil => rfl
  | cons a es ih => rw [TypeParam.entries, List.any_cons, List.any_cons, ih]

theorem rewrittenAll_of_stay {v : Vocabulary} {b : Binding} {es : List Stencil.TypeParam}
    (h : ∀ a ∈ es, isDroppedParam v b a = false) :
    TypeParam.rewrittenAll v b es = es.map (TypeParam.rewritten v b) := by
  rw [TypeParam.rewrittenAll, List.filter_eq_self.2]
  simpa using h

/-- A list that loses no entry is rewritten in place. -/
theorem TypeParams.writes (hj : j.IsReady text) {es : List Stencil.TypeParam}
    (hbare : ∀ a ∈ es, a.isBare = true)
    (hstay : ∀ a ∈ es, isDroppedParam j.vocabulary j.binding a = false) {extent : Extent}
    (h : TypeParams.reads? (.ofSource j.source receiver) (some ⟨es, extent⟩) p q)
    (hq : q ≤ j.source.code.size) : Writes j p q (Outline.paramPatches j (TypeParam.entries es))
      (readAll (BareParam.words? (TypeParams.rewritten? j.vocabulary j.binding ⟨es, extent⟩))) := by
  obtain ⟨⟨hne, m, ⟨m', hless, hentries⟩, hgreater⟩, -⟩ := h
  have hm := Nat.le_trans ((word _ Kind.greater).le hgreater) hq
  have hkept : ((es.map (TypeParam.rewritten j.vocabulary j.binding)).map fun a => readAll a.words).isEmpty
      = false := by
    simpa using hne
  have hbody := (TypeParam.writesBehind hj isLead_empty hbare hentries hm).append hj hq
    (writes_symbol hj (by decide) hgreater) (.inr (.inl (isOpen_symbol (by decide))))
  have hlist := (writes_symbol hj (by decide) hless).append hj hq hbody (.inl (isShut_symbol (by decide)))
  rw [List.append_nil] at hlist
  simp only [TypeParams.rewritten?, rewrittenAll_of_stay hstay, readAll_params?, hkept, Bool.false_eq_true, if_false,
    ← readAll_params]
  exact hlist

/-- Has the text of the type parameters for the binding the code tokens of the printed tree? -/
def Job.RewritesParams (j : Job) (as : Stencil.TypeParams) : Prop :=
  ∃ out, firstError? (Outline.stepsAll j (TypeParams.outline? (some as))) = none
    ∧ j.finish (j.rangeOf as) (editsBefore (Outline.stepsAll j (TypeParams.outline? (some as)))) = .ok out
    ∧ lexemes Kind.isCode out
      = lexemes Kind.isCode (BareParam.print? (TypeParams.rewritten? j.vocabulary j.binding as))

variable {es : List Stencil.TypeParam} {m : Nat}

/-- Where a list loses entries, one edit puts in those that stay. -/
theorem TypeParams.rewrites_of_lost (hj : j.IsReady text) (hbare : ∀ a ∈ es, a.isBare = true)
    (hentries : TypeParam.readsBehind (.ofSource j.source receiver) empty es (p + 1) m)
    (hm : m ≤ j.source.code.size) (hlt : p < q)
    (hphrase : Phrase (readAll (BareParam.words?
      (TypeParams.rewritten? j.vocabulary j.binding ⟨es, ⟨p, q⟩⟩)))) :
    ∃ out, firstError? (j.keepParams ⟨p, q⟩ (Outline.keptParams j (TypeParam.entries es))) = none
      ∧ j.finish (j.rangeOf ⟨es, ⟨p, q⟩⟩)
        (editsBefore (j.keepParams ⟨p, q⟩ (Outline.keptParams j (TypeParam.entries es)))) = .ok out
      ∧ lexemes Kind.isCode out
        = readAll (BareParam.words? (TypeParams.rewritten? j.vocabulary j.binding ⟨es, ⟨p, q⟩⟩)) := by
  have hs := hj.indexed
  have hrow := TypeParam.row_of_readsBehind nameless_of_empty hentries
  have hkept := TypeParam.spellsKept hj hbare hentries hm
  have hok := Outline.failure?_keptParams hs hm hrow (TypeParam.callless_of_bare hbare)
  cases hk : Outline.keptParams j (TypeParam.entries es) with
  | error e =>
    rw [hk] at hok
    contradiction
  | ok texts =>
    obtain rfl := Outline.keptParams_eq hs hm hrow hk
    have hempty : (TypeParam.rewrittenAll j.vocabulary j.binding es).isEmpty
        = ((Outline.keptParamChunks j (TypeParam.entries es)).map j.chunksText).isEmpty := by
      have hlength := hkept.length_eq
      rw [List.length_map] at hlength
      rw [Bool.eq_iff_iff, List.isEmpty_iff_length_eq_zero, List.isEmpty_iff_length_eq_zero,
        List.length_map, hlength]
    have hrange : (j.source.range ⟨p, q⟩).start < (j.source.range ⟨p, q⟩).stop := by
      have := hs.index_le_index (show p ≤ q - 1 by omega)
      simp only [Source.range, if_pos hlt]
      omega
    refine ⟨_, rfl, Job.finish_keepParams ⟨es, ⟨p, q⟩⟩ hrange hempty.symm, ?_⟩
    have hstrewn := (spells_angleChunks hkept).2
    rw [TypeParams.rewritten?, readAll_params?] at hphrase ⊢
    rw [← Job.chunksText_angleChunks, lexemes_isCode_eq]
    exact hstrewn.code_eq hphrase

/-- Where all entries stay, each is rewritten in its place. -/
theorem TypeParams.rewrites_of_stay (hj : j.IsReady text) (hbare : ∀ a ∈ es, a.isBare = true)
    (hstay : ∀ a ∈ es, isDroppedParam j.vocabulary j.binding a = false)
    (h : TypeParams.reads? (.ofSource j.source receiver) (some ⟨es, ⟨p, q⟩⟩) p q)
    (hq : q ≤ j.source.code.size)
    (hphrase : Phrase (readAll (BareParam.words?
      (TypeParams.rewritten? j.vocabulary j.binding ⟨es, ⟨p, q⟩⟩)))) :
    ∃ out, firstError? (Outline.paramSteps j (TypeParam.entries es)) = none
      ∧ j.finish (j.rangeOf ⟨es, ⟨p, q⟩⟩) (editsBefore (Outline.paramSteps j (TypeParam.entries es)))
        = .ok out
      ∧ lexemes Kind.isCode out
        = readAll (BareParam.words? (TypeParams.rewritten? j.vocabulary j.binding ⟨es, ⟨p, q⟩⟩)) := by
  have hs := hj.indexed
  have hwrites := TypeParams.writes hj hbare hstay h hq
  obtain ⟨⟨hne, m, ⟨m', hless, hentries⟩, hgreater⟩, -⟩ := h
  have hm := Nat.le_trans ((word _ Kind.greater).le hgreater) hq
  have hrow := TypeParam.row_of_readsBehind nameless_of_empty hentries
  have hfits : Fits j.source q p (Outline.paramSteps j (TypeParam.entries es)) := by
    have hlead := (Outline.fits_paramSteps hs hm hrow).lead ((word _ Kind.less).le hless)
    have hall : Fits j.source q p (Outline.paramSteps j (TypeParam.entries es) ++ []) :=
      hlead.append ((word _ Kind.greater).le hgreater)
    rwa [List.append_nil] at hall
  have hok := Outline.firstError?_paramSteps hs hm hrow (TypeParam.callless_of_bare hbare)
  have hrange : j.rangeOf ⟨es, ⟨p, q⟩⟩ = j.source.range ⟨p, q⟩ := by
    simp [Job.rangeOf, TypeParams.rewritten?, rewrittenAll_of_stay hstay, hne]
  rw [hrange, hfits.finish_eq_ok hs hq fun _ => hfits.contains hs,
    (Outline.agrees_paramSteps hs hm hrow).editsBefore_eq hok, Job.splice_eq]
  refine ⟨_, hok, rfl, ?_⟩
  rw [lexemes_isCode_eq]
  exact hwrites.strewn.code_eq hphrase

/-- The text of type parameters is that of the tree. -/
theorem TypeParams.rewrites_of_reads (hj : j.IsReady text) {as : Stencil.TypeParams}
    (hbare : ∀ a ∈ as.entries, a.isBare = true)
    (h : TypeParams.reads? (.ofSource j.source receiver) (some as) p q) : j.RewritesParams as := by
  obtain ⟨es, extent⟩ := as
  have hreads := h
  obtain ⟨⟨-, m, ⟨m', hless, hentries⟩, hgreater⟩, he⟩ := h
  obtain rfl : extent = ⟨p, q⟩ := he
  obtain ⟨-, rfl⟩ := hless
  have hbehind := (TypeParam.readsBehind _ _ es).le hentries
  obtain ⟨hkind, rfl⟩ := hgreater
  have hq : m < j.source.code.size := by
    have hmore : (Script.ofSource j.source receiver).kind m ≠ .eof := hkind ▸ by decide
    exact Source.lt_size_of_kind_ne hmore
  have hwritable : ∀ a ∈ es, TypeParam.IsWritable a := fun a ha => by
    obtain ⟨k, l, ha'⟩ := Part.allRead_typeParams hentries _ (List.mem_map_of_mem ha)
    exact TypeParam.isWritable_of_reads (hj.isSpelled receiver) (hbare a ha) ha'
  have hphrase : Phrase (readAll (BareParam.words?
      (TypeParams.rewritten? j.vocabulary j.binding ⟨es, ⟨p, m + 1⟩⟩))) :=
    TypeParams.phrase_rewritten? j.vocabulary j.binding hwritable
  rw [Job.RewritesParams, BareParam.print?, lexemes_print hphrase]
  simp only [TypeParams.outline?, Outline.stepsAll, List.append_nil, Outline.steps]
  split
  · exact TypeParams.rewrites_of_lost hj hbare hentries (Nat.le_of_lt hq) (by omega) hphrase
  · rename_i hnone
    have hstay : ∀ a ∈ es, isDroppedParam j.vocabulary j.binding a = false := by
      rw [any_entries_params] at hnone
      simpa using hnone
    exact TypeParams.rewrites_of_stay hj hbare hstay hreads hq hphrase

end Rewrite

/-! ## Rules -/

namespace Grammar

variable {j : Job} {text : String}

end Grammar

end Stencil
