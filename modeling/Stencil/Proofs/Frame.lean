import Stencil.Proofs.Edits
import Stencil.Proofs.Primitive
import Stencil.Proofs.Rewrite.Causes
import Stencil.Proofs.Rewrite.Turns
import Stencil.Proofs.Token.Lossless

/-!
# What a specialization leaves as it is

The text of a rendering is written token by token: where an edit covers a token the text of the edit
stands instead, and every other token is copied, with placeholders exchanged in comments only. An edit
covers nothing but the name, the list or the call that it is about, so all else comes through as it
stands in the template.

Results: the text of edits in order is what is written at each index (`Job.splice_eq_written`), and
no specialization covers or changes more than it may (`Template.framed_of_ofText`).
-/

namespace Stencil

namespace Source

/-- The indices of the tokens of a range in the stream, without the end mark. -/
def indices (s : Source) (r : TokenRange) : List Nat :=
  List.range' r.start (min r.stop s.tokens.size - r.start)

variable {s : Source}

theorem indices_split {a m stop : Nat} (ham : a ≤ m) (hm : m ≤ min stop s.tokens.size) :
    s.indices ⟨a, stop⟩ = s.indices ⟨a, m⟩ ++ s.indices ⟨m, stop⟩ := by
  have hstop : m - a + (min stop s.tokens.size - m) = min stop s.tokens.size - a := by omega
  have hmid : min m s.tokens.size = m := by omega
  have h := List.range'_append_1 (s := a) (m := m - a) (n := min stop s.tokens.size - m)
  rw [show a + (m - a) = m by omega, hstop] at h
  simp only [indices, hmid]
  exact h.symm

theorem mem_indices {r : TokenRange} {i : Nat} :
    i ∈ s.indices r ↔ r.start ≤ i ∧ i < r.stop ∧ i < s.tokens.size := by
  rw [indices, List.mem_range'_1]
  omega

end Source

namespace Rewrite

/-- Is the token of the index among those that the edit replaces? -/
def Edit.covers (e : Edit) (i : Nat) : Bool :=
  e.range.start ≤ i && i < e.range.stop

theorem Edit.covers_iff {e : Edit} {i : Nat} :
    e.covers i = true ↔ e.range.start ≤ i ∧ i < e.range.stop := by
  simp [covers]

/-! ## Texts token by token -/

namespace Job

/-- What is written for the token of an index: the text of an edit at the first token that it covers,
nothing at the others, and elsewhere the token. -/
def written (j : Job) (edits : List Edit) (i : Nat) : String :=
  match edits.find? fun e => e.covers i with
  | some e => if e.range.start = i then e.text else ""
  | none => tokenText j.vocabulary j.binding (j.source.tokenAt i)

variable {j : Job} {e : Edit} {edits : List Edit} {i : Nat}

theorem written_of_not_covers (h : ∀ e ∈ edits, e.covers i = false) :
    j.written edits i = tokenText j.vocabulary j.binding (j.source.tokenAt i) := by
  rw [written, List.find?_eq_none.2 fun e he => by simp [h e he]]

theorem written_cons_of_covers (h : e.covers i = true) :
    j.written (e :: edits) i = if e.range.start = i then e.text else "" := by
  simp only [written, List.find?_cons, h]

theorem written_cons_of_not_covers (h : e.covers i = false) :
    j.written (e :: edits) i = j.written edits i := by
  simp only [written, List.find?_cons, h]

theorem copy_eq_indices (r : TokenRange) : copy j.vocabulary j.binding j.source.tokens r
    = String.join ((j.source.indices r).map fun i =>
      tokenText j.vocabulary j.binding (j.source.tokenAt i)) := by
  rw [copy_eq, chunksText, copies, List.map_map]
  rfl

/-- Where an edit covers all tokens its text is written. -/
theorem join_written_covered (h : e.range.start < e.range.stop)
    (hsize : e.range.stop ≤ j.source.tokens.size) :
    String.join ((j.source.indices e.range).map (j.written (e :: edits))) = e.text := by
  obtain ⟨n, hn⟩ := Nat.exists_eq_add_of_lt h
  have hcount : min e.range.stop j.source.tokens.size - e.range.start = n + 1 := by omega
  have hrest : (List.range' (e.range.start + 1) n).map (j.written (e :: edits))
      = List.replicate n "" := by
    refine List.eq_replicate_iff.2 ⟨by simp, fun text htext => ?_⟩
    obtain ⟨i, hi, rfl⟩ := List.mem_map.1 htext
    rw [List.mem_range'_1] at hi
    rw [written_cons_of_covers (Edit.covers_iff.2 (by omega)), if_neg (by omega)]
  have hempty : String.join (List.replicate n "") = "" := by
    apply String.toList_inj.1
    simp [String.toList_join]
  rw [Source.indices, hcount, List.range'_succ, List.map_cons, String.join_cons, hrest, hempty,
    written_cons_of_covers (Edit.covers_iff.2 (by omega)), if_pos rfl, String.append_empty]

/-- The text of edits one behind the other is what is written at each index. -/
theorem splice_eq_written {start stop : Nat}
    (hlt : ∀ e ∈ edits, e.range.start < e.range.stop)
    (hpairwise : edits.Pairwise fun e f => e.range.stop ≤ f.range.start)
    (hstart : ∀ e ∈ edits, start ≤ e.range.start)
    (hstop : ∀ e ∈ edits, e.range.stop ≤ min stop j.source.tokens.size) :
    splice j.vocabulary j.binding j.source.tokens stop start edits
      = String.join ((j.source.indices ⟨start, stop⟩).map (j.written edits)) := by
  induction edits generalizing start with
  | nil => exact copy_eq_indices _
  | cons e edits ih =>
    rw [List.forall_mem_cons] at hlt hstart hstop
    rw [List.pairwise_cons] at hpairwise
    have hsize : e.range.stop ≤ j.source.tokens.size := by omega
    have hsplit : j.source.indices ⟨start, stop⟩ = j.source.indices ⟨start, e.range.start⟩
        ++ j.source.indices e.range ++ j.source.indices ⟨e.range.stop, stop⟩ := by
      rw [List.append_assoc, ← Source.indices_split (Nat.le_of_lt hlt.1) hstop.1,
        ← Source.indices_split hstart.1 (by omega)]
    have hfront : (j.source.indices ⟨start, e.range.start⟩).map (j.written (e :: edits))
        = (j.source.indices ⟨start, e.range.start⟩).map fun i =>
          tokenText j.vocabulary j.binding (j.source.tokenAt i) := by
      refine List.map_congr_left fun i hi => written_of_not_covers fun f hf => ?_
      have hi : i < e.range.start := (Source.mem_indices.1 hi).2.1
      refine Bool.eq_false_iff.2 fun hc => ?_
      have hc := (Edit.covers_iff.1 hc).1
      rcases List.mem_cons.1 hf with rfl | hf
      · omega
      · have := hpairwise.1 f hf
        omega
    have hback : (j.source.indices ⟨e.range.stop, stop⟩).map (j.written (e :: edits))
        = (j.source.indices ⟨e.range.stop, stop⟩).map (j.written edits) := by
      refine List.map_congr_left fun i hi => written_cons_of_not_covers ?_
      have hi : e.range.stop ≤ i := (Source.mem_indices.1 hi).1
      refine Bool.eq_false_iff.2 fun hc => ?_
      have hc := (Edit.covers_iff.1 hc).2
      omega
    rw [splice, ih hlt.2 hpairwise.2 hpairwise.1 hstop.2, copy_eq_indices, hsplit, List.map_append,
      List.map_append, String.join_append, String.join_append, hfront, hback,
      join_written_covered hlt.1 hsize]

end Job

/-! ## Renderings -/

theorem Fits.stop_le_size {j : Job} {p q : Nat} {xs : List Step} (hs : j.source.Indexed)
    (hq : q ≤ j.source.code.size) (h : Fits j.source q p xs) {e : Edit} (he : e ∈ editsBefore xs) :
    e.range.stop ≤ j.source.tokens.size := by
  obtain ⟨a, b, -, hb, hc⟩ := h.mem_range he
  have hlast : j.source.index (b - 1) < j.source.tokens.size :=
    hs.index_lt_size (by have := hc.lt; omega)
  have hnext : j.source.index b ≤ j.source.tokens.size := hs.index_le_size
  have := hc.stop_le
  omega

/-- The text of a rendering is what is written at each index of its range. -/
theorem Fits.finish_eq_written {j : Job} {p q : Nat} {xs : List Step} (hs : j.source.Indexed)
    (hq : q ≤ j.source.code.size) (h : Fits j.source q p xs) {range : TokenRange}
    (hc : ∀ e ∈ editsBefore xs, range.contains e.range = true) :
    j.finish range (editsBefore xs)
      = .ok (String.join ((j.source.indices range).map (j.written (editsBefore xs)))) := by
  have hcontains {e : Edit} (he : e ∈ editsBefore xs) :
      range.start ≤ e.range.start ∧ e.range.stop ≤ range.stop := by
    simpa [TokenRange.contains] using hc e he
  rw [h.finish_eq_ok hs hq hc, Job.splice_eq_written (fun e he => h.start_lt he)
    (h.pairwise_lt hs hq) (fun e he => (hcontains he).1) fun e he =>
      Nat.le_min.2 ⟨(hcontains he).2, h.stop_le_size hs hq he⟩]

end Rewrite

/-! ## Templates -/

open Rewrite

namespace Template

variable {path : Path} {text : String} {v : Vocabulary} {t : Template} {b : Binding}

/-- The places of the template, at every depth. -/
def places (t : Template) : List Outline :=
  Outline.placesAll (Rewrite.CompilationUnit.outline t.file.tree)

/-- What an edit may cover: a name that mentions a placeholder, a list with an entry that names one or
behind the name of a class that mentions one, or a call. Where it leaves nothing of type parameters it
may cover the blank behind them. -/
inductive Licensed (t : Template) (e : Edit) : Prop where
  | name (kind : (t.file.source.tokenAt e.range.start).kind = .identifier)
    (mentions : t.vocabulary.mentionsAny (t.file.source.tokenAt e.range.start).text = true)
    (stop : e.range.stop = e.range.start + 1)
  | typeArgs {owner : Option String} {entries : List (TypeArg × List Outline)} {extent : Extent}
    (place : .typeArgs owner entries extent ∈ t.places)
    (reason : owner.any t.vocabulary.mentionsAny = true
      ∨ ∃ x ∈ entries, (placeholderOf? t.vocabulary x.1).isSome = true)
    (range : e.range = t.file.source.range extent)
  | typeParams {entries : List (TypeParam × List Outline)} {extent : Extent}
    (place : .typeParams entries extent ∈ t.places)
    (reason : ∃ x ∈ entries, (t.vocabulary.placeholder? x.1.name.name).isSome = true)
    (range : e.range = t.file.source.range extent
      ∨ e.text = ""
        ∧ e.range = ⟨(t.file.source.range extent).start, (t.file.source.range extent).stop + 1⟩
        ∧ (t.file.source.tokenAt (t.file.source.range extent).stop).kind = .whitespace)
  | call {c : IntrinsicCall} (call : c ∈ t.calls) (range : e.range = t.file.source.range c.extent)

/-- A rendering whose edits cover what they may, and that copies all else in order: each token that no
edit covers is written as it stands, unless it is a comment. -/
structure Framed (t : Template) (b : Binding) (r : TokenRange × List Step) : Prop where
  licensed : ∀ e ∈ editsBefore r.2, t.Licensed e
  finish_eq : (t.job b).finish r.1 (editsBefore r.2) = .ok (String.join
    ((t.file.source.indices r.1).map ((t.job b).written (editsBefore r.2))))
  written_eq : ∀ i ∈ t.file.source.indices r.1, (∀ e ∈ editsBefore r.2, e.covers i = false) →
    (t.file.source.tokenAt i).kind.channel ≠ .comment →
    (t.job b).written (editsBefore r.2) i = (t.file.source.tokenAt i).text

/-- A name of the template is an identifier token. -/
theorem exists_token_of_laid {p q : Nat} {i : Ident}
    (h : Stretch.nameOf (.ofSource t.file.source v.intrinsics) i p q)
    (hq : q ≤ t.file.source.code.size) :
    i.position < t.file.source.code.size
      ∧ (t.file.source.codeToken i.position).kind = .identifier
      ∧ (t.file.source.codeToken i.position).text = i.name := by
  obtain ⟨hkind, rfl, rfl⟩ := h
  have hp : p < t.file.source.code.size := hq
  rw [Source.kind_ofSource hp] at hkind
  exact ⟨hp, hkind, by rw [Source.word_ofSource hp]⟩

/-- A name among the places of the template is an identifier token. -/
theorem exists_token_of_mem_places (h : ofText path text v = .ok t) {i : Ident}
    (hi : .name i ∈ t.places ∨ ∃ args, .part i args ∈ t.places) :
    i.position < t.file.source.code.size
      ∧ (t.file.source.codeToken i.position).kind = .identifier
      ∧ (t.file.source.codeToken i.position).text = i.name := by
  obtain ⟨-, -, -, q, hq, hlaid, -⟩ := laidAll_of_ofText h
  rcases hi with hi | ⟨args, hi⟩
  all_goals
    obtain ⟨p, m, hi, -, hm⟩ := Outline.exists_laid_of_mem_placesAll hlaid hi
    exact exists_token_of_laid hi (Nat.le_trans hm hq)

theorem licensed_of_causes (h : ofText path text v = .ok t) {e : Edit} {o : Outline}
    (ho : o ∈ t.places) (hc : o.Causes t.vocabulary t.file.source e) : t.Licensed e := by
  have name {i : Ident} (hi : .name i ∈ t.places ∨ ∃ args, .part i args ∈ t.places)
      (hmentions : t.vocabulary.mentionsAny i.name = true)
      (hrange : e.range = t.file.source.single i.position) : t.Licensed e := by
    obtain ⟨-, hkind, htext⟩ := exists_token_of_mem_places h hi
    have hstart : e.range.start = t.file.source.index i.position := by rw [hrange]; rfl
    refine .name ?_ ?_ (by rw [hrange]; rfl)
    · rw [hstart]
      exact hkind
    · rw [hstart]
      exact htext ▸ hmentions
  cases o with
  | name i => exact name (.inl ho) hc.1 hc.2
  | part i args => exact name (.inr ⟨args, ho⟩) hc.1 hc.2
  | typeArgs owner entries extent => exact .typeArgs ho hc.1 hc.2
  | typeParams entries extent => exact .typeParams ho hc.1 hc.2
  | call c args =>
    refine .call (mem_calls_iff.2 ?_) hc
    rw [Outline.spotsAll_eq]
    exact List.mem_filterMap.2 ⟨_, ho, rfl⟩

/-- The steps of a rendering come from places of the template, and they fit into its range. -/
theorem exists_fits_of_mem_renderings (h : ofText path text v = .ok t)
    {r : TokenRange × List Step} (hr : r ∈ t.renderings b) :
    (∃ os, r.2 = Outline.stepsAll (t.job b) os ∧ Outline.placesAll os ⊆ t.places)
      ∧ (∃ p q, q ≤ t.file.source.code.size ∧ Fits t.file.source q p r.2)
      ∧ ∀ e ∈ editsBefore r.2, r.1.contains e.range = true := by
  obtain ⟨-, -, -, q, hq, hlaid, -⟩ := laidAll_of_ofText h
  have hs : (t.job b).source.Indexed := indexed_of_ofText h
  rcases List.mem_cons.1 hr with rfl | hr
  · have hfits : Fits t.file.source q 0 (t.steps b) := Outline.fits_stepsAll hs hq hlaid
    exact ⟨⟨_, rfl, List.Subset.refl _⟩, ⟨0, q, hq, hfits⟩,
      fun e he => hfits.contains_whole hs he⟩
  · obtain ⟨⟨extent, inner⟩, hpart, rfl⟩ := List.mem_map.1 hr
    obtain ⟨hinner, hstop⟩ := Outline.laidIn_partsAll hlaid _ hpart
    have hstop := Nat.le_trans hstop hq
    have hfits := Outline.fits_stepsAll (j := t.job b) hs hstop hinner
    exact ⟨⟨inner, rfl, Outline.placesAll_subset_of_mem_partsAll hpart⟩, ⟨_, _, hstop, hfits⟩,
      fun e he => hfits.contains hs he⟩

theorem framed_of_mem_renderings (h : ofText path text v = .ok t) {r : TokenRange × List Step}
    (hr : r ∈ t.renderings b) : t.Framed b r := by
  obtain ⟨⟨os, hsteps, hplaces⟩, ⟨p, q, hq, hfits⟩, hcontains⟩ := exists_fits_of_mem_renderings h hr
  refine ⟨fun e he => ?_, hfits.finish_eq_written (j := t.job b) (indexed_of_ofText h) hq hcontains,
    fun i _ hi hkind => ?_⟩
  · rw [hsteps] at he
    obtain ⟨o, ho, hc⟩ := Outline.exists_causes_of_mem_stepsAll (mem_of_mem_editsBefore he)
    exact licensed_of_causes h (hplaces ho) hc
  · rw [Job.written_of_not_covers hi, tokenText]
    split
    · contradiction
    · rfl

/-- Where no identifier mentions a placeholder and there are no calls, there are no steps that fail
and no edits. -/
theorem steps_of_unmentioned (h : ofText path text v = .ok t)
    (hnames : ∀ k ∈ t.file.source.tokens, k.kind = .identifier →
      t.vocabulary.mentionsAny k.text = false)
    (hcalls : t.calls = []) : firstError? (t.steps b) = none ∧ editsBefore (t.steps b) = [] := by
  obtain ⟨-, -, -, q, hq, hlaid, -⟩ := laidAll_of_ofText h
  have hs : t.file.source.Indexed := indexed_of_ofText h
  have hcallless := Outline.calls_eq_nil_iff.1 hcalls
  have hunmentioned {i : Ident} (hi : .name i ∈ t.places ∨ ∃ args, .part i args ∈ t.places) :
      t.vocabulary.mentionsAny i.name = false := by
    obtain ⟨hp, hkind, htext⟩ := exists_token_of_mem_places h hi
    have hmem : t.file.source.codeToken i.position ∈ t.file.source.tokens := by
      rw [Source.codeToken, Source.tokenAt_of_lt (hs.index_lt_size hp)]
      exact Array.getElem_mem _
    rw [← htext]
    exact hnames _ hmem hkind
  constructor
  · have hfirst := Outline.firstError?_stepsAll (j := t.job b) hs hq hlaid
      (plain_of_callless hcallless)
    rwa [Outline.turnsAll_eq_nil hcallless] at hfirst
  · refine List.eq_nil_iff_forall_not_mem.2 fun e he => ?_
    obtain ⟨o, ho, hc⟩ := Outline.exists_causes_of_mem_stepsAll (mem_of_mem_editsBefore he)
    refine Stem.not_causes (Rewrite.CompilationUnit.stems_outline t.file.tree) (fun i hi => ?_)
      (fun i args hi => ?_) hcallless ho hc
    · exact hunmentioned (.inl hi)
    · exact hunmentioned (.inr ⟨args, hi⟩)

/-- A stream whose comments mention no placeholder is copied as it is. -/
theorem copy_whole_of_unmentioned {j : Job} (hsource : j.source = .ofString text)
    (hcomments : ∀ k ∈ j.source.tokens, k.kind.channel = .comment →
      j.vocabulary.mentionsAny k.text = false) :
    copy j.vocabulary j.binding j.source.tokens j.source.whole = text := by
  have htokens : (j.source.tokens.extract j.source.whole.start j.source.whole.stop).toList
      = (Stream.ofString text).tokens := by
    rw [hsource]
    simp [Source.whole, Source.size, Source.ofString, Source.ofStream]
  rw [copy, htokens]
  refine Eq.trans (congrArg String.join (List.map_congr_left fun k hk => ?_))
    (Stream.join_tokens text)
  rw [tokenText]
  split
  · rename_i hkind
    refine rewriteComment_of_not_mentionsAny (hcomments k ?_ hkind)
    rw [hsource]
    exact List.mem_toArray.2 hk
  · rfl

/-- Every rendering of a template is framed, and a specialization that succeeds is the rendering of the
whole file. So a text in which no identifier and no comment mentions a placeholder comes back as it is,
if there are no calls in it. -/
theorem framed_of_ofText (h : ofText path text v = .ok t) (b : Binding) :
    (∀ r ∈ t.renderings b, t.Framed b r)
      ∧ (∀ out, t.specialize b = .ok out → out = String.join ((t.file.source.indices
        t.file.source.whole).map ((t.job b).written (editsBefore (t.steps b)))))
      ∧ ((∀ k ∈ t.file.source.tokens, k.kind = .identifier ∨ k.kind.channel = .comment →
          t.vocabulary.mentionsAny k.text = false) →
        t.calls = [] → t.specialize b = .ok text) := by
  refine ⟨fun r hr => framed_of_mem_renderings h hr, fun out hout => ?_, fun hmentions hcalls => ?_⟩
  · have hwhole := (framed_of_mem_renderings h (b := b) List.mem_cons_self).finish_eq
    simp only [specialize] at hout
    split at hout
    · contradiction
    · rw [hwhole] at hout
      exact (Except.ok.inj hout).symm
  · obtain ⟨hv, hsource, -⟩ := laidAll_of_ofText h
    obtain ⟨hfirst, hedits⟩ := steps_of_unmentioned (b := b) h
      (fun k hk hkind => hmentions k hk (.inl hkind)) hcalls
    have hcopy := copy_whole_of_unmentioned (j := t.job b) hsource
      fun k hk hkind => hmentions k hk (.inr hkind)
    have hfinish : (t.job b).finish t.file.source.whole [] = .ok (copy t.vocabulary b
        t.file.source.tokens t.file.source.whole) := by
      simp [Job.finish, reconstruct, splice, job, Source.whole]
    simp only [specialize, hfirst, hedits, hfinish]
    exact congrArg _ hcopy

/-- The theorem at a template of which edits take away type parameters and the blank behind them,
and at one that mentions a placeholder only in the name of its file. -/
theorem framed_of_ofText_sample : ∃ t u, ofText ⟨"KTypeA.java"⟩
      "interface A \x7b /* KType */ <KType> KType f(List<?> a); \x7d" {} = .ok t
    ∧ ofText ⟨"KTypeA.java"⟩
      "class A<T> \x7b /* c */ A<?> f = a < b ? new A<>() : g; \x7d" {} = .ok u
    ∧ t.specialize ⟨.int, none⟩ = .ok "interface A \x7b /* int */ int f(List<?> a); \x7d"
    ∧ "interface A \x7b /* int */ int f(List<?> a); \x7d" = String.join
      ((t.file.source.indices t.file.source.whole).map
        ((t.job ⟨.int, none⟩).written (editsBefore (t.steps ⟨.int, none⟩))))
    ∧ (∀ r ∈ t.renderings ⟨.int, none⟩, t.Framed ⟨.int, none⟩ r)
    ∧ u.specialize ⟨.int, none⟩
      = .ok "class A<T> \x7b /* c */ A<?> f = a < b ? new A<>() : g; \x7d" := by
  obtain ⟨t, ht, hedited⟩ := exists_ok_of_sees
    (x := ofText ⟨"KTypeA.java"⟩
      "interface A \x7b /* KType */ <KType> KType f(List<?> a); \x7d" {})
    (fun t => (firstError? (t.steps ⟨.int, none⟩)).isNone
        && String.join ((t.file.source.indices t.file.source.whole).map
          ((t.job ⟨.int, none⟩).written (editsBefore (t.steps ⟨.int, none⟩))))
          == "interface A \x7b /* int */ int f(List<?> a); \x7d")
    (by decide +kernel)
  obtain ⟨u, hu, hsame⟩ := exists_ok_of_sees
    (x := ofText ⟨"KTypeA.java"⟩
      "class A<T> \x7b /* c */ A<?> f = a < b ? new A<>() : g; \x7d" {})
    (fun u => u.calls.isEmpty && u.file.source.tokens.all fun k =>
        k.kind != .identifier && k.kind.channel != .comment || !u.vocabulary.mentionsAny k.text)
    (by decide +kernel)
  simp only [Bool.and_eq_true, Option.isNone_iff_eq_none, beq_iff_eq] at hedited
  rw [Bool.and_eq_true, List.isEmpty_iff, Array.all_eq_true'] at hsame
  obtain ⟨hframed, htext, -⟩ := framed_of_ofText ht ⟨.int, none⟩
  have hfinish := (hframed _ List.mem_cons_self).finish_eq
  rw [hedited.2] at hfinish
  have hout : t.specialize ⟨.int, none⟩
      = .ok "interface A \x7b /* int */ int f(List<?> a); \x7d" := by
    simp only [specialize, hedited.1]
    exact hfinish
  refine ⟨t, u, ht, hu, hout, htext _ hout, hframed, (framed_of_ofText hu ⟨.int, none⟩).2.2
    (fun k hk hkind => ?_) hsame.1⟩
  rcases hkind with hkind | hkind
  · simpa [hkind] using hsame.2 k hk
  · simpa [hkind] using hsame.2 k hk

end Template

end Stencil
