import Stencil.Proofs.Rewrite.Chunks
import Stencil.Proofs.Rewrite.Operation
import Stencil.Proofs.Rewrite.Renamed

/-!
# Chunks that are rid of a placeholder

A placeholder of the default vocabulary that is bound to a primitive type is not to be left in a
chunk. Tokens that are no names never hold it: comments are rewritten, quoted literals may hold
anything, and other tokens have no capital letters of this kind. A call puts in the text of its hint
only if the hint names another placeholder, and then the hint holds that name and brackets.

Results: a copied token that is no name is free (`Job.Clears.isFree_copied`), and so is what a call
puts in if its hint is bare (`Job.Clears.isFree_callChunks`).
-/

namespace Stencil

/-- Is the kind that of a literal between quotes? -/
def Kind.isQuoted : Kind → Bool
  | .charLiteral | .stringLiteral | .textBlock => true
  | _ => false

/-- Is there neither an annotation nor a comment in an extent? -/
def Source.isBare (s : Source) (e : Extent) : Bool :=
  (s.tokens.extract (s.range e).start (s.range e).stop).all fun t =>
    t.kind != .at && t.kind.channel != .comment

namespace Rewrite

/-- Is the chunk rid of a placeholder, and no copy of a barred token? -/
def Chunk.IsFree (j : Job) (u : Placeholder) (barred : List Nat) : Chunk → Prop
  | .copied i => i ∉ barred ∧ ((j.source.tokenAt i).kind.isQuoted = true
      ∨ j.vocabulary.mentions (j.chunkText (.copied i)) u = false)
  | .put text => j.vocabulary.mentions text u = false

/-- A job that binds a placeholder of the default vocabulary to a primitive type, in a template
without flaws of which some names are barred. -/
structure Job.Clears (j : Job) (u : Placeholder) (barred : List Nat) : Prop where
  vocabulary : j.vocabulary = {}
  primitive : j.binding.isPrimitive u = true
  indexed : j.source.Indexed
  initial : ∀ i < j.source.tokens.size, (j.source.tokenAt i).kind.isFree = false →
    u.initial ∉ (j.source.tokenAt i).text.toList
  barred_kind : ∀ i ∈ barred, (j.source.tokenAt i).kind = .identifier

variable {j : Job} {u : Placeholder} {barred : List Nat} {receiver : String} {p q : Nat}

theorem initial_cons (u : Placeholder) : ∃ cs, (({} : Vocabulary).name u).toList = u.initial :: cs := by
  cases u
  · exact ⟨"Type".toList, rfl⟩
  · exact ⟨"Type".toList, rfl⟩

theorem not_mentions_of_initial {text : String} (h : u.initial ∉ text.toList) :
    ({} : Vocabulary).mentions text u = false := by
  obtain ⟨cs, hcs⟩ := initial_cons u
  rw [Vocabulary.mentions, Text.mentions, hcs]
  exact Text.not_occursIn_of_notMem h

namespace Job.Clears

/-- A token that is no name is free, whatever it is. -/
theorem isFree_copied (h : j.Clears u barred) {i : Nat} (hi : i < j.source.tokens.size)
    (hk : (j.source.tokenAt i).kind ≠ .identifier) : (Chunk.copied i).IsFree j u barred := by
  refine ⟨fun hb => hk (h.barred_kind i hb), ?_⟩
  by_cases hq : (j.source.tokenAt i).kind.isQuoted = true
  · exact .inl hq
  · refine .inr ?_
    rw [h.vocabulary]
    simp only [Job.chunkText, tokenText, h.vocabulary]
    split
    · obtain ⟨t, ht, -⟩ := Binding.exists_of_isPrimitive h.primitive
      exact not_mentions_rewriteComment ht fun _ hw => isApart_of_isWord u hw
    · rename_i hc
      refine not_mentions_of_initial (h.initial i hi ?_)
      revert hk hq hc
      cases (j.source.tokenAt i).kind <;> simp [Kind.isFree, Kind.isQuoted, Kind.channel]

end Job.Clears

/-! ## Hints -/

theorem mem_intercalate {α : Type} {sep x : α} {es : List (List α)} (h : x ∈ [sep].intercalate es) :
    x = sep ∨ ∃ e ∈ es, x ∈ e := by
  induction es with
  | nil => simp at h
  | cons e rest ih =>
    cases rest with
    | nil => exact .inr ⟨e, List.mem_cons_self, by simpa using h⟩
    | cons f rest =>
      rw [List.intercalate_cons_cons, List.mem_append, List.mem_append, List.mem_singleton] at h
      rcases h with (h | h) | h
      · exact .inr ⟨e, List.mem_cons_self, h⟩
      · exact .inl h
      · exact (ih h).imp_right fun ⟨g, hg, hx⟩ => ⟨g, List.mem_cons_of_mem e hg, hx⟩

/-- The text of an extent lacks a letter if its tokens do. -/
theorem notMem_sourceText {c : Char} {e : Extent}
    (h : ∀ i, (j.source.range e).start ≤ i → i < (j.source.range e).stop →
      i < j.source.tokens.size → c ∉ (j.source.tokenAt i).text.toList) :
    c ∉ (j.sourceText e).toList := by
  rw [Job.sourceText, Source.text, String.toList_join, List.mem_flatMap]
  rintro ⟨text, htext, hc⟩
  obtain ⟨t, ht, rfl⟩ := List.mem_map.1 htext
  obtain ⟨i, hstart, hstop, hi, rfl⟩ := Source.mem_extract_iff.1 (Array.mem_toList_iff.1 ht)
  exact h i hstart hstop hi hc

theorem isBare_iff {s : Source} {e : Extent} :
    s.isBare e = true ↔ ∀ i, (s.range e).start ≤ i → i < (s.range e).stop → i < s.tokens.size →
      (s.tokenAt i).kind ≠ .at ∧ (s.tokenAt i).kind.channel ≠ .comment := by
  rw [Source.isBare, Array.all_eq_true_iff_forall_mem]
  constructor
  · intro h i hstart hstop hi
    simpa using h _ (Source.mem_extract_iff.2 ⟨i, hstart, hstop, hi, rfl⟩)
  · intro h t ht
    obtain ⟨i, hstart, hstop, hi, rfl⟩ := Source.mem_extract_iff.1 ht
    simpa using h i hstart hstop hi

open Stretch

/-- A type of one name in a bare stretch is that name and brackets. -/
theorem reads_single {t : Stencil.TypeExpr} {name : Ident}
    (ht : t.reads (.ofSource j.source receiver) p q) (hq : q ≤ j.source.code.size)
    (hsegments : t.segments = [⟨name, none⟩])
    (hat : ∀ x, p ≤ x → x < q → (j.source.codeToken x).kind ≠ .at) :
    t.extent = ⟨p, q⟩ ∧ (j.source.codeToken p).text = name.name ∧ p < q
      ∧ ∀ x, p < x → x < q → (j.source.codeToken x).kind = .leftBracket
        ∨ (j.source.codeToken x).kind = .rightBracket := by
  obtain ⟨annotations, core, dims, extent⟩ := t
  obtain ⟨⟨m, ⟨m', hannotations, hcore⟩, hdims⟩, rfl⟩ := ht
  cases core with
  | primitive k => simp [TypeExpr.segments] at hsegments
  | named segments =>
    obtain rfl : segments = [⟨name, none⟩] := hsegments
    obtain ⟨-, m₁, ⟨m₂, ⟨m₃, hlead, hkind, hname, rfl⟩, hargs⟩, hrest⟩ := hcore
    obtain rfl := empty_iff.1 hlead
    obtain rfl := empty_iff.1 hargs
    obtain rfl := empty_iff.1 hrest
    have hmq := (Stretch.dims _ dims).le hdims
    cases annotations with
    | nil =>
      obtain rfl := empty_iff.1 hannotations
      refine ⟨rfl, ?_, by omega, fun x hpx hxq => ?_⟩
      · rw [Source.word_ofSource (by omega)] at hname
        rw [hname]
      · have hx := (run_of_dims hdims).2 x hpx hxq
        rwa [Source.kind_ofSource (by omega)] at hx
    | cons a rest =>
      obtain ⟨i, args, extent⟩ := a
      obtain ⟨n, ⟨⟨n₁, ⟨n₂, ⟨hword, rfl⟩, hn₁⟩, hn⟩, -⟩, hrest⟩ := hannotations
      have := (i.reads _).le hn₁
      have := (Group.readsOr _ .empty args).le hn
      have := (AnnotationUse.readsAll _ rest).le hrest
      rw [Source.kind_ofSource (by omega)] at hword
      exact absurd hword (hat p (Nat.le_refl p) (by omega))

theorem hinted?_eq_some {a : Stencil.TypeArgs} {w : Placeholder} {t : Stencil.TypeExpr}
    (h : j.hinted? a = some (w, t)) : a.entries = [.type t]
      ∧ ∃ name, t.segments = [⟨name, none⟩] ∧ j.vocabulary.placeholder? name.name = some w := by
  simp only [Job.hinted?] at h
  split at h
  · rename_i t' hentries
    split at h
    · rename_i name hsegments
      obtain ⟨w', hw, heq⟩ := Option.map_eq_some_iff.1 h
      cases heq
      exact ⟨hentries, name, hsegments, (Option.filter_eq_some_iff.1 hw).1⟩
    · contradiction
  · contradiction

theorem initial_notMem_name {w : Placeholder} (h : u ≠ w) :
    u.initial ∉ (({} : Vocabulary).name w).toList := by
  cases u <;> cases w <;> first | contradiction | decide

namespace Job.Clears

/-- The text of a bare hint that names another placeholder lacks the letter. -/
theorem notMem_hint (hj : j.Clears u barred) {a : Stencil.TypeArgs} {w : Placeholder}
    {t : Stencil.TypeExpr} (ha : a.reads (.ofSource j.source receiver) p q)
    (hq : q ≤ j.source.code.size) (hbare : j.source.isBare a.extent = true)
    (hhint : j.hinted? a = some (w, t)) (hw : u ≠ w) : u.initial ∉ (j.sourceText t.extent).toList := by
  have hs := hj.indexed
  obtain ⟨hentries, name, hsegments, hplaceholder⟩ := hinted?_eq_some hhint
  rw [hj.vocabulary] at hplaceholder
  obtain ⟨entries, extent⟩ := a
  obtain rfl : entries = [.type t] := hentries
  obtain ⟨⟨m, ⟨m₁, ⟨-, rfl⟩, m₂, ⟨m₃, hlead, ht⟩, hrest⟩, -, rfl⟩, rfl⟩ := ha
  obtain rfl := empty_iff.1 hlead
  obtain rfl := empty_iff.1 hrest
  have hm := (TypeExpr.reads _ t).le ht
  -- the tokens of the hint are those from the opening bracket to the closing one
  have hinside (i : Nat) (hi : j.source.index p ≤ i) (hstop : i ≤ j.source.index m₂)
      (hsize : i < j.source.tokens.size) := isBare_iff.1 hbare i hi (by
    simp only [Source.range, if_pos (show p < m₂ + 1 by omega), Nat.add_sub_cancel]
    omega) hsize
  obtain ⟨hextent, hfirst, hlt, hbrackets⟩ := reads_single ht (by omega) hsegments fun x hpx hx =>
    (hinside _ (hs.index_le_index (by omega)) (hs.index_le_index (by omega))
      (hs.index_lt_size (by omega))).1
  have hpstart := hs.index_lt_index (show p < p + 1 by omega) (by omega)
  have hlast := hs.index_lt_index (show m₂ - 1 < m₂ by omega) (by omega)
  refine notMem_sourceText fun i hstart hstop hi => ?_
  rw [hextent] at hstart hstop
  simp only [Source.range, if_pos hlt] at hstart hstop
  by_cases hcode : (j.source.tokenAt i).isCode = true
  · obtain ⟨x, hx, rfl⟩ := hs.exists_index_eq hi hcode
    have hpx : p + 1 ≤ x := by
      refine Nat.le_of_not_lt fun h => ?_
      have := hs.index_lt_index h hx
      omega
    have hxm : x < m₂ := by
      refine Nat.lt_of_not_le fun h => ?_
      have := hs.index_le_index h
      omega
    by_cases hxp : x = p + 1
    · subst hxp
      have htext : (j.source.tokenAt (j.source.index (p + 1))).text = ({} : Vocabulary).name w :=
        hfirst.trans (Vocabulary.name_of_placeholder? hplaceholder).symm
      rw [htext]
      exact initial_notMem_name hw
    · refine hj.initial _ hi ?_
      obtain h | h := hbrackets x (by omega) hxm <;> rw [Source.codeToken] at h <;> rw [h] <;> rfl
  · have hcomment := (hinside i (by omega) (by omega) hi).2
    refine hj.initial i hi ?_
    revert hcode hcomment
    rw [Token.isCode]
    cases (j.source.tokenAt i).kind <;> simp [Kind.isCode, Kind.isFree, Kind.channel]

/-- What a call with a bare hint is about does not bring the placeholder in. -/
theorem lacksVariable (hj : j.Clears u barred) {hint : Option Stencil.TypeArgs} {target : Target}
    (hreads : TypeArgs.reads? (.ofSource j.source receiver) hint p q) (hq : q ≤ j.source.code.size)
    (hbare : ∀ a ∈ hint, j.source.isBare a.extent = true) (h : j.target hint = .ok target) :
    Operation.LacksVariable u target := by
  intro hg
  obtain ⟨t, ht, hprimitive⟩ := Binding.exists_of_isPrimitive hj.primitive
  cases hint with
  | none =>
    simp only [Job.target] at h
    split at h
    · cases h
      rw [hj.vocabulary]
      cases u with
      | primary =>
        cases ht
        rw [hg] at hprimitive
        contradiction
      | secondary => exact initial_notMem_name (w := .primary) (by decide)
    · contradiction
  | some a =>
    simp only [Job.target] at h
    split at h
    · contradiction
    · rename_i w t' hhint
      split at h
      · contradiction
      · rename_i type htype
        cases h
        refine hj.notMem_hint hreads hq (hbare a rfl) hhint ?_
        rintro rfl
        rw [ht] at htype
        cases htype
        rw [hg] at hprimitive
        contradiction

theorem isFree_put (hj : j.Clears u barred) {text : String} (h : u.initial ∉ text.toList) :
    (Chunk.put text).IsFree j u barred := by
  simp only [Chunk.IsFree, hj.vocabulary]
  exact not_mentions_of_initial h

theorem isFree_wrapped (hj : j.Clears u barred) {o : ChunkedOperand}
    (h : ∀ x ∈ o.chunks, x.IsFree j u barred) : ∀ x ∈ o.wrapped, x.IsFree j u barred := by
  unfold ChunkedOperand.wrapped
  split
  · exact h
  · intro x hx
    simp only [List.mem_cons, List.mem_append, List.not_mem_nil, or_false] at hx
    rcases hx with rfl | hx | rfl
    · exact hj.isFree_put (by cases u <;> decide)
    · exact h x hx
    · exact hj.isFree_put (by cases u <;> decide)

theorem isFree_angleChunks (hj : j.Clears u barred) {es : List (List Chunk)}
    (h : ∀ e ∈ es, ∀ x ∈ e, x.IsFree j u barred) : ∀ x ∈ angleChunks es, x.IsFree j u barred := by
  unfold angleChunks
  split
  · simp
  · intro x hx
    simp only [List.mem_cons, List.mem_append, List.not_mem_nil, or_false] at hx
    rcases hx with rfl | hx | rfl
    · exact hj.isFree_put (by cases u <;> decide)
    · rcases mem_intercalate hx with rfl | ⟨e, he, hx⟩
      · exact hj.isFree_put (by cases u <;> decide)
      · exact h e he x hx
    · exact hj.isFree_put (by cases u <;> decide)

/-- What a call puts in is free if its arguments are. -/
theorem isFree_callChunks (hj : j.Clears u barred) {c : IntrinsicCall} {args : List ChunkedOperand}
    (hreads : TypeArgs.reads? (.ofSource j.source receiver) c.hint p q)
    (hq : q ≤ j.source.code.size) (hbare : ∀ a ∈ c.hint, j.source.isBare a.extent = true)
    (hargs : ∀ a ∈ args, ∀ x ∈ a.chunks, x.IsFree j u barred) :
    ∀ x ∈ j.callChunks c args, x.IsFree j u barred := by
  intro x hx
  simp only [Job.callChunks] at hx
  split at hx
  · rename_i target o htarget ho
    split at hx
    · rename_i pattern hpattern
      have hlacks := hj.lacksVariable hreads hq hbare htarget
      rw [hj.vocabulary] at hpattern
      have hall := List.all_eq_true.1 (Operation.lacks_pattern hlacks hpattern)
      obtain ⟨f, hf, hx⟩ := List.mem_flatMap.1 hx
      cases f with
      | fixed text =>
        obtain rfl := List.mem_singleton.1 hx
        exact hj.isFree_put (by simpa [Fragment.lacks] using hall _ hf)
      | plain i =>
        cases ha : args[i]? with
        | none => simp [Fragment.chunks, ha] at hx
        | some a =>
          rw [Fragment.chunks, ha] at hx
          exact hargs a (List.mem_of_getElem? ha) x hx
      | beside i =>
        cases ha : args[i]? with
        | none => simp [Fragment.chunks, ha] at hx
        | some a =>
          rw [Fragment.chunks, ha] at hx
          exact isFree_wrapped hj (hargs a (List.mem_of_getElem? ha)) x hx
    · contradiction
  · contradiction

end Job.Clears

end Rewrite

end Stencil
