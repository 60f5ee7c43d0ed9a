import Stencil.Proofs.Rewrite.Gaps
import Stencil.Proofs.Rewrite.Settled
import Stencil.Proofs.Rewrite.TypeTree

/-!
# Stretches that are written anew

The invariant of the walk over a stretch of code: the stretch is written as certain tokens, if the
patches of the walk are put in and all else is copied. It says so of the text from the first code token
of the stretch to the last one. What is between two stretches is a gap, so the invariant holds of both
of them one after the other.

Results: the invariant holds of stretches one after the other (`Writes.append`), of copied symbols
(`Writes.of_symbols`) and of a patch over the whole stretch (`Writes.of_patch`).
-/

namespace Stencil.Rewrite

open Stretch

/-! ## Chunks of stretches one after the other -/

namespace Ordered

variable {start mid stop : Nat} {px py : List Patch}

theorem nil : Ordered start stop [] :=
  ⟨by simp, .nil, by simp, by simp⟩

theorem eq_nil (h : Ordered stop stop px) : px = [] := by
  refine List.eq_nil_iff_forall_not_mem.2 fun y hy => ?_
  have := h.start_lt y hy
  have := h.start_le y hy
  have := h.stop_le y hy
  omega

theorem append (hx : Ordered start mid px) (hy : Ordered mid stop py) (hstart : start ≤ mid)
    (hstop : mid ≤ stop) : Ordered start stop (px ++ py) := by
  refine ⟨?_, List.pairwise_append.2 ⟨hx.pairwise, hy.pairwise, fun x hxm y hym => ?_⟩, ?_, ?_⟩
  · exact List.forall_mem_append.2 ⟨hx.start_lt, hy.start_lt⟩
  · exact Nat.le_trans (hx.stop_le x hxm) (hy.start_le y hym)
  · exact List.forall_mem_append.2 ⟨hx.start_le, fun y h => Nat.le_trans hstart (hy.start_le y h)⟩
  · exact List.forall_mem_append.2 ⟨fun y h => Nat.le_trans (hx.stop_le y h) hstop, hy.stop_le⟩

theorem lead (h : Ordered mid stop px) (hstart : start ≤ mid) : Ordered start stop px :=
  ⟨h.start_lt, h.pairwise, fun y hy => Nat.le_trans hstart (h.start_le y hy), h.stop_le⟩

end Ordered

namespace Job

variable {j : Job} {start mid stop : Nat} {px py : List Patch}

theorem pieced_lead (h : Ordered mid stop px) (hstart : start ≤ mid) (hstop : mid ≤ stop) :
    j.pieced stop start px = j.copies ⟨start, mid⟩ ++ j.pieced stop mid px := by
  cases px with
  | nil => exact copies_append hstart hstop
  | cons x px =>
    rw [pieced, pieced, copies_append hstart (h.start_le x List.mem_cons_self)]
    simp only [List.append_assoc]

theorem pieced_append (hx : Ordered start mid px) (hy : Ordered mid stop py) (hstart : start ≤ mid)
    (hstop : mid ≤ stop) :
    j.pieced stop start (px ++ py) = j.pieced mid start px ++ j.pieced stop mid py := by
  induction px generalizing start with
  | nil => exact pieced_lead hy hstart hstop
  | cons x px ih =>
    have hrest : Ordered x.range.stop mid px := by
      obtain ⟨hlt, hp, -, hle⟩ := hx
      rw [List.pairwise_cons] at hp
      rw [List.forall_mem_cons] at hlt hle
      exact ⟨hlt.2, hp.2, hp.1, hle.2⟩
    rw [List.cons_append, pieced, pieced, ih hrest (hx.stop_le x List.mem_cons_self)]
    simp only [List.append_assoc]

end Job

/-! ## The invariant -/

/-- Is the stretch of code from one position up to another written as the tokens, if the patches are
put in? -/
structure Writes (j : Job) (p q : Nat) (patches : List Patch) (xs : List Lexeme) : Prop where
  le : p ≤ q
  ordered : Ordered (j.source.index p) (j.source.range ⟨p, q⟩).stop patches
  tokens : ∀ x ∈ xs, x.IsOfType
  strewn : Strewn xs (j.chunksText (j.rendered ⟨p, q⟩ patches)).toList

/-- A template that has been read: what its tokens are found in, and the names that it is written with
are such that comments stay comments. -/
structure Job.IsReady (j : Job) (text : String) : Prop where
  source : j.source = .ofString text
  problems : j.source.problems = []
  names : ∀ p, IsInner (j.vocabulary.name p).toList

theorem Job.IsReady.indexed {j : Job} {text : String} (hj : j.IsReady text) : j.source.Indexed := by
  rw [hj.source]
  exact Source.indexed_ofString text

namespace Writes

variable {j : Job} {text : String} {p m q : Nat} {px py : List Patch} {xs ys : List Lexeme}

theorem rendered_eq (hpq : p < q) (px : List Patch) :
    j.rendered ⟨p, q⟩ px = j.pieced (j.source.index (q - 1) + 1) (j.source.index p) px := by
  simp [Job.rendered, Source.range, hpq]

theorem rendered_self : j.rendered ⟨p, p⟩ [] = [] := by
  simp [Job.rendered, Source.range, Job.pieced, Job.copies_self]

theorem eq_nil (h : Writes j p p px xs) : px = [] ∧ xs = [] := by
  obtain ⟨-, hordered, htokens, w, hw, hwritten⟩ := h
  have hrange : (j.source.range ⟨p, p⟩).stop = j.source.index p := by simp [Source.range]
  rw [hrange] at hordered
  obtain rfl := hordered.eq_nil
  rw [rendered_self] at hwritten
  exact ⟨rfl, hwritten.eq_nil htokens⟩

/-- Two stretches meet at a gap. It can be empty only where the first one ends with no word, or the
other one begins with none. -/
theorem append (hj : j.IsReady text) (hq : q ≤ j.source.code.size) (hx : Writes j p m px xs)
    (hy : Writes j m q py ys)
    (h : IsShut xs ∨ IsOpen ys ∨ j.source.index (m - 1) + 1 < j.source.index m) :
    Writes j p q (px ++ py) (xs ++ ys) := by
  rcases Nat.eq_or_lt_of_le hx.le with rfl | hpm
  · obtain ⟨rfl, rfl⟩ := hx.eq_nil
    exact hy
  rcases Nat.eq_or_lt_of_le hy.le with rfl | hmq
  · obtain ⟨rfl, rfl⟩ := hy.eq_nil
    rw [List.append_nil, List.append_nil]
    exact hx
  have hlt := hj.indexed.index_lt_index (show m - 1 < m by omega) (by omega)
  have hle := hj.indexed.index_le_index (show m ≤ q - 1 by omega)
  have hstart := hj.indexed.index_le_index (show p ≤ m - 1 by omega)
  have hgap : Gap (j.chunksText (j.copies ⟨j.source.index (m - 1) + 1, j.source.index m⟩)).toList := by
    have hbetween := Job.gap_copies (p := m - 1) (i := j.source.index (m - 1) + 1) hj.names hj.source
      hj.problems hj.indexed (by omega) (Nat.lt_succ_self _)
    rw [Nat.sub_add_cancel (by omega)] at hbetween
    exact hbetween hlt
  have hox := hx.ordered
  have hoy := hy.ordered
  simp only [Source.range, if_pos hpm, if_pos hmq] at hox hoy
  have hlead := hoy.lead hlt
  refine ⟨Nat.le_trans hx.le hy.le, ?_, List.forall_mem_append.2 ⟨hx.tokens, hy.tokens⟩, ?_⟩
  · simp only [Source.range, if_pos (Nat.lt_trans hpm hmq)]
    exact hox.append hlead (by omega) (by omega)
  · have hsx := hx.strewn
    have hsy := hy.strewn
    rw [rendered_eq hpm] at hsx
    rw [rendered_eq hmq] at hsy
    rw [rendered_eq (Nat.lt_trans hpm hmq), Job.pieced_append hox hlead (by omega) (by omega),
      Job.pieced_lead hoy hlt (by omega), Job.chunksText_append, Job.chunksText_append,
      String.toList_append, String.toList_append]
    refine hsx.append (hsy.behind hgap) hx.tokens (h.imp_right fun h => ?_)
    rcases h with hopen | hwide
    · exact hgap.isLoose.append (hsy.isLoose hy.tokens hopen)
    · have hm := hj.indexed.index_lt_size (show m < j.source.code.size by omega)
      exact hgap.isLoose.append_of_ne_nil
        (Job.toList_copies_ne_nil hj.names hj.source hj.problems (by omega) hwide)

theorem nil (hp : p ≤ q) (hpq : q ≤ p) : Writes j p q [] [] := by
  obtain rfl := Nat.le_antisymm hp hpq
  refine ⟨hp, .nil, by simp, ?_⟩
  rw [rendered_self]
  exact .of_gap .nil

/-- A token that is copied. -/
theorem of_token (hj : j.IsReady text) {x : Lexeme} (hp : p < j.source.code.size)
    (htext : (j.source.codeToken p).text = x.text) (hx : x.IsOfType) : Writes j p (p + 1) [] [x] := by
  refine ⟨Nat.le_succ p, .nil, by simpa using hx, ?_⟩
  have hcode : ((j.source.codeToken p).kind.channel == .code) = true :=
    hj.indexed.isCode_tokenAt_index hp
  have hchunk : j.chunkText (.copied (j.source.index p)) = x.text := by
    rw [Job.chunkText, tokenText, ← Source.codeToken, eq_of_beq hcode, htext]
  have hcopies : j.copies ⟨j.source.index p, j.source.index p + 1⟩ = [.copied (j.source.index p)] := by
    rw [Job.copies_cons (Nat.lt_succ_self _) (hj.indexed.index_lt_size hp), Job.copies_self]
  rw [rendered_eq (show p < p + 1 by omega), Nat.add_sub_cancel, Job.pieced, hcopies, Job.chunksText_cons, hchunk]
  simpa using Strewn.token x

/-- A patch over the whole stretch. -/
theorem of_patch (hj : j.IsReady text) (hpq : p < q) {cs : List Chunk}
    (hx : ∀ x ∈ xs, x.IsOfType) (h : Strewn xs (j.chunksText cs).toList) :
    Writes j p q [⟨j.source.range ⟨p, q⟩, cs⟩] xs := by
  have hle := hj.indexed.index_le_index (show p ≤ q - 1 by omega)
  refine ⟨Nat.le_of_lt hpq, ⟨?_, List.pairwise_singleton _ _, ?_, ?_⟩, hx, ?_⟩
  · simp only [List.forall_mem_singleton, Source.range, if_pos hpq]
    omega
  · simp [Source.range]
  · simp
  · rw [rendered_eq hpq]
    simp only [Job.pieced, Source.range, if_pos hpq, Job.copies_self, List.nil_append, List.append_nil]
    exact h

/-! ## Tokens of the script -/

section

variable {receiver : String}

theorem exists_codeToken {x : Lexeme} (h : (Script.ofSource j.source receiver).words[p]? = some x) :
    p < j.source.code.size ∧ (j.source.codeToken p).toLexeme = x := by
  obtain ⟨hp, hx⟩ := Array.getElem?_eq_some_iff.1 h
  have hsize : p < j.source.code.size := by
    rwa [Script.size_words] at hp
  have hword : (Script.ofSource j.source receiver).word p = (j.source.codeToken p).toLexeme :=
    Source.word_ofSource hsize
  refine ⟨hsize, ?_⟩
  rw [← hword, ← hx]
  simp [Script.word_eq, hp]

theorem of_verbatim {x : Lexeme} (hj : j.IsReady text)
    (h : verbatim (.ofSource j.source receiver) [x] p q) (hx : x.IsOfType) : Writes j p q [] [x] := by
  obtain ⟨hword, hend⟩ := verbatim_cons.1 h
  obtain rfl := empty_iff.1 hend
  obtain ⟨hp, rfl⟩ := exists_codeToken hword
  exact of_token hj hp rfl hx

/-- Symbols can stand next to each other. -/
theorem of_symbols (hj : j.IsReady text) (hq : q ≤ j.source.code.size)
    (h : verbatim (.ofSource j.source receiver) xs p q)
    (hx : ∀ x ∈ xs, x.kind ∈ Kind.typeSymbols ∧ x.IsOfType) : Writes j p q [] xs := by
  induction xs generalizing p with
  | nil =>
    obtain rfl := empty_iff.1 h
    exact .nil (Nat.le_refl p) (Nat.le_refl p)
  | cons x xs ih =>
    rw [List.forall_mem_cons] at hx
    have h' : verbatim (.ofSource j.source receiver) ([x] ++ xs) p q := h
    obtain ⟨m, hone, hrest⟩ := verbatim_append.1 h'
    refine (of_verbatim hj hone hx.1.2).append hj hq (ih hrest hx.2) (.inl ?_)
    rintro _ ⟨⟩
    exact Lexeme.not_isWord_of_typeSymbols hx.1.1

/-- The token of a name, with another name put in if it changes. -/
theorem of_nameOf (hj : j.IsReady text) {i : Ident} (h : nameOf (.ofSource j.source receiver) i p q)
    {name? : Option String} (hname : IsWordText (name?.getD i.name)) :
    Writes j p q (j.renamedPatch i name?) [Lexeme.asRead ⟨.identifier, name?.getD i.name⟩] := by
  obtain ⟨hphrase, -, htext⟩ := asRead_name hname
  obtain ⟨hkind, rfl, rfl⟩ := h
  have hne : (Script.ofSource j.source receiver).kind p ≠ .eof := hkind ▸ by decide
  have hp := Source.lt_size_of_kind_ne hne
  cases name? with
  | none =>
    refine of_token hj hp ?_ (hphrase.tokens _ List.mem_cons_self)
    rw [htext, Option.getD_none, Source.word_ofSource hp]
  | some name =>
    have hsingle : j.source.single p = j.source.range ⟨p, p + 1⟩ := by
      simp [Source.single, Source.range, TokenRange.single]
    rw [Job.renamedPatch, hsingle]
    refine of_patch hj (Nat.lt_succ_self p) hphrase.tokens ?_
    have hwritten := Strewn.token (Lexeme.asRead ⟨.identifier, name⟩)
    rw [show (Lexeme.asRead ⟨.identifier, name⟩).text = name from htext] at hwritten
    simpa [Job.chunkText] using hwritten

/-- Between two words there is a gap. -/
theorem index_add_one_lt_of_words (hj : j.IsReady text) {x y : Lexeme}
    (hx : (Script.ofSource j.source receiver).words[p]? = some x)
    (hy : (Script.ofSource j.source receiver).words[p + 1]? = some y) (hxword : x.isWord = true)
    (hyword : y.isWord = true) : j.source.index (p + 1 - 1) + 1 < j.source.index (p + 1) := by
  obtain ⟨-, rfl⟩ := exists_codeToken hx
  obtain ⟨hp, rfl⟩ := exists_codeToken hy
  exact Job.index_add_one_lt hj.source hj.problems hj.indexed hp hxword hyword

end

end Writes

end Stencil.Rewrite
