import Stencil.Proofs.Grammar.Blind
import Stencil.Proofs.Grammar.Placed
import Stencil.Proofs.Token.Joined

/-!
# Blanks and comments do not matter to the grammar

Two texts with the same code may have any blanks and comments between the code tokens. The first code
token of one text then corresponds to the first of the other, the second to the second, and so on. The
rules have all tokens at hand, but none of them sees more than the code (`Grammar.IsRule.blind_complete`).
A tree says where its nodes stand by counting code tokens, so the two texts have one and the same tree, and
the indices, ranges and spans of its nodes in one text are those in the other under the correspondence.

Results: corresponding tokens have the same kind and text and come in the same order
(`Source.Indexed.corresponds`), the nodes of a tree stand at corresponding tokens (`Node.moved_placed`),
and a text is read as any other with the same code is (`ParsedFile.ofString_alike`).
-/

namespace Stencil

/-! ## Corresponding tokens -/

namespace Source

/-- The number of code tokens in front of an index of the stream. -/
def position (s : Source) (i : Nat) : Nat :=
  s.code.toList.countP (· < i)

/-- The index in another source of the code token with the same number of code tokens in front. -/
def counterpart (s t : Source) (i : Nat) : Nat :=
  t.index (s.position i)

/-- The range between the counterparts of the first and the last token of a range. -/
def movedRange (s t : Source) (r : TokenRange) : TokenRange :=
  ⟨s.counterpart t r.start,
    if r.start < r.stop then s.counterpart t (r.stop - 1) + 1 else s.counterpart t r.start⟩

/-- Do counterparts put the code tokens of two sources in a correspondence that keeps kinds, texts and
the order, with the end of one text at the end of the other? -/
structure Corresponds (s t : Source) : Prop where
  same : ∀ i, s.IsCodeAt i → t.IsCodeAt (s.counterpart t i)
    ∧ (t.tokenAt (s.counterpart t i)).toLexeme = (s.tokenAt i).toLexeme
  lt : ∀ i k, s.IsCodeAt i → s.IsCodeAt k → i < k → s.counterpart t i < s.counterpart t k
  onto : ∀ k, t.IsCodeAt k → ∃ i, s.IsCodeAt i ∧ s.counterpart t i = k
  stop : s.counterpart t s.tokens.size = t.tokens.size

variable {s t : Source} {p : Nat}

/-- In an ascending list as many entries are below an entry as stand in front of it. -/
theorem countP_lt_getElem {l : List Nat} (h : l.Pairwise (· < ·)) (hp : p < l.length) :
    l.countP (· < l[p]) = p := by
  induction l generalizing p with
  | nil => contradiction
  | cons x l ih =>
    obtain ⟨hx, hl⟩ := List.pairwise_cons.1 h
    cases p with
    | zero =>
      refine List.countP_eq_zero.2 fun y hy => ?_
      rw [decide_eq_true_eq, List.getElem_cons_zero]
      rcases List.mem_cons.1 hy with rfl | hy
      · exact Nat.lt_irrefl y
      · exact Nat.lt_asymm (hx y hy)
    | succ p =>
      have hp : p < l.length := Nat.lt_of_succ_lt_succ hp
      have hlt : decide (x < l[p]) = true := decide_eq_true (hx _ (List.getElem_mem hp))
      simp only [List.getElem_cons_succ]
      rw [List.countP_cons, ih hl hp, if_pos hlt]

theorem Indexed.position_index (hs : s.Indexed) (hp : p < s.code.size) :
    s.position (s.index p) = p := by
  have hpairwise : s.code.toList.Pairwise (· < ·) := by
    rw [hs]
    exact pairwise_codeIndices 0 s.tokens.toList
  rw [position, index_of_lt hp, ← Array.getElem_toList]
  exact countP_lt_getElem hpairwise hp

theorem Indexed.position_size (hs : s.Indexed) : s.position s.tokens.size = s.code.size := by
  rw [position, ← Array.length_toList]
  refine List.countP_eq_length.2 fun i hi => ?_
  exact decide_eq_true (hs.mem_code.1 (Array.mem_toList_iff.1 hi)).1

/-- The counterpart of a code token stands at the same position. -/
theorem Indexed.counterpart_index (hs : s.Indexed) (hsize : s.code.size = t.code.size) (p : Nat) :
    s.counterpart t (s.index p) = t.index p := by
  rw [counterpart]
  by_cases hp : p < s.code.size
  · rw [hs.position_index hp]
  · have hp := Nat.le_of_not_lt hp
    rw [index_of_size_le hp, hs.position_size, index_of_size_le (Nat.le_of_eq hsize.symm),
      index_of_size_le (hsize ▸ hp)]

theorem Indexed.movedRange_range (hs : s.Indexed) (hsize : s.code.size = t.code.size) (e : Extent) :
    s.movedRange t (s.range e) = t.range e := by
  obtain ⟨p, q⟩ := e
  by_cases hpq : p < q
  · have hle : s.index p ≤ s.index (q - 1) := hs.index_le_index (by omega)
    simp only [movedRange, range_of_lt hpq, if_pos (Nat.lt_succ_of_le hle), Nat.add_sub_cancel,
      hs.counterpart_index hsize]
  · simp only [movedRange, range, if_neg hpq, Nat.lt_irrefl, if_false, hs.counterpart_index hsize]

/-! ## The code of a text -/

theorem map_codeIndices {α : Type} (f : Nat → α) (g : Token → α) {n : Nat} {ts : List Token}
    (h : ∀ i (hi : i < ts.length), f (n + i) = g ts[i]) :
    (codeIndices n ts).map f = (ts.filter Token.isCode).map g := by
  induction ts generalizing n with
  | nil => rfl
  | cons k ts ih =>
    have hk : f n = g k := h 0 (Nat.succ_pos _)
    have hrest := ih (n := n + 1) fun i hi => by
      rw [Nat.add_right_comm]
      exact h (i + 1) (Nat.succ_lt_succ hi)
    rw [codeIndices, List.filter_cons]
    split
    · rw [List.map_cons, List.map_cons, hrest, hk]
    · exact hrest

/-- What the grammar sees of a text is its code. -/
theorem toList_words_ofString (text : String) :
    (ofString text).words.toList = lexemes Kind.isCode text := by
  rw [words, Array.toList_map, indexed_ofString text, lexemes, List.filter_map]
  refine map_codeIndices _ _ fun i hi => ?_
  rw [Nat.zero_add, tokenAt_of_lt hi]
  rfl

theorem size_words (s : Source) : s.words.size = s.code.size :=
  Array.size_map ..

/-- The same code leads to corresponding tokens. -/
theorem Indexed.corresponds (hs : s.Indexed) (ht : t.Indexed) (h : s.words = t.words) :
    s.Corresponds t := by
  have hsize : s.code.size = t.code.size := by rw [← size_words, ← size_words, h]
  have hlexeme {p : Nat} (hp : p < s.code.size) :
      (t.tokenAt (t.index p)).toLexeme = (s.tokenAt (s.index p)).toLexeme := by
    have hsame : (Script.ofSource s "").SameCode (.ofSource t "") := ⟨h, rfl⟩
    have hword := hsame.word p
    rw [word_ofSource hp, word_ofSource (hsize ▸ hp)] at hword
    exact hword.symm
  refine ⟨fun i hi => ?_, fun i k hi hk hik => ?_, fun k hk => ?_, ?_⟩
  · obtain ⟨p, hp, rfl⟩ := hs.exists_index_eq hi.1 hi.2
    rw [hs.counterpart_index hsize]
    exact ⟨ht.isCodeAt_index (hsize ▸ hp), hlexeme hp⟩
  · obtain ⟨p, hp, rfl⟩ := hs.exists_index_eq hi.1 hi.2
    obtain ⟨q, hq, rfl⟩ := hs.exists_index_eq hk.1 hk.2
    have hpq : p < q := Nat.lt_of_not_le fun hqp => Nat.not_lt.2 (hs.index_le_index hqp) hik
    rw [hs.counterpart_index hsize, hs.counterpart_index hsize]
    exact ht.index_lt_index hpq (hsize ▸ hp)
  · obtain ⟨p, hp, rfl⟩ := ht.exists_index_eq hk.1 hk.2
    exact ⟨s.index p, hs.isCodeAt_index (hsize ▸ hp), hs.counterpart_index hsize p⟩
  · rw [← index_of_size_le (Nat.le_refl s.code.size), hs.counterpart_index hsize,
      index_of_size_le (Nat.le_of_eq hsize.symm)]

end Source

/-! ## Trees -/

/-- A node with its places in the stream of tokens. -/
inductive PlacedNode where
  /-- A name, with the index and the span of its token. -/
  | name (text : String) (index : Nat) (span : Span)
  /-- A token without further meaning. -/
  | token (index : Nat)
  /-- A node that covers the tokens of a range, with the nodes directly below it. -/
  | phrase (range : TokenRange) (below : List PlacedNode)

mutual

/-- The node with its places in a source. -/
def Node.placed (s : Source) : Node → PlacedNode
  | .name i => .name i.name (s.index i.position) (s.spanAt i.position)
  | .token position => .token (s.index position)
  | .phrase extent below => .phrase (s.range extent) (Node.placedAll s below)
  | .expr extent below => .phrase (s.range extent) (Node.placedAll s below)

/-- The nodes with their places in a source. -/
def Node.placedAll (s : Source) : List Node → List PlacedNode
  | [] => []
  | n :: rest => n.placed s :: Node.placedAll s rest

end

mutual

/-- The node at the corresponding places of another source. -/
def PlacedNode.moved (s t : Source) : PlacedNode → PlacedNode
  | .name text index _ =>
    .name text (s.counterpart t index) (t.tokenAt (s.counterpart t index)).span
  | .token index => .token (s.counterpart t index)
  | .phrase range below => .phrase (s.movedRange t range) (PlacedNode.movedAll s t below)

/-- The nodes at the corresponding places of another source. -/
def PlacedNode.movedAll (s t : Source) : List PlacedNode → List PlacedNode
  | [] => []
  | n :: rest => n.moved s t :: PlacedNode.movedAll s t rest

end

section Moved

variable {s t : Source}

mutual

/-- The places of a node correspond to those of the same node in another source. -/
theorem Node.moved_placed (hs : s.Indexed) (hsize : s.code.size = t.code.size) : ∀ n : Node,
    (n.placed s).moved s t = n.placed t
  | .name i => by
    simp only [placed, PlacedNode.moved, hs.counterpart_index hsize]
    rfl
  | .token position => by
    simp only [placed, PlacedNode.moved, hs.counterpart_index hsize]
  | .phrase extent below => by
    simp only [placed, PlacedNode.moved, hs.movedRange_range hsize,
      Node.movedAll_placedAll hs hsize below]
  | .expr extent below => by
    simp only [placed, PlacedNode.moved, hs.movedRange_range hsize,
      Node.movedAll_placedAll hs hsize below]

theorem Node.movedAll_placedAll (hs : s.Indexed) (hsize : s.code.size = t.code.size) :
    ∀ ns : List Node, PlacedNode.movedAll s t (Node.placedAll s ns) = Node.placedAll t ns
  | [] => rfl
  | n :: rest => by
    simp only [placedAll, PlacedNode.movedAll, Node.moved_placed hs hsize n,
      Node.movedAll_placedAll hs hsize rest]

end

end Moved

/-! ## Files -/

namespace ParsedFile

/-- The nodes of the file with their places in its text. -/
def placed (f : ParsedFile) : List PlacedNode :=
  Node.placedAll f.source f.tree.nodes

/-- Is the second outcome of reading a text the first one at the corresponding places? Trees are the
same but for their places, and mistakes are of the same sort and at corresponding tokens. -/
def Alike (s t : Source) :
    Except (List Diagnostic) ParsedFile → Except (List Diagnostic) ParsedFile → Prop
  | .ok f, .ok g => g.tree = f.tree ∧ g.placed = PlacedNode.movedAll s t f.placed
  | .error ds, .error es => ∃ d e i, ds = [d] ∧ es = [e] ∧ e.fault = d.fault
    ∧ (s.IsCodeAt i ∨ i = s.tokens.size)
    ∧ d.span = (s.tokenAt i).span ∧ e.span = (t.tokenAt (s.counterpart t i)).span
  | _, _ => False

section Alike

variable {s t : Source} {x y : Except (List Diagnostic) ParsedFile}

theorem exists_ok_of_alike {f : ParsedFile} (h : s.Corresponds t ∧ Alike s t x y) (hx : x = .ok f) :
    ∃ g, y = .ok g ∧ g.tree = f.tree ∧ g.placed = PlacedNode.movedAll s t f.placed := by
  obtain ⟨-, h⟩ := h
  subst hx
  cases y with
  | ok g => exact ⟨g, rfl, h.1, h.2⟩
  | error es => exact h.elim

theorem exists_error_of_alike {ds : List Diagnostic} (h : s.Corresponds t ∧ Alike s t x y)
    (hx : x = .error ds) : ∃ d e, ds = [d] ∧ y = .error [e] ∧ e.fault = d.fault := by
  obtain ⟨-, h⟩ := h
  subst hx
  cases y with
  | ok g => exact h.elim
  | error es =>
    obtain ⟨d, e, _, rfl, rfl, hfault, -⟩ := h
    exact ⟨d, e, rfl, rfl, hfault⟩

theorem exists_error_of_spans (spans : List Span)
    (h : (match x with
      | .ok _ => false
      | .error ds => ds.map (·.span) == spans) = true) :
    ∃ ds, x = .error ds ∧ ds.map (·.span) = spans := by
  cases x with
  | ok f => contradiction
  | error ds => exact ⟨ds, rfl, beq_iff_eq.1 h⟩

end Alike

/-- A text without flaws is read by running the grammar over its code. -/
theorem ofString_of_problems {text : String} (h : (Source.ofString text).problems = [])
    (intrinsics : String) : ofString text intrinsics
      = match (Grammar.complete Grammar.compilationUnit).run
          (.ofSource (Source.ofString text) intrinsics) 0 with
        | .ok tree _ => .ok ⟨Source.ofString text, tree⟩
        | .error m p => .error [m.diagnostic (Source.ofString text) p] := by
  have hempty : (Source.ofString text).problems.isEmpty = true := List.isEmpty_iff.2 h
  exact if_pos hempty

/-- The sort of a mistake does not depend on the text, and the mistake is at the token at which it is
made. -/
theorem fault_diagnostic (s t : Source) (p : Nat) (m : Mistake) :
    (m.diagnostic s p).fault = (m.diagnostic t p).fault ∧ (m.diagnostic s p).span = s.spanAt p := by
  cases m <;> exact ⟨rfl, rfl⟩

/-- Texts with the same code are read alike, whatever blanks and comments stand between the code
tokens: either both are files, with trees that are equal under the correspondence of code tokens, or
reading both of them ends with the same mistake at corresponding tokens. -/
theorem ofString_alike (text other : String) (h : (Source.ofString text).problems = [])
    (hother : (Source.ofString other).problems = [])
    (hcode : lexemes Kind.isCode text = lexemes Kind.isCode other) (intrinsics : String) :
    (Source.ofString text).Corresponds (.ofString other)
      ∧ Alike (.ofString text) (.ofString other) (ofString text intrinsics)
        (ofString other intrinsics) := by
  have hs := Source.indexed_ofString text
  have ht := Source.indexed_ofString other
  have hwords : (Source.ofString text).words = (Source.ofString other).words := by
    apply Array.toList_inj.1
    rw [Source.toList_words_ofString, Source.toList_words_ofString, hcode]
  have hsize : (Source.ofString text).code.size = (Source.ofString other).code.size := by
    rw [← Source.size_words, ← Source.size_words, hwords]
  have hsame : (Script.ofSource (.ofString text) intrinsics).SameCode
      (.ofSource (.ofString other) intrinsics) := ⟨hwords, rfl⟩
  have hrun := Grammar.IsRule.compilationUnit.blind_complete.run_eq hsame 0
  refine ⟨hs.corresponds ht hwords, ?_⟩
  rw [ofString_of_problems h, ofString_of_problems hother, hrun]
  split
  · rename_i tree _ _
    exact ⟨rfl, (Node.movedAll_placedAll hs hsize tree.nodes).symm⟩
  · rename_i m p _
    obtain ⟨hfault, hspan⟩ := fault_diagnostic (Source.ofString other) (Source.ofString text) p m
    obtain ⟨-, hplace⟩ := fault_diagnostic (Source.ofString text) (Source.ofString other) p m
    refine ⟨_, _, (Source.ofString text).index p, rfl, rfl, hfault, ?_, hplace, ?_⟩
    · by_cases hp : p < (Source.ofString text).code.size
      · exact .inl (hs.isCodeAt_index hp)
      · exact .inr (Source.index_of_size_le (Nat.le_of_not_lt hp))
    · rw [hspan, hs.counterpart_index hsize]
      rfl

/-- The theorem at a file that is written with and without blanks and comments, and at one that ends
too early. -/
theorem ofString_alike_sample : ∃ f g d e,
    ofString "class A<T>\x7bint x;\x7d" "Intrinsics" = .ok f
    ∧ ofString "/* a */ class A <T> // b\n\x7b int x ; \x7d" "Intrinsics" = .ok g
    ∧ g.tree = f.tree
    ∧ g.placed = PlacedNode.movedAll (.ofString "class A<T>\x7bint x;\x7d")
      (.ofString "/* a */ class A <T> // b\n\x7b int x ; \x7d") f.placed
    ∧ ofString "class A\x7b" "Intrinsics" = .error [d]
    ∧ ofString "class /* a */ A \x7b // b" "Intrinsics" = .error [e]
    ∧ e.fault = d.fault ∧ d.span = ⟨1, 9, 0⟩ ∧ e.span = ⟨1, 23, 0⟩ := by
  obtain ⟨f, hf, -⟩ := exists_ok_of_sees (x := ofString "class A<T>\x7bint x;\x7d" "Intrinsics")
    (fun _ => true) (by decide +kernel)
  obtain ⟨ds, hds, hspan⟩ := exists_error_of_spans
    (x := ofString "class A\x7b" "Intrinsics") [⟨1, 9, 0⟩] (by decide +kernel)
  obtain ⟨es, hes, hspan'⟩ := exists_error_of_spans
    (x := ofString "class /* a */ A \x7b // b" "Intrinsics") [⟨1, 23, 0⟩] (by decide +kernel)
  have hfile := ofString_alike "class A<T>\x7bint x;\x7d"
    "/* a */ class A <T> // b\n\x7b int x ; \x7d" (by decide +kernel) (by decide +kernel)
    (by decide +kernel) "Intrinsics"
  have hmistake := ofString_alike "class A\x7b" "class /* a */ A \x7b // b" (by decide +kernel)
    (by decide +kernel) (by decide +kernel) "Intrinsics"
  obtain ⟨g, hg, htree, hplaced⟩ := exists_ok_of_alike hfile hf
  obtain ⟨d, e, rfl, he, hfault⟩ := exists_error_of_alike hmistake hds
  obtain rfl : es = [e] := Except.error.inj (hes.symm.trans he)
  exact ⟨f, g, d, e, hf, hg, htree, hplaced, hds, he, hfault, List.singleton_inj.1 hspan,
    List.singleton_inj.1 hspan'⟩

end ParsedFile

end Stencil
