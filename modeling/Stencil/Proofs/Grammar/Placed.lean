import Stencil.Proofs.Grammar.Node
import Stencil.Proofs.Token.Source

/-!
# Nodes in the stream of tokens

Extents count code tokens, and `Source.range` turns them into ranges of the whole stream, blanks and
comments included. What `Node.laid` says of extents is said here of ranges: a node begins with a code
token and ends directly behind one, and the nodes below it lie within it one after the other.

Results: nodes that are laid out by a script stand at their places in the source of the script
(`Node.standIn_of_laid`, `Node.standIn_of_laidAll`).
-/

namespace Stencil

/-! ## Places in a stream -/

namespace Source

/-- Is there a code token at the index? The end mark does not count as one. -/
def IsCodeAt (s : Source) (i : Nat) : Prop :=
  i < s.tokens.size ∧ (s.tokenAt i).isCode = true

/-- Does the range lie inside the stream, begin with a code token and end directly behind one? -/
structure Delimits (s : Source) (r : TokenRange) : Prop where
  nonempty : r.start < r.stop
  inside : s.whole.contains r = true
  first : s.IsCodeAt r.start
  last : s.IsCodeAt (r.stop - 1)

/-- Is the range empty, inside the stream, and in front of a code token or of the end mark? -/
structure Marks (s : Source) (r : TokenRange) : Prop where
  empty : r.stop = r.start
  inside : s.whole.contains r = true
  front : s.IsCodeAt r.start ∨ r.start = s.tokens.size

/-- Is the name that of the token at its index: a name, spelled the same, with the span of the
name? -/
def IsNamed (s : Source) (i : Ident) : Prop :=
  s.index i.position < s.tokens.size
    ∧ s.tokenAt (s.index i.position) = ⟨⟨.identifier, i.name⟩, s.spanAt i.position⟩

end Source

namespace Node

/-- The tokens of the node. -/
def range (s : Source) : Node → TokenRange
  | .name i => s.single i.position
  | .token position => s.single position
  | .phrase extent _ => s.range extent
  | .expr extent _ => s.range extent

/-- Do the nodes lie within the range, each behind the one before? -/
def Ordered (s : Source) (outer : TokenRange) (ns : List Node) : Prop :=
  (∀ n ∈ ns, outer.contains (n.range s) = true)
    ∧ ns.Pairwise fun n n' => (n.range s).stop ≤ (n'.range s).start

mutual

/-- Does the node stand at its place in the source, and all nodes below it? -/
def Stands (s : Source) : Node → Prop
  | .name i => s.IsNamed i
  | .token position => s.Delimits (s.single position)
  | .phrase extent below =>
    s.Delimits (s.range extent) ∧ Ordered s (s.range extent) below ∧ AllStand s below
  | .expr extent [] => s.Marks (s.range extent)
  | .expr extent (e :: rest) =>
    s.Delimits (s.range extent) ∧ Ordered s (s.range extent) (e :: rest) ∧ AllStand s (e :: rest)

/-- Does each of the nodes stand at its place? -/
def AllStand (s : Source) : List Node → Prop
  | [] => True
  | n :: rest => n.Stands s ∧ AllStand s rest

end

/-- Do the nodes stand within a range, each at its place and behind the one before? -/
def StandIn (s : Source) (outer : TokenRange) (ns : List Node) : Prop :=
  Ordered s outer ns ∧ AllStand s ns

end Node

/-! ## Ranges of extents -/

theorem TokenRange.contains_iff {r r' : TokenRange} :
    r.contains r' = true ↔ r.start ≤ r'.start ∧ r'.stop ≤ r.stop := by
  simp [contains]

namespace Source

variable {s : Source} {p q m n : Nat}

theorem range_of_lt (h : p < q) : s.range ⟨p, q⟩ = ⟨s.index p, s.index (q - 1) + 1⟩ := by
  simp [range, h]

theorem range_self : s.range ⟨p, p⟩ = ⟨s.index p, s.index p⟩ := by
  simp [range]

theorem range_succ : s.range ⟨p, p + 1⟩ = s.single p :=
  range_of_lt p.lt_succ_self

theorem Indexed.isCodeAt_index (hs : s.Indexed) (hp : p < s.code.size) :
    s.IsCodeAt (s.index p) :=
  ⟨hs.index_lt_size hp, hs.isCode_tokenAt_index hp⟩

theorem Indexed.delimits_range (hs : s.Indexed) (hpq : p < q) (hq : q ≤ s.code.size) :
    s.Delimits (s.range ⟨p, q⟩) := by
  have hle : s.index p ≤ s.index (q - 1) := hs.index_le_index (by omega)
  have hlast : s.index (q - 1) < s.tokens.size := hs.index_lt_size (by omega)
  rw [range_of_lt hpq]
  refine ⟨by simp only; omega, ?_, hs.isCodeAt_index (by omega), ?_⟩
  · exact TokenRange.contains_iff.2 ⟨Nat.zero_le _, Nat.le_succ_of_le hlast⟩
  · exact hs.isCodeAt_index (by omega)

theorem Indexed.marks_range (hs : s.Indexed) : s.Marks (s.range ⟨p, p⟩) := by
  rw [range_self]
  refine ⟨rfl, ?_, ?_⟩
  · exact TokenRange.contains_iff.2 ⟨Nat.zero_le _, Nat.le_succ_of_le hs.index_le_size⟩
  · by_cases hp : p < s.code.size
    · exact .inl (hs.isCodeAt_index hp)
    · exact .inr (index_of_size_le (by omega))

/-- An extent within another one has its range within the range of the other one. It may be empty,
but not at the end of the other one, where blanks could stand between the two. -/
theorem Indexed.contains_range (hs : s.Indexed) (hpm : p ≤ m) (hmn : m ≤ n) (hnq : n ≤ q)
    (hmq : m < q) : (s.range ⟨p, q⟩).contains (s.range ⟨m, n⟩) = true := by
  have hfirst : s.index p ≤ s.index m := hs.index_le_index hpm
  rw [range_of_lt (by omega), TokenRange.contains_iff]
  by_cases hempty : m < n
  · have hlast : s.index (n - 1) ≤ s.index (q - 1) := hs.index_le_index (by omega)
    rw [range_of_lt hempty]
    exact ⟨hfirst, Nat.succ_le_succ hlast⟩
  · obtain rfl : m = n := by omega
    have hlast : s.index m ≤ s.index (q - 1) := hs.index_le_index (by omega)
    rw [range_self]
    exact ⟨hfirst, Nat.le_succ_of_le hlast⟩

/-- The range of an extent ends in front of the range of a later one. -/
theorem Indexed.stop_range_le (hs : s.Indexed) (hpq : p ≤ q) (hqm : q ≤ m) (hq : q ≤ s.code.size) :
    (s.range ⟨p, q⟩).stop ≤ (s.range ⟨m, n⟩).start := by
  show (s.range ⟨p, q⟩).stop ≤ s.index m
  by_cases hempty : p < q
  · rw [range_of_lt hempty]
    exact hs.index_lt_index (by omega) (by omega)
  · obtain rfl : p = q := by omega
    rw [range_self]
    exact hs.index_le_index hqm

end Source

namespace Node

open Stretch

variable {s : Source} {receiver : String} {p m q : Nat} {n : Node} {ns : List Node}

theorem range_eq (n : Node) : n.range s = s.range n.extent := by
  cases n with
  | name i => exact Source.range_succ.symm
  | token position => exact Source.range_succ.symm
  | phrase extent below => rfl
  | expr extent below => rfl

/-! ## Positions of nodes that are laid out -/

section Positions

variable {s : Script}

/-- A node begins in front of the end of the stretch that it stands in. -/
theorem lt_of_laid {a : Stretch} (h : n.laid s p m) (hb : n.before a m q) : p < q := by
  have hmq : m ≤ q := a.le (of_before hb)
  cases n with
  | name i =>
    have hm : m = p + 1 := h.2.2
    omega
  | token position =>
    have hm : m = p + 1 := h.1.2
    omega
  | phrase extent below => exact Nat.lt_of_lt_of_le h.1.2 hmq
  | expr extent below =>
    have hpm : p ≤ m := (laid s (.expr extent below)).le h
    obtain ⟨⟨hempty, -⟩, rfl⟩ := h
    cases below with
    | nil => exact Nat.lt_of_le_of_lt hpm hb.2
    | cons e rest =>
      have hne : p ≠ m := fun heq => nomatch hempty.2 heq
      omega

theorem exists_of_mem_laidAll (h : laidAll s ns p q) (hn : n ∈ ns) :
    ∃ m m', n.laid s m m' ∧ p ≤ m ∧ m' ≤ q ∧ m < q := by
  induction ns generalizing p with
  | nil => cases hn
  | cons n' rest ih =>
    obtain ⟨m', ⟨m, hcode, hlaid⟩, hrest⟩ := h
    have hm : m ≤ m' := (n'.laid s).le hlaid
    rcases List.mem_cons.1 hn with rfl | hmem
    · exact ⟨m, m', hlaid, hcode.1, (laidAll s rest).le (of_before hrest), lt_of_laid hlaid hrest⟩
    · obtain ⟨k, k', hk, hle, hend⟩ := ih (of_before hrest) hmem
      exact ⟨k, k', hk, Nat.le_trans hcode.1 (Nat.le_trans hm hle), hend⟩

theorem pairwise_of_laidAll (h : laidAll s ns p q) :
    ns.Pairwise fun n n' => n.extent.stop ≤ n'.extent.first := by
  induction ns generalizing p with
  | nil => exact .nil
  | cons n rest ih =>
    obtain ⟨m', ⟨m, -, hlaid⟩, hrest⟩ := h
    refine .cons (fun n' hn' => ?_) (ih (of_before hrest))
    obtain ⟨k, k', hk, hle, -⟩ := exists_of_mem_laidAll (of_before hrest) hn'
    rw [extent_of_laid hlaid, extent_of_laid hk]
    exact hle

mutual

/-- A node holds no end mark. -/
theorem code_of_laid {p q : Nat} : ∀ {n : Node}, n.laid s p q → run s (· ≠ .eof) p q
  | .name _, ⟨hp, _, hq⟩ => hq ▸ run_succ (by simp [hp])
  | .token _, ⟨⟨hp, hq⟩, _⟩ => hq ▸ run_succ hp
  | .phrase _ _, ⟨⟨h, _⟩, _⟩ => code_of_laidAll h
  | .expr _ _, ⟨⟨_, h⟩, _⟩ => code_of_laidAll h

theorem code_of_laidAll {p q : Nat} : ∀ {ns : List Node}, laidAll s ns p q → run s (· ≠ .eof) p q
  | [], h => h
  | _ :: _, ⟨_, ⟨_, hcode, hn⟩, hrest⟩ =>
    run_trans (run_trans hcode (code_of_laid hn)) (code_of_laidAll (of_before hrest))

end

end Positions

/-! ## Nodes at their places -/

/-- A stretch without the end mark ends within the code. -/
theorem le_size_of_code (h : run (.ofSource s receiver) (· ≠ .eof) p q) (hpq : p < q) :
    q ≤ s.code.size := by
  have hlast := Source.lt_size_of_kind_ne (h.2 (q - 1) (by omega) (by omega))
  omega

theorem ordered_of_laidAll (hs : s.Indexed) (h : laidAll (.ofSource s receiver) ns p q) :
    Ordered s (s.range ⟨p, q⟩) ns := by
  constructor
  · intro n hn
    obtain ⟨m, m', hlaid, hpm, hmq, hlt⟩ := exists_of_mem_laidAll h hn
    rw [range_eq, extent_of_laid hlaid]
    exact hs.contains_range hpm ((n.laid _).le hlaid) hmq hlt
  · refine (pairwise_of_laidAll h).imp_of_mem fun {n n'} hn hn' hle => ?_
    obtain ⟨m, m', hlaid, hpm, hmq, -⟩ := exists_of_mem_laidAll h hn
    obtain ⟨k, k', hlaid', -, -, hlt⟩ := exists_of_mem_laidAll h hn'
    rw [extent_of_laid hlaid, extent_of_laid hlaid'] at hle
    rw [range_eq, range_eq, extent_of_laid hlaid, extent_of_laid hlaid']
    have hmm : m ≤ m' := (n.laid _).le hlaid
    have hpq : p < q := Nat.lt_of_le_of_lt (Nat.le_trans (Nat.le_trans hpm hmm) hle) hlt
    have hq := le_size_of_code (code_of_laidAll h) hpq
    exact hs.stop_range_le hmm hle (Nat.le_trans hmq hq)

mutual

/-- A node that is laid out stands at its place. -/
theorem stands_of_laid (hs : s.Indexed) {p q : Nat} : ∀ {n : Node},
    n.laid (.ofSource s receiver) p q → n.Stands s
  | .name i, ⟨hk, hi, hq⟩ => by
    subst hi
    have hne : (Script.ofSource s receiver).kind p ≠ .eof := by simp [hk]
    have hp : p < s.code.size := Source.lt_size_of_kind_ne hne
    refine ⟨hs.index_lt_size hp, ?_⟩
    rw [Source.kind_ofSource hp] at hk
    simp only [Source.word_ofSource hp, Source.spanAt]
    show s.codeToken p = _
    rw [← hk]
  | .token position, h => by
    have hext : (⟨position, position + 1⟩ : Extent) = ⟨p, q⟩ := h.2
    obtain ⟨rfl, rfl⟩ := Extent.mk.inj hext
    have hq := le_size_of_code (code_of_laid h) position.lt_succ_self
    show s.Delimits (s.single position)
    rw [← Source.range_succ]
    exact hs.delimits_range position.lt_succ_self hq
  | .phrase extent below, ⟨⟨h, hlt⟩, he⟩ => by
    obtain rfl : extent = ⟨p, q⟩ := he
    exact ⟨hs.delimits_range hlt (le_size_of_code (code_of_laidAll h) hlt),
      ordered_of_laidAll hs h, allStand_of_laidAll hs h⟩
  | .expr extent [], ⟨⟨hempty, _⟩, he⟩ => by
    obtain rfl : extent = ⟨p, q⟩ := he
    obtain rfl : p = q := hempty.1 rfl
    exact hs.marks_range
  | .expr extent (e :: rest), ⟨⟨hempty, h⟩, he⟩ => by
    obtain rfl : extent = ⟨p, q⟩ := he
    have hne : p ≠ q := fun heq => nomatch hempty.2 heq
    have hlt : p < q := Nat.lt_of_le_of_ne ((laidAll _ _).le h) hne
    exact ⟨hs.delimits_range hlt (le_size_of_code (code_of_laidAll h) hlt),
      ordered_of_laidAll hs h, allStand_of_laidAll hs h⟩

theorem allStand_of_laidAll (hs : s.Indexed) {p q : Nat} : ∀ {ns : List Node},
    laidAll (.ofSource s receiver) ns p q → AllStand s ns
  | [], _ => trivial
  | _ :: _, ⟨_, ⟨_, _, hn⟩, hrest⟩ =>
    ⟨stands_of_laid hs hn, allStand_of_laidAll hs (of_before hrest)⟩

end

theorem standIn_of_laidAll (hs : s.Indexed) (h : laidAll (.ofSource s receiver) ns p q) :
    StandIn s (s.range ⟨p, q⟩) ns :=
  ⟨ordered_of_laidAll hs h, allStand_of_laidAll hs h⟩

/-- A single node may be empty. -/
theorem standIn_of_laid (hs : s.Indexed) (h : n.laid (.ofSource s receiver) p q) :
    StandIn s (s.range ⟨p, q⟩) [n] := by
  refine ⟨⟨?_, List.pairwise_singleton _ _⟩, stands_of_laid hs h, trivial⟩
  intro n' hn'
  rw [List.mem_singleton.1 hn', range_eq, extent_of_laid h]
  simp [TokenRange.contains]

end Node

end Stencil
