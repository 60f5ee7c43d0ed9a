import Stencil.Proofs.Grammar.Depth
import Stencil.Proofs.Token.Lossless
import Stencil.Proofs.Token.Source

/-!
# A text under the rules

The rules are applied to a text in any order: tokens are looked at and passed, positions are noted and
returned to, ranges are taken from a noted position on, rules are applied for good or as an attempt, and
the flaws of the text are taken.

Results: one request leaves what is noted within the text (`Session.isValid_answer`). So whatever has
been requested before, the table of code is that of the text, every look into it finds an entry, and every
range lies in the text (`Session.stays_valid`).
-/

namespace Stencil

/-! ## The table of code -/

namespace Source

/-- The tokens with the end mark. -/
def stream (s : Source) : List Token :=
  s.tokens.toList ++ [s.stop]

/-- The indices of the code tokens with that of the end mark. -/
def table (s : Source) : List Nat :=
  s.code.toList ++ [s.tokens.size]

/-- Are the tokens those of the text, and has the table exactly the indices of the ones that are neither
blanks nor comments, in ascending order, the end mark last? -/
structure IsTabled (s : Source) (text : String) : Prop where
  stream_eq : s.stream = (Stream.ofString text).all
  mem_iff : ∀ i, i ∈ s.table ↔ ∃ t, s.stream[i]? = some t ∧ t.isCode = true
  ascending : s.table.Pairwise (· < ·)
  last : ∃ i, s.table.getLast? = some i ∧ ∀ j t, s.stream[j]? = some t → (t.kind = .eof ↔ j = i)

/-- Is this the token that is found for a position, first by its entry in the table and then by its index
in the stream? Behind the last entry the last one is looked up. -/
def Finds (s : Source) (p : Nat) (t : Token) : Prop :=
  ∃ i, s.table[min p (s.table.length - 1)]? = some i ∧ s.stream[i]? = some t

variable {s : Source} {p : Nat}

theorem length_table : s.table.length - 1 = s.code.size := by
  unfold table
  rw [List.length_append, Array.length_toList, List.length_singleton, Nat.add_sub_cancel]

theorem getElem?_table (hp : p ≤ s.code.size) : s.table[p]? = some (s.index p) := by
  unfold table
  rcases Nat.lt_or_eq_of_le hp with hlt | rfl
  · rw [List.getElem?_append_left (by simpa using hlt), index_of_lt hlt]
    simp [hlt]
  · rw [List.getElem?_append_right (by simp), index_of_size_le (Nat.le_refl _)]
    simp

theorem getElem?_table_min (p : Nat) : s.table[min p (s.table.length - 1)]? = some (s.index p) := by
  rw [length_table, getElem?_table (Nat.min_le_right _ _)]
  by_cases hp : p ≤ s.code.size
  · rw [Nat.min_eq_left hp]
  · rw [Nat.min_eq_right (by omega), index_of_size_le (Nat.le_refl _), index_of_size_le (by omega)]

theorem getElem?_stream {i : Nat} (hi : i ≤ s.tokens.size) : s.stream[i]? = some (s.tokenAt i) := by
  unfold stream
  rcases Nat.lt_or_eq_of_le hi with hlt | rfl
  · rw [List.getElem?_append_left (by simpa using hlt), tokenAt_of_lt hlt]
    simp [hlt]
  · rw [List.getElem?_append_right (by simp)]
    simp [tokenAt]

theorem finds_codeToken (hs : s.Indexed) (p : Nat) : s.Finds p (s.codeToken p) :=
  ⟨s.index p, getElem?_table_min p, getElem?_stream hs.index_le_size⟩

theorem stream_ofString (text : String) : (ofString text).stream = (Stream.ofString text).all := by
  simp [stream, ofString, ofStream, Stream.all]

theorem eq_tokenAt_of_stream {i : Nat} {t : Token} (h : s.stream[i]? = some t) :
    i ≤ s.tokens.size ∧ s.tokenAt i = t := by
  obtain ⟨hi, -⟩ := List.getElem?_eq_some_iff.1 h
  unfold stream at hi
  rw [List.length_append, Array.length_toList, List.length_singleton] at hi
  have hle : i ≤ s.tokens.size := Nat.le_of_lt_succ hi
  rw [getElem?_stream hle] at h
  exact ⟨hle, Option.some.inj h⟩

theorem mem_table {i : Nat} : i ∈ s.table ↔ i ∈ s.code ∨ i = s.tokens.size := by
  unfold table
  rw [List.mem_append, Array.mem_toList_iff, List.mem_singleton]

theorem tokenAt_size : s.tokenAt s.tokens.size = s.stop := by
  simp [tokenAt]

theorem isTabled_ofString (text : String) : (ofString text).IsTabled text := by
  have hs := indexed_ofString text
  have hstop : (ofString text).stop.kind = .eof := rfl
  refine ⟨stream_ofString text, fun i => ?_, ?_, (ofString text).tokens.size, ?_, fun j t hj => ?_⟩
  · rw [mem_table, hs.mem_code]
    constructor
    · rintro (⟨hi, hcode⟩ | rfl)
      · exact ⟨_, getElem?_stream (Nat.le_of_lt hi), hcode⟩
      · refine ⟨_, getElem?_stream (Nat.le_refl _), ?_⟩
        rw [tokenAt_size]
        rfl
    · rintro ⟨t, ht, hcode⟩
      obtain ⟨hi, rfl⟩ := eq_tokenAt_of_stream ht
      rcases Nat.lt_or_eq_of_le hi with hlt | heq
      · exact .inl ⟨hlt, hcode⟩
      · exact .inr heq
  · unfold table
    rw [hs]
    refine List.pairwise_append.2 ⟨pairwise_codeIndices _ _, List.pairwise_singleton _ _, ?_⟩
    intro i hi j hj
    rw [List.mem_singleton.1 hj]
    rw [← hs, Array.mem_toList_iff, hs.mem_code] at hi
    exact hi.1
  · unfold table
    rw [List.getLast?_concat]
  · obtain ⟨hle, rfl⟩ := eq_tokenAt_of_stream hj
    constructor
    · intro heof
      by_contra hne
      have hlt : j < (ofString text).tokens.size := by omega
      have hmem : (ofString text).tokenAt j ∈ (Stream.ofString text).tokens := by
        rw [tokenAt_of_lt hlt]
        simp [ofString, ofStream]
      exact (Stream.ne_empty_of_mem_tokens hmem).2 heof
    · rintro rfl
      rw [tokenAt_size]
      exact hstop

/-- A range from a position to another one that is not behind the end mark. -/
theorem range_spec (hs : s.Indexed) {m q : Nat} (hq : q ≤ s.code.size) :
    ∃ start stop, s.range ⟨m, q⟩ = ⟨start, stop⟩ ∧ start ≤ stop ∧ stop ≤ s.size
      ∧ s.table[min m (s.table.length - 1)]? = some start
      ∧ (q ≤ m ∧ stop = start ∨ m < q ∧ ∃ i, s.table[q - 1]? = some i ∧ stop = i + 1) := by
  have hsize : s.index m ≤ s.tokens.size := hs.index_le_size
  unfold range size
  by_cases hlt : m < q
  · have hle := hs.index_le_index (p := m) (q := q - 1) (by omega)
    have hlast : s.index (q - 1) ≤ s.tokens.size := hs.index_le_size
    refine ⟨s.index m, s.index (q - 1) + 1, ?_, by omega, by omega, getElem?_table_min m,
      .inr ⟨hlt, ?_⟩⟩
    · simp only [if_pos hlt]
    · exact ⟨_, getElem?_table (by omega), rfl⟩
  · refine ⟨s.index m, s.index m, ?_, Nat.le_refl _, by omega, getElem?_table_min m, .inl ⟨by omega, rfl⟩⟩
    simp only [if_neg hlt]

end Source

/-! ## Requests -/

open Grammar

/-- A rule of the grammar, whatever it finds. -/
structure AnyRule where
  /-- The type of what is found. -/
  {α : Type}
  /-- The number of tokens that it passes before it enters nested text. -/
  lead : Nat
  /-- The rule. -/
  rule : Nested → Rule α
  /-- It is one of the rules of the grammar. -/
  isRule : IsRule lead rule

/-- A text under the rules: where they are, which positions have been noted, and the flaws of the text that
have not been taken. -/
structure Session where
  /-- The text. -/
  source : Source
  /-- The text as the rules see it. -/
  script : Script
  /-- The current position. -/
  position : Nat
  /-- The positions that have been noted. -/
  marks : List Nat
  /-- The flaws that have not been taken. -/
  problems : List LexicalProblem

namespace Session

/-- What can be requested. Positions that have been noted are named by their numbers. -/
inductive Request where
  /-- The token so many tokens ahead. -/
  | peekNth (n : Nat)
  /-- The kind of the token before the current one. -/
  | previousKind
  /-- To go on behind the current token. -/
  | advance
  /-- To go on if the current token is of the kind. -/
  | eat (k : Kind)
  /-- To go on behind the current token, which must be of the kind. -/
  | expect (k : Kind)
  /-- To go on behind the current token, which must be a name. -/
  | identifier
  /-- To note the current position. -/
  | mark
  /-- To return to a position that has been noted. -/
  | returnTo (i : Nat)
  /-- The range from a position that has been noted to the current one. -/
  | rangeFrom (i : Nat)
  /-- To apply a rule. -/
  | rule (r : AnyRule)
  /-- To apply a rule, and to return to the current position if it fails. -/
  | tryRule (r : AnyRule)
  /-- Whether there are flaws that have not been taken. -/
  | hasProblems
  /-- The flaws that have not been taken. -/
  | takeProblems

/-- What comes back. -/
inductive Answer where
  /-- The token. -/
  | token (t : Token)
  /-- The kind of a token, if there is one. -/
  | kind (k? : Option Kind)
  /-- The name. -/
  | name (i : Ident)
  /-- A position. -/
  | position (p : Nat)
  /-- A range of tokens. -/
  | range (r : TokenRange)
  /-- The rule has found something. -/
  | found
  /-- There is nothing to tell. -/
  | nothing
  /-- What was requested is not there. -/
  | failed (m : Mistake)
  /-- Whether it is so. -/
  | flag (b : Bool)
  /-- The flaws. -/
  | problems (ps : List LexicalProblem)

/-- A session at the beginning of a text. -/
def ofString (text receiver : String) : Session :=
  let source := Source.ofString text
  ⟨source, .ofSource source receiver, 0, [], source.problems⟩

/-- The session with a rule applied at its position, which is left where the rule ends. -/
def apply {α : Type} (st : Session) (r : Rule α) (answer : α → Answer) : Answer × Session :=
  match r.run st.script st.position with
  | .ok a q => (answer a, { st with position := q })
  | .error m q => (.failed m, { st with position := q })

/-- The current token. -/
def current (st : Session) : Token :=
  st.source.codeToken st.position

/-- What comes back to a request, and the session afterwards. -/
def answer (st : Session) : Request → Answer × Session
  | .peekNth n => (.token (st.source.codeToken (st.position + n)), st)
  | .previousKind => st.apply Rule.previousKind .kind
  | .advance => st.apply Rule.advance fun _ => .token st.current
  | .eat k => st.apply (Rule.eat k) fun eaten => if eaten then .token st.current else .nothing
  | .expect k => st.apply (Rule.expect k) fun _ => .token st.current
  | .identifier => st.apply Rule.identifier .name
  | .mark => (.position st.position, { st with marks := st.marks ++ [st.position] })
  | .returnTo i =>
    match st.marks[i]? with
    | some m => st.apply (Rule.returnTo m) fun _ => .nothing
    | none => (.nothing, st)
  | .rangeFrom i =>
    match st.marks[i]? with
    | some m => st.apply (Rule.extentFrom m) fun e => .range (st.source.range e)
    | none => (.nothing, st)
  | .rule r => st.apply (complete r.rule) fun _ => .found
  | .tryRule r => st.apply (Rule.attempt (complete r.rule)) fun found =>
    if found.isSome then .found else .nothing
  | .hasProblems => (.flag !st.problems.isEmpty, st)
  | .takeProblems => (.problems st.problems, { st with problems := [] })

/-- The session after one request after the other. -/
def after (st : Session) : List Request → Session
  | [] => st
  | q :: qs => (st.answer q).2.after qs

/-- Does the request take the flaws? -/
def Request.takes : Request → Bool
  | .takeProblems => true
  | _ => false

/-- How many tokens ahead a request looks, if it looks at a token. -/
def Request.ahead? : Request → Option Nat
  | .peekNth n => some n
  | .advance | .eat _ | .expect _ | .identifier => some 0
  | _ => none

/-! ## What requests keep -/

/-- Is the session one of the text, with no position behind the end mark? -/
structure IsValid (st : Session) (text receiver : String) : Prop where
  source : st.source = .ofString text
  script : st.script = .ofSource st.source receiver
  position_le : st.position ≤ st.source.code.size
  marks_le : ∀ m ∈ st.marks, m ≤ st.source.code.size

variable {text receiver : String} {st : Session}

theorem isValid_ofString (text receiver : String) : (ofString text receiver).IsValid text receiver :=
  ⟨rfl, rfl, Nat.zero_le _, nofun⟩

theorem IsValid.size_script (h : st.IsValid text receiver) : st.script.size = st.source.code.size := by
  rw [h.script]
  exact Source.size_ofSource

theorem IsValid.indexed (h : st.IsValid text receiver) : st.source.Indexed := by
  rw [h.source]
  exact Source.indexed_ofString text

theorem IsValid.position_le_size (h : st.IsValid text receiver) : st.position ≤ st.script.size := by
  rw [h.size_script]
  exact h.position_le

/-- A rule that ends within the text leaves the session valid, with a result or without. -/
theorem IsValid.apply {α : Type} {r : Rule α} {f : α → Answer} {low : Nat} (h : st.IsValid text receiver)
    (hends : Rule.Ends st.script low (r.run st.script st.position)) :
    (st.apply r f).2.IsValid text receiver := by
  unfold Session.apply
  split
  · rename_i a q hrun
    rw [hrun] at hends
    have hq : q ≤ st.source.code.size := by
      rw [← h.size_script]
      exact hends.2
    exact ⟨h.source, h.script, hq, h.marks_le⟩
  · rename_i m q hrun
    rw [hrun] at hends
    have hq : q ≤ st.source.code.size := by
      rw [← h.size_script]
      exact hends.2
    exact ⟨h.source, h.script, hq, h.marks_le⟩

theorem isValid_answer (h : st.IsValid text receiver) (q : Request) :
    (st.answer q).2.IsValid text receiver := by
  have hp := h.position_le_size
  cases q with
  | peekNth n => exact h
  | previousKind =>
    have hends : Rule.Ends st.script 0 (Rule.previousKind.run st.script st.position) :=
      ⟨Nat.zero_le _, hp⟩
    exact h.apply hends
  | advance => exact h.apply (Rule.agree_advance_of_le hp).ends
  | eat k => exact h.apply (Rule.agree_eat hp).ends
  | expect k => exact h.apply (Rule.agree_expect_of_le hp).ends
  | identifier => exact h.apply (Rule.agree_identifier hp).ends
  | mark =>
    refine ⟨h.source, h.script, h.position_le, fun m hm => ?_⟩
    rcases List.mem_append.1 hm with hm | hm
    · exact h.marks_le m hm
    · rw [List.mem_singleton.1 hm]
      exact h.position_le
  | returnTo i =>
    simp only [answer]
    split
    · rename_i m hm
      have hle : m ≤ st.script.size := by
        rw [h.size_script]
        exact h.marks_le m (List.mem_of_getElem? hm)
      have hends : Rule.Ends st.script m ((Rule.returnTo m).run st.script st.position) :=
        ⟨Nat.le_refl m, hle⟩
      exact h.apply hends
    · exact h
  | rangeFrom i =>
    simp only [answer]
    split
    · rename_i m hm
      have hends : Rule.Ends st.script 0 ((Rule.extentFrom m).run st.script st.position) :=
        ⟨Nat.zero_le _, hp⟩
      exact h.apply hends
    · exact h
  | rule r => exact h.apply (r.isRule.ends hp).ends
  | tryRule r => exact h.apply (Rule.agree_attempt (Nat.le_refl _) hp ⟨rfl, (r.isRule.ends hp).ends⟩).ends
  | hasProblems => exact h
  | takeProblems => exact ⟨h.source, h.script, h.position_le, h.marks_le⟩

theorem isValid_after (h : st.IsValid text receiver) (qs : List Request) :
    (st.after qs).IsValid text receiver := by
  induction qs generalizing st with
  | nil => exact h
  | cons q qs ih => exact ih (isValid_answer h q)

theorem problems_apply {α : Type} (st : Session) (r : Rule α) (f : α → Answer) :
    (st.apply r f).2.problems = st.problems := by
  unfold apply
  split <;> rfl

theorem problems_answer (st : Session) (q : Request) :
    (st.answer q).2.problems = if q.takes then [] else st.problems := by
  cases q with
  | returnTo i =>
    simp only [answer]
    split
    · exact problems_apply _ _ _
    · rfl
  | rangeFrom i =>
    simp only [answer]
    split
    · exact problems_apply _ _ _
    · rfl
  | previousKind => exact problems_apply _ _ _
  | advance => exact problems_apply _ _ _
  | eat k => exact problems_apply _ _ _
  | expect k => exact problems_apply _ _ _
  | identifier => exact problems_apply _ _ _
  | rule r => exact problems_apply _ _ _
  | tryRule r => exact problems_apply _ _ _
  | peekNth n => rfl
  | mark => rfl
  | hasProblems => rfl
  | takeProblems => rfl

theorem problems_after (st : Session) (qs : List Request) :
    (st.after qs).problems = if qs.any Request.takes then [] else st.problems := by
  induction qs generalizing st with
  | nil => rfl
  | cons q qs ih =>
    show ((st.answer q).2.after qs).problems = _
    rw [ih, problems_answer, List.any_cons]
    cases q.takes with
    | true => simp
    | false => simp

/-! ## What comes back -/

/-- Is what comes back to a request found in the table and in the stream, without a look past the end of
either, and is nothing changed that is not to be changed? Rules see the text only word by word, so what a
rule sees on its way is found there, too. -/
structure Exchange (st : Session) (q : Request) : Prop where
  sees : ∀ p, ∃ t, st.source.Finds p t ∧ st.script.word p = t.toLexeme
  token : ∀ n, q.ahead? = some n →
    ∃ t, st.source.Finds (st.position + n) t ∧ ∀ t', (st.answer q).1 = .token t' → t' = t
  previous : q = .previousKind → (st.position = 0 ∧ (st.answer q).1 = .kind none)
    ∨ ∃ i t, st.source.table[st.position - 1]? = some i ∧ st.source.stream[i]? = some t
      ∧ (st.answer q).1 = .kind (some t.kind)
  range : ∀ i m, q = .rangeFrom i → st.marks[i]? = some m →
    ∃ start stop, (st.answer q).1 = .range ⟨start, stop⟩ ∧ start ≤ stop ∧ stop ≤ st.source.stream.length
      ∧ st.source.table[min m (st.source.table.length - 1)]? = some start
      ∧ (st.position ≤ m ∧ stop = start
        ∨ m < st.position ∧ ∃ last, st.source.table[st.position - 1]? = some last ∧ stop = last + 1)
  restores : ∀ r m p, q = .tryRule r → (complete r.rule).run st.script st.position = .error m p →
    st.answer q = (.nothing, st)
  takes : q.takes = true → (st.answer q).1 = .problems st.problems ∧ (st.answer q).2.problems = []
  keeps : q.takes = false → (st.answer q).2.problems = st.problems

theorem apply_of_ok {α : Type} {r : Rule α} {f : α → Answer} {a : α} {p : Nat}
    (h : r.run st.script st.position = .ok a p) : st.apply r f = (f a, { st with position := p }) := by
  unfold apply
  rw [h]

theorem fst_apply {α : Type} (st : Session) (r : Rule α) (f : α → Answer) :
    (∃ a, (st.apply r f).1 = f a) ∨ ∃ m, (st.apply r f).1 = .failed m := by
  unfold apply
  split
  · exact .inl ⟨_, rfl⟩
  · exact .inr ⟨_, rfl⟩

/-- A token that comes back is the one that is looked at. -/
theorem eq_codeToken_of_answer {q : Request} {n : Nat} {t : Token} (hn : q.ahead? = some n)
    (h : (st.answer q).1 = .token t) : t = st.source.codeToken (st.position + n) := by
  have passed {α : Type} {r : Rule α} {f : α → Answer} (hf : ∀ a, f a = .token t → t = st.current)
      (happly : (st.apply r f).1 = .token t) : t = st.current := by
    rcases st.fst_apply r f with ⟨a, ha⟩ | ⟨m, hm⟩
    · exact hf a (ha.symm.trans happly)
    · rw [hm] at happly
      contradiction
  cases q with
  | peekNth k =>
    obtain rfl := Option.some.inj hn
    exact (Answer.token.inj h).symm
  | advance =>
    obtain rfl := Option.some.inj hn
    exact passed (fun _ ht => (Answer.token.inj ht).symm) h
  | eat k =>
    obtain rfl := Option.some.inj hn
    refine passed (fun eaten ht => ?_) h
    split at ht
    · exact (Answer.token.inj ht).symm
    · contradiction
  | expect k =>
    obtain rfl := Option.some.inj hn
    exact passed (fun _ ht => (Answer.token.inj ht).symm) h
  | identifier =>
    obtain rfl := Option.some.inj hn
    refine passed (f := Answer.name) (fun _ ht => ?_) h
    contradiction
  | _ => contradiction

theorem IsValid.previousKind_eq (h : st.IsValid text receiver) (hpos : 0 < st.position) :
    Rule.previousKind.run st.script st.position
      = .ok (some (st.source.codeToken (st.position - 1)).kind) st.position := by
  have hlt : st.position - 1 < st.source.code.size := by
    have hle := h.position_le
    omega
  have hkind : st.script.kind (st.position - 1) = (st.source.codeToken (st.position - 1)).kind := by
    rw [h.script]
    exact Source.kind_ofSource hlt
  have hsize : st.position - 1 < st.script.source.code.size := by
    show st.position - 1 < st.script.size
    rw [h.size_script]
    exact hlt
  rw [← hkind]
  show EStateM.Result.ok (st.script.kindBefore st.position) _ = _
  unfold Script.kindBefore Script.kind Script.word
  rw [if_neg (Nat.ne_of_gt hpos), Array.getElem?_eq_getElem hsize]
  rfl

theorem IsValid.word_eq (h : st.IsValid text receiver) (p : Nat) :
    st.script.word p = (st.source.codeToken p).toLexeme := by
  rw [h.script]
  by_cases hp : p < st.source.code.size
  · exact Source.word_ofSource hp
  · have hstop : st.source.codeToken p = st.source.stop := by
      unfold Source.codeToken
      rw [Source.index_of_size_le (by omega), Source.tokenAt_size]
    unfold Script.word Script.ofSource
    rw [hstop, Array.getElem?_eq_none (Nat.le_of_not_lt hp), h.source]
    rfl

theorem exchange_answer (h : st.IsValid text receiver) (q : Request) : st.Exchange q where
  sees p := ⟨_, Source.finds_codeToken h.indexed p, h.word_eq p⟩
  token := by
    intro n hn
    exact ⟨_, Source.finds_codeToken h.indexed _, fun t' ht' => eq_codeToken_of_answer hn ht'⟩
  previous := by
    rintro rfl
    rcases Nat.eq_zero_or_pos st.position with hzero | hpos
    · refine .inl ⟨hzero, ?_⟩
      have hrun : Rule.previousKind.run st.script st.position = .ok none st.position := by
        rw [hzero]
        rfl
      show (st.apply Rule.previousKind .kind).1 = _
      rw [apply_of_ok hrun]
    · have hle := h.position_le
      refine .inr ⟨_, _, Source.getElem?_table (by omega),
        Source.getElem?_stream h.indexed.index_le_size, ?_⟩
      show (st.apply Rule.previousKind .kind).1 = _
      rw [apply_of_ok (h.previousKind_eq hpos)]
      rfl
  range := by
    rintro i m rfl hm
    obtain ⟨start, stop, hrange, hle, hsize, hlookups⟩ :=
      Source.range_spec h.indexed (m := m) h.position_le
    have hlength : st.source.stream.length = st.source.size := by
      unfold Source.stream Source.size
      rw [List.length_append, Array.length_toList, List.length_singleton]
    have hrun : (Rule.extentFrom m).run st.script st.position = .ok ⟨m, st.position⟩ st.position := rfl
    refine ⟨start, stop, ?_, hle, by rw [hlength]; exact hsize, hlookups⟩
    simp only [answer, hm, apply_of_ok hrun, hrange]
  restores := by
    rintro r m p rfl hrun
    show st.apply (Rule.attempt (complete r.rule)) _ = _
    rw [apply_of_ok (Rule.attempt_error hrun)]
    rfl
  takes := by
    intro htakes
    cases q with
    | takeProblems => exact ⟨rfl, rfl⟩
    | _ => contradiction
  keeps := by
    intro hkeeps
    rw [problems_answer, if_neg (by simp [hkeeps])]

/-- Whatever has been requested of the rules over a text, in whatever order and with whatever success, the
table of code is that of the text, the position and the positions noted are not behind the end mark, the
flaws are those of the text until they are taken, and what comes back to a further request is found in the
table and in the stream. -/
theorem stays_valid (text receiver : String) (earlier : List Request) (q : Request) :
    ((ofString text receiver).after earlier).source.IsTabled text
      ∧ ((ofString text receiver).after earlier).IsValid text receiver
      ∧ ((ofString text receiver).after earlier).problems
        = (if earlier.any Request.takes then [] else (Source.ofString text).problems)
      ∧ ((ofString text receiver).after earlier).Exchange q := by
  have hvalid := isValid_after (isValid_ofString text receiver) earlier
  refine ⟨?_, hvalid, problems_after _ _, exchange_answer hvalid q⟩
  rw [hvalid.source]
  exact Source.isTabled_ofString text

end Session

end Stencil
