import Stencil.Proofs.Token.Spelled

/-!
# Reading token by token

A reader is asked for tokens in two ways, with the end mark or without it, and for the flaws that it has
found, in any order. Requests for tokens share the place that is reached and the mark that the end has been
handed out; flaws are held until they are taken.

A run of requests is told by three things: the pieces that the reader has still ahead, the end mark that
it will come to, and the flaws that it holds.

Results: one request moves a reader by one piece or not at all (`Reader.moves_answer`), runs are put
together (`Reader.Moves.append`), and whatever is asked, the answers follow the stream of the text
(`Reader.follows_answers`).
-/

namespace Stencil

namespace Reader

/-! ## Requests and answers -/

/-- What a reader can be asked for. -/
inductive Request where
  /-- The next token, which is the end mark behind the last one. -/
  | token
  /-- The next token before the end mark, if there is one. -/
  | next
  /-- Whether flaws are held. -/
  | hasProblems
  /-- The flaws that are held. -/
  | takeProblems
deriving DecidableEq, Repr

/-- Does the request ask for a token? -/
def Request.reads : Request → Bool
  | .token | .next => true
  | .hasProblems | .takeProblems => false

/-- What a reader gives back, one form for each request. -/
inductive Answer where
  /-- The token, or the end mark. -/
  | token (t : Token)
  /-- The token, if there is one before the end mark. -/
  | next (t? : Option Token)
  /-- Whether flaws are held. -/
  | hasProblems (held : Bool)
  /-- The flaws that were held. -/
  | problems (taken : List LexicalProblem)
deriving DecidableEq, Repr

namespace Answer

/-- The token that comes with the answer. -/
def token? : Answer → Option Token
  | .token t => some t
  | .next t? => t?
  | .hasProblems _ | .problems _ => none

/-- The flaws that come with the answer. -/
def taken : Answer → List LexicalProblem
  | .problems ps => ps
  | .token _ | .next _ | .hasProblems _ => []

/-- Does the answer tell that the end is reached? -/
def IsEnd : Answer → Prop
  | .token t => t.kind = .eof
  | .next t? => t? = none
  | .hasProblems _ | .problems _ => False

/-- Is the answer the one that stands behind the last token, with the given end mark? Only requests for
tokens are asked about. -/
def StaysAt (stop : Token) : Answer → Prop
  | .token t => t = stop
  | .next t? => t? = none
  | .hasProblems _ | .problems _ => True

end Answer

/-- The tokens that come with the answers, without end marks. -/
def handedOut (as : List Answer) : List Token :=
  (as.filterMap Answer.token?).filter fun t => t.kind != .eof

theorem handedOut_append (as bs : List Answer) :
    handedOut (as ++ bs) = handedOut as ++ handedOut bs := by
  unfold handedOut
  rw [List.filterMap_append, List.filter_append]

/-- What a reader answers to a request, and the reader afterwards. -/
def answer (r : Reader) : Request → Answer × Reader
  | .token => (.token r.token.1, r.token.2)
  | .next => (.next r.next?.1, r.next?.2)
  | .hasProblems => (.hasProblems r.hasProblems, r)
  | .takeProblems => (.problems r.takeProblems.1, r.takeProblems.2)

/-- What a reader answers to one request after the other, and the reader afterwards. -/
def answers (r : Reader) : List Request → List Answer × Reader
  | [] => ([], r)
  | q :: qs =>
    let first := r.answer q
    let others := first.2.answers qs
    (first.1 :: others.1, others.2)

/-! ## What a reader has ahead -/

/-- The pieces that are still to be read, with their places. -/
def ahead (r : Reader) : List (Piece × Place) :=
  layOut r.place (pieces 0 r.rest)

/-- The end mark that the reader comes to. -/
def stop (r : Reader) : Token :=
  (r.place.after r.rest).endToken

/-- Is nothing ahead of a reader that has handed out the end mark? -/
def IsSound (r : Reader) : Prop :=
  r.ended = true → r.ahead = []

/-- From one reader to another one by answers of which `n` are to requests for tokens: as many pieces are
passed, with their tokens handed out and their flaws held or taken, and behind the last piece there is
nothing but the end. -/
structure Moves (r : Reader) (n : Nat) (as : List Answer) (r' : Reader) : Prop where
  handed : handedOut as = (r.ahead.take n).map fun p => p.1.token p.2
  problems : as.flatMap Answer.taken ++ r'.problems
    = r.problems ++ (r.ahead.take n).filterMap fun p => p.1.problem? p.2
  ahead : r'.ahead = r.ahead.drop n
  stop : r'.stop = r.stop
  sound : r'.IsSound
  ends_iff : (∃ a ∈ as, a.IsEnd) ↔ r.ahead.length < n
  stays : as.Pairwise fun e a => e.IsEnd → a.StaysAt r.stop
  atEnd : ∀ a ∈ as, a.IsEnd ∨ r.ahead = [] → a.StaysAt r.stop

variable {r r' r'' : Reader} {m n : Nat} {as bs : List Answer}

theorem Moves.refl (hr : r.IsSound) : r.Moves 0 [] r where
  handed := rfl
  problems := (List.append_nil _).symm
  ahead := rfl
  stop := rfl
  sound := hr
  ends_iff := by simp
  stays := .nil
  atEnd := nofun

/-- Two runs one after the other are one run. -/
theorem Moves.append (h : r.Moves n as r') (h' : r'.Moves m bs r'') : r.Moves (n + m) (as ++ bs) r'' where
  handed := by
    rw [handedOut_append, h.handed, h'.handed, h.ahead, List.take_add, List.map_append]
  problems := by
    rw [List.flatMap_append, List.append_assoc, h'.problems, ← List.append_assoc, h.problems, h.ahead,
      List.take_add, List.filterMap_append, List.append_assoc]
  ahead := by
    rw [h'.ahead, h.ahead, List.drop_drop]
  stop := h'.stop.trans h.stop
  sound := h'.sound
  ends_iff := by
    have hlength : r'.ahead.length = r.ahead.length - n := by rw [h.ahead, List.length_drop]
    have hsplit : (∃ a ∈ as ++ bs, a.IsEnd) ↔ r.ahead.length < n ∨ r'.ahead.length < m := by
      rw [← h.ends_iff, ← h'.ends_iff]
      simp only [List.mem_append, or_and_right, exists_or]
    rw [hsplit, hlength]
    omega
  stays := by
    refine List.pairwise_append.2 ⟨h.stays, h.stop ▸ h'.stays, ?_⟩
    intro e he a ha hend
    -- the end has been reached in the first run, so nothing is ahead in the second one
    have hlength : r.ahead.length < n := h.ends_iff.1 ⟨e, he, hend⟩
    have hnone : r'.ahead = [] := by
      rw [h.ahead, List.drop_eq_nil_iff]
      exact Nat.le_of_lt hlength
    rw [← h.stop]
    exact h'.atEnd a ha (.inr hnone)
  atEnd := by
    intro a ha hend
    rcases List.mem_append.1 ha with ha | ha
    · exact h.atEnd a ha hend
    · rw [← h.stop]
      refine h'.atEnd a ha (hend.imp_right fun hnone => ?_)
      rw [h.ahead, hnone, List.drop_nil]

/-! ## One request -/

theorem ahead_of_rest_nil (h : r.rest = []) : r.ahead = [] := by
  unfold ahead
  rw [h]
  rfl

theorem stop_of_rest_nil (h : r.rest = []) : r.stop = r.place.endToken := by
  unfold stop
  rw [h, Place.after_nil]

theorem ahead_of_rest_cons {c : Char} {cs : List Char} (h : r.rest = c :: cs) :
    r.ahead = (Piece.ofScan c cs, r.place) :: r.token.2.ahead := by
  have hnext : r.token.2.ahead
      = layOut (r.place.after (Piece.ofScan c cs).chars) (pieces 0 (cs.drop (scan c cs).more)) := by
    simp only [ahead, token, h]
  rw [hnext, ahead, h, pieces, pieces_eq_drop, layOut]

theorem rest_eq_nil_iff : r.rest = [] ↔ r.ahead = [] := by
  constructor
  · exact ahead_of_rest_nil
  · intro h
    cases hrest : r.rest with
    | nil => rfl
    | cons c cs =>
      rw [ahead_of_rest_cons hrest] at h
      contradiction

theorem stop_token : r.token.2.stop = r.stop := by
  cases hrest : r.rest with
  | nil => rw [token_of_rest_nil hrest]; rfl
  | cons c cs =>
    simp only [stop, token, hrest]
    rw [← Place.after_append, Piece.chars_ofScan_append]

/-- A request for a token in front of a piece hands out its token. -/
theorem moves_on {a : Answer} (hr : r.IsSound) (hne : r.rest ≠ []) (htoken : a.token? = some r.token.1)
    (hend : ¬a.IsEnd) (htaken : a.taken = []) : r.Moves 1 [a] r.token.2 := by
  obtain ⟨c, cs, hrest⟩ := List.exists_cons_of_ne_nil hne
  have hpiece : r.token.1 = (Piece.ofScan c cs).token r.place := (token_of_rest_cons hrest).1
  have hahead : r.ahead = (Piece.ofScan c cs, r.place) :: r.token.2.ahead := ahead_of_rest_cons hrest
  have hproblems : r.token.2.problems = r.problems ++ ((Piece.ofScan c cs).problem? r.place).toList := by
    simp only [token, hrest]
  have hended : r.token.2.ended = r.ended := by simp only [token, hrest]
  exact {
    handed := by
      rw [hahead]
      simp [handedOut, htoken, hpiece, Piece.kind_ofScan_ne_eof, Piece.token]
    problems := by
      rw [hahead, hproblems]
      cases hflaw : (Piece.ofScan c cs).problem? r.place <;> simp [htaken, hflaw]
    ahead := by rw [hahead]; rfl
    stop := stop_token
    sound := by
      intro h
      exact absurd (rest_eq_nil_iff.2 (hr (hended ▸ h))) hne
    ends_iff := by simp [hahead, hend]
    stays := List.pairwise_singleton _ a
    atEnd := by
      intro b hb h
      rw [List.mem_singleton.1 hb, hahead] at h
      rcases h with h | h
      · exact absurd h hend
      · contradiction }

/-- Behind the last piece a request for a token finds the end, once more each time. -/
theorem moves_atEnd {a : Answer} (hnone : r.ahead = []) (hend : a.IsEnd) (hstays : a.StaysAt r.stop)
    (hhanded : handedOut [a] = []) (htaken : a.taken = []) (hahead : r'.ahead = [])
    (hproblems : r'.problems = r.problems) (hstop : r'.stop = r.stop) : r.Moves 1 [a] r' where
  handed := by rw [hhanded, hnone]; rfl
  problems := by rw [hnone, hproblems]; simp [htaken]
  ahead := by rw [hahead, hnone]; rfl
  stop := hstop
  sound := fun _ => hahead
  ends_iff := by simp [hnone, hend]
  stays := List.pairwise_singleton _ a
  atEnd := by
    intro b hb _
    rw [List.mem_singleton.1 hb]
    exact hstays

/-- Requests that do not read leave the reader at its place. -/
theorem moves_still {a : Answer} (hr : r.IsSound) (htoken : a.token? = none) (hend : ¬a.IsEnd)
    (hstays : a.StaysAt r.stop) (hahead : r'.ahead = r.ahead) (hstop : r'.stop = r.stop)
    (hended : r'.ended = r.ended) (hproblems : a.taken ++ r'.problems = r.problems) :
    r.Moves 0 [a] r' where
  handed := by simp [handedOut, htoken]
  problems := by simpa using hproblems
  ahead := hahead
  stop := hstop
  sound := by
    intro h
    rw [hahead]
    exact hr (hended ▸ h)
  ends_iff := by simp [hend]
  stays := List.pairwise_singleton _ a
  atEnd := by
    intro b hb _
    rw [List.mem_singleton.1 hb]
    exact hstays

/-- One step: a request for a token moves a reader by one piece, any other request does not move it. -/
theorem moves_answer (hr : r.IsSound) (q : Request) :
    r.Moves (if q.reads then 1 else 0) [(r.answer q).1] (r.answer q).2 := by
  have hkind (h : r.rest ≠ []) : r.token.1.kind ≠ .eof := by
    obtain ⟨c, cs, hrest⟩ := List.exists_cons_of_ne_nil h
    exact (token_of_rest_cons hrest).2.2.2
  have hlast (h : r.rest = []) : r.token = (r.stop, { r with ended := true }) := by
    rw [token_of_rest_nil h, stop_of_rest_nil h]
  cases q with
  | token =>
    show r.Moves 1 [.token r.token.1] r.token.2
    by_cases hrest : r.rest = []
    · have hnone : r.ahead = [] := ahead_of_rest_nil hrest
      rw [hlast hrest]
      exact moves_atEnd hnone rfl rfl rfl rfl hnone rfl rfl
    · exact moves_on hr hrest rfl (hkind hrest) rfl
  | next =>
    show r.Moves 1 [.next r.next?.1] r.next?.2
    cases hended : r.ended with
    | true =>
      have hnone : r.ahead = [] := hr hended
      have hnext : r.next? = (none, r) := by
        unfold next?
        rw [if_pos hended]
      rw [hnext]
      exact moves_atEnd hnone rfl rfl rfl rfl hnone rfl rfl
    | false =>
      have hnext : r.next? = (if r.token.1.kind = .eof then none else some r.token.1, r.token.2) := by
        unfold next?
        rw [if_neg (by simp [hended])]
      rw [hnext]
      by_cases hrest : r.rest = []
      · have hnone : r.ahead = [] := ahead_of_rest_nil hrest
        rw [hlast hrest, if_pos (show r.stop.kind = .eof from rfl)]
        exact moves_atEnd hnone rfl rfl rfl rfl hnone rfl rfl
      · rw [if_neg (hkind hrest)]
        exact moves_on hr hrest rfl (Option.some_ne_none _) rfl
  | hasProblems => exact moves_still hr rfl id trivial rfl rfl rfl rfl
  | takeProblems => exact moves_still hr rfl id trivial rfl rfl rfl (List.append_nil _)

/-! ## Any requests -/

/-- A whole run moves a reader by as many pieces as tokens are asked for. -/
theorem moves_answers (hr : r.IsSound) (qs : List Request) :
    r.Moves (qs.countP Request.reads) (r.answers qs).1 (r.answers qs).2 := by
  induction qs generalizing r with
  | nil => exact .refl hr
  | cons q qs ih =>
    have hfirst := moves_answer hr q
    have hall := hfirst.append (ih hfirst.sound)
    rw [List.countP_cons, Nat.add_comm]
    exact hall

/-- The problems of pieces and the flawed tokens among theirs come in pairs that stand at one place. -/
theorem forall₂_problems {xs : List (Piece × Place)}
    (h : ∀ x ∈ xs, x.1.kind = .error ↔ ∃ flaw, x.1.verdict = .error flaw) :
    List.Forall₂ (fun (p : LexicalProblem) (t : Token) => p.span = t.span)
      (xs.filterMap fun x => x.1.problem? x.2)
      ((xs.map fun x => x.1.token x.2).filter fun t => t.kind = .error) := by
  induction xs with
  | nil => exact .nil
  | cons x xs ih =>
    rw [List.forall_mem_cons] at h
    have hrest := ih h.2
    cases hverdict : x.1.verdict with
    | ok k =>
      have hkind : x.1.kind ≠ .error := by
        rw [ne_eq, h.1, hverdict]
        simp
      have hproblem : x.1.problem? x.2 = none := by rw [Piece.problem?, hverdict]
      rw [List.filterMap_cons, hproblem, List.map_cons, List.filter_cons_of_neg]
      · exact hrest
      · simp [Piece.token, hkind]
    | error flaw =>
      have hkind : x.1.kind = .error := h.1.2 ⟨flaw, hverdict⟩
      have hproblem : x.1.problem? x.2 = some ⟨flaw, x.2.spanOf x.1.chars⟩ := by
        rw [Piece.problem?, hverdict]
      rw [List.filterMap_cons, hproblem, List.map_cons, List.filter_cons_of_pos]
      · exact .cons rfl hrest
      · simp [Piece.token, hkind]

end Reader

/-- The answers to a list of requests, with the flaws held behind the last of them, follow the stream. -/
structure Stream.Follows (s : Stream) (qs : List Reader.Request) (as : List Reader.Answer)
    (held : List LexicalProblem) : Prop where
  /-- Each request for a token is given the next one, as long as there are any. -/
  handed : Reader.handedOut as = s.tokens.take (qs.countP Reader.Request.reads)
  /-- The end is told of exactly if more tokens have been asked for than there are. -/
  ends_iff : (∃ a ∈ as, a.IsEnd) ↔ s.tokens.length < qs.countP Reader.Request.reads
  /-- The end is told of by the end mark of the stream or by no token. -/
  ends : ∀ a ∈ as, a.IsEnd → a.StaysAt s.stop
  /-- Behind the end there is nothing else. -/
  stays : as.Pairwise fun e a => e.IsEnd → a.StaysAt s.stop
  /-- The flaws taken and those held are those of the flawed tokens, in their order. -/
  problems : List.Forall₂ (fun (p : LexicalProblem) (t : Token) => p.span = t.span)
    (as.flatMap Reader.Answer.taken ++ held) ((Reader.handedOut as).filter fun t => t.kind = .error)
  /-- They are the first flaws of the stream. -/
  told : as.flatMap Reader.Answer.taken ++ held <+: s.problems

/-- Whatever is asked of the reader of a text, and in whatever order, the answers follow the stream of the
text. -/
theorem Reader.follows_answers (text : String) (qs : List Request) :
    (Stream.ofString text).Follows qs ((Reader.ofString text).answers qs).1
      ((Reader.ofString text).answers qs).2.problems := by
  have hahead : (Reader.ofString text).ahead = layOut .start (pieces 0 text.toList) := rfl
  have htokens : (Stream.ofString text).tokens
      = (Reader.ofString text).ahead.map fun p => p.1.token p.2 := rfl
  have hmoves := moves_answers (r := Reader.ofString text) nofun qs
  have hproblems := hmoves.problems
  rw [show (Reader.ofString text).problems = [] from rfl, List.nil_append] at hproblems
  refine ⟨?_, ?_, ?_, hmoves.stays, ?_, ?_⟩
  · rw [hmoves.handed, htokens, List.map_take]
  · rw [hmoves.ends_iff, htokens, List.length_map]
  · intro a ha hend
    exact hmoves.atEnd a ha (.inl hend)
  · rw [hproblems, hmoves.handed]
    apply forall₂_problems
    intro x hx
    rw [hahead] at hx
    exact (agrees_of_mem_pieces (mem_pieces_of_mem_layOut (List.mem_of_mem_take hx))).2
  · rw [hproblems]
    exact (List.take_prefix _ _).filterMap _

/-- Both ways of asking for tokens go on at the same place, and flaws are taken once. -/
example : ((Reader.ofString "#a").answers
      [.next, .hasProblems, .takeProblems, .takeProblems, .token, .next, .token, .next]).1
    = [.next (some ⟨⟨.error, "#"⟩, ⟨1, 1, 1⟩⟩), .hasProblems true,
      .problems [⟨.unexpectedChar '#', ⟨1, 1, 1⟩⟩], .problems [], .token ⟨⟨.identifier, "a"⟩, ⟨1, 2, 1⟩⟩,
      .next none, .token ⟨⟨.eof, ""⟩, ⟨1, 3, 0⟩⟩, .next none] := by
  decide +kernel

end Stencil
