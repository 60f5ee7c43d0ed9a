import Stencil.Proofs.Edits
import Stencil.Proofs.Rewrite.Copied

/-!
# Where edits meet the text

The text of a specialization is put together from tokens that are copied and from the texts of edits.
Nothing is put between them, so a token may go on into what is behind it. A token sees two characters
at most, so this can happen only at an edit: to the text of the edit, and to the two tokens in front of
it.

Results: the text has the tokens of its parts exactly if these keep them at every edit
(`Template.lexemes_specialize_iff`), which is not always so (`Template.lexemes_specialize_glued`).
-/

namespace Stencil

namespace Rewrite

/-- The edit as a patch. Its text is put in as a whole. -/
def Edit.patch (e : Edit) : Patch :=
  ⟨e.range, [.put e.text]⟩

/-- Is the chunk a text that is put in? -/
def Chunk.isPut : Chunk → Bool
  | .put _ => true
  | .copied _ => false

namespace Job

variable {j : Job} {text : String} {i stop start : Nat} {front behind : List Chunk}

/-! ## What is behind a copied token -/

/-- Behind a token that is copied the next ones are. -/
theorem copies_split {r : TokenRange} (h : j.copies r = front ++ .copied i :: behind) :
    i < min r.stop j.source.tokens.size ∧ behind = j.copies ⟨i + 1, r.stop⟩ := by
  rw [copies, List.map_eq_append_iff] at h
  obtain ⟨before, after, hsplit, rfl, hafter⟩ := h
  obtain ⟨n, hn, rfl, rfl⟩ := List.range'_eq_append_iff.1 hsplit
  obtain ⟨a, as, hcons, ha, rfl⟩ := List.map_eq_cons_iff.1 hafter
  obtain ⟨rfl, hpos, rfl⟩ := List.range'_eq_cons_iff.1 hcons
  cases ha
  refine ⟨by omega, ?_⟩
  dsimp only [copies]
  congr 2
  omega

theorem copies_eq_nil_or_cons (i stop : Nat) : j.copies ⟨i, stop⟩ = []
      ∧ min stop j.source.tokens.size ≤ i
    ∨ ∃ more, j.copies ⟨i, stop⟩ = .copied i :: more := by
  dsimp only [copies]
  by_cases hi : min stop j.source.tokens.size ≤ i
  · refine .inl ⟨?_, hi⟩
    rw [Nat.sub_eq_zero_of_le hi]
    rfl
  · obtain ⟨n, hn⟩ := Nat.exists_eq_succ_of_ne_zero (Nat.sub_ne_zero_of_lt (Nat.lt_of_not_le hi))
    rw [hn, List.range'_succ, List.map_cons]
    exact .inr ⟨_, rfl⟩

/-- Behind a token that is copied there is the text of an edit, or the next token, or the end. -/
theorem pieced_split {edits : List Edit} (hstop : j.source.tokens.size ≤ stop)
    (h : j.pieced stop start (edits.map Edit.patch) = front ++ .copied i :: behind) :
    i < j.source.tokens.size ∧ (behind = [] ∧ i + 1 = j.source.tokens.size
      ∨ (∃ text more, behind = .put text :: more) ∨ ∃ more, behind = .copied (i + 1) :: more) := by
  induction edits generalizing start front with
  | nil =>
    obtain ⟨hi, rfl⟩ := copies_split h
    refine ⟨by omega, ?_⟩
    rcases j.copies_eq_nil_or_cons (i + 1) stop with ⟨hnil, hend⟩ | ⟨more, hcons⟩
    · exact .inl ⟨hnil, by omega⟩
    · exact .inr (.inr ⟨more, hcons⟩)
  | cons e edits ih =>
    rw [List.map_cons, pieced, List.append_assoc] at h
    rcases List.append_eq_append_iff.1 h with ⟨front', -, hsplit⟩ | ⟨inner, hcopies, hsplit⟩
    · -- the token is copied behind the edit
      cases front' with
      | nil => cases hsplit
      | cons x front' => exact ih (List.cons.inj hsplit).2
    · cases inner with
      | nil => cases hsplit
      | cons x inner =>
        obtain ⟨rfl, rfl⟩ := List.cons.inj hsplit
        obtain ⟨hi, rfl⟩ := copies_split hcopies
        refine ⟨by omega, .inr ?_⟩
        rcases j.copies_eq_nil_or_cons (i + 1) e.range.start with ⟨hnil, -⟩ | ⟨more, hcons⟩
        · exact .inl ⟨e.text, _, by rw [Edit.patch, hnil]; rfl⟩
        · exact .inr ⟨_, by rw [Edit.patch, hcons]; rfl⟩

theorem take_two_append {a a' X X' : List Char} (ha : a'.take 2 = a.take 2) (hne : a ≠ [])
    (hX : X'.take 1 = X.take 1) : (a' ++ X').take 2 = (a ++ X).take 2 := by
  match a, a', hne with
  | [x], [], _ => cases ha
  | [x], [y], _ =>
    cases ha
    simpa using hX
  | [x], y :: z :: a', _ => cases ha
  | x :: y :: a, [], _ => cases ha
  | x :: y :: a, [z], _ => cases ha
  | x :: y :: a, z :: w :: a', _ =>
    cases ha
    rfl

theorem take_one_append {a a' X X' : List Char} (ha : a'.take 2 = a.take 2) (hne : a ≠ []) :
    (a' ++ X').take 1 = (a ++ X).take 1 := by
  obtain ⟨x, a, rfl⟩ := List.exists_cons_of_ne_nil hne
  cases a' with
  | nil => cases ha
  | cons y a' =>
    rw [List.take_succ_cons, List.take_succ_cons, List.cons.injEq] at ha
    rw [ha.1]
    rfl

theorem charsFrom_of_size_le (hsource : j.source = .ofString text) (hi : j.source.tokens.size ≤ i) :
    charsFrom text.toList i = [] := by
  have hlength := congrArg List.length (map_toLexeme_tokens text)
  rw [List.length_map, List.length_map] at hlength
  rw [hsource] at hi
  have hsize : (Source.ofString text).tokens.size = (Stream.ofString text).tokens.length := rfl
  rw [charsFrom, List.drop_of_length_le (by omega), List.flatMap_nil]

/-- The characters that chunks make up. -/
theorem toList_chunksText_cons {c : Chunk} {cs : List Chunk} :
    (j.chunksText (c :: cs)).toList = (j.chunkText c).toList ++ (j.chunksText cs).toList := by
  rw [chunksText_cons, String.toList_append]

/-- Where neither of the next two parts is the text of an edit, what is behind a token looks like what
has been behind it. -/
theorem trails_behind {edits : List Edit} (hv : ∀ p, IsInner (j.vocabulary.name p).toList)
    (hsource : j.source = .ofString text) (hp : j.source.problems = []) (hstop : j.source.tokens.size ≤ stop)
    (h : j.pieced stop start (edits.map Edit.patch) = front ++ .copied i :: behind)
    (haway : (behind.take 2).any Chunk.isPut = false) :
    Scan.Trails (j.chunksText behind).toList (charsFrom text.toList (i + 1)) := by
  obtain ⟨-, ⟨rfl, -⟩ | ⟨put, more, rfl⟩ | ⟨more, rfl⟩⟩ := pieced_split hstop h
  · exact .inl rfl
  · simp [Chunk.isPut] at haway
  · rw [List.append_cons] at h
    obtain ⟨hi, hmore⟩ := pieced_split hstop h
    obtain ⟨hne, htake⟩ := take_chunkText_copied hv hsource hp hi
    obtain ⟨c, body, htext, hchars, -⟩ := exists_scan_tokenAt hsource hp hi
    rw [htext, String.toList_ofList] at hne htake
    refine .inr (.inl ?_)
    rw [toList_chunksText_cons, hchars]
    refine take_two_append htake hne ?_
    obtain ⟨rfl, hend⟩ | ⟨put, more, rfl⟩ | ⟨more, rfl⟩ := hmore
    · rw [charsFrom_of_size_le hsource (Nat.le_of_eq hend.symm)]
      rfl
    · simp [Chunk.isPut] at haway
    · rw [List.append_cons] at h
      have hi := (pieced_split hstop h).1
      obtain ⟨hne, htake⟩ := take_chunkText_copied hv hsource hp hi
      obtain ⟨c, body, htext, hchars, -⟩ := exists_scan_tokenAt hsource hp hi
      rw [htext, String.toList_ofList] at hne htake
      rw [toList_chunksText_cons, hchars]
      exact take_one_append htake hne

end Job

end Rewrite

/-! ## Templates -/

open Rewrite

namespace Template

variable {path : Path} {text : String} {t : Template} {b : Binding}

/-- The parts of the text for a binding: the tokens that are copied and the texts of the edits. -/
def parts (t : Template) (b : Binding) : List Chunk :=
  (t.job b).pieced t.file.source.whole.stop t.file.source.whole.start
    ((editsBefore (t.steps b)).map Edit.patch)

/-- Does every part that is the text of an edit, or has one in the next two parts, keep its tokens in
front of what is behind it? -/
def KeepsAtEdits (t : Template) (b : Binding) : Prop :=
  ∀ front part behind, t.parts b = front ++ part :: behind →
    part.isPut = true ∨ (behind.take 2).any Chunk.isPut = true →
    lexemes Kind.isVisible ((t.job b).chunkText part ++ (t.job b).chunksText behind)
      = lexemes Kind.isVisible ((t.job b).chunkText part)
        ++ lexemes Kind.isVisible ((t.job b).chunksText behind)

/-- A specialization fails with the first error of the walk, or it is the text of its parts. -/
theorem specialize_eq_parts {v : Vocabulary} (h : ofText path text v = .ok t) (b : Binding) :
    t.specialize b = match firstError? (t.steps b) with
      | some e => .error e
      | none => .ok ((t.job b).chunksText (t.parts b)) := by
  obtain ⟨-, -, -, q, hq, hlaid, -⟩ := laidAll_of_ofText h
  have hs := indexed_of_ofText h
  have hfits : Fits t.file.source q 0 (t.steps b) := Outline.fits_stepsAll (j := t.job b) hs hq hlaid
  have hedits : (t.job b).editOf ∘ Edit.patch = id := by
    funext e
    simp [Job.editOf, Edit.patch, Job.chunkText]
  simp only [specialize]
  cases firstError? (t.steps b) with
  | some e => rfl
  | none =>
    simp only
    rw [hfits.finish_eq_ok (j := t.job b) hs hq fun _ he => hfits.contains_whole hs he, parts,
      ← Job.splice_eq, List.map_map, hedits, List.map_id]

/-- The text of the parts of a template, part by part. -/
theorem toList_chunksText {j : Job} (cs : List Chunk) :
    (j.chunksText cs).toList = (cs.map fun c => (j.chunkText c).toList).flatten := by
  induction cs with
  | nil => rfl
  | cons c cs ih => rw [Job.toList_chunksText_cons, ih, List.map_cons, List.flatten_cons]

/-- Parts at which there is no edit keep their tokens. -/
theorem keepsAtEdits_iff (h : ofText path text {} = .ok t) : t.KeepsAtEdits b
    ↔ ∀ front part behind, t.parts b = front ++ part :: behind →
      lexemes Kind.isVisible ((t.job b).chunkText part ++ (t.job b).chunksText behind)
        = lexemes Kind.isVisible ((t.job b).chunkText part)
          ++ lexemes Kind.isVisible ((t.job b).chunksText behind) := by
  constructor
  · intro hkeeps front part behind hsplit
    by_cases hedit : part.isPut = true ∨ (behind.take 2).any Chunk.isPut = true
    · exact hkeeps front part behind hsplit hedit
    · rw [not_or, Bool.not_eq_true, Bool.not_eq_true] at hedit
      obtain ⟨hvocabulary, hsource, hproblems, -⟩ := laidAll_of_ofText h
      have hv : ∀ p, IsInner (t.vocabulary.name p).toList := hvocabulary ▸ isInner_name
      cases part with
      | put text => cases hedit.1
      | copied i =>
        have hstop : t.file.source.tokens.size ≤ t.file.source.whole.stop := Nat.le_succ _
        have hi := (Job.pieced_split (j := t.job b) hstop hsplit).1
        have htrails := Job.trails_behind (j := t.job b) hv hsource hproblems hstop hsplit hedit.2
        rw [lexemes_isVisible, lexemes_isVisible, lexemes_isVisible, String.toList_append]
        exact Job.keeps_copied (j := t.job b) hv hsource hproblems hi htrails
  · exact fun hkeeps front part behind hsplit _ => hkeeps front part behind hsplit

/-- The parts together have the tokens of each of them exactly if these are kept at the edits. -/
theorem lexemes_parts_iff (h : ofText path text {} = .ok t) :
    lexemes Kind.isVisible ((t.job b).chunksText (t.parts b))
      = (t.parts b).flatMap (fun part => lexemes Kind.isVisible ((t.job b).chunkText part))
    ↔ t.KeepsAtEdits b := by
  have hflat : (t.parts b).flatMap (fun part => lexemes Kind.isVisible ((t.job b).chunkText part))
      = ((t.parts b).map fun part => ((t.job b).chunkText part).toList).flatMap visible := by
    rw [List.flatMap_map]
    exact List.flatMap_congr fun part _ => lexemes_isVisible _
  rw [hflat, lexemes_isVisible, toList_chunksText, visible_flatten_iff, keepsAtEdits_iff h]
  constructor
  · intro hkeeps front part behind hsplit
    rw [lexemes_isVisible, lexemes_isVisible, lexemes_isVisible, String.toList_append, toList_chunksText]
    refine hkeeps (front.map fun part => ((t.job b).chunkText part).toList) _ _ ?_
    rw [hsplit, List.map_append, List.map_cons]
  · intro hkeeps front chars behind htexts
    obtain ⟨front, rest, hsplit, rfl, hrest⟩ := List.map_eq_append_iff.1 htexts
    obtain ⟨part, behind, rfl, rfl, rfl⟩ := List.map_eq_cons_iff.1 hrest
    have hkept := hkeeps front part behind hsplit
    rwa [lexemes_isVisible, lexemes_isVisible, lexemes_isVisible, String.toList_append,
      toList_chunksText] at hkept

/-- A text for a binding is made up of its parts, and it has their tokens, but for blanks, exactly if
these are kept at the edits. Then its code is that of the parts. -/
theorem lexemes_specialize_iff {out : String} (h : ofText path text {} = .ok t)
    (hout : t.specialize b = .ok out) :
    out = String.join ((t.parts b).map (t.job b).chunkText)
      ∧ (lexemes Kind.isVisible out
          = (t.parts b).flatMap (fun part => lexemes Kind.isVisible ((t.job b).chunkText part))
        ↔ t.KeepsAtEdits b)
      ∧ (t.KeepsAtEdits b → lexemes Kind.isCode out
        = (t.parts b).flatMap fun part => lexemes Kind.isCode ((t.job b).chunkText part)) := by
  have hparts : out = (t.job b).chunksText (t.parts b) := by
    rw [specialize_eq_parts h] at hout
    split at hout
    · contradiction
    · cases hout
      rfl
  have hiff : lexemes Kind.isVisible out
      = (t.parts b).flatMap (fun part => lexemes Kind.isVisible ((t.job b).chunkText part))
        ↔ t.KeepsAtEdits b := by
    rw [hparts]
    exact lexemes_parts_iff h
  refine ⟨hparts, hiff, fun hkeeps => ?_⟩
  rw [lexemes_isCode, hiff.2 hkeeps, List.filter_flatMap]
  exact List.flatMap_congr fun part _ => (lexemes_isCode _).symm

/-- The theorem at a list of type arguments that stands directly in front of a name. Without the list
the name of the class goes on into that name. -/
theorem lexemes_specialize_glued : ∃ t out, ofText ⟨"KTypeA.java"⟩
      "class KTypeA<KType> \x7b KTypeA<KType>x; \x7d" {} = .ok t
    ∧ t.specialize ⟨.int, none⟩ = .ok out ∧ out = "class IntA \x7b IntAx; \x7d"
    ∧ ¬t.KeepsAtEdits ⟨.int, none⟩
    ∧ lexemes Kind.isCode out ≠ (t.parts ⟨.int, none⟩).flatMap fun part =>
      lexemes Kind.isCode ((t.job ⟨.int, none⟩).chunkText part) := by
  obtain ⟨t, ht, hok⟩ := exists_ok_of_sees
    (x := ofText ⟨"KTypeA.java"⟩ "class KTypeA<KType> \x7b KTypeA<KType>x; \x7d" {})
    (fun t => (firstError? (t.steps ⟨.int, none⟩)).isNone
        && (t.job ⟨.int, none⟩).chunksText (t.parts ⟨.int, none⟩) == "class IntA \x7b IntAx; \x7d"
        && (t.parts ⟨.int, none⟩).flatMap (fun part =>
          lexemes Kind.isCode ((t.job ⟨.int, none⟩).chunkText part))
          != lexemes Kind.isCode "class IntA \x7b IntAx; \x7d")
    (by decide +kernel)
  simp only [Bool.and_eq_true, Option.isNone_iff_eq_none, beq_iff_eq, bne_iff_ne] at hok
  obtain ⟨⟨hsteps, htext⟩, hcode⟩ := hok
  have hout := specialize_eq_parts ht ⟨.int, none⟩
  rw [hsteps, htext] at hout
  obtain ⟨-, -, hkeeps⟩ := lexemes_specialize_iff ht hout
  exact ⟨t, _, ht, hout, rfl, fun h => hcode (hkeeps h).symm, hcode.symm⟩

end Template

end Stencil
