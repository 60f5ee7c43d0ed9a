import Stencil.Proofs.Rewrite.Comment
import Stencil.Proofs.Rewrite.Dissection

/-!
# Comments taken apart

A comment has the same pieces as a name: placeholders, and the characters between them. The walk over
a comment passes a bound placeholder as a whole and an unbound one character by character, and in a
plain vocabulary it comes to the end of each piece. So what is written for a comment is written piece
by piece. If no placeholder begins inside of a placeholder, each place at which one stands is a piece.

Results: the pieces make up the text (`sources_dissectFrom`), a comment is rewritten piece by piece
(`commented_eq_written`), and a placeholder anywhere in a text is a piece of its own
(`Vocabulary.dissectFrom_append_name`).
-/

namespace Stencil

variable {v : Vocabulary} {b : Binding} {p q : Placeholder} {t : ConcreteType}
variable {rest text xs : List Char} {c a : Char} {n : Nat}

/-! ## Pieces -/

/-- The piece as it stands in the text. -/
def NamePiece.source (v : Vocabulary) : NamePiece → List Char
  | .placeholder p => (v.name p).toList
  | .char c => [c]

/-- The text that the pieces make up. -/
def sources (v : Vocabulary) (pieces : List NamePiece) : List Char :=
  pieces.flatMap (NamePiece.source v)

theorem sources_cons {piece : NamePiece} {pieces : List NamePiece} :
    sources v (piece :: pieces) = piece.source v ++ sources v pieces :=
  List.flatMap_cons

theorem sources_append {pieces more : List NamePiece} :
    sources v (pieces ++ more) = sources v pieces ++ sources v more :=
  List.flatMap_append

open Vocabulary in
theorem sources_dissectFrom (hv : v.isPlain = true) : sources v (v.dissectFrom 0 text) = text := by
  induction text using dissectFrom_induction (toList_name_ne_nil hv) with
  | nil => rfl
  | placeholder p rest hlead ih =>
    rw [dissectFrom_name_append (toList_name_ne_nil hv p) hlead, sources_cons, ih, NamePiece.source]
  | char c rest hlead ih =>
    rw [dissectFrom, hlead]
    exact congrArg (c :: ·) ih

/-! ## Places of placeholders -/

namespace Vocabulary

/-- A placeholder does not begin in the other one. -/
theorem exists_initial (hv : v.isPlain = true) (hpq : p ≠ q) :
    ∃ a as, (v.name p).toList = a :: as ∧ a ∉ (v.name q).toList := by
  obtain ⟨a, as, b, bs, hprimary, hsecondary, ha, hb⟩ := exists_initials hv
  cases p <;> cases q <;> try contradiction
  · exact ⟨a, as, hprimary, by rwa [name, hsecondary]⟩
  · exact ⟨b, bs, hsecondary, by rwa [name, hprimary]⟩

/-- Does no placeholder begin inside of itself? -/
def IsSimple (v : Vocabulary) : Prop :=
  ∀ p a as, (v.name p).toList = a :: as → a ∉ as

theorem isSimple_default : ({} : Vocabulary).IsSimple := by
  rintro (_ | _) a as has <;> cases has <;> decide

/-- No placeholder begins inside of a placeholder. -/
theorem notMem_of_name {as ds : List Char} {d : Char} (hv : v.isPlain = true) (hs : v.IsSimple)
    (hp : (v.name p).toList = a :: as) (hq : (v.name q).toList = d :: ds) : a ∉ ds := by
  by_cases hpq : p = q
  · subst hpq
    obtain ⟨rfl, rfl⟩ := List.cons.inj (hp.symm.trans hq)
    exact hs p a as hp
  · obtain ⟨a', as', hp', ha⟩ := exists_initial hv hpq
    obtain ⟨rfl, -⟩ := List.cons.inj (hp.symm.trans hp')
    rw [hq, List.mem_cons, not_or] at ha
    exact ha.2

/-- What a text begins with does not depend on a placeholder behind it. -/
theorem leading?_append_name (hv : v.isPlain = true) (hs : v.IsSimple) (hne : text ≠ []) :
    v.leading? (text ++ ((v.name p).toList ++ rest)) = v.leading? text := by
  obtain ⟨c, cs, rfl⟩ := List.exists_cons_of_ne_nil hne
  obtain ⟨a, as, hp⟩ := List.exists_cons_of_ne_nil (toList_name_ne_nil hv p)
  refine congrArg (Placeholder.both.find? ·) (funext fun q => ?_)
  obtain ⟨d, ds, hq⟩ := List.exists_cons_of_ne_nil (toList_name_ne_nil hv q)
  rw [Bool.eq_iff_iff, List.isPrefixOf_iff_prefix, List.isPrefixOf_iff_prefix, hq, hp, List.cons_append,
    List.cons_append, List.cons_prefix_cons, List.cons_prefix_cons,
    Text.prefix_append_cons_iff (notMem_of_name hv hs hp hq)]

theorem not_prefix_name_append (hv : v.isPlain = true) (hqp : q ≠ p) :
    ¬(v.name q).toList <+: (v.name p).toList ++ rest := by
  obtain ⟨a, as, hq, ha⟩ := exists_initial hv hqp
  obtain ⟨d, ds, hp⟩ := List.exists_cons_of_ne_nil (toList_name_ne_nil hv p)
  rw [hp, List.mem_cons, not_or] at ha
  rw [hq, hp, List.cons_append, List.cons_prefix_cons]
  intro hpre
  exact ha.1 hpre.1

theorem leading?_name (hv : v.isPlain = true) : v.leading? ((v.name p).toList ++ rest) = some p := by
  cases hlead : v.leading? ((v.name p).toList ++ rest) with
  | none => exact absurd (List.prefix_append _ _) (not_prefix_of_leading? hlead p)
  | some q =>
    by_cases hqp : q = p
    · rw [hqp]
    · exact absurd (prefix_of_leading? hlead) (not_prefix_name_append hv hqp)

/-- A placeholder is a piece wherever it stands in a text. -/
theorem dissectFrom_append_name (hv : v.isPlain = true) (hs : v.IsSimple) :
    v.dissectFrom 0 (text ++ ((v.name p).toList ++ rest))
      = v.dissectFrom 0 text ++ .placeholder p :: v.dissectFrom 0 rest := by
  induction text using dissectFrom_induction (toList_name_ne_nil hv) with
  | nil => exact dissectFrom_name_append (toList_name_ne_nil hv p) (leading?_name hv)
  | placeholder q more hlead ih =>
    rw [List.append_assoc, dissectFrom_name_append (toList_name_ne_nil hv q) (leading?_name hv), ih,
      dissectFrom_name_append (toList_name_ne_nil hv q) hlead, List.cons_append]
  | char c more hlead ih =>
    have hbehind : v.leading? (c :: (more ++ ((v.name p).toList ++ rest))) = none := by
      rw [← hlead]
      exact leading?_append_name hv hs (List.cons_ne_nil c more)
    rw [List.cons_append, dissectFrom, hbehind, dissectFrom, hlead]
    exact congrArg (NamePiece.char c :: ·) ih

end Vocabulary

/-! ## The walk over a comment -/

namespace Rewrite

/-- The characters of a rewritten comment, in as many steps as there are characters. -/
def commented (v : Vocabulary) (b : Binding) (text : List Char) : List Char :=
  commentSteps v b text.length text

theorem commentSteps_eq_commented (hv : IsNamed v b) (hn : text.length ≤ n) :
    commentSteps v b n text = commented v b text := by
  have h : some ("" ++ String.ofList (commentSteps v b n text))
      = some ("" ++ String.ofList (commented v b text)) :=
    (commentLoop_eq hv hn).symm.trans (commentLoop_eq hv (Nat.le_refl _))
  simpa [String.ofList_inj] using h

/-- A comment that begins with a bound placeholder. -/
theorem commented_append_name (hv : v.isPlain = true) (ht : b.resolve p = some t) :
    commented v b ((v.name p).toList ++ rest) = (wordBefore t rest).toList ++ commented v b rest := by
  have hfirst : p = .primary ∨ ¬(v.name .primary).toList <+: (v.name p).toList ++ rest := by
    by_cases hp : p = .primary
    · exact .inl hp
    · exact .inr (Vocabulary.not_prefix_name_append hv (Ne.symm hp))
  have hne : (v.name p).toList ++ rest ≠ [] :=
    List.append_ne_nil_of_left_ne_nil (Vocabulary.toList_name_ne_nil hv p) rest
  have hstep := commentStep_of_found hne (leadingPlaceholder?_append ht hfirst)
  obtain ⟨a, as, hname⟩ := List.exists_cons_of_ne_nil (Vocabulary.toList_name_ne_nil hv p)
  rw [hname, List.cons_append] at hstep ⊢
  have hlength : rest.length ≤ (as ++ rest).length := by
    rw [List.length_append]
    omega
  unfold commented
  rw [List.length_cons, commentSteps, hstep]
  show _ ++ commentSteps v b (as ++ rest).length rest = _
  rw [commentSteps_eq_commented (isNamed_of_isPlain hv) hlength, commented]

/-- A comment that begins with a character at which no bound placeholder stands. -/
theorem commented_cons (hc : ∀ p, (b.resolve p).isSome = true → ¬(v.name p).toList <+: c :: rest) :
    commented v b (c :: rest) = c :: commented v b rest := by
  rw [commented, List.length_cons, commentSteps,
    commentStep_of_not_found (leadingPlaceholder?_eq_none hc)]
  rfl

/-- Characters that no bound placeholder begins with are copied. -/
theorem commented_append_of_notMem
    (hxs : ∀ p, (b.resolve p).isSome = true → ∃ a as, (v.name p).toList = a :: as ∧ a ∉ xs) :
    commented v b (xs ++ rest) = xs ++ commented v b rest := by
  induction xs with
  | nil => rfl
  | cons x xs ih =>
    rw [List.cons_append, commented_cons, ih, List.cons_append]
    · intro p hp
      obtain ⟨a, as, hname, ha⟩ := hxs p hp
      exact ⟨a, as, hname, fun hmem => ha (List.mem_cons_of_mem x hmem)⟩
    · intro p hp hpre
      obtain ⟨a, as, hname, ha⟩ := hxs p hp
      rw [hname, List.cons_prefix_cons] at hpre
      exact ha (hpre.1 ▸ List.mem_cons_self)

/-- What is written for the pieces of a comment. The word for a bound placeholder is chosen by what
stands behind it in the comment, and everything else is copied. -/
def written (v : Vocabulary) (b : Binding) : List NamePiece → List Char
  | [] => []
  | .placeholder p :: pieces =>
    match b.resolve p with
    | some t => (wordBefore t (sources v pieces)).toList ++ written v b pieces
    | none => (v.name p).toList ++ written v b pieces
  | .char c :: pieces => c :: written v b pieces

open Vocabulary in
/-- A comment is rewritten piece by piece. -/
theorem commented_eq_written (hv : v.isPlain = true) :
    commented v b text = written v b (v.dissectFrom 0 text) := by
  induction text using dissectFrom_induction (toList_name_ne_nil hv) with
  | nil => rfl
  | placeholder p rest hlead ih =>
    rw [dissectFrom_name_append (toList_name_ne_nil hv p) hlead, written]
    cases ht : b.resolve p with
    | some t => rw [commented_append_name hv ht, ih, sources_dissectFrom hv]
    | none =>
      rw [commented_append_of_notMem, ih]
      intro q hq
      refine exists_initial hv fun hqp => ?_
      rw [hqp, ht] at hq
      contradiction
  | char c rest hlead ih =>
    rw [commented_cons fun q _ => not_prefix_of_leading? hlead q, ih, dissectFrom, hlead, written]

theorem toList_rewriteComment_eq_written {text : String} (hv : v.isPlain = true) :
    (rewriteComment v b text).toList = written v b (v.dissect text) :=
  (toList_rewriteComment (isNamed_of_isPlain hv)).trans (commented_eq_written hv)

end Rewrite

end Stencil
