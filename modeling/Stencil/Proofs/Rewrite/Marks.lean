import Stencil.Proofs.Rewrite.Writes

/-!
# The code tokens of what chunks make up

A text is put together from chunks, and each chunk has code tokens of its own: a copied token is
itself, and a text that is put in is read as any text. What is between two code tokens of the template
has none, so a stretch of code with patches put in has the tokens of its parts one after the other.

Results: stretches one after the other have the tokens of both (`Renders.append`), a copied token is
itself (`Renders.token`), a patch over a stretch has the tokens of its chunks (`Renders.patch`), and so
has what is rendered on its own (`Renders.marks_rendered`). A stretch of the template that is put in as
one text has its tokens, too (`Renders.kindsOf_sourceText`).
-/

namespace Stencil

/-- The kinds of the code tokens of a text. -/
def kindsOf (text : String) : List Kind :=
  (lexemes Kind.isCode text).map (·.kind)

/-- Is every one of the texts read by itself, whatever is behind it? -/
def StayApart : List String → Prop
  | [] => True
  | text :: rest =>
    kindsOf (text ++ String.join rest) = kindsOf text ++ kindsOf (String.join rest) ∧ StayApart rest

instance decidableStayApart : ∀ texts, Decidable (StayApart texts)
  | [] => .isTrue trivial
  | _ :: rest =>
    have := decidableStayApart rest
    inferInstanceAs (Decidable (_ ∧ _))

theorem kindsOf_of_strewn {text : String} {xs : List Lexeme} (h : Strewn xs text.toList)
    (hx : Phrase xs) : kindsOf text = xs.map (·.kind) := by
  rw [kindsOf, lexemes_isCode_eq, h.code_eq hx]

/-- What stands for a name is read as a name or as the keyword of a primitive type. -/
theorem exists_kindsOf_of_isWordText {text : String} (h : Rewrite.IsWordText text) :
    ∃ k, (k = .identifier ∨ k.isPrimitiveType = true) ∧ kindsOf text = [k] := by
  obtain ⟨hphrase, -, htext⟩ := Rewrite.asRead_name h
  have hstrewn := Strewn.token (Lexeme.asRead ⟨.identifier, text⟩)
  rw [htext] at hstrewn
  refine ⟨_, ?_, kindsOf_of_strewn hstrewn hphrase⟩
  rcases h with h | ⟨t, ht⟩
  · obtain ⟨-, -, -, -, -, hkeyword⟩ := isName_iff.1 h
    simp [Lexeme.asRead, hkeyword]
  · cases t <;> cases ht <;> exact .inr (by decide)

namespace Rewrite

/-- A code token of a text that is put together. -/
structure Mark where
  /-- The kind of the token. -/
  kind : Kind
  /-- The index of the token in the template, if it is copied from there. -/
  index? : Option Nat
deriving DecidableEq, Repr

/-- Tokens of a text that is put in. -/
def own (ks : List Kind) : List Mark :=
  ks.map (⟨·, none⟩)

@[simp] theorem own_nil : own [] = [] := rfl

@[simp] theorem own_cons {k : Kind} {ks : List Kind} : own (k :: ks) = ⟨k, none⟩ :: own ks := rfl

@[simp] theorem map_kind_own {ks : List Kind} : (own ks).map (·.kind) = ks := by
  rw [own, List.map_map]
  exact List.map_id ks

variable {j : Job} {text : String} {p m q i : Nat} {cs ds : List Chunk}

namespace Job

/-- The code tokens of a chunk by itself. -/
def chunkMarks (j : Job) : Chunk → List Mark
  | .copied i => (kindsOf (j.chunkText (.copied i))).map (⟨·, some i⟩)
  | .put text => own (kindsOf text)

/-- The code tokens of chunks, each chunk by itself. -/
def marks (j : Job) (cs : List Chunk) : List Mark :=
  cs.flatMap j.chunkMarks

@[simp] theorem marks_nil : j.marks [] = [] := rfl

@[simp] theorem marks_cons {c : Chunk} : j.marks (c :: cs) = j.chunkMarks c ++ j.marks cs :=
  List.flatMap_cons

@[simp] theorem marks_append : j.marks (cs ++ ds) = j.marks cs ++ j.marks ds :=
  List.flatMap_append

@[simp] theorem chunkMarks_put : j.chunkMarks (.put text) = own (kindsOf text) := rfl

theorem map_kind_chunkMarks (c : Chunk) : (j.chunkMarks c).map (·.kind) = kindsOf (j.chunkText c) := by
  cases c with
  | copied i =>
    rw [chunkMarks, List.map_map]
    exact List.map_id _
  | put text => exact map_kind_own

/-- Does no chunk go on into what is behind it? -/
def Apart (j : Job) (cs : List Chunk) : Prop :=
  StayApart (cs.map j.chunkText)

theorem Apart.of_texts {texts : List String} (h : cs.map j.chunkText = texts) (hstay : StayApart texts) :
    j.Apart cs := by
  rw [Apart, h]
  exact hstay

/-- Then the text of the chunks has the tokens of each of them. -/
theorem Apart.kindsOf_eq (h : j.Apart cs) :
    kindsOf (j.chunksText cs) = (j.marks cs).map (·.kind) := by
  induction cs with
  | nil => rfl
  | cons c cs ih =>
    have hfirst : kindsOf (j.chunkText c ++ j.chunksText cs) = _ := h.1
    rw [chunksText_cons, hfirst, marks_cons, List.map_append, map_kind_chunkMarks]
    exact congrArg _ (ih h.2)

/-- A copied token is itself, and a comment stays one. -/
theorem chunkMarks_copied (hj : j.IsReady text) (hi : i < j.source.tokens.size) :
    j.chunkMarks (.copied i)
      = if (j.source.tokenAt i).isCode then [⟨(j.source.tokenAt i).kind, some i⟩] else [] := by
  have hkinds : kindsOf (j.chunkText (.copied i))
      = if (j.source.tokenAt i).isCode then [(j.source.tokenAt i).kind] else [] := by
    obtain ⟨c, body, htext, -, hscan⟩ := exists_scan_tokenAt hj.source hj.problems hi
    rw [kindsOf, lexemes_isCode, lexemes_isVisible, chunkText, tokenText, Token.isCode]
    generalize (j.source.tokenAt i).kind = k at hscan ⊢
    have single {body' : List Char} (hc : Scan.isSpace c = false)
        (hfound : scan c (body' ++ []) = .token k body'.length) :
        ((visible (c :: body')).filter fun x => x.kind.isCode).map (·.kind)
          = if k.isCode then [k] else [] := by
      have hvisible := visible_append_of_scan hc hfound
      rw [List.append_nil, visible_nil] at hvisible
      rw [hvisible]
      cases hk : k.isCode <;> simp [hk]
    cases hc : Scan.isSpace c with
    | true =>
      rw [Scan.scan_of_space hc, Finding.token_inj] at hscan
      obtain ⟨rfl, hlength⟩ := hscan
      have hblank : ∀ x ∈ c :: body, Scan.isSpace x = true :=
        List.forall_mem_cons.2 ⟨hc, Scan.all_of_countWhile hlength⟩
      have halone : visible (c :: body ++ []) = visible [] := visible_append_of_blank hblank
      rw [List.append_nil, visible_nil] at halone
      change ((visible (j.source.tokenAt i).text.toList).filter fun x => x.kind.isCode).map (·.kind) = []
      rw [htext, String.toList_ofList, halone]
      rfl
    | false =>
      split
      · rename_i hk
        obtain ⟨d, cs, ds, -, hcomment, hfound⟩ :=
          scan_rewriteComment (b := j.binding) hj.names hk hscan
        rw [htext, hcomment]
        exact single hc (hfound [] (.inl rfl))
      · rw [htext, String.toList_ofList]
        exact single hc (Scan.scan_congr hscan (.inl rfl))
  rw [chunkMarks, hkinds]
  split <;> rfl

/-- Tokens behind a code token and in front of the next one have no code. -/
theorem marks_copies_gap (hj : j.IsReady text) (hi : j.source.index p < i) :
    j.marks (j.copies ⟨i, j.source.index (p + 1)⟩) = [] := by
  induction hd : j.source.index (p + 1) - i generalizing i with
  | zero => rw [copies_of_le (by omega), marks_nil]
  | succ d ih =>
    have hsize : j.source.index (p + 1) ≤ j.source.tokens.size := hj.indexed.index_le_size
    rw [copies_cons (by omega) (by omega), marks_cons, ih (by omega) (by omega),
      chunkMarks_copied hj (by omega), isCode_eq_false hj.indexed hi (by omega)]
    rfl

end Job

/-! ## Stretches of code -/

/-- With the patches put in, do the tokens from a position up to another one have these code tokens? -/
structure Renders (j : Job) (p q : Nat) (patches : List Patch) (xs : List Mark) : Prop where
  le : p ≤ q
  ordered : Ordered (j.source.index p) (j.source.index q) patches
  marks_eq : j.marks (j.pieced (j.source.index q) (j.source.index p) patches) = xs

namespace Renders

variable {px py : List Patch} {xs ys : List Mark}

theorem nil : Renders j p p [] [] := by
  refine ⟨Nat.le_refl p, .nil, ?_⟩
  rw [Job.pieced, Job.copies_self, Job.marks_nil]

theorem append (hj : j.IsReady text) (hx : Renders j p m px xs) (hy : Renders j m q py ys) :
    Renders j p q (px ++ py) (xs ++ ys) := by
  have hpm := hj.indexed.index_le_index hx.le
  have hmq := hj.indexed.index_le_index hy.le
  refine ⟨Nat.le_trans hx.le hy.le, hx.ordered.append hy.ordered hpm hmq, ?_⟩
  rw [Job.pieced_append hx.ordered hy.ordered hpm hmq, Job.marks_append, hx.marks_eq, hy.marks_eq]

/-- A code token that is copied. -/
theorem token (hj : j.IsReady text) (hp : p < j.source.code.size) :
    Renders j p (p + 1) [] [⟨(j.source.codeToken p).kind, some (j.source.index p)⟩] := by
  have hlt := hj.indexed.index_lt_index p.lt_succ_self hp
  refine ⟨p.le_succ, .nil, ?_⟩
  rw [Job.pieced, Job.copies_cons hlt (hj.indexed.index_lt_size hp), Job.marks_cons,
    Job.marks_copies_gap hj (Nat.lt_succ_self _), Job.chunkMarks_copied hj (hj.indexed.index_lt_size hp),
    if_pos (hj.indexed.isCode_tokenAt_index hp)]
  rfl

/-- A patch over the whole stretch. It may reach into what is between the stretch and the next code
token. -/
theorem patch (hj : j.IsReady text) (hpq : p < q) {r : TokenRange} (hstart : r.start = j.source.index p)
    (hlast : j.source.index (q - 1) < r.stop) (hstop : r.stop ≤ j.source.index q) (cs : List Chunk) :
    Renders j p q [⟨r, cs⟩] (j.marks cs) := by
  have hle := hj.indexed.index_le_index (show p ≤ q - 1 by omega)
  refine ⟨Nat.le_of_lt hpq, ⟨?_, List.pairwise_singleton _ _, ?_, ?_⟩, ?_⟩
  · simp only [List.forall_mem_singleton]
    omega
  · simp [hstart]
  · simpa using hstop
  · have hgap := Job.marks_copies_gap hj hlast
    rw [Nat.sub_add_cancel (by omega)] at hgap
    simp only [Job.pieced, hstart, Job.copies_self, List.nil_append, Job.marks_append, hgap, List.append_nil]

theorem patch_range (hj : j.IsReady text) (hpq : p < q) (hq : q ≤ j.source.code.size) (cs : List Chunk) :
    Renders j p q [⟨j.source.range ⟨p, q⟩, cs⟩] (j.marks cs) := by
  have hnext := hj.indexed.index_lt_index (show q - 1 < q by omega) (by omega)
  refine patch hj hpq rfl ?_ ?_ cs <;> simp only [Source.range, if_pos hpq] <;> omega

/-- What is rendered on its own ends with its last code token. -/
theorem marks_rendered (hj : j.IsReady text) (hq : q ≤ j.source.code.size) (h : Renders j p q px xs) :
    j.marks (j.rendered ⟨p, q⟩ px) = xs := by
  have hends {start stop stop' : Nat} {px : List Patch} (hle : stop ≤ stop')
      (hgap : ∀ i, stop ≤ i → j.marks (j.copies ⟨i, stop'⟩) = []) :
      j.marks (j.pieced stop start px) = j.marks (j.pieced stop' start px) := by
    induction px generalizing start with
    | nil =>
      rw [Job.pieced, Job.pieced]
      rcases Nat.le_total start stop with hstart | hstart
      · rw [Job.copies_append hstart hle, Job.marks_append, hgap stop (Nat.le_refl stop), List.append_nil]
      · rw [Job.copies_of_le (by omega), hgap start hstart, Job.marks_nil]
    | cons x px ih => simp only [Job.pieced, Job.marks_append, ih]
  rw [← h.marks_eq]
  rcases Nat.eq_or_lt_of_le h.le with rfl | hpq
  · simp [Job.rendered, Source.range]
  · have hnext := hj.indexed.index_lt_index (show q - 1 < q by omega) (by omega)
    rw [Writes.rendered_eq hpq]
    refine hends hnext fun i hi => ?_
    have hgap := Job.marks_copies_gap (i := i) hj hi
    rwa [Nat.sub_add_cancel (by omega)] at hgap

end Renders

/-! ## Stretches that are put in as one text -/

namespace Job

variable {stop : Nat}

theorem text_cons (hi : i < stop) (hsize : i < j.source.tokens.size) :
    j.source.text ⟨i, stop⟩ = (j.source.tokenAt i).text ++ j.source.text ⟨i + 1, stop⟩ := by
  have hlist : (j.source.tokens.extract i stop).toList
      = j.source.tokenAt i :: (j.source.tokens.extract (i + 1) stop).toList := by
    rw [Array.toList_extract, Array.toList_extract, List.extract_eq_take_drop, List.extract_eq_take_drop,
      List.drop_eq_getElem_cons (by simpa using hsize), show stop - i = stop - (i + 1) + 1 by omega,
      List.take_succ_cons, Array.getElem_toList, Source.tokenAt_of_lt hsize]
  rw [Source.text, Source.text, hlist, List.map_cons, String.join_cons]

theorem text_of_le (h : stop ≤ i) : j.source.text ⟨i, stop⟩ = "" := by
  rw [Source.text, Array.extract_empty_of_stop_le_start h]
  rfl

/-- A range of tokens is followed by the rest of the text. -/
theorem charsFrom_eq_text (hj : j.IsReady text) (hi : i ≤ stop) (hstop : stop ≤ j.source.tokens.size) :
    charsFrom text.toList i = (j.source.text ⟨i, stop⟩).toList ++ charsFrom text.toList stop := by
  induction hd : stop - i generalizing i with
  | zero =>
    obtain rfl : i = stop := by omega
    rw [text_of_le (Nat.le_refl i)]
    rfl
  | succ d ih =>
    obtain ⟨c, body, htext, hchars, -⟩ := exists_scan_tokenAt hj.source hj.problems (show i < _ by omega)
    rw [text_cons (by omega) (by omega), String.toList_append, htext, String.toList_ofList, hchars,
      ih (by omega) (by omega), List.append_assoc]

/-- The end of a text looks like the rest of the text, unless it is a single point. -/
theorem trails_text (hj : j.IsReady text) (hi : i ≤ stop) (hstop : stop ≤ j.source.tokens.size)
    (hlast : (j.source.tokenAt (stop - 1)).text ≠ ".") :
    Scan.Trails (j.source.text ⟨i, stop⟩).toList (charsFrom text.toList i) := by
  have hchars := charsFrom_eq_text hj hi hstop
  rw [hchars]
  generalize hend : (j.source.text ⟨i, stop⟩).toList = chars
  match chars with
  | [] => exact .inl rfl
  | [d] =>
    refine .inr (.inr ⟨d, _, rfl, rfl, ?_⟩)
    rintro rfl
    -- a token of its own: none of the tokens of the range is empty
    have hlt : i < stop := by
      refine Nat.lt_of_not_le fun hle => ?_
      rw [text_of_le hle] at hend
      contradiction
    obtain ⟨c, body, htext, -, -⟩ := exists_scan_tokenAt hj.source hj.problems (show i < _ by omega)
    rw [text_cons hlt (by omega), String.toList_append, htext, String.toList_ofList] at hend
    obtain ⟨rfl, hrest⟩ := List.cons.inj hend
    obtain ⟨rfl, hbehind⟩ := List.append_eq_nil_iff.1 hrest
    have hone : stop = i + 1 := by
      refine Nat.le_antisymm (Nat.le_of_not_lt fun hmore => ?_) hlt
      obtain ⟨c, body, htext, -, -⟩ :=
        exists_scan_tokenAt hj.source hj.problems (show i + 1 < _ by omega)
      rw [text_cons hmore (by omega), String.toList_append, htext, String.toList_ofList] at hbehind
      exact List.cons_ne_nil _ _ hbehind
    rw [hone, Nat.add_sub_cancel] at hlast
    exact hlast htext
  | c :: d :: rest => exact .inr (.inl rfl)

/-- What a range of tokens is read as on its own. -/
theorem kindsOf_text (hj : j.IsReady text) (hstop : stop ≤ j.source.tokens.size)
    (hlast : (j.source.tokenAt (stop - 1)).text ≠ ".") :
    kindsOf (j.source.text ⟨i, stop⟩) = (j.marks (j.copies ⟨i, stop⟩)).map (·.kind) := by
  rw [kindsOf, lexemes_isCode, lexemes_isVisible]
  induction hd : stop - i generalizing i with
  | zero =>
    rw [text_of_le (by omega), copies_of_le (by omega)]
    rfl
  | succ d ih =>
    have hi : i < j.source.tokens.size := by omega
    obtain ⟨c, body, htext, -, hscan⟩ := exists_scan_tokenAt hj.source hj.problems hi
    rw [copies_cons (by omega) hi, marks_cons, List.map_append, ← ih (by omega),
      chunkMarks_copied hj hi, text_cons (by omega) hi, String.toList_append, htext, String.toList_ofList,
      Token.isCode]
    generalize (j.source.tokenAt i).kind = k at hscan ⊢
    cases hc : Scan.isSpace c with
    | true =>
      rw [Scan.scan_of_space hc, Finding.token_inj] at hscan
      obtain ⟨rfl, hlength⟩ := hscan
      rw [visible_append_of_blank (List.forall_mem_cons.2 ⟨hc, Scan.all_of_countWhile hlength⟩)]
      rfl
    | false =>
      have htrails := trails_text hj (show i + 1 ≤ stop by omega) hstop hlast
      rw [visible_append_of_scan hc (Scan.scan_congr hscan htrails)]
      cases hk : k.isCode <;> simp [hk]

end Job

/-- A stretch of the template that is put in as one text has its tokens, if it does not end with a
point. -/
theorem Renders.kindsOf_sourceText {xs : List Mark} (hj : j.IsReady text) (hq : q ≤ j.source.code.size)
    (hpq : p < q) (h : Renders j p q [] xs) (hlast : (j.source.codeToken (q - 1)).text ≠ ".") :
    kindsOf (j.sourceText ⟨p, q⟩) = xs.map (·.kind) := by
  have hsize := hj.indexed.index_lt_size (show q - 1 < j.source.code.size by omega)
  rw [← h.marks_rendered hj hq, Job.sourceText, Job.rendered]
  simp only [Source.range, if_pos hpq, Job.pieced]
  exact Job.kindsOf_text hj hsize hlast

end Rewrite

end Stencil
