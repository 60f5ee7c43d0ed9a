import Stencil.Proofs.Rewrite.Walk

/-!
# What a text is put together from

The walk puts texts in place of ranges of tokens, and what is in such a text can no longer be told
from the text. Here the same walk keeps the chunks: the tokens of the template that are copied, and
the texts that are put in, at every depth of what is rendered on its own.

Results: the chunks of a patch make up the text of the edit that the walk makes
(`Outline.agrees_stepsAll`).
-/

namespace Stencil.Rewrite

/-- A piece of a text that is put together. -/
inductive Chunk where
  /-- The token of an index in the stream, copied as it is; comments are rewritten. -/
  | copied (index : Nat)
  /-- A text that is put in. -/
  | put (text : String)
deriving DecidableEq, Repr

/-- Chunks to be put in place of a range of tokens. -/
structure Patch where
  /-- The tokens that are replaced. -/
  range : TokenRange
  /-- The chunks in place of them. -/
  chunks : List Chunk
deriving DecidableEq, Repr

/-- The chunks of an argument of a call. -/
structure ChunkedOperand where
  /-- The chunks. -/
  chunks : List Chunk
  /-- Can the text stand beside an operator without parentheses? -/
  atomic : Bool
deriving DecidableEq, Repr

/-- The argument as it can stand beside an operator. -/
def ChunkedOperand.wrapped (o : ChunkedOperand) : List Chunk :=
  if o.atomic then o.chunks else .put "(" :: (o.chunks ++ [.put ")"])

/-- The chunks of a fragment with the arguments filled in. -/
def Fragment.chunks (args : List ChunkedOperand) : Fragment → List Chunk
  | .fixed text => [.put text]
  | .plain i => (args[i]?.map (·.chunks)).getD []
  | .beside i => (args[i]?.map ChunkedOperand.wrapped).getD []

/-- The chunks of entries between angle brackets, and none if there are no entries. -/
def angleChunks (entries : List (List Chunk)) : List Chunk :=
  if entries.isEmpty then [] else .put "<" :: ([.put ", "].intercalate entries ++ [.put ">"])

namespace Job

variable (j : Job)

/-! ## Texts of chunks -/

/-- The text of a chunk. -/
def chunkText : Chunk → String
  | .copied i => tokenText j.vocabulary j.binding (j.source.tokenAt i)
  | .put text => text

/-- The text that chunks make up. -/
def chunksText (cs : List Chunk) : String :=
  String.join (cs.map j.chunkText)

/-- The edit that a patch is. -/
def editOf (x : Patch) : Edit :=
  ⟨x.range, j.chunksText x.chunks⟩

/-- The argument whose chunks these are. -/
def operandOf (o : ChunkedOperand) : Operand :=
  ⟨j.chunksText o.chunks, o.atomic⟩

/-! ## Chunks of ranges -/

/-- The tokens of a range, each of them copied. -/
def copies (r : TokenRange) : List Chunk :=
  (List.range' r.start (min r.stop j.source.tokens.size - r.start)).map .copied

/-- The chunks from one index to another, with those of patches in order put in. -/
def pieced (stop : Nat) : Nat → List Patch → List Chunk
  | start, [] => j.copies ⟨start, stop⟩
  | start, x :: rest => j.copies ⟨start, x.range.start⟩ ++ x.chunks ++ pieced stop x.range.stop rest

/-- The chunks of a part of the template that is rendered on its own. -/
def rendered (extent : Extent) (patches : List Patch) : List Chunk :=
  j.pieced (j.source.range extent).stop (j.source.range extent).start patches

/-- The patch that replaces the token of a name, if the name changes. -/
def renamedPatch (name : Ident) : Option String → List Patch
  | some text => [⟨j.source.single name.position, [.put text]⟩]
  | none => []

/-- The chunks of a call with the given arguments. -/
def callChunks (c : IntrinsicCall) (args : List ChunkedOperand) : List Chunk :=
  match j.target c.hint, Operation.ofName? c.name.name with
  | .ok target, some o =>
    match o.pattern j.vocabulary.mixer target args.length with
    | .ok pattern => pattern.flatMap (Fragment.chunks args)
    | .error _ => []
  | _, _ => []

variable {j} {cs ds : List Chunk}

@[simp] theorem chunksText_nil : j.chunksText [] = "" := rfl

@[simp] theorem chunksText_cons {c : Chunk} :
    j.chunksText (c :: cs) = j.chunkText c ++ j.chunksText cs := by
  rw [chunksText, List.map_cons, String.join_cons, chunksText]

@[simp] theorem chunksText_append : j.chunksText (cs ++ ds) = j.chunksText cs ++ j.chunksText ds := by
  rw [chunksText, List.map_append, String.join_append, chunksText, chunksText]

theorem copy_eq (r : TokenRange) :
    copy j.vocabulary j.binding j.source.tokens r = j.chunksText (j.copies r) := by
  rw [copy, chunksText, copies, List.map_map]
  congr 1
  refine List.ext_getElem ?_ fun n h₁ h₂ => ?_
  · simp only [List.length_map, Array.length_toList, Array.size_extract, List.length_range']
  · simp only [List.length_map, Array.length_toList, Array.size_extract] at h₁
    have hn : r.start + n < j.source.tokens.size := by omega
    simp [chunkText, Source.tokenAt, hn]

theorem splice_eq {stop start : Nat} {patches : List Patch} :
    splice j.vocabulary j.binding j.source.tokens stop start (patches.map j.editOf)
      = j.chunksText (j.pieced stop start patches) := by
  induction patches generalizing start with
  | nil => exact copy_eq _
  | cons x rest ih => simp [splice, pieced, copy_eq, ih, editOf, String.append_assoc]

theorem chunksText_angleChunks (es : List (List Chunk)) :
    j.chunksText (angleChunks es) = angleList (es.map j.chunksText) := by
  have hjoin : j.chunksText ([.put ", "].intercalate es) = ", ".intercalate (es.map j.chunksText) := by
    induction es with
    | nil => rfl
    | cons e rest ih =>
      cases rest with
      | nil => simp
      | cons f rest =>
        rw [List.intercalate_cons_cons, List.map_cons, List.map_cons, String.intercalate_cons_cons,
          ← List.map_cons, ← ih]
        simp [chunkText, String.append_assoc]
  cases es with
  | nil => rfl
  | cons e rest =>
    simp only [angleChunks, angleList, List.isEmpty_cons, List.map_cons, Bool.false_eq_true, if_false]
    rw [chunksText_cons, chunksText_append, hjoin]
    simp [chunkText, String.append_assoc]

/-! ## Calls -/

theorem chunksText_wrapped (o : ChunkedOperand) :
    j.chunksText o.wrapped = (j.operandOf o).wrapped := by
  cases h : o.atomic <;>
    simp [ChunkedOperand.wrapped, Operand.wrapped, operandOf, h, chunkText, String.append_assoc]

theorem chunksText_chunks (args : List ChunkedOperand) (f : Fragment) :
    j.chunksText (f.chunks args) = f.text (args.map j.operandOf) := by
  cases f with
  | fixed text => simp [Fragment.chunks, Fragment.text, chunkText]
  | plain i => cases h : args[i]? <;> simp [Fragment.chunks, Fragment.text, h, operandOf]
  | beside i => cases h : args[i]? <;> simp [Fragment.chunks, Fragment.text, h, chunksText_wrapped]

theorem chunksText_flatMap (args : List ChunkedOperand) (pattern : List Fragment) :
    j.chunksText (pattern.flatMap (Fragment.chunks args)) = fill (args.map j.operandOf) pattern := by
  induction pattern with
  | nil => rfl
  | cons f rest ih =>
    rw [List.flatMap_cons, chunksText_append, ih, chunksText_chunks, fill, fill, List.map_cons,
      String.join_cons]

end Job

/-! ## Chunks of the walk -/

mutual

/-- The patches of a place in the outline: those of the edits that the walk makes there. -/
def Outline.patches (j : Job) : Outline → List Patch
  | .name i => j.renamedPatch i (renameIdent? j.vocabulary j.binding i.name)
  | .part i args => j.renamedPatch i (renameSegment? j.vocabulary j.binding i.name args)
  | .typeArgs owner entries extent =>
    if entries.isEmpty then
      if keepsDiamond j.vocabulary j.binding owner then [] else [⟨j.source.range extent, []⟩]
    else
      let slots := slotsOf j.vocabulary owner
      if anyDropped j.vocabulary j.binding slots (entries.map (·.1)) then
        [⟨j.source.range extent, angleChunks (Outline.keptArgChunks j slots entries)⟩]
      else Outline.argPatches j entries
  | .typeParams entries extent =>
    if entries.any (fun e => isDroppedParam j.vocabulary j.binding e.1) then
      let kept := Outline.keptParamChunks j entries
      let range := j.source.range extent
      [⟨if kept.isEmpty then j.absorbBlank range else range, angleChunks kept⟩]
    else Outline.paramPatches j entries
  | .call c args => [⟨j.source.range c.extent, j.callChunks c (Outline.chunkedOperands j args)⟩]

/-- The patches of an outline. -/
def Outline.patchesAll (j : Job) : List Outline → List Patch
  | [] => []
  | o :: rest => o.patches j ++ Outline.patchesAll j rest

/-- The patches of type arguments that all stay. -/
def Outline.argPatches (j : Job) : List (TypeArg × List Outline) → List Patch
  | [] => []
  | (_, inner) :: rest => Outline.patchesAll j inner ++ Outline.argPatches j rest

/-- The chunks of the type arguments that stay. -/
def Outline.keptArgChunks (j : Job) (slots : List Placeholder) :
    List (TypeArg × List Outline) → List (List Chunk)
  | [] => []
  | (a, inner) :: rest =>
    if isDropped j.vocabulary j.binding slots.head? a then Outline.keptArgChunks j slots.tail rest
    else j.rendered a.extent (Outline.patchesAll j inner) :: Outline.keptArgChunks j slots.tail rest

/-- The patches of type parameters that all stay. -/
def Outline.paramPatches (j : Job) : List (TypeParam × List Outline) → List Patch
  | [] => []
  | (_, inner) :: rest => Outline.patchesAll j inner ++ Outline.paramPatches j rest

/-- The chunks of the type parameters that stay. -/
def Outline.keptParamChunks (j : Job) : List (TypeParam × List Outline) → List (List Chunk)
  | [] => []
  | (p, inner) :: rest =>
    if isDroppedParam j.vocabulary j.binding p then Outline.keptParamChunks j rest
    else j.rendered p.extent (Outline.patchesAll j inner) :: Outline.keptParamChunks j rest

/-- The chunks of the arguments of a call. -/
def Outline.chunkedOperands (j : Job) : List (Expr × List Outline) → List ChunkedOperand
  | [] => []
  | (e, inner) :: rest =>
    ⟨j.rendered e.extent (Outline.patchesAll j inner), j.isAtomic e.elems⟩
      :: Outline.chunkedOperands j rest

end

/-! ## Patches and edits -/

/-- Are the steps of a walk without errors the edits that the patches are? -/
def Agrees (j : Job) (xs : List Step) (patches : List Patch) : Prop :=
  firstError? xs = none → xs = patches.map fun x => .ok (j.editOf x)

variable {j : Job} {receiver : String} {xs ys : List Step} {px py : List Patch}

theorem Agrees.append (hx : Agrees j xs px) (hy : Agrees j ys py) :
    Agrees j (xs ++ ys) (px ++ py) := by
  intro h
  rw [firstError?_append, Option.or_eq_none_iff] at h
  rw [List.map_append, ← hx h.1, ← hy h.2]

theorem agrees_renamed {i : Ident} {text : Option String} :
    Agrees j (j.renamed i text) (j.renamedPatch i text) := by
  intro _
  cases text with
  | none => rfl
  | some text => simp [Job.renamed, Job.renamedPatch, Job.editOf, Job.chunkText]

theorem editsBefore_map (es : List Edit) : editsBefore (es.map .ok) = es := by
  induction es with
  | nil => rfl
  | cons e es ih => rw [List.map_cons, editsBefore, ih]

theorem Agrees.editsBefore_eq (h : Agrees j xs px) (hx : firstError? xs = none) :
    editsBefore xs = px.map j.editOf := by
  rw [h hx, ← editsBefore_map (px.map j.editOf), List.map_map]
  rfl

/-- What is rendered on its own is made up of its chunks. -/
theorem Agrees.text_of_render (hs : j.source.Indexed) {p q : Nat} (hq : q ≤ j.source.code.size)
    (hfits : Fits j.source q p xs) (h : Agrees j xs px) {text : String}
    (hr : j.render ⟨p, q⟩ xs = .ok text) : text = j.chunksText (j.rendered ⟨p, q⟩ px) := by
  simp only [Job.render] at hr
  split at hr
  · contradiction
  · rename_i hx
    rw [hfits.finish_eq_ok hs hq fun _ => hfits.contains hs, h.editsBefore_eq hx, Job.splice_eq] at hr
    cases hr
    rfl

/-- Two results one after the other succeed only if both of them do. -/
theorem ok_of_bind {α β γ : Type} {x : Except SpecializeError α} {y : Except SpecializeError β}
    {f : α → β → γ} {c : γ} (h : (do let a ← x; return f a (← y)) = .ok c) :
    ∃ a b, x = .ok a ∧ y = .ok b ∧ f a b = c := by
  cases x with
  | error e => simp [bind, Except.bind] at h
  | ok a =>
    cases y with
    | error e => simp [bind, Except.bind] at h
    | ok b => exact ⟨a, b, rfl, rfl, by simpa [bind, Except.bind, pure, Except.pure] using h⟩

theorem callChunks_eq {c : IntrinsicCall} {args : List ChunkedOperand} {target : Target} {o : Operation}
    {pattern : List Fragment} (htarget : j.target c.hint = .ok target)
    (ho : Operation.ofName? c.name.name = some o)
    (hpattern : o.pattern j.vocabulary.mixer target args.length = .ok pattern) :
    j.callChunks c args = pattern.flatMap (Fragment.chunks args) := by
  simp [Job.callChunks, htarget, ho, hpattern]

theorem agrees_call {c : IntrinsicCall} {operands : Except SpecializeError (List Operand)}
    {args : List ChunkedOperand} (h : ∀ os, operands = .ok os → os = args.map j.operandOf) :
    Agrees j (j.call c operands) [⟨j.source.range c.extent, j.callChunks c args⟩] := by
  intro hx
  obtain ⟨target, os, o, pattern, htarget, hos, ho, hpattern, hcall⟩ := exists_of_call hx
  obtain rfl := h os hos
  rw [List.length_map] at hpattern
  rw [hcall, callChunks_eq htarget ho hpattern]
  simp [Job.editOf, Job.chunksText_flatMap]

theorem agrees_keepArgs {extent : Extent} {kept : Except SpecializeError (List String)}
    {es : List (List Chunk)} (h : ∀ texts, kept = .ok texts → texts = es.map j.chunksText) :
    Agrees j (j.keepArgs extent kept) [⟨j.source.range extent, angleChunks es⟩] := by
  intro hx
  cases kept with
  | error e => contradiction
  | ok texts =>
    obtain rfl := h texts rfl
    simp [Job.keepArgs, Job.editOf, Job.chunksText_angleChunks]

theorem agrees_keepParams {extent : Extent} {kept : Except SpecializeError (List String)}
    {es : List (List Chunk)} (h : ∀ texts, kept = .ok texts → texts = es.map j.chunksText) :
    Agrees j (j.keepParams extent kept)
      [⟨if es.isEmpty then j.absorbBlank (j.source.range extent) else j.source.range extent,
        angleChunks es⟩] := by
  intro hx
  cases kept with
  | error e => contradiction
  | ok texts =>
    obtain rfl := h texts rfl
    simp [Job.keepParams, Job.editOf, Job.chunksText_angleChunks]

mutual

theorem Outline.agrees_steps (hs : j.source.Indexed) {p q : Nat} (hq : q ≤ j.source.code.size) :
    ∀ {o : Outline}, o.laid (.ofSource j.source receiver) p q →
      Agrees j (o.steps j) (o.patches j)
  | .name i, _ => agrees_renamed
  | .part i args, _ => agrees_renamed
  | .typeArgs owner entries extent, ⟨⟨hrow, _⟩, _⟩ => by
    simp only [Outline.steps, Outline.patches]
    split
    · split
      · exact fun _ => rfl
      · exact fun _ => rfl
    · split
      · exact agrees_keepArgs fun _ => Outline.keptArgs_eq hs hq hrow
      · exact Outline.agrees_argSteps hs hq hrow
  | .typeParams entries extent, ⟨⟨hrow, _⟩, _⟩ => by
    simp only [Outline.steps, Outline.patches]
    split
    · exact agrees_keepParams fun _ => Outline.keptParams_eq hs hq hrow
    · exact Outline.agrees_paramSteps hs hq hrow
  | .call c args, ⟨⟨_, _, _, hrow⟩, _⟩ => agrees_call fun _ => Outline.operands_eq hs hq hrow

theorem Outline.agrees_stepsAll (hs : j.source.Indexed) {p q : Nat} (hq : q ≤ j.source.code.size) :
    ∀ {os : List Outline}, Outline.laidAll (.ofSource j.source receiver) os p q →
      Agrees j (Outline.stepsAll j os) (Outline.patchesAll j os)
  | [], _ => fun _ => rfl
  | o :: os, ⟨m, ⟨m', _, ho⟩, hos⟩ => by
    have hos := of_before hos
    have hm := Nat.le_trans ((Outline.laidAll _ os).le hos) hq
    exact (Outline.agrees_steps hs hm ho).append (Outline.agrees_stepsAll hs hq hos)

theorem Outline.agrees_argSteps (hs : j.source.Indexed) {p q : Nat} (hq : q ≤ j.source.code.size) :
    ∀ {es : List (TypeArg × List Outline)},
      row (.ofSource j.source receiver) (Outline.argRow (.ofSource j.source receiver) es) p q →
      Agrees j (Outline.argSteps j es) (Outline.argPatches j es)
  | [], _ => fun _ => rfl
  | (a, inner) :: es, ⟨m, ⟨m', _, h, _⟩, hes⟩ => by
    have hm := Nat.le_trans ((row _ _).le hes) hq
    exact (Outline.agrees_stepsAll hs hm h).append (Outline.agrees_argSteps hs hq hes)

theorem Outline.keptArgs_eq (hs : j.source.Indexed) {p q : Nat} (hq : q ≤ j.source.code.size) :
    ∀ {es : List (TypeArg × List Outline)} {slots : List Placeholder} {texts : List String},
      row (.ofSource j.source receiver) (Outline.argRow (.ofSource j.source receiver) es) p q →
      Outline.keptArgs j slots es = .ok texts →
      texts = (Outline.keptArgChunks j slots es).map j.chunksText
  | [], _, _, _, hk => by
    cases hk
    rfl
  | (a, inner) :: es, slots, texts, ⟨m, ⟨m', _, h, he⟩, hes⟩, hk => by
    have hm := Nat.le_trans ((row _ _).le hes) hq
    simp only [Outline.keptArgs] at hk
    simp only [Outline.keptArgChunks]
    split at hk
    · rename_i hdropped
      rw [if_pos hdropped]
      exact Outline.keptArgs_eq hs hq hes hk
    · rename_i hkept
      rw [if_neg hkept]
      obtain ⟨text, rest, htext, hrest, rfl⟩ := ok_of_bind hk
      rw [he] at htext ⊢
      rw [List.map_cons, ← Outline.keptArgs_eq hs hq hes hrest]
      rw [(Outline.agrees_stepsAll hs hm h).text_of_render hs hm (Outline.fits_stepsAll hs hm h) htext]

theorem Outline.agrees_paramSteps (hs : j.source.Indexed) {p q : Nat}
    (hq : q ≤ j.source.code.size) :
    ∀ {es : List (TypeParam × List Outline)},
      row (.ofSource j.source receiver) (Outline.paramRow (.ofSource j.source receiver) es) p q →
      Agrees j (Outline.paramSteps j es) (Outline.paramPatches j es)
  | [], _ => fun _ => rfl
  | (a, inner) :: es, ⟨m, ⟨m', _, h, _⟩, hes⟩ => by
    have hm := Nat.le_trans ((row _ _).le hes) hq
    exact (Outline.agrees_stepsAll hs hm h).append (Outline.agrees_paramSteps hs hq hes)

theorem Outline.keptParams_eq (hs : j.source.Indexed) {p q : Nat} (hq : q ≤ j.source.code.size) :
    ∀ {es : List (TypeParam × List Outline)} {texts : List String},
      row (.ofSource j.source receiver) (Outline.paramRow (.ofSource j.source receiver) es) p q →
      Outline.keptParams j es = .ok texts →
      texts = (Outline.keptParamChunks j es).map j.chunksText
  | [], _, _, hk => by
    cases hk
    rfl
  | (a, inner) :: es, texts, ⟨m, ⟨m', _, h, he⟩, hes⟩, hk => by
    have hm := Nat.le_trans ((row _ _).le hes) hq
    simp only [Outline.keptParams] at hk
    simp only [Outline.keptParamChunks]
    split at hk
    · rename_i hdropped
      rw [if_pos hdropped]
      exact Outline.keptParams_eq hs hq hes hk
    · rename_i hkept
      rw [if_neg hkept]
      obtain ⟨text, rest, htext, hrest, rfl⟩ := ok_of_bind hk
      rw [he] at htext ⊢
      rw [List.map_cons, ← Outline.keptParams_eq hs hq hes hrest]
      rw [(Outline.agrees_stepsAll hs hm h).text_of_render hs hm (Outline.fits_stepsAll hs hm h) htext]

theorem Outline.operands_eq (hs : j.source.Indexed) {p q : Nat} (hq : q ≤ j.source.code.size) :
    ∀ {es : List (Expr × List Outline)} {os : List Operand},
      row (.ofSource j.source receiver) (Outline.operandRow (.ofSource j.source receiver) es) p q →
      Outline.operands j es = .ok os → os = (Outline.chunkedOperands j es).map j.operandOf
  | [], _, _, hk => by
    cases hk
    rfl
  | (x, inner) :: es, os, ⟨m, ⟨m', _, h, he⟩, hes⟩, hk => by
    have hm := Nat.le_trans ((row _ _).le hes) hq
    simp only [Outline.operands] at hk
    obtain ⟨text, rest, htext, hrest, rfl⟩ := ok_of_bind hk
    rw [he] at htext
    rw [Outline.chunkedOperands, List.map_cons, ← Outline.operands_eq hs hq hes hrest,
      Job.operandOf, he]
    rw [(Outline.agrees_stepsAll hs hm h).text_of_render hs hm (Outline.fits_stepsAll hs hm h) htext]

end

end Stencil.Rewrite
