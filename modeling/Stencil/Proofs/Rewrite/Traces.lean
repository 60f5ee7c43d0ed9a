import Stencil.Proofs.Rewrite.Chunks

/-!
# Which token a chunk stands for

A name that is exchanged leaves nothing but a text among the chunks, and where it has stood can no
longer be told. Here the same walk keeps the token with each chunk: a copied token stands for itself,
and the text that is put in for a name stands for the token of the name. What is put around them, the
brackets of lists and the fixed texts of calls, stands for no token.

Results: but for the tokens, the patches of the walk are those that it makes of chunks
(`Outline.map_patch_tracedAll`).
-/

namespace Stencil.Rewrite

/-- A chunk, and the index of the token that it stands for, if it stands for one. -/
structure Trace where
  /-- The chunk. -/
  chunk : Chunk
  /-- The index of the token in the stream. -/
  index? : Option Nat
deriving DecidableEq, Repr

/-- A copied token stands for itself, and a text for no token. -/
def Chunk.trace : Chunk → Trace
  | .copied i => ⟨.copied i, some i⟩
  | .put text => ⟨.put text, none⟩

/-- Traces to be put in place of a range of tokens. -/
structure TracedPatch where
  /-- The tokens that are replaced. -/
  range : TokenRange
  /-- The traces in place of them. -/
  traces : List Trace
deriving DecidableEq, Repr

/-- The chunks alone. -/
def TracedPatch.patch (y : TracedPatch) : Patch :=
  ⟨y.range, y.traces.map (·.chunk)⟩

/-- The traces of an argument of a call. -/
structure TracedOperand where
  /-- The traces. -/
  traces : List Trace
  /-- Can the text stand beside an operator without parentheses? -/
  atomic : Bool
deriving DecidableEq, Repr

/-- The chunks alone. -/
def TracedOperand.operand (o : TracedOperand) : ChunkedOperand :=
  ⟨o.traces.map (·.chunk), o.atomic⟩

/-- The argument as it can stand beside an operator. -/
def TracedOperand.wrapped (o : TracedOperand) : List Trace :=
  if o.atomic then o.traces
  else (Chunk.put "(").trace :: (o.traces ++ [(Chunk.put ")").trace])

/-- The traces of a fragment with the arguments filled in. -/
def Fragment.traces (args : List TracedOperand) : Fragment → List Trace
  | .fixed text => [(Chunk.put text).trace]
  | .plain i => (args[i]?.map (·.traces)).getD []
  | .beside i => (args[i]?.map TracedOperand.wrapped).getD []

/-- The traces of entries between angle brackets, and none if there are no entries. -/
def angleTraces (entries : List (List Trace)) : List Trace :=
  if entries.isEmpty then []
  else (Chunk.put "<").trace
    :: ([(Chunk.put ", ").trace].intercalate entries ++ [(Chunk.put ">").trace])

namespace Job

variable (j : Job)

/-- The traces from one index to another, with those of patches in order put in. -/
def woven (stop : Nat) : Nat → List TracedPatch → List Trace
  | start, [] => (j.copies ⟨start, stop⟩).map Chunk.trace
  | start, y :: rest =>
    (j.copies ⟨start, y.range.start⟩).map Chunk.trace ++ y.traces ++ woven stop y.range.stop rest

/-- The traces of a part of the template that is rendered on its own. -/
def wovenIn (extent : Extent) (patches : List TracedPatch) : List Trace :=
  j.woven (j.source.range extent).stop (j.source.range extent).start patches

/-- The trace of a name that is exchanged. -/
def exchange (name : Ident) (text : String) : Trace :=
  ⟨.put text, some (j.source.index name.position)⟩

/-- The patch that replaces the token of a name, if the name changes. -/
def exchangedPatch (name : Ident) : Option String → List TracedPatch
  | some text => [⟨j.source.single name.position, [j.exchange name text]⟩]
  | none => []

/-- The traces of a call with the given arguments. -/
def callTraces (c : IntrinsicCall) (args : List TracedOperand) : List Trace :=
  match j.target c.hint, Operation.ofName? c.name.name with
  | .ok target, some o =>
    match o.pattern j.vocabulary.mixer target args.length with
    | .ok pattern => pattern.flatMap (Fragment.traces args)
    | .error _ => []
  | _, _ => []

end Job

/-! ## Traces of the walk -/

mutual

/-- The patches of a place in the outline. -/
def Outline.traced (j : Job) : Outline → List TracedPatch
  | .name i => j.exchangedPatch i (renameIdent? j.vocabulary j.binding i.name)
  | .part i args => j.exchangedPatch i (renameSegment? j.vocabulary j.binding i.name args)
  | .typeArgs owner entries extent =>
    if entries.isEmpty then
      if keepsDiamond j.vocabulary j.binding owner then [] else [⟨j.source.range extent, []⟩]
    else
      let slots := slotsOf j.vocabulary owner
      if anyDropped j.vocabulary j.binding slots (entries.map (·.1)) then
        [⟨j.source.range extent, angleTraces (Outline.keptArgTraces j slots entries)⟩]
      else Outline.argTraced j entries
  | .typeParams entries extent =>
    if entries.any (fun e => isDroppedParam j.vocabulary j.binding e.1) then
      let kept := Outline.keptParamTraces j entries
      let range := j.source.range extent
      [⟨if kept.isEmpty then j.absorbBlank range else range, angleTraces kept⟩]
    else Outline.paramTraced j entries
  | .call c args => [⟨j.source.range c.extent, j.callTraces c (Outline.tracedOperands j args)⟩]

/-- The patches of an outline. -/
def Outline.tracedAll (j : Job) : List Outline → List TracedPatch
  | [] => []
  | o :: rest => o.traced j ++ Outline.tracedAll j rest

/-- The patches of type arguments that all stay. -/
def Outline.argTraced (j : Job) : List (TypeArg × List Outline) → List TracedPatch
  | [] => []
  | (_, inner) :: rest => Outline.tracedAll j inner ++ Outline.argTraced j rest

/-- The traces of the type arguments that stay. -/
def Outline.keptArgTraces (j : Job) (slots : List Placeholder) :
    List (TypeArg × List Outline) → List (List Trace)
  | [] => []
  | (a, inner) :: rest =>
    if isDropped j.vocabulary j.binding slots.head? a then Outline.keptArgTraces j slots.tail rest
    else j.wovenIn a.extent (Outline.tracedAll j inner) :: Outline.keptArgTraces j slots.tail rest

/-- The patches of type parameters that all stay. -/
def Outline.paramTraced (j : Job) : List (TypeParam × List Outline) → List TracedPatch
  | [] => []
  | (_, inner) :: rest => Outline.tracedAll j inner ++ Outline.paramTraced j rest

/-- The traces of the type parameters that stay. -/
def Outline.keptParamTraces (j : Job) : List (TypeParam × List Outline) → List (List Trace)
  | [] => []
  | (p, inner) :: rest =>
    if isDroppedParam j.vocabulary j.binding p then Outline.keptParamTraces j rest
    else j.wovenIn p.extent (Outline.tracedAll j inner) :: Outline.keptParamTraces j rest

/-- The traces of the arguments of a call. -/
def Outline.tracedOperands (j : Job) : List (Expr × List Outline) → List TracedOperand
  | [] => []
  | (e, inner) :: rest =>
    ⟨j.wovenIn e.extent (Outline.tracedAll j inner), j.isAtomic e.elems⟩
      :: Outline.tracedOperands j rest

end

/-! ## Chunks of traces -/

variable {j : Job}

theorem chunk_trace (c : Chunk) : c.trace.chunk = c := by
  cases c <;> rfl

theorem map_chunk_trace (cs : List Chunk) : (cs.map Chunk.trace).map (·.chunk) = cs := by
  simp [Function.comp_def, chunk_trace]

namespace Job

theorem map_chunk_woven {stop start : Nat} {patches : List TracedPatch} :
    (j.woven stop start patches).map (·.chunk)
      = j.pieced stop start (patches.map TracedPatch.patch) := by
  induction patches generalizing start with
  | nil => exact map_chunk_trace _
  | cons y rest ih =>
    rw [woven, List.map_append, List.map_append, map_chunk_trace, ih]
    rfl

theorem map_patch_exchangedPatch (i : Ident) (text : Option String) :
    (j.exchangedPatch i text).map TracedPatch.patch = j.renamedPatch i text := by
  cases text <;> rfl

end Job

theorem map_chunk_angleTraces (es : List (List Trace)) :
    (angleTraces es).map (·.chunk) = angleChunks (es.map (List.map (·.chunk))) := by
  have hentries : ([(Chunk.put ", ").trace].intercalate es).map (·.chunk)
      = [.put ", "].intercalate (es.map (List.map (·.chunk))) := by
    induction es with
    | nil => rfl
    | cons e rest ih =>
      cases rest with
      | nil => simp
      | cons f rest =>
        rw [List.intercalate_cons_cons, List.map_append, List.map_append, ih]
        simp [List.intercalate_cons_cons, Chunk.trace]
  cases es with
  | nil => rfl
  | cons e rest =>
    rw [angleTraces, angleChunks, List.isEmpty_cons, List.map_cons, List.isEmpty_cons]
    simp only [Bool.false_eq_true, if_false, List.map_cons, List.map_append, hentries]
    rfl

theorem chunks_wrapped (o : TracedOperand) : o.wrapped.map (·.chunk) = o.operand.wrapped := by
  cases h : o.atomic <;>
    simp [TracedOperand.wrapped, ChunkedOperand.wrapped, TracedOperand.operand, h, Chunk.trace]

theorem map_chunk_traces (args : List TracedOperand) (f : Fragment) :
    (f.traces args).map (·.chunk) = f.chunks (args.map TracedOperand.operand) := by
  cases f with
  | fixed text => rfl
  | plain i => cases h : args[i]? <;> simp [Fragment.traces, Fragment.chunks, h, TracedOperand.operand]
  | beside i => cases h : args[i]? <;> simp [Fragment.traces, Fragment.chunks, h, chunks_wrapped]

theorem map_chunk_callTraces (c : IntrinsicCall) (args : List TracedOperand) :
    (j.callTraces c args).map (·.chunk) = j.callChunks c (args.map TracedOperand.operand) := by
  simp only [Job.callTraces, Job.callChunks, List.length_map]
  cases j.target c.hint with
  | error fault => rfl
  | ok target =>
    cases Operation.ofName? c.name.name with
    | none => rfl
    | some o =>
      cases hpattern : o.pattern j.vocabulary.mixer target args.length with
      | error fault => simp [hpattern]
      | ok pattern =>
        simp only [hpattern, List.map_flatMap]
        exact congrArg (pattern.flatMap ·) (funext fun f => map_chunk_traces args f)

mutual

theorem Outline.map_patch_traced : ∀ o : Outline,
    (o.traced j).map TracedPatch.patch = o.patches j
  | .name i => Job.map_patch_exchangedPatch i _
  | .part i args => Job.map_patch_exchangedPatch i _
  | .typeArgs owner entries extent => by
    rw [Outline.traced, Outline.patches]
    split
    · split <;> rfl
    · dsimp only
      split
      · simp only [List.map_singleton, TracedPatch.patch, map_chunk_angleTraces,
          Outline.map_chunk_keptArgTraces entries]
      · exact Outline.map_patch_argTraced entries
  | .typeParams entries extent => by
    rw [Outline.traced, Outline.patches]
    split
    · have hkept := Outline.map_chunk_keptParamTraces entries
      simp only [List.map_singleton, TracedPatch.patch, map_chunk_angleTraces, ← hkept, List.isEmpty_map]
    · exact Outline.map_patch_paramTraced entries
  | .call c args => by
    simp only [Outline.traced, Outline.patches, List.map_singleton, TracedPatch.patch,
      map_chunk_callTraces, Outline.map_operand_tracedOperands args]

theorem Outline.map_patch_tracedAll : ∀ os : List Outline,
    (Outline.tracedAll j os).map TracedPatch.patch = Outline.patchesAll j os
  | [] => rfl
  | o :: rest => by
    rw [Outline.tracedAll, Outline.patchesAll, List.map_append, Outline.map_patch_traced o,
      Outline.map_patch_tracedAll rest]

theorem Outline.map_patch_argTraced : ∀ es : List (TypeArg × List Outline),
    (Outline.argTraced j es).map TracedPatch.patch = Outline.argPatches j es
  | [] => rfl
  | (_, inner) :: rest => by
    rw [Outline.argTraced, Outline.argPatches, List.map_append, Outline.map_patch_tracedAll inner,
      Outline.map_patch_argTraced rest]

theorem Outline.map_chunk_keptArgTraces : ∀ (es : List (TypeArg × List Outline))
    {slots : List Placeholder}, (Outline.keptArgTraces j slots es).map (List.map (·.chunk))
      = Outline.keptArgChunks j slots es
  | [], _ => rfl
  | (a, inner) :: rest, slots => by
    rw [Outline.keptArgTraces, Outline.keptArgChunks]
    split
    · exact Outline.map_chunk_keptArgTraces rest
    · rw [List.map_cons, Job.wovenIn, Job.map_chunk_woven, Outline.map_patch_tracedAll inner,
        Outline.map_chunk_keptArgTraces rest, Job.rendered]

theorem Outline.map_patch_paramTraced : ∀ es : List (TypeParam × List Outline),
    (Outline.paramTraced j es).map TracedPatch.patch = Outline.paramPatches j es
  | [] => rfl
  | (_, inner) :: rest => by
    rw [Outline.paramTraced, Outline.paramPatches, List.map_append, Outline.map_patch_tracedAll inner,
      Outline.map_patch_paramTraced rest]

theorem Outline.map_chunk_keptParamTraces : ∀ es : List (TypeParam × List Outline),
    (Outline.keptParamTraces j es).map (List.map (·.chunk)) = Outline.keptParamChunks j es
  | [] => rfl
  | (p, inner) :: rest => by
    rw [Outline.keptParamTraces, Outline.keptParamChunks]
    split
    · exact Outline.map_chunk_keptParamTraces rest
    · rw [List.map_cons, Job.wovenIn, Job.map_chunk_woven, Outline.map_patch_tracedAll inner,
        Outline.map_chunk_keptParamTraces rest, Job.rendered]

theorem Outline.map_operand_tracedOperands : ∀ es : List (Expr × List Outline),
    (Outline.tracedOperands j es).map TracedOperand.operand = Outline.chunkedOperands j es
  | [] => rfl
  | (e, inner) :: rest => by
    rw [Outline.tracedOperands, Outline.chunkedOperands, List.map_cons, TracedOperand.operand,
      Job.wovenIn, Job.map_chunk_woven, Outline.map_patch_tracedAll inner,
      Outline.map_operand_tracedOperands rest, Job.rendered]

end

end Stencil.Rewrite
