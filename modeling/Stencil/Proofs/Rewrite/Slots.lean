import Stencil.Proofs.Rewrite.Dissection
import Stencil.Rewrite.Walk

/-!
# Class names and their arguments

The placeholders in the name of a class are its slots, and each slot takes the type argument in its
place. Which word the name gets for a slot and whether the argument in the slot stays is decided
apart, but it has to agree: the class with a primitive type's word in its name has no type parameter
for this slot any more.

Results: an argument in a slot is left out exactly if the name gets the word of a primitive type
there, so as many arguments stay in slots as there are slots without such a word
(`arguments_fit_name`).
-/

namespace Stencil.Rewrite

variable {v : Vocabulary} {b : Binding} {j : Job} {slots : List Placeholder} {args rest : List TypeArg}
  {a : TypeArg} {p : Placeholder} {name : String} {n : Nat}

/-- Is the placeholder replaced by the word of a primitive type? -/
def putsPrimitive (choice : Choice) (p : Placeholder) : Bool :=
  (choice p).any fun t => !t.isGeneric

/-! ## The arguments that stay -/

/-- The type arguments that stay, if they stand in the given slots in order. -/
def remaining (v : Vocabulary) (b : Binding) (slots : List Placeholder) (args : List TypeArg) :
    List TypeArg :=
  (args.zipIdx.filter fun x => !isDropped v b slots[x.2]? x.1).map (·.1)

@[simp] theorem remaining_nil : remaining v b slots [] = [] := rfl

theorem remaining_cons : remaining v b slots (a :: rest)
    = if isDropped v b slots.head? a then remaining v b slots.tail rest
      else a :: remaining v b slots.tail rest := by
  have hrest : ((rest.zipIdx 1).filter fun x => !isDropped v b slots[x.2]? x.1).map (·.1)
      = remaining v b slots.tail rest := by
    simp only [remaining, List.zipIdx_succ, List.filter_map, List.map_map, Function.comp_def,
      List.getElem?_tail]
  rw [remaining, List.zipIdx_cons, List.filter_cons, List.head?_eq_getElem?]
  split <;> rename_i hdropped
  · rw [Bool.not_eq_true'] at hdropped
    simp [hdropped, hrest]
  · simp only [Bool.not_eq_true', Bool.not_eq_false] at hdropped
    simp [hdropped, hrest]

theorem remaining_append : remaining v b slots (args ++ rest)
    = remaining v b slots args ++ remaining v b (slots.drop args.length) rest := by
  induction args generalizing slots with
  | nil => simp
  | cons a args ih =>
    rw [List.cons_append, remaining_cons, remaining_cons, ih]
    split <;> simp

theorem length_remaining_le : (remaining v b slots args).length ≤ args.length := by
  have hfilter := List.length_filter_le (fun x => !isDropped v b slots[x.2]? x.1) args.zipIdx
  rwa [List.length_zipIdx, ← List.length_map] at hfilter

/-- All arguments stay exactly if none is left out. -/
theorem anyDropped_eq_false_iff :
    anyDropped v b slots args = false ↔ (remaining v b slots args).length = args.length := by
  induction args generalizing slots with
  | nil => simp [anyDropped]
  | cons a rest ih =>
    rw [anyDropped, remaining_cons, Bool.or_eq_false_iff, ih]
    have hlength : (remaining v b slots.tail rest).length ≤ rest.length := length_remaining_le
    split <;> rename_i hdropped
    · simp only [hdropped, Bool.true_eq_false, false_and, false_iff, List.length_cons]
      omega
    · simp [hdropped]

/-- The text of a type argument by itself. -/
def Job.argText (j : Job) (a : TypeArg) : Except SpecializeError String :=
  j.render a.extent (Outline.stepsAll j (TypeArg.outline a))

theorem keptArgs_entries : Outline.keptArgs j slots (TypeArg.entries args)
    = (remaining j.vocabulary j.binding slots args).mapM j.argText := by
  induction args generalizing slots with
  | nil => rfl
  | cons a rest ih =>
    rw [TypeArg.entries, Outline.keptArgs, remaining_cons, ih]
    split
    · rfl
    · rw [List.mapM_cons]
      rfl

theorem map_fst_entries : (TypeArg.entries args).map (·.1) = args := by
  induction args with
  | nil => rfl
  | cons a rest ih => rw [TypeArg.entries, List.map_cons, ih]

/-- The steps of a list of arguments, by the arguments that stay. -/
theorem steps_typeArgs {owner : Option String} {list : TypeArgs} :
    (TypeArgs.outline owner list).steps j
      = if list.entries.isEmpty then
          if keepsDiamond j.vocabulary j.binding owner then []
          else [.ok (.delete (j.source.range list.extent))]
        else
          let left := remaining j.vocabulary j.binding (slotsOf j.vocabulary owner) list.entries
          if left.length = list.entries.length then Outline.argSteps j (TypeArg.entries list.entries)
          else j.keepArgs list.extent (left.mapM j.argText) := by
  obtain ⟨entries, extent⟩ := list
  have hempty : (TypeArg.entries entries).isEmpty = entries.isEmpty := by cases entries <;> rfl
  simp only [TypeArgs.outline, Outline.steps, hempty, map_fst_entries, keptArgs_entries,
    ← anyDropped_eq_false_iff]
  cases anyDropped j.vocabulary j.binding (slotsOf j.vocabulary owner) entries <;> simp

/-! ## Slots -/

theorem nodup_mentioned : (v.mentioned name).Nodup :=
  List.Pairwise.filter _ (by decide)

/-- The type that is put in for a slot is that of the argument in it. -/
theorem segmentChoice_of_getElem? (hp : (v.mentioned name)[n]? = some p) (ha : args[n]? = some a) :
    segmentChoice v b name args p = slotType v b a p := by
  obtain ⟨hn, hget⟩ := List.getElem?_eq_some_iff.1 hp
  have hidx : (v.mentioned name).idxOf p = n := hget ▸ nodup_mentioned.idxOf_getElem n hn
  have hmem : (v.mentioned name).contains p = true := by
    simpa using List.mem_of_getElem? hp
  simp only [segmentChoice, hmem, hidx, ha, if_true]

theorem segmentChoice_nil (hp : p ∈ v.mentioned name) : segmentChoice v b name [] p = b.resolve p := by
  simp [segmentChoice, hp]

/-- An argument in a slot is left out exactly if a primitive type is put in for the slot. -/
theorem isDropped_eq_putsPrimitive (hp : (v.mentioned name)[n]? = some p) (ha : args[n]? = some a) :
    isDropped v b (some p) a = putsPrimitive (segmentChoice v b name args) p := by
  rw [putsPrimitive, segmentChoice_of_getElem? hp ha, isDropped, slotType]
  cases placeholderOf? v a with
  | some q => cases hq : b.resolve q <;> simp [Binding.isPrimitive, hq, ConcreteType.isGeneric]
  | none => cases a.isWildcard <;> simp [Binding.isPrimitive, ConcreteType.isGeneric]

/-- An argument without a slot is left out exactly if it names a placeholder of a primitive type. -/
theorem isDropped_none : isDropped v b none a = (placeholderOf? v a).any b.isPrimitive := by
  rw [isDropped]
  cases placeholderOf? v a <;> simp

/-- If each slot decides on the argument in it, as many arguments stay as there are slots that keep
theirs. -/
theorem length_remaining_of_slots {leavesOut : Placeholder → Bool} (hlength : args.length = slots.length)
    (h : ∀ (n : Nat) p a, slots[n]? = some p → args[n]? = some a →
      isDropped v b (some p) a = leavesOut p) :
    (remaining v b slots args).length = slots.countP fun p => !leavesOut p := by
  induction args generalizing slots with
  | nil => simp [List.length_eq_zero_iff.1 hlength.symm]
  | cons a rest ih =>
    obtain ⟨p, ps, rfl⟩ := List.exists_cons_of_length_eq_add_one hlength.symm
    have hfirst := h 0 p a rfl rfl
    have hrest : (remaining v b ps rest).length = ps.countP fun p => !leavesOut p :=
      ih (by simpa using hlength) fun n p a hp ha => h (n + 1) p a (by simpa using hp) (by simpa using ha)
    rw [remaining_cons, List.countP_cons, List.head?_cons, hfirst, List.tail_cons]
    cases leavesOut p <;> simp [hrest]

/-- A list of arguments to be inferred goes exactly if primitive types are put in for all slots. -/
theorem keepsDiamond_eq_not_all (hm : v.mentioned name ≠ []) (hargs : args.isEmpty = true) :
    keepsDiamond v b (some name) = !(v.mentioned name).all (putsPrimitive (segmentChoice v b name args)) := by
  obtain rfl : args = [] := by simpa using hargs
  have hall : (v.mentioned name).all (putsPrimitive (segmentChoice v b name []))
      = (v.mentioned name).all b.isPrimitive := by
    rw [Bool.eq_iff_iff, List.all_eq_true, List.all_eq_true]
    refine forall₂_congr fun p hp => ?_
    rw [putsPrimitive, segmentChoice_nil hp, Binding.isPrimitive]
  simp [keepsDiamond, slotsOf, hm, hall]

/-- The edit of a name that mentions a placeholder, by the pieces of the name. -/
theorem steps_part {i : Ident} (hv : j.vocabulary.isPlain = true)
    (hi : j.vocabulary.placeholder? i.name = none) (hm : j.vocabulary.mentioned i.name ≠ []) :
    let written := String.ofList ((j.vocabulary.dissect i.name).flatMap
      (NamePiece.text j.vocabulary (segmentChoice j.vocabulary j.binding i.name args)))
    (Outline.part i args).steps j
      = if written = i.name then [] else [.ok ⟨j.source.single i.position, written⟩] := by
  have hany : j.vocabulary.mentionsAny i.name = true := by
    obtain ⟨p, hp⟩ := List.exists_mem_of_ne_nil _ hm
    exact List.any_eq_true.2 ⟨p, List.mem_filter.1 hp⟩
  simp only [Outline.steps, renameSegment?, hi, Option.isSome_none, Bool.false_eq_true, if_false, hany,
    if_true, substitute?, ← toList_substitute hv, String.ofList_toList]
  split <;> rfl

/-- Where each slot has an argument, those that stay are one for each slot that is left, and what stays
behind the slots. -/
theorem length_remaining_eq (hslots : slots = v.mentioned name) (hle : slots.length ≤ args.length) :
    (remaining v b slots args).length
      = slots.countP (fun p => !putsPrimitive (segmentChoice v b name args) p)
        + (remaining v b [] (args.drop slots.length)).length := by
  have htake : (args.take slots.length).length = slots.length := by
    rw [List.length_take, Nat.min_eq_left hle]
  have hfront : (remaining v b slots (args.take slots.length)).length
      = slots.countP fun p => !putsPrimitive (segmentChoice v b name args) p := by
    refine length_remaining_of_slots htake fun n p a hp ha => ?_
    rw [List.getElem?_take] at ha
    split at ha
    · exact isDropped_eq_putsPrimitive (hslots ▸ hp) ha
    · contradiction
  have hparts : remaining v b slots (args.take slots.length ++ args.drop slots.length) = _ :=
    remaining_append
  rw [List.take_append_drop, htake, List.drop_length] at hparts
  rw [hparts, List.length_append, hfront]

/-! ## Names and arguments -/

/-- In the reference to a class whose name has slots, a slot has the word of a primitive type in the
new name exactly if the argument in it is left out. Arguments behind the slots are left out only if
they name a placeholder of a primitive type, and a list to be inferred goes exactly if there is such
a word for every slot. So the arguments that stay in slots are as many as the slots that are left. -/
theorem arguments_fit_name {i : Ident} {list : TypeArgs} (hv : j.vocabulary.isPlain = true)
    (hi : j.vocabulary.placeholder? i.name = none) (hm : j.vocabulary.mentioned i.name ≠ [])
    (hlist : list.entries = [] ∨ (j.vocabulary.mentioned i.name).length ≤ list.entries.length) :
    let v := j.vocabulary
    let b := j.binding
    let args := list.entries
    let slots := v.mentioned i.name
    let choice := segmentChoice v b i.name args
    let left := remaining v b slots args
    let written := String.ofList ((v.dissect i.name).flatMap (NamePiece.text v choice))
    (Outline.part i args).steps j
        = (if written = i.name then [] else [.ok ⟨j.source.single i.position, written⟩])
      ∧ (TypeArgs.outline (some i.name) list).steps j
        = (if args.isEmpty then
            if slots.all (putsPrimitive choice) then [.ok (.delete (j.source.range list.extent))]
            else []
          else if left.length = args.length then Outline.argSteps j (TypeArg.entries args)
          else j.keepArgs list.extent (left.mapM j.argText))
      ∧ (∀ (n : Nat) a p, args[n]? = some a → slots[n]? = some p →
          (isDropped v b slots[n]? a = true ↔ putsPrimitive choice p = true))
      ∧ (∀ (n : Nat) a, args[n]? = some a → slots.length ≤ n → isDropped v b slots[n]? a = true →
          ∃ p, placeholderOf? v a = some p ∧ b.isPrimitive p = true)
      ∧ (args ≠ [] → left.length = slots.countP (fun p => !putsPrimitive choice p)
          + (remaining v b [] (args.drop slots.length)).length) := by
  intro v b args slots choice left written
  refine ⟨steps_part hv hi hm, ?_, ?_, ?_, ?_⟩
  · rw [steps_typeArgs]
    by_cases hargs : list.entries.isEmpty = true
    · rw [if_pos hargs, if_pos hargs, keepsDiamond_eq_not_all hm hargs]
      cases (j.vocabulary.mentioned i.name).all (putsPrimitive choice) <;> simp
    · rw [if_neg hargs, if_neg hargs]
      rfl
  · intro n a p ha hp
    rw [hp, isDropped_eq_putsPrimitive hp ha]
  · intro n a ha hn hdropped
    rw [List.getElem?_eq_none hn, isDropped_none, Option.any_eq_true] at hdropped
    exact hdropped
  · exact fun hargs => length_remaining_eq rfl (hlist.resolve_left hargs)

/-- The theorem at `KTypeVTypeMap<? extends Number, VType, KType>`: the wildcard goes with its slot, and
the last argument goes without one. -/
theorem arguments_fit_name_sample :
    let number : TypeExpr := ⟨[], .named [⟨⟨"Number", 4⟩, none⟩], 0, ⟨4, 5⟩⟩
    let secondary : TypeExpr := ⟨[], .named [⟨⟨"VType", 6⟩, none⟩], 0, ⟨6, 7⟩⟩
    let primary : TypeExpr := ⟨[], .named [⟨⟨"KType", 8⟩, none⟩], 0, ⟨8, 9⟩⟩
    let args := [.bounded .upper number ⟨2, 5⟩, .type secondary, .type primary]
    let i : Ident := ⟨"KTypeVTypeMap", 0⟩
    let j : Job := ⟨.ofString "KTypeVTypeMap<? extends Number, VType, KType>", {}, .two, ⟨.int, some .generic⟩⟩
    j.vocabulary.isPlain = true ∧ j.vocabulary.placeholder? i.name = none
      ∧ j.vocabulary.mentioned i.name ≠ [] ∧ (j.vocabulary.mentioned i.name).length ≤ args.length
      ∧ (Outline.part i args).steps j = [.ok ⟨j.source.single 0, "IntObjectMap"⟩]
      ∧ (isDropped {} j.binding (some .primary) args[0] = true
          ↔ putsPrimitive (segmentChoice {} j.binding i.name args) .primary = true)
      ∧ (remaining {} j.binding [.primary, .secondary] args).length = 1 := by
  intro number secondary primary args i j
  have hv : j.vocabulary.isPlain = true := Vocabulary.isPlain_default
  have hi : j.vocabulary.placeholder? i.name = none := by decide
  have hm : j.vocabulary.mentioned i.name ≠ [] := by decide
  have hlength : (j.vocabulary.mentioned i.name).length ≤ args.length := by decide
  have hslots : j.vocabulary.mentioned i.name = [.primary, .secondary] := by decide
  obtain ⟨hname, -, hslot, -, hcount⟩ := arguments_fit_name hv hi hm
    (.inr (show (j.vocabulary.mentioned i.name).length ≤ (⟨args, ⟨1, 10⟩⟩ : TypeArgs).entries.length from
      hlength))
  have hwritten : String.ofList ((j.vocabulary.dissect i.name).flatMap (NamePiece.text j.vocabulary
      (segmentChoice j.vocabulary j.binding i.name args))) = "IntObjectMap" := by decide
  simp only [hwritten, hslots] at hname hslot hcount
  refine ⟨hv, hi, hm, hlength, hname, hslot 0 _ _ rfl rfl, ?_⟩
  exact (hcount (by simp [args])).trans (by decide)

end Stencil.Rewrite
