import Stencil.Generation.OutputPath
import Stencil.Proofs.Path
import Stencil.Proofs.Rewrite.Name

/-!
# Components of output paths

The class-name words that are put into names are made of letters. So every name on the path of a
template becomes a name on the path of an output, and the outputs of two instantiations of one
template are the same exactly if all these names are.

Results: a substituted name is a name (`isName_substitute`) and keeps an extension without
placeholders (`extensionOf?_substitute`), an output path has the template's components with their
names substituted (`components_outputPath`), and what it takes for two outputs of a template to be the
same (`same_join_outputPath_iff`).
-/

namespace Stencil

variable {v : Vocabulary} {name : String}

/-! ## Substituted names -/

theorem ConcreteType.notMem_boxedName (t : ConcreteType) : '/' ∉ t.boxedName.toList := by
  cases t <;> decide

theorem ConcreteType.exists_letter (t : ConcreteType) : ∃ c ∈ t.boxedName.toList, c ≠ '.' := by
  cases t <;> exact ⟨_, List.mem_cons_self, by decide⟩

/-- A text with another character than dots is a name. -/
theorem isName_of_mem {xs : List Char} {c : Char} (hslash : '/' ∉ xs) (hc : c ∈ xs) (hdot : c ≠ '.') :
    IsName xs := by
  refine ⟨List.ne_nil_of_mem hc, hslash, ?_, ?_⟩
  · rintro rfl
    exact hdot (by simpa using hc)
  · rintro rfl
    exact hdot (by simpa using hc)

theorem isName_replace {old : String} (t : ConcreteType) (h : IsName name.toList) :
    IsName (Text.replace name old t.boxedName).toList := by
  by_cases ho : Text.occursIn old.toList name.toList = true
  · rw [Text.replace, String.toList_ofList]
    obtain ⟨c, hc, hdot⟩ := t.exists_letter
    refine isName_of_mem (fun hslash => ?_) (Text.mem_replaceChars ho hc) hdot
    exact (Text.mem_of_mem_replaceChars hslash).elim h.2.1 t.notMem_boxedName
  · rw [Text.replace, Text.replaceChars_of_not_occurs (Bool.eq_false_iff.2 ho), String.ofList_toList]
    exact h

theorem Rewrite.isName_substituteOne {choice : Rewrite.Choice} {p : Placeholder}
    (h : IsName name.toList) : IsName (substituteOne v choice p name).toList := by
  rw [substituteOne]
  split
  · exact isName_replace _ h
  · exact h

theorem isName_substitute {choice : Rewrite.Choice} (h : IsName name.toList) :
    IsName (Rewrite.substitute v choice name).toList :=
  Rewrite.isName_substituteOne (Rewrite.isName_substituteOne h)

/-! ## Extensions -/

/-- A name keeps an extension that does not mention the placeholder. -/
theorem Rewrite.extensionOf?_substituteOne {choice : Rewrite.Choice} {p : Placeholder}
    {extension : String} (hdot : '.' ∉ (v.name p).toList) (hm : v.mentions extension p = false)
    (h : Path.extensionOf? name.toList = some extension.toList) :
    Path.extensionOf? (substituteOne v choice p name).toList = some extension.toList := by
  rw [Path.extensionOf?_eq_some_iff] at h ⊢
  obtain ⟨hext, front, hfront, hname⟩ := h
  refine ⟨hext, ?_⟩
  unfold substituteOne
  split
  · rename_i t _
    obtain ⟨c, hc, -⟩ := t.exists_letter
    refine ⟨Text.replaceChars (v.name p).toList t.boxedName.toList front, ?_, ?_⟩
    · exact Text.replaceChars_ne_nil (List.ne_nil_of_mem hc) hfront
    · rw [Text.replace, String.toList_ofList, hname]
      exact Text.replaceChars_append_cons hdot hm
  · exact ⟨front, hfront, hname⟩

theorem extensionOf?_substitute {choice : Rewrite.Choice} {extension : String}
    (hdot : ∀ p, '.' ∉ (v.name p).toList) (hm : ∀ p, v.mentions extension p = false)
    (h : Path.extensionOf? name.toList = some extension.toList) :
    Path.extensionOf? (Rewrite.substitute v choice name).toList = some extension.toList :=
  Rewrite.extensionOf?_substituteOne (hdot .secondary) (hm .secondary)
    (Rewrite.extensionOf?_substituteOne (hdot .primary) (hm .primary) h)

theorem isInner_outputComponent {b : Binding} {c : Component} (h : c.IsInner) :
    (outputComponent v b c).IsInner := by
  cases c with
  | normal name => exact isName_substitute h
  | _ => exact h

/-! ## Output paths -/

theorem map_start_outputComponent (path : Path) {b : Binding} :
    path.start.map (outputComponent v b) = path.start := by
  obtain h | h | h := path.isStart_start <;> rw [h] <;> rfl

/-- The beginning of an output path is that of the template's path, and the names are substituted. -/
theorem start_inner_outputPath (i : Instantiation) :
    (i.outputPath v).start = i.template.start
      ∧ (i.outputPath v).inner = i.template.inner.map (outputComponent v i.binding) := by
  have hinner : ∀ c ∈ i.template.inner.map (outputComponent v i.binding), c.IsInner := by
    intro c hc
    obtain ⟨d, hd, rfl⟩ := List.mem_map.1 hc
    exact isInner_outputComponent (Path.isInner_of_mem_inner hd)
  rw [Instantiation.outputPath, Path.components_eq, List.map_append, map_start_outputComponent]
  exact Path.start_inner_ofComponents i.template.isStart_start hinner

/-- The components of an output path are made one by one. -/
theorem components_outputPath (i : Instantiation) :
    (i.outputPath v).components = i.template.components.map (outputComponent v i.binding) := by
  obtain ⟨hstart, hinner⟩ := start_inner_outputPath (v := v) i
  rw [Path.components_eq, Path.components_eq i.template, hstart, hinner, List.map_append,
    map_start_outputComponent]

theorem fileName?_outputPath (i : Instantiation) :
    (i.outputPath v).fileName? = i.template.fileName?.map (Rewrite.substitute v i.binding.resolve) := by
  rw [Path.fileName?, Path.fileName?, components_outputPath, List.getLast?_map]
  cases i.template.components.getLast? with
  | none => rfl
  | some c => cases c <;> rfl

theorem Path.same_iff {p q : Path} : p.same q = true ↔ p.components = q.components := by
  rw [same, beq_iff_eq]

/-- Behind one base, paths with equal beginnings are the same if their names are. -/
theorem Path.same_join_iff {base p q : Path} (h : p.start = q.start) :
    (base.join p).same (base.join q) = true ↔ p.inner = q.inner := by
  have hcomponents : p.components = q.components ↔ p.inner = q.inner := by
    rw [components_eq, components_eq, h, List.append_cancel_left_eq]
  rw [same_iff]
  by_cases hp : p.isAbsolute = true
  · have hq : q.isAbsolute = true := by rwa [isAbsolute_iff_start, ← h, ← isAbsolute_iff_start]
    rw [join_of_isAbsolute hp, join_of_isAbsolute hq, hcomponents]
  · have hq : ¬q.isAbsolute = true := by rwa [isAbsolute_iff_start, ← h, ← isAbsolute_iff_start]
    by_cases hbase : base.text = ""
    · have hempty : base = ⟨""⟩ := congrArg Path.mk hbase
      rw [hempty, join_empty, join_empty, hcomponents]
    · rw [components_join hbase (Bool.eq_false_iff.2 hp), components_join hbase (Bool.eq_false_iff.2 hq),
        List.append_cancel_left_eq]

/-- Two outputs of a template are the same if every name of its path becomes the same in both. -/
theorem same_join_outputPath_iff {base template : Path} {b b' : Binding} :
    (base.join (Instantiation.outputPath v ⟨template, b⟩)).same
        (base.join (Instantiation.outputPath v ⟨template, b'⟩)) = true
      ↔ ∀ c ∈ template.inner, outputComponent v b c = outputComponent v b' c := by
  have h := start_inner_outputPath (v := v) ⟨template, b⟩
  have h' := start_inner_outputPath (v := v) ⟨template, b'⟩
  rw [Path.same_join_iff (h.1.trans h'.1.symm), h.2, h'.2, List.map_inj_left]

end Stencil
