import Mathlib.Tactic.ByContra
import Stencil.Command.Arguments
import Stencil.Proofs.Rewrite.Comment

/-!
# Where the loop over a comment ends

A step passes a character, or it passes the name of the placeholder that it finds. If this name is
empty, which the command does not rule out, the step passes nothing, and the next one finds the same
placeholder at the same place. The primary placeholder is looked for first and always has a type, so
the loop gets past its name even if the other placeholder has none.

Results: each step shortens the text exactly if the bound placeholders have names, and if they have
not, the loop ends on repetitions of the primary placeholder only (`shortens_ends_iff`).
-/

namespace Stencil.Rewrite

variable {v : Vocabulary} {b : Binding} {p : Placeholder} {t : ConcreteType}
variable {text rest word : List Char} {out : String} {n : Nat}

/-! ## Finding a placeholder -/

/-- The primary placeholder is looked for first. -/
theorem leadingPlaceholder?_primary :
    leadingPlaceholder? v b (v.primary.toList ++ rest) = some (b.primary, rest) :=
  leadingPlaceholder?_append (p := .primary) rfl (.inl rfl)

/-- A bound placeholder without a name is found everywhere, but for places where the primary one
stands. -/
theorem leadingPlaceholder?_unnamed (ht : b.resolve p = some t) (hempty : v.name p = "")
    (hfirst : p = .primary ∨ ¬v.primary.toList <+: text) :
    leadingPlaceholder? v b text = some (t, text) := by
  have htext : (v.name p).toList ++ text = text := by rw [hempty]; rfl
  rw [← htext] at hfirst
  have hlead := leadingPlaceholder?_append ht hfirst
  rwa [htext] at hlead

/-! ## Steps that pass nothing -/

/-- A placeholder without a name keeps the loop at its place, unless the primary one stands there. -/
theorem exists_commentStep_self (h : ¬IsNamed v b) (hne : text ≠ [])
    (hprimary : v.primary = "" ∨ ¬v.primary.toList <+: text) :
    ∃ word, commentStep v b text = some (word, text) := by
  unfold IsNamed at h
  rw [Classical.not_forall] at h
  obtain ⟨p, hp⟩ := h
  rw [Classical.not_imp, Classical.not_not] at hp
  obtain ⟨hbound, hempty⟩ := hp
  obtain ⟨t, ht⟩ := Option.isSome_iff_exists.1 hbound
  by_cases hfirst : v.primary = ""
  · have hlead : leadingPlaceholder? v b text = some (b.primary, text) :=
      leadingPlaceholder?_unnamed (p := .primary) rfl hfirst (.inl rfl)
    exact ⟨_, commentStep_of_found hne hlead⟩
  · have hlead := leadingPlaceholder?_unnamed ht hempty (.inr (hprimary.resolve_left hfirst))
    exact ⟨_, commentStep_of_found hne hlead⟩

/-- There is a character at which the primary placeholder does not stand, unless it has no name. -/
theorem exists_not_primary (v : Vocabulary) : ∃ c, v.primary = "" ∨ ¬v.primary.toList <+: [c] := by
  cases hname : v.primary.toList with
  | nil => exact ⟨'a', .inl (String.toList_eq_nil_iff.1 hname)⟩
  | cons a as =>
    by_cases ha : a = 'a'
    · refine ⟨'b', .inr ?_⟩
      rw [List.cons_prefix_cons, ha]
      intro hpre
      exact absurd hpre.1 (by decide)
    · refine ⟨'a', .inr ?_⟩
      rw [List.cons_prefix_cons]
      intro hpre
      exact ha hpre.1

/-- Each step shortens the text, if the bound placeholders have names and only then. -/
theorem shortens_iff :
    (∀ text word rest, commentStep v b text = some (word, rest) → rest.length < text.length)
      ↔ IsNamed v b := by
  constructor
  · intro h
    by_contra hnamed
    obtain ⟨c, hc⟩ := exists_not_primary v
    obtain ⟨word, hstep⟩ := exists_commentStep_self hnamed (List.cons_ne_nil c []) hc
    exact Nat.lt_irrefl _ (h _ _ _ hstep)
  · intro hnamed text word rest hstep
    exact length_lt_of_commentStep hnamed hstep

/-! ## The end of the loop -/

/-- So many primary placeholders one behind the other. -/
def primaries (v : Vocabulary) (n : Nat) : List Char :=
  (List.replicate n v.primary.toList).flatten

theorem primaries_succ : primaries v (n + 1) = v.primary.toList ++ primaries v n := by
  unfold primaries
  rw [List.replicate_succ, List.flatten_cons]

/-- If a placeholder has no name, only primary placeholders are passed on the way to primary
placeholders. -/
theorem exists_primaries_of_commentStep (h : ¬IsNamed v b)
    (hstep : commentStep v b text = some (word, primaries v n)) : ∃ m, text = primaries v m := by
  have hne : text ≠ [] := by
    rintro rfl
    contradiction
  by_cases hprimary : v.primary.toList <+: text
  · obtain ⟨rest, rfl⟩ := hprimary
    obtain ⟨-, rfl⟩ :=
      Prod.mk.inj (Option.some.inj ((commentStep_of_found hne leadingPlaceholder?_primary).symm.trans hstep))
    exact ⟨n + 1, primaries_succ.symm⟩
  · obtain ⟨word', hself⟩ := exists_commentStep_self h hne (.inr hprimary)
    obtain ⟨-, htext⟩ := Prod.mk.inj (Option.some.inj (hself.symm.trans hstep))
    exact ⟨n, htext⟩

theorem isSome_commentLoop_primaries : (v.commentLoop b out (primaries v n)).isSome = true := by
  induction n generalizing out with
  | zero =>
    rw [Vocabulary.commentLoop]
    rfl
  | succ n ih =>
    rw [primaries_succ]
    by_cases hne : v.primary.toList ++ primaries v n = []
    · rw [hne, Vocabulary.commentLoop]
      rfl
    · rw [Vocabulary.commentLoop, commentStep_of_found hne leadingPlaceholder?_primary]
      exact ih

/-- The loop ends if the bound placeholders have names, and otherwise on repetitions of the primary
placeholder only. -/
theorem isSome_commentLoop_iff :
    (v.commentLoop b out text).isSome = true ↔ IsNamed v b ∨ ∃ n, text = primaries v n := by
  constructor
  · intro h
    by_cases hnamed : IsNamed v b
    · exact .inl hnamed
    · obtain ⟨result, hresult⟩ := Option.isSome_iff_exists.1 h
      refine .inr (Vocabulary.commentLoop.partial_correctness v b (fun _ text _ => ∃ n, text = primaries v n)
        (fun loop ih out text result h => ?_) out text result hresult)
      split at h
      · rename_i hstep
        exact ⟨0, commentStep_eq_none_iff.1 hstep⟩
      · rename_i word rest hstep
        obtain ⟨n, rfl⟩ := ih _ _ _ h
        exact exists_primaries_of_commentStep hnamed hstep
  · rintro (hnamed | ⟨n, rfl⟩)
    · rw [commentLoop_eq hnamed (Nat.le_refl _)]
      rfl
    · exact isSome_commentLoop_primaries

/-- Each step of the loop over a comment shortens the text that is left, exactly if each placeholder
with a type has a name that is not empty. Then the loop ends on every text; and otherwise it ends on a
text only if that is the primary placeholder so many times. -/
theorem shortens_ends_iff (v : Vocabulary) (b : Binding) :
    ((∀ text word rest, commentStep v b text = some (word, rest) → rest.length < text.length)
        ↔ IsNamed v b)
      ∧ ∀ out text, (v.commentLoop b out text).isSome = true
        ↔ IsNamed v b ∨ ∃ n, text = primaries v n := by
  constructor
  · exact shortens_iff
  · intro out text
    exact isSome_commentLoop_iff

/-- The command takes an empty name for the primary placeholder. A step over a comment then writes the
word for its type and leaves the whole comment, and the loop over the comment does not end. -/
theorem not_shortens_ends : ∃ request,
    Request.ofArguments ["--templates", "t", "--output", "o", "--primary", ""] = .ok request
      ∧ commentStep request.settings.vocabulary ⟨.int, none⟩ "// x".toList
        = some ("int".toList, "// x".toList)
      ∧ request.settings.vocabulary.commentLoop ⟨.int, none⟩ "" "// x".toList = none := by
  refine ⟨_, rfl, by decide, ?_⟩
  rw [← Option.not_isSome_iff_eq_none, isSome_commentLoop_iff, not_or]
  refine ⟨fun hnamed => hnamed .primary rfl (by decide), ?_⟩
  rintro ⟨n, hn⟩
  have hempty : ∀ c, c ∉ primaries { ({} : Vocabulary) with primary := "" } n := by
    simp [primaries]
  exact hempty '/' (hn ▸ by decide)

end Stencil.Rewrite
