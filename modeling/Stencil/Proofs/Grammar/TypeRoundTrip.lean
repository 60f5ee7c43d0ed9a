import Stencil.Proofs.Grammar.BareType
import Stencil.Proofs.Grammar.Unit
import Stencil.Proofs.Trivia

/-!
# Types that are written and read

A type without annotations is written down with any blanks and comments between its tokens, and it is
read again from any text that has its tokens. The rules look two tokens ahead at most, so what stands
behind the type may not go on with it: no further dimension, no further part of a name, and no type
arguments where there are none.

Results: a type is found where its tokens stand (`run_type_of_verbatim`), so that what is written is
read, and what is read is what would be written (`type_roundTrip`).
-/

namespace Stencil

open Rule Stretch

/-! ## What goes on with a type -/

/-- Do two tokens behind a class name go on with it: does another part of the name follow, or type
arguments where there are none yet? -/
def BareCore.goesOn : BareCore → Kind → Kind → Bool
  | .primitive _, _, _ => false
  | .named segments, k, next =>
    k == .dot && next == .identifier || k == .less && segments.getLast?.any (·.args.isNone)

/-- Do two tokens behind a type go on with it? Behind array dimensions only further ones do. -/
def BareType.goesOn : BareType → Kind → Kind → Bool
  | ⟨core, dims⟩, k, next =>
    k == .leftBracket && next == .rightBracket || dims == 0 && core.goesOn k next

variable {s : Script} {m p q : Nat} {x : Lexeme} {xs : List Lexeme}

/-! ## Given tokens -/

theorem Stretch.lt_size_of_verbatim (h : verbatim s (x :: xs) p q) : p < s.size :=
  Script.size_words ▸ (Array.getElem?_eq_some_iff.1 (verbatim_cons.1 h).1).1

theorem Stretch.word_of_verbatim (h : verbatim s (x :: xs) p q) : s.word p = x := by
  rw [Script.word_eq, (verbatim_cons.1 h).1, Option.getD_some]

theorem Stretch.kind_of_verbatim (h : verbatim s (x :: xs) p q) : s.kind p = x.kind := by
  rw [Script.kind, word_of_verbatim h]

theorem Stretch.le_size_of_verbatim (h : verbatim s xs p q) (hp : p ≤ s.size) : q ≤ s.size := by
  induction xs generalizing p with
  | nil => exact empty_iff.1 h ▸ hp
  | cons x xs ih => exact ih (verbatim_cons.1 h).2 (lt_size_of_verbatim h)

namespace Grammar

/-! ## Array dimensions -/

theorem run_dims_of_verbatim {n : Nat}
    (h : verbatim s (List.replicate n [Kind.leftBracket.lexeme, Kind.rightBracket.lexeme]).flatten p q)
    (hp : p ≤ s.size) (hend : (s.kind q == .leftBracket && s.kind (q + 1) == .rightBracket) = false) :
    dims.run s p = .ok n q := by
  simp only [dims, run_bind, run_pure]
  refine ⟨List.replicate n (), q, ?_, List.length_replicate, rfl⟩
  induction n generalizing p with
  | zero =>
    obtain rfl := empty_iff.1 h
    refine manyWhile_nil hp ?_
    by_cases hk : s.kind p = .leftBracket
    · simpa [hk] using hend
    · simp [hk]
  | succ n ih =>
    rw [List.replicate_succ, List.flatten_cons] at h
    obtain ⟨m, hpair, h⟩ := verbatim_append.1 h
    have hleft := kind_of_verbatim hpair
    have hright := kind_of_verbatim (verbatim_cons.1 hpair).2
    obtain rfl : p + 1 + 1 = m := (verbatim_cons.1 (verbatim_cons.1 hpair).2).2
    have hm : p + 1 + 1 ≤ s.size := le_size_of_verbatim hpair hp
    refine manyWhile_cons (m := p) hp (by omega) ?_ ?_ (ih h hm)
    · simp [hleft, hright, Kind.lexeme]
    · simp [run_advance_of_kind, hleft, hright, Kind.lexeme]

/-! ## What stands behind the parts of a type -/

theorem goesOn_behind_core {core : BareCore} {n : Nat}
    (h : verbatim s (List.replicate n [Kind.leftBracket.lexeme, Kind.rightBracket.lexeme]).flatten m q)
    (hend : BareType.goesOn ⟨core, n⟩ (s.kind q) (s.kind (q + 1)) = false) :
    core.goesOn (s.kind m) (s.kind (m + 1)) = false := by
  cases n with
  | zero =>
    obtain rfl := empty_iff.1 h
    simpa [BareType.goesOn] using (Bool.or_eq_false_iff.1 hend).2
  | succ n =>
    rw [List.replicate_succ, List.flatten_cons] at h
    have hm := kind_of_verbatim h
    cases core <;> simp [BareCore.goesOn, hm, Kind.lexeme]

theorem goesOn_tail {a : BareSegment} {as : List BareSegment} {k next : Kind}
    (h : (BareCore.named (a :: as)).goesOn k next = false) : (BareCore.named as).goesOn k next = false := by
  cases as with
  | nil => simpa [BareCore.goesOn] using (Bool.or_eq_false_iff.1 h).1
  | cons b as => exact h

/-- The further parts of a name are a name behind a dot. -/
theorem verbatim_behind_dot {as : List BareSegment} (has : as ≠ [])
    (h : verbatim s (BareSegment.wordsBehind [Kind.dot.lexeme] as) p q) :
    s.kind p = .dot ∧ verbatim s (BareSegment.wordsBehind [] as) (p + 1) q := by
  match as with
  | [] => exact absurd rfl has
  | ⟨_, _⟩ :: _ => exact ⟨kind_of_verbatim h, (verbatim_cons.1 h).2⟩

/-- A list of type arguments begins with one and goes on behind it. -/
theorem exists_verbatim_arg {a : BareArg} {as : List BareArg}
    (h : verbatim s (BareArg.wordsBehind [] (a :: as)) p q) :
    ∃ m, verbatim s a.words p m ∧ verbatim s (BareArg.wordsBehind [Kind.comma.lexeme] as) m q := by
  have hargs : verbatim s (a.words ++ BareArg.wordsBehind [Kind.comma.lexeme] as) p q := h
  exact verbatim_append.1 hargs

/-- The further entries of a list are a list behind a comma. -/
theorem verbatim_behind_comma {as : List BareArg} (has : as ≠ [])
    (h : verbatim s (BareArg.wordsBehind [Kind.comma.lexeme] as) p q) :
    s.kind p = .comma ∧ verbatim s (BareArg.wordsBehind [] as) (p + 1) q := by
  match as with
  | [] => exact absurd rfl has
  | _ :: _ => exact ⟨kind_of_verbatim h, (verbatim_cons.1 h).2⟩

/-- Behind a part of a name stands a further one or what is behind the name. -/
theorem kind_behind_segment {a : BareSegment} {as : List BareSegment}
    (h : verbatim s (BareSegment.wordsBehind [Kind.dot.lexeme] as) m q)
    (hend : (BareCore.named (a :: as)).goesOn (s.kind q) (s.kind (q + 1)) = false)
    (ha : a.args = none) : s.kind m ≠ .less := by
  by_cases has : as = []
  · subst has
    obtain rfl := empty_iff.1 h
    simpa [ha] using (Bool.or_eq_false_iff.1 hend).2
  · rw [(verbatim_behind_dot has h).1]
    exact nofun

/-- Behind an entry of a list stands a further one or the end of the list. -/
theorem kind_behind_arg {as : List BareArg} (h : verbatim s (BareArg.wordsBehind [Kind.comma.lexeme] as) m q)
    (hq : s.kind q = .greater) : s.kind m = .comma ∨ s.kind m = .greater := by
  by_cases has : as = []
  · subst has
    obtain rfl := empty_iff.1 h
    exact .inr hq
  · exact .inl (verbatim_behind_comma has h).1

theorem goesOn_eq_false {k next : Kind} (hk : k = .comma ∨ k = .greater) (t : BareType) :
    t.goesOn k next = false := by
  obtain ⟨core, dims⟩ := t
  rcases hk with rfl | rfl <;> cases core <;> simp [BareType.goesOn, BareCore.goesOn]

/-! ## Types -/

theorem kind_of_named {as : List BareSegment} (has : as ≠ [])
    (h : verbatim s (BareSegment.wordsBehind [] as) p q) : s.kind p = .identifier := by
  match as with
  | [] => exact absurd rfl has
  | ⟨_, _⟩ :: _ => exact kind_of_verbatim h

/-- The list of type arguments is not over where one begins. -/
theorem kind_ne_greater {a : BareArg} (hvalid : a.isValid = true) (h : verbatim s a.words p q) :
    s.kind p ≠ .greater := by
  obtain ⟨x, xs, hwords, hx⟩ := a.exists_head hvalid
  rw [hwords] at h
  intro hk
  rw [← kind_of_verbatim h, hk] at hx
  exact absurd hx (by decide)

/-- A type begins with a keyword or a name, also where it is a type argument. -/
theorem opens_of_verbatim {t : BareType} (hvalid : t.isValid = true) (h : verbatim s t.words p q) :
    p < s.size ∧ ((s.kind p).isPrimitiveType = true ∨ s.kind p = .identifier) := by
  obtain ⟨x, xs, hwords, hx⟩ := t.exists_head hvalid
  rw [hwords] at h
  exact ⟨lt_size_of_verbatim h, kind_of_verbatim h ▸ hx⟩

theorem run_annotations_nil {g : Nested} (hp : p ≤ s.size) (hk : s.kind p ≠ .at) :
    (annotations g).run s p = .ok [] p :=
  manyWhile_nil hp (by simp [annotationFollows, hk])

theorem run_typeSegment_of_verbatim {g : Nested} {name : String} {args : Option TypeArgs}
    (h : verbatim s (⟨.identifier, name⟩ :: xs) p q) (hargs : (optionalTypeArgs g).run s (p + 1) = .ok args m) :
    (typeSegment g).run s p = .ok ⟨⟨name, p⟩, args⟩ m := by
  simp [typeSegment, kind_of_verbatim h, word_of_verbatim h, hargs]

theorem run_dotAndName_eq_false (h : (s.kind p == .dot && s.kind (p + 1) == .identifier) = false) :
    dotAndName.run s p = .ok false p := by
  by_cases hk : s.kind p = .dot
  · simpa [dotAndName, hk] using h
  · simp [dotAndName, hk]

/-- What is a name behind a dot goes on with the name in front of it. -/
theorem manyWhile_of_typeSegments {g : Nested} (hg : g.Sound s) {es : List TypeSegment}
    (hp : s.kind p = .dot) (h : (typeSegments g).run s (p + 1) = .ok es q) :
    (manyWhile dotAndName (do advance; typeSegment g)).run s p = .ok es q := by
  simp only [typeSegments, run_bind, run_pure] at h
  obtain ⟨e, n, he, rest, _, hrest, rfl, rfl⟩ := h
  have hsize : p < s.size := lt_size_of_kind_ne (hp ▸ by decide)
  obtain ⟨m, ⟨hname, -, rfl⟩, hargs⟩ := reads_of_typeSegment hg he
  have hle : p + 1 + 1 ≤ n := (TypeArgs.reads? s _).le hargs
  refine manyWhile_cons (m := p) (Nat.le_of_lt hsize) (by omega) (by simp [dotAndName, hp, hname]) ?_ hrest
  have hadvance : advance.run s p = .ok () (p + 1) := by simp [run_advance, hsize]
  exact run_bind.2 ⟨(), p + 1, hadvance, he⟩

/-- Inside another type there is one level less. -/
theorem exists_nested {t : BareType} (n : Nat) (hn : s.size + 1 < n + p) (hp : p < s.size)
    (h : ∀ n, s.size < n + p → ∃ e, (type (nested n)).run s p = .ok e q ∧ e.bare? = some t) :
    ∃ e, (nested n).type.run s p = .ok e q ∧ e.bare? = some t := by
  cases n with
  | zero => omega
  | succ n => exact h n (by omega)

mutual

/-- A type is found where its tokens stand, if they are not gone on with. -/
theorem run_type_of_verbatim : ∀ (t : BareType) (n : Nat) {p q : Nat}, t.isValid = true →
    s.size < n + p → verbatim s t.words p q → t.goesOn (s.kind q) (s.kind (q + 1)) = false →
    ∃ e, (type (nested n)).run s p = .ok e q ∧ e.bare? = some t
  | ⟨core, dims⟩, n, p, q, hvalid, hn, h, hend => by
    obtain ⟨m, hcore, hdims⟩ := verbatim_append.1 h
    obtain ⟨hp, hhead⟩ := opens_of_verbatim hvalid h
    have hannotations : (annotations (nested n)).run s p = .ok [] p := by
      refine run_annotations_nil (Nat.le_of_lt hp) fun hat => ?_
      rw [hat] at hhead
      exact absurd hhead (by decide)
    have hm : m ≤ s.size := le_size_of_verbatim hcore (Nat.le_of_lt hp)
    have hdims' := run_dims_of_verbatim hdims hm (Bool.or_eq_false_iff.1 hend).1
    match core with
    | .primitive k =>
      have hk : s.kind p = k := kind_of_verbatim hcore
      obtain rfl : p + 1 = m := (verbatim_cons.1 hcore).2
      have hprimitive : k.isPrimitiveType = true := hvalid
      have hadvance : advance.run s p = .ok () (p + 1) := by simp [run_advance, hp]
      refine ⟨⟨[], .primitive k, dims, ⟨p, q⟩⟩, ?_, rfl⟩
      simp [type, hannotations, hk, hprimitive, hadvance, hdims']
    | .named as =>
      obtain ⟨hne, hvalid⟩ := Bool.and_eq_true_iff.1 hvalid
      have has : as ≠ [] := by simpa using hne
      obtain ⟨es, hes, hbare⟩ := run_typeSegments_of_verbatim as n has hvalid hn hcore
        (goesOn_behind_core hdims hend)
      have hident : s.kind p = .identifier := kind_of_named has hcore
      have hprimitive : Kind.identifier.isPrimitiveType = false := by decide
      refine ⟨⟨[], .named es, dims, ⟨p, q⟩⟩, ?_, by simp [TypeExpr.bare?, TypeCore.bare?, hbare]⟩
      simp [type, hannotations, hident, hprimitive, hes, hdims']

theorem run_typeSegments_of_verbatim : ∀ (as : List BareSegment) (n : Nat) {p q : Nat},
    as ≠ [] → BareSegment.areValid as = true → s.size < n + p →
    verbatim s (BareSegment.wordsBehind [] as) p q →
    (BareCore.named as).goesOn (s.kind q) (s.kind (q + 1)) = false →
    ∃ es, (typeSegments (nested n)).run s p = .ok es q ∧ TypeSegment.bareAll? es = some as
  | [], n, p, q, hne, _, _, _, _ => absurd rfl hne
  | ⟨name, args⟩ :: rest, n, p, q, _, hvalid, hn, h, hend => by
    simp only [BareSegment.areValid, Bool.and_eq_true] at hvalid
    obtain ⟨⟨-, hvalid⟩, hvalids⟩ := hvalid
    obtain ⟨m, hargs, hrest⟩ := verbatim_append.1 (verbatim_cons.1 h).2
    have hpm : p + 1 ≤ m := (verbatim s _).le hargs
    have hm : m ≤ s.size := le_size_of_verbatim hargs (lt_size_of_verbatim h)
    obtain ⟨a, ha, hbare⟩ := run_optionalTypeArgs_of_verbatim args n hvalid (by omega) hargs
      (kind_behind_segment hrest hend)
    have hfurther : ∃ es, (manyWhile dotAndName (do advance; typeSegment (nested n))).run s m = .ok es q
        ∧ TypeSegment.bareAll? es = some rest := by
      by_cases hne : rest = []
      · subst hne
        obtain rfl := empty_iff.1 hrest
        refine ⟨[], manyWhile_nil hm (run_dotAndName_eq_false (Bool.or_eq_false_iff.1 hend).1), rfl⟩
      · obtain ⟨hdot, hrest⟩ := verbatim_behind_dot hne hrest
        obtain ⟨es, hes, hbares⟩ := run_typeSegments_of_verbatim rest n hne hvalids (by omega) hrest
          (goesOn_tail hend)
        exact ⟨es, manyWhile_of_typeSegments (sound_nested s n) hdot hes, hbares⟩
    obtain ⟨es, hes, hbares⟩ := hfurther
    refine ⟨⟨⟨name, p⟩, a⟩ :: es, ?_, by simp [TypeSegment.bareAll?, hbare, hbares]⟩
    simp only [typeSegments, run_bind, run_pure]
    exact ⟨_, m, run_typeSegment_of_verbatim h ha, es, q, hes, rfl, rfl⟩

theorem run_optionalTypeArgs_of_verbatim : ∀ (as : Option (List BareArg)) (n : Nat) {p q : Nat},
    BareArg.areValid? as = true → s.size < n + p → verbatim s (BareArg.words? as) p q →
    (as = none → s.kind q ≠ .less) →
    ∃ es, (optionalTypeArgs (nested n)).run s p = .ok es q ∧ TypeArgs.bare? es = some as
  | none, n, p, q, _, _, h, hless => by
    obtain rfl := empty_iff.1 h
    exact ⟨none, by simp [optionalTypeArgs, hless rfl], rfl⟩
  | some [], n, p, q, hvalid, hn, h, _ => by
    have hless : s.kind p = .less := kind_of_verbatim h
    have hgreater : s.kind (p + 1) = .greater := kind_of_verbatim (verbatim_cons.1 h).2
    obtain rfl : p + 1 + 1 = q := (verbatim_cons.1 (verbatim_cons.1 h).2).2
    refine ⟨some ⟨[], ⟨p, p + 1 + 1⟩⟩, ?_, rfl⟩
    simp [optionalTypeArgs, typeArgs, hless, hgreater]
  | some (a :: rest), n, p, q, hvalid, hn, h, _ => by
    have hless : s.kind p = .less := kind_of_verbatim h
    obtain ⟨m, hargs, hclose⟩ := verbatim_append.1 (verbatim_cons.1 h).2
    have hgreater : s.kind m = .greater := kind_of_verbatim hclose
    obtain rfl : m + 1 = q := (verbatim_cons.1 hclose).2
    obtain ⟨l, harg, -⟩ := exists_verbatim_arg hargs
    have hopen : s.kind (p + 1) ≠ .greater := kind_ne_greater (Bool.and_eq_true_iff.1 hvalid).1 harg
    obtain ⟨es, hes, hbare⟩ := run_sepBy_of_verbatim (a :: rest) n (List.cons_ne_nil a rest) hvalid (by omega)
      hargs hgreater
    refine ⟨some ⟨es, ⟨p, m + 1⟩⟩, ?_, by simp [TypeArgs.bare?, hbare]⟩
    simp [optionalTypeArgs, typeArgs, hless, hopen, hes, hgreater]

theorem run_sepBy_of_verbatim : ∀ (as : List BareArg) (n : Nat) {p q : Nat}, as ≠ [] →
    BareArg.areValid as = true → s.size + 1 < n + p →
    verbatim s (BareArg.wordsBehind [] as) p q → s.kind q = .greater →
    ∃ es, (sepBy .comma (typeArg (nested n))).run s p = .ok es q ∧ TypeArg.bareAll? es = some as
  | [], n, p, q, hne, _, _, _, _ => absurd rfl hne
  | a :: rest, n, p, q, _, hvalid, hn, h, hq => by
    obtain ⟨hvalid, hvalids⟩ := Bool.and_eq_true_iff.1 hvalid
    obtain ⟨m, harg, hrest⟩ := exists_verbatim_arg h
    have hpm : p ≤ m := (verbatim s _).le harg
    obtain ⟨e, he, hbare⟩ := run_typeArg_of_verbatim a n hvalid hn harg (kind_behind_arg hrest hq)
    have hfurther : ∃ es, (manyWhile (eat .comma) (typeArg (nested n))).run s m = .ok es q
        ∧ TypeArg.bareAll? es = some rest := by
      by_cases hne : rest = []
      · subst hne
        obtain rfl := empty_iff.1 hrest
        have hm : m < s.size := lt_size_of_kind_ne (hq ▸ by decide)
        exact ⟨[], manyWhile_nil (Nat.le_of_lt hm) (by simp [hq]), rfl⟩
      · obtain ⟨hcomma, hrest⟩ := verbatim_behind_comma hne hrest
        obtain ⟨es, hes, hbares⟩ := run_sepBy_of_verbatim rest n hne hvalids (by omega) hrest hq
        have hle {e l} (he : (typeArg (nested n)).run s (m + 1) = .ok e l) : m + 1 ≤ l :=
          (e.reads s).le (reads_of_typeArg (sound_nested s n) he)
        exact ⟨es, manyWhile_of_sepBy (by decide) hcomma hle hes, hbares⟩
    obtain ⟨es, hes, hbares⟩ := hfurther
    refine ⟨e :: es, ?_, by simp [TypeArg.bareAll?, hbare, hbares]⟩
    simp only [sepBy, run_bind, run_pure]
    exact ⟨e, m, he, es, q, hes, rfl, rfl⟩

theorem run_typeArg_of_verbatim : ∀ (a : BareArg) (n : Nat) {p q : Nat}, a.isValid = true →
    s.size + 1 < n + p → verbatim s a.words p q → (s.kind q = .comma ∨ s.kind q = .greater) →
    ∃ e, (typeArg (nested n)).run s p = .ok e q ∧ e.bare? = some a
  | .type t, n, p, q, hvalid, hn, h, hq => by
    obtain ⟨hp, hhead⟩ := opens_of_verbatim hvalid h
    have hquestion : s.kind p ≠ .question := by
      intro hk
      rw [hk] at hhead
      exact absurd hhead (by decide)
    obtain ⟨e, he, hbare⟩ := exists_nested n hn hp fun n hn =>
      run_type_of_verbatim t n hvalid hn h (goesOn_eq_false hq t)
    exact ⟨.type e, by simp [typeArg, hquestion, he], by simp [TypeArg.bare?, hbare]⟩
  | .wildcard, n, p, q, _, hn, h, hq => by
    have hquestion : s.kind p = .question := kind_of_verbatim h
    obtain rfl : p + 1 = q := (verbatim_cons.1 h).2
    refine ⟨.wildcard ⟨p, p + 1⟩, ?_, rfl⟩
    have hfree : s.kind (p + 1) ≠ .kwExtends ∧ s.kind (p + 1) ≠ .kwSuper := by
      rcases hq with hq | hq <;> simp [hq]
    simp [typeArg, hquestion, hfree]
  | .bounded kind t, n, p, q, hvalid, hn, h, hq => by
    have hquestion : s.kind p = .question := kind_of_verbatim h
    have hkeyword : s.kind (p + 1) = kind.keyword := kind_of_verbatim (verbatim_cons.1 h).2
    have htype := (verbatim_cons.1 (verbatim_cons.1 h).2).2
    obtain ⟨e, he, hbare⟩ := exists_nested n (by omega) (opens_of_verbatim hvalid htype).1 fun n hn =>
      run_type_of_verbatim t n hvalid hn htype (goesOn_eq_false hq t)
    refine ⟨.bounded kind e ⟨p, q⟩, ?_, by simp [TypeArg.bare?, hbare]⟩
    cases kind with
    | upper => simp [typeArg, hquestion, hkeyword, BoundKind.keyword, he]
    | lower => simp [typeArg, hquestion, hkeyword, BoundKind.keyword, he]

end

/-! ## Texts -/

theorem toList_words_ofSource (text receiver : String) :
    (Script.ofSource (.ofString text) receiver).words.toList = lexemes Kind.isCode text :=
  Source.toList_words_ofString text

theorem isSpelled_ofSource (text receiver : String) :
    (Script.ofSource (.ofString text) receiver).IsSpelled := by
  intro x hx
  rw [← Array.mem_toList_iff, toList_words_ofSource] at hx
  exact isSpelled_of_mem_lexemes hx

/-- The tokens of a script are those of another one behind those in front of it. -/
theorem kind_of_append {s t : Script} {xs : List Lexeme} (h : s.words.toList = xs ++ t.words.toList) (n : Nat) :
    s.kind (xs.length + n) = t.kind n := by
  have hword : s.words[xs.length + n]? = t.words[n]? := by
    rw [← Array.getElem?_toList, h, List.getElem?_append_right (Nat.le_add_right ..), Nat.add_sub_cancel_left,
      Array.getElem?_toList]
  rw [Script.kind, Script.kind, Script.word_eq, Script.word_eq, hword]

/-- Whatever type without annotations is written down, with whatever blanks and comments, in front of a
text that does not go on with it: it adds no problems to the text, it is read again as the same type, and
the rule stops right behind it. The other way round, whatever the rule finds without annotations is a type
of the grammar, and the code tokens it has passed are those that the type is written with. -/
theorem type_roundTrip (receiver : String) :
    (∀ (t : BareType) (text rest : String), t.isValid = true →
      Written rest.toList t.words text.toList →
      t.goesOn ((Script.ofSource (.ofString rest) receiver).kind 0)
        ((Script.ofSource (.ofString rest) receiver).kind 1) = false →
      ((Source.ofString text).problems = [] ↔ (Source.ofString rest).problems = [])
      ∧ ∃ e, (complete type).run (.ofSource (.ofString text) receiver) 0 = .ok e t.words.length
        ∧ e.bare? = some t)
    ∧ ∀ (text : String) (p q : Nat) (e : TypeExpr) (t : BareType),
      (complete type).run (.ofSource (.ofString text) receiver) p = .ok e q → e.bare? = some t →
      t.isValid = true ∧ (Script.ofSource (.ofString text) receiver).code p q = t.words := by
  constructor
  · intro t text rest hvalid hwritten hend
    have hphrase := t.phrase_words hvalid
    refine ⟨problems_of_written hwritten hphrase, ?_⟩
    have hwords : (Script.ofSource (.ofString text) receiver).words.toList
        = t.words ++ (Script.ofSource (.ofString rest) receiver).words.toList := by
      rw [toList_words_ofSource, toList_words_ofSource, lexemes_of_written hwritten hphrase]
    have hverbatim := verbatim_of_drop (p := 0) hwords
    rw [Nat.zero_add] at hverbatim
    rw [run_complete]
    refine run_type_of_verbatim t _ hvalid (Nat.lt_succ_self _) hverbatim ?_
    rw [← hend, ← kind_of_append hwords 0, ← kind_of_append hwords 1]
    rfl
  · intro text p q e t hrun hbare
    rw [run_complete] at hrun
    obtain ⟨hvalid, hverbatim⟩ := e.verbatim_of_reads (isSpelled_ofSource text receiver) hbare
      (reads_of_type (sound_nested _ _) hrun)
    exact ⟨hvalid, code_of_verbatim hverbatim⟩

/-- The theorem at a type whose nested lists close one bracket at a time, with a comment and blanks
between its tokens and a name behind it. -/
theorem type_roundTrip_nestedLists :
    let t : BareType :=
      ⟨.named [⟨"Map", none⟩, ⟨"Entry", some [.bounded .upper ⟨.named [⟨"L", some [.type ⟨.named
        [⟨"L", some []⟩], 0⟩]⟩], 0⟩]⟩], 1⟩
    let text := "Map /*<*/.Entry<? extends L<L<>>>[\n] x"
    ∃ e q, (complete type).run (.ofSource (.ofString text) "I") 0 = .ok e q ∧ e.bare? = some t
      ∧ (Script.ofSource (.ofString text) "I").code 0 q = t.words := by
  intro t text
  have blank {c : Char} (hc : Scan.isSpace c = true) : Gap [c] := .blank hc .nil
  have comment : Gap " /*<*/".toList :=
    .blank (c := ' ') rfl (.block (by decide : Scan.blockCommentLength "<*/".toList = some 3) .nil)
  have hwritten : Written " x".toList t.words _ :=
    .token .nil (by decide +kernel) <| .token comment (by decide +kernel) <|
    .token .nil (by decide +kernel) <| .token .nil (by decide +kernel) <|
    .token .nil (by decide +kernel) <| .token (blank (c := ' ') rfl) (by decide +kernel) <|
    .token (blank (c := ' ') rfl) (by decide +kernel) <| .token .nil (by decide +kernel) <|
    .token .nil (by decide +kernel) <| .token .nil (by decide +kernel) <|
    .token .nil (by decide +kernel) <| .token .nil (by decide +kernel) <|
    .token .nil (by decide +kernel) <| .token .nil (by decide +kernel) <|
    .token (blank (c := '\n') rfl) (by decide +kernel) .done
  have hwritten : Written " x".toList t.words text.toList := by
    convert hwritten
    decide +kernel
  obtain ⟨-, e, he, hbare⟩ := (type_roundTrip "I").1 t text " x" (by decide +kernel) hwritten (by decide +kernel)
  exact ⟨e, _, he, hbare, ((type_roundTrip "I").2 text 0 _ e t he hbare).2⟩

end Grammar

end Stencil
