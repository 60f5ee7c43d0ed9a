import Stencil.Proofs.Grammar.Strict
import Stencil.Proofs.Grammar.Unit
import Stencil.Rewrite.Outline

/-!
# Where the places of an outline stand

The outline of a tree leaves nothing out that could have to be rewritten: `Outline.laidAll` says
that the places of an outline stand one after the other in a stretch of code, and that no name
stands between them. The same is said of the outline of every entry of a list and of every argument
of a call, within the extent of the entry.

Results: stretches laid out by outlines one after the other are laid out by both of them
(`laidAll_append`), and what a tree reads is laid out by its outline (`laid_of_reads` for each node,
`CompilationUnit.laid_of_reads`).
-/

namespace Stencil.Rewrite

open Stretch

/-! ## Stretches without names -/

/-- Is the kind that of a token that is no name? -/
def IsNameless (k : Kind) : Prop :=
  k ≠ .identifier ∧ k ≠ .eof

/-- Tokens that are no names. -/
def nameless (s : Script) : Stretch :=
  run s IsNameless

/-- Entries within their extents, and no names between them. -/
def row (s : Script) : List (Extent × Stretch) → Stretch
  | [] => nameless s
  | (e, a) :: rest => nameless s ++ within e a ++ row s rest

variable {s : Script} {p m q : Nat}

theorem nameless_of_wordOf {P : Kind → Prop} (hP : ∀ k, P k → IsNameless k)
    (h : wordOf s P p q) : nameless s p q := by
  obtain ⟨hp, rfl⟩ := h
  exact run_succ (hP _ hp)

theorem nameless_of_word {k : Kind} (hk : k ≠ .identifier ∧ k ≠ .eof) (h : word s k p q) :
    nameless s p q :=
  nameless_of_wordOf (by rintro _ rfl; exact hk) h

theorem nameless_of_words {ks : List Kind} (hks : ∀ k ∈ ks, IsNameless k) (h : words s ks p q) :
    nameless s p q := by
  induction ks generalizing p with
  | nil =>
    obtain rfl := empty_iff.1 h
    exact run_self
  | cons k ks ih =>
    obtain ⟨m, hk, h⟩ := h
    rw [List.forall_mem_cons] at hks
    exact run_trans (nameless_of_word hks.1 hk) (ih hks.2 h)

theorem run_of_times {P : Kind → Prop} {a : Stretch} (ha : ∀ {p q}, a p q → run s P p q) {n : Nat}
    (h : times a n p q) : run s P p q := by
  induction n generalizing p with
  | zero =>
    obtain rfl := empty_iff.1 h
    exact run_self
  | succ n ih =>
    obtain ⟨m, h, hn⟩ := h
    exact run_trans (ha h) (ih hn)

/-- Dimensions are brackets and nothing else. -/
theorem run_of_dims {n : Nat} (h : Stretch.dims s n p q) :
    run s (fun k => k = .leftBracket ∨ k = .rightBracket) p q := by
  refine run_of_times (fun h => ?_) h
  obtain ⟨m, ⟨hl, rfl⟩, hr, rfl⟩ := h
  exact run_trans (run_succ (.inl hl)) (run_succ (.inr hr))

theorem nameless_of_dims {n : Nat} (h : Stretch.dims s n p q) : nameless s p q :=
  run_mono (by rintro _ (rfl | rfl) <;> simp [IsNameless]) (run_of_dims h)

theorem row_of_nameless {es : List (Extent × Stretch)} (h : nameless s p m) (he : row s es m q) :
    row s es p q := by
  cases es with
  | nil => exact run_trans h he
  | cons e es =>
    obtain ⟨m₁, ⟨m₂, hn, he⟩, hes⟩ := he
    exact ⟨m₁, ⟨m₂, run_trans h hn, he⟩, hes⟩

theorem row_nameless {es : List (Extent × Stretch)} (he : row s es p m) (h : nameless s m q) :
    row s es p q := by
  induction es generalizing p with
  | nil => exact run_trans he h
  | cons e es ih =>
    obtain ⟨m₁, he, hes⟩ := he
    exact ⟨m₁, he, ih hes⟩

/-! ## Outlines -/

/-- What follows a place: type parameters are never the last thing in a stretch. -/
def Outline.before : Outline → Stretch → Stretch
  | .typeParams .., a => proper a
  | _, a => a

mutual

/-- The stretch of a place. -/
def Outline.laid (s : Script) : Outline → Stretch
  | .name i => nameOf s i
  | .part i _ => nameOf s i
  | .typeArgs _ entries extent => within extent (proper (row s (Outline.argRow s entries)))
  | .typeParams entries extent => within extent (proper (row s (Outline.paramRow s entries)))
  | .call c args =>
    within c.extent (given (c.receiver.name = s.receiver)
      (nameOf s c.receiver ++ word s .dot ++ TypeArgs.reads? s c.hint ++ nameOf s c.name
        ++ row s (Outline.operandRow s args)))

/-- The places of an outline in order, with no names between them. -/
def Outline.laidAll (s : Script) : List Outline → Stretch
  | [] => nameless s
  | o :: rest => nameless s ++ o.laid s ++ o.before (Outline.laidAll s rest)

/-- The entries of type arguments. -/
def Outline.argRow (s : Script) : List (TypeArg × List Outline) → List (Extent × Stretch)
  | [] => []
  | (a, inner) :: rest => (a.extent, Outline.laidAll s inner) :: Outline.argRow s rest

/-- The entries of type parameters. -/
def Outline.paramRow (s : Script) : List (TypeParam × List Outline) → List (Extent × Stretch)
  | [] => []
  | (a, inner) :: rest => (a.extent, Outline.laidAll s inner) :: Outline.paramRow s rest

/-- The arguments of a call. -/
def Outline.operandRow (s : Script) : List (Expr × List Outline) → List (Extent × Stretch)
  | [] => []
  | (e, inner) :: rest => (e.extent, Outline.laidAll s inner) :: Outline.operandRow s rest

end

open Outline (laidAll)

theorem of_before {o : Outline} {a : Stretch} (h : o.before a p q) : a p q := by
  cases o with
  | typeParams => exact h.1
  | _ => exact h

/-- What follows a place may be made longer. -/
theorem before_mono {o : Outline} {a b : Stretch} (h : o.before a p m) (hmq : m ≤ q)
    (hab : a p m → b p q) : o.before b p q := by
  cases o with
  | typeParams => exact ⟨hab h.1, Nat.lt_of_lt_of_le h.2 hmq⟩
  | _ => exact hab h

theorem laidAll_of_nameless {os : List Outline} (h : nameless s p m) (ho : laidAll s os m q) :
    laidAll s os p q := by
  cases os with
  | nil => exact run_trans h ho
  | cons o os =>
    obtain ⟨m₁, ⟨m₂, hn, ho⟩, hos⟩ := ho
    exact ⟨m₁, ⟨m₂, run_trans h hn, ho⟩, hos⟩

theorem laidAll_append {os os' : List Outline} (h : laidAll s os p m) (h' : laidAll s os' m q) :
    laidAll s (os ++ os') p q := by
  induction os generalizing p with
  | nil => exact laidAll_of_nameless h h'
  | cons o os ih =>
    obtain ⟨n, ho, hos⟩ := h
    exact ⟨n, ho, before_mono hos ((laidAll s os').le h') fun h => ih h⟩

theorem laidAll_nameless {os : List Outline} (ho : laidAll s os p m) (h : nameless s m q) :
    laidAll s os p q := by
  have hnil : laidAll s [] m q := h
  simpa using laidAll_append ho hnil

theorem laidAll_cons {o : Outline} {os : List Outline} (ho : o.laid s p m)
    (h : o.before (laidAll s os) m q) : laidAll s (o :: os) p q :=
  ⟨m, ⟨p, run_self, ho⟩, h⟩

/-! ## Outlines of trees -/

theorem laid_of_readsBehind {is : List Ident} {lead : Stretch}
    (hl : ∀ {p q}, lead p q → nameless s p q) (h : Ident.readsBehind s lead is p q) :
    laidAll s (is.map .name) p q := by
  induction is generalizing lead p with
  | nil =>
    obtain rfl := empty_iff.1 h
    exact run_self
  | cons i is ih =>
    obtain ⟨m, ⟨m', h, hi⟩, his⟩ := h
    exact ⟨m, ⟨m', hl h, hi⟩, ih (nameless_of_word (by simp)) his⟩

theorem nameless_of_empty (h : Stretch.empty p q) : nameless s p q := by
  obtain rfl := empty_iff.1 h
  exact run_self

theorem QualifiedName.laid_of_reads {n : Stencil.QualifiedName} (h : n.reads s p q) :
    laidAll s (QualifiedName.outline n) p q :=
  laid_of_readsBehind nameless_of_empty h.1.2

theorem TypeExpr.extent_of_reads {t : Stencil.TypeExpr} (h : t.reads s p q) :
    t.extent = ⟨p, q⟩ := by
  cases t
  exact h.2

theorem isNameless_opening (d : Delimiter) : IsNameless d.opening := by
  cases d <;> simp [IsNameless, Delimiter.opening]

theorem isNameless_closing (d : Delimiter) : IsNameless d.closing := by
  cases d <;> simp [IsNameless, Delimiter.closing]

theorem isNameless_keyword (k : BoundKind) : IsNameless k.keyword := by
  cases k <;> simp [IsNameless, BoundKind.keyword]

theorem isNameless_of_isPrimitiveType {k : Kind} (h : k.isPrimitiveType = true) : IsNameless k := by
  refine ⟨?_, ?_⟩ <;> rintro rfl <;> simp [Kind.isPrimitiveType, Kind.primitiveTypes] at h

theorem isNameless_of_isModifier {k : Kind} (h : k.isModifier = true) : IsNameless k := by
  refine ⟨?_, ?_⟩ <;> rintro rfl <;> simp [Kind.isModifier] at h

theorem nameless_of_semicolons (h : run s (· = .semicolon) p q) : nameless s p q :=
  run_mono (by rintro _ rfl; simp [IsNameless]) h

theorem nameless_of_declWords {k : DeclKind} (h : words s k.words p q) : nameless s p q := by
  refine nameless_of_words ?_ h
  cases k <;> simp [DeclKind.words, IsNameless]

mutual

theorem AnnotationUse.laid_of_reads {p q : Nat} : ∀ {a : Stencil.AnnotationUse},
    a.reads s p q → laidAll s (AnnotationUse.outline a) p q
  | ⟨name, args, extent⟩, h => by
    obtain ⟨⟨m, ⟨m', hp, hn⟩, ha⟩, -⟩ := h
    have hn := QualifiedName.laid_of_reads hn
    exact laidAll_append (laidAll_of_nameless (nameless_of_word (by simp) hp) hn)
      (Group.laid_of_readsOr nameless_of_empty ha)

theorem AnnotationUse.laid_of_readsAll {p q : Nat} : ∀ {as : List Stencil.AnnotationUse},
    AnnotationUse.readsAll s as p q → laidAll s (AnnotationUse.outlines as) p q
  | [], h => nameless_of_empty h
  | _ :: _, ⟨_, ha, h⟩ =>
    laidAll_append (AnnotationUse.laid_of_reads ha) (AnnotationUse.laid_of_readsAll h)

theorem AnnotationUse.laid_of_readsAmong {p q : Nat} : ∀ {as : List Stencil.AnnotationUse}
    {flags : List Kind}, (∀ k ∈ flags, k.isModifier = true) →
    AnnotationUse.readsAmong s as flags p q → laidAll s (AnnotationUse.outlines as) p q
  | [], flags, hf, h => nameless_of_words (fun k hk => isNameless_of_isModifier (hf k hk)) h
  | a :: as, flags, hf, ⟨n, m, ⟨m', hw, ha⟩, h⟩ => by
    have hw : nameless s p m' :=
      nameless_of_words (fun k hk => isNameless_of_isModifier (hf k (List.mem_of_mem_take hk))) hw
    exact laidAll_append (laidAll_of_nameless hw (AnnotationUse.laid_of_reads ha))
      (AnnotationUse.laid_of_readsAmong (fun k hk => hf k (List.mem_of_mem_drop hk)) h)

theorem TypeExpr.laid_of_reads {p q : Nat} : ∀ {t : Stencil.TypeExpr},
    t.reads s p q → laidAll s (TypeExpr.outline t) p q
  | ⟨annotations, core, dims, extent⟩, h => by
    obtain ⟨⟨m, ⟨m', ha, hc⟩, hd⟩, -⟩ := h
    exact laidAll_nameless (laidAll_append (AnnotationUse.laid_of_readsAll ha)
      (TypeCore.laid_of_reads hc)) (nameless_of_dims hd)

theorem TypeExpr.laid_of_reads? {p q : Nat} : ∀ {t : Option Stencil.TypeExpr},
    TypeExpr.reads? s t p q → laidAll s (TypeExpr.outline? t) p q
  | none, h => nameless_of_empty h
  | some _, h => TypeExpr.laid_of_reads h

theorem TypeExpr.laid_of_readsBehind {p q : Nat} {lead : Stretch} {separator : Kind}
    (hl : ∀ {p q}, lead p q → nameless s p q) (hk : IsNameless separator) :
    ∀ {ts : List Stencil.TypeExpr},
    TypeExpr.readsBehind s lead separator ts p q → laidAll s (TypeExpr.outlines ts) p q
  | [], h => nameless_of_empty h
  | _ :: _, ⟨_, ⟨_, h, ht⟩, hts⟩ =>
    laidAll_append (laidAll_of_nameless (hl h) (TypeExpr.laid_of_reads ht))
      (TypeExpr.laid_of_readsBehind (nameless_of_word hk) hk hts)

theorem TypeCore.laid_of_reads {p q : Nat} : ∀ {c : Stencil.TypeCore},
    c.reads s p q → laidAll s (TypeCore.outline c) p q
  | .primitive _, ⟨hk, h⟩ => nameless_of_word (isNameless_of_isPrimitiveType hk) h
  | .named _, ⟨_, h⟩ => TypeSegment.laid_of_readsBehind nameless_of_empty h

theorem TypeSegment.laid_of_readsBehind {p q : Nat} {lead : Stretch}
    (hl : ∀ {p q}, lead p q → nameless s p q) : ∀ {ss : List Stencil.TypeSegment},
    TypeSegment.readsBehind s lead ss p q → laidAll s (TypeSegment.outlines ss) p q
  | [], h => nameless_of_empty h
  | ⟨i, none⟩ :: rest, ⟨_, ⟨_, ⟨_, h, hi⟩, hargs⟩, hrest⟩ => by
    obtain rfl := empty_iff.1 hargs
    exact laidAll_of_nameless (hl h) (laidAll_cons hi
      (TypeSegment.laid_of_readsBehind (nameless_of_word (by simp)) hrest))
  | ⟨i, some args⟩ :: rest, ⟨_, ⟨_, ⟨_, h, hi⟩, hargs⟩, hrest⟩ => by
    have hrest := TypeSegment.laid_of_readsBehind (nameless_of_word (by simp)) hrest
    exact laidAll_of_nameless (hl h) (laidAll_cons hi
      (laidAll_append (TypeArgs.laid_of_reads hargs) hrest))

theorem TypeArgs.laid_of_reads {p q : Nat} {owner : Option String} : ∀ {a : Stencil.TypeArgs},
    a.reads s p q → laidAll s [TypeArgs.outline owner a] p q
  | ⟨entries, extent⟩, hargs => by
    have hlt : p < q := TypeArgs.strict_reads ⟨entries, extent⟩ hargs
    obtain ⟨⟨m, ⟨m', hp, h⟩, hm⟩, he⟩ := hargs
    have hrow := row_of_nameless (nameless_of_word (by simp) hp)
      (TypeArg.row_of_readsBehind nameless_of_empty h)
    exact laidAll_cons ⟨⟨row_nameless hrow (nameless_of_word (by simp) hm), hlt⟩, he⟩ run_self

theorem TypeArg.row_of_readsBehind {p q : Nat} {lead : Stretch}
    (hl : ∀ {p q}, lead p q → nameless s p q) : ∀ {as : List Stencil.TypeArg},
    TypeArg.readsBehind s lead as p q → row s (Outline.argRow s (TypeArg.entries as)) p q
  | [], h => nameless_of_empty h
  | _ :: _, ⟨_, ⟨_, h, ha⟩, has⟩ =>
    ⟨_, ⟨_, hl h, TypeArg.laid_of_reads ha⟩,
      TypeArg.row_of_readsBehind (nameless_of_word (by simp)) has⟩

theorem TypeArg.laid_of_reads {p q : Nat} : ∀ {a : Stencil.TypeArg},
    a.reads s p q → within a.extent (laidAll s (TypeArg.outline a)) p q
  | .type _, h => ⟨TypeExpr.laid_of_reads h, TypeExpr.extent_of_reads h⟩
  | .wildcard _, ⟨h, he⟩ => ⟨nameless_of_word (by simp) h, he⟩
  | .bounded k t _, ⟨⟨m, ⟨m', hq, hk⟩, ht⟩, he⟩ => by
    have hlead := run_trans (nameless_of_word (by simp) hq) (nameless_of_word (isNameless_keyword k) hk)
    exact ⟨laidAll_of_nameless hlead (TypeExpr.laid_of_reads ht), he⟩

theorem TypeParam.laid_of_reads {p q : Nat} : ∀ {a : Stencil.TypeParam},
    a.reads s p q → within a.extent (laidAll s (TypeParam.outline a)) p q
  | ⟨annotations, i, bounds, extent⟩, ⟨⟨m, ⟨m', ha, hi⟩, hb⟩, he⟩ => by
    have hb := TypeExpr.laid_of_readsBehind (nameless_of_word (by simp)) (by simp [IsNameless]) hb
    exact ⟨laidAll_append (AnnotationUse.laid_of_readsAll ha) (laidAll_cons hi hb), he⟩

theorem TypeParam.row_of_readsBehind {p q : Nat} {lead : Stretch}
    (hl : ∀ {p q}, lead p q → nameless s p q) : ∀ {as : List Stencil.TypeParam},
    TypeParam.readsBehind s lead as p q → row s (Outline.paramRow s (TypeParam.entries as)) p q
  | [], h => nameless_of_empty h
  | _ :: _, ⟨_, ⟨_, h, ha⟩, has⟩ =>
    ⟨_, ⟨_, hl h, TypeParam.laid_of_reads ha⟩,
      TypeParam.row_of_readsBehind (nameless_of_word (by simp)) has⟩

/-- Type parameters, and behind them at least one more token. -/
theorem TypeParams.laid_of_reads? {p m q : Nat} {os : List Outline} :
    ∀ {a : Option Stencil.TypeParams}, TypeParams.reads? s a p m → laidAll s os m q → m < q →
      laidAll s (TypeParams.outline? a ++ os) p q
  | none, h, hos, _ => laidAll_of_nameless (nameless_of_empty h) hos
  | some ⟨entries, extent⟩, ⟨⟨_, m₁, ⟨m₂, hp, h⟩, hm⟩, he⟩, hos, hlt => by
    have hpm : p < m := by
      have := hp.2
      have := hm.2
      have := (TypeParam.readsBehind s .empty entries).le h
      omega
    have hrow := row_of_nameless (nameless_of_word (by simp) hp)
      (TypeParam.row_of_readsBehind nameless_of_empty h)
    exact laidAll_cons ⟨⟨row_nameless hrow (nameless_of_word (by simp) hm), hpm⟩, he⟩ ⟨hos, hlt⟩

theorem Modifiers.laid_of_reads {p q : Nat} : ∀ {ms : Stencil.Modifiers},
    ms.reads s p q → laidAll s (Modifiers.outline ms) p q
  | ⟨_, _⟩, ⟨hf, h⟩ => AnnotationUse.laid_of_readsAmong hf h

theorem Group.laid_of_reads {p q : Nat} : ∀ {g : Stencil.Group},
    g.reads s p q → laidAll s (Group.outline g) p q
  | ⟨d, _, _⟩, ⟨⟨_, ⟨_, hp, hes⟩, hm⟩, _⟩ =>
    laidAll_nameless (laidAll_of_nameless (nameless_of_word (isNameless_opening d) hp)
      (Elem.laid_of_readsAll hes)) (nameless_of_word (isNameless_closing d) hm)

theorem Group.laid_of_readsOr {p q : Nat} {absent : Stretch}
    (hl : ∀ {p q}, absent p q → nameless s p q) : ∀ {g : Option Stencil.Group},
    Group.readsOr s absent g p q → laidAll s (Group.outline? g) p q
  | none, h => hl h
  | some _, h => Group.laid_of_reads h

theorem Expr.laid_of_reads {p q : Nat} : ∀ {e : Stencil.Expr},
    e.reads s p q → within e.extent (laidAll s (Expr.outline e)) p q
  | ⟨_, _⟩, ⟨⟨_, h⟩, he⟩ => ⟨Elem.laid_of_readsAll h, he⟩

theorem Expr.laid_of_reads? {p q : Nat} {lead : Stretch}
    (hl : ∀ {p q}, lead p q → nameless s p q) : ∀ {e : Option Stencil.Expr},
    Expr.reads? s lead e p q → laidAll s (Expr.outline? e) p q
  | none, h => nameless_of_empty h
  | some _, ⟨_, h, he⟩ => laidAll_of_nameless (hl h) (Expr.laid_of_reads he).1

theorem Expr.row_of_readsBehind {p q : Nat} {lead : Stretch}
    (hl : ∀ {p q}, lead p q → nameless s p q) : ∀ {es : List Stencil.Expr},
    Expr.readsBehind s lead es p q → row s (Outline.operandRow s (Expr.entries es)) p q
  | [], h => nameless_of_empty h
  | _ :: _, ⟨_, ⟨_, h, he⟩, hes⟩ =>
    ⟨_, ⟨_, hl h, Expr.laid_of_reads he⟩, Expr.row_of_readsBehind (nameless_of_word (by simp)) hes⟩

theorem Elem.laid_of_readsAll {p q : Nat} : ∀ {es : List Stencil.Elem},
    Elem.readsAll s es p q → laidAll s (Elem.outlines es) p q
  | [], h => nameless_of_empty h
  | _ :: _, ⟨_, he, h⟩ => laidAll_append (Elem.laid_of_reads he) (Elem.laid_of_readsAll h)

theorem Elem.laid_of_reads {p q : Nat} : ∀ {e : Stencil.Elem},
    e.reads s p q → laidAll s (Elem.outline e) p q
  | .token _, ⟨h, _⟩ => nameless_of_wordOf (fun _ hk => ⟨hk.2.1, hk.1⟩) h
  | .ident _, h => laidAll_cons h run_self
  | .type _, h => TypeExpr.laid_of_reads h
  | .typeArgs _, h => TypeArgs.laid_of_reads h
  | .group _, h => Group.laid_of_reads h
  | .intrinsic ⟨receiver, hint, i, args, extent⟩,
      ⟨⟨hr, m₁, ⟨m₂, ⟨m₃, hi, hl⟩, ha⟩, hm⟩, he⟩ => by
    have hrow := row_of_nameless (nameless_of_word (by simp) hl)
      (Expr.row_of_readsBehind nameless_of_empty ha)
    have hrow := row_nameless hrow (nameless_of_word (by simp) hm)
    exact laidAll_cons ⟨⟨hr, m₃, hi, hrow⟩, he⟩ run_self
  | .anonymous _, h => ClassBody.laid_of_reads h
  | .localType _, h => TypeDecl.laid_of_reads h

theorem ClassBody.laid_of_reads {p q : Nat} : ∀ {b : Stencil.ClassBody},
    b.reads s p q → laidAll s (ClassBody.outline b) p q
  | ⟨cs, ms, extent⟩, ⟨⟨m₁, ⟨m₂, ⟨m₃, hp, hcs⟩, hms⟩, hm⟩, _⟩ => by
    have hcs := EnumConstant.laid_of_readsBehind nameless_of_empty hcs
    have hms := Member.laid_of_readsAll hms
    exact laidAll_nameless (laidAll_append (laidAll_of_nameless (nameless_of_word (by simp) hp) hcs)
      hms) (nameless_of_word (by simp) hm)

theorem ClassBody.laid_of_reads? {p q : Nat} : ∀ {b : Option Stencil.ClassBody},
    ClassBody.reads? s b p q → laidAll s (ClassBody.outline? b) p q
  | none, h => nameless_of_empty h
  | some _, h => ClassBody.laid_of_reads h

theorem EnumConstant.laid_of_readsBehind {p q : Nat} {lead : Stretch}
    (hl : ∀ {p q}, lead p q → nameless s p q) : ∀ {cs : List Stencil.EnumConstant},
    EnumConstant.readsBehind s lead cs p q → laidAll s (EnumConstant.outlines cs) p q
  | [], h => by
    rcases h with rfl | h
    · exact run_self
    · exact hl h
  | ⟨annotations, i, args, body⟩ :: rest, ⟨m₁, ⟨m₂, h, m₃, ⟨m₄, ⟨m₅, ha, hi⟩, hargs⟩, hb⟩, hrest⟩ => by
    have hrest := EnumConstant.laid_of_readsBehind (nameless_of_word (by simp)) hrest
    have hargs := Group.laid_of_readsOr nameless_of_empty hargs
    have hb := laidAll_append (laidAll_append hargs (ClassBody.laid_of_reads? hb)) hrest
    have ha := laidAll_of_nameless (hl h) (AnnotationUse.laid_of_readsAll ha)
    exact laidAll_append ha (laidAll_cons hi hb)

theorem Member.laid_of_readsAll {p q : Nat} : ∀ {ms : List Stencil.Member},
    Member.readsAll s ms p q → laidAll s (Member.outlines ms) p q
  | [], h => nameless_of_semicolons h
  | _ :: _, ⟨_, ⟨_, h, hm⟩, hms⟩ =>
    laidAll_append (laidAll_of_nameless (nameless_of_semicolons h) (Member.laid_of_reads hm))
      (Member.laid_of_readsAll hms)

theorem Member.laid_of_reads {p q : Nat} : ∀ {m : Stencil.Member},
    m.reads s p q → laidAll s (Member.outline m) p q
  | .field _, h => FieldDecl.laid_of_reads h
  | .method _, h => MethodDecl.laid_of_reads h
  | .block true _, ⟨_, h, hb⟩ =>
    laidAll_of_nameless (nameless_of_word (by simp) h) (Group.laid_of_reads hb)
  | .block false _, ⟨_, h, hb⟩ =>
    laidAll_of_nameless (nameless_of_empty h) (Group.laid_of_reads hb)
  | .nested _, h => TypeDecl.laid_of_reads h

theorem FieldDecl.laid_of_reads {p q : Nat} : ∀ {f : Stencil.FieldDecl},
    f.reads s p q → laidAll s (FieldDecl.outline f) p q
  | ⟨_, _, _, _⟩, ⟨⟨_, ⟨_, ⟨_, hms, ht⟩, hds⟩, hm⟩, _⟩ =>
    laidAll_nameless (laidAll_append (laidAll_append (Modifiers.laid_of_reads hms)
      (TypeExpr.laid_of_reads ht)) (Declarator.laid_of_readsBehind nameless_of_empty hds))
      (nameless_of_word (by simp) hm)

theorem Declarator.laid_of_readsBehind {p q : Nat} {lead : Stretch}
    (hl : ∀ {p q}, lead p q → nameless s p q) : ∀ {ds : List Stencil.Declarator},
    Declarator.readsBehind s lead ds p q → laidAll s (Declarator.outlines ds) p q
  | [], h => nameless_of_empty h
  | ⟨i, dims, value⟩ :: rest, ⟨m₁, ⟨m₂, h, m₃, ⟨m₄, hi, hd⟩, hv⟩, hrest⟩ => by
    have hrest := Declarator.laid_of_readsBehind (nameless_of_word (by simp)) hrest
    have hv := Expr.laid_of_reads? (nameless_of_word (by simp)) hv
    have hv := laidAll_of_nameless (nameless_of_dims hd) hv
    exact laidAll_of_nameless (hl h) (laidAll_cons hi (laidAll_append hv hrest))

theorem MethodDecl.laid_of_reads {p q : Nat} : ∀ {d : Stencil.MethodDecl},
    d.reads s p q → laidAll s (MethodDecl.outline d) p q
  | ⟨modifiers, typeParams, returnType, i, params, dims, throws, defaultValue, body, extent⟩,
      ⟨⟨m₁, ⟨m₂, ⟨m₃, ⟨m₄, ⟨m₅, ⟨m₆, ⟨m₇, ⟨m₈, ⟨m₉, ⟨m₁₀, hms, htps⟩, ht⟩, hi⟩, hl⟩, hps⟩, hr⟩, hd⟩,
        hts⟩, he⟩, hb⟩, _⟩ => by
    have hps := laidAll_of_nameless (nameless_of_word (by simp) hl)
      (Param.laid_of_readsBehind nameless_of_empty hps)
    have hps := laidAll_nameless (laidAll_nameless hps (nameless_of_word (by simp) hr))
      (nameless_of_dims hd)
    have hts := TypeExpr.laid_of_readsBehind (nameless_of_word (by simp)) (by simp [IsNameless]) hts
    have he := Expr.laid_of_reads? (nameless_of_word (by simp)) he
    have hb := Group.laid_of_readsOr (nameless_of_word (by simp)) hb
    have hrest := laidAll_append (laidAll_append (laidAll_append hps hts) he) hb
    have hlt : m₉ < q := by
      have := (TypeExpr.reads? s returnType).le ht
      have := hi.2.2
      have := (laidAll s _).le hrest
      omega
    have ht := laidAll_append (TypeExpr.laid_of_reads? ht) (laidAll_cons (o := .name i) hi hrest)
    have htps := TypeParams.laid_of_reads? htps ht hlt
    simp only [MethodDecl.outline, List.append_assoc] at htps ⊢
    exact laidAll_append (Modifiers.laid_of_reads hms) htps

theorem Param.laid_of_readsBehind {p q : Nat} {lead : Stretch}
    (hl : ∀ {p q}, lead p q → nameless s p q) : ∀ {as : List Stencil.Param},
    Param.readsBehind s lead as p q → laidAll s (Param.outlines as) p q
  | [], h => nameless_of_empty h
  | ⟨modifiers, t, variadic, i, dims, extent⟩ :: rest,
      ⟨m₁, ⟨m₂, h, ⟨m₃, ⟨m₄, ⟨m₅, ⟨m₆, hms, ht⟩, hv⟩, hi⟩, hd⟩, _⟩, hrest⟩ => by
    have hrest := Param.laid_of_readsBehind (nameless_of_word (by simp)) hrest
    have hi := laidAll_cons (o := .name i) hi (laidAll_of_nameless (nameless_of_dims hd) hrest)
    have hv : nameless s m₅ m₄ := by
      cases variadic with
      | true => exact nameless_of_word (by simp) hv
      | false => exact nameless_of_empty hv
    have hms := laidAll_of_nameless (hl h) (Modifiers.laid_of_reads hms)
    exact laidAll_append (laidAll_append hms (TypeExpr.laid_of_reads ht))
      (laidAll_of_nameless hv hi)

theorem TypeDecl.laid_of_reads {p q : Nat} : ∀ {d : Stencil.TypeDecl},
    d.reads s p q → laidAll s (TypeDecl.outline d) p q
  | ⟨modifiers, kind, i, typeParams, supertypes, interfaces, body, extent⟩,
      ⟨⟨m₁, ⟨m₂, ⟨m₃, ⟨m₄, ⟨m₅, ⟨m₆, hms, hk⟩, hi⟩, htps⟩, hsups⟩, hifs⟩, hb⟩, _⟩ => by
    have hlt : m₃ < q := by
      have := (TypeExpr.readsBehind s (word s .kwExtends) .comma supertypes).le hsups
      have := (TypeExpr.readsBehind s (word s .kwImplements) .comma interfaces).le hifs
      have := body.strict_reads hb
      omega
    have hsups := TypeExpr.laid_of_readsBehind (nameless_of_word (by simp)) (by simp [IsNameless]) hsups
    have hifs := TypeExpr.laid_of_readsBehind (nameless_of_word (by simp)) (by simp [IsNameless]) hifs
    have hb := laidAll_append (laidAll_append hsups hifs) (ClassBody.laid_of_reads hb)
    have htps := TypeParams.laid_of_reads? htps hb hlt
    simp only [TypeDecl.outline, List.append_assoc] at htps ⊢
    exact laidAll_append (Modifiers.laid_of_reads hms)
      (laidAll_of_nameless (nameless_of_declWords hk) (laidAll_cons hi htps))

end

theorem PackageDecl.laid_of_reads? {d : Option Stencil.PackageDecl}
    (h : PackageDecl.reads? s d p q) : laidAll s (PackageDecl.outline? d) p q := by
  cases d with
  | none => exact nameless_of_empty h
  | some d =>
    obtain ⟨⟨m₁, ⟨m₂, ⟨m₃, ha, hk⟩, hn⟩, hm⟩, -⟩ := h
    have hn := laidAll_nameless (QualifiedName.laid_of_reads hn) (nameless_of_word (by simp) hm)
    exact laidAll_append (AnnotationUse.laid_of_readsAll ha)
      (laidAll_of_nameless (nameless_of_word (by simp) hk) hn)

theorem ImportDecl.laid_of_reads {i : Stencil.ImportDecl} (h : i.reads s p q) :
    laidAll s (QualifiedName.outline i.name) p q := by
  obtain ⟨⟨m₁, ⟨m₂, ⟨m₃, ⟨m₄, hk, hs⟩, hn⟩, hd⟩, hm⟩, -⟩ := h
  have hs : nameless s m₄ m₃ := by
    split at hs
    · exact nameless_of_word (by simp) hs
    · exact nameless_of_empty hs
  have hd : nameless s m₂ m₁ := by
    split at hd
    · obtain ⟨m, hdot, hstar⟩ := hd
      exact run_trans (nameless_of_word (by simp) hdot) (nameless_of_word (by simp) hstar)
    · exact nameless_of_empty hd
  have hlead := run_trans (nameless_of_word (by simp) hk) hs
  exact laidAll_nameless (laidAll_nameless (laidAll_of_nameless hlead
    (QualifiedName.laid_of_reads hn)) hd) (nameless_of_word (by simp) hm)

theorem ImportDecl.laid_of_readsAll {is : List Stencil.ImportDecl}
    (h : ImportDecl.readsAll s is p q) : laidAll s (ImportDecl.outlines is) p q := by
  induction is generalizing p with
  | nil => exact nameless_of_empty h
  | cons i is ih =>
    obtain ⟨m, hi, his⟩ := h
    exact laidAll_append (ImportDecl.laid_of_reads hi) (ih his)

theorem TypeDecl.laid_of_readsAll {ds : List Stencil.TypeDecl}
    (h : TypeDecl.readsAll s ds p q) : laidAll s (TypeDecl.outlines ds) p q := by
  induction ds generalizing p with
  | nil => exact nameless_of_semicolons h
  | cons d ds ih =>
    obtain ⟨m, ⟨m', hl, hd⟩, hds⟩ := h
    exact laidAll_append (laidAll_of_nameless (nameless_of_semicolons hl)
      (TypeDecl.laid_of_reads hd)) (ih hds)

/-- The outline of a file lays out all of its code. -/
theorem CompilationUnit.laid_of_reads {u : Stencil.CompilationUnit} (h : u.reads s p q) :
    laidAll s (CompilationUnit.outline u) p q := by
  obtain ⟨m₁, ⟨m₂, hp, hi⟩, ht⟩ := h
  exact laidAll_append (laidAll_append (PackageDecl.laid_of_reads? hp)
    (ImportDecl.laid_of_readsAll hi)) (TypeDecl.laid_of_readsAll ht)

end Stencil.Rewrite
