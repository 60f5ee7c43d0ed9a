import Stencil.Proofs.Rewrite.Seals

/-!
# Arguments that begin with no cast

Where no operator shows, an operand is awaited at the beginning only, so a cast could stand there and
nowhere else. An argument that stands without parentheses does not begin with a group, but it can begin
with a call, and the call may become a group. This makes no cast of the group as long as what is
directly behind the call is no operand, in the argument and in those that come to stand in its place.

Results: an argument that needs no parentheses begins with no cast, unless a call at its beginning is
directly followed by an operand (`IntrinsicCall.not_beginsCast`).
-/

namespace Stencil

/-- Can an operand begin with a token of the kind? -/
def Kind.beginsOperand (k : Kind) : Bool :=
  k.isLiteral || k.isPrimitiveType
    || [.identifier, .leftParen, .kwThis, .kwSuper, .kwNew, .kwSwitch, .bang, .tilde, .plus, .minus,
      .plusPlus, .minusMinus].contains k

namespace Rewrite

open Stretch

variable {j : Job} {text : String} {p q : Nat}

/-! ## Tokens that begin with a cast -/

/-- Do the tokens begin with a pair of parentheses that an operand follows directly? -/
def BeginsCast (xs : List Mark) : Prop :=
  ∃ x inner y z rest, xs = x :: (inner ++ y :: z :: rest) ∧ x.kind = .leftParen ∧ y.kind = .rightParen
    ∧ Balanced inner ∧ z.kind.beginsOperand = true

/-- Only the kinds of the tokens count. -/
theorem beginsCast_of_kinds {xs : List Mark} {inner rest : List Kind} {k : Kind}
    (h : xs.map (·.kind) = .leftParen :: (inner ++ .rightParen :: k :: rest))
    (hinner : WellNested (inner.filter Kind.isBracket)) (hk : k.beginsOperand = true) : BeginsCast xs := by
  obtain ⟨x, xs, rfl, hx, hxs⟩ := List.map_eq_cons_iff.1 h
  obtain ⟨ys, xs, rfl, rfl, hbehind⟩ := List.map_eq_append_iff.1 hxs
  obtain ⟨y, xs, rfl, hy, hrest⟩ := List.map_eq_cons_iff.1 hbehind
  obtain ⟨z, zs, rfl, rfl, -⟩ := List.map_eq_cons_iff.1 hrest
  exact ⟨x, ys, y, z, zs, rfl, hx, hy, hinner, hk⟩

/-- Does the kind of the first one of the tokens have the property, if there are any? -/
def Opens (Q : Kind → Prop) (xs : List Mark) : Prop :=
  ∀ x ∈ xs.head?, Q x.kind

/-- No tokens, or tokens that begin with another one than an opening parenthesis, or with a pair of
parentheses that no operand follows. -/
inductive Fronted : List Mark → Prop where
  | nil : Fronted []
  | word {x : Mark} {xs : List Mark} (hx : x.kind ≠ .leftParen) : Fronted (x :: xs)
  | parens {x y : Mark} {inner xs : List Mark} (hx : x.kind = .leftParen) (hy : y.kind = .rightParen)
    (hinner : Balanced inner) (hxs : Opens (fun k => k.beginsOperand = false) xs) :
    Fronted (x :: (inner ++ y :: xs))

variable {Q : Kind → Prop} {xs ys inner inner' : List Mark} {x y y' : Mark} {d : Delimiter}

theorem Balanced.not_closing (hinner : Balanced inner) (hx : x.kind = d.closing) :
    ¬Balanced (inner ++ x :: xs) := by
  intro h
  rw [Balanced, List.map_append, List.filter_append] at h
  have hrest := hinner.of_append h
  rw [List.map_cons, hx, List.filter_cons_of_pos d.isBracket_closing] at hrest
  exact WellNested.not_closing hrest

/-- The bracket that closes well-nested tokens is the only one that does. -/
theorem Balanced.eq_of_closing {e : Delimiter} (hinner : Balanced inner) (hinner' : Balanced inner')
    (hy : y.kind = d.closing) (hy' : y'.kind = e.closing)
    (h : inner ++ y :: xs = inner' ++ y' :: ys) : inner = inner' ∧ y :: xs = y' :: ys := by
  obtain ⟨more, hmore, htail⟩ | ⟨more, hmore, htail⟩ := List.append_eq_append_iff.1 h
  · cases more with
    | nil => exact ⟨by simpa using hmore.symm, htail⟩
    | cons z more =>
      obtain ⟨rfl, -⟩ := List.cons.inj htail
      exact absurd (hmore ▸ hinner') (hinner.not_closing hy)
  · cases more with
    | nil => exact ⟨by simpa using hmore, htail.symm⟩
    | cons z more =>
      obtain ⟨rfl, -⟩ := List.cons.inj htail
      exact absurd (hmore ▸ hinner) (hinner'.not_closing hy')

namespace Fronted

theorem not_beginsCast (h : Fronted xs) : ¬BeginsCast xs := by
  rintro ⟨x', inner', y', z, rest, heq, hx', hy', hinner', hz⟩
  cases h with
  | nil => contradiction
  | word hx =>
    obtain ⟨rfl, -⟩ := List.cons.inj heq
    exact hx hx'
  | parens _ hy hinner hxs =>
    obtain ⟨-, heq⟩ := List.cons.inj heq
    obtain ⟨-, heq⟩ := hinner.eq_of_closing (d := .paren) (e := .paren) hinner' hy hy' heq
    obtain ⟨-, rfl⟩ := List.cons.inj heq
    have hfalse : z.kind.beginsOperand = false := hxs z rfl
    rw [hz] at hfalse
    contradiction

theorem append (h : Fronted xs) (hys : Opens (fun k => k.beginsOperand = false) ys) :
    Fronted (xs ++ ys) := by
  cases h with
  | nil =>
    cases ys with
    | nil => exact .nil
    | cons y ys =>
      refine .word fun hy => ?_
      have hfalse : y.kind.beginsOperand = false := hys y rfl
      rw [hy] at hfalse
      contradiction
  | word hx => exact .word hx
  | @parens x y inner xs hx hy hinner hxs =>
    have hopens : Opens (fun k => k.beginsOperand = false) (xs ++ ys) := by
      cases xs with
      | nil => exact hys
      | cons z xs => exact hxs
    rw [List.cons_append, List.append_assoc, List.cons_append]
    exact .parens hx hy hinner hopens

/-- So do replacements, if the arguments that stand as they are begin with no cast. -/
theorem of_formed {stands : List Mark → Prop} (hstands : ∀ xs, stands xs → Fronted xs)
    (h : Formed stands xs) : Fronted xs := by
  induction h with
  | bare h => exact hstands _ h
  | parens h =>
    rw [List.append_assoc]
    exact .parens rfl rfl h (by simp [Opens])
  | word hbracket _ _ => exact .word fun hx => by simp [hx, Kind.isBracket, Kind.isOpenDelimiter] at hbracket
  | member _ _ ih => exact ih.append (by rintro _ ⟨⟩; rfl)

end Fronted

/-! ## Elements and their first tokens -/

/-- Do the tokens begin with one of such a kind? -/
def Leads (Q : Kind → Prop) (xs : List Mark) : Prop :=
  xs ≠ [] ∧ Opens Q xs

theorem Leads.single {x : Mark} (h : Q x.kind) : Leads Q [x] :=
  ⟨List.cons_ne_nil x [], by rintro _ ⟨⟩; exact h⟩

theorem Leads.append (h : Leads Q xs) : Leads Q (xs ++ ys) := by
  obtain ⟨x, xs, rfl⟩ := List.exists_cons_of_ne_nil h.1
  exact ⟨List.cons_ne_nil x _, h.2⟩

theorem Opens.append_leads (hx : Opens Q xs) (hy : Leads Q ys) : Leads Q (xs ++ ys) := by
  cases xs with
  | nil => exact hy
  | cons x xs => exact ⟨List.cons_ne_nil x _, hx⟩

/-- With the patches of the outline put in, does each such stretch begin with a token of such a kind? -/
def Heads (j : Job) (Q : Kind → Prop) (a : Stretch) (os : List Outline) : Prop :=
  Keeps j (Leads Q) a (Outline.patchesAll j os)

namespace Heads

variable {a b : Stretch} {os os' : List Outline}

theorem front (hj : j.IsApt text) (ha : Heads j Q a os) (hb : Nests j b os') :
    Heads j Q (a ++ b) (os ++ os') := by
  rw [Heads, Outline.patchesAll_append]
  exact Keeps.joined hj.toIsReady (fun hx _ => hx.append) ha hb.patched

/-- Behind a stretch that may have no tokens. -/
theorem behind (hj : j.IsApt text) (ha : Keeps j (Opens Q) a (Outline.patchesAll j os))
    (hb : Heads j Q b os') : Heads j Q (a ++ b) (os ++ os') := by
  rw [Heads, Outline.patchesAll_append]
  exact Keeps.joined hj.toIsReady (fun hx hy => hx.append_leads hy) ha hb

theorem opens (h : Heads j Q a os) : Keeps j (Opens Q) a (Outline.patchesAll j os) :=
  Keeps.imp h fun h => h.2

theorem congr (h : Heads j Q a os) (ho : os = os') : Heads j Q a os' :=
  ho ▸ h

theorem word (hj : j.IsApt text) {k : Kind} (hk : Q k) : Heads j Q (word j.script k) [] :=
  Keeps.word hj.toIsReady fun _ hx => .single (hx ▸ hk)

theorem pair (hj : j.IsApt text) (hQ : Q d.opening) (ha : Nests j a os) :
    Heads j Q (Stretch.word j.script d.opening ++ a ++ Stretch.word j.script d.closing) os := by
  have hclosing : Keeps j (fun _ => True) (Stretch.word j.script d.closing) [] :=
    Keeps.word hj.toIsReady fun _ _ => trivial
  have h := Keeps.joined hj.toIsReady (fun hx _ => hx.append) ((word hj hQ).front hj ha) hclosing
  rwa [List.append_nil] at h

theorem name (hj : j.IsApt text) (hQ : ∀ k, k = .identifier ∨ k.isPrimitiveType = true → Q k) (i : Ident) :
    Heads j Q (nameOf j.script i) [.name i] := by
  rw [Heads, Outline.patchesAll, Outline.patches, Outline.patchesAll, List.append_nil]
  exact .nameOf hj.toIsReady (fun x hx => .single (hQ _ hx)) isWordText_ident

theorem part (hj : j.IsApt text) (hQ : ∀ k, k = .identifier ∨ k.isPrimitiveType = true → Q k) (i : Ident)
    (args : List TypeArg) : Heads j Q (nameOf j.script i) [.part i args] := by
  rw [Heads, Outline.patchesAll, Outline.patches, Outline.patchesAll, List.append_nil]
  exact .nameOf hj.toIsReady (fun x hx => .single (hQ _ hx)) (isWordText_segment args)

end Heads

theorem Keeps.opens_empty : Keeps j (Opens Q) .empty (Outline.patchesAll j []) := by
  rintro p q h -
  obtain rfl := empty_iff.1 h
  exact ⟨[], .nil, by simp [Opens]⟩

/-- Can the element begin with a token of the kind as it is written in the end? Calls and lists of type
arguments are left out here. -/
def Job.CanLead (j : Job) : Elem → Kind → Prop
  | .token n, k => k = (j.source.codeToken n).kind
  | .ident _, k => k = .identifier ∨ k.isPrimitiveType = true
  | .type _, k => k = .at ∨ k = .identifier ∨ k.isPrimitiveType = true
  | .group g, k => k = g.delimiter.opening
  | .anonymous _, k => k = .leftBrace
  | .localType _, k => k = .at ∨ k.isModifier = true ∨ k = .kwClass ∨ k = .kwInterface ∨ k = .kwEnum
  | .typeArgs _, _ => True
  | .intrinsic _, _ => True

section

variable (hj : j.IsApt text)
include hj

theorem AnnotationUse.heads (hQ : Q .at) (a : Stencil.AnnotationUse) :
    Heads j Q (a.reads j.script) (AnnotationUse.outline a) := by
  obtain ⟨name, args, extent⟩ := a
  exact Keeps.within (((Heads.word hj hQ).front hj (QualifiedName.nests hj name)).front hj
    (Group.nestsOr hj .empty args))

theorem AnnotationUse.opensAll (hQ : Q .at) (as : List Stencil.AnnotationUse) :
    Keeps j (Opens Q) (AnnotationUse.readsAll j.script as)
      (Outline.patchesAll j (AnnotationUse.outlines as)) := by
  cases as with
  | nil => exact .opens_empty
  | cons a rest => exact ((AnnotationUse.heads hj hQ a).front hj (AnnotationUse.nestsAll hj rest)).opens

theorem TypeCore.heads (hQ : ∀ k, k = .identifier ∨ k.isPrimitiveType = true → Q k) :
    ∀ c : Stencil.TypeCore, Heads j Q (c.reads j.script) (TypeCore.outline c)
  | .primitive k => by
    rintro p q ⟨hk, h⟩ hq
    exact Heads.word hj (hQ k (.inr hk)) h hq
  | .named [] => by
    rintro p q ⟨hne, -⟩ -
    contradiction
  | .named (⟨i, none⟩ :: rest) => by
    have hname := (Heads.behind hj .opens_empty (.part hj hQ i [])).front hj .empty
    exact Keeps.given (hname.front hj (TypeSegment.nestsBehind hj (.word hj rfl) rest))
  | .named (⟨i, some args⟩ :: rest) => by
    have hname := (Heads.behind hj .opens_empty (.part hj hQ i args.entries)).front hj
      (TypeArgs.nests hj (some i.name) args)
    exact Keeps.given (hname.front hj (TypeSegment.nestsBehind hj (.word hj rfl) rest))

theorem TypeExpr.heads (hat : Q .at) (hQ : ∀ k, k = .identifier ∨ k.isPrimitiveType = true → Q k)
    (t : Stencil.TypeExpr) : Heads j Q (t.reads j.script) (TypeExpr.outline t) := by
  obtain ⟨annotations, core, dims, extent⟩ := t
  have h := (Heads.behind hj (AnnotationUse.opensAll hj hat annotations) (TypeCore.heads hj hQ core)).front
    hj (.dims hj dims)
  exact Keeps.within (h.congr (List.append_nil _))

theorem Modifiers.opens (hat : Q .at) (hQ : ∀ k, k.isModifier = true → Q k) (ms : Stencil.Modifiers) :
    Keeps j (Opens Q) (ms.reads j.script) (Outline.patchesAll j (Modifiers.outline ms)) := by
  obtain ⟨flags, annotations⟩ := ms
  have hwords {ks : List Kind} (hks : ∀ k ∈ ks, k.isModifier = true) :
      Keeps j (Opens Q) (words j.script ks) (Outline.patchesAll j []) := by
    cases ks with
    | nil => exact .opens_empty
    | cons k ks =>
      rw [List.forall_mem_cons] at hks
      exact ((Heads.word hj (hQ k hks.1)).front hj
        (.words hj fun k hk => isBracket_of_isModifier (hks.2 k hk))).opens
  rintro p q ⟨hflags, h⟩ hq
  cases annotations with
  | nil => exact hwords hflags h hq
  | cons a rest =>
    obtain ⟨n, h⟩ := h
    have htaken : Keeps j (Opens Q) (words j.script (flags.take n)) (Outline.patchesAll j []) :=
      hwords fun k hk => hflags k (List.mem_of_mem_take hk)
    have hfront := Heads.behind hj htaken (AnnotationUse.heads hj hat a)
    exact (hfront.front hj (AnnotationUse.nestsAmong hj rest (flags.drop n)
      fun k hk => hflags k (List.mem_of_mem_drop hk))).opens h hq

theorem TypeDecl.heads (hat : Q .at) (hmodifier : ∀ k, k.isModifier = true → Q k) (hclass : Q .kwClass)
    (hinterface : Q .kwInterface) (henum : Q .kwEnum) (d : Stencil.TypeDecl) :
    Heads j Q (d.reads j.script) (TypeDecl.outline d) := by
  obtain ⟨modifiers, kind, i, typeParams, supertypes, interfaces, body, extent⟩ := d
  have hwords : Heads j Q (words j.script kind.words) [] := by
    cases kind with
    | ofClass => exact (Heads.word hj hclass).front hj .empty
    | ofInterface => exact (Heads.word hj hinterface).front hj .empty
    | ofEnum => exact (Heads.word hj henum).front hj .empty
    | ofAnnotationType => exact (Heads.word hj hat).front hj (.words hj (by decide))
  have hhead := ((Heads.behind hj (Modifiers.opens hj hat hmodifier modifiers) hwords).front hj
    (.name hj i)).front hj (TypeParams.nests? hj typeParams)
  have htypes := (hhead.front hj
    (TypeExpr.nestsBehind hj (.word hj (k := .kwExtends) rfl) (k := .comma) rfl supertypes)).front hj
      (TypeExpr.nestsBehind hj (.word hj (k := .kwImplements) rfl) (k := .comma) rfl interfaces)
  have h := htypes.front hj (ClassBody.nests hj body)
  exact Keeps.within (h.congr (by simp [TypeDecl.outline]))

/-- What an element can begin with. -/
theorem Elem.heads (e : Stencil.Elem) (hcall : ∀ c, e ≠ .intrinsic c) (hargs : ∀ a, e ≠ .typeArgs a)
    (hQ : ∀ k, j.CanLead e k → Q k) : Heads j Q (e.reads j.script) (Elem.outline e) := by
  cases e with
  | token n =>
    rintro p q ⟨⟨hplain, rfl⟩, hextent⟩ hq
    obtain rfl : n = p := congrArg Extent.first hextent
    exact ⟨_, .token hj.toIsReady hq, .single (hQ _ rfl)⟩
  | ident i => exact .name hj hQ i
  | type t => exact TypeExpr.heads hj (hQ _ (.inl rfl)) (fun k hk => hQ k (.inr hk)) t
  | typeArgs a => exact absurd rfl (hargs a)
  | group g =>
    obtain ⟨d, elems, extent⟩ := g
    exact Keeps.within (Heads.pair hj (hQ d.opening rfl) (Elem.nestsAll hj elems))
  | intrinsic c => exact absurd rfl (hcall c)
  | anonymous body =>
    obtain ⟨constants, members, extent⟩ := body
    have hinner := (EnumConstant.nestsBehind hj .empty constants).append hj (Member.nestsAll hj members)
    refine Keeps.within ((Heads.pair hj (d := .brace) (hQ .leftBrace rfl) hinner).mono ?_)
    rintro p q ⟨m, ⟨m', ⟨n, hopening, hconstants⟩, hmembers⟩, hclosing⟩
    exact ⟨m, ⟨n, hopening, m', hconstants, hmembers⟩, hclosing⟩
  | localType d =>
    exact TypeDecl.heads hj (hQ _ (.inl rfl)) (fun k hk => hQ k (.inr (.inl hk)))
      (hQ _ (.inr (.inr (.inl rfl)))) (hQ _ (.inr (.inr (.inr (.inl rfl)))))
      (hQ _ (.inr (.inr (.inr (.inr rfl))))) d

end

/-! ## Calls at the beginning -/

/-- Can an operand begin with the element? -/
def Job.beginsOperand (j : Job) : Elem → Bool
  | .token n => (j.source.codeToken n).kind.beginsOperand
  | .ident _ | .type _ | .intrinsic _ => true
  | .group g => g.delimiter == .paren
  | .typeArgs _ | .anonymous _ | .localType _ => false

mutual

/-- If the expression begins with a call, is no operand directly behind the call, and is it so with the
arguments of the call as well? -/
def Expr.opensApart (j : Job) : Stencil.Expr → Bool
  | ⟨elems, _⟩ => Elem.openApart j elems

/-- The same of each of the expressions. -/
def Expr.allOpenApart (j : Job) : List Stencil.Expr → Bool
  | [] => true
  | e :: rest => Expr.opensApart j e && Expr.allOpenApart j rest

/-- The same of elements. -/
def Elem.openApart (j : Job) : List Elem → Bool
  | [] => true
  | .intrinsic c :: rest => IntrinsicCall.opensApart j c && !rest.head?.any j.beginsOperand
  | _ :: _ => true

/-- The same of the arguments of a call. -/
def IntrinsicCall.opensApart (j : Job) : Stencil.IntrinsicCall → Bool
  | ⟨_, _, _, args, _⟩ => Expr.allOpenApart j args

end

/-- An argument of a call as it is written in the end. -/
def Job.chunkedOperand (j : Job) (e : Stencil.Expr) : ChunkedOperand :=
  ⟨j.rendered e.extent (Outline.patchesAll j (Expr.outline e)), j.isAtomic e.elems⟩

theorem chunkedOperands_entries (es : List Stencil.Expr) :
    Outline.chunkedOperands j (Expr.entries es) = es.map j.chunkedOperand := by
  induction es with
  | nil => rfl
  | cons e es ih => rw [Expr.entries, Outline.chunkedOperands, ih, List.map_cons, Job.chunkedOperand]

theorem Expr.exists_reads_of_mem {s : Script} {lead : Stretch} {es : List Stencil.Expr}
    (h : Expr.readsBehind s lead es p q) {e : Stencil.Expr} (he : e ∈ es) : ∃ a b, e.reads s a b ∧ b ≤ q := by
  induction es generalizing lead p with
  | nil => contradiction
  | cons e' rest ih =>
    obtain ⟨m, ⟨m', -, hfirst⟩, hrest⟩ := h
    obtain rfl | he := List.mem_cons.1 he
    · exact ⟨m', m, hfirst, (Expr.readsBehind _ _ rest).le hrest⟩
    · exact ih hrest he

/-- Where all arguments of a call are accepted, there is no error in any of them. -/
theorem firstError?_of_operands {os : List Operand} : ∀ {es : List Stencil.Expr},
    Outline.operands j (Expr.entries es) = .ok os →
    ∀ e ∈ es, firstError? (Outline.stepsAll j (Expr.outline e)) = none := by
  intro es h
  induction es generalizing os with
  | nil => simp
  | cons e es ih =>
    rw [Expr.entries, Outline.operands] at h
    obtain ⟨text, rest, htext, hrest, -⟩ := ok_of_bind h
    refine List.forall_mem_cons.2 ⟨?_, ih hrest⟩
    simp only [Job.render] at htext
    split at htext
    · contradiction
    · assumption

theorem beginsOperand_of_isModifier {k : Kind} (h : k.isModifier = true) : k.beginsOperand = false := by
  revert h
  cases k <;> decide

theorem ne_group_of_isAtomic {es : List Elem} (h : j.isAtomic es = true) (g : Stencil.Group)
    (rest : List Elem) : es ≠ .group g :: rest := by
  rintro rfl
  simp [Job.isAtomic] at h

/-- What is behind a call does not begin with an operand. -/
theorem Elem.opens_behind (hj : j.IsApt text) {rest : List Stencil.Elem}
    (horderly : Elem.areOrderly false rest = true) (hnext : rest.head?.any j.beginsOperand = false) :
    Keeps j (Opens fun k => k.beginsOperand = false) (Elem.readsAll j.script rest)
      (Outline.patchesAll j (Elem.outlines rest)) := by
  cases rest with
  | nil => exact .opens_empty
  | cons e rest =>
    have hlead : ∀ k, j.CanLead e k → k.beginsOperand = false := by
      intro k hk
      cases e with
      | token n =>
        obtain rfl := hk
        exact hnext
      | group g =>
        obtain ⟨d, elems, extent⟩ := g
        obtain rfl := hk
        cases d with
        | paren => contradiction
        | bracket => rfl
        | brace => rfl
      | anonymous body =>
        obtain rfl := hk
        rfl
      | localType d =>
        obtain rfl | hmodifier | rfl | rfl | rfl := hk
        · rfl
        · exact beginsOperand_of_isModifier hmodifier
        · rfl
        · rfl
        · rfl
      | typeArgs a => contradiction
      | _ => contradiction
    exact ((Elem.heads hj e (by rintro c rfl; contradiction) (by rintro a rfl; contradiction) hlead).front hj
      (Elem.nestsAll hj rest)).opens

/-- An argument that begins with a name, a type or a token begins with no parenthesis. -/
theorem Elem.fronted_of_heads (hj : j.IsApt text) {e : Stencil.Elem} {rest : List Stencil.Elem}
    (hcall : ∀ c, e ≠ .intrinsic c) (hargs : ∀ a, e ≠ .typeArgs a) (hatomic : j.isAtomic (e :: rest) = true)
    (h : Elem.readsAll j.script (e :: rest) p q) (hq : q ≤ j.source.code.size) :
    ∃ xs, Renders j p q (Outline.patchesAll j (Elem.outlines (e :: rest))) xs ∧ Fronted xs := by
  have hlead : ∀ k, j.CanLead e k → k ≠ .leftParen := by
    rintro _ hk rfl
    cases e with
    | token n =>
      have hquiet := isQuiet_of_isAtomic hatomic _ List.mem_cons_self
      rw [Job.isQuiet, ← show Kind.leftParen = _ from hk] at hquiet
      contradiction
    | ident i => obtain hk | hk := hk <;> contradiction
    | type t => obtain hk | hk | hk := hk <;> contradiction
    | group g => exact ne_group_of_isAtomic hatomic g rest rfl
    | anonymous body => contradiction
    | localType d => simp [Job.CanLead, Kind.isModifier] at hk
    | typeArgs a => exact hargs a rfl
    | intrinsic c => exact hcall c rfl
  obtain ⟨xs, hxs, hne, hopens⟩ := ((Elem.heads hj e hcall hargs hlead).front hj (Elem.nestsAll hj rest)) h hq
  obtain ⟨x, xs, rfl⟩ := List.exists_cons_of_ne_nil hne
  exact ⟨_, hxs, .word (hopens x rfl)⟩

mutual

theorem Expr.fronted (hj : j.IsApt text) : ∀ {e : Stencil.Expr} {p q : Nat}, e.reads j.script p q →
    q ≤ j.source.code.size → firstError? (Outline.stepsAll j (Expr.outline e)) = none →
    j.isAtomic e.elems = true → Expr.opensApart j e = true → Fronted (j.marks (j.chunkedOperand e).chunks)
  | ⟨elems, extent⟩, p, q, ⟨⟨horderly, h⟩, hextent⟩, hq, hok, hatomic, hapart => by
    obtain ⟨xs, hxs, hfronted⟩ := Elem.fronted hj h hq horderly hok hatomic hapart
    obtain rfl := hextent
    rwa [Job.chunkedOperand, Expr.outline, hxs.marks_rendered hj.toIsReady hq]

theorem Expr.allFronted (hj : j.IsApt text) {lead : Stretch} : ∀ {es : List Stencil.Expr} {p q : Nat},
    Expr.readsBehind j.script lead es p q → q ≤ j.source.code.size →
    (∀ e ∈ es, firstError? (Outline.stepsAll j (Expr.outline e)) = none) → Expr.allOpenApart j es = true →
    ∀ e ∈ es, j.isAtomic e.elems = true → Fronted (j.marks (j.chunkedOperand e).chunks)
  | [], _, _, _, _, _, _ => by simp
  | e :: rest, p, q, ⟨m, ⟨m', _, he⟩, hrest⟩, hq, hok, hapart => by
    have hm := Nat.le_trans ((Expr.readsBehind _ _ rest).le hrest) hq
    rw [List.forall_mem_cons] at hok
    rw [Expr.allOpenApart, Bool.and_eq_true] at hapart
    exact List.forall_mem_cons.2 ⟨fun hatomic => Expr.fronted hj he hm hok.1 hatomic hapart.1,
      Expr.allFronted hj hrest hq hok.2 hapart.2⟩

theorem Elem.fronted (hj : j.IsApt text) : ∀ {es : List Stencil.Elem} {p q : Nat},
    Elem.readsAll j.script es p q → q ≤ j.source.code.size → Elem.areOrderly false es = true →
    firstError? (Outline.stepsAll j (Elem.outlines es)) = none → j.isAtomic es = true →
    Elem.openApart j es = true →
    ∃ xs, Renders j p q (Outline.patchesAll j (Elem.outlines es)) xs ∧ Fronted xs
  | [], _, _, h, _, _, _, _, _ => by
    obtain rfl := empty_iff.1 h
    exact ⟨[], .nil, .nil⟩
  | .intrinsic ⟨rec, hint, i, args, extent⟩ :: rest, p, q, ⟨m, hc, hrest⟩, hq, horderly, hok, hatomic,
      hapart => by
    rw [Elem.openApart, Bool.and_eq_true, Bool.not_eq_true'] at hapart
    rw [Elem.outlines, Elem.outline, List.singleton_append] at hok ⊢
    rw [Outline.stepsAll, firstError?_append, Option.or_eq_none_iff] at hok
    have hm := Nat.le_trans ((Elem.readsAll _ rest).le hrest) hq
    have hcall := IntrinsicCall.fronted hj hc hm hok.1 hapart.1
    have horderly : Elem.areOrderly false rest = true := horderly
    obtain ⟨ys, hys, hopens⟩ := Elem.opens_behind hj horderly hapart.2 hrest hq
    have hlt := IntrinsicCall.strict_reads _ hc
    obtain ⟨-, rfl⟩ := hc
    rw [Outline.patchesAll, Outline.patches]
    exact ⟨_, .append hj.toIsReady (.patch_range hj.toIsReady hlt hm _) hys, hcall.append hopens⟩
  | .token n :: rest, _, _, h, hq, _, _, hatomic, _ =>
    Elem.fronted_of_heads hj (by simp) (by simp) hatomic h hq
  | .ident i :: rest, _, _, h, hq, _, _, hatomic, _ =>
    Elem.fronted_of_heads hj (by simp) (by simp) hatomic h hq
  | .type t :: rest, _, _, h, hq, _, _, hatomic, _ =>
    Elem.fronted_of_heads hj (by simp) (by simp) hatomic h hq
  | .typeArgs a :: rest, _, _, _, _, horderly, _, _, _ => by contradiction
  | .group g :: rest, _, _, h, hq, _, _, hatomic, _ =>
    Elem.fronted_of_heads hj (by simp) (by simp) hatomic h hq
  | .anonymous body :: rest, _, _, h, hq, _, _, hatomic, _ =>
    Elem.fronted_of_heads hj (by simp) (by simp) hatomic h hq
  | .localType d :: rest, _, _, h, hq, _, _, hatomic, _ =>
    Elem.fronted_of_heads hj (by simp) (by simp) hatomic h hq

theorem IntrinsicCall.fronted (hj : j.IsApt text) : ∀ {c : Stencil.IntrinsicCall} {p q : Nat},
    c.reads j.script p q → q ≤ j.source.code.size →
    firstError? ((Outline.call c (Expr.entries c.args)).steps j) = none →
    IntrinsicCall.opensApart j c = true →
    Fronted (j.marks (j.callChunks c (Outline.chunkedOperands j (Expr.entries c.args))))
  | ⟨rec, hint, i, args, extent⟩, p, q, h, hq, hok, hapart => by
    obtain ⟨-, -, a, b, -, -, hargs, hb⟩ := IntrinsicCall.exists_of_reads h
    obtain ⟨target, os, o, pattern, htarget, hoperands, ho, hpattern, -⟩ := exists_of_call hok
    have hfronted := Expr.allFronted hj hargs (by omega) (firstError?_of_operands hoperands) hapart
    have hbare : ∀ xs, Bare j (args.map j.chunkedOperand) xs → Fronted xs := by
      rintro _ ⟨a, ha, hatomic, rfl⟩
      obtain ⟨e, he, rfl⟩ := List.mem_map.1 ha
      exact hfronted e he hatomic
    obtain rfl := Outline.operands_eq hj.indexed (by omega)
      (Expr.row_of_readsBehind nameless_of_empty hargs) hoperands
    rw [chunkedOperands_entries, List.length_map] at hpattern
    have hbalanced := Expr.balanced_operands hj args hargs (by omega)
    rw [chunkedOperands_entries] at hbalanced ⊢
    rw [callChunks_eq htarget ho hpattern]
    exact .of_formed hbare (formed_pattern hbalanced hj.mixer
      (IntrinsicCall.balanced_variable hj h hq htarget) hpattern)

end

/-- An accepted argument that needs no parentheses begins with no cast, unless a call at its beginning is
directly followed by an operand. -/
theorem IntrinsicCall.not_beginsCast (hj : j.IsApt text) {c : Stencil.IntrinsicCall} {os : List Operand}
    (h : c.reads j.script p q) (hq : q ≤ j.source.code.size)
    (hok : Outline.operands j (Expr.entries c.args) = .ok os) {e : Stencil.Expr} (he : e ∈ c.args)
    (hatomic : j.isAtomic e.elems = true) (hapart : Expr.opensApart j e = true) :
    ¬BeginsCast (j.marks (j.chunkedOperand e).chunks) := by
  obtain ⟨-, -, a, b, -, -, hargs, hb⟩ := IntrinsicCall.exists_of_reads h
  obtain ⟨a, b, hreads, hb⟩ := Expr.exists_reads_of_mem hargs he
  exact (Expr.fronted hj hreads (by omega) (firstError?_of_operands hok e he) hatomic hapart).not_beginsCast

end Rewrite

end Stencil
