import Stencil.Proofs.Rewrite.Laid

/-!
# Names and calls of an outline

The names and the calls of an outline in the order of the text, at every depth, and where each of them
stands: a call stands where its receiver does. All of them stand at different names of the template.

Results: the positions of what an outline names ascend (`Outline.ascends_spotsAll`), so no name
stands at the receiver of a call (`Ascends.ne_receiver`).
-/

namespace Stencil.Rewrite

/-- A name that is rewritten by itself, or a call. -/
inductive Spot where
  /-- A name, or a part of the name of a class. -/
  | name (name : Ident)
  /-- A call, which stands at its receiver. -/
  | call (call : IntrinsicCall)

/-- The position of the name or of the receiver. -/
def Spot.position : Spot → Nat
  | .name i => i.position
  | .call c => c.receiver.position

/-- The call that stands there, if it is one. -/
def Spot.call? : Spot → Option IntrinsicCall
  | .name _ => none
  | .call c => some c

mutual

/-- The names and calls of a place in the outline. -/
def Outline.spots : Outline → List Spot
  | .name i => [.name i]
  | .part i _ => [.name i]
  | .typeArgs _ entries _ => Outline.argSpots entries
  | .typeParams entries _ => Outline.paramSpots entries
  | .call c args => .call c :: Outline.operandSpots args

/-- The names and calls of an outline. -/
def Outline.spotsAll : List Outline → List Spot
  | [] => []
  | o :: rest => o.spots ++ Outline.spotsAll rest

/-- The names and calls of type arguments. -/
def Outline.argSpots : List (TypeArg × List Outline) → List Spot
  | [] => []
  | (_, inner) :: rest => Outline.spotsAll inner ++ Outline.argSpots rest

/-- The names and calls of type parameters. -/
def Outline.paramSpots : List (TypeParam × List Outline) → List Spot
  | [] => []
  | (_, inner) :: rest => Outline.spotsAll inner ++ Outline.paramSpots rest

/-- The names and calls of the arguments of a call. -/
def Outline.operandSpots : List (Expr × List Outline) → List Spot
  | [] => []
  | (_, inner) :: rest => Outline.spotsAll inner ++ Outline.operandSpots rest

end

/-- The calls of an outline at every depth. -/
def Outline.calls (os : List Outline) : List IntrinsicCall :=
  (Outline.spotsAll os).filterMap Spot.call?

/-! ## Positions of names and calls -/

/-- Do the names and calls stand at ascending positions from one position up to another, each of
them at a name? -/
structure Ascends (s : Script) (p q : Nat) (xs : List Spot) : Prop where
  pairwise : xs.Pairwise fun x y => x.position < y.position
  within : ∀ x ∈ xs, p ≤ x.position ∧ x.position < q
  kind : ∀ x ∈ xs, s.kind x.position = .identifier

namespace Ascends

variable {s : Script} {p p' m q q' : Nat} {xs ys : List Spot}

theorem nil : Ascends s p q [] :=
  ⟨.nil, by simp, by simp⟩

theorem mono (h : Ascends s p q xs) (hp : p' ≤ p) (hq : q ≤ q') : Ascends s p' q' xs := by
  refine ⟨h.pairwise, fun x hx => ?_, h.kind⟩
  have := h.within x hx
  omega

theorem append (hx : Ascends s p m xs) (hy : Ascends s m q ys) (hpm : p ≤ m) (hmq : m ≤ q) :
    Ascends s p q (xs ++ ys) := by
  refine ⟨List.pairwise_append.2 ⟨hx.pairwise, hy.pairwise, fun x hxs y hys => ?_⟩, ?_, ?_⟩
  · have := hx.within x hxs
    have := hy.within y hys
    omega
  · intro x h
    rcases List.mem_append.1 h with h | h
    · have := hx.within x h
      omega
    · have := hy.within x h
      omega
  · intro x h
    rcases List.mem_append.1 h with h | h
    · exact hx.kind x h
    · exact hy.kind x h

theorem single {x : Spot} (h : s.kind x.position = .identifier) :
    Ascends s x.position (x.position + 1) [x] :=
  ⟨by simp, by simp, by simpa using h⟩

/-- No name stands where a call stands. -/
theorem ne_receiver (h : Ascends s p q xs) {i : Ident} {c : IntrinsicCall} (hi : .name i ∈ xs)
    (hc : .call c ∈ xs) : i.position ≠ c.receiver.position := by
  intro heq
  obtain ⟨a, ha, hia⟩ := List.mem_iff_getElem.1 hi
  obtain ⟨b, hb, hcb⟩ := List.mem_iff_getElem.1 hc
  have hpairwise := List.pairwise_iff_getElem.1 h.pairwise
  rcases Nat.lt_trichotomy a b with hab | rfl | hab
  · have hlt := hpairwise a b ha hb hab
    rw [hia, hcb] at hlt
    exact Nat.ne_of_lt hlt heq
  · rw [hia] at hcb
    contradiction
  · have hlt := hpairwise b a hb ha hab
    rw [hia, hcb] at hlt
    exact Nat.ne_of_lt hlt heq.symm

end Ascends

open Stretch

variable {s : Script}

theorem ascends_of_nameOf {i : Ident} {p q : Nat} (h : nameOf s i p q) :
    Ascends s p q [.name i] := by
  obtain ⟨hk, rfl, rfl⟩ := h
  have hposition : s.kind (Spot.name ⟨(s.word p).text, p⟩).position = .identifier := hk
  exact Ascends.single hposition

mutual

theorem Outline.ascends_spots {p q : Nat} : ∀ {o : Outline}, o.laid s p q → Ascends s p q o.spots
  | .name _, h => ascends_of_nameOf h
  | .part _ _, h => ascends_of_nameOf h
  | .typeArgs _ _ _, ⟨⟨h, _⟩, _⟩ => Outline.ascends_argSpots h
  | .typeParams _ _, ⟨⟨h, _⟩, _⟩ => Outline.ascends_paramSpots h
  | .call c args, ⟨⟨_, m, ⟨m₁, ⟨m₂, ⟨m₃, hrec, hdot⟩, hhint⟩, hname⟩, h⟩, _⟩ => by
    have hle : m₃ ≤ m := by
      have := hdot.2
      have := (TypeArgs.reads? s c.hint).le hhint
      have := hname.2.2
      omega
    obtain ⟨hk, hreceiver, rfl⟩ := hrec
    have hposition : p = (Spot.call c).position := by rw [Spot.position, hreceiver]
    have hcall : Ascends s p (p + 1) [.call c] := by
      rw [hposition] at hk ⊢
      exact Ascends.single hk
    exact (hcall.mono (Nat.le_refl p) hle).append (Outline.ascends_operandSpots h) (by omega)
      ((row s _).le h)

theorem Outline.ascends_spotsAll {p q : Nat} : ∀ {os : List Outline},
    Outline.laidAll s os p q → Ascends s p q (Outline.spotsAll os)
  | [], _ => .nil
  | o :: os, ⟨m, ⟨m', hn, ho⟩, hos⟩ => by
    have hos := of_before hos
    have hlead := (Outline.ascends_spots ho).mono hn.1 (Nat.le_refl m)
    exact hlead.append (Outline.ascends_spotsAll hos) (Nat.le_trans hn.1 (o.laid s |>.le ho))
      ((Outline.laidAll s os).le hos)

theorem Outline.ascends_argSpots {p q : Nat} : ∀ {es : List (TypeArg × List Outline)},
    row s (Outline.argRow s es) p q → Ascends s p q (Outline.argSpots es)
  | [], _ => .nil
  | (_, inner) :: es, ⟨m, ⟨m', hn, h, _⟩, hes⟩ => by
    have hlead := (Outline.ascends_spotsAll h).mono hn.1 (Nat.le_refl m)
    exact hlead.append (Outline.ascends_argSpots hes)
      (Nat.le_trans hn.1 ((Outline.laidAll s inner).le h)) ((row s _).le hes)

theorem Outline.ascends_paramSpots {p q : Nat} : ∀ {es : List (TypeParam × List Outline)},
    row s (Outline.paramRow s es) p q → Ascends s p q (Outline.paramSpots es)
  | [], _ => .nil
  | (_, inner) :: es, ⟨m, ⟨m', hn, h, _⟩, hes⟩ => by
    have hlead := (Outline.ascends_spotsAll h).mono hn.1 (Nat.le_refl m)
    exact hlead.append (Outline.ascends_paramSpots hes)
      (Nat.le_trans hn.1 ((Outline.laidAll s inner).le h)) ((row s _).le hes)

theorem Outline.ascends_operandSpots {p q : Nat} : ∀ {es : List (Expr × List Outline)},
    row s (Outline.operandRow s es) p q → Ascends s p q (Outline.operandSpots es)
  | [], _ => .nil
  | (_, inner) :: es, ⟨m, ⟨m', hn, h, _⟩, hes⟩ => by
    have hlead := (Outline.ascends_spotsAll h).mono hn.1 (Nat.le_refl m)
    exact hlead.append (Outline.ascends_operandSpots hes)
      (Nat.le_trans hn.1 ((Outline.laidAll s inner).le h)) ((row s _).le hes)

end

end Stencil.Rewrite
