import Stencil.Path

/-!
# Claims on outputs

Every instantiation claims the path of its output and says what is to be done with it. The claims of
a run are settled against the outputs that exist already, before any file is touched: the first claim
on a path holds, a later one is a duplicate, and an existing output without a claim is an orphan.

Paths count as equal if they have the same components; of equal paths the first spelling is kept.

Results: settling makes one record for each claim that holds and each orphan
(`length_records_settle`), and no claim is on an orphan (`not_same_of_mem_orphansOf`).
-/

namespace Stencil

/-- What is to be done with an output. -/
inductive Action where
  /-- Write this text. -/
  | write (text : String)
  /-- Leave it: it is up to date. -/
  | keep
  /-- Leave whatever is there: the template has failed. -/
  | preserve
deriving DecidableEq, Repr

/-- A claim on an output. -/
structure Claim where
  /-- The path of the output. -/
  path : Path
  /-- Who claims it, in words. -/
  owner : String
  /-- What is to be done with it. -/
  action : Action
deriving DecidableEq, Repr

/-- A claim on an output that another one holds. -/
structure Duplicate where
  /-- The path as the later claim spells it. -/
  path : Path
  /-- The owner of the claim that holds. -/
  first : String
  /-- The owner of the later claim. -/
  second : String
deriving DecidableEq, Repr

/-- The duplicate in words. -/
def Duplicate.message (d : Duplicate) : String :=
  d.path.text ++ " is produced by both " ++ d.first ++ " and " ++ d.second

/-- What has become of an output. -/
inductive OutputState where
  /-- It exists, and nobody claims it. -/
  | unclaimed
  /-- It is claimed by an instantiation that has failed. -/
  | claimed
  /-- It is written in this run. -/
  | written
  /-- It is up to date. -/
  | kept
  /-- It was an orphan and has been deleted. -/
  | deleted
deriving DecidableEq, Repr

namespace OutputState

/-- Does somebody claim the output? Model of `claimed`. -/
def isClaimed : OutputState → Bool
  | .claimed | .written | .kept => true
  | _ => false

/-- Does an instantiation that has not failed claim the output? -/
def isGenerated : OutputState → Bool
  | .written | .kept => true
  | _ => false

end OutputState

/-- The state of an output after a claim with the given action. -/
def Action.state : Action → OutputState
  | .write _ => .written
  | .keep => .kept
  | .preserve => .claimed

/-- An output and what has become of it. -/
structure OutputRecord where
  /-- The path of the output. -/
  path : Path
  /-- What has become of it. -/
  state : OutputState
deriving DecidableEq, Repr

/-- Settled claims: what there is to do, and what becomes of each output. Model of `Reduction`. -/
structure Settlement where
  /-- One record for each output, in the order of their paths. -/
  records : List OutputRecord
  /-- The outputs to be written, with their texts, in the order of the claims. -/
  writes : List (Path × String)
  /-- The existing outputs that nobody claims, in the order of their paths. -/
  orphans : List Path
  /-- The claims that do not hold, in their order. -/
  duplicates : List Duplicate
deriving DecidableEq, Repr

/-! ## Settling claims -/

/-- The claims that hold: the first one on each path. -/
def winners (claims : List Claim) : List Claim :=
  claims.eraseDupsBy fun c d => c.path.same d.path

/-- The claims that do not hold, after claims that come before them. -/
def duplicatesAfter : List Claim → List Claim → List Duplicate
  | _, [] => []
  | before, c :: rest =>
    match before.find? fun f => f.path.same c.path with
    | some f => ⟨c.path, f.owner, c.owner⟩ :: duplicatesAfter (before ++ [c]) rest
    | none => duplicatesAfter (before ++ [c]) rest

/-- What the claim writes. -/
def Claim.write? (c : Claim) : Option (Path × String) :=
  match c.action with
  | .write text => some (c.path, text)
  | _ => none

/-- The record of a claim that holds. -/
def Claim.record (c : Claim) : OutputRecord :=
  ⟨c.path, c.action.state⟩

/-- The existing outputs that nobody claims, each once and in the order of their paths. -/
def orphansOf (existing : List Path) (claims : List Claim) : List Path :=
  ((existing.eraseDupsBy Path.same).filter fun p => !claims.any fun c => c.path.same p).mergeSort
    Path.le

/-- Settles the claims of a run against the outputs that exist already. Model of `reduce`. -/
def Settlement.settle (existing : List Path) (claims : List Claim) : Settlement :=
  let held := winners claims
  let orphans := orphansOf existing claims
  { records :=
      (held.map Claim.record ++ orphans.map (OutputRecord.mk · .unclaimed)).mergeSort
        fun r s => r.path.le s.path
    writes := held.filterMap Claim.write?
    orphans := orphans
    duplicates := duplicatesAfter [] claims }

theorem length_records_settle (existing : List Path) (claims : List Claim) :
    (Settlement.settle existing claims).records.length
      = (winners claims).length + (orphansOf existing claims).length := by
  simp [Settlement.settle]

theorem not_same_of_mem_orphansOf {existing : List Path} {claims : List Claim} {p : Path} {c : Claim}
    (hp : p ∈ orphansOf existing claims) (hc : c ∈ claims) : c.path.same p = false := by
  simp only [orphansOf, List.mem_mergeSort, List.mem_filter, Bool.not_eq_true',
    List.any_eq_false] at hp
  simpa using hp.2 c hc

namespace Settlement

/-! ## Records -/

/-- The index of the record of a path between two indices. The records are taken to be in the order of
their paths, so that one half of them can be left out at each step. -/
def recordIndex? (records : List OutputRecord) (p : Path) (start stop : Nat) : Option Nat :=
  if start < stop then
    let mid := start + (stop - start) / 2
    match records[mid]? with
    | some r =>
      match r.path.order p with
      | .lt => recordIndex? records p (mid + 1) stop
      | .eq => some mid
      | .gt => recordIndex? records p start mid
    | none => none
  else none
termination_by stop - start

/-- The record of a path. Model of `record_mut`. -/
def record? (s : Settlement) (p : Path) : Option OutputRecord :=
  (recordIndex? s.records p 0 s.records.length).bind fun i => s.records[i]?

/-- The settlement with another state for the output of a path, if there is one.
Model of `record_mut`. -/
def mark (s : Settlement) (p : Path) (state : OutputState) : Settlement :=
  { s with
    records := s.records.map fun r => if r.path.same p then { r with state := state } else r }

/-- The number of outputs in a state. -/
def count (s : Settlement) (state : OutputState) : Nat :=
  s.records.countP fun r => r.state == state

/-- The number of outputs claimed by instantiations that have not failed. Model of `generated`. -/
def generated (s : Settlement) : Nat :=
  s.records.countP fun r => r.state.isGenerated

end Settlement

end Stencil
