import Enroute.Lattice.Key
import Std.Data.TreeMap

/-!
# What compaction should merge

A plan is made from what the catalog knows of the segments, without reading a byte of them: the
segments of one tier, in key order, are cut into runs, and each run is one merge. It is advice
about cost. No step of the store relies on it being current or on its merges being disjoint.
-/

namespace Enroute.Lattice

abbrev Tier := ℕ

def Tier.next (tier : Tier) : Tier :=
  min (tier + 1) 255

inductive Residence where
  | inline
  | bucket
  deriving DecidableEq, Repr

/-- What the catalog knows about one segment without reading its bytes. -/
structure Placement where
  range : KeyRange
  tier : Tier
  bytes : ℕ
  residence : Residence
  deriving DecidableEq, Repr

structure Policy where
  /-- Segments of one tier that make one of the next. -/
  fanout : ℕ
  maxInputs : ℕ
  maxInputBytes : ℕ
  /-- The encoded size at which a segment goes to the bucket. -/
  graduationBytes : ℕ
  /-- Inlined segments a scope may hold before a merge is due whatever the fanout says. -/
  inlineCeiling : ℕ
  deriving DecidableEq, Repr

def Policy.residenceFor (policy : Policy) (bytes : ℕ) : Residence :=
  if policy.graduationBytes ≤ bytes then .bucket else .inline

/-- One merge: which segments to join, by their place in the list, and what the result covers. -/
structure Merge where
  inputs : List ℕ
  tier : Tier
  range : KeyRange
  deriving DecidableEq, Repr

def Placement.before (one other : Placement) : Bool :=
  one.range.first < other.range.first ||
    (one.range.first == other.range.first && one.range.last ≤ other.range.last)

def keyBefore (placements : List Placement) (left right : ℕ) : Bool :=
  match placements[left]?, placements[right]? with
  | none, _ => true
  | some _, none => false
  | some one, some other => one.before other

/-- The runs of key-ordered indices one merge each takes, with the run being filled and its size. -/
def runsFrom (placements : List Placement) (policy : Policy) :
    List ℕ → List ℕ → ℕ → List (List ℕ)
  | [], run, _ => if 2 ≤ run.length then [run] else []
  | index :: indices, run, bytes =>
    let size := placements[index]?.elim 0 Placement.bytes
    if max policy.maxInputs 2 ≤ run.length ∨
        2 ≤ run.length ∧ policy.maxInputBytes < saturatingAdd bytes size then
      run :: runsFrom placements policy indices [index] (saturatingAdd 0 size)
    else runsFrom placements policy indices (run ++ [index]) (saturatingAdd bytes size)

def runs (indices : List ℕ) (placements : List Placement) (policy : Policy) : List (List ℕ) :=
  runsFrom placements policy indices [] 0

def hull (run : List ℕ) (placements : List Placement) : Option KeyRange :=
  match (run.filterMap (placements[·]?)).map Placement.range with
  | [] => none
  | first :: ranges => some (ranges.foldl KeyRange.hull first)

def byTier (placements : List Placement) : Std.TreeMap Tier (List ℕ) :=
  placements.zipIdx.foldl (fun held entry =>
    held.alter entry.1.tier fun indices => some (indices.getD [] ++ [entry.2])) ∅

def tierMerges (placements : List Placement) (policy : Policy) (pressured : Bool) (tier : Tier)
    (indices : List ℕ) : List Merge :=
  let sorted := indices.insertionSort fun left right => keyBefore placements left right = true
  if policy.fanout ≤ sorted.length ∨ pressured = true ∧ 2 ≤ sorted.length then
    (runs sorted placements policy).filterMap fun run =>
      (hull run placements).map fun range => { inputs := run, tier := tier.next, range }
  else []

/-- What compaction should do, lowest tier first. Pressure is relieved by the lowest tier that
can. -/
def plan (placements : List Placement) (policy : Policy) : List Merge :=
  let inlined := (placements.filter fun placement => placement.residence = .inline).length
  ((byTier placements).toList.foldl (fun planned entry =>
    let merges := tierMerges placements policy planned.1 entry.1 entry.2
    (planned.1 && merges.isEmpty, planned.2 ++ merges))
    (decide (policy.inlineCeiling < inlined), [])).2

end Enroute.Lattice
