import Mathlib.Tactic
import Mathlib.Data.List.AList

/-!
# Objects and what they refer to

Object ids are content hashes. Only two things about them ever matter, that they can be
compared and that one of them is the null id, so they are modelled by natural numbers with
zero for null. A hash map keyed by ids is an `AList`: its keys are distinct by construction
and the order of its entries stands for whatever order the map is iterated in.
-/

namespace Enroute

abbrev Bytes := List UInt8

abbrev ObjectId := ℕ

def ObjectId.null : ObjectId := 0

abbrev ObjectHashMap (V : Type) := AList fun _ : ObjectId => V

inductive Kind where
  | commit
  | tree
  | blob
  | tag
  deriving DecidableEq, Repr

structure TreeChild where
  /-- The child object. -/
  oid : ObjectId
  /-- Whether the mode marks it a subtree. -/
  isTree : Bool
  /-- Whether the mode marks it a gitlink, which is never fetched or stored. -/
  isCommit : Bool
  /-- The filename of the entry. -/
  name : Bytes
  deriving DecidableEq, Repr

inductive ObjectRefs where
  | commit (rootTree : ObjectId) (parents : List ObjectId) (committerDate : ℤ)
  | tree (children : List TreeChild)
  | tag (target : ObjectId)
  | blob
  deriving DecidableEq, Repr

namespace ObjectRefs

def deps : ObjectRefs → List ObjectId
  | .commit rootTree parents _ => rootTree :: parents
  | .tree children => (children.filter fun child => !child.isCommit).map TreeChild.oid
  | .tag target => [target]
  | .blob => []

def isCommit : ObjectRefs → Bool
  | .commit _ _ _ => true
  | _ => false

end ObjectRefs

/-- Where a pack image's bytes live: a segment, and the range within it. -/
structure SegmentLocation where
  /-- The segment object. -/
  id : ℕ
  /-- Where the image starts in the segment. -/
  baseOffset : ℕ
  /-- How long the image is. -/
  imageLen : ℕ
  deriving DecidableEq, Repr

structure PackImageLocation where
  /-- The commit whose pack contains the object. -/
  packSha : ObjectId
  /-- Where the entry starts in the image. -/
  offset : ℕ
  /-- How long the entry is. -/
  entryLen : ℕ
  /-- What the entry deltas against, or nothing when it holds the object itself. -/
  base : Option ObjectId
  deriving DecidableEq, Repr

/-- A location in an image together with the segment that holds the image. -/
structure CommitPackLocation where
  /-- Where in its pack image the object sits. -/
  image : PackImageLocation
  /-- The segment that holds the image. -/
  segment : SegmentLocation
  deriving DecidableEq, Repr

inductive ObjectSeq where
  | tree (seq : ℕ)
  | blob (seq : ℕ)
  | tag (seq : ℕ)
  deriving DecidableEq, Repr

structure ObjectMeta where
  /-- The kind of the object. -/
  kind : Kind
  /-- The earliest pack that stores it; none for a tag or for an object only numbered. -/
  location : Option CommitPackLocation
  /-- The number of the object; none for a commit. -/
  objectSeq : Option ObjectSeq
  deriving DecidableEq, Repr

/-- Whether the repository can produce the object: a tag is loose and needs no location. -/
def ObjectMeta.isStored (found : ObjectMeta) : Bool :=
  found.location.isSome || found.kind == .tag

def saturate32 (count : ℕ) : ℕ :=
  min count (2 ^ 32 - 1)

end Enroute
