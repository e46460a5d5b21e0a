import Enroute.Ingest.Pump
import Enroute.Lib.Atomic
import Enroute.Lib.Table

/-!
# Promoting a push

Promotion plans the images of the commits, writes them, and returns what is to be recorded: for
every commit where its pack is and where the blobs of the pack begin, and for every tree and blob
where the copies of it are.
-/

namespace Enroute

structure PromotedCommit where
  /-- The length of the commit's own entry. -/
  entryLen : ℕ
  /-- Where the blobs begin in the image. -/
  blobOffset : ℕ
  segment : SegmentLocation
  deriving DecidableEq, Repr

structure NewObject where
  oid : ObjectId
  kind : Kind
  /-- One location in each pack of the push that stores it; none for a tag. -/
  locations : List PackImageLocation
  /-- The entries of a tree; gitlinks are left out. -/
  children : List ObjectId
  deriving DecidableEq, Repr

structure CommitPackBuilt where
  promoted : ObjectHashMap PromotedCommit
  /-- Trees and blobs, with a location in every pack that has them. -/
  newObjects : ObjectHashMap NewObject

namespace Promotion

abbrev Bases := ObjectHashMap (ObjectHashMap (Option ObjectId))

def imageBases (image : PlannedImage) : ObjectHashMap (Option ObjectId) :=
  Table.enter PlannedEntry.oid PlannedEntry.base image.entries ∅

def basesOf (plan : List PlannedImage) : Bases :=
  Table.enter PlannedImage.commitOid imageBases plan ∅

def childrenOf (objectRefs : ObjectHashMap ObjectRefs) (entry : PackTrailerEntry) : List ObjectId :=
  match entry.kind, objectRefs.lookup entry.sha with
  | .tree, some (.tree children) => (ObjectRefs.tree children).deps
  | _, _ => []

/-- Record one entry of a pack. An object that is in two packs gains a second location. -/
def recordEntry (objectRefs : ObjectHashMap ObjectRefs) (packSha : ObjectId)
    (bases : Option (ObjectHashMap (Option ObjectId))) (newObjects : ObjectHashMap NewObject)
    (entry : PackTrailerEntry) : ObjectHashMap NewObject :=
  let known : NewObject := (newObjects.lookup entry.sha).getD
    ⟨entry.sha, entry.kind, [], childrenOf objectRefs entry⟩
  let location : PackImageLocation :=
    ⟨packSha, entry.offset, entry.entryLen, (bases.bind (·.lookup entry.sha)).join⟩
  newObjects.insert entry.sha { known with locations := known.locations ++ [location] }

def recordObjectEntriesAbsolute (objectRefs : ObjectHashMap ObjectRefs) (packSha : ObjectId)
    (bases : Option (ObjectHashMap (Option ObjectId))) (newObjects : ObjectHashMap NewObject)
    (entries : List PackTrailerEntry) : ObjectHashMap NewObject :=
  entries.foldl (recordEntry objectRefs packSha bases) newObjects

def recordImage (objectRefs : ObjectHashMap ObjectRefs) (bases : Bases) (built : CommitPackBuilt)
    (image : ObjectId × List PackTrailerEntry × SegmentLocation) : Except String CommitPackBuilt :=
  match image.2.1 with
  | [] => .error s!"commit pack {image.1} has no entries"
  | commitEntry :: entries => .ok {
      promoted := built.promoted.insert image.1
        ⟨commitEntry.entryLen, blobSectionOffset (commitEntry :: entries), image.2.2⟩
      newObjects := recordObjectEntriesAbsolute objectRefs image.1 (bases.lookup image.1)
        built.newObjects entries }

def recordImages (objectRefs : ObjectHashMap ObjectRefs) (bases : Bases) (images : PromotedImages) :
    Except String CommitPackBuilt :=
  images.foldlM (recordImage objectRefs bases) ⟨∅, ∅⟩

end Promotion

open Promotion in
def buildCommitPacks (perCommit : List PlannedCommit) (index : Sources) (target : ℕ)
    (io : SegmentIo) (ids : ℕ → ℕ) (objectRefs : ObjectHashMap ObjectRefs) :
    Except String (List (ℕ × Bytes) × CommitPackBuilt) := do
  let plan ← planImages perCommit index target
  let (objects, images) ← pumpImages io ids plan
  let built ← recordImages objectRefs (basesOf plan) images
  return (objects, built)

end Enroute
