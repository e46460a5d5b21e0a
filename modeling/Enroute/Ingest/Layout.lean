import Enroute.Ingest.DeltaPlan
import Enroute.Ingest.Staging
import Enroute.Store.CommitPack

/-!
# The layout of a push

Before any byte is uploaded, every entry of every image is given its place: entries follow each
other from the end of the header on, an image ends with its trailer, and images follow each other in
a segment until the segment has reached its target size. The length of an entry follows from the
length of its bytes, wherever those are: in the pack of the client, staged, or already stored.
-/

namespace Enroute

inductive PlannedSource where
  /-- A header, and the body as it is in the pack of the client. -/
  | wire (header body : Bytes) (length : ℕ)
  /-- A header, and the body in a staging chunk. -/
  | staged (header : Bytes) (chunkId start len : ℕ) (length : ℕ)
  /-- A whole entry that is already stored. -/
  | indexed (segment start : ℕ)
  deriving DecidableEq, Repr

structure PlannedEntry where
  oid : ObjectId
  kind : Kind
  /-- What the entry came to be encoded against. -/
  base : Option ObjectId
  /-- Where the entry starts in the image. -/
  offset : ℕ
  /-- How long the entry is, its header included. -/
  entryLen : ℕ
  source : PlannedSource
  deriving DecidableEq, Repr

structure PlannedImage where
  commitOid : ObjectId
  /-- Where the image starts in its segment; zero exactly where a segment starts. -/
  baseOffset : ℕ
  imageLen : ℕ
  entryCount : ℕ
  entries : List PlannedEntry
  deriving DecidableEq, Repr

structure PlannedCommit where
  commitOid : ObjectId
  /-- Where the entry of the commit itself comes from. -/
  source : EntrySource
  /-- The other entries, in the order they are written. -/
  entries : List DeltaEntry
  ordered : TreesFirst entries
  distinct : (entries.map DeltaEntry.oid).Nodup
  oidFits : commitOid < 2 ^ 160
  entriesFit : ∀ entry ∈ entries, entry.InWidth

def PlannedCommit.all (commit : PlannedCommit) : List DeltaEntry :=
  ⟨commit.commitOid, .commit, none, commit.source⟩ :: commit.entries

structure Sources where
  wire : List WirePack
  chunkIndex : ObjectHashMap StagedEncodings
  prefetched : ObjectHashMap ObjectMeta

namespace Layout

def toU64 (what : String) (value : ℕ) : Except String ℕ :=
  if value < 2 ^ 64 then .ok value
  else .error (what ++ ": out of range integral type conversion attempted")

def plannedEntry (oid : ObjectId) (kind : Kind) (base : Option ObjectId) (offset length : ℕ)
    (compressedLen : ℕ) (source : Bytes → PlannedSource) : Except String PlannedEntry :=
  match encodePackEntryHeader ⟨oid, kind, base, length, compressedLen⟩ with
  | .error failure => .error s!"encode entry header for {oid}: {failure}"
  | .ok header =>
    .ok ⟨oid, kind, base, offset, header.length + compressedLen, source header⟩

/-- An entry kept from the pack of the client: a new header, the client's bytes. -/
def planWireEntry (oid : ObjectId) (kind : Kind) (base : Option ObjectId) (offset : ℕ)
    (at_ : WireRef) (wire : List WirePack) : Except String PlannedEntry :=
  match wire[at_.pack]? with
  | none => .error s!"entry for {oid} names a pack this push never took"
  | some pack => do
      let body ← pack.body at_.at_
      let entry ← pack.entry at_.at_
      let compressedLen ← toU64 "compressed len" body.length
      plannedEntry oid kind base offset entry.decompressedSize compressedLen fun header =>
        .wire header body entry.decompressedSize

/-- The staged encoding of an object against a base, or else the object whole: a delta that saved
nothing was not staged. -/
def stagedFor (chunkIndex : ObjectHashMap StagedEncodings) (oid : ObjectId)
    (base : Option ObjectId) : Option (Option ObjectId × StagedObjectLocation) :=
  (chunkIndex.lookup oid).bind fun encodings =>
    ((encodings.against base).map (base, ·)).or (encodings.whole.map (none, ·))

def planStagedEntry (oid : ObjectId) (kind : Kind) (base : Option ObjectId) (offset : ℕ)
    (location : StagedObjectLocation) : Except String PlannedEntry := do
  let length ← toU64 "object length" location.decompressedLen
  let compressedLen ← toU64 "compressed len" location.compressedLen
  plannedEntry oid kind base offset length compressedLen fun header =>
    .staged header location.chunkId location.offset location.compressedLen length

def planIndexedEntry (oid : ObjectId) (kind : Kind) (offset : ℕ)
    (prefetched : ObjectHashMap ObjectMeta) : Except String PlannedEntry :=
  match prefetched.lookup oid with
  | none => .error s!"object {oid} not found in staging or prefetched index"
  | some found =>
    match found.location with
    | none => .error s!"object {oid} has no location in index"
    | some location =>
      match location.image.base with
      | some base => .error (s!"object {oid} is stored as a delta against {base} and " ++
          "was not materialised before planning")
      | none => .ok ⟨oid, kind, none, offset, location.image.entryLen,
          .indexed location.segment.id (location.segment.baseOffset + location.image.offset)⟩

def planEntry (index : Sources) (planned : DeltaEntry) (offset : ℕ) : Except String PlannedEntry :=
  match planned.source with
  | .wire at_ => planWireEntry planned.oid planned.kind planned.base offset at_ index.wire
  | .encoded =>
    match stagedFor index.chunkIndex planned.oid planned.base with
    | some (base, location) => planStagedEntry planned.oid planned.kind base offset location
    | none => planIndexedEntry planned.oid planned.kind offset index.prefetched

def planEntries (index : Sources) : List DeltaEntry → ℕ → Except String (List PlannedEntry × ℕ)
  | [], offset => .ok ([], offset)
  | planned :: rest, offset => do
      let entry ← planEntry index planned offset
      if 2 ^ 64 ≤ offset + entry.entryLen then .error "pack offset overflow"
      else
        let (entries, final) ← planEntries index rest (offset + entry.entryLen)
        return (entry :: entries, final)

def planImage (index : Sources) (commit : PlannedCommit) (segmentSize : ℕ) :
    Except String PlannedImage := do
  let (entries, offset) ← planEntries index commit.all COMMIT_PACK_HEADER_SIZE
  if 2 ^ 32 ≤ entries.length then
    .error ("commit pack object count overflow: " ++
      "out of range integral type conversion attempted")
  else return {
    commitOid := commit.commitOid
    baseOffset := segmentSize
    imageLen := offset + trailerSuffixLen entries.length
    entryCount := entries.length
    entries }

/-- The images one after another. A segment that has reached the target is closed. -/
def planFrom (index : Sources) (target : ℕ) :
    List PlannedCommit → ℕ → Except String (List PlannedImage)
  | [], _ => .ok []
  | commit :: commits, segmentSize => do
      let image ← planImage index commit segmentSize
      let segmentSize := segmentSize + image.imageLen
      let images ← planFrom index target commits (if target ≤ segmentSize then 0 else segmentSize)
      return image :: images

end Layout

def planImages (perCommit : List PlannedCommit) (index : Sources) (target : ℕ) :
    Except String (List PlannedImage) :=
  Layout.planFrom index target perCommit 0

end Enroute
