import Enroute.Ingest.Layout

/-!
# Writing a planned push

The plan is cut where a segment starts, and each run of images becomes one object: for every image
its header, its entries and its trailer. The bytes of an entry are read ahead if they are few, and
copied through as they arrive if not. Nothing is measured here: where an entry ends up follows from
what was written before it.
-/

namespace Enroute

/-- What a segment task reads from: the stored segments, and the chunks this push has staged. The
bytes of a ranged read arrive in pieces. -/
structure SegmentIo where
  segments : ℕ → Option Bytes
  chunks : ℕ → Option Bytes
  arrive : Bytes → List Bytes
  whole : ∀ bytes, (arrive bytes).flatten = bytes

/-- The images that were written: the commit of each, its trailer and where it is. -/
abbrev PromotedImages := List (ObjectId × List PackTrailerEntry × SegmentLocation)

namespace Pump

def STREAM_THRESHOLD_BYTES : ℕ := 1024 * 1024

def addImage (segments : List (List PlannedImage)) (image : PlannedImage) :
    List (List PlannedImage) :=
  match segments.getLast? with
  | none => [[image]]
  | some run =>
    if image.baseOffset = 0 then segments ++ [[image]]
    else segments.dropLast ++ [run ++ [image]]

def splitSegments (plan : List PlannedImage) : List (List PlannedImage) :=
  plan.foldl addImage []

/-- A ranged read of an object: it starts inside, and ends with the object at the latest. -/
def readRange (object : Bytes) (start len : ℕ) : Except String Bytes :=
  if start < object.length then .ok ((object.drop start).take len)
  else .error "range starts past the end of the object"

def getChunkRange (io : SegmentIo) (chunkId start len : ℕ) : Except String Bytes :=
  if len = 0 then .ok []
  else
    match io.chunks chunkId with
    | none => .error "getting range of staging chunk"
    | some chunk => readRange chunk start len

def getSegmentSlice (io : SegmentIo) (segment start len : ℕ) : Except String Bytes :=
  match io.segments segment with
  | none => .error s!"segment {segment} not found"
  | some object => readRange object start len

inductive EntryPayload where
  | buffered (bytes : Bytes)
  | inline

def prefetchPayload (io : SegmentIo) (entry : PlannedEntry) : Except String EntryPayload :=
  match entry.source with
  | .wire _ body _ => .ok (.buffered body)
  | .staged _ chunkId start len _ =>
    if STREAM_THRESHOLD_BYTES ≤ len then .ok .inline
    else (getChunkRange io chunkId start len).map .buffered
  | .indexed segment start =>
    if STREAM_THRESHOLD_BYTES ≤ entry.entryLen then .ok .inline
    else (getSegmentSlice io segment start entry.entryLen).map .buffered

def checkForwardedSha (entry : PlannedEntry) (header : PackEntryHeader) : Except String Unit :=
  if header.sha = entry.oid then .ok ()
  else .error s!"forwarded entry has sha {header.sha}, expected {entry.oid}"

def forwardedHeader (entry : PlannedEntry) (bytes : Bytes) : Except String ℕ :=
  match decodePackEntryHeader bytes with
  | .error failure => .error s!"decode entry header for {entry.oid}: {failure}"
  | .ok (header, _) => (checkForwardedSha entry header).map fun _ => header.length

def tryDecodeStreamedHeader (entry : PlannedEntry) (lead chunk : Bytes) :
    Except String (Bytes × Option ℕ) :=
  let lead := lead ++ chunk.take (MAX_PACK_ENTRY_HEADER_BYTES - lead.length)
  if hasPackEntryHeader lead then (forwardedHeader entry lead).map fun length => (lead, some length)
  else .ok (lead, none)

def streamEntry (entry : PlannedEntry) :
    List Bytes → Bytes → Option ℕ → Except String (Bytes × Option ℕ)
  | [], _, decoded => .ok ([], decoded)
  | chunk :: chunks, lead, some length => do
      let (written, decoded) ← streamEntry entry chunks lead (some length)
      return (chunk ++ written, decoded)
  | chunk :: chunks, lead, none => do
      let (lead, decoded) ← tryDecodeStreamedHeader entry lead chunk
      let (written, decoded) ← streamEntry entry chunks lead decoded
      return (chunk ++ written, decoded)

def pumpEntry (io : SegmentIo) (entry : PlannedEntry) (payload : EntryPayload) :
    Except String (Bytes × ℕ) :=
  match entry.source, payload with
  | .wire header body length, _ => .ok (header ++ body, length)
  | .staged header _ _ _ length, .buffered bytes => .ok (header ++ bytes, length)
  | .staged header chunkId start len length, .inline => do
      let bytes ← getChunkRange io chunkId start len
      return (header ++ (io.arrive bytes).flatten, length)
  | .indexed _ _, .buffered bytes => do
      let length ← forwardedHeader entry bytes
      return (bytes, length)
  | .indexed segment start, .inline => do
      let bytes ← getSegmentSlice io segment start entry.entryLen
      let (written, decoded) ← streamEntry entry (io.arrive bytes) [] none
      match decoded with
      | some length => return (written, length)
      | none => .error s!"entry stream for {entry.oid} ended before its header"

/-- Write entries one after another: the bytes, and what the trailer says of them. -/
def pumpEntries (io : SegmentIo) :
    List PlannedEntry → Except String (Bytes × List PackTrailerEntry)
  | [] => .ok ([], [])
  | entry :: entries => do
      let payload ← prefetchPayload io entry
      let (bytes, length) ← pumpEntry io entry payload
      let (rest, trailer) ← pumpEntries io entries
      return (bytes ++ rest,
        ⟨entry.oid, entry.kind, length, entry.offset, entry.entryLen⟩ :: trailer)

def writeImage (io : SegmentIo) (image : PlannedImage) :
    Except String (Bytes × List PackTrailerEntry) := do
  let (bytes, trailer) ← pumpEntries io image.entries
  return (encodeCommitPackHeader image.entryCount ++ (bytes ++ encodePackTrailer trailer), trailer)

def writeObject (io : SegmentIo) (id : ℕ) :
    List PlannedImage → Except String (Bytes × PromotedImages)
  | [] => .ok ([], [])
  | image :: images => do
      let (bytes, trailer) ← writeImage io image
      let (rest, promoted) ← writeObject io id images
      return (bytes ++ rest, (image.commitOid, trailer, ⟨id, image.baseOffset, image.imageLen⟩) ::
        promoted)

def writeSegments (io : SegmentIo) (ids : ℕ → ℕ) :
    List (List PlannedImage) → ℕ → Except String (List (ℕ × Bytes) × PromotedImages)
  | [], _ => .ok ([], [])
  | images :: segments, index => do
      let (object, promoted) ← writeObject io (ids index) images
      let (objects, rest) ← writeSegments io ids segments (index + 1)
      return ((ids index, object) :: objects, promoted ++ rest)

end Pump

def pumpImages (io : SegmentIo) (ids : ℕ → ℕ) (plan : List PlannedImage) :
    Except String (List (ℕ × Bytes) × PromotedImages) :=
  Pump.writeSegments io ids (Pump.splitSegments plan) 0

end Enroute
