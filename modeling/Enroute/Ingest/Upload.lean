import Enroute.Ingest.LaidOut
import Enroute.Ingest.Recorded

/-!
# Uploads into the bucket of a repository

An upload reads entries that earlier ones stored, so what it writes is right only if what they
recorded is. The bucket therefore keeps, beside the segments, every place that was ever recorded in
it. Segments are never written again; they may be swept, and an upload that failed may leave some
that nothing names.
-/

namespace Enroute

open Layout

structure Upload where
  perCommit : List PlannedCommit
  distinct : (perCommit.map PlannedCommit.commitOid).Nodup
  wire : List WirePack
  wireFits : ∀ pack ∈ wire, ∀ entry ∈ pack.entries, entry.decompressedSize < 2 ^ 64
  /-- What the push has staged, in order. -/
  staged : List (StagedItem × Bytes)
  prefetched : ObjectHashMap ObjectMeta
  objectRefs : ObjectHashMap ObjectRefs
  target : ℕ
  /-- How bytes that are streamed arrive. -/
  arrive : Bytes → List Bytes
  whole : ∀ bytes, (arrive bytes).flatten = bytes
  /-- The ids of the segments it writes. -/
  ids : ℕ → ℕ
  idsDistinct : Function.Injective ids

/-- The segments of a repository, with the ids ever used and the places ever recorded. -/
structure Bucket where
  segments : ℕ → Option Bytes
  used : Set ℕ
  recorded : Set (ObjectId × CommitPackLocation)

inductive CommitPackBuilt.Places (built : CommitPackBuilt) :
    ObjectId → CommitPackLocation → Prop where
  | commit {commit : ObjectId} {place : PromotedCommit}
      (promoted : built.promoted.lookup commit = some place) :
      Places built commit ⟨⟨commit, COMMIT_PACK_HEADER_SIZE, place.entryLen, none⟩, place.segment⟩
  | object {oid : ObjectId} {known : NewObject} {location : PackImageLocation}
      {place : PromotedCommit} (isKnown : built.newObjects.lookup oid = some known)
      (listed : location ∈ known.locations)
      (promoted : built.promoted.lookup location.packSha = some place) :
      Places built oid ⟨location, place.segment⟩

namespace Upload

def staging (upload : Upload) : StagingBuffer :=
  (upload.staged.foldl (fun buffer item => StagingBuffer.pushCompressed buffer item.1 item.2)
    StagingBuffer.empty).flush

def sources (upload : Upload) : Sources :=
  ⟨upload.wire, upload.staging.index, upload.prefetched⟩

def io (upload : Upload) (bucket : Bucket) : SegmentIo :=
  ⟨bucket.segments, fun id => upload.staging.chunks.lookup id, upload.arrive, upload.whole⟩

def run (upload : Upload) (bucket : Bucket) :
    Except String (List (ℕ × Bytes) × CommitPackBuilt) :=
  buildCommitPacks upload.perCommit upload.sources upload.target (upload.io bucket) upload.ids
    upload.objectRefs

/-- Whether an upload starts from a bucket: its ids are new, and what it was told of objects already
stored are places that were recorded, for whatever object. -/
structure From (upload : Upload) (bucket : Bucket) : Prop where
  fresh : ∀ index, upload.ids index ∉ bucket.used
  known : ∀ oid found location, upload.prefetched.lookup oid = some found →
    found.location = some location → ∃ other, (other, location) ∈ bucket.recorded

/-- Whether what an upload was told is of the objects it was told it for, and still there. -/
def Available (upload : Upload) (bucket : Bucket) : Prop :=
  ∀ oid found location, upload.prefetched.lookup oid = some found →
    found.location = some location → (oid, location) ∈ bucket.recorded ∧
      (bucket.segments location.segment.id).isSome

end Upload

def Bucket.take (bucket : Bucket) (objects : List (ℕ × Bytes)) (built : CommitPackBuilt) :
    Bucket where
  segments id := (objects.lookup id).or (bucket.segments id)
  used := bucket.used ∪ {id | id ∈ objects.map Prod.fst}
  recorded := bucket.recorded ∪ {place | built.Places place.1 place.2}

inductive Bucket.Reached : Bucket → Prop where
  | empty : Reached ⟨fun _ => none, ∅, ∅⟩
  | upload {bucket : Bucket} {upload : Upload} {objects : List (ℕ × Bytes)}
      {built : CommitPackBuilt} (reached : Reached bucket) (from_ : upload.From bucket)
      (ran : upload.run bucket = .ok (objects, built)) : Reached (bucket.take objects built)
  | stray {bucket : Bucket} {id : ℕ} {object : Bytes} (reached : Reached bucket)
      (fresh : id ∉ bucket.used) :
      Reached ⟨Function.update bucket.segments id (some object), insert id bucket.used,
        bucket.recorded⟩
  | swept {bucket : Bucket} (keep : ℕ → Bool) (reached : Reached bucket) :
      Reached ⟨fun id => if keep id then bucket.segments id else none, bucket.used,
        bucket.recorded⟩

def spanOf (object : Bytes) (location : CommitPackLocation) : Option Bytes :=
  Fields.slice object (location.segment.baseOffset + location.image.offset) location.image.entryLen

def Decodes (bytes : Bytes) (header : PackEntryHeader) (body : Bytes) : Prop :=
  ∃ front, bytes = front ++ body ∧ decodePackEntryHeader bytes = .ok (header, front.length) ∧
    body.length = header.compressedLen

/-- Whether every recorded place spans an entry of its object, as long as the segment is there. -/
structure Bucket.Spanned (bucket : Bucket) : Prop where
  stored : ∀ id object, bucket.segments id = some object → id ∈ bucket.used
  named : ∀ oid location, (oid, location) ∈ bucket.recorded → location.segment.id ∈ bucket.used
  spans : ∀ oid location, (oid, location) ∈ bucket.recorded → ∀ object,
    bucket.segments location.segment.id = some object → ∃ bytes header body,
      spanOf object location = some bytes ∧ Decodes bytes header body ∧ header.sha = oid ∧
        header.base = location.image.base

inductive Upload.Own (upload : Upload) (bucket : Bucket) (planned : DeltaEntry) :
    PackEntryHeader → Bytes → Prop where
  /-- The client's bytes behind a new header. -/
  | wire {at_ : WireRef} {pack : WirePack} {scanned : ScannedEntry} {body : Bytes}
      (source : planned.source = .wire at_) (isPack : upload.wire[at_.pack]? = some pack)
      (isEntry : pack.entry at_.at_ = .ok scanned) (isBody : pack.body at_.at_ = .ok body) :
      Own upload bucket planned ⟨planned.oid, planned.kind, planned.base,
        scanned.decompressedSize, body.length⟩ body
  /-- What was staged for the object, against the base that was planned or whole. -/
  | staged {item : StagedItem} {body : Bytes} (source : planned.source = .encoded)
      (isStaged : (item, body) ∈ upload.staged) (isOid : item.sha = planned.oid)
      (isBase : item.base = planned.base ∨ item.base = none) :
      Own upload bucket planned ⟨planned.oid, planned.kind, item.base, item.decompressedLen,
        body.length⟩ body
  /-- An entry of the object that is already stored, header and all. -/
  | forwarded {location : CommitPackLocation} {object bytes body : Bytes} {header : PackEntryHeader}
      (source : planned.source = .encoded)
      (isRecorded : (planned.oid, location) ∈ bucket.recorded)
      (isStored : bucket.segments location.segment.id = some object)
      (isSpan : spanOf object location = some bytes) (decodes : Decodes bytes header body) :
      Own upload bucket planned header body

namespace Upload

variable {upload : Upload} {bucket : Bucket} {planned : DeltaEntry} {offset length : ℕ}
  {entry : PlannedEntry} {bytes : Bytes}

theorem sound_foldl {staged : StagingBuffer.Holding} (items : List (StagedItem × Bytes))
    {buffer : StagingBuffer} (sound : StagingBuffer.Sound staged buffer)
    (holds : ∀ item ∈ items, staged item.1 item.2) :
    StagingBuffer.Sound staged (items.foldl
      (fun buffer item => StagingBuffer.pushCompressed buffer item.1 item.2) buffer) := by
  induction items generalizing buffer with
  | nil => exact sound
  | cons item items ih =>
    rcases List.forall_mem_cons.mp holds with ⟨holdsHere, holdsLater⟩
    exact ih (sound.pushCompressed holdsHere) holdsLater

theorem sound_staging (upload : Upload) :
    StagingBuffer.Sound (fun item bytes => (item, bytes) ∈ upload.staged) upload.staging :=
  (sound_foldl upload.staged StagingBuffer.sound_empty fun _ listed => listed).flush

theorem current_flush (buffer : StagingBuffer) : buffer.flush.current = [] := by
  rw [StagingBuffer.flush]
  split_ifs with nothing
  · exact List.isEmpty_iff.mp nothing
  · rfl

theorem length_of_bytesAt {buffer : StagingBuffer} {location : StagedObjectLocation}
    (located : buffer.bytesAt location = some bytes) : bytes.length = location.compressedLen := by
  rw [StagingBuffer.bytesAt] at located
  split_ifs at located
  · exact Fields.length_of_slice located
  · rcases Option.bind_eq_some_iff.mp located with ⟨chunk, -, sliced⟩
    exact Fields.length_of_slice sliced

theorem getChunkRange_of_bytesAt {location : StagedObjectLocation}
    (located : upload.staging.bytesAt location = some bytes) :
    Pump.getChunkRange (upload.io bucket) location.chunkId location.offset location.compressedLen =
      .ok bytes := by
  have sized := length_of_bytesAt located
  rw [Pump.getChunkRange]
  by_cases nothing : location.compressedLen = 0
  · rw [nothing, List.length_eq_zero_iff] at sized
    rw [if_pos nothing, sized]
  · rw [if_neg nothing]
    rw [StagingBuffer.bytesAt] at located
    split_ifs at located
    · rw [staging, current_flush] at located
      have inside := (Fields.slice_eq_some_iff.mp located).1
      rw [List.length_nil] at inside
      omega
    · rcases Option.bind_eq_some_iff.mp located with ⟨chunk, isChunk, sliced⟩
      rcases Fields.slice_eq_some_iff.mp sliced with ⟨inside, rfl⟩
      have isChunk : (upload.io bucket).chunks location.chunkId = some chunk := isChunk
      rw [isChunk]
      exact if_pos (by omega)

theorem exists_staged {base : Option ObjectId} {location : StagedObjectLocation} {oid : ObjectId}
    {wanted : Option ObjectId}
    (isStaged : stagedFor upload.sources.chunkIndex oid wanted = some (base, location)) :
    ∃ body, Pump.getChunkRange (upload.io bucket) location.chunkId location.offset
        location.compressedLen = .ok body ∧ body.length = location.compressedLen ∧
      (⟨oid, location.kind, base, location.decompressedLen⟩, body) ∈ upload.staged := by
  rcases stagedFor_eq_some isStaged with ⟨-, encodings, isIndexed, listed⟩
  rcases upload.sound_staging.located oid encodings isIndexed _ listed with ⟨body, located, holds⟩
  exact ⟨body, getChunkRange_of_bytesAt located, length_of_bytesAt located, holds⟩

theorem decodes_encoded {header : PackEntryHeader} {front body : Bytes}
    (encodes : encodePackEntryHeader header = .ok front) (inWidth : header.InWidth)
    (sized : body.length = header.compressedLen) : Decodes (front ++ body) header body :=
  ⟨front, rfl, decodePackEntryHeader_encoded encodes inWidth body, sized⟩

theorem mem_of_entry {pack : WirePack} {at_ : ℕ} {scanned : ScannedEntry}
    (isEntry : pack.entry at_ = .ok scanned) : scanned ∈ pack.entries := by
  rw [WirePack.entry] at isEntry
  cases found : pack.entries[at_]? with
  | none =>
    rw [found] at isEntry
    cases isEntry
  | some entry =>
    rw [found] at isEntry
    cases isEntry
    exact List.mem_of_getElem? found

structure Wrote (upload : Upload) (bucket : Bucket) (planned : DeltaEntry) (entry : PlannedEntry)
    (bytes : Bytes) (length : ℕ) (header : PackEntryHeader) (body : Bytes) : Prop where
  oid : entry.oid = planned.oid
  decodes : Decodes bytes header body
  sized : bytes.length = entry.entryLen
  sha : header.sha = planned.oid
  length : header.length = length
  base : header.base = entry.base
  own : upload.Own bucket planned header body

theorem getSegmentSlice_eq_ok {segment start len : ℕ}
    (read : Pump.getSegmentSlice (upload.io bucket) segment start len = .ok bytes) :
    ∃ object, bucket.segments segment = some object ∧ bytes = (object.drop start).take len := by
  rw [Pump.getSegmentSlice] at read
  cases isStored : (upload.io bucket).segments segment with
  | none =>
    rw [isStored] at read
    cases read
  | some object =>
    rw [isStored] at read
    dsimp only [Pump.readRange] at read
    split_ifs at read
    exact ⟨object, isStored, (Except.ok.inj read).symm⟩

theorem wrote_of_fetched (spanned : bucket.Spanned) (from_ : upload.From bucket)
    (plannedAs : PlannedAs upload.sources planned offset entry) (inWidth : planned.InWidth)
    (fetched : Pump.fetchEntry (upload.io bucket) entry = .ok (bytes, length)) :
    ∃ header body, upload.Wrote bucket planned entry bytes length header body := by
  cases plannedAs with
  | @wire at_ pack scanned front body source isPack isEntry isBody fits encodes =>
    cases fetched
    have sizeFits := upload.wireFits pack (List.mem_of_getElem? isPack) scanned
      (mem_of_entry isEntry)
    exact ⟨_, body, rfl, decodes_encoded encodes ⟨inWidth.oid, inWidth.base, sizeFits, fits⟩ rfl,
      List.length_append, rfl, rfl, rfl, .wire source isPack isEntry isBody⟩
  | @staged base location front source isStaged lengthFits fits encodes =>
    rcases @exists_staged upload bucket base location _ _ isStaged with
      ⟨body, isRead, sized, isItem⟩
    rw [Pump.fetchEntry] at fetched
    dsimp only at fetched
    rw [isRead] at fetched
    cases fetched
    have isBase := (stagedFor_eq_some isStaged).1
    have baseFits : ∀ oid, base = some oid → oid < 2 ^ 160 := by
      rintro oid rfl
      exact inWidth.base oid (isBase.resolve_right (Option.some_ne_none oid)).symm
    refine ⟨_, body, rfl, decodes_encoded encodes ⟨inWidth.oid, baseFits, lengthFits, fits⟩ sized,
      ?_, rfl, rfl, rfl, ?_⟩
    · rw [List.length_append, sized]
    · have own := @Own.staged upload bucket planned _ body source isItem rfl isBase
      rwa [sized] at own
  | @indexed found location source isKnown isLocated isWhole =>
    rw [Pump.fetchEntry] at fetched
    dsimp only at fetched
    rw [Except.bind_eq_ok_iff] at fetched
    rcases fetched with ⟨read, isRead, checked⟩
    rw [Except.bind_eq_ok_iff] at checked
    rcases checked with ⟨decoded, isDecoded, returned⟩
    cases returned
    rcases getSegmentSlice_eq_ok isRead with ⟨object, isStored, rfl⟩
    rcases from_.known _ _ _ isKnown isLocated with ⟨other, isRecorded⟩
    rcases spanned.spans _ _ isRecorded object isStored with
      ⟨span, header, body, isSpan, decodes, isSha, isBase⟩
    have sameSpan := (Fields.slice_eq_some_iff.mp isSpan).2
    rw [sameSpan] at isDecoded ⊢
    rcases Pump.forwardedHeader_eq_ok_iff.mp isDecoded with ⟨_, _, again, sameSha, isLength⟩
    rcases decodes with ⟨front, isFront, isHeader, sized⟩
    rw [isHeader, Except.ok.injEq, Prod.mk.injEq] at again
    rw [← again.1] at sameSha isLength
    -- The checked header is that of the object the place was recorded for.
    have sameOid : other = planned.oid := isSha.symm.trans sameSha
    rw [sameOid] at isRecorded
    exact ⟨header, body, rfl, ⟨front, isFront, isHeader, sized⟩, Fields.length_of_slice isSpan,
      sameSha, isLength, isBase.trans isWhole,
      .forwarded source isRecorded isStored isSpan ⟨front, isFront, isHeader, sized⟩⟩

theorem exists_fetched (spanned : bucket.Spanned) (available : upload.Available bucket)
    (plannedAs : PlannedAs upload.sources planned offset entry) :
    ∃ bytes length, Pump.fetchEntry (upload.io bucket) entry = .ok (bytes, length) := by
  cases plannedAs with
  | @wire at_ pack scanned front body source isPack isEntry isBody fits encodes =>
    exact ⟨_, _, rfl⟩
  | @staged base location front source isStaged lengthFits fits encodes =>
    rcases @exists_staged upload bucket base location _ _ isStaged with
      ⟨body, isRead, sized, isItem⟩
    refine ⟨front ++ body, location.decompressedLen, ?_⟩
    rw [Pump.fetchEntry]
    dsimp only
    rw [isRead]
    rfl
  | @indexed found location source isKnown isLocated isWhole =>
    rcases available _ _ _ isKnown isLocated with ⟨isRecorded, present⟩
    rcases Option.isSome_iff_exists.mp present with ⟨object, isStored⟩
    rcases spanned.spans _ _ isRecorded object isStored with
      ⟨span, header, body, isSpan, ⟨front, isFront, isHeader, -⟩, isSha, -⟩
    rcases Fields.slice_eq_some_iff.mp isSpan with ⟨inside, sameSpan⟩
    have nonempty : span ≠ [] := by
      rintro rfl
      cases isHeader
    have long : location.image.entryLen ≠ 0 := by
      rw [← Fields.length_of_slice isSpan]
      exact fun empty => nonempty (List.length_eq_zero_iff.mp empty)
    have isStored : (upload.io bucket).segments location.segment.id = some object := isStored
    have isLength := (@Pump.forwardedHeader_eq_ok_iff ⟨planned.oid, planned.kind, none, offset,
      location.image.entryLen, .indexed location.segment.id
        (location.segment.baseOffset + location.image.offset)⟩ span header.length).mpr
      ⟨header, front.length, isHeader, isSha, rfl⟩
    refine ⟨span, header.length, ?_⟩
    rw [Pump.fetchEntry]
    dsimp only
    rw [Pump.getSegmentSlice, isStored]
    dsimp only [Pump.readRange]
    rw [if_pos (by omega), sameSpan, Except.ok_bind, isLength]
    rfl

end Upload

end Enroute
