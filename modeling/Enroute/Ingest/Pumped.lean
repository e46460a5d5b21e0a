import Enroute.Ingest.Pump
import Enroute.Lib.Placed

/-!
# What the pump writes

Whether an entry was read ahead or copied through, and in whatever pieces its bytes arrived, the
same bytes are written for it and the same length is noted. The bytes of an image follow from those
of its entries, and those of a segment from its images.
-/

namespace Enroute

open List

namespace Pump

variable {io : SegmentIo} {entry : PlannedEntry} {lead rest bytes written : Bytes} {length : ℕ}

/-! ### Headers that arrive in pieces -/

theorem decodePackEntryHeader_append (whole : hasPackEntryHeader lead) :
    decodePackEntryHeader (lead ++ rest) = decodePackEntryHeader lead := by
  cases lead with
  | nil => cases whole
  | cons headerLength body =>
    have inside : headerLength.toNat ≤ body.length := by simpa [hasPackEntryHeader] using whole
    have longer : ¬(body ++ rest).length < headerLength.toNat := by
      rw [length_append]
      omega
    rw [cons_append, decodePackEntryHeader, decodePackEntryHeader, if_neg longer,
      if_neg (by omega), take_append_of_le_length inside]

theorem decodePackEntryHeader_ne_ok (short : ¬hasPackEntryHeader lead)
    (found : PackEntryHeader × ℕ) : decodePackEntryHeader lead ≠ .ok found := by
  cases lead with
  | nil => rintro ⟨⟩
  | cons headerLength body =>
    have beyond : body.length < headerLength.toNat := by simpa [hasPackEntryHeader] using short
    rw [decodePackEntryHeader, if_pos beyond]
    rintro ⟨⟩

theorem hasPackEntryHeader_take (whole : hasPackEntryHeader bytes) :
    hasPackEntryHeader (bytes.take MAX_PACK_ENTRY_HEADER_BYTES) := by
  cases bytes with
  | nil => cases whole
  | cons headerLength body =>
    have inside : headerLength.toNat ≤ body.length := by simpa [hasPackEntryHeader] using whole
    have small := headerLength.toNat_lt
    have both : headerLength.toNat ≤ min 255 body.length := by omega
    simpa [MAX_PACK_ENTRY_HEADER_BYTES, hasPackEntryHeader] using both

theorem forwardedHeader_append (whole : hasPackEntryHeader lead) :
    forwardedHeader entry (lead ++ rest) = forwardedHeader entry lead := by
  rw [forwardedHeader, decodePackEntryHeader_append whole, forwardedHeader]

theorem forwardedHeader_ne_ok (short : ¬hasPackEntryHeader lead) :
    forwardedHeader entry lead ≠ .ok length := by
  rw [forwardedHeader]
  cases decoded : decodePackEntryHeader lead with
  | error failure => exact nofun
  | ok found => exact absurd decoded (decodePackEntryHeader_ne_ok short found)

theorem forwardedHeader_eq_ok_iff :
    forwardedHeader entry bytes = .ok length ↔
      ∃ header consumed, decodePackEntryHeader bytes = .ok (header, consumed) ∧
        header.sha = entry.oid ∧ header.length = length := by
  rw [forwardedHeader]
  cases decodePackEntryHeader bytes with
  | error failure => simp
  | ok found =>
    rcases found with ⟨header, consumed⟩
    simp only [checkForwardedSha]
    split_ifs with same
    · simp [Except.map, same]
    · simp [Except.map, same]

theorem streamEntry_some (chunks : List Bytes) :
    streamEntry entry chunks lead (some length) = .ok (chunks.flatten, some length) := by
  induction chunks with
  | nil => rfl
  | cons chunk chunks ih =>
    rw [streamEntry, ih]
    rfl

theorem streamEntry_eq_ok_iff {seen : Bytes} (chunks : List Bytes)
    (short : ¬hasPackEntryHeader (seen.take MAX_PACK_ENTRY_HEADER_BYTES)) :
    streamEntry entry chunks (seen.take MAX_PACK_ENTRY_HEADER_BYTES) none =
        .ok (written, some length) ↔
      forwardedHeader entry (seen ++ chunks.flatten) = .ok length ∧ written = chunks.flatten := by
  induction chunks generalizing seen written with
  | nil =>
    have noHeader : ¬hasPackEntryHeader seen := fun whole => short (hasPackEntryHeader_take whole)
    rw [streamEntry, flatten_nil, append_nil]
    constructor
    · intro streamed
      cases streamed
    · rintro ⟨decoded, -⟩
      exact absurd decoded (forwardedHeader_ne_ok noHeader)
  | cons chunk chunks ih =>
    have gathered : seen.take MAX_PACK_ENTRY_HEADER_BYTES ++ chunk.take
        (MAX_PACK_ENTRY_HEADER_BYTES - (seen.take MAX_PACK_ENTRY_HEADER_BYTES).length) =
        (seen ++ chunk).take MAX_PACK_ENTRY_HEADER_BYTES := by
      rw [take_append, length_take]
      congr 2
      omega
    rw [streamEntry, tryDecodeStreamedHeader, gathered, flatten_cons, ← append_assoc]
    by_cases whole : hasPackEntryHeader ((seen ++ chunk).take MAX_PACK_ENTRY_HEADER_BYTES)
    · have same : forwardedHeader entry (seen ++ chunk ++ chunks.flatten) =
          forwardedHeader entry ((seen ++ chunk).take MAX_PACK_ENTRY_HEADER_BYTES) := by
        rw [← forwardedHeader_append whole, ← append_assoc, take_append_drop]
      rw [if_pos whole, same]
      cases forwardedHeader entry ((seen ++ chunk).take MAX_PACK_ENTRY_HEADER_BYTES) with
      | error failure =>
        constructor
        · intro streamed
          cases streamed
        · intro both
          cases both.1
      | ok found =>
        simp only [Except.map, Except.ok_bind, streamEntry_some, pure, Except.pure,
          Except.ok.injEq, Prod.mk.injEq, Option.some.injEq]
        exact ⟨fun ⟨isWritten, isLength⟩ => ⟨isLength, isWritten.symm⟩,
          fun ⟨isLength, isWritten⟩ => ⟨isWritten.symm, isLength⟩⟩
    · rw [if_neg whole, Except.ok_bind, Except.bind_eq_ok_iff]
      constructor
      · rintro ⟨⟨others, decoded⟩, streamed, returned⟩
        cases returned
        rcases (ih whole).mp streamed with ⟨isLength, rfl⟩
        exact ⟨isLength, rfl⟩
      · rintro ⟨isLength, rfl⟩
        exact ⟨(chunks.flatten, some length), (ih whole).mpr ⟨isLength, rfl⟩, rfl⟩

/-! ### Entries -/

def fetchEntry (io : SegmentIo) (entry : PlannedEntry) : Except String (Bytes × ℕ) :=
  match entry.source with
  | .wire header body length => .ok (header ++ body, length)
  | .staged header chunkId start len length =>
    (getChunkRange io chunkId start len).map fun body => (header ++ body, length)
  | .indexed segment start => do
      let bytes ← getSegmentSlice io segment start entry.entryLen
      let length ← forwardedHeader entry bytes
      return (bytes, length)

theorem pump_eq_ok_iff :
    (prefetchPayload io entry >>= pumpEntry io entry) = .ok (bytes, length) ↔
      fetchEntry io entry = .ok (bytes, length) := by
  rw [fetchEntry, prefetchPayload]
  cases isSource : entry.source with
  | wire header body length => simp only [Except.ok_bind, pumpEntry, isSource]
  | staged header chunkId start len length =>
    dsimp only
    split_ifs
    · simp only [Except.ok_bind, pumpEntry, isSource]
      cases getChunkRange io chunkId start len with
      | error failure => constructor <;> intro failed <;> cases failed
      | ok body => simp only [Except.ok_bind, io.whole, Except.map, pure, Except.pure]
    · cases getChunkRange io chunkId start len with
      | error failure => constructor <;> intro failed <;> cases failed
      | ok body => simp only [Except.map, Except.ok_bind, pumpEntry, isSource]
  | indexed segment start =>
    dsimp only
    split_ifs
    · simp only [Except.ok_bind, pumpEntry, isSource]
      cases getSegmentSlice io segment start entry.entryLen with
      | error failure => constructor <;> intro failed <;> cases failed
      | ok found =>
        have streamed :=
          @streamEntry_eq_ok_iff entry bytes length [] (io.arrive found) (by decide)
        rw [take_nil, nil_append, io.whole] at streamed
        rw [Except.ok_bind, Except.ok_bind, Except.bind_eq_ok_iff, Except.bind_eq_ok_iff]
        constructor
        · rintro ⟨⟨copied, decoded⟩, isStreamed, returned⟩
          cases decoded with
          | none => cases returned
          | some found =>
            cases returned
            rcases streamed.mp isStreamed with ⟨isLength, rfl⟩
            exact ⟨length, isLength, rfl⟩
        · rintro ⟨found, isLength, returned⟩
          cases returned
          exact ⟨_, streamed.mpr ⟨isLength, rfl⟩, rfl⟩
    · cases getSegmentSlice io segment start entry.entryLen with
      | error failure => constructor <;> intro failed <;> cases failed
      | ok found => simp only [Except.map, Except.ok_bind, pumpEntry, isSource]

end Pump

/-- An entry, with what is written for it and the length noted in the trailer. -/
structure WrittenEntry where
  entry : PlannedEntry
  bytes : Bytes
  length : ℕ

def WrittenEntry.trailerEntry (written : WrittenEntry) : PackTrailerEntry :=
  ⟨written.entry.oid, written.entry.kind, written.length, written.entry.offset,
    written.entry.entryLen⟩

structure WrittenImage where
  image : PlannedImage
  entries : List WrittenEntry

namespace WrittenImage

def trailer (written : WrittenImage) : List PackTrailerEntry :=
  written.entries.map WrittenEntry.trailerEntry

def bytes (written : WrittenImage) : Bytes :=
  encodeCommitPackHeader written.image.entryCount ++
    (written.entries.flatMap WrittenEntry.bytes ++ encodePackTrailer written.trailer)

def promoted (id : ℕ) (written : WrittenImage) :
    ObjectId × List PackTrailerEntry × SegmentLocation :=
  (written.image.commitOid, written.trailer, ⟨id, written.image.baseOffset, written.image.imageLen⟩)

end WrittenImage

namespace Pump

structure Fetched (io : SegmentIo) (written : WrittenImage) : Prop where
  planned : written.entries.map WrittenEntry.entry = written.image.entries
  fetched : ∀ entry ∈ written.entries, fetchEntry io entry.entry = .ok (entry.bytes, entry.length)

variable {io : SegmentIo} {bytes : Bytes} {entries : List PlannedEntry}
  {trailer : List PackTrailerEntry} {image : PlannedImage} {images : List PlannedImage}
  {promoted : PromotedImages} {ids : ℕ → ℕ} {id : ℕ}

theorem pumpEntries_eq_ok_iff :
    pumpEntries io entries = .ok (bytes, trailer) ↔
      ∃ written : List WrittenEntry, written.map WrittenEntry.entry = entries ∧
        (∀ entry ∈ written, fetchEntry io entry.entry = .ok (entry.bytes, entry.length)) ∧
        bytes = written.flatMap WrittenEntry.bytes ∧
        trailer = written.map WrittenEntry.trailerEntry := by
  induction entries generalizing bytes trailer with
  | nil =>
    rw [pumpEntries]
    constructor
    · intro pumped
      cases pumped
      exact ⟨[], rfl, by simp, rfl, rfl⟩
    · rintro ⟨written, none_, -, rfl, rfl⟩
      rw [map_eq_nil_iff.mp none_]
      rfl
  | cons entry entries ih =>
    have first : pumpEntries io (entry :: entries) =
        ((prefetchPayload io entry >>= pumpEntry io entry) >>= fun pumped => do
          let rest ← pumpEntries io entries
          return (pumped.1 ++ rest.1, ⟨entry.oid, entry.kind, pumped.2, entry.offset,
            entry.entryLen⟩ :: rest.2)) := by
      rw [pumpEntries]
      cases prefetchPayload io entry <;> rfl
    rw [first, Except.bind_eq_ok_iff]
    constructor
    · rintro ⟨⟨here, length⟩, pumped, later⟩
      rw [Except.bind_eq_ok_iff] at later
      rcases later with ⟨⟨rest, others⟩, pumpedRest, returned⟩
      cases returned
      rcases ih.mp pumpedRest with ⟨written, rfl, fetched, rfl, rfl⟩
      exact ⟨⟨entry, here, length⟩ :: written, rfl,
        forall_mem_cons.mpr ⟨pump_eq_ok_iff.mp pumped, fetched⟩, rfl, rfl⟩
    · rintro ⟨written, isPlanned, fetched, rfl, rfl⟩
      rcases map_eq_cons_iff.mp isPlanned with ⟨here, written, rfl, rfl, isRest⟩
      rcases forall_mem_cons.mp fetched with ⟨fetchedHere, fetchedRest⟩
      refine ⟨_, pump_eq_ok_iff.mpr fetchedHere, ?_⟩
      rw [ih.mpr ⟨written, isRest, fetchedRest, rfl, rfl⟩]
      rfl

theorem writeImage_eq_ok_iff :
    writeImage io image = .ok (bytes, trailer) ↔
      ∃ written : WrittenImage, written.image = image ∧ Fetched io written ∧
        bytes = written.bytes ∧ trailer = written.trailer := by
  rw [writeImage, Except.bind_eq_ok_iff]
  constructor
  · rintro ⟨⟨content, listed⟩, pumped, returned⟩
    cases returned
    rcases pumpEntries_eq_ok_iff.mp pumped with ⟨written, isPlanned, fetched, rfl, rfl⟩
    exact ⟨⟨image, written⟩, rfl, ⟨isPlanned, fetched⟩, rfl, rfl⟩
  · rintro ⟨written, rfl, fetched, rfl, rfl⟩
    exact ⟨_, pumpEntries_eq_ok_iff.mpr
      ⟨written.entries, fetched.planned, fetched.fetched, rfl, rfl⟩, rfl⟩

theorem writeObject_eq_ok_iff :
    writeObject io id images = .ok (bytes, promoted) ↔
      ∃ written : List WrittenImage, written.map WrittenImage.image = images ∧
        (∀ image ∈ written, Fetched io image) ∧ bytes = written.flatMap WrittenImage.bytes ∧
        promoted = written.map (WrittenImage.promoted id) := by
  induction images generalizing bytes promoted with
  | nil =>
    rw [writeObject]
    constructor
    · intro wrote
      cases wrote
      exact ⟨[], rfl, by simp, rfl, rfl⟩
    · rintro ⟨written, none_, -, rfl, rfl⟩
      rw [map_eq_nil_iff.mp none_]
      rfl
  | cons image images ih =>
    rw [writeObject, Except.bind_eq_ok_iff]
    constructor
    · rintro ⟨⟨here, trailer⟩, wrote, later⟩
      rw [Except.bind_eq_ok_iff] at later
      rcases later with ⟨⟨rest, others⟩, wroteRest, returned⟩
      cases returned
      rcases writeImage_eq_ok_iff.mp wrote with ⟨first, rfl, fetched, rfl, rfl⟩
      rcases ih.mp wroteRest with ⟨written, rfl, fetchedRest, rfl, rfl⟩
      exact ⟨first :: written, rfl, forall_mem_cons.mpr ⟨fetched, fetchedRest⟩, rfl, rfl⟩
    · rintro ⟨written, isPlanned, fetched, rfl, rfl⟩
      rcases map_eq_cons_iff.mp isPlanned with ⟨first, written, rfl, rfl, isRest⟩
      rcases forall_mem_cons.mp fetched with ⟨fetchedHere, fetchedRest⟩
      refine ⟨_, writeImage_eq_ok_iff.mpr ⟨first, rfl, fetchedHere, rfl, rfl⟩, ?_⟩
      rw [ih.mpr ⟨written, isRest, fetchedRest, rfl, rfl⟩]
      rfl

def objectsFrom (ids : ℕ → ℕ) (index : ℕ) (segments : List (List WrittenImage)) :
    List (ℕ × Bytes) :=
  (segments.zipIdx index).map fun segment =>
    (ids segment.2, segment.1.flatMap WrittenImage.bytes)

def promotedFrom (ids : ℕ → ℕ) (index : ℕ) (segments : List (List WrittenImage)) : PromotedImages :=
  (segments.zipIdx index).flatMap fun segment =>
    segment.1.map (WrittenImage.promoted (ids segment.2))

theorem writeSegments_eq_ok_iff {segments : List (List PlannedImage)} {index : ℕ}
    {objects : List (ℕ × Bytes)} :
    writeSegments io ids segments index = .ok (objects, promoted) ↔
      ∃ written : List (List WrittenImage),
        written.map (List.map WrittenImage.image) = segments ∧
        (∀ images ∈ written, ∀ image ∈ images, Fetched io image) ∧
        objects = objectsFrom ids index written ∧ promoted = promotedFrom ids index written := by
  induction segments generalizing index objects promoted with
  | nil =>
    rw [writeSegments]
    constructor
    · intro wrote
      cases wrote
      exact ⟨[], rfl, by simp, rfl, rfl⟩
    · rintro ⟨written, none_, -, rfl, rfl⟩
      rw [map_eq_nil_iff.mp none_]
      rfl
  | cons images segments ih =>
    rw [writeSegments, Except.bind_eq_ok_iff]
    constructor
    · rintro ⟨⟨object, here⟩, wrote, later⟩
      rw [Except.bind_eq_ok_iff] at later
      rcases later with ⟨⟨rest, others⟩, wroteRest, returned⟩
      cases returned
      rcases writeObject_eq_ok_iff.mp wrote with ⟨first, rfl, fetched, rfl, rfl⟩
      rcases ih.mp wroteRest with ⟨written, rfl, fetchedRest, rfl, rfl⟩
      exact ⟨first :: written, rfl, forall_mem_cons.mpr ⟨fetched, fetchedRest⟩, rfl, rfl⟩
    · rintro ⟨written, isPlanned, fetched, rfl, rfl⟩
      rcases map_eq_cons_iff.mp isPlanned with ⟨first, written, rfl, rfl, isRest⟩
      rcases forall_mem_cons.mp fetched with ⟨fetchedHere, fetchedRest⟩
      refine ⟨_, writeObject_eq_ok_iff.mpr ⟨first, rfl, fetchedHere, rfl, rfl⟩, ?_⟩
      rw [ih.mpr ⟨written, isRest, fetchedRest, rfl, rfl⟩]
      rfl

end Pump

end Enroute
