import Enroute.Core.Object
import Enroute.Lib.Fields

/-!
# The staging area of a push

What a push produces itself is compressed and appended to a buffer, which is written out as a chunk
when it is full. The index says where each encoding of an object is. At the end of a push the rest
of the buffer is written too, and then every encoding is found in the chunk its location names.
-/

namespace Enroute

structure StagedObjectLocation where
  chunkId : ℕ
  offset : ℕ
  compressedLen : ℕ
  decompressedLen : ℕ
  kind : Kind
  deriving DecidableEq, Repr

structure StagedItem where
  sha : ObjectId
  kind : Kind
  /-- What the bytes delta against, or nothing when they are the object. -/
  base : Option ObjectId
  decompressedLen : ℕ
  deriving DecidableEq, Repr

abbrev StagedEncodings := List (Option ObjectId × StagedObjectLocation)

namespace StagedEncodings

def insert (base : Option ObjectId) (location : StagedObjectLocation) :
    StagedEncodings → StagedEncodings
  | [] => [(base, location)]
  | slot :: encodings =>
    if slot.1 = base then (base, location) :: encodings
    else slot :: insert base location encodings

def against (encodings : StagedEncodings) (base : Option ObjectId) : Option StagedObjectLocation :=
  (encodings.find? fun slot => slot.1 = base).map Prod.snd

def whole (encodings : StagedEncodings) : Option StagedObjectLocation :=
  encodings.against none

theorem mem_insert {base : Option ObjectId} {location : StagedObjectLocation}
    {encodings : StagedEncodings} {slot : Option ObjectId × StagedObjectLocation}
    (listed : slot ∈ encodings.insert base location) :
    slot = (base, location) ∨ slot ∈ encodings := by
  induction encodings with
  | nil => exact Or.inl (List.mem_singleton.mp listed)
  | cons first encodings ih =>
    rw [insert] at listed
    split_ifs at listed with same
    · rcases List.mem_cons.mp listed with rfl | later
      · exact Or.inl rfl
      · exact Or.inr (List.mem_cons_of_mem _ later)
    · rcases List.mem_cons.mp listed with rfl | later
      · exact Or.inr List.mem_cons_self
      · exact (ih later).imp_right (List.mem_cons_of_mem _)

theorem mem_of_against {encodings : StagedEncodings} {base : Option ObjectId}
    {location : StagedObjectLocation} (found : encodings.against base = some location) :
    (base, location) ∈ encodings := by
  rcases Option.map_eq_some_iff.mp found with ⟨slot, isSlot, rfl⟩
  have isBase := List.find?_some isSlot
  rw [decide_eq_true_eq] at isBase
  rw [← isBase]
  exact List.mem_of_find?_eq_some isSlot

end StagedEncodings

def STAGING_CHUNK_BYTES : ℕ := 5 * 1024 * 1024

structure StagingBuffer where
  current : Bytes
  chunkId : ℕ
  index : ObjectHashMap StagedEncodings
  chunks : AList fun _ : ℕ => Bytes

namespace StagingBuffer

def empty : StagingBuffer := ⟨[], 0, ∅, ∅⟩

def flush (buffer : StagingBuffer) : StagingBuffer :=
  if buffer.current.isEmpty then buffer
  else
    { buffer with
      current := []
      chunkId := buffer.chunkId + 1
      chunks := buffer.chunks.insert buffer.chunkId buffer.current }

def pushCompressed (buffer : StagingBuffer) (item : StagedItem) (compressed : Bytes) :
    StagingBuffer :=
  let location : StagedObjectLocation :=
    ⟨buffer.chunkId, buffer.current.length, compressed.length, item.decompressedLen, item.kind⟩
  let pushed : StagingBuffer :=
    { buffer with
      current := buffer.current ++ compressed
      index := buffer.index.insert item.sha
        (((buffer.index.lookup item.sha).getD []).insert item.base location) }
  if STAGING_CHUNK_BYTES ≤ pushed.current.length then pushed.flush else pushed

def bytesAt (buffer : StagingBuffer) (location : StagedObjectLocation) : Option Bytes :=
  if location.chunkId = buffer.chunkId then
    Fields.slice buffer.current location.offset location.compressedLen
  else (buffer.chunks.lookup location.chunkId).bind fun chunk =>
    Fields.slice chunk location.offset location.compressedLen

abbrev Holding := StagedItem → Bytes → Prop

/-- Whether every location of the index names bytes that were staged for it. -/
structure Sound (staged : Holding) (buffer : StagingBuffer) : Prop where
  located : ∀ sha encodings, buffer.index.lookup sha = some encodings → ∀ slot ∈ encodings,
    ∃ bytes, buffer.bytesAt slot.2 = some bytes ∧
      staged ⟨sha, slot.2.kind, slot.1, slot.2.decompressedLen⟩ bytes
  written : ∀ id ∈ buffer.chunks, id < buffer.chunkId

variable {staged : Holding} {buffer : StagingBuffer}

theorem sound_empty : Sound staged empty where
  located _ _ isIndexed := by cases isIndexed
  written _ isWritten := absurd isWritten (AList.notMem_empty _)

theorem bytesAt_flush {location : StagedObjectLocation} {bytes : Bytes}
    (written : ∀ id ∈ buffer.chunks, id < buffer.chunkId)
    (found : buffer.bytesAt location = some bytes) :
    buffer.flush.bytesAt location = some bytes := by
  rw [flush]
  split_ifs with nothing
  · exact found
  · rw [bytesAt] at found ⊢
    dsimp only
    split_ifs at found with here
    · rw [if_neg (by omega), here, AList.lookup_insert, Option.bind_some, found]
    · rcases Option.bind_eq_some_iff.mp found with ⟨chunk, isChunk, sliced⟩
      have below : location.chunkId < buffer.chunkId :=
        written _ (AList.lookup_isSome.mp (Option.isSome_of_eq_some isChunk))
      rw [if_neg (by omega), AList.lookup_insert_ne here, isChunk, Option.bind_some, sliced]

theorem Sound.flush (sound : Sound staged buffer) : Sound staged buffer.flush where
  located sha encodings isIndexed slot listed := by
    have same : buffer.flush.index = buffer.index := by
      rw [StagingBuffer.flush]
      split_ifs <;> rfl
    rw [same] at isIndexed
    rcases sound.located sha encodings isIndexed slot listed with ⟨bytes, found, holds⟩
    exact ⟨bytes, bytesAt_flush sound.written found, holds⟩
  written id isWritten := by
    rw [StagingBuffer.flush] at isWritten ⊢
    split_ifs at isWritten ⊢ with nothing
    · exact sound.written id isWritten
    · rcases (AList.mem_insert _).mp isWritten with rfl | before
      · exact Nat.lt_succ_self _
      · exact Nat.lt_succ_of_lt (sound.written id before)

theorem Sound.pushCompressed (sound : Sound staged buffer) {item : StagedItem} {compressed : Bytes}
    (holds : staged item compressed) : Sound staged (buffer.pushCompressed item compressed) := by
  rw [StagingBuffer.pushCompressed]
  dsimp only
  have pushed : Sound staged
      { buffer with
        current := buffer.current ++ compressed
        index := buffer.index.insert item.sha (((buffer.index.lookup item.sha).getD []).insert
          item.base ⟨buffer.chunkId, buffer.current.length, compressed.length, item.decompressedLen,
            item.kind⟩) } := by
    -- What was in the buffer is still in front of what was appended.
    have kept : ∀ {location bytes}, buffer.bytesAt location = some bytes →
        ({ buffer with current := buffer.current ++ compressed } : StagingBuffer).bytesAt location =
          some bytes := by
      intro location bytes found
      rw [bytesAt] at found ⊢
      split_ifs at found ⊢ with here
      · rw [Fields.slice_append_left (Fields.slice_eq_some_iff.mp found).1]
        exact found
      · exact found
    refine ⟨fun sha encodings isIndexed slot listed => ?_, sound.written⟩
    by_cases same : sha = item.sha
    · subst same
      rw [AList.lookup_insert, Option.some.injEq] at isIndexed
      rw [← isIndexed] at listed
      rcases StagedEncodings.mem_insert listed with rfl | before
      · refine ⟨compressed, ?_, holds⟩
        have placed := @Fields.slice_append_right buffer.current compressed 0 compressed.length
        rw [Nat.add_zero, Fields.slice_all] at placed
        rw [bytesAt, if_pos rfl]
        exact placed
      · cases isStaged : buffer.index.lookup item.sha with
        | none =>
          rw [isStaged] at before
          cases before
        | some encodings =>
          rw [isStaged] at before
          rcases sound.located item.sha encodings isStaged slot before with ⟨bytes, found, was⟩
          exact ⟨bytes, kept found, was⟩
    · rw [AList.lookup_insert_ne same] at isIndexed
      rcases sound.located sha encodings isIndexed slot listed with ⟨bytes, found, was⟩
      exact ⟨bytes, kept found, was⟩
  split_ifs
  · exact pushed.flush
  · exact pushed

end StagingBuffer

end Enroute
