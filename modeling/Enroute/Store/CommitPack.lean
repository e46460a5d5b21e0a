import Enroute.Core.Object
import Enroute.Lib.Except
import Enroute.Lib.Fields
import Enroute.Packfile.Varint

/-!
# The format of a commit pack

A commit pack is a header of twelve bytes, the entries one after another, and a trailer that lists
them. An entry starts with a header of its own: how long that is, the object and its kind, the base
if the body is a delta, and the lengths of the body before and after compression. The compressed
body follows. Entries of the trailer are of one width, so its length follows from the header alone.
-/

namespace Enroute

open List

def COMMIT_PACK_HEADER_SIZE : ℕ := 12

def COMMIT_PACK_MAGIC : Bytes := [67, 80, 65, 75]

def COMMIT_PACK_VERSION : ℕ := 1

def toBe (width value : ℕ) : Bytes :=
  (Fields.toLe width value).reverse

def ofBe (bytes : Bytes) : ℕ :=
  Fields.ofLe bytes.reverse

def encodeCommitPackHeader (objectCount : ℕ) : Bytes :=
  COMMIT_PACK_MAGIC ++ toBe 4 COMMIT_PACK_VERSION ++ toBe 4 objectCount

def decodeCommitPackHeader (raw : Bytes) : Except String ℕ :=
  if raw.length < 4 then .error "commit pack too short for header"
  else if raw.take 4 ≠ COMMIT_PACK_MAGIC then .error "commit pack has invalid magic bytes"
  else if raw.length < 8 then .error "commit pack too short for header"
  else if ofBe ((raw.drop 4).take 4) ≠ COMMIT_PACK_VERSION then
    .error s!"commit pack has unsupported version {ofBe ((raw.drop 4).take 4)}"
  else if raw.length < 12 then .error "commit pack too short for header"
  else .ok (ofBe ((raw.drop 8).take 4))

def TRAILER_ENTRY_LEN : ℕ := 45

def trailerSuffixLen (objectCount : ℕ) : ℕ :=
  4 + objectCount * TRAILER_ENTRY_LEN

def kindToU8 : Kind → UInt8
  | .commit => 1
  | .tree => 2
  | .blob => 3
  | .tag => 4

def kindFromU8 : UInt8 → Option Kind
  | 1 => some .commit
  | 2 => some .tree
  | 3 => some .blob
  | 4 => some .tag
  | _ => none

def decodeKind (byte : UInt8) : Except String Kind :=
  match kindFromU8 byte with
  | some kind => .ok kind
  | none => .error s!"commit pack has unknown object kind byte {byte}"

structure PackEntryHeader where
  sha : ObjectId
  kind : Kind
  /-- What the body is a delta against, or nothing when it is the object. -/
  base : Option ObjectId
  /-- The length of the body before compression. -/
  length : ℕ
  compressedLen : ℕ
  deriving DecidableEq, Repr

def DELTA_FLAG : UInt8 := 0x80

def encodeBase (kind : Kind) : Option ObjectId → Bytes
  | some base => (kindToU8 kind ||| DELTA_FLAG) :: Fields.toLe 20 base
  | none => [kindToU8 kind]

def encodeHeaderBody (header : PackEntryHeader) : Bytes :=
  Fields.toLe 20 header.sha ++ (encodeBase header.kind header.base ++
    (Varint.writeVarint header.length ++ Varint.writeVarint header.compressedLen))

def encodePackEntryHeader (header : PackEntryHeader) : Except String Bytes :=
  let body := encodeHeaderBody header
  if body.length < 256 then .ok (UInt8.ofNat body.length :: body)
  else .error "pack entry header body too large: out of range integral type conversion attempted"

def MAX_PACK_ENTRY_HEADER_BYTES : ℕ := 1 + 255

def hasPackEntryHeader : Bytes → Bool
  | [] => false
  | headerLength :: rest => headerLength.toNat ≤ rest.length

def takeVarint (body : Bytes) : Except String (ℕ × Bytes) :=
  match Varint.readVarint body with
  | .ok (value, consumed) => .ok (value, body.drop consumed)
  | .error _ => .error "commit pack header"

def decodeBase (kindByte : UInt8) (body : Bytes) : Except String (Option ObjectId × Bytes) :=
  if kindByte &&& DELTA_FLAG = 0 then .ok (none, body)
  else if body.length < 20 then .error "pack entry header: too short for base sha"
  else .ok (some (Fields.ofLe (body.take 20)), body.drop 20)

def decodeHeaderBody (body : Bytes) : Except String PackEntryHeader :=
  if body.length < 20 then .error "pack entry header: too short for sha"
  else
    match body.drop 20 with
    | [] => .error "pack entry header: too short for kind"
    | kindByte :: rest => do
        let kind ← decodeKind (kindByte &&& ~~~DELTA_FLAG)
        let (base, rest) ← decodeBase kindByte rest
        let (length, rest) ← takeVarint rest
        let (compressedLen, rest) ← takeVarint rest
        if rest.isEmpty then
          .ok { sha := Fields.ofLe (body.take 20), kind, base, length, compressedLen }
        else .error "pack entry header: trailing bytes after varints"

def decodePackEntryHeader : Bytes → Except String (PackEntryHeader × ℕ)
  | [] => .error "pack entry header: empty buffer"
  | headerLength :: rest =>
    if rest.length < headerLength.toNat then
      .error "pack entry header: buffer shorter than header_length"
    else do
      let header ← decodeHeaderBody (rest.take headerLength.toNat)
      return (header, 1 + headerLength.toNat)

structure PackTrailerEntry where
  sha : ObjectId
  kind : Kind
  /-- The length of the body before compression. -/
  length : ℕ
  /-- Where the entry starts in the pack. -/
  offset : ℕ
  /-- How long the entry is, its header included. -/
  entryLen : ℕ
  deriving DecidableEq, Repr

/-- Where the blobs of a commit pack begin: at the first of them, or after the last entry. -/
def blobSectionOffset (entries : List PackTrailerEntry) : ℕ :=
  match entries.find? fun entry => entry.kind = .blob with
  | some firstBlob => firstBlob.offset
  | none =>
    match entries.getLast? with
    | some last => last.offset + last.entryLen
    | none => COMMIT_PACK_HEADER_SIZE

def encodeTrailerEntry (entry : PackTrailerEntry) : Bytes :=
  Fields.toLe 20 entry.sha ++ (kindToU8 entry.kind ::
    (toBe 8 entry.length ++ (toBe 8 entry.offset ++ toBe 8 entry.entryLen)))

def encodePackTrailer (entries : List PackTrailerEntry) : Bytes :=
  toBe 4 (min entries.length (2 ^ 32 - 1)) ++ entries.flatMap encodeTrailerEntry

/-! ### Lengths -/

@[simp]
theorem length_toBe (width value : ℕ) : (toBe width value).length = width := by
  rw [toBe, length_reverse, Fields.length_toLe]

theorem length_encodeCommitPackHeader (objectCount : ℕ) :
    (encodeCommitPackHeader objectCount).length = COMMIT_PACK_HEADER_SIZE := by
  simp [encodeCommitPackHeader, COMMIT_PACK_MAGIC, COMMIT_PACK_HEADER_SIZE]

theorem length_encodeTrailerEntry (entry : PackTrailerEntry) :
    (encodeTrailerEntry entry).length = TRAILER_ENTRY_LEN := by
  simp [encodeTrailerEntry, TRAILER_ENTRY_LEN]

theorem length_encodePackTrailer (entries : List PackTrailerEntry) :
    (encodePackTrailer entries).length = trailerSuffixLen entries.length := by
  rw [encodePackTrailer, length_append, length_toBe,
    Fields.length_flatMap length_encodeTrailerEntry, trailerSuffixLen]

theorem length_encodeHeaderBody_lt (header : PackEntryHeader) :
    (encodeHeaderBody header).length < 256 := by
  have length := Varint.length_writeVarint_le header.length
  have compressedLen := Varint.length_writeVarint_le header.compressedLen
  have base : (encodeBase header.kind header.base).length ≤ 21 := by
    cases header.base <;> simp [encodeBase]
  simp only [encodeHeaderBody, length_append, Fields.length_toLe]
  omega

theorem encodePackEntryHeader_eq (header : PackEntryHeader) :
    encodePackEntryHeader header =
      .ok (UInt8.ofNat (encodeHeaderBody header).length :: encodeHeaderBody header) :=
  if_pos (length_encodeHeaderBody_lt header)

/-! ### Reading an entry's header back -/

structure PackEntryHeader.InWidth (header : PackEntryHeader) : Prop where
  sha : header.sha < 2 ^ 160
  base : ∀ base, header.base = some base → base < 2 ^ 160
  length : header.length < 2 ^ 64
  compressedLen : header.compressedLen < 2 ^ 64

theorem ofLe_take_toLe {value : ℕ} (fits : value < 2 ^ 160) (rest : Bytes) :
    Fields.ofLe ((Fields.toLe 20 value ++ rest).take 20) = value := by
  rw [take_left' (Fields.length_toLe 20 value)]
  exact Fields.ofLe_toLe (by rwa [show 256 ^ 20 = 2 ^ 160 by norm_num])

theorem takeVarint_writeVarint {value : ℕ} (fits : value < 2 ^ 64) (rest : Bytes) :
    takeVarint (Varint.writeVarint value ++ rest) = .ok (value, rest) := by
  rw [takeVarint, Varint.readVarint_writeVarint fits]
  simp

theorem decodeKind_kindToU8 (kind : Kind) (flagged : Bool) :
    decodeKind ((if flagged then kindToU8 kind ||| DELTA_FLAG else kindToU8 kind) &&&
      ~~~DELTA_FLAG) = .ok kind := by
  cases kind <;> cases flagged <;> rfl

theorem decodeBase_encodeBase {kind : Kind} {base : Option ObjectId}
    (fits : ∀ oid, base = some oid → oid < 2 ^ 160) (rest : Bytes) :
    ∃ kindByte tail, encodeBase kind base = kindByte :: tail ∧
      decodeKind (kindByte &&& ~~~DELTA_FLAG) = .ok kind ∧
      decodeBase kindByte (tail ++ rest) = .ok (base, rest) := by
  cases base with
  | none =>
    refine ⟨kindToU8 kind, [], rfl, decodeKind_kindToU8 kind false, ?_⟩
    cases kind <;> rfl
  | some oid =>
    refine ⟨kindToU8 kind ||| DELTA_FLAG, Fields.toLe 20 oid, rfl,
      decodeKind_kindToU8 kind true, ?_⟩
    have flagged : ¬(kindToU8 kind ||| DELTA_FLAG) &&& DELTA_FLAG = 0 := by
      cases kind <;> decide
    rw [decodeBase, if_neg flagged, if_neg (by simp), ofLe_take_toLe (fits oid rfl),
      drop_left' (Fields.length_toLe 20 oid)]

theorem decodeHeaderBody_encodeHeaderBody {header : PackEntryHeader} (inWidth : header.InWidth) :
    decodeHeaderBody (encodeHeaderBody header) = .ok header := by
  rcases @decodeBase_encodeBase header.kind header.base inWidth.base
    (Varint.writeVarint header.length ++ Varint.writeVarint header.compressedLen) with
    ⟨kindByte, tail, encoded, isKind, isBase⟩
  have length := takeVarint_writeVarint inWidth.length (Varint.writeVarint header.compressedLen)
  have compressedLen := takeVarint_writeVarint inWidth.compressedLen []
  rw [append_nil] at compressedLen
  rw [decodeHeaderBody, if_neg (by simp [encodeHeaderBody])]
  rw [encodeHeaderBody, drop_left' (Fields.length_toLe 20 header.sha),
    ofLe_take_toLe inWidth.sha, encoded]
  simp only [cons_append, isKind, isBase, length, compressedLen, Except.ok_bind,
    isEmpty_nil, if_true]

theorem decodePackEntryHeader_encoded {header : PackEntryHeader} {encoded : Bytes}
    (encodes : encodePackEntryHeader header = .ok encoded) (inWidth : header.InWidth)
    (body : Bytes) : decodePackEntryHeader (encoded ++ body) = .ok (header, encoded.length) := by
  have small := length_encodeHeaderBody_lt header
  rw [encodePackEntryHeader_eq, Except.ok.injEq] at encodes
  rw [← encodes]
  have byte : (UInt8.ofNat (encodeHeaderBody header).length).toNat =
      (encodeHeaderBody header).length := by
    rw [UInt8.toNat_ofNat']
    omega
  rw [cons_append, decodePackEntryHeader, byte, if_neg (by simp),
    take_left' rfl, decodeHeaderBody_encodeHeaderBody inWidth, Except.ok_bind,
    length_cons, Nat.add_comm]
  rfl

end Enroute
