import Enroute.Store.CommitPack

/-!
# Reading a packfile

The reader takes a pack off a buffered stream entry by entry. Every byte it accepts is hashed,
counted and, if asked for, kept; only the trailer is kept without being hashed. What each of its
operations accepted is a stretch of the stream, and such stretches follow each other without a gap.

The inflater is third-party code: it is handed whatever the stream has buffered and says how much
of that it used. Offsets are counted without a bound, as the bytes they count are held in memory.
-/

namespace Enroute

open List

abbrev Buffers := List Bytes

def readExact : ℕ → Buffers → Option (Bytes × Buffers)
  | count, [] => if count = 0 then some ([], []) else none
  | count, buffer :: later =>
    if count < buffer.length then some (buffer.take count, buffer.drop count :: later)
    else (readExact (count - buffer.length) later).map fun (more, left) => (buffer ++ more, left)

theorem readExact_eq_some {count : ℕ} {inner left : Buffers} {bytes : Bytes}
    (read : readExact count inner = some (bytes, left)) :
    bytes.length = count ∧ inner.flatten = bytes ++ left.flatten := by
  induction inner generalizing count bytes with
  | nil =>
    rw [readExact] at read
    split_ifs at read with isZero
    cases read
    exact ⟨isZero.symm, rfl⟩
  | cons buffer later ih =>
    rw [readExact] at read
    split_ifs at read with inside
    · cases read
      refine ⟨by rw [length_take]; omega, ?_⟩
      rw [flatten_cons, flatten_cons, ← append_assoc, take_append_drop]
    · rcases Option.map_eq_some_iff.mp read with ⟨⟨more, rest⟩, readMore, made⟩
      cases made
      rcases ih readMore with ⟨length, split⟩
      refine ⟨by rw [length_append]; omega, ?_⟩
      rw [flatten_cons, split, append_assoc]

def consume (count : ℕ) : Buffers → Buffers
  | [] => []
  | buffer :: later => if count = buffer.length then later else buffer.drop count :: later

theorem flatten_consume {buffer : Bytes} (later : Buffers) (count : ℕ) :
    (buffer :: later).flatten = buffer.take count ++ (consume count (buffer :: later)).flatten := by
  rw [consume]
  split_ifs with whole
  · rw [whole, take_length, flatten_cons]
  · rw [flatten_cons, flatten_cons, ← append_assoc, take_append_drop]

/-- An inflater: what it has seen so far, and what it makes of the next buffer. It says how many
bytes of the buffer it used and whether the compressed stream has ended. -/
class Inflater where
  State : Type
  reset : State
  decompress : State → Bytes → Except String (State × ℕ × Bool)
  /-- How many bytes have been inflated. -/
  totalOut : State → ℕ

inductive EntryHeader where
  | full (kind : Kind)
  | ofsDelta (baseDistance : ℕ)
  | refDelta (baseId : ObjectId)
  deriving DecidableEq, Repr

def EntryHeader.typeId : EntryHeader → UInt8
  | .full .commit => 1
  | .full .tree => 2
  | .full .blob => 3
  | .full .tag => 4
  | .ofsDelta _ => 6
  | .refDelta _ => 7

structure PackReader where
  inner : Buffers
  /-- The bytes accepted so far, for a reader that keeps them. -/
  kept : Option Bytes
  /-- The bytes hashed so far. -/
  hashed : Bytes
  offset : ℕ
  deriving DecidableEq, Repr

namespace PackReader

def retaining (inner : Buffers) : PackReader where
  inner
  kept := some []
  hashed := []
  offset := 0

def keep (kept : Option Bytes) (bytes : Bytes) : Option Bytes :=
  kept.map (· ++ bytes)

def accept (reader : PackReader) (bytes : Bytes) (left : Buffers) : PackReader where
  inner := left
  kept := keep reader.kept bytes
  hashed := reader.hashed ++ bytes
  offset := reader.offset + bytes.length

def readExactHashing (count : ℕ) (reader : PackReader) : Except String (Bytes × PackReader) :=
  match readExact count reader.inner with
  | none => .error "read: early eof"
  | some (bytes, left) => .ok (bytes, reader.accept bytes left)

def readU8Hashing (reader : PackReader) : Except String (UInt8 × PackReader) := do
  let (bytes, reader) ← readExactHashing 1 reader
  pure (bytes.headD 0, reader)

def readPackHeader (reader : PackReader) : Except String (ℕ × PackReader) := do
  let (header, reader) ← readExactHashing 12 reader
  if header.take 4 ≠ [80, 65, 67, 75] then .error "pack missing PACK magic"
  else
    let version := ofBe ((header.drop 4).take 4)
    if version ≠ 2 then .error s!"unsupported pack version {version}"
    else pure (ofBe ((header.drop 8).take 4), reader)

/-- Read further groups of a size while the last byte asks for another. The shift refuses the
eleventh byte, so ten rounds are enough. -/
def readSize : ℕ → ℕ → ℕ → UInt8 → PackReader → Except String (ℕ × PackReader)
  | rounds, size, shift, cur, reader =>
    if cur &&& 0x80 = 0 then .ok (size, reader)
    else
      match rounds with
      | 0 => .error "entry size overflow"
      | rounds + 1 => do
          let (cur, reader) ← readU8Hashing reader
          if 64 ≤ shift then .error "entry size overflow"
          else
            -- `checked_shl` checks the amount, not what is shifted out of the word.
            let bits := (cur.toNat &&& 0x7f) <<< shift % 2 ^ 64
            if 2 ^ 64 ≤ size + bits then .error "entry size overflow"
            else readSize rounds (size + bits) (shift + 7) cur reader

/-- Read further bytes of a distance while the last one asks for another. Each takes a byte off
the stream, so there are no more rounds than bytes. -/
def readDistance : ℕ → ℕ → UInt8 → PackReader → Except String (ℕ × PackReader)
  | rounds, value, cur, reader =>
    if cur &&& 0x80 = 0 then .ok (value, reader)
    else
      match rounds with
      | 0 => .error "read: early eof"
      | rounds + 1 => do
          let (cur, reader) ← readU8Hashing reader
          if 2 ^ 64 ≤ value + 1 then .error "OFS_DELTA distance overflow"
          else
            let shifted := (value + 1) <<< 7 % 2 ^ 64
            let group := cur.toNat &&& 0x7f
            if 2 ^ 64 ≤ shifted + group then .error "OFS_DELTA distance overflow"
            else readDistance rounds (shifted + group) cur reader

def readOfsDeltaDistance (reader : PackReader) : Except String (ℕ × PackReader) := do
  let (first, reader) ← readU8Hashing reader
  readDistance reader.inner.flatten.length (first.toNat &&& 0x7f) first reader

def readEntryHeader (reader : PackReader) : Except String ((EntryHeader × ℕ) × PackReader) := do
  let (first, reader) ← readU8Hashing reader
  let typeId := (first >>> 4) &&& 0x07
  let (size, reader) ← readSize 10 (first.toNat &&& 0x0f) 4 first reader
  if typeId = 1 then pure ((.full .commit, size), reader)
  else if typeId = 2 then pure ((.full .tree, size), reader)
  else if typeId = 3 then pure ((.full .blob, size), reader)
  else if typeId = 4 then pure ((.full .tag, size), reader)
  else if typeId = 6 then do
    let (baseDistance, reader) ← readOfsDeltaDistance reader
    pure ((.ofsDelta baseDistance, size), reader)
  else if typeId = 7 then do
    let (sha, reader) ← readExactHashing 20 reader
    pure ((.refDelta (Fields.ofLe sha), size), reader)
  else .error s!"unknown pack entry type {typeId.toNat}"

/-- Hand the inflater one buffer after another until the compressed stream ends. Nothing is
returned when the rounds run out first. -/
def inflateOn [Inflater] : ℕ → Inflater.State → PackReader →
    Option (Except String (Inflater.State × PackReader))
  | 0, _, _ => none
  | rounds + 1, state, reader =>
    match reader.inner with
    | [] => some (.error "unexpected EOF in compressed entry")
    | buffer :: _ =>
      if buffer.isEmpty then some (.error "unexpected EOF in compressed entry")
      else
        match Inflater.decompress state buffer with
        | .error message => some (.error s!"zlib: {message}")
        | .ok (state, consumed, ended) =>
          if buffer.length < consumed then some (.error "consumed exceeds buf len")
          else
            let reader := reader.accept (buffer.take consumed) (consume consumed reader.inner)
            if ended then some (.ok (state, reader)) else inflateOn rounds state reader

def skipEntryBody [Inflater] (rounds expectedSize : ℕ) (reader : PackReader) :
    Option (Except String PackReader) :=
  (inflateOn rounds Inflater.reset reader).map fun inflated => do
    let (state, reader) ← inflated
    let produced := Inflater.totalOut state
    if produced ≠ expectedSize then
      .error s!"decompressed size mismatch: expected {expectedSize}, got {produced}"
    else pure reader

def verifyTrailer (sha1 : Bytes → Bytes) (reader : PackReader) : Except String PackReader :=
  match readExact 20 reader.inner with
  | none => .error "read pack trailer: early eof"
  | some (trailer, left) =>
    if sha1 reader.hashed ≠ trailer then .error "pack checksum mismatch"
    else .ok { reader with inner := left, kept := keep reader.kept trailer }

/-! ## What is accepted -/

/-- One reader has come to where another one is by accepting these bytes. -/
structure Accepts (reader : PackReader) (bytes : Bytes) (after : PackReader) : Prop where
  inner : reader.inner.flatten = bytes ++ after.inner.flatten
  kept : after.kept = keep reader.kept bytes
  hashed : after.hashed = reader.hashed ++ bytes
  offset : after.offset = reader.offset + bytes.length

variable {reader after : PackReader} {bytes : Bytes}

theorem Accepts.refl (reader : PackReader) : reader.Accepts [] reader where
  inner := rfl
  kept := by simp [keep]
  hashed := (append_nil _).symm
  offset := rfl

theorem Accepts.trans {middle : PackReader} {first second : Bytes}
    (left : reader.Accepts first middle) (right : middle.Accepts second after) :
    reader.Accepts (first ++ second) after where
  inner := by rw [left.inner, right.inner, append_assoc]
  kept := by rw [right.kept, left.kept, keep, keep, keep, Option.map_map]; simp [Function.comp_def]
  hashed := by rw [right.hashed, left.hashed, append_assoc]
  offset := by rw [right.offset, left.offset, length_append, Nat.add_assoc]

theorem accepts_accept {left : Buffers} (split : reader.inner.flatten = bytes ++ left.flatten) :
    reader.Accepts bytes (reader.accept bytes left) :=
  ⟨split, rfl, rfl, rfl⟩

theorem readExactHashing_eq_ok {count : ℕ}
    (read : readExactHashing count reader = .ok (bytes, after)) :
    bytes.length = count ∧ reader.Accepts bytes after := by
  rw [readExactHashing] at read
  split at read
  next => cases read
  next taken left isRead =>
    cases read
    rcases readExact_eq_some isRead with ⟨length, split⟩
    exact ⟨length, accepts_accept split⟩

theorem readU8Hashing_eq_ok {byte : UInt8} (read : readU8Hashing reader = .ok (byte, after)) :
    reader.Accepts [byte] after := by
  rcases Except.bind_eq_ok_iff.mp read with ⟨⟨taken, rest⟩, isRead, made⟩
  cases made
  rcases readExactHashing_eq_ok isRead with ⟨length, accepts⟩
  rcases length_eq_one_iff.mp length with ⟨only, rfl⟩
  exact accepts

/-! ## Sizes and distances -/

open Varint (encoded group denoted)

/-- The size the first bytes denote: four bits of the first, then groups of seven. -/
def denotedSize (data : Bytes) : ℕ :=
  match encoded data with
  | [] => 0
  | first :: groups => (first.toNat &&& 0x0f) +
      ∑ place ∈ Finset.range groups.length, group (groups.getD place 0) * 2 ^ (4 + 7 * place)

def offsetStep (value : ℕ) (byte : UInt8) : ℕ :=
  (value + 1) * 2 ^ 7 + group byte

def denotedOffset (data : Bytes) : ℕ :=
  match encoded data with
  | [] => 0
  | first :: groups => groups.foldl offsetStep (group first)

theorem denotedSize_eq {data groups : Bytes} {first : UInt8} (isEncoded : encoded data = first :: groups) :
    denotedSize data = (first.toNat &&& 0x0f) + denoted groups groups.length * 2 ^ 4 := by
  rw [denotedSize, isEncoded]
  dsimp only
  rw [denoted, Finset.sum_mul]
  congr 1
  refine Finset.sum_congr rfl fun place _ => ?_
  rw [pow_add]
  ring

/-- The bytes read after one that asked for another are the rest of its encoding, and what is read
is what they denote, less what leaves the word. -/
theorem readSize_eq_ok {rounds size shift result : ℕ} {cur : UInt8} (below : size < 2 ^ shift)
    (fits : size < 2 ^ 64) (read : readSize rounds size shift cur reader = .ok (result, after)) :
    ∃ groups, reader.Accepts groups after ∧
      (∀ rest, encoded (cur :: (groups ++ rest)) = cur :: groups) ∧
      result = (size + denoted groups groups.length * 2 ^ shift) % 2 ^ 64 := by
  induction rounds generalizing size shift cur reader with
  | zero =>
    rw [readSize] at read
    split_ifs at read with last
    cases read
    refine ⟨[], Accepts.refl _, fun rest => by rw [encoded, if_pos last], ?_⟩
    rw [length_nil, Varint.denoted_zero, Nat.zero_mul, Nat.add_zero, Nat.mod_eq_of_lt fits]
  | succ rounds ih =>
    rw [readSize] at read
    by_cases last : cur &&& 0x80 = 0
    · rw [if_pos last] at read
      cases read
      refine ⟨[], Accepts.refl _, fun rest => by rw [encoded, if_pos last], ?_⟩
      rw [length_nil, Varint.denoted_zero, Nat.zero_mul, Nat.add_zero, Nat.mod_eq_of_lt fits]
    rw [if_neg last] at read
    rcases Except.bind_eq_ok_iff.mp read with ⟨⟨next, middle⟩, readNext, read⟩
    have accepts := readU8Hashing_eq_ok readNext
    dsimp only at read
    by_cases tooFar : 64 ≤ shift
    · rw [if_pos tooFar] at read
      cases read
    rw [if_neg tooFar, Varint.add_shift_mod_eq below (by omega), if_neg (by omega)] at read
    change readSize rounds ((size + group next * 2 ^ shift) % 2 ^ 64) (shift + 7) next middle = _
      at read
    have grown : size + group next * 2 ^ shift < 2 ^ (shift + 7) := by
      have le : group next * 2 ^ shift ≤ 127 * 2 ^ shift :=
        Nat.mul_le_mul_right _ (Nat.le_of_lt_succ (Varint.group_lt next))
      rw [pow_add]
      omega
    rcases ih ((Nat.mod_le _ _).trans_lt grown) (Nat.mod_lt _ (by decide)) read with
      ⟨groups, acceptsMore, isEncoded, rfl⟩
    refine ⟨next :: groups, accepts.trans acceptsMore, fun rest => ?_, ?_⟩
    · rw [encoded, if_neg last, cons_append, isEncoded]
    · rw [length_cons, Varint.denoted_cons, Nat.mod_add_mod, pow_add]
      congr 1
      ring

theorem readDistance_eq_ok {rounds value result full : ℕ} {cur : UInt8}
    (isValue : value = full % 2 ^ 64)
    (read : readDistance rounds value cur reader = .ok (result, after)) :
    ∃ groups, reader.Accepts groups after ∧
      (∀ rest, encoded (cur :: (groups ++ rest)) = cur :: groups) ∧
      result = groups.foldl offsetStep full % 2 ^ 64 := by
  induction rounds generalizing value full cur reader with
  | zero =>
    rw [readDistance] at read
    split_ifs at read with last
    cases read
    exact ⟨[], Accepts.refl _, fun rest => by rw [encoded, if_pos last], isValue⟩
  | succ rounds ih =>
    rw [readDistance] at read
    by_cases last : cur &&& 0x80 = 0
    · rw [if_pos last] at read
      cases read
      exact ⟨[], Accepts.refl _, fun rest => by rw [encoded, if_pos last], isValue⟩
    rw [if_neg last] at read
    rcases Except.bind_eq_ok_iff.mp read with ⟨⟨next, middle⟩, readNext, read⟩
    have accepts := readU8Hashing_eq_ok readNext
    dsimp only at read
    by_cases atEnd : 2 ^ 64 ≤ value + 1
    · rw [if_pos atEnd] at read
      cases read
    rw [if_neg atEnd] at read
    by_cases overflows : 2 ^ 64 ≤ (value + 1) <<< 7 % 2 ^ 64 + (next.toNat &&& 0x7f)
    · rw [if_pos overflows] at read
      cases read
    rw [if_neg overflows] at read
    have stepped : (value + 1) <<< 7 % 2 ^ 64 + (next.toNat &&& 0x7f) =
        offsetStep full next % 2 ^ 64 := by
      have same : (full % 2 ^ 64 + 1) * 2 ^ 7 + group next ≡ offsetStep full next [MOD 2 ^ 64] :=
        (((Nat.mod_modEq full _).add_right 1).mul_right _).add_right _
      rw [← Nat.mod_eq_of_lt (not_le.mp overflows), Nat.mod_add_mod, Nat.shiftLeft_eq, isValue]
      exact same
    rcases ih stepped read with ⟨groups, acceptsMore, isEncoded, rfl⟩
    refine ⟨next :: groups, accepts.trans acceptsMore, fun rest => ?_, rfl⟩
    rw [encoded, if_neg last, cons_append, isEncoded]

/-! ## Headers of entries -/

def BaseRead : EntryHeader → Bytes → Prop
  | .full _, named => named = []
  | .ofsDelta distance, named => (∀ rest, encoded (named ++ rest) = named) ∧
      distance = denotedOffset named % 2 ^ 64
  | .refDelta baseId, named => named.length = 20 ∧ baseId = Fields.ofLe named

/-- The bytes of an entry's header and what is read from them: sizes and distances in the word. -/
structure HeaderRead (bytes : Bytes) (header : EntryHeader) (size : ℕ) : Prop where
  type : (bytes.headD 0 >>> 4) &&& 0x07 = header.typeId
  stable : ∀ rest, encoded (bytes ++ rest) = encoded bytes
  nonempty : encoded bytes ≠ []
  size : size = denotedSize bytes % 2 ^ 64
  base : ∃ named, bytes = encoded bytes ++ named ∧ BaseRead header named

theorem readOfsDeltaDistance_eq_ok {distance : ℕ}
    (read : readOfsDeltaDistance reader = .ok (distance, after)) :
    ∃ named, reader.Accepts named after ∧ BaseRead (.ofsDelta distance) named := by
  rcases Except.bind_eq_ok_iff.mp read with ⟨⟨first, middle⟩, readFirst, read⟩
  have accepts := readU8Hashing_eq_ok readFirst
  have isValue : group first = group first % 2 ^ 64 :=
    (Nat.mod_eq_of_lt ((Varint.group_lt first).trans (by decide))).symm
  rcases readDistance_eq_ok isValue read with ⟨groups, acceptsMore, isEncoded, rfl⟩
  refine ⟨first :: groups, accepts.trans acceptsMore, isEncoded, ?_⟩
  have whole := isEncoded []
  rw [append_nil] at whole
  rw [denotedOffset, whole]

theorem readEntryHeader_eq_ok {header : EntryHeader} {size : ℕ}
    (read : readEntryHeader reader = .ok ((header, size), after)) :
    ∃ bytes, reader.Accepts bytes after ∧ HeaderRead bytes header size := by
  rcases Except.bind_eq_ok_iff.mp read with ⟨⟨first, second⟩, readFirst, read⟩
  rcases Except.bind_eq_ok_iff.mp read with ⟨⟨number, third⟩, readNumber, read⟩
  dsimp only at readNumber read
  have small : (first.toNat &&& 0x0f) < 2 ^ 4 := Nat.lt_of_le_of_lt Nat.and_le_right (by decide)
  rcases readSize_eq_ok small (small.trans (by decide)) readNumber with
    ⟨groups, acceptsGroups, isEncoded, rfl⟩
  have acceptsSize := (readU8Hashing_eq_ok readFirst).trans acceptsGroups
  -- what comes after the size does not change what the size is
  have finish : ∀ named, third.Accepts named after → BaseRead header named →
      (first >>> 4) &&& 0x07 = header.typeId →
      size = ((first.toNat &&& 0x0f) + denoted groups groups.length * 2 ^ 4) % 2 ^ 64 →
      ∃ bytes, reader.Accepts bytes after ∧ HeaderRead bytes header size := by
    intro named acceptsNamed isBase isType isSize
    have isLead : encoded (first :: groups ++ named) = first :: groups := isEncoded named
    refine ⟨first :: groups ++ named, acceptsSize.trans acceptsNamed, isType, ?_, ?_, ?_, named, ?_,
      isBase⟩
    · intro rest
      rw [isLead, append_assoc]
      exact isEncoded (named ++ rest)
    · rw [isLead]
      exact cons_ne_nil _ _
    · rw [isSize, denotedSize_eq isLead]
    · rw [isLead]
  split_ifs at read with isCommit isTree isBlob isTag isOfs isRef
  · cases read
    exact finish [] (Accepts.refl _) rfl isCommit rfl
  · cases read
    exact finish [] (Accepts.refl _) rfl isTree rfl
  · cases read
    exact finish [] (Accepts.refl _) rfl isBlob rfl
  · cases read
    exact finish [] (Accepts.refl _) rfl isTag rfl
  · rcases Except.bind_eq_ok_iff.mp read with ⟨⟨distance, last⟩, readBase, made⟩
    cases made
    rcases readOfsDeltaDistance_eq_ok readBase with ⟨named, acceptsNamed, isBase⟩
    exact finish named acceptsNamed isBase isOfs rfl
  · rcases Except.bind_eq_ok_iff.mp read with ⟨⟨sha, last⟩, readBase, made⟩
    cases made
    rcases readExactHashing_eq_ok readBase with ⟨length, acceptsNamed⟩
    exact finish sha acceptsNamed ⟨length, rfl⟩ isRef rfl

theorem mod_eq_iff_lt (number : ℕ) : number % 2 ^ 64 = number ↔ number < 2 ^ 64 := by
  constructor
  · intro same
    rw [← same]
    exact Nat.mod_lt _ (by decide)
  · exact Nat.mod_eq_of_lt

end PackReader

end Enroute
