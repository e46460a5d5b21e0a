import Enroute.Lattice.Key
import Enroute.Lib.Fields

/-!
# The bytes a segment is framed in

A header, a record per key, and a tail for whatever does not fit a fixed stride. The header says
where the keys begin and how many records and tail units follow, and it is checked against how many
bytes there really are. A record reaches into the tail by a four-byte offset; a blob there carries
its own length in front.
-/

namespace Enroute.Lattice

open Fields

abbrev U32 := Fin (2 ^ 32)

instance neZeroU32 : NeZero (2 ^ 32) :=
  ⟨by norm_num⟩

def tryU32 (value : ℕ) : Option U32 :=
  if fits : value < 2 ^ 32 then some ⟨value, fits⟩ else none

theorem tryU32_of_lt {value : ℕ} (fits : value < 2 ^ 32) : tryU32 value = some ⟨value, fits⟩ :=
  dif_pos fits

/-- The largest number in thirty-two bits, which an absent value is written as: no parent, no extra
parents, no commit in a slot, no blob in the tail. -/
def NONE : U32 :=
  ⟨2 ^ 32 - 1, by norm_num⟩

def field32 (bytes : List UInt8) (at_ : ℕ) : U32 :=
  ⟨field 4 bytes at_, (field_lt 4 bytes at_).trans_eq (by norm_num)⟩

/-- The largest number a catalog holds, which keeps a range as two signed integers. -/
def max63 : ℕ :=
  2 ^ 63 - 1

def HEADER : ℕ :=
  24

def VERSION : UInt8 :=
  1

structure Layout where
  /-- What the first four bytes say this is. -/
  magic : List UInt8
  /-- Bytes one record takes. -/
  record : ℕ
  /-- Bytes one element of the tail takes. -/
  unit : ℕ
  magic_length : magic.length = 4
  record_pos : 0 < record
  unit_pos : 0 < unit

structure Header where
  /-- The key the first record is for. -/
  first : ℕ
  records : ℕ
  /-- How many tail units follow the records. -/
  tail : ℕ
  deriving DecidableEq, Repr

/-- Which of the records fall inside a range, as a half-open window; nothing when the two do not
meet. -/
def Header.sliceOf (header : Header) (range : KeyRange) : Option (ℕ × ℕ) :=
  let last := header.first + (header.records - 1)
  if header.records = 0 ∨ max64 < last then none
  else if range.last < header.first ∨ last < range.first then none
  else some (min (max range.first header.first - header.first) header.records,
    min (min range.last last - header.first + 1) header.records)

section Window

variable {header : Header} {range : KeyRange} {from_ upto key : ℕ}

theorem sliceOf_bounds (sliced : header.sliceOf range = some (from_, upto)) :
    from_ ≤ upto ∧ upto ≤ header.records := by
  have ordered := range.ordered
  simp only [Header.sliceOf] at sliced
  split_ifs at sliced with none apart
  simp only [Option.some.injEq, Prod.mk.injEq] at sliced
  omega

theorem mem_sliceOf (nameable : header.first + (header.records - 1) ≤ max64)
    (wanted : range.contains key = true) (held : header.first ≤ key)
    (below : key < header.first + header.records) :
    ∃ from_ upto, header.sliceOf range = some (from_, upto) ∧
      from_ ≤ key - header.first ∧ key - header.first < upto := by
  rw [KeyRange.contains_iff] at wanted
  simp only [Header.sliceOf]
  rw [if_neg (by omega), if_neg (by omega)]
  refine ⟨_, _, rfl, ?_, ?_⟩ <;> omega

theorem contains_of_sliceOf (sliced : header.sliceOf range = some (from_, upto))
    (above : header.first + from_ ≤ key) (below : key < header.first + upto) :
    range.contains key = true := by
  simp only [Header.sliceOf] at sliced
  split_ifs at sliced with none apart
  simp only [Option.some.injEq, Prod.mk.injEq] at sliced
  rw [KeyRange.contains_iff]
  omega

theorem sliceOf_everything (nameable : header.first + (header.records - 1) ≤ max64)
    (some_ : 0 < header.records) :
    header.sliceOf .everything = some (0, header.records) := by
  have lowest : KeyRange.everything.first = 0 := rfl
  have highest : KeyRange.everything.last = max64 := rfl
  simp only [Header.sliceOf]
  rw [if_neg (by omega), if_neg (by omega), Option.some.injEq, Prod.mk.injEq]
  omega

end Window

inductive Frame where
  | short (length : ℕ)
  | magic (found wanted : List UInt8)
  | version (found : UInt8)
  | truncated (expected actual : ℕ)
  | unnameable (first : ℕ)
  deriving DecidableEq, Repr

def Frame.message : Frame → String
  | .short length => "a segment is at least " ++ toString HEADER ++ " bytes, and " ++
      toString length ++ " is not"
  | .magic found wanted => "a segment starting with " ++ toString found ++ ", where " ++
      toString wanted ++ " was wanted"
  | .version found => "this crate reads framing version " ++ toString VERSION ++ ", not " ++
      toString found
  | .truncated expected actual => "a header claiming " ++ toString expected ++
      " bytes of records and tail, over " ++ toString actual
  | .unnameable first => "a segment starting at " ++ toString first ++
      ", which no catalog could name"

def saturating (count : ℕ) : U32 :=
  (tryU32 count).getD NONE

def writeHeader (header : Header) (layout : Layout) : List UInt8 :=
  layout.magic ++ ([VERSION, 0, 0, 0] ++ (toLe 8 header.first ++
    (toLe 4 (saturating header.records) ++ toLe 4 (saturating header.tail))))

def Header.expected (header : Header) (layout : Layout) : ℕ :=
  saturatingAdd (saturatingAdd HEADER (saturatingMul header.records layout.record))
    (saturatingMul header.tail layout.unit)

def readHeader (bytes : List UInt8) (layout : Layout) : Except Frame Header :=
  match slice bytes 0 HEADER with
  | none => .error (.short bytes.length)
  | some head =>
    let version := head[4]?.getD 0
    let header : Header :=
      { first := field 8 head 8, records := field 4 head 16, tail := field 4 head 20 }
    if head.take 4 ≠ layout.magic then .error (.magic (head.take 4) layout.magic)
    else if version ≠ VERSION then .error (.version version)
    else if max63 < header.first then .error (.unnameable header.first)
    else if header.expected layout ≠ bytes.length then
      .error (.truncated (header.expected layout) bytes.length)
    else .ok header

section ReadBack

variable {header found : Header} {layout : Layout} {body : List UInt8}

@[simp]
theorem length_writeHeader : (writeHeader header layout).length = HEADER := by
  simp [writeHeader, layout.magic_length, HEADER]

theorem saturating_le (count : ℕ) : (saturating count : ℕ) ≤ count := by
  unfold saturating tryU32
  split_ifs with fits
  · exact le_rfl
  · simp only [Option.getD_none, NONE]
    omega

theorem expected_le : header.expected layout ≤
    HEADER + header.records * layout.record + header.tail * layout.unit := by
  simp only [Header.expected, saturatingAdd, saturatingMul]
  omega

theorem field_writeHeader (named : header.first ≤ max64) :
    field 8 (writeHeader header layout) 8 = header.first ∧
      field 4 (writeHeader header layout) 16 = saturating header.records ∧
      field 4 (writeHeader header layout) 20 = saturating header.tail := by
  have small : ∀ count, (saturating count : ℕ) < 256 ^ 4 :=
    fun count => (saturating count).isLt.trans_eq (by norm_num)
  have fits : header.first < 256 ^ 8 := named.trans_lt (by norm_num [max64])
  have skip : ∀ width at_ rest, field width (layout.magic ++ ([VERSION, 0, 0, 0] ++ rest)) (8 + at_) =
      field width rest at_ := by
    intro width at_ rest
    have placed : 8 + at_ = (layout.magic ++ [VERSION, 0, 0, 0]).length + at_ := by
      simp [layout.magic_length]
    rw [← List.append_assoc, placed, field, slice_append_right, field]
  refine ⟨?_, ?_, ?_⟩
  · rw [writeHeader, skip 8 0, field_head fits]
  · rw [writeHeader, skip 4 8, field_skip le_rfl, field_head (small _)]
  · rw [writeHeader, skip 4 12, field_skip (by norm_num), field_skip (by norm_num),
      field_alone (small _)]

theorem slice_writeHeader : slice (writeHeader header layout ++ body) 0 HEADER =
    some (writeHeader header layout) := by
  have whole := slice_all (writeHeader header layout)
  rw [length_writeHeader] at whole
  rw [slice_append_left (by rw [length_writeHeader, zero_add]), whole]

/-- A header read back over as many bytes as it was written for is the one that was written: counts
that were cut would not add up. -/
theorem eq_of_readHeader (named : header.first ≤ max64)
    (sized : body.length = header.records * layout.record + header.tail * layout.unit)
    (read : readHeader (writeHeader header layout ++ body) layout = .ok found) :
    found = header ∧ header.first ≤ max63 ∧ header.records < 2 ^ 32 ∧ header.tail < 2 ^ 32 := by
  rcases @field_writeHeader header layout named with ⟨firstIs, recordsIs, tailIs⟩
  simp only [readHeader, slice_writeHeader, firstIs, recordsIs, tailIs] at read
  split_ifs at read with wrongMagic wrongVersion tooFar wrongLength
  cases read
  rw [not_lt] at tooFar
  rw [not_not] at wrongLength
  -- The counts can only have been cut, so what they add up to tells whether they were.
  have bound := @expected_le
    { first := header.first, records := saturating header.records, tail := saturating header.tail }
    layout
  rw [wrongLength, List.length_append, length_writeHeader, sized] at bound
  have recordsLe := Nat.mul_le_mul_right layout.record (saturating_le header.records)
  have tailLe := Nat.mul_le_mul_right layout.unit (saturating_le header.tail)
  simp only at bound
  have recordsEq : (saturating header.records : ℕ) = header.records :=
    Nat.eq_of_mul_eq_mul_right layout.record_pos (by omega)
  have tailEq : (saturating header.tail : ℕ) = header.tail :=
    Nat.eq_of_mul_eq_mul_right layout.unit_pos (by omega)
  refine ⟨by rw [recordsEq, tailEq], tooFar, ?_, ?_⟩
  · exact recordsEq ▸ (saturating header.records).isLt
  · exact tailEq ▸ (saturating header.tail).isLt

theorem expected_eq (few : header.records * layout.record < 2 ^ 62)
    (short : header.tail * layout.unit < 2 ^ 62) :
    header.expected layout = HEADER + header.records * layout.record + header.tail * layout.unit := by
  simp only [Header.expected, saturatingAdd, saturatingMul, max64, HEADER]
  omega

theorem readHeader_writeHeader (named : header.first ≤ max63)
    (few : header.records < 2 ^ 32) (short : header.tail < 2 ^ 32)
    (recordSmall : layout.record ≤ 2 ^ 30) (unitSmall : layout.unit ≤ 2 ^ 30)
    (sized : body.length = header.records * layout.record + header.tail * layout.unit) :
    readHeader (writeHeader header layout ++ body) layout = .ok header := by
  have named64 : header.first ≤ max64 := named.trans (by norm_num [max63, max64])
  rcases @field_writeHeader header layout named64 with ⟨firstIs, recordsIs, tailIs⟩
  have magic : (writeHeader header layout).take 4 = layout.magic :=
    List.take_left' layout.magic_length
  have version : (writeHeader header layout)[4]?.getD 0 = VERSION := by
    rw [writeHeader, List.getElem?_append_right layout.magic_length.le, layout.magic_length]
    rfl
  have counts : ∀ {count : ℕ}, count < 2 ^ 32 → (saturating count).val = count := by
    intro count fits
    rw [saturating, tryU32_of_lt fits]
    rfl
  have bound : ∀ {count size : ℕ}, count < 2 ^ 32 → size ≤ 2 ^ 30 → count * size < 2 ^ 62 := by
    intro count size fits small
    calc count * size ≤ count * 2 ^ 30 := Nat.mul_le_mul_left count small
      _ < 2 ^ 62 := by omega
  simp only [readHeader, slice_writeHeader, magic, version, firstIs, recordsIs, tailIs, counts few,
    counts short]
  rw [if_neg (not_not.mpr rfl), if_neg (not_not.mpr rfl), if_neg (not_lt.mpr named), if_neg]
  rw [expected_eq (bound few recordSmall) (bound short unitSmall), List.length_append,
    length_writeHeader, sized, not_not, Nat.add_assoc]

end ReadBack

/-! ### Blobs in the tail -/

/-- Append a blob to the tail, and say where it went; an empty one goes nowhere. -/
def stow (blob tail : List UInt8) : U32 × List UInt8 :=
  if blob = [] then (NONE, tail)
  else ((tryU32 tail.length).getD NONE,
    tail ++ (toLe 4 ((tryU32 blob.length).getD 0 : U32) ++ blob))

theorem prefix_snd_stow (blob tail : List UInt8) : tail <+: (stow blob tail).2 := by
  unfold stow
  split_ifs
  · exact List.prefix_rfl
  · exact List.prefix_append _ _

def blobLength (at_ : U32) (tail : List UInt8) : Option U32 :=
  (slice tail at_.val 4).map fun _ => field32 tail at_.val

def fetchBlob (at_ : U32) (tail : List UInt8) : Option (List UInt8) :=
  if at_ = NONE then some []
  else match blobLength at_ tail with
    | none => none
    | some length => slice tail (at_.val + 4) length.val

theorem fetchBlob_stow {blob tail final : List UInt8} (grows : (stow blob tail).2 <+: final)
    (small : final.length < 2 ^ 32) : fetchBlob (stow blob tail).1 final = some blob := by
  unfold stow at grows ⊢
  split_ifs at grows ⊢ with empty
  · rw [empty, fetchBlob, if_pos rfl]
  · rcases grows with ⟨more, rfl⟩
    simp only [List.length_append, length_toLe] at small
    have offsetFits : tail.length < 2 ^ 32 := by omega
    have lengthFits : blob.length < 2 ^ 32 := by omega
    have lengthField : blob.length < 256 ^ 4 := lengthFits.trans_eq (by norm_num)
    have notNone : (⟨tail.length, offsetFits⟩ : U32) ≠ NONE := by
      intro same
      have := congrArg Fin.val same
      simp only [NONE] at this
      omega
    simp only [tryU32_of_lt offsetFits, tryU32_of_lt lengthFits, Option.getD_some,
      List.append_assoc]
    have word : slice (tail ++ (toLe 4 blob.length ++ (blob ++ more))) tail.length 4 =
        some (toLe 4 blob.length) := by
      have alone := slice_all (toLe 4 blob.length)
      rw [length_toLe] at alone
      have here := @slice_append_right tail (toLe 4 blob.length ++ (blob ++ more)) 0 4
      rw [Nat.add_zero] at here
      rw [here, slice_append_left (by rw [length_toLe]), alone]
    have body : slice (tail ++ (toLe 4 blob.length ++ (blob ++ more))) (tail.length + 4)
        blob.length = some blob := by
      have skipped := @slice_append_right (toLe 4 blob.length) (blob ++ more) 0 blob.length
      rw [length_toLe, Nat.add_zero] at skipped
      rw [slice_append_right, skipped, slice_append_left (by rw [Nat.zero_add]), slice_all]
    rw [fetchBlob, if_neg notNone, blobLength]
    simp only [word, Option.map_some, field32, field, Option.getD_some, ofLe_toLe lengthField, body]

end Enroute.Lattice
