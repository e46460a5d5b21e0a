import Mathlib.Tactic

/-!
# Fixed-width fields in strings of bytes

Numbers as little-endian bytes of a fixed width, the slice of a string that a field takes, and
arrays of records that all take the same number of bytes. A record of such an array is found by its
position, and reading a part of the array gives that part of the records.
-/

namespace Enroute.Fields

open List

def toLe : ℕ → ℕ → List UInt8
  | 0, _ => []
  | width + 1, value => UInt8.ofNat value :: toLe width (value / 256)

def ofLe : List UInt8 → ℕ
  | [] => 0
  | byte :: bytes => byte.toNat + 256 * ofLe bytes

@[simp]
theorem length_toLe (width value : ℕ) : (toLe width value).length = width := by
  induction width generalizing value with
  | zero => rfl
  | succ width ih => rw [toLe, length_cons, ih]

theorem ofLe_lt (bytes : List UInt8) : ofLe bytes < 256 ^ bytes.length := by
  induction bytes with
  | nil => simp [ofLe]
  | cons byte bytes ih =>
    have small : byte.toNat < 256 := byte.toNat_lt
    rw [ofLe, length_cons, pow_succ]
    omega

theorem ofLe_toLe {width value : ℕ} (fits : value < 256 ^ width) :
    ofLe (toLe width value) = value := by
  induction width generalizing value with
  | zero =>
    rw [pow_zero, Nat.lt_one_iff] at fits
    rw [fits]
    rfl
  | succ width ih =>
    have rest : value / 256 < 256 ^ width := by
      rw [pow_succ] at fits
      omega
    rw [toLe, ofLe, ih rest, UInt8.toNat_ofNat']
    omega

def slice (bytes : List UInt8) (at_ len : ℕ) : Option (List UInt8) :=
  if at_ + len ≤ bytes.length then some ((bytes.drop at_).take len) else none

def field (width : ℕ) (bytes : List UInt8) (at_ : ℕ) : ℕ :=
  ((slice bytes at_ width).map ofLe).getD 0

/-- The records in a half-open window of an array, each read from its own bytes. -/
def readWindow {ε α : Type} (stride : ℕ) (truncated : ε) (read : List UInt8 → Except ε α)
    (bytes : List UInt8) (from_ upto : ℕ) : Except ε (List α) :=
  (List.range' from_ (upto - from_)).mapM fun position =>
    match slice bytes (position * stride) stride with
    | none => .error truncated
    | some chunk => read chunk

variable {bytes left right : List UInt8} {at_ len width value : ℕ}

theorem slice_eq_some_iff {found : List UInt8} :
    slice bytes at_ len = some found ↔
      at_ + len ≤ bytes.length ∧ (bytes.drop at_).take len = found := by
  simp [slice]

theorem length_of_slice {found : List UInt8} (sliced : slice bytes at_ len = some found) :
    found.length = len := by
  rcases slice_eq_some_iff.mp sliced with ⟨inside, rfl⟩
  rw [length_take, length_drop]
  omega

theorem slice_append_left (inside : at_ + len ≤ left.length) :
    slice (left ++ right) at_ len = slice left at_ len := by
  have longer : at_ + len ≤ (left ++ right).length := by
    rw [length_append]
    omega
  rw [slice, slice, if_pos inside, if_pos longer, drop_append_of_le_length (by omega),
    take_append_of_le_length (by rw [length_drop]; omega)]

theorem slice_append_right :
    slice (left ++ right) (left.length + at_) len = slice right at_ len := by
  simp only [slice, length_append, drop_append, drop_eq_nil_of_le
    (Nat.le_add_right left.length at_), nil_append, Nat.add_sub_cancel_left]
  congr 1
  exact propext ⟨fun inside => by omega, fun inside => by omega⟩

theorem slice_all (bytes : List UInt8) : slice bytes 0 bytes.length = some bytes := by
  simp [slice]

theorem slice_trans {inner found : List UInt8} {inside count : ℕ}
    (outer : slice bytes at_ len = some inner) (sliced : slice inner inside count = some found) :
    slice bytes (at_ + inside) count = some found := by
  rcases slice_eq_some_iff.mp outer with ⟨outerFits, rfl⟩
  rcases slice_eq_some_iff.mp sliced with ⟨innerFits, rfl⟩
  rw [length_take, length_drop] at innerFits
  refine slice_eq_some_iff.mpr ⟨by omega, ?_⟩
  rw [drop_take, take_take, drop_drop, Nat.min_eq_left (by omega)]

theorem field_lt (width : ℕ) (bytes : List UInt8) (at_ : ℕ) : field width bytes at_ < 256 ^ width := by
  rw [field]
  cases sliced : slice bytes at_ width with
  | none => simp
  | some found =>
    have bound := ofLe_lt found
    rwa [length_of_slice sliced] at bound

/-! ### A record of fields -/

theorem field_head (fits : value < 256 ^ width) :
    field width (toLe width value ++ right) 0 = value := by
  have whole := slice_all (toLe width value)
  rw [length_toLe] at whole
  rw [field, slice_append_left (by rw [length_toLe, zero_add]), whole, Option.map_some,
    Option.getD_some, ofLe_toLe fits]

theorem field_alone (fits : value < 256 ^ width) : field width (toLe width value) 0 = value := by
  have withRest : field width (toLe width value ++ []) 0 = value := field_head fits
  rwa [append_nil] at withRest

theorem field_skip {skipped : ℕ} (beyond : skipped ≤ at_) :
    field width (toLe skipped value ++ right) at_ = field width right (at_ - skipped) := by
  have placed : at_ = (toLe skipped value).length + (at_ - skipped) := by
    rw [length_toLe]
    omega
  rw [field, placed, slice_append_right, ← placed, field]

/-! ### Arrays of records -/

section Records

variable {Record : Type*} {write : Record → List UInt8} {stride : ℕ}

theorem length_flatMap (sized : ∀ record, (write record).length = stride) (records : List Record) :
    (records.flatMap write).length = records.length * stride := by
  induction records with
  | nil => simp
  | cons record records ih =>
    rw [flatMap_cons, length_append, ih, sized, length_cons, Nat.succ_mul,
      Nat.add_comm]

theorem slice_flatMap (sized : ∀ record, (write record).length = stride) {records : List Record}
    {position : ℕ} (inside : position < records.length) :
    slice (records.flatMap write) (position * stride) stride = some (write records[position]) := by
  induction records generalizing position with
  | nil => cases inside
  | cons record records ih =>
    rw [flatMap_cons]
    cases position with
    | zero =>
      have whole := slice_all (write record)
      rw [sized] at whole
      rw [Nat.zero_mul, slice_append_left (by rw [sized, zero_add]), whole]
      rfl
    | succ position =>
      have placed : (position + 1) * stride = (write record).length + position * stride := by
        rw [sized, Nat.succ_mul, Nat.add_comm]
      rw [placed, slice_append_right, ih (Nat.lt_of_succ_lt_succ inside)]
      rfl

theorem slice_records (sized : ∀ record, (write record).length = stride) {records : List Record}
    {position : ℕ} (inside : position < records.length) :
    slice (records.flatMap write ++ right) (position * stride) stride =
      some (write records[position]) := by
  rw [slice_append_left, slice_flatMap sized inside]
  rw [length_flatMap sized, ← Nat.succ_mul]
  exact Nat.mul_le_mul_right stride inside

theorem readWindow_records {ε α : Type} (sized : ∀ record, (write record).length = stride)
    {records : List Record} {from_ upto : ℕ} (inside : upto ≤ records.length)
    (read : List UInt8 → Except ε α) (truncated : ε) :
    readWindow stride truncated read (records.flatMap write ++ right) from_ upto =
      ((records.drop from_).take (upto - from_)).mapM fun record => read (write record) := by
  rw [readWindow]
  generalize isCount : upto - from_ = count
  induction count generalizing from_ with
  | zero => simp
  | succ count ih =>
    have here : from_ < records.length := by omega
    rw [List.range'_succ, drop_eq_getElem_cons here, take_succ_cons, mapM_cons,
      mapM_cons, slice_records sized here, ih (by omega)]

end Records

end Enroute.Fields
