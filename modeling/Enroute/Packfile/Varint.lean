import Mathlib.Tactic

/-!
# Unsigned LEB128

Seven bits to a byte, the least significant first, the high bit marking a continuation. Deltas
give their sizes so, and commit packs the headers of their entries.
-/

namespace Enroute.Varint

open List

def readFrom : List UInt8 → ℕ → ℕ → ℕ → Except String (ℕ × ℕ)
  | [], _, _, _ => .error "varint truncated"
  | byte :: data, at_, value, shift =>
    if 64 ≤ shift then .error "varint overflow"
    else
      -- A shift past the width drops the bits that leave the word.
      let value := value ||| (byte.toNat &&& 0x7f) <<< shift % 2 ^ 64
      if byte &&& 0x80 = 0 then .ok (value, at_ + 1) else readFrom data (at_ + 1) value (shift + 7)

def readVarint (data : List UInt8) : Except String (ℕ × ℕ) :=
  readFrom data 0 0 0

def writeGroups : ℕ → ℕ → List UInt8
  | 0, _ => []
  | groups + 1, value =>
    let byte := UInt8.ofNat (value &&& 0x7f)
    let value := value >>> 7
    if 0 < value then (byte ||| 0x80) :: writeGroups groups value else [byte]

def writeVarint (value : ℕ) : List UInt8 :=
  writeGroups 10 value

theorem length_writeGroups_le (groups value : ℕ) : (writeGroups groups value).length ≤ groups := by
  induction groups generalizing value with
  | zero => exact le_rfl
  | succ groups ih =>
    rw [writeGroups]
    split_ifs
    · exact Nat.succ_le_succ (ih _)
    · exact Nat.succ_le_succ (Nat.zero_le _)

theorem length_writeVarint_le (value : ℕ) : (writeVarint value).length ≤ 10 :=
  length_writeGroups_le 10 value

theorem toNat_ofNat_and (value : ℕ) : (UInt8.ofNat (value &&& 0x7f)).toNat = value % 128 := by
  have mask : value &&& 0x7f = value % 128 := Nat.and_two_pow_sub_one_eq_mod value 7
  rw [mask, UInt8.toNat_ofNat']
  omega

theorem group_of_last (value : ℕ) :
    ((UInt8.ofNat (value &&& 0x7f)).toNat &&& 0x7f = value % 128) ∧
      UInt8.ofNat (value &&& 0x7f) &&& 0x80 = 0 := by
  have small : value % 128 < 128 := Nat.mod_lt _ (by decide)
  have mask : value &&& 0x7f = value % 128 := Nat.and_two_pow_sub_one_eq_mod value 7
  rw [toNat_ofNat_and, mask]
  generalize value % 128 = group at small
  revert group
  decide

theorem group_of_continued (value : ℕ) :
    ((UInt8.ofNat (value &&& 0x7f) ||| 0x80).toNat &&& 0x7f = value % 128) ∧
      (UInt8.ofNat (value &&& 0x7f) ||| 0x80) &&& 0x80 ≠ 0 := by
  have small : value % 128 < 128 := Nat.mod_lt _ (by decide)
  have mask : value &&& 0x7f = value % 128 := Nat.and_two_pow_sub_one_eq_mod value 7
  rw [mask]
  generalize value % 128 = group at small
  revert group
  decide

variable {shift value at_ : ℕ} {data : List UInt8}

theorem or_shift_eq {group : ℕ} (below : value < 2 ^ shift) :
    value ||| group <<< shift = value + group * 2 ^ shift := by
  rw [Nat.or_comm, ← Nat.shiftLeft_add_eq_or_of_lt below, Nat.shiftLeft_eq, Nat.add_comm]

theorem readFrom_writeGroups {groups read : ℕ} {rest : List UInt8}
    (enough : value < 2 ^ (7 * groups)) (below : read < 2 ^ shift)
    (fits : read + value * 2 ^ shift < 2 ^ 64) (room : 7 * groups + shift ≤ 70) (some_ : 0 < groups) :
    readFrom (writeGroups groups value ++ rest) at_ read shift =
      .ok (read + value * 2 ^ shift, at_ + (writeGroups groups value).length) := by
  induction groups generalizing value at_ read shift with
  | zero => omega
  | succ groups ih =>
    have split : value % 128 + 128 * (value / 128) = value := Nat.mod_add_div value 128
    have shifted : value >>> 7 = value / 128 := Nat.shiftRight_eq_div_pow value 7
    have parts : read + value * 2 ^ shift =
        read + value % 128 * 2 ^ shift + value / 128 * 2 ^ (shift + 7) := by
      conv_lhs => rw [← split]
      rw [pow_add]
      ring
    have groupFits : value % 128 * 2 ^ shift < 2 ^ 64 := by
      have := Nat.zero_le (value / 128 * 2 ^ (shift + 7))
      omega
    have inside : ¬64 ≤ shift := by omega
    have readOn : read ||| ((value % 128) <<< shift % 2 ^ 64) =
        read + value % 128 * 2 ^ shift := by
      rw [Nat.mod_eq_of_lt (by rwa [Nat.shiftLeft_eq]), or_shift_eq below]
    rw [writeGroups]
    simp only [shifted]
    split_ifs with more
    · -- Another group follows.
      rcases group_of_continued value with ⟨group, continued⟩
      rw [cons_append, readFrom, if_neg inside]
      simp only [group, if_neg continued, readOn]
      have smallGroup : value % 128 < 128 := Nat.mod_lt _ (by decide)
      have groupsLeft : 0 < groups := by
        rcases Nat.eq_zero_or_pos groups with rfl | positive
        · omega
        · exact positive
      rw [ih ?_ ?_ ?_ (by omega) groupsLeft, parts, length_cons]
      · congr 2
        omega
      · rw [Nat.mul_succ, pow_add] at enough
        omega
      · have grown : value % 128 * 2 ^ shift ≤ 127 * 2 ^ shift :=
          Nat.mul_le_mul_right _ (by omega)
        rw [pow_add]
        omega
      · rwa [← parts]
    · rcases group_of_last value with ⟨group, last⟩
      have only : value / 128 = 0 := by omega
      rw [singleton_append, readFrom, if_neg inside]
      simp only [group, if_pos last, readOn, parts, only, zero_mul, add_zero,
        length_singleton]

theorem readVarint_writeVarint (fits : value < 2 ^ 64) (rest : List UInt8) :
    readVarint (writeVarint value ++ rest) = .ok (value, (writeVarint value).length) := by
  have read : readFrom (writeGroups 10 value ++ rest) 0 0 0 =
      .ok (0 + value * 2 ^ 0, 0 + (writeGroups 10 value).length) :=
    readFrom_writeGroups (by omega) (by omega) (by omega) (by omega) (by omega)
  simpa [readVarint, writeVarint] using read

/-! ## What the bytes denote -/

def group (byte : UInt8) : ℕ :=
  byte.toNat &&& 0x7f

def denoted (data : List UInt8) (count : ℕ) : ℕ :=
  ∑ place ∈ Finset.range count, group (data.getD place 0) * 2 ^ (7 * place)

theorem group_lt (byte : UInt8) : group byte < 128 :=
  Nat.lt_of_le_of_lt Nat.and_le_right (by decide)

@[simp]
theorem denoted_zero (data : List UInt8) : denoted data 0 = 0 :=
  rfl

theorem denoted_cons (byte : UInt8) (data : List UInt8) (count : ℕ) :
    denoted (byte :: data) (count + 1) = group byte + denoted data count * 2 ^ 7 := by
  rw [denoted, Finset.sum_range_succ', denoted, Finset.sum_mul, Nat.add_comm]
  congr 1
  · simp
  · refine Finset.sum_congr rfl fun place _ => ?_
    rw [getD_cons_succ, Nat.mul_succ, pow_add, mul_assoc]

theorem denoted_lt (data : List UInt8) (count : ℕ) : denoted data count < 2 ^ (7 * count) := by
  induction count with
  | zero => simp [denoted]
  | succ count ih =>
    have last : group (data.getD count 0) * 2 ^ (7 * count) ≤ 127 * 2 ^ (7 * count) :=
      Nat.mul_le_mul_right _ (Nat.le_of_lt_succ (group_lt _))
    rw [denoted, Finset.sum_range_succ, ← denoted, Nat.mul_succ, pow_add]
    omega

def encoded : List UInt8 → List UInt8
  | [] => []
  | byte :: data => if byte &&& 0x80 = 0 then [byte] else byte :: encoded data

def Encodes (data : List UInt8) (count : ℕ) : Prop :=
  ∃ lead last rest, data = lead ++ last :: rest ∧ lead.length + 1 = count ∧
    (∀ byte ∈ lead, byte &&& 0x80 ≠ 0) ∧ last &&& 0x80 = 0

theorem encodes_cons {byte : UInt8} {count : ℕ} (continued : byte &&& 0x80 ≠ 0)
    (encodes : Encodes data count) : Encodes (byte :: data) (count + 1) := by
  rcases encodes with ⟨lead, last, rest, rfl, rfl, continues, ends⟩
  exact ⟨byte :: lead, last, rest, rfl, rfl, forall_mem_cons.mpr ⟨continued, continues⟩, ends⟩

theorem add_shift_mod_eq {group : ℕ} (below : value < 2 ^ shift) (inside : shift < 64) :
    value + group <<< shift % 2 ^ 64 = (value + group * 2 ^ shift) % 2 ^ 64 := by
  have width : 2 ^ 64 = 2 ^ (64 - shift) * 2 ^ shift := by
    rw [← pow_add, Nat.sub_add_cancel inside.le]
  have kept : group <<< shift % 2 ^ 64 = group % 2 ^ (64 - shift) * 2 ^ shift := by
    rw [Nat.shiftLeft_eq, width, Nat.mul_mod_mul_right]
  have fits : value + group % 2 ^ (64 - shift) * 2 ^ shift < 2 ^ 64 := by
    have le : group % 2 ^ (64 - shift) + 1 ≤ 2 ^ (64 - shift) :=
      Nat.mod_lt _ (Nat.two_pow_pos _)
    calc value + group % 2 ^ (64 - shift) * 2 ^ shift
        < 2 ^ shift + group % 2 ^ (64 - shift) * 2 ^ shift := by omega
      _ = (group % 2 ^ (64 - shift) + 1) * 2 ^ shift := by ring
      _ ≤ 2 ^ (64 - shift) * 2 ^ shift := Nat.mul_le_mul_right _ le
      _ = 2 ^ 64 := width.symm
  have same : group % 2 ^ (64 - shift) * 2 ^ shift % 2 ^ 64 = group * 2 ^ shift % 2 ^ 64 := by
    rw [width, Nat.mul_mod_mul_right, Nat.mul_mod_mul_right, Nat.mod_mod]
  rw [kept, ← Nat.mod_eq_of_lt fits, Nat.add_mod, same, ← Nat.add_mod]

theorem or_shift_mod_eq {group : ℕ} (below : value < 2 ^ shift) (inside : shift < 64) :
    value ||| group <<< shift % 2 ^ 64 = (value + group * 2 ^ shift) % 2 ^ 64 := by
  have width : 2 ^ 64 = 2 ^ (64 - shift) * 2 ^ shift := by
    rw [← pow_add, Nat.sub_add_cancel inside.le]
  have kept : group <<< shift % 2 ^ 64 = (group % 2 ^ (64 - shift)) <<< shift := by
    rw [Nat.shiftLeft_eq, Nat.shiftLeft_eq, width, Nat.mul_mod_mul_right]
  rw [← add_shift_mod_eq below inside, kept, or_shift_eq below, Nat.shiftLeft_eq]

/-- What is read is what the bytes of one encoding denote, less what leaves the word. Only the
tenth byte can lose bits: an eleventh is not read. -/
theorem readFrom_eq_ok {result taken : ℕ} (below : value < 2 ^ shift) (place : shift = 7 * at_)
    (read : readFrom data at_ value shift = .ok (result, taken)) :
    ∃ count, taken = at_ + count ∧ taken ≤ 10 ∧ Encodes data count ∧
      result = (value + denoted data count * 2 ^ shift) % 2 ^ 64 := by
  induction data generalizing at_ value shift with
  | nil => cases read
  | cons byte data ih =>
    rw [readFrom] at read
    by_cases tooFar : 64 ≤ shift
    · rw [if_pos tooFar] at read
      cases read
    rw [if_neg tooFar] at read
    dsimp only at read
    rw [or_shift_mod_eq below (by omega)] at read
    split_ifs at read with last
    · cases read
      refine ⟨1, rfl, by omega, ⟨[], byte, data, rfl, rfl, by simp, last⟩, ?_⟩
      rw [denoted_cons]
      simp [denoted, group]
    · -- a tenth byte that continues is followed by nothing that is read
      have room : shift ≤ 56 := by
        by_contra beyond
        have at63 : shift = 63 := by omega
        subst at63
        cases data with
        | nil => cases read
        | cons next rest =>
          rw [readFrom, if_pos (by omega)] at read
          cases read
      have grown : value + group byte * 2 ^ shift < 2 ^ (shift + 7) := by
        have le : group byte * 2 ^ shift ≤ 127 * 2 ^ shift :=
          Nat.mul_le_mul_right _ (Nat.le_of_lt_succ (group_lt byte))
        rw [pow_add]
        omega
      have whole : (value + group byte * 2 ^ shift) % 2 ^ 64 = value + group byte * 2 ^ shift :=
        Nat.mod_eq_of_lt (grown.trans_le (Nat.pow_le_pow_right (by decide) (by omega)))
      change readFrom data (at_ + 1) ((value + group byte * 2 ^ shift) % 2 ^ 64) (shift + 7) = _
        at read
      rw [whole] at read
      rcases ih grown (by omega) read with ⟨count, rfl, le, encodes, rfl⟩
      refine ⟨count + 1, by omega, le, encodes_cons last encodes, ?_⟩
      rw [denoted_cons, pow_add]
      congr 1
      ring

theorem exists_readFrom {count : ℕ} (encodes : Encodes data count) (room : shift + 7 * count ≤ 70) :
    ∃ result, readFrom data at_ value shift = .ok (result, at_ + count) := by
  rcases encodes with ⟨lead, last, rest, rfl, rfl, continues, ends⟩
  induction lead generalizing at_ value shift with
  | nil =>
    rw [nil_append, readFrom, if_neg (by simp at room; omega)]
    exact ⟨_, if_pos ends⟩
  | cons byte lead ih =>
    rcases forall_mem_cons.mp continues with ⟨continued, continues⟩
    rw [length_cons] at room
    have goesOn : ∀ value, ∃ result, readFrom (lead ++ last :: rest) (at_ + 1) value (shift + 7) =
        .ok (result, at_ + 1 + (lead.length + 1)) := fun value => ih (by omega) continues
    rw [cons_append, readFrom, if_neg (by omega), if_neg continued, length_cons]
    rcases goesOn (value ||| (byte.toNat &&& 0x7f) <<< shift % 2 ^ 64) with ⟨result, read⟩
    exact ⟨result, read.trans (by rw [Nat.add_assoc at_, Nat.add_comm 1])⟩

theorem readVarint_eq_ok {taken : ℕ} (read : readVarint data = .ok (value, taken)) :
    taken ≤ 10 ∧ Encodes data taken ∧ value = denoted data taken % 2 ^ 64 := by
  rcases readFrom_eq_ok (by decide) rfl read with ⟨count, rfl, le, encodes, rfl⟩
  rw [Nat.zero_add] at le ⊢
  refine ⟨le, encodes, ?_⟩
  rw [Nat.zero_add, pow_zero, mul_one]

/-- A tenth byte that ends the encoding and has more than the one bit there is room for. -/
def TenthTooLarge (data : List UInt8) : Prop :=
  ∃ lead last rest, data = lead ++ last :: rest ∧ lead.length = 9 ∧
    (∀ byte ∈ lead, byte &&& 0x80 ≠ 0) ∧ last &&& 0x80 = 0 ∧ 1 < last.toNat

theorem group_of_ends {byte : UInt8} (ends : byte &&& 0x80 = 0) : group byte = byte.toNat := by
  have masked : byte.toNat &&& 0x80 = 0 := by
    have same := congrArg UInt8.toNat ends
    rwa [UInt8.toNat_and] at same
  have every : ∀ number : Fin 256, number.val &&& 0x80 = 0 → number.val &&& 0x7f = number.val := by
    decide +kernel
  exact every ⟨byte.toNat, byte.toNat_lt⟩ masked

theorem denoted_ten {lead rest : List UInt8} {last : UInt8} (nine : lead.length = 9) :
    denoted (lead ++ last :: rest) 10 =
      denoted (lead ++ last :: rest) 9 + group last * 2 ^ 63 := by
  have tenth : (lead ++ last :: rest).getD 9 0 = last := by
    rw [getD_eq_getElem?_getD, List.getElem?_append_right (by omega), nine]
    rfl
  rw [denoted, Finset.sum_range_succ, ← denoted, tenth]

/-- Every value is read back from what is written for it, whatever follows. What is read from a
list of bytes is the number they denote, in full, exactly when the list does not start with nine
bytes that continue and a tenth that ends the encoding with more than one bit. -/
theorem varint_exact (data : List UInt8) :
    (∀ value < 2 ^ 64, ∀ rest,
      readVarint (writeVarint value ++ rest) = .ok (value, (writeVarint value).length)) ∧
    ((∀ value taken, readVarint data = .ok (value, taken) →
        value = denoted data taken ∧ denoted data taken < 2 ^ 64) ↔ ¬TenthTooLarge data) := by
  refine ⟨fun value fits rest => readVarint_writeVarint fits rest, ?_, ?_⟩
  · rintro exact_ ⟨lead, last, rest, rfl, nine, continues, ends, tooLarge⟩
    have encodes : Encodes (lead ++ last :: rest) 10 :=
      ⟨lead, last, rest, rfl, by omega, continues, ends⟩
    have accepted : ∃ result, readFrom (lead ++ last :: rest) 0 0 0 = .ok (result, 0 + 10) :=
      exists_readFrom encodes (by omega)
    rcases accepted with ⟨result, read⟩
    have fits := (exact_ result 10 read).2
    rw [denoted_ten nine, group_of_ends ends] at fits
    omega
  · intro notTooLarge value taken read
    rcases readVarint_eq_ok read with ⟨atMostTen, encodes, rfl⟩
    have fits : denoted data taken < 2 ^ 64 := by
      by_cases ten : taken = 10
      · subst ten
        rcases encodes with ⟨lead, last, rest, rfl, length, continues, ends⟩
        have nine : lead.length = 9 := by omega
        have small : last.toNat ≤ 1 := by
          by_contra large
          exact notTooLarge ⟨lead, last, rest, rfl, nine, continues, ends, by omega⟩
        have before := denoted_lt (lead ++ last :: rest) 9
        rw [denoted_ten nine, group_of_ends ends]
        omega
      · exact (denoted_lt data taken).trans_le (Nat.pow_le_pow_right (by decide) (by omega))
    exact ⟨Nat.mod_eq_of_lt fits, fits⟩

/-- Nine empty groups and a tenth byte of two: the number is `2 ^ 64`, and nothing is read. -/
theorem varint_inexact :
    readVarint (List.replicate 9 0x80 ++ [2]) = .ok (0, 10) ∧
      denoted (List.replicate 9 0x80 ++ [2]) 10 = 2 ^ 64 := by
  decide

end Enroute.Varint
