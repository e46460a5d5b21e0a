import Enroute.Core.Object
import Enroute.Lib.Except
import Enroute.Lib.Fields
import Enroute.Packfile.Varint

/-!
# Applying deltas

A delta rebuilds an object from a base: two sizes, then instructions that copy a range of the
base or insert bytes of their own. The absent bytes of a copy's offset and size are zero, and a
size of zero stands for `0x10000`.

What a run of instructions does is put as `Produces`: wherever it stands in a delta, it writes
the one text. Runs compose, so an encoder is right when each run it emits produces the stretch
of the target it stands for.
-/

namespace Enroute

open List

def maxObjectBytes : ℕ := 100 * 1024 * 1024

def byteRange (bytes : Bytes) (from_ upto : ℕ) : Option Bytes :=
  if from_ ≤ upto ∧ upto ≤ bytes.length then some ((bytes.drop from_).take (upto - from_)) else none

namespace Delta

/-- The result as it fills up: what is written and how many bytes are still to come. -/
structure Filling where
  written : Bytes
  room : ℕ

def Filling.writeAll (out : Filling) (src : Bytes) : Except String Filling :=
  if src.length ≤ out.room then .ok ⟨out.written ++ src, out.room - src.length⟩
  else .error "delta result buffer overflow: failed to write whole buffer"

def offsetFields : List (UInt8 × ℕ) :=
  [(0x01, 0), (0x02, 8), (0x04, 16), (0x08, 24)]

def sizeFields : List (UInt8 × ℕ) :=
  [(0x10, 0), (0x20, 8), (0x40, 16)]

def readBytes (cmd : UInt8) : List (UInt8 × ℕ) → Bytes → ℕ → Except String (ℕ × Bytes)
  | [], delta, value => .ok (value, delta)
  | (mask, shift) :: fields, delta, value =>
    if cmd &&& mask = 0 then readBytes cmd fields delta value
    else
      match delta with
      | [] => .error "delta copy instruction truncated"
      | byte :: delta => readBytes cmd fields delta (value ||| byte.toNat <<< shift)

def copyRange (base : Bytes) (ofs sz : ℕ) (out : Filling) : Except String Filling :=
  let sz := if sz = 0 then 0x10000 else sz
  match byteRange base ofs (ofs + sz) with
  | none => .error "delta copy range exceeds base"
  | some src => out.writeAll src

/-- Carry out the instruction that a command starts; what is left of the delta after it. -/
def applyInstruction (base : Bytes) (cmd : UInt8) (delta : Bytes) (out : Filling) :
    Except String (Bytes × Filling) :=
  if cmd &&& 0x80 ≠ 0 then do
    let (ofs, delta) ← readBytes cmd offsetFields delta 0
    let (sz, delta) ← readBytes cmd sizeFields delta 0
    let out ← copyRange base ofs sz out
    .ok (delta, out)
  else if cmd = 0 then .error "invalid delta command 0x00"
  else
    match byteRange delta 0 cmd.toNat with
    | none => .error "delta insert data truncated"
    | some src => do
        let out ← out.writeAll src
        .ok (delta.drop cmd.toNat, out)

/-- Carry out instructions until the delta ends. Every instruction takes a byte at least, so
the delta's own length is fuel enough (`applyLoop_of_le`). -/
def applyLoop (base : Bytes) : ℕ → Bytes → Filling → Except String Filling
  | _, [], out => .ok out
  | 0, _ :: _, _ => .error "out of fuel"
  | fuel + 1, cmd :: delta, out => do
      let (delta, out) ← applyInstruction base cmd delta out
      applyLoop base fuel delta out

end Delta

open Varint Delta in
def applyDelta (base delta : Bytes) : Except String Bytes := do
  let (baseSize, n) ← readVarint delta
  match byteRange delta n delta.length with
  | none => .error "delta truncated after base_size"
  | some delta =>
    if baseSize ≠ base.length then
      .error s!"delta base size mismatch: expected {baseSize}, got {base.length}"
    else do
      let (resultSize, n) ← readVarint delta
      match byteRange delta n delta.length with
      | none => .error "delta truncated after result_size"
      | some delta =>
        if maxObjectBytes < resultSize then .error s!"delta result too large: {resultSize}"
        else do
          let out ← applyLoop base delta.length delta ⟨[], resultSize⟩
          if out.room ≠ 0 then
            .error "delta instructions produced fewer bytes than promised"
          else .ok out.written

namespace Delta

/-! ## Fuel -/

theorem length_of_readBytes {cmd : UInt8} {fields : List (UInt8 × ℕ)} {delta rest : Bytes}
    {value result : ℕ} (read : readBytes cmd fields delta value = .ok (result, rest)) :
    rest.length ≤ delta.length := by
  induction fields generalizing delta value with
  | nil =>
    simp only [readBytes, Except.ok.injEq, Prod.mk.injEq] at read
    rw [read.2]
  | cons field fields ih =>
    rcases field with ⟨mask, shift⟩
    unfold readBytes at read
    split_ifs at read
    · exact ih read
    · cases delta with
      | nil => cases read
      | cons byte delta => exact (ih read).trans (Nat.le_succ _)

theorem length_of_applyInstruction {base delta rest : Bytes} {cmd : UInt8} {out filled : Filling}
    (applied : applyInstruction base cmd delta out = .ok (rest, filled)) :
    rest.length ≤ delta.length := by
  rw [applyInstruction] at applied
  split_ifs at applied
  · simp only [Except.bind_eq_ok_iff] at applied
    rcases applied with ⟨⟨ofs, afterOfs⟩, readOfs, ⟨sz, afterSz⟩, readSz, copied, -, same⟩
    simp only [Except.ok.injEq, Prod.mk.injEq] at same
    rw [← same.1]
    exact (length_of_readBytes readSz).trans (length_of_readBytes readOfs)
  · cases range : byteRange delta 0 cmd.toNat with
    | none =>
      rw [range] at applied
      cases applied
    | some src =>
      simp only [range, Except.bind_eq_ok_iff] at applied
      rcases applied with ⟨written, -, same⟩
      simp only [Except.ok.injEq, Prod.mk.injEq] at same
      rw [← same.1, length_drop]
      exact Nat.sub_le _ _

theorem applyLoop_of_le (base : Bytes) {fuel : ℕ} {delta : Bytes} (enough : delta.length ≤ fuel)
    (out : Filling) :
    applyLoop base fuel delta out = applyLoop base delta.length delta out := by
  induction fuel using Nat.strong_induction_on generalizing delta out with
  | h fuel ih =>
    cases delta with
    | nil => cases fuel <;> rfl
    | cons cmd delta =>
      cases fuel with
      | zero => cases enough
      | succ fuel =>
        rw [length_cons] at enough ⊢
        simp only [applyLoop]
        cases applied : applyInstruction base cmd delta out with
        | error message => rfl
        | ok next =>
          rcases next with ⟨rest, filled⟩
          have shorter := length_of_applyInstruction applied
          simp only [Except.ok_bind]
          rw [ih fuel (Nat.lt_succ_self fuel) (by omega),
            ih delta.length (by omega) shorter]

/-! ## What a run of instructions writes -/

def applyAll (base delta : Bytes) (out : Filling) : Except String Filling :=
  applyLoop base delta.length delta out

def Produces (base instructions text : Bytes) : Prop :=
  ∀ (rest : Bytes) (out : Filling), text.length ≤ out.room →
    applyAll base (instructions ++ rest) out =
      applyAll base rest ⟨out.written ++ text, out.room - text.length⟩

theorem produces_nil (base : Bytes) : Produces base [] [] := by
  intro rest out _
  simp

theorem Produces.append {base first second firstText secondText : Bytes}
    (firstProduces : Produces base first firstText)
    (secondProduces : Produces base second secondText) :
    Produces base (first ++ second) (firstText ++ secondText) := by
  intro rest out room
  rw [length_append] at room
  rw [append_assoc, firstProduces _ _ (by omega), secondProduces]
  · rw [append_assoc, length_append, Nat.sub_sub]
  · show secondText.length ≤ out.room - firstText.length
    omega

theorem produces_of_applyInstruction {base payload text : Bytes} {cmd : UInt8}
    (applies : ∀ (rest : Bytes) (out : Filling), text.length ≤ out.room →
      applyInstruction base cmd (payload ++ rest) out =
        .ok (rest, ⟨out.written ++ text, out.room - text.length⟩)) :
    Produces base (cmd :: payload) text := by
  intro rest out room
  have enough : rest.length ≤ (payload ++ rest).length := by
    rw [length_append]
    exact Nat.le_add_left _ _
  simp only [applyAll, cons_append, length_cons, applyLoop, applies rest out room,
    Except.ok_bind]
  exact applyLoop_of_le base enough _

theorem writeAll_of_le {out : Filling} {src : Bytes} (room : src.length ≤ out.room) :
    out.writeAll src = .ok ⟨out.written ++ src, out.room - src.length⟩ :=
  if_pos room

theorem byteRange_of_le {bytes : Bytes} {from_ upto : ℕ} (ordered : from_ ≤ upto)
    (inside : upto ≤ bytes.length) :
    byteRange bytes from_ upto = some ((bytes.drop from_).take (upto - from_)) :=
  if_pos ⟨ordered, inside⟩

end Delta

open Varint Delta in
theorem applyDelta_of_produces {base target instructions : Bytes}
    (baseSmall : base.length ≤ maxObjectBytes) (targetSmall : target.length ≤ maxObjectBytes)
    (produces : Produces base instructions target) :
    applyDelta base (writeVarint base.length ++ (writeVarint target.length ++ instructions)) =
      .ok target := by
  have wide : maxObjectBytes < 2 ^ 64 := by decide
  have afterBase (rest : Bytes) (size : ℕ) :
      byteRange (writeVarint size ++ rest) (writeVarint size).length
        (writeVarint size ++ rest).length = some rest := by
    rw [byteRange_of_le (by simp) le_rfl, drop_left, take_of_length_le (by simp)]
  have built : applyAll base instructions ⟨[], target.length⟩ = .ok ⟨target, 0⟩ := by
    have run := produces [] ⟨[], target.length⟩ le_rfl
    simpa [applyAll, applyLoop] using run
  rw [applyAll] at built
  rw [applyDelta, readVarint_writeVarint (by omega)]
  simp only [Except.ok_bind, afterBase, ne_eq, not_true_eq_false, if_false]
  rw [readVarint_writeVarint (by omega)]
  simp only [Except.ok_bind, afterBase, if_neg (Nat.not_lt.mpr targetSmall), built,
    not_true_eq_false, if_false]

end Enroute
