import Enroute.Packfile.EncodeDelta
import Mathlib.Logic.Relation

/-!
# The rolling hash of the encoder

The hash of a window is a polynomial in the multiplier whose coefficients are the window's bytes, so
rolling it takes the outgoing byte's term away exactly, whatever wraps. A match recomputes it. Near
the end of the target it is left as it was, and is not looked up any more.
-/

namespace Enroute.Delta

open List Varint

theorem foldl_blockHash (window : Bytes) (start : UInt32) :
    window.foldl (fun acc byte => acc * mult + byte.toUInt32) start =
      start * mult ^ window.length + blockHash window := by
  induction window generalizing start with
  | nil => simp [blockHash]
  | cons byte window ih =>
    rw [blockHash, foldl_cons, foldl_cons, ih, ih (0 * mult + byte.toUInt32),
      length_cons]
    grind

theorem roll_blockHash {window : Bytes} (full : window.length = block - 1)
    (outgoing incoming : UInt8) :
    roll (blockHash (outgoing :: window)) outgoing incoming = blockHash (window ++ [incoming]) := by
  have weight : outgoingWeight = mult ^ window.length := by
    rw [full]
    decide
  have shifted : blockHash (outgoing :: window) =
      outgoing.toUInt32 * mult ^ window.length + blockHash window := by
    rw [blockHash, foldl_cons, foldl_blockHash]
    grind
  have longer : blockHash (window ++ [incoming]) =
      blockHash window * mult + incoming.toUInt32 := by
    rw [blockHash, foldl_append]
    rfl
  rw [roll, weight, shifted, longer]
  grind

def windowAt (target : Bytes) (pos : ℕ) : Bytes :=
  (target.drop pos).take block

theorem hashAt_eq {target : Bytes} {pos : ℕ} (room : pos + block ≤ target.length) :
    hashAt target pos = blockHash (windowAt target pos) := by
  rw [hashAt, byteRange_of_le (Nat.le_add_right _ _) room, Nat.add_sub_cancel_left]
  rfl

theorem roll_windowAt {target : Bytes} {pos : ℕ} {outgoing incoming : UInt8}
    (isOutgoing : target[pos]? = some outgoing)
    (isIncoming : target[pos + block]? = some incoming) :
    roll (blockHash (windowAt target pos)) outgoing incoming =
      blockHash (windowAt target (pos + 1)) := by
  rcases List.getElem?_eq_some_iff.mp isOutgoing with ⟨outgoingLt, outgoingAt⟩
  rcases List.getElem?_eq_some_iff.mp isIncoming with ⟨incomingLt, incomingAt⟩
  have left : windowAt target pos = outgoing :: (target.drop (pos + 1)).take (block - 1) := by
    rw [windowAt, drop_eq_getElem_cons outgoingLt, outgoingAt]
    rfl
  have right : windowAt target (pos + 1) =
      (target.drop (pos + 1)).take (block - 1) ++ [incoming] := by
    have isLast : (target.drop (pos + 1))[block - 1]? = some incoming := by
      rw [List.getElem?_drop, ← isIncoming]
      rfl
    rw [windowAt, show block = block - 1 + 1 from rfl, take_add_one, isLast]
    rfl
  have full : ((target.drop (pos + 1)).take (block - 1)).length = block - 1 := by
    rw [length_take, length_drop]
    omega
  rw [left, right]
  exact roll_blockHash full outgoing incoming

def HashHolds (target : Bytes) (scan : Scan) : Prop :=
  scan.pos + block ≤ target.length → scan.hash = blockHash (windowAt target scan.pos)

theorem HashHolds.step {index : BlockIndex} {base target : Bytes} {scan next : Scan}
    (held : HashHolds target scan) (stepped : scanStep index base target scan = .ok next) :
    HashHolds target next := by
  intro room
  rw [scanStep] at stepped
  split at stepped
  · -- a match has been skipped, and the hash is computed anew
    split at stepped
    · cases stepped
    · rcases Except.bind_eq_ok_iff.mp stepped with ⟨copies, -, ⟨⟩⟩
      exact hashAt_eq room
  · rcases stepped with ⟨⟩
    have outgoingLt : scan.pos < target.length := by
      simp only at room
      omega
    have incomingLt : scan.pos + block < target.length := by
      simp only at room
      omega
    simp only [List.getElem?_eq_getElem outgoingLt, List.getElem?_eq_getElem incomingLt,
      held incomingLt.le]
    exact roll_windowAt (List.getElem?_eq_getElem outgoingLt) (List.getElem?_eq_getElem incomingLt)

def Iterates (base target : Bytes) (scan next : Scan) : Prop :=
  scan.pos < target.length ∧ scanStep (BlockIndex.build base) base target scan = .ok next

/-- Wherever the encoder gets to, it looks the hash of the window there up. -/
theorem hash_of_iterates {base target : Bytes} {scan : Scan}
    (reached : Relation.ReflTransGen (Iterates base target)
      { pending := 0, pos := 0, hash := hashAt target 0
        out := writeVarint base.length ++ writeVarint target.length } scan)
    (lookedUp : scan.pos + block ≤ target.length) :
    scan.hash = blockHash ((target.drop scan.pos).take block) := by
  suffices holds : HashHolds target scan from holds lookedUp
  clear lookedUp
  induction reached with
  | refl => exact hashAt_eq
  | tail _ iterates ih => exact ih.step iterates.2

def seventeen : Bytes := (List.range 17).map UInt8.ofNat

def rolledOnce : Scan where
  pending := 0
  pos := 1
  hash := roll (hashAt seventeen 0) 0 16
  out := [0, 17]

theorem hash_of_iterates_rolledOnce :
    rolledOnce.hash = blockHash ((seventeen.drop rolledOnce.pos).take block) := by
  have stepped : Iterates [] seventeen
      { pending := 0, pos := 0, hash := hashAt seventeen 0
        out := writeVarint ([] : Bytes).length ++ writeVarint seventeen.length } rolledOnce :=
    ⟨by decide, rfl⟩
  exact hash_of_iterates (.single stepped) (by decide)

end Enroute.Delta
