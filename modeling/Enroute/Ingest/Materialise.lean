import Enroute.Core.Object
import Enroute.Lattice.Key
import Mathlib.Data.UInt

/-!
# The batches of a materialisation

What is to be encoded is cut into batches in one pass, which keeps where the open batch starts and
what its items cost so far. An item costs what it and its base hold together.
-/

namespace Enroute.Materialise

open List

structure Want where
  oid : ObjectId
  kind : Kind
  base : Option ObjectId
  deriving DecidableEq

def batchItems : ℕ := 256

def batchBytes : ℕ := 256 * 1024 * 1024

section Batches

variable (size : ObjectId → UInt64)

def cost (want : Want) : UInt64 :=
  size want.oid + want.base.elim 0 size

structure Cut where
  batches : List (List Want)
  start : ℕ
  bytes : ℕ

def cutAt (wants : List Want) (cut : Cut) (item : Want × ℕ) : Cut :=
  let (want, at_) := item
  let next := saturatingAdd cut.bytes (cost size want).toNat
  if batchItems ≤ at_ - cut.start ∨ cut.start < at_ ∧ batchBytes < next then
    { batches := cut.batches ++ [(wants.drop cut.start).take (at_ - cut.start)]
      start := at_
      bytes := saturatingAdd 0 (cost size want).toNat }
  else { cut with bytes := next }

def batches (wants : List Want) : List (List Want) :=
  let cut := wants.zipIdx.foldl (cutAt size wants) ⟨[], 0, 0⟩
  cut.batches ++ [wants.drop cut.start].filter (· ≠ [])

def held (want : Want) : ℕ :=
  (size want.oid).toNat + want.base.elim 0 fun base => (size base).toNat

def counted (run : List Want) : ℕ :=
  (run.map fun want => (cost size want).toNat).sum

/-- A batch as it is counted: few enough items, and few enough bytes unless it is one item. -/
structure Bounded (run : List Want) : Prop where
  items : run.length ≤ batchItems
  bytes : counted size run ≤ batchBytes ∨ run.length ≤ 1

/-- What the pass keeps: the batches so far are the items before the open one, which is bounded and
whose bytes are counted. -/
structure Cutting (done open_ : List Want) (cut : Cut) : Prop where
  flatten : cut.batches.flatten = done
  start : cut.start = done.length
  bytes : cut.bytes = min (counted size open_) max64
  bounded : Bounded size open_
  each : ∀ batch ∈ cut.batches, batch ≠ [] ∧ Bounded size batch

@[simp]
theorem counted_append (run : List Want) (want : Want) :
    counted size (run ++ [want]) = counted size run + (cost size want).toNat := by
  simp [counted]

theorem Cutting.step {done open_ : List Want} {cut : Cut} (cutting : Cutting size done open_ cut)
    (want : Want) (rest : List Want) :
    ∃ done' open', done' ++ open' = done ++ open_ ++ [want] ∧
      Cutting size done' open'
        (cutAt size (done ++ open_ ++ want :: rest) cut (want, (done ++ open_).length)) := by
  have length : (done ++ open_).length - cut.start = open_.length := by
    rw [cutting.start, length_append, Nat.add_sub_cancel_left]
  have begun : cut.start < (done ++ open_).length ↔ open_ ≠ [] := by
    rw [cutting.start, length_append, ← length_pos_iff]
    omega
  have next : saturatingAdd cut.bytes (cost size want).toNat =
      min (counted size (open_ ++ [want])) max64 := by
    rw [cutting.bytes, saturatingAdd, counted_append]
    omega
  simp only [cutAt, length, begun, next]
  split_ifs with full
  · have isOpen : ((done ++ open_ ++ want :: rest).drop cut.start).take open_.length = open_ := by
      rw [cutting.start, append_assoc, drop_left, take_left]
    have notEmpty : open_ ≠ [] := by
      rintro rfl
      rcases full with many | ⟨begun, -⟩
      · exact absurd many (by decide)
      · exact begun rfl
    refine ⟨done ++ open_, [want], rfl, ?_, rfl, ?_, ⟨by simp [batchItems], .inr le_rfl⟩, ?_⟩
    · rw [isOpen, flatten_append, cutting.flatten, flatten_singleton]
    · simp [counted, saturatingAdd]
    · rw [isOpen]
      intro batch listed
      rcases mem_append.mp listed with earlier | isLast
      · exact cutting.each batch earlier
      · rw [mem_singleton.mp isLast]
        exact ⟨notEmpty, cutting.bounded⟩
  · rw [not_or, not_and, Nat.not_le, Nat.not_lt] at full
    refine ⟨done, open_ ++ [want], (append_assoc _ _ _).symm, cutting.flatten, cutting.start,
      rfl, ⟨?_, ?_⟩, cutting.each⟩
    · rw [length_append]
      exact full.1
    · by_cases first : open_ = []
      · exact .inr (by simp [first])
      · have small := full.2 first
        rw [min_le_iff] at small
        exact .inl (small.resolve_right (by decide))

theorem cutting_foldl {done open_ : List Want} {cut : Cut} (cutting : Cutting size done open_ cut)
    (rest : List Want) :
    ∃ done' open', done' ++ open' = done ++ open_ ++ rest ∧
      Cutting size done' open' ((rest.zipIdx (done ++ open_).length).foldl
        (cutAt size (done ++ open_ ++ rest)) cut) := by
  induction rest generalizing done open_ cut with
  | nil => exact ⟨done, open_, by simp, cutting⟩
  | cons want rest ih =>
    rcases cutting.step size want rest with ⟨done', open', same, stepped⟩
    rcases ih stepped with ⟨done'', open'', whole, run⟩
    have length : (done' ++ open').length = (done ++ open_).length + 1 := by
      rw [same, length_append, length_singleton]
    have all : done' ++ open' ++ rest = done ++ open_ ++ want :: rest := by
      rw [same, append_assoc, singleton_append]
    rw [all] at whole run
    rw [length] at run
    exact ⟨done'', open'', whole, by rwa [zipIdx_cons, foldl_cons]⟩

theorem counted_eq {run : List Want} (fits : ∀ want ∈ run, held size want < 2 ^ 64) :
    counted size run = (run.map (held size)).sum := by
  refine congrArg List.sum (map_congr_left fun want listed => ?_)
  have small := fits want listed
  rw [held] at small
  cases isBase : want.base with
  | none => simp [cost, held, isBase]
  | some base =>
    rw [isBase] at small
    simpa [cost, held, isBase] using Nat.mod_eq_of_lt small

/-- The batches are the list cut up, none is empty, and each is bounded, its bytes as far as no
item's own sizes wrap. -/
theorem batches_spec (wants : List Want) :
    (batches size wants).flatten = wants ∧
    ∀ batch ∈ batches size wants, batch ≠ [] ∧ batch.length ≤ 256 ∧
      ((∀ want ∈ batch, held size want < 2 ^ 64) →
        (batch.map (held size)).sum ≤ 256 * 1024 * 1024 ∨ batch.length = 1) := by
  have start : Cutting size [] [] ⟨[], 0, 0⟩ :=
    ⟨rfl, rfl, rfl, ⟨by decide, .inr (by decide)⟩, by simp⟩
  rcases cutting_foldl size start wants with ⟨done, open_, whole, cutting⟩
  simp only [append_nil, nil_append, length_nil] at whole cutting
  have isOpen : wants.drop (wants.zipIdx.foldl (cutAt size wants) ⟨[], 0, 0⟩).start = open_ := by
    rw [cutting.start, ← whole, drop_left]
  refine ⟨?_, ?_⟩
  · rw [batches, isOpen, flatten_append, cutting.flatten, ← whole]
    by_cases empty : open_ = [] <;> simp [empty]
  · intro batch listed
    have bounded : batch ≠ [] ∧ Bounded size batch := by
      rw [batches, isOpen] at listed
      rcases mem_append.mp listed with earlier | isLast
      · exact cutting.each batch earlier
      · rcases mem_filter.mp isLast with ⟨isLast, notEmpty⟩
        rw [mem_singleton.mp isLast] at notEmpty ⊢
        exact ⟨by simpa using notEmpty, cutting.bounded⟩
    refine ⟨bounded.1, bounded.2.items, fun fits => ?_⟩
    rw [← counted_eq size fits]
    refine bounded.2.bytes.imp id fun atMost => ?_
    have := length_pos_iff.mpr bounded.1
    omega

end Batches

def halves (oid : ObjectId) : UInt64 :=
  if oid ≤ 2 then 2 ^ 63 else 1

theorem batches_halves :
    let wants : List Want := [⟨1, .blob, some 2⟩, ⟨3, .blob, none⟩]
    batches halves wants = [wants] ∧ (wants.map (held halves)).sum = 2 ^ 64 + 1 := by
  decide +kernel

end Enroute.Materialise
