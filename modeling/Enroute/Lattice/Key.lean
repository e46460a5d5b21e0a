import Mathlib.Tactic

/-!
# Key ranges

The dense key space segments are ranged over, and the inclusive ranges of it that segments cover.
Ranges of one set of segments are neither disjoint nor contiguous.
-/

namespace Enroute

def max64 : ℕ :=
  2 ^ 64 - 1

def saturatingAdd (left right : ℕ) : ℕ :=
  min (left + right) max64

def saturatingMul (left right : ℕ) : ℕ :=
  min (left * right) max64

namespace Lattice

structure KeyRange where
  first : ℕ
  last : ℕ
  ordered : first ≤ last
  bounded : last ≤ max64
  deriving DecidableEq, Repr

namespace KeyRange

def new (first last : ℕ) : Option KeyRange :=
  if bounds : first ≤ last ∧ last ≤ max64 then some ⟨first, last, bounds.1, bounds.2⟩ else none

def everything : KeyRange :=
  ⟨0, max64, Nat.zero_le _, le_rfl⟩

def contains (range : KeyRange) (key : ℕ) : Bool :=
  range.first ≤ key && key ≤ range.last

def overlaps (range other : KeyRange) : Bool :=
  range.first ≤ other.last && other.first ≤ range.last

def hull (range other : KeyRange) : KeyRange where
  first := min range.first other.first
  last := max range.last other.last
  ordered := (min_le_left _ _).trans (range.ordered.trans (le_max_left _ _))
  bounded := max_le range.bounded other.bounded

theorem new_eq_some_iff {first last : ℕ} {range : KeyRange} :
    new first last = some range ↔ range.first = first ∧ range.last = last := by
  unfold new
  split_ifs with bounds
  · rcases range with ⟨from_, upto, ordered, bounded⟩
    simp [eq_comm]
  · refine iff_of_false nofun ?_
    rintro ⟨rfl, rfl⟩
    exact bounds ⟨range.ordered, range.bounded⟩

theorem contains_iff {range : KeyRange} {key : ℕ} :
    range.contains key = true ↔ range.first ≤ key ∧ key ≤ range.last := by
  simp [contains]

theorem overlaps_of_contains {range other : KeyRange} {key : ℕ}
    (inRange : range.contains key = true) (inOther : other.contains key = true) :
    range.overlaps other = true := by
  rw [contains_iff] at inRange inOther
  simp only [overlaps, Bool.and_eq_true, decide_eq_true_eq]
  omega

end KeyRange

end Lattice

end Enroute
