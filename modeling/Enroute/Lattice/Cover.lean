import Enroute.Lattice.Cluster
import Enroute.Lib.Lists

/-!
# What a cover of scattered keys is worth

The ranges of a scattered read are a cover of the keys asked for: in order, apart, from one key
asked for to another, with every key in exactly one of them. The test whether a split is worth its
reads is made with saturating arithmetic on both sides. Where the keys span as much as sixty-four
bits hold, a product that is too large is cut down to the span it should have been compared with, so
such a split always passes.
-/

namespace Enroute.Lattice

open Cluster List

namespace Cluster

variable {sorted : List ℕ}

theorem mem_sortedKeys {keys : List UInt64} {key : ℕ} :
    key ∈ sortedKeys keys ↔ ∃ asked ∈ keys, asked.toNat = key := by
  rw [sortedKeys, Lists.mem_destutter_ne, mem_insertionSort, mem_map]

theorem sortedKeys_eq_nil {keys : List UInt64} : sortedKeys keys = [] ↔ keys = [] := by
  constructor
  · intro none_
    refine eq_nil_iff_forall_not_mem.mpr fun key asked => ?_
    have listed : key.toNat ∈ sortedKeys keys := mem_sortedKeys.mpr ⟨key, asked, rfl⟩
    rw [none_] at listed
    cases listed
  · rintro rfl
    rfl

/-- Ranges that cover keys: in order and apart, each from a key to a key, none left out. -/
structure CoversKeys (sorted : List ℕ) (ranges : List KeyRange) : Prop where
  apart : ranges.Pairwise fun range later => range.last < later.first
  ends : ∀ range ∈ ranges, range.first ∈ sorted ∧ range.last ∈ sorted
  covered : ∀ key ∈ sorted, ∃ range ∈ ranges, range.contains key = true

theorem keyAt_mem {position : ℕ} (inside : position < sorted.length) :
    keyAt sorted position ∈ sorted := by
  rw [keyAt, getD_eq_getElem _ _ inside]
  exact getElem_mem inside

theorem Ordered.rangesFrom_covers (ordered : Ordered sorted) {from_ last : ℕ} {cuts : List ℕ}
    (rising : cuts.Pairwise (· < ·)) (above : ∀ cut ∈ cuts, from_ ≤ cut)
    (below : ∀ cut ∈ cuts, cut < last) (start : from_ ≤ last) (inside : last < sorted.length) :
    let ranges := rangesFrom sorted from_ (cuts ++ [last])
    (ranges.Pairwise fun range later => range.last < later.first) ∧
      (∀ range ∈ ranges, keyAt sorted from_ ≤ range.first ∧ range.first ∈ sorted ∧
        range.last ∈ sorted) ∧
      ∀ position, from_ ≤ position → position ≤ last →
        ∃ range ∈ ranges, range.contains (keyAt sorted position) = true := by
  induction cuts generalizing from_ with
  | nil =>
    rcases ordered.rangeBetween_ends start inside with ⟨range, isRange, first, isLast⟩
    simp only [nil_append, rangesFrom, isRange, append_nil, pairwise_singleton,
      mem_singleton, forall_eq, exists_eq_left, true_and]
    rw [first, isLast]
    refine ⟨⟨le_rfl, keyAt_mem (start.trans_lt inside), keyAt_mem inside⟩,
      fun position from_le le_last => ?_⟩
    rw [KeyRange.contains_iff, first, isLast]
    exact ⟨ordered.keyAt_le from_le (le_last.trans_lt inside), ordered.keyAt_le le_last inside⟩
  | cons cut cuts ih =>
    rcases pairwise_cons.mp rising with ⟨later, rising⟩
    rcases forall_mem_cons.mp above with ⟨fromLe, -⟩
    rcases forall_mem_cons.mp below with ⟨cutLt, below⟩
    have cutInside := cutLt.trans inside
    rcases ordered.rangeBetween_ends fromLe cutInside with ⟨range, isRange, first, isLast⟩
    rcases @ih (cut + 1) rising (fun next listed => later next listed) below cutLt with
      ⟨apart, ends, covered⟩
    have gap := ordered.keyAt_lt (Nat.lt_add_one cut) (by omega)
    have first_le := ordered.keyAt_le fromLe cutInside
    simp only [cons_append, rangesFrom, isRange, nil_append]
    refine ⟨pairwise_cons.mpr ⟨fun next listed => ?_, apart⟩, ?_, ?_⟩
    · have := (ends next listed).1
      omega
    · refine forall_mem_cons.mpr ⟨?_, fun next listed => ?_⟩
      · rw [first, isLast]
        exact ⟨le_rfl, keyAt_mem (fromLe.trans_lt cutInside), keyAt_mem cutInside⟩
      · rcases ends next listed with ⟨fromNext, both⟩
        exact ⟨by omega, both⟩
    · intro position from_le le_last
      -- A position up to the cut is in the first range, any other is behind it.
      by_cases early : position ≤ cut
      · refine ⟨range, mem_cons_self, ?_⟩
        rw [KeyRange.contains_iff, first, isLast]
        exact ⟨ordered.keyAt_le from_le (early.trans_lt cutInside),
          ordered.keyAt_le early cutInside⟩
      · rcases covered position (by omega) le_last with ⟨next, listed, contains⟩
        exact ⟨next, mem_cons_of_mem _ listed, contains⟩

theorem Ordered.coversKeys_rangesFrom (ordered : Ordered sorted) {cuts : List ℕ}
    (rising : cuts.Pairwise (· < ·)) (below : ∀ cut ∈ cuts, cut < sorted.length - 1)
    (some_ : sorted ≠ []) :
    CoversKeys sorted (rangesFrom sorted 0 (cuts ++ [sorted.length - 1])) := by
  have positive : 0 < sorted.length := length_pos_iff.mpr some_
  rcases ordered.rangesFrom_covers rising (fun _ _ => Nat.zero_le _) below (Nat.zero_le _)
    (show sorted.length - 1 < sorted.length by omega) with ⟨apart, ends, covered⟩
  refine ⟨apart, fun range listed => (ends range listed).2, fun key listed => ?_⟩
  rcases mem_iff_getElem.mp listed with ⟨position, inside, rfl⟩
  have isKey : keyAt sorted position = sorted[position] := getD_eq_getElem _ _ inside
  exact isKey ▸ covered position (Nat.zero_le _) (by omega)

theorem hullOf_eq (sorted : List ℕ) :
    hullOf sorted = rangesFrom sorted 0 ([] ++ [sorted.length - 1]) := by
  simp only [hullOf, nil_append, rangesFrom, append_nil, rangeBetween,
    List.head?_eq_getElem?, List.getLast?_eq_getElem?]

theorem Ordered.length_hullOf (ordered : Ordered sorted) (some_ : sorted ≠ []) :
    (hullOf sorted).length = 1 := by
  rcases ordered.rangeBetween_ends (Nat.zero_le _)
    (Nat.sub_one_lt_of_lt (length_pos_iff.mpr some_)) with ⟨range, isRange, -⟩
  rw [hullOf_eq, nil_append, rangesFrom, isRange]
  rfl

def hullWidth (sorted : List ℕ) : ℕ :=
  match sorted.head?, sorted.getLast? with
  | some first, some last => last - first + 1
  | _, _ => 0

theorem hullSpan_eq (sorted : List ℕ) : hullSpan sorted = min (hullWidth sorted) max64 := by
  rw [hullSpan, hullWidth]
  cases sorted.head? <;> cases sorted.getLast? <;> rfl

end Cluster

/-- A cover of keys by at most so many ranges, computed without leaving sixty-four bits and worth
its reads. -/
structure SoundCover (keys : List UInt64) (most : ℕ) : Prop where
  /-- No difference of neighbours goes below zero. -/
  rising : (sortedKeys keys).Pairwise (· < ·)
  /-- The spans are added up for a split only, and then fit with their sum. -/
  fits : 2 ≤ (split (sortedKeys keys) most).length →
    totalSpan (split (sortedKeys keys) most) ≤ max64
  empty_iff : cluster keys most = [] ↔ keys = []
  few : (cluster keys most).length ≤ most
  apart : (cluster keys most).Pairwise fun range later => range.last < later.first
  asked : ∀ range ∈ cluster keys most,
    (∃ key ∈ keys, key.toNat = range.first) ∧ ∃ key ∈ keys, key.toNat = range.last
  inOne : ∀ key ∈ keys, ∃! range, range ∈ cluster keys most ∧ range.contains key.toNat = true
  worth : 2 ≤ (cluster keys most).length →
    (cluster keys most).length * totalSpan (cluster keys most) ≤ hullWidth (sortedKeys keys)

section Cover

variable {keys : List UInt64} {most : ℕ}

theorem cluster_eq (some_ : sortedKeys keys ≠ []) :
    cluster keys most =
      if worthSplitting (split (sortedKeys keys) most) (sortedKeys keys) then
        split (sortedKeys keys) most
      else hullOf (sortedKeys keys) := by
  rw [cluster, if_neg]
  exact fun isEmpty => some_ (List.isEmpty_iff.mp isEmpty)

theorem coversKeys_cluster (some_ : sortedKeys keys ≠ []) :
    CoversKeys (sortedKeys keys) (cluster keys most) := by
  have ordered := ordered_sortedKeys keys
  rw [cluster_eq some_]
  split_ifs
  · rcases split_eq (sortedKeys keys) most with ⟨cuts, isSplit, rising, below, -⟩
    rw [isSplit]
    exact ordered.coversKeys_rangesFrom rising below some_
  · rw [hullOf_eq]
    exact ordered.coversKeys_rangesFrom .nil nofun some_

theorem Cluster.CoversKeys.eq_of_contains {sorted : List ℕ} {ranges : List KeyRange}
    (covers : CoversKeys sorted ranges) {range other : KeyRange} {key : ℕ}
    (isRange : range ∈ ranges) (isOther : other ∈ ranges) (inRange : range.contains key = true)
    (inOther : other.contains key = true) : range = other := by
  rw [KeyRange.contains_iff] at inRange inOther
  have symmetric : Std.Symm fun range later : KeyRange =>
      range.last < later.first ∨ later.last < range.first := ⟨fun _ _ => Or.symm⟩
  by_contra distinct
  have apart := (covers.apart.imp (S := fun range later : KeyRange =>
    range.last < later.first ∨ later.last < range.first) Or.inl).forall isRange isOther distinct
  omega

theorem length_cluster_le (some_ : sortedKeys keys ≠ []) (positive : 1 ≤ most) :
    (cluster keys most).length ≤ most := by
  have ordered := ordered_sortedKeys keys
  have few : (widest (most - 1) (gapsFrom 0 (sortedKeys keys))).length ≤ most - 1 := by
    rw [(widest_perm _ _).length_eq]
    exact length_take_le _ _
  rw [cluster_eq some_]
  split_ifs
  · rw [(ordered.totalSpan_split most some_).1]
    omega
  · rw [ordered.length_hullOf some_]
    exact positive

theorem totalSpan_split_le (some_ : sortedKeys keys ≠ [])
    (several : 2 ≤ (split (sortedKeys keys) most).length) :
    totalSpan (split (sortedKeys keys) most) ≤ max64 := by
  have ordered := ordered_sortedKeys keys
  rcases ordered.totalSpan_split most some_ with ⟨count, total⟩
  have cuts : widest (most - 1) (gapsFrom 0 (sortedKeys keys)) ≠ [] := by
    intro nothing
    rw [nothing, length_nil] at count
    omega
  have left := cutOut_pos cuts
  have inside : (sortedKeys keys).length - 1 < (sortedKeys keys).length :=
    Nat.sub_one_lt_of_lt (length_pos_iff.mpr some_)
  have last := ordered.bounded _ (keyAt_mem inside)
  omega

/-- What passes the test is worth its reads, unless the keys span as much as sixty-four bits
hold. -/
theorem worth_iff (some_ : sortedKeys keys ≠ []) :
    (2 ≤ (cluster keys most).length → (cluster keys most).length * totalSpan (cluster keys most) ≤
      hullWidth (sortedKeys keys)) ↔
    (2 ≤ (split (sortedKeys keys) most).length → hullWidth (sortedKeys keys) < max64 ∨
      (split (sortedKeys keys) most).length * totalSpan (split (sortedKeys keys) most) ≤
        hullWidth (sortedKeys keys)) := by
  have tested := hullSpan_eq (sortedKeys keys)
  rw [cluster_eq some_]
  cases worth : worthSplitting (split (sortedKeys keys) most) (sortedKeys keys) with
  | true =>
    simp only [worthSplitting, Bool.or_eq_true, decide_eq_true_eq, tested, saturatingMul,
      Nat.mul_comm] at worth
    simp only [if_true]
    refine forall_congr' fun several => ?_
    omega
  | false =>
    simp only [worthSplitting, Bool.or_eq_false_iff, decide_eq_false_iff_not, tested,
      saturatingMul] at worth
    simp only [Bool.false_eq_true, if_false,
      (ordered_sortedKeys keys).length_hullOf some_]
    refine iff_of_true (fun several => absurd several (by decide)) fun _ => Or.inl ?_
    omega

end Cover

end Enroute.Lattice
