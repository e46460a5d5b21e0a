import Enroute.Lattice.Key
import Mathlib.Data.List.Destutter
import Mathlib.Data.List.GetD
import Mathlib.Data.List.Sort

/-!
# Covering scattered keys

A scattered read is split at the widest gaps between its keys, into no more ranges than it may ask
for. What the ranges span together is the span of all the keys less the gaps that were cut out, so a
wider cap never cuts out less. The split is then taken or thrown away as a whole: it has to divide
the span by at least as much as it multiplies the reads.
-/

namespace Enroute.Lattice

open List

/-- How many keys a range spans. Sixty-four bits hold the number for every range but the one of all
keys, which is never asked. -/
def KeyRange.span (range : KeyRange) : ℕ :=
  range.last - range.first + 1

def totalSpan (ranges : List KeyRange) : ℕ :=
  (ranges.map KeyRange.span).sum

namespace Cluster

def sortedKeys (keys : List UInt64) : List ℕ :=
  ((keys.map UInt64.toNat).insertionSort (· ≤ ·)).destutter (· ≠ ·)

/-- The gaps between neighbours that miss a key, each with the position below it. -/
def gapsFrom : ℕ → List ℕ → List (ℕ × ℕ)
  | at_, low :: high :: rest =>
    if 1 < high - low then (high - low, at_) :: gapsFrom (at_ + 1) (high :: rest)
    else gapsFrom (at_ + 1) (high :: rest)
  | _, _ => []

def Wider (gap other : ℕ × ℕ) : Prop :=
  other.1 < gap.1 ∨ other.1 = gap.1 ∧ other.2 ≤ gap.2

instance : DecidableRel Wider := fun gap other =>
  inferInstanceAs (Decidable (other.1 < gap.1 ∨ other.1 = gap.1 ∧ other.2 ≤ gap.2))

def widest (keep : ℕ) (gaps : List (ℕ × ℕ)) : List (ℕ × ℕ) :=
  if keep < gaps.length then (gaps.insertionSort Wider).take keep else gaps

def rangeBetween (sorted : List ℕ) (from_ upto : ℕ) : List KeyRange :=
  match sorted[from_]?, sorted[upto]? with
  | some first, some last => (KeyRange.new first last).toList
  | _, _ => []

def rangesFrom (sorted : List ℕ) : ℕ → List ℕ → List KeyRange
  | _, [] => []
  | from_, cut :: cuts => rangeBetween sorted from_ cut ++ rangesFrom sorted (cut + 1) cuts

def hullSpan (sorted : List ℕ) : ℕ :=
  match sorted.head?, sorted.getLast? with
  | some first, some last => saturatingAdd (last - first) 1
  | _, _ => 0

def hullOf (sorted : List ℕ) : List KeyRange :=
  match sorted.head?, sorted.getLast? with
  | some first, some last => (KeyRange.new first last).toList
  | _, _ => []

def worthSplitting (ranges : List KeyRange) (sorted : List ℕ) : Bool :=
  ranges.length < 2 || saturatingMul (totalSpan ranges) ranges.length ≤ hullSpan sorted

def split (sorted : List ℕ) (most : ℕ) : List KeyRange :=
  let cuts := (widest (most - 1) (gapsFrom 0 sorted)).map Prod.snd
  rangesFrom sorted 0 (cuts.insertionSort (· ≤ ·) ++ [sorted.length - 1])

end Cluster

open Cluster

def cluster (keys : List UInt64) (most : ℕ) : List KeyRange :=
  let sorted := sortedKeys keys
  if sorted.isEmpty then []
  else if worthSplitting (split sorted most) sorted then split sorted most
  else hullOf sorted

namespace Cluster

variable {sorted : List ℕ}

/-! ## What is cut out -/

structure Ordered (sorted : List ℕ) : Prop where
  rising : sorted.Pairwise (· < ·)
  bounded : ∀ key ∈ sorted, key ≤ max64

theorem ordered_sortedKeys (keys : List UInt64) : Ordered (sortedKeys keys) := by
  have sublist := destutter_sublist (· ≠ ·) ((keys.map UInt64.toNat).insertionSort (· ≤ ·))
  refine ⟨?_, ?_⟩
  · have le : (sortedKeys keys).Pairwise (· ≤ ·) :=
      (pairwise_insertionSort (· ≤ ·) _).sublist sublist
    have apart : (sortedKeys keys).IsChain (· ≠ ·) := isChain_destutter _ _
    refine isChain_iff_pairwise.mp (isChain_iff_getElem.mpr fun position inside => ?_)
    exact lt_of_le_of_ne (isChain_iff_getElem.mp le.isChain position inside)
      (isChain_iff_getElem.mp apart position inside)
  · intro key listed
    have inKeys := sublist.subset listed
    rw [mem_insertionSort] at inKeys
    rcases mem_map.mp inKeys with ⟨word, -, rfl⟩
    exact Nat.le_sub_one_of_lt word.toNat_lt

def keyAt (sorted : List ℕ) (position : ℕ) : ℕ :=
  sorted.getD position 0

theorem Ordered.keyAt_lt (ordered : Ordered sorted) {low high : ℕ} (less : low < high)
    (inside : high < sorted.length) : keyAt sorted low < keyAt sorted high := by
  rw [keyAt, keyAt, getD_eq_getElem _ _ (less.trans inside), getD_eq_getElem _ _ inside]
  exact pairwise_iff_getElem.mp ordered.rising low high _ inside less

theorem Ordered.keyAt_le (ordered : Ordered sorted) {low high : ℕ} (le : low ≤ high)
    (inside : high < sorted.length) : keyAt sorted low ≤ keyAt sorted high := by
  rcases le.eq_or_lt with rfl | less
  · exact le_rfl
  · exact (ordered.keyAt_lt less inside).le

theorem Ordered.rangeBetween_ends (ordered : Ordered sorted) {low high : ℕ} (le : low ≤ high)
    (inside : high < sorted.length) : ∃ range, rangeBetween sorted low high = [range] ∧
      range.first = keyAt sorted low ∧ range.last = keyAt sorted high := by
  have lowInside : low < sorted.length := le.trans_lt inside
  have keyLe := ordered.keyAt_le le inside
  rw [keyAt, keyAt, getD_eq_getElem _ _ lowInside, getD_eq_getElem _ _ inside] at keyLe
  have bounded := ordered.bounded _ (getElem_mem inside)
  refine ⟨⟨sorted[low], sorted[high], keyLe, bounded⟩, ?_, ?_, ?_⟩
  · rw [rangeBetween, List.getElem?_eq_getElem lowInside, List.getElem?_eq_getElem inside]
    dsimp only
    rw [KeyRange.new, dif_pos ⟨keyLe, bounded⟩]
    rfl
  · rw [keyAt, getD_eq_getElem _ _ lowInside]
  · rw [keyAt, getD_eq_getElem _ _ inside]

theorem Ordered.rangeBetween_eq (ordered : Ordered sorted) {low high : ℕ} (le : low ≤ high)
    (inside : high < sorted.length) : ∃ range, rangeBetween sorted low high = [range] ∧
      range.span = keyAt sorted high - keyAt sorted low + 1 := by
  rcases ordered.rangeBetween_ends le inside with ⟨range, isRange, first, last⟩
  exact ⟨range, isRange, by rw [KeyRange.span, first, last]⟩

def missingAt (sorted : List ℕ) (position : ℕ) : ℕ :=
  keyAt sorted (position + 1) - keyAt sorted position - 1

theorem Ordered.totalSpan_rangesFrom (ordered : Ordered sorted) {from_ last : ℕ} {cuts : List ℕ}
    (rising : cuts.Pairwise (· < ·)) (above : ∀ cut ∈ cuts, from_ ≤ cut)
    (below : ∀ cut ∈ cuts, cut < last) (start : from_ ≤ last) (inside : last < sorted.length) :
    (rangesFrom sorted from_ (cuts ++ [last])).length = cuts.length + 1 ∧
      totalSpan (rangesFrom sorted from_ (cuts ++ [last])) + (cuts.map (missingAt sorted)).sum =
        keyAt sorted last - keyAt sorted from_ + 1 := by
  induction cuts generalizing from_ with
  | nil =>
    rcases ordered.rangeBetween_eq start inside with ⟨range, isRange, span⟩
    simp [rangesFrom, isRange, totalSpan, span]
  | cons cut cuts ih =>
    rcases pairwise_cons.mp rising with ⟨later, rising⟩
    rcases forall_mem_cons.mp above with ⟨fromLe, -⟩
    rcases forall_mem_cons.mp below with ⟨cutLt, below⟩
    rcases ordered.rangeBetween_eq fromLe (cutLt.trans inside) with ⟨range, isRange, span⟩
    rcases @ih (cut + 1) rising (fun next listed => later next listed) below cutLt with
      ⟨count, total⟩
    have first := ordered.keyAt_le fromLe (cutLt.trans inside)
    have gap := ordered.keyAt_lt (Nat.lt_add_one cut) (by omega)
    have rest : keyAt sorted (cut + 1) ≤ keyAt sorted last := ordered.keyAt_le cutLt inside
    rw [cons_append, rangesFrom, isRange, singleton_append]
    refine ⟨by rw [length_cons, count, length_cons], ?_⟩
    rw [totalSpan, map_cons, sum_cons, ← totalSpan, span, map_cons, sum_cons,
      missingAt]
    omega

/-! ## The gaps that are cut -/

theorem mem_gapsFrom {at_ : ℕ} {gap : ℕ × ℕ} (listed : gap ∈ gapsFrom at_ sorted) :
    ∃ position, gap.2 = at_ + position ∧ position + 1 < sorted.length ∧
      gap.1 = keyAt sorted (position + 1) - keyAt sorted position ∧ 1 < gap.1 := by
  induction sorted generalizing at_ with
  | nil => cases listed
  | cons low rest ih =>
    cases rest with
    | nil => cases listed
    | cons high rest =>
      have later : gap ∈ gapsFrom (at_ + 1) (high :: rest) → ∃ position,
          gap.2 = at_ + position ∧ position + 1 < (low :: high :: rest).length ∧
          gap.1 = keyAt (low :: high :: rest) (position + 1) -
            keyAt (low :: high :: rest) position ∧ 1 < gap.1 := by
        intro isLater
        rcases ih isLater with ⟨position, isAt, inside, isGap, wide⟩
        exact ⟨position + 1, by omega, Nat.succ_lt_succ inside, isGap, wide⟩
      rw [gapsFrom] at listed
      split_ifs at listed with wide
      · rcases mem_cons.mp listed with rfl | isLater
        · exact ⟨0, rfl, by simp, rfl, wide⟩
        · exact later isLater
      · exact later listed

theorem gapsFrom_rising (at_ : ℕ) (sorted : List ℕ) :
    ((gapsFrom at_ sorted).map Prod.snd).Pairwise (· < ·) := by
  induction sorted generalizing at_ with
  | nil => exact .nil
  | cons low rest ih =>
    cases rest with
    | nil => exact .nil
    | cons high rest =>
      rw [gapsFrom]
      split_ifs
      · rw [map_cons, pairwise_cons]
        refine ⟨?_, ih (at_ + 1)⟩
        intro position listed
        rcases mem_map.mp listed with ⟨gap, isGap, rfl⟩
        rcases mem_gapsFrom isGap with ⟨offset, isAt, -⟩
        omega
      · exact ih (at_ + 1)

instance : Std.Total Wider := ⟨fun gap other => by
  unfold Wider
  omega⟩

theorem widest_perm (keep : ℕ) (gaps : List (ℕ × ℕ)) :
    (widest keep gaps).Perm ((gaps.insertionSort Wider).take keep) := by
  rw [widest]
  split_ifs with tooMany
  · exact List.Perm.refl _
  · rw [take_of_length_le (by rw [length_insertionSort]; omega)]
    exact (perm_insertionSort Wider gaps).symm

theorem mem_of_mem_widest {keep : ℕ} {gaps : List (ℕ × ℕ)} {gap : ℕ × ℕ}
    (chosen : gap ∈ widest keep gaps) : gap ∈ gaps := by
  rw [(widest_perm _ _).mem_iff] at chosen
  exact (perm_insertionSort Wider _).mem_iff.mp (mem_of_mem_take chosen)

def cutOut (sorted : List ℕ) (most : ℕ) : ℕ :=
  ((widest (most - 1) (gapsFrom 0 sorted)).map fun gap => gap.1 - 1).sum

theorem cutOut_mono (sorted : List ℕ) {few many : ℕ} (le : few ≤ many) :
    cutOut sorted few ≤ cutOut sorted many := by
  have leads : ((gapsFrom 0 sorted).insertionSort Wider).take (few - 1) =
      (((gapsFrom 0 sorted).insertionSort Wider).take (many - 1)).take (few - 1) := by
    rw [take_take, min_eq_left (by omega)]
  rw [cutOut, cutOut, ((widest_perm _ _).map _).sum_eq, ((widest_perm _ _).map _).sum_eq, leads]
  exact ((take_sublist _ _).map _).sum_le_sum fun _ _ => Nat.zero_le _

theorem split_eq (sorted : List ℕ) (most : ℕ) :
    ∃ cuts : List ℕ, split sorted most = rangesFrom sorted 0 (cuts ++ [sorted.length - 1]) ∧
      cuts.Pairwise (· < ·) ∧ (∀ cut ∈ cuts, cut < sorted.length - 1) ∧
      cuts.Perm ((widest (most - 1) (gapsFrom 0 sorted)).map Prod.snd) := by
  have distinct : ((widest (most - 1) (gapsFrom 0 sorted)).map Prod.snd).Nodup := by
    have all : (((gapsFrom 0 sorted).insertionSort Wider).map Prod.snd).Nodup :=
      ((perm_insertionSort Wider _).map _).nodup_iff.mpr
        ((gapsFrom_rising 0 sorted).imp fun less => less.ne)
    rw [((widest_perm _ _).map _).nodup_iff]
    exact all.sublist ((take_sublist _ _).map _)
  have perm := perm_insertionSort (· ≤ ·)
    ((widest (most - 1) (gapsFrom 0 sorted)).map Prod.snd)
  refine ⟨_, rfl, ?_, ?_, perm⟩
  · exact ((pairwise_insertionSort (· ≤ ·) _).and (perm.nodup_iff.mpr distinct)).imp
      fun both => lt_of_le_of_ne both.1 both.2
  · intro cut listed
    rcases mem_map.mp (perm.mem_iff.mp listed) with ⟨gap, isGap, rfl⟩
    rcases mem_gapsFrom (mem_of_mem_widest isGap) with ⟨position, isAt, inside, -⟩
    omega

theorem Ordered.totalSpan_split (ordered : Ordered sorted) (most : ℕ) (some_ : sorted ≠ []) :
    (split sorted most).length = (widest (most - 1) (gapsFrom 0 sorted)).length + 1 ∧
      totalSpan (split sorted most) + cutOut sorted most =
        keyAt sorted (sorted.length - 1) - keyAt sorted 0 + 1 := by
  have positive : 0 < sorted.length := length_pos_iff.mpr some_
  rcases split_eq sorted most with ⟨cuts, isSplit, rising, below, perm⟩
  have sameMissing : (cuts.map (missingAt sorted)).sum = cutOut sorted most := by
    rw [(perm.map _).sum_eq, map_map, cutOut]
    refine congrArg List.sum (map_congr_left fun gap isGap => ?_)
    rcases mem_gapsFrom (mem_of_mem_widest isGap) with ⟨position, isAt, -, isWide, -⟩
    rw [Function.comp_apply, missingAt, isAt, Nat.zero_add, isWide]
  rcases ordered.totalSpan_rangesFrom rising (fun _ _ => Nat.zero_le _) below (Nat.zero_le _)
    (show sorted.length - 1 < sorted.length by omega) with ⟨count, total⟩
  refine ⟨?_, ?_⟩
  · rw [isSplit, count, perm.length_eq, length_map]
  · rw [isSplit, ← sameMissing, total]

theorem cutOut_pos {most : ℕ} (cuts : widest (most - 1) (gapsFrom 0 sorted) ≠ []) :
    0 < cutOut sorted most := by
  rcases exists_mem_of_ne_nil _ cuts with ⟨gap, listed⟩
  rcases mem_gapsFrom (mem_of_mem_widest listed) with ⟨-, -, -, -, wide⟩
  refine Nat.lt_of_lt_of_le (show 0 < gap.1 - 1 by omega) ?_
  exact single_le_sum (fun _ _ => Nat.zero_le _) _ (mem_map_of_mem listed)

theorem Ordered.totalSpan_hullOf (ordered : Ordered sorted) (some_ : sorted ≠ []) :
    totalSpan (hullOf sorted) = keyAt sorted (sorted.length - 1) - keyAt sorted 0 + 1 := by
  have positive : 0 < sorted.length := length_pos_iff.mpr some_
  have isHull : hullOf sorted = rangeBetween sorted 0 (sorted.length - 1) := by
    rw [hullOf, rangeBetween, List.head?_eq_getElem?, List.getLast?_eq_getElem?]
  rcases ordered.rangeBetween_eq (Nat.zero_le _) (show sorted.length - 1 < sorted.length by omega)
    with ⟨range, isRange, span⟩
  rw [isHull, isRange, totalSpan, map_singleton, sum_singleton, span]

end Cluster

/-- Allowing more ranges makes a scattered read cost no more exactly when the split at the wider cap
passes the test, or the one at the narrower cap fails it or is no split. -/
theorem totalSpan_cluster_le_iff (keys : List UInt64) {few many : ℕ} (le : few ≤ many) :
    totalSpan (cluster keys many) ≤ totalSpan (cluster keys few) ↔
      worthSplitting (split (sortedKeys keys) many) (sortedKeys keys) = true ∨
      worthSplitting (split (sortedKeys keys) few) (sortedKeys keys) = false ∨
      (split (sortedKeys keys) few).length < 2 := by
  have ordered := ordered_sortedKeys keys
  rw [cluster, cluster]
  generalize sortedKeys keys = sorted at ordered
  by_cases none_ : sorted = []
  · subst none_
    simp [split, gapsFrom, widest, rangesFrom, rangeBetween]
  have hull := ordered.totalSpan_hullOf none_
  rcases ordered.totalSpan_split few none_ with ⟨fewCount, fewTotal⟩
  rcases ordered.totalSpan_split many none_ with ⟨-, manyTotal⟩
  have more := cutOut_mono sorted le
  have nonempty : ¬sorted.isEmpty = true := fun isEmpty => none_ (List.isEmpty_iff.mp isEmpty)
  rw [if_neg nonempty, if_neg nonempty]
  cases manyWorth : worthSplitting (split sorted many) sorted with
  | true =>
    simp only [if_true, true_or, iff_true]
    split_ifs <;> omega
  | false =>
    cases fewWorth : worthSplitting (split sorted few) sorted with
    | false => simp
    | true =>
      simp only [Bool.false_eq_true, if_false, if_true, Bool.true_eq_false, false_or]
      constructor
      · intro notLess
        by_contra several
        have cuts : widest (few - 1) (gapsFrom 0 sorted) ≠ [] := by
          intro nothing
          rw [nothing, length_nil] at fewCount
          omega
        have positive := cutOut_pos cuts
        omega
      · intro single
        have nothing : widest (few - 1) (gapsFrom 0 sorted) = [] :=
          length_eq_zero_iff.mp (by omega)
        rw [cutOut, nothing] at fewTotal
        simp only [map_nil, sum_nil, Nat.add_zero] at fewTotal
        omega

theorem totalSpan_cluster_le_iff_tipAndTag :
    2 ≤ 3 ∧ (totalSpan (cluster [1, 100, 101] 3) ≤ totalSpan (cluster [1, 100, 101] 2) ↔
      worthSplitting (split (sortedKeys [1, 100, 101]) 3) (sortedKeys [1, 100, 101]) = true ∨
      worthSplitting (split (sortedKeys [1, 100, 101]) 2) (sortedKeys [1, 100, 101]) = false ∨
      (split (sortedKeys [1, 100, 101]) 2).length < 2) :=
  ⟨by decide, totalSpan_cluster_le_iff [1, 100, 101] (by decide)⟩

/-- Two ranges are worth their reads here; with a third allowed the one range of all is read. -/
theorem cluster_wider_cap_reads_more :
    totalSpan (cluster [0, 2, 7] 2) = 4 ∧ totalSpan (cluster [0, 2, 7] 3) = 8 := by
  decide

end Enroute.Lattice
