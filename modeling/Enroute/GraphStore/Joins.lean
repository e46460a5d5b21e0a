import Enroute.GraphStore.Builders

/-!
# The joins of the two tiers

What the builders, the decoders and the joins produce is canonical: no holes at the ends and, for
the parent graph, records and tail laid out from nodes. Canonical values that hold the same at
every number are equal, so the laws of a join follow number by number from those of the greater of
two nodes. A record of the parent graph reaches its out-of-line parents by an offset of thirty-two
bits, and past that a layout loses them; the laws hold as long as all that is joined fits.
-/

namespace Enroute.Stored

open Enroute.Lattice Fields Join

/-! ### What nodes add up to, number by number -/

namespace Strided

variable {N : Type} {cost : N → ℕ}

theorem get_cons (first : ℕ) (slot : Option N) (slots : List (Option N)) (seq : ℕ) :
    get ⟨first, slot :: slots⟩ seq = if seq = first then slot else get ⟨first + 1, slots⟩ seq := by
  split_ifs with same
  · have here := get_add first 0 (slot :: slots)
    rw [same]
    simpa using here
  · rcases lt_or_gt_of_ne same with less | more
    · rw [get_below less, get_below (by omega)]
    · rcases Nat.le.dest more with ⟨further, isFurther⟩
      rw [← isFurther, get_add, Nat.succ_eq_add_one, Nat.add_assoc, get_add, Nat.add_comm 1,
        List.getElem?_cons_succ]

theorem sum_get (strided : Strided N) {bound : ℕ}
    (covered : strided.first + strided.slots.length ≤ bound) :
    ∑ seq ∈ Finset.range bound, (strided.get seq).elim 0 cost = total cost strided.slots := by
  rcases strided with ⟨first, slots⟩
  simp only at covered ⊢
  induction slots generalizing first with
  | nil =>
    refine Finset.sum_eq_zero fun seq _ => ?_
    rw [get_eq_none_of_holes (List.forall_mem_nil _), Option.elim_none]
  | cons slot slots ih =>
    rw [List.length_cons] at covered
    have split : ∀ seq, (get ⟨first, slot :: slots⟩ seq).elim 0 cost =
        (if seq = first then slot.elim 0 cost else 0) +
          (get ⟨first + 1, slots⟩ seq).elim 0 cost := by
      intro seq
      rw [get_cons]
      split_ifs with same
      · rw [same, get_below (Nat.lt_succ_self first), Option.elim_none, add_zero]
      · rw [zero_add]
    simp only [split, Finset.sum_add_distrib, ih (first + 1) (by omega), Finset.sum_ite_eq',
      Finset.mem_range]
    rw [if_pos (by omega)]
    simp [total]

theorem sum_get_le (strided : Strided N) (bound : ℕ) :
    ∑ seq ∈ Finset.range bound, (strided.get seq).elim 0 cost ≤ total cost strided.slots := by
  rw [← strided.sum_get (le_max_right bound _)]
  exact Finset.sum_le_sum_of_subset (Finset.range_subset_range.mpr (le_max_left _ _))

end Strided

/-! ### The parent graph -/

namespace CommitIndex

/-- Records and tail are those of nodes without holes at the ends, all of which hold a commit. -/
def LaidFrom (index : CommitIndex) (nodes : Strided Node) : Prop :=
  index = assemble nodes ∧ nodes.Tidy ∧
    ∀ seq node, nodes.get seq = some node → node.rootTree ≠ NONE

inductive Produced : CommitIndex → Prop
  | built {builder : CommitBuilder} : builder.Reached → Produced builder.build
  | decoded {index part : CommitIndex} {range : KeyRange} :
      Produced index → decodeRange index.encoded range = .ok part → Produced part
  | joined {index other : CommitIndex} :
      Produced index → Produced other → Produced (index.join other)

variable {index other : CommitIndex} {nodes otherNodes : Strided Node}

theorem laidFrom_empty : LaidFrom empty .empty := by
  refine ⟨rfl, Strided.tidy_empty, fun seq node found => ?_⟩
  have hole : (Strided.empty : Strided Node).get seq = none :=
    Strided.get_eq_none_of_holes (List.forall_mem_nil _)
  rw [hole] at found
  cases found

theorem exists_laidFrom_of_decodeRange {bytes : List UInt8} {range : KeyRange}
    (decoded : decodeRange bytes range = .ok index) : ∃ nodes, index.LaidFrom nodes := by
  rw [decodeRange, Except.bind_eq_ok_iff] at decoded
  rcases decoded with ⟨header, -, rest⟩
  cases sliced : header.sliceOf range with
  | none =>
    simp only [sliced, Except.ok.injEq] at rest
    exact ⟨.empty, rest ▸ laidFrom_empty⟩
  | some window_ =>
    simp only [sliced, Except.bind_eq_ok_iff] at rest
    rcases rest with ⟨records, -, isRebuilt⟩
    rcases rebuilt_eq_ok_iff.mp isRebuilt with ⟨-, rfl⟩
    refine ⟨_, rfl, Strided.tidy_trimmed _ _, fun seq node found => ?_⟩
    exact rootTree_of_nodeAt ((get_nodes _ seq).symm.trans found)

theorem Produced.exists_laidFrom (produced : index.Produced) : ∃ nodes, index.LaidFrom nodes := by
  induction produced with
  | @built builder reached =>
    refine ⟨.laidOut builder.commits, rfl, Strided.tidy_laidOut _, fun seq node found => ?_⟩
    exact reached.present seq node (Strided.mem_of_get_laidOut found)
  | decoded _ decodes _ => exact exists_laidFrom_of_decodeRange decodes
  | @joined index other _ _ ih otherIh =>
    rw [join]
    split_ifs
    · exact ih
    · exact otherIh
    · refine ⟨_, rfl, (Strided.tidy_trimmed _ _).joined (Strided.tidy_trimmed _ _), ?_⟩
      intro seq node found
      rw [Strided.get_joined, get_nodes, get_nodes] at found
      rcases Strided.eq_or_eq_of_merge_max found with mine | theirs
      · exact rootTree_of_nodeAt mine
      · exact rootTree_of_nodeAt theirs

theorem LaidFrom.fits (laid : index.LaidFrom nodes) (small : index.tail.length ≤ 2 ^ 32) :
    Fits nodes := by
  rcases laid with ⟨rfl, -, present⟩
  rw [length_tail_assemble] at small
  refine ⟨fun node held => ?_, small⟩
  rcases Strided.exists_get_of_mem held with ⟨seq, found⟩
  exact present seq node found

theorem join_assemble (tidy : nodes.Tidy) (otherTidy : otherNodes.Tidy) (fits : Fits nodes)
    (otherFits : Fits otherNodes) :
    (assemble nodes).join (assemble otherNodes) = assemble (nodes.joined otherNodes) := by
  have isNodes : (assemble nodes).nodes = nodes := by
    rw [CommitIndex.nodes, slots_assemble fits, tidy.trimmed_eq]
  have isOther : (assemble otherNodes).nodes = otherNodes := by
    rw [CommitIndex.nodes, slots_assemble otherFits, otherTidy.trimmed_eq]
  rw [join, last_eq_slots, last_eq_slots, slots_assemble fits, slots_assemble otherFits, isNodes,
    isOther]
  split_ifs with noOther noMine
  · rw [Strided.joined, noOther]
  · rw [Strided.joined, noMine]
    cases theirs : otherNodes.last with
    | none => exact absurd theirs noOther
    | some last => rfl
  · rfl

def Among (given : Finset CommitIndex) (index : CommitIndex) : Prop :=
  ∃ nodes, index.LaidFrom nodes ∧
    ∀ seq node, nodes.get seq = some node → ∃ value ∈ given, value.nodeAt seq = some node

section Given

variable {given : Finset CommitIndex}

section

variable (laid : ∀ value ∈ given, ∃ nodes, value.LaidFrom nodes)
  (small : ∑ value ∈ given, value.tail.length ≤ 2 ^ 32)

include laid small

theorem total_le_of_among
    (among : ∀ seq node, nodes.get seq = some node → ∃ value ∈ given, value.nodeAt seq = some node) :
    Strided.total Node.cost nodes.slots ≤ 2 ^ 32 := by
  rw [← nodes.sum_get le_rfl]
  calc ∑ seq ∈ Finset.range (nodes.first + nodes.slots.length), (nodes.get seq).elim 0 Node.cost
      ≤ ∑ seq ∈ Finset.range (nodes.first + nodes.slots.length),
          ∑ value ∈ given, (value.nodeAt seq).elim 0 Node.cost := by
        refine Finset.sum_le_sum fun seq _ => ?_
        cases found : nodes.get seq with
        | none => exact Nat.zero_le _
        | some node =>
          rcases among seq node found with ⟨value, isGiven, held⟩
          have one := Finset.single_le_sum
            (f := fun value : CommitIndex => (value.nodeAt seq).elim 0 Node.cost)
            (fun _ _ => Nat.zero_le _) isGiven
          simpa only [held, Option.elim_some] using one
    _ = ∑ value ∈ given, ∑ seq ∈ Finset.range (nodes.first + nodes.slots.length),
          (value.nodeAt seq).elim 0 Node.cost := Finset.sum_comm
    _ ≤ ∑ value ∈ given, value.tail.length := by
        refine Finset.sum_le_sum fun value isGiven => ?_
        rcases laid value isGiven with ⟨own, isLaid⟩
        have fits : Fits own := isLaid.fits ((Finset.single_le_sum
          (f := fun value : CommitIndex => value.tail.length) (fun _ _ => Nat.zero_le _)
          isGiven).trans small)
        rw [isLaid.1, length_tail_assemble]
        simp only [nodeAt_assemble fits]
        exact own.sum_get_le _
    _ ≤ 2 ^ 32 := small

theorem Among.exists_fits (among : index.Among given) :
    ∃ nodes, index = assemble nodes ∧ nodes.Tidy ∧ Fits nodes ∧
      ∀ seq node, nodes.get seq = some node → ∃ value ∈ given, value.nodeAt seq = some node := by
  rcases among with ⟨nodes, isLaid, from_⟩
  have bound := total_le_of_among laid small from_
  refine ⟨nodes, isLaid.1, isLaid.2.1, isLaid.fits ?_, from_⟩
  rwa [isLaid.1, length_tail_assemble]

theorem pointwise_among : Pointwise nodeAt max (Among given) (fun _ => 0) 0 := by
  have joins : ∀ {index other : CommitIndex}, index.Among given → other.Among given →
      (index.join other).Among given ∧ ∀ seq, (index.join other).nodeAt seq =
        Option.merge max (index.nodeAt seq) (other.nodeAt seq) := by
    intro index other among otherAmong
    rcases among.exists_fits laid small with ⟨nodes, rfl, tidy, fits, from_⟩
    rcases otherAmong.exists_fits laid small with ⟨otherNodes, rfl, otherTidy, otherFits, otherFrom⟩
    rw [join_assemble tidy otherTidy fits otherFits]
    have joinedFrom : ∀ seq node, (nodes.joined otherNodes).get seq = some node →
        ∃ value ∈ given, value.nodeAt seq = some node := by
      intro seq node found
      rw [Strided.get_joined] at found
      rcases Strided.eq_or_eq_of_merge_max found with mine | theirs
      · exact from_ seq node mine
      · exact otherFrom seq node theirs
    have joinedAmong : (assemble (nodes.joined otherNodes)).Among given := by
      refine ⟨_, ⟨rfl, tidy.joined otherTidy, fun seq node found => ?_⟩, joinedFrom⟩
      rcases joinedFrom seq node found with ⟨value, -, held⟩
      exact rootTree_of_nodeAt held
    refine ⟨joinedAmong, fun seq => ?_⟩
    have joinedFits : Fits (nodes.joined otherNodes) := by
      refine ⟨fun node held => ?_, total_le_of_among laid small joinedFrom⟩
      rcases Strided.exists_get_of_mem held with ⟨seq, found⟩
      rcases joinedFrom seq node found with ⟨value, -, held⟩
      exact rootTree_of_nodeAt held
    rw [nodeAt_assemble joinedFits, nodeAt_assemble fits, nodeAt_assemble otherFits,
      Strided.get_joined]
  exact
    { lookup_join := fun among otherAmong _ => (joins among otherAmong).2
      good_join := fun among otherAmong _ => (joins among otherAmong).1
      size_join := fun _ _ _ => Nat.zero_le _ }

theorem ext_among (among : index.Among given) (otherAmong : other.Among given)
    (same : ∀ seq, index.nodeAt seq = other.nodeAt seq) : index = other := by
  rcases among.exists_fits laid small with ⟨nodes, rfl, tidy, fits, -⟩
  rcases otherAmong.exists_fits laid small with ⟨otherNodes, rfl, otherTidy, otherFits, -⟩
  refine congrArg assemble (tidy.ext otherTidy fun seq => ?_)
  rw [← nodeAt_assemble fits, ← nodeAt_assemble otherFits]
  exact same seq

theorem lawfulOn_among : LawfulOn (Among given) :=
  (pointwise_among laid small).lawfulOn (ext_among laid small) fun _ _ => max_self _

end

end Given

/-- Collections that were produced and whose tails, each counted once, stay within what an offset
reaches. -/
def Within (values : List CommitIndex) : Prop :=
  (∀ value ∈ values, value.Produced) ∧ ∑ value ∈ values.toFinset, value.tail.length ≤ 2 ^ 32

theorem semilattice : Join.Semilattice Within := by
  refine .of_lawfulOn fun values within => ⟨Among values.toFinset, ?_, fun value listed => ?_⟩
  · refine lawfulOn_among (fun value isGiven => ?_) within.2
    exact (within.1 value (List.mem_toFinset.mp isGiven)).exists_laidFrom
  · rcases (within.1 value listed).exists_laidFrom with ⟨nodes, isLaid⟩
    have fits : Fits nodes := isLaid.fits ((Finset.single_le_sum
      (f := fun value : CommitIndex => value.tail.length) (fun _ _ => Nat.zero_le _)
      (List.mem_toFinset.mpr listed)).trans within.2)
    refine ⟨nodes, isLaid, fun seq node found => ⟨value, List.mem_toFinset.mpr listed, ?_⟩⟩
    rw [isLaid.1, nodeAt_assemble fits, found]

end CommitIndex

/-! ### The packs -/

namespace PackIndex

inductive Produced [Roaring] : PackIndex → Prop
  | built {builder : PackBuilder} : builder.Reached → Produced builder.build
  | decoded {index part : PackIndex} {range : KeyRange} :
      Produced index → decodeRange index.encoded range = .ok part → Produced part
  | joined {index other : PackIndex} :
      Produced index → Produced other → Produced (index.join other)

theorem tidy_of_decodeRange {index : PackIndex} {bytes : List UInt8} {range : KeyRange}
    (decoded : decodeRange bytes range = .ok index) : index.nodes.Tidy := by
  rw [decodeRange, Except.bind_eq_ok_iff] at decoded
  rcases decoded with ⟨header, -, rest⟩
  cases sliced : header.sliceOf range with
  | none =>
    simp only [sliced, Except.ok.injEq] at rest
    rw [← rest]
    exact Strided.tidy_empty
  | some window_ =>
    simp only [sliced, Except.bind_eq_ok_iff, Except.pure_eq_ok_iff] at rest
    rcases rest with ⟨records, -, rfl⟩
    exact Strided.tidy_trimmed _ _

theorem Produced.tidy [Roaring] {index : PackIndex} (produced : index.Produced) :
    index.nodes.Tidy := by
  induction produced with
  | built _ => exact Strided.tidy_laidOut _
  | decoded _ decodes _ => exact tidy_of_decodeRange decodes
  | joined _ _ ih otherIh => exact ih.joined otherIh

theorem pointwise_tidy :
    Pointwise get max (fun index : PackIndex => index.nodes.Tidy) (fun _ => 0) 0 where
  lookup_join _ _ _ seq := Strided.get_joined _ _ seq
  good_join tidy otherTidy _ := tidy.joined otherTidy
  size_join _ _ _ := Nat.zero_le _

theorem lawfulOn_tidy : LawfulOn fun index : PackIndex => index.nodes.Tidy := by
  refine pointwise_tidy.lawfulOn ?_ fun _ _ => max_self _
  rintro ⟨nodes⟩ ⟨otherNodes⟩ tidy otherTidy same
  exact congrArg PackIndex.mk (tidy.ext otherTidy same)

theorem semilattice [Roaring] :
    Join.Semilattice fun values : List PackIndex => ∀ value ∈ values, value.Produced :=
  .of_lawfulOn fun _ produced => ⟨_, lawfulOn_tidy, fun value listed => (produced value listed).tidy⟩

end PackIndex

end Enroute.Stored
