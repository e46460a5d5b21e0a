import Enroute.GraphStore.Joins
import Enroute.Objects.ObjectJoins
import Enroute.Retrieve.RangedReads

/-!
# Joining the three indexes

The parent graph, the packs and the objects are all composed from whatever segments there are, in
whatever order they arrive. Whatever was built, decoded or joined before, the joins are semilattices;
for the parent graph as long as the tails of what is joined stay within what an offset of thirty-two
bits reaches. Past that an index is not even joined with itself unchanged.
-/

namespace Enroute.Stored

open Enroute.Lattice Fields Join

/-- The joins of all three indexes are semilattices on what builders, decoders and joins produce, of
the parent graph while the tails of the values together take no more than an offset reaches. -/
theorem stored_indexes_semilattice [Roaring] :
    Join.Semilattice CommitIndex.Within ∧
    (Join.Semilattice fun values : List PackIndex => ∀ value ∈ values, value.Produced) ∧
    Join.Semilattice fun values : List ObjectIndex => ∀ value ∈ values, value.Produced :=
  ⟨CommitIndex.semilattice, PackIndex.semilattice, ObjectIndex.semilattice⟩

/-! ### Tails too long for an offset -/

def mergeOf (count : ℕ) : CommitBuilder.Commit :=
  { parents := List.replicate count 0, rootTree := 0, generation := 1 }

def twoMerges (count other : ℕ) : Except TooLarge CommitBuilder := do
  let builder ← CommitBuilder.new.insert 0 (mergeOf count)
  builder.insert 1 (mergeOf other)

theorem nodeOf_mergeOf (extra : ℕ) :
    CommitBuilder.nodeOf (mergeOf (extra + 2)) = .ok (octopus (List.replicate extra 0)) := by
  have slots : ∀ count, (List.replicate count 0).mapM commitSlot =
      (.ok (List.replicate count 0) : Except TooLarge (List U32)) := by
    intro count
    induction count with
    | zero => rfl
    | succ count ih =>
      rw [List.replicate_succ, List.mapM_cons, ih]
      rfl
  simp only [CommitBuilder.nodeOf, mergeOf]
  have rest : (List.replicate (extra + 2) 0).drop 2 = List.replicate extra 0 := by
    rw [List.drop_replicate]
    rfl
  rw [rest, slots]
  rfl

theorem build_twoMerges (count other : ℕ) :
    ∃ builder, twoMerges (count + 2) (other + 2) = .ok builder ∧ builder.Reached ∧
      builder.build = assemble ⟨0, [some (octopus (List.replicate count 0)),
        some (octopus (List.replicate other 0))]⟩ := by
  have first : CommitBuilder.new.insert 0 (mergeOf (count + 2)) =
      .ok ⟨(∅ : Std.TreeMap ℕ Node).insert 0 (octopus (List.replicate count 0)), ∅⟩ := by
    rw [CommitBuilder.insert, nodeOf_mergeOf]
    rfl
  have second : (⟨(∅ : Std.TreeMap ℕ Node).insert 0 (octopus (List.replicate count 0)), ∅⟩ :
      CommitBuilder).insert 1 (mergeOf (other + 2)) =
      .ok ⟨((∅ : Std.TreeMap ℕ Node).insert 0 (octopus (List.replicate count 0))).insert 1
        (octopus (List.replicate other 0)), ∅⟩ := by
    rw [CommitBuilder.insert, nodeOf_mergeOf]
    rfl
  refine ⟨_, ?_, .insert (.insert .new first) second, ?_⟩
  · rw [twoMerges, first, Except.ok_bind, second]
  · generalize octopus (List.replicate count 0) = node
    generalize octopus (List.replicate other 0) = next
    rfl

section Crowded

variable {extra : List U32}

theorem slots_crowded (long : extra.length = 2 ^ 32 - 2) :
    (crowded extra).slots = ⟨0, [some (octopus extra), some (octopus [])]⟩ := by
  have some_ : extra ≠ [] := fun none => by simp [none] at long
  have fits : extra.length < 2 ^ 32 := by omega
  have tail : (crowded extra).tail = ⟨extra.length, fits⟩ :: (extra ++ [1, 0]) := by
    have one : (tryU32 1).getD 0 = 1 := rfl
    simp [crowded, assemble, layOut, octopus, placeExtra, some_, tryU32_of_lt fits, one]
  have reached : extraOf { parent1 := 0, parent2 := 0, rootTree := 0, generation := 1, extra := 0 }
      (⟨extra.length, fits⟩ :: (extra ++ [1, 0])) = extra := by
    have inside : 1 + extra.length ≤ extra.length + 2 + 1 := by omega
    simp [extraOf, extraSpan, NONE, inside]
  have lost : extraOf { parent1 := 0, parent2 := 0, rootTree := 0, generation := 1, extra := NONE }
      (⟨extra.length, fits⟩ :: (extra ++ [1, 0])) = [] := by
    simp [extraOf, extraSpan]
  rw [CommitIndex.slots, records_crowded long, tail]
  simp only [List.map_cons, List.map_nil, Record.node, reached, lost]
  rfl

theorem crowded_join_self_ne (long : extra.length = 2 ^ 32 - 2) :
    (crowded extra).join (crowded extra) ≠ crowded extra := by
  have tidy : Strided.Tidy ⟨0, [some (octopus extra), some (octopus [])]⟩ := by
    simp [Strided.Tidy]
  have isNodes : (crowded extra).nodes = ⟨0, [some (octopus extra), some (octopus [])]⟩ := by
    rw [CommitIndex.nodes, slots_crowded long]
    exact tidy.trimmed_eq
  have isLast : (crowded extra).last = some 1 := by
    rw [CommitIndex.last_eq_slots, slots_crowded long]
    rfl
  have alone : Strided.joined ⟨0, [some (octopus extra), some (octopus [])]⟩
      ⟨0, [some (octopus extra), some (octopus [])]⟩ =
      ⟨0, [some (octopus extra), some (octopus [])]⟩ := by
    refine (tidy.joined tidy).ext tidy fun seq => ?_
    rw [Strided.get_joined]
    cases Strided.get ⟨0, [some (octopus extra), some (octopus [])]⟩ seq with
    | none => rfl
    | some node => rw [Option.merge_some_some, max_self]
  intro same
  rw [CommitIndex.join, isLast, if_neg (by simp), if_neg (by simp), isNodes, alone] at same
  have sameLength := congrArg (fun index => index.tail.length) same
  simp [crowded, CommitIndex.length_tail_assemble, Strided.total, Node.cost, octopus] at sameLength

end Crowded

/-- A merge with out-of-line parents up to the last offset of a tail, and a second one with one:
what the builder builds from them is not what joining it with itself gives. -/
theorem crowded_not_idempotent :
    ∃ builder, twoMerges (2 ^ 32 - 2 + 2) (1 + 2) = .ok builder ∧ builder.build.Produced ∧
      builder.build.join builder.build ≠ builder.build := by
  rcases build_twoMerges (2 ^ 32 - 2) 1 with ⟨builder, isBuilder, reached, isBuilt⟩
  refine ⟨builder, isBuilder, .built reached, ?_⟩
  rw [isBuilt]
  have long : (List.replicate (2 ^ 32 - 2) (0 : U32)).length = 2 ^ 32 - 2 := List.length_replicate
  generalize List.replicate (2 ^ 32 - 2) (0 : U32) = extra at long ⊢
  exact crowded_join_self_ne long

end Enroute.Stored
