import Enroute.GraphStore.PackSegment
import Enroute.Objects.ObjectSegment

/-!
# Ranged reads of the three indexes

The parent graph, the packs and the objects are all read by range. A ranged read agrees with a
whole one at every key that was asked for; for the parent graph as long as the tails of the segments
together stay within what an offset of thirty-two bits reaches. Past that the join behind a whole
read loses parents that a narrower read still has.
-/

namespace Enroute.Stored

open Enroute.Lattice Fields Join List

def inOrder : Arrivals :=
  ⟨id, .refl⟩

def rowsFrom {S : Type} [Segment S] : ℕ → List (KeyRange × S) → List Written
  | _, [] => []
  | id, (range, value) :: values =>
    { id, range, tier := 0, body := .inline (Segment.encoded value)
      bytes := (Segment.encoded value).length } :: rowsFrom (id + 1) values

def inlined {S : Type} [Segment S] (values : List (KeyRange × S)) : Store S :=
  { Store.empty 0 with rows := rowsFrom 0 values }

section Inlined

variable {S : Type} [Segment S] {values : List (KeyRange × S)}

theorem catalogued_inlined {made : S → Prop}
    (ranged : ∀ value ∈ values, made value.2 ∧ Segment.range value.2 = some value.1) :
    (inlined values).Catalogued made := by
  have rows : ∀ id, ∀ row ∈ rowsFrom id values, ∃ value : S, made value ∧
      row.body = .inline (Segment.encoded value) ∧ Segment.range value = some row.range := by
    induction values with
    | nil => exact fun _ _ => nofun
    | cons value values ih =>
      rw [forall_mem_cons] at ranged
      exact fun id => forall_mem_cons.mpr
        ⟨⟨value.2, ranged.1.1, rfl, ranged.1.2⟩, ih ranged.2 (id + 1)⟩
  intro row there
  rcases rows 0 row there with ⟨value, isMade, isBody, isRange⟩
  exact ⟨value, isMade, by rw [Store.bytesOf, isBody], isRange⟩

theorem readAlone_inlined {range : KeyRange} {results : List S}
    (decodes : List.Forall₂ (fun value result =>
      Segment.decodeRange (Segment.encoded value.2) range = .ok result)
      (values.filter fun value => value.1.overlaps range) results) :
    (inlined values).readAlone inOrder range = .ok (compose results) := by
  refine readAlone_eq_ok_iff.mpr ⟨results, ?_, rfl⟩
  have rows : ∀ id, (((rowsFrom id values).filter fun row => row.range.overlaps range).map
      Written.listed).mapM ((inlined values).decodeListed range) = .ok results := by
    generalize inlined values = store
    induction values generalizing results with
    | nil =>
      cases decodes
      exact fun _ => rfl
    | cons value values ih =>
      intro id
      rw [rowsFrom]
      cases overlaps : value.1.overlaps range with
      | false =>
        rw [filter_cons_of_neg (by simp [overlaps])] at decodes ⊢
        exact ih decodes (id + 1)
      | true =>
        rw [filter_cons_of_pos (by simp [overlaps])] at decodes ⊢
        rcases decodes with _ | ⟨decoded, others⟩
        exact Except.mapM_eq_ok_iff.mpr (.cons (mapError_eq_ok_iff.mpr decoded)
          (Except.mapM_eq_ok_iff.mp (ih others (id + 1))))
  exact rows 0

end Inlined

/-! ### Tails too long for an offset -/

def octopus (extra : List U32) : Node :=
  { generation := 1, rootTree := 0, parent1 := 0, parent2 := 0, extra }

def merges (extra : List U32) : List (KeyRange × CommitIndex) :=
  [(⟨0, 0, le_rfl, Nat.zero_le _⟩, assemble ⟨0, [some (octopus extra)]⟩),
    (⟨1, 1, le_rfl, by norm_num [max64]⟩, assemble ⟨1, [some (octopus [0])]⟩)]

def crowded (extra : List U32) : CommitIndex :=
  assemble ⟨0, [some (octopus extra), some (octopus [0])]⟩

section Merges

variable {extra : List U32} {first : ℕ}

theorem fits_octopus (short : extra.length + 1 ≤ 2 ^ 32) :
    CommitIndex.Fits ⟨first, [some (octopus extra)]⟩ where
  present node held := by
    cases mem_singleton.mp held
    exact Fin.ne_of_val_ne (by norm_num [NONE, octopus])
  small := by
    simp only [Strided.total, map_cons, map_nil, sum_cons, sum_nil,
      Option.elim_some, Node.cost, octopus]
    split_ifs <;> omega

theorem range_octopus (named : first ≤ max64) (short : extra.length + 1 ≤ 2 ^ 32) :
    (assemble ⟨first, [some (octopus extra)]⟩).range = some ⟨first, first, le_rfl, named⟩ := by
  rw [CommitIndex.range_assemble (fits_octopus short)]
  exact KeyRange.new_eq_some_iff.mpr ⟨rfl, rfl⟩

theorem decode_octopus (named : first ≤ max63) (short : extra.length + 1 < 2 ^ 32) :
    CommitIndex.decodeRange (assemble ⟨first, [some (octopus extra)]⟩).encoded .everything =
      .ok (assemble ⟨first, [some (octopus extra)]⟩) := by
  have named64 : first ≤ max64 := named.trans (by norm_num [max63, max64])
  refine (CommitIndex.decode_assemble (fits_octopus short.le) (range_octopus named64 short.le) named
    (by norm_num) ?_).trans rfl
  refine lt_of_le_of_lt ?_ short
  simp only [Strided.total, map_cons, map_nil, sum_cons, sum_nil,
    Option.elim_some, Node.cost, octopus]
  split_ifs <;> omega

theorem catalogued_merges (short : extra.length + 1 < 2 ^ 32) :
    (inlined (merges extra)).Catalogued fun _ => True := by
  refine catalogued_inlined (forall_mem_cons.mpr ⟨⟨trivial, ?_⟩,
    forall_mem_cons.mpr ⟨⟨trivial, ?_⟩, forall_mem_nil _⟩⟩)
  · exact range_octopus _ short.le
  · exact range_octopus _ (by norm_num)

theorem decode_merges {first : ℕ} (named : first ≤ max63) (short : extra.length + 1 < 2 ^ 32) :
    Segment.decodeRange (Segment.encoded (assemble ⟨first, [some (octopus extra)]⟩)) .everything =
      .ok (assemble ⟨first, [some (octopus extra)]⟩) :=
  mapError_eq_ok_iff.mpr (decode_octopus named short)

theorem whole_merges (short : extra.length + 1 < 2 ^ 32) :
    (inlined (merges extra)).readAlone inOrder .everything =
      .ok (some (crowded extra)) := by
  have small : ([0] : List U32).length + 1 < 2 ^ 32 := by norm_num
  have all : ((merges extra).filter fun value => value.1.overlaps .everything) = merges extra := by
    exact filter_eq_self.mpr (forall_mem_cons.mpr ⟨rfl,
      forall_mem_cons.mpr ⟨rfl, forall_mem_nil _⟩⟩)
  have read := @readAlone_inlined CommitIndex _ (merges extra) .everything
    [assemble ⟨0, [some (octopus extra)]⟩, assemble ⟨1, [some (octopus [0])]⟩] (by
      rw [all]
      exact .cons (decode_merges (Nat.zero_le _) short)
        (.cons (decode_merges (by norm_num [max63]) small) .nil))
  rw [read]
  have join_ : CommitIndex.join (assemble ⟨0, [some (octopus extra)]⟩)
      (assemble ⟨1, [some (octopus [0])]⟩) = crowded extra := by
    rw [CommitIndex.join, CommitIndex.last_eq_slots, CommitIndex.last_eq_slots, CommitIndex.nodes,
      CommitIndex.nodes, CommitIndex.slots_assemble (fits_octopus short.le),
      CommitIndex.slots_assemble (fits_octopus small.le)]
    rfl
  exact congrArg (fun index => Except.ok (some index)) join_

/-- In a layout where the first merge's parents reach to the last offset, the second merge's are
lost. -/
theorem records_crowded (long : extra.length = 2 ^ 32 - 2) : (crowded extra).records =
    [{ parent1 := 0, parent2 := 0, rootTree := 0, generation := 1, extra := 0 },
      { parent1 := 0, parent2 := 0, rootTree := 0, generation := 1, extra := NONE }] := by
  have some_ : extra ≠ [] := fun none => by simp [none] at long
  have full : (tryU32 (extra.length + 1)).getD NONE = NONE := by
    rw [long]
    rfl
  have start : (tryU32 0).getD NONE = 0 := rfl
  simp [crowded, assemble, layOut, octopus, placeExtra, some_, full, start]

theorem view_crowded (long : extra.length = 2 ^ 32 - 2) :
    ((crowded extra).get 1).map Entry.view = some (0, 1, [0, 0]) := by
  have isFirst : (crowded extra).first = 0 := rfl
  rw [CommitIndex.get, isFirst, if_neg (by norm_num), Nat.sub_zero, records_crowded long]
  rfl

theorem part_merges : (inlined (merges extra)).readAlone inOrder ⟨1, 1, le_rfl, by decide⟩ =
    .ok (some (assemble ⟨1, [some (octopus [0])]⟩)) := by
  have decoded : Segment.decodeRange (Segment.encoded (assemble ⟨1, [some (octopus [0])]⟩))
      ⟨1, 1, le_rfl, by decide⟩ = .ok (assemble ⟨1, [some (octopus [0])]⟩) := by
    rfl
  exact @readAlone_inlined CommitIndex _ (merges extra) ⟨1, 1, le_rfl, by decide⟩
    [assemble ⟨1, [some (octopus [0])]⟩] (.cons decoded .nil)

theorem not_readsAgree_merges (long : extra.length = 2 ^ 32 - 2) :
    ¬(inlined (merges extra)).ReadsAgree fun index key => (index.get key).map Entry.view := by
  intro agree
  rcases agree inOrder inOrder ⟨1, 1, le_rfl, by decide⟩ 1 _ (by decide)
    (whole_merges (by omega)) with ⟨part, partRead, same⟩
  rw [part_merges] at partRead
  cases partRead
  simp only [Option.bind_some, view_crowded long] at same
  revert same
  decide

end Merges

/-- A merge with parents up to the last offset of a tail, and another one beside it: reading both
loses a parent that reading the second alone does not. -/
theorem crowded_reads_disagree :
    (inlined (merges (List.replicate (2 ^ 32 - 2) 0))).Catalogued (fun _ => True) ∧
      ¬(inlined (merges (List.replicate (2 ^ 32 - 2) 0))).ReadsAgree
        fun index key => (index.get key).map Entry.view := by
  have long : (List.replicate (2 ^ 32 - 2) (0 : U32)).length = 2 ^ 32 - 2 := length_replicate
  generalize List.replicate (2 ^ 32 - 2) (0 : U32) = extra at long ⊢
  exact ⟨catalogued_merges (by omega), not_readsAgree_merges long⟩

/-! ### All three indexes -/

/-- A ranged read of any of the three indexes agrees with a whole read at every key it was asked
for, of the parent graph while the tails of all segments together take no more than an offset of
thirty-two bits reaches. -/
theorem ranged_read_agrees [Roaring] :
    (∀ store : Store CommitIndex, (store.Catalogued fun _ => True) →
      store.weight (fun index => index.tail.length) ≤ 2 ^ 32 →
      store.ReadsAgree fun index key => (index.get key).map Entry.view) ∧
    (∀ store : Store PackIndex, (store.Catalogued fun _ => True) → store.ReadsAgree PackIndex.get) ∧
    (∀ store : Store ObjectIndex, store.Catalogued ObjectIndex.Stowable →
      store.ReadsAgree ObjectIndex.get) :=
  ⟨fun _ catalogued small => CommitIndex.reads_agree catalogued small,
    fun _ catalogued => PackIndex.reads_agree catalogued,
    fun _ catalogued => ObjectIndex.reads_agree catalogued⟩

/-- Sets of numbers below eight, a byte for each. -/
instance plainBitmaps : Roaring where
  serialize bitmap := some ((List.range 8).map fun seq => if seq ∈ bitmap then 1 else 0)
  deserialize bytes := some ((Finset.range 8).filter fun seq => bytes[seq]? = some 1)

def oneToTwo : KeyRange :=
  ⟨1, 2, by decide, by decide⟩

/-- Two overlapping segments of the parent graph, the second with a merge of three parents. -/
def forkedGraph : Store CommitIndex :=
  inlined [(⟨0, 1, by decide, by decide⟩, assemble ⟨0, [some ⟨1, 5, NONE, NONE, []⟩,
      some ⟨2, 6, 0, NONE, []⟩]⟩),
    (oneToTwo, assemble ⟨1, [some ⟨3, 6, 0, NONE, []⟩, some ⟨4, 7, 0, 1, [0]⟩]⟩)]

def forkedPacks : Store PackIndex :=
  inlined [(⟨0, 1, by decide, by decide⟩, ⟨⟨0, [some ⟨10, 20, 1, 0, 30, [1], []⟩,
      some ⟨11, 21, 1, 30, 31, [], [2]⟩]⟩⟩),
    (oneToTwo, ⟨⟨1, [some ⟨11, 21, 2, 0, 31, [], [2]⟩, some ⟨12, 22, 2, 31, 32, [3], [4]⟩]⟩⟩)]

def inPack (packSeq segment : ℕ) : Location :=
  { packSeq, packOid := 40 + packSeq, segment := ⟨segment, 0, 30⟩, offset := 12, entryLen := 8
    baseSeq := none }

def forkedObjects : Store ObjectIndex :=
  inlined [(⟨0, 1, by decide, by decide⟩, ⟨[(0, ⟨[inPack 0 1], ∅⟩), (1, ⟨[inPack 1 1], ∅⟩)]⟩),
    (oneToTwo, ⟨[(1, ⟨[inPack 0 2, inPack 1 2], ∅⟩), (2, ⟨[inPack 2 2], ∅⟩)]⟩)]

theorem catalogued_forkedGraph : forkedGraph.Catalogued fun _ => True :=
  catalogued_inlined (forall_mem_cons.mpr ⟨⟨trivial, by decide +kernel⟩,
    forall_mem_cons.mpr ⟨⟨trivial, by decide +kernel⟩, forall_mem_nil _⟩⟩)

theorem catalogued_forkedPacks : forkedPacks.Catalogued fun _ => True :=
  catalogued_inlined (forall_mem_cons.mpr ⟨⟨trivial, by decide +kernel⟩,
    forall_mem_cons.mpr ⟨⟨trivial, by decide +kernel⟩, forall_mem_nil _⟩⟩)

theorem catalogued_forkedObjects : forkedObjects.Catalogued ObjectIndex.Stowable :=
  catalogued_inlined (forall_mem_cons.mpr ⟨⟨⟨⟨by decide, by unfold Object.Reduced; decide⟩,
      by decide⟩, rfl⟩,
    forall_mem_cons.mpr ⟨⟨⟨⟨by decide, by unfold Object.Reduced; decide⟩, by decide⟩, rfl⟩,
      forall_mem_nil _⟩⟩)

theorem eq_ok_of_toOption {ε α : Type} {answer : Except ε α} {value : α}
    (isValue : answer.toOption = some value) : answer = .ok value := by
  cases answer with
  | error failure => cases isValue
  | ok result => exact congrArg _ (Option.some.inj isValue)

theorem ranged_read_agrees_forked :
    (∃ part, forkedGraph.readAlone inOrder oneToTwo = .ok part ∧
      (part.bind fun index => (index.get 2).map Entry.view) = some (7, 4, [0, 1, 0])) ∧
    (∃ part, forkedPacks.readAlone inOrder oneToTwo = .ok part ∧
      part.bind (·.get 1) = some ⟨11, 21, 2, 0, 31, [], [2]⟩) ∧
    ∃ part, forkedObjects.readAlone inOrder oneToTwo = .ok part ∧
      part.bind (·.get 1) = some ⟨[inPack 0 2, inPack 1 2], ∅⟩ := by
  have agrees := @ranged_read_agrees plainBitmaps
  refine ⟨?_, ?_, ?_⟩
  · have wholeRead : forkedGraph.readAlone inOrder .everything = .ok (some
        (assemble ⟨0, [some ⟨1, 5, NONE, NONE, []⟩, some ⟨3, 6, 0, NONE, []⟩,
          some ⟨4, 7, 0, 1, [0]⟩]⟩)) := eq_ok_of_toOption (by decide +kernel)
    rcases agrees.1 forkedGraph catalogued_forkedGraph (by decide +kernel) inOrder inOrder oneToTwo 2 _
      (by decide) wholeRead with ⟨part, partRead, same⟩
    exact ⟨part, partRead, same.trans (by decide +kernel)⟩
  · have wholeRead : forkedPacks.readAlone inOrder .everything = .ok (some
        ⟨⟨0, [some ⟨10, 20, 1, 0, 30, [1], []⟩, some ⟨11, 21, 2, 0, 31, [], [2]⟩,
          some ⟨12, 22, 2, 31, 32, [3], [4]⟩]⟩⟩) := eq_ok_of_toOption (by decide +kernel)
    rcases agrees.2.1 forkedPacks catalogued_forkedPacks inOrder inOrder oneToTwo 1 _
      (by decide) wholeRead with ⟨part, partRead, same⟩
    exact ⟨part, partRead, same.trans (by decide +kernel)⟩
  · have wholeRead : forkedObjects.readAlone inOrder .everything = .ok (some
        ⟨[(0, ⟨[inPack 0 1], ∅⟩), (1, ⟨[inPack 0 2, inPack 1 2], ∅⟩), (2, ⟨[inPack 2 2], ∅⟩)]⟩) :=
      eq_ok_of_toOption (by decide +kernel)
    rcases agrees.2.2 forkedObjects catalogued_forkedObjects inOrder inOrder oneToTwo 1 _
      (by decide) wholeRead with ⟨part, partRead, same⟩
    exact ⟨part, partRead, same.trans (by decide +kernel)⟩

end Enroute.Stored
