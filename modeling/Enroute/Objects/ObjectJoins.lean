import Enroute.Objects.ObjectSegment

/-!
# The join of object indexes

What the builder, the decoder and joins produce has its entries in order and one location for each
pack of an object. Such indexes are told by what they hold at each number, and there a join merges
sets of children and keeps the newest location of each pack, so the laws hold whatever is joined.
-/

namespace Enroute.Stored

open Enroute.Lattice Fields Join List

structure InWidth (location : Location) : Prop where
  packSeq : location.packSeq ≤ max63
  packOid : location.packOid < 2 ^ 160
  segmentId : location.segment.id < 2 ^ 128
  baseOffset : location.segment.baseOffset ≤ max64
  imageLen : location.segment.imageLen ≤ max64
  offset : location.offset ≤ max64
  entryLen : location.entryLen ≤ max64
  baseSeq : ∀ base ∈ location.baseSeq, base ≤ max64

def ChildrenInWidth (children : ObjectSeqs) : Prop :=
  (∀ seq ∈ children.trees, seq ≤ max64) ∧ ∀ seq ∈ children.blobs, seq ≤ max64

inductive Builder.Reached : Builder → Prop
  | new : Reached ∅
  | locate {builder : Builder} {seq : ℕ} {location : Location} :
      Reached builder → seq ≤ max64 → InWidth location → Reached (builder.locate seq location)
  | children {builder : Builder} {seq : ℕ} {children : ObjectSeqs} :
      Reached builder → seq ≤ max64 → ChildrenInWidth children →
      Reached (builder.children seq children)

namespace Builder

/-- Numbers and locations in the widths they have, and one location for each pack. -/
structure Sound (builder : Builder) : Prop where
  reduced : Reduced builder
  named : ∀ (seq : ℕ) (object : Object), builder[seq]? = some object → seq ≤ max64
  inWidth : ∀ (seq : ℕ) (object : Object), builder[seq]? = some object →
    (∀ location ∈ object.locations, InWidth location) ∧ ChildrenInWidth object.children

theorem childrenInWidth_empty : ChildrenInWidth ∅ :=
  ⟨fun _ => nofun, fun _ => nofun⟩

theorem childrenInWidth_absorb {children added : ObjectSeqs} (fits : ChildrenInWidth children)
    (addedFits : ChildrenInWidth added) : ChildrenInWidth (children.absorb added) := by
  refine ⟨fun seq listed => ?_, fun seq listed => ?_⟩
  · rcases Finset.mem_union.mp listed with mine | theirs
    · exact fits.1 seq mine
    · exact addedFits.1 seq theirs
  · rcases Finset.mem_union.mp listed with mine | theirs
    · exact fits.2 seq mine
    · exact addedFits.2 seq theirs

theorem Sound.getD {builder : Builder} (sound : Sound builder) (seq : ℕ) :
    (∀ location ∈ (builder[seq]?.getD ∅).locations, InWidth location) ∧
      ChildrenInWidth (builder[seq]?.getD ∅).children := by
  cases found : builder[seq]? with
  | none => exact ⟨forall_mem_nil _, childrenInWidth_empty⟩
  | some object => exact sound.inWidth seq object found

theorem Reached.sound {builder : Builder} (reached : Reached builder) : Sound builder := by
  induction reached with
  | new =>
    have nothing : ∀ (seq : ℕ) (object : Object), (∅ : Builder)[seq]? ≠ some object := by
      intro seq object found
      rw [Std.TreeMap.getElem?_emptyc] at found
      cases found
    exact ⟨reduced_empty, fun seq object found => absurd found (nothing seq object),
      fun seq object found => absurd found (nothing seq object)⟩
  | @locate builder seq location _ named fits ih =>
    have held := ih.getD seq
    refine ⟨reduced_locate ih.reduced seq location, fun other object found => ?_,
      fun other object found => ?_⟩
    · rw [Builder.locate, Std.TreeMap.getElem?_alter] at found
      split_ifs at found with same
      · rw [← Nat.compare_eq_eq.mp same]
        exact named
      · exact ih.named other object found
    · rw [Builder.locate, Std.TreeMap.getElem?_alter] at found
      split_ifs at found with same
      · simp only at found
        split_ifs at found
        · rw [← Option.some.inj found]
          exact held
        · rw [← Option.some.inj found]
          refine ⟨fun one kept => ?_, held.2⟩
          have listed := Location.mem_of_mem_keepNewestPerPack kept
          rw [mem_insertionSort, mem_append, mem_singleton] at listed
          rcases listed with before | rfl
          · exact held.1 one before
          · exact fits
      · exact ih.inWidth other object found
  | @children builder seq added _ named fits ih =>
    refine ⟨reduced_children ih.reduced seq added, fun other object found => ?_,
      fun other object found => ?_⟩
    · rw [Builder.children] at found
      split_ifs at found
      · exact ih.named other object found
      · rw [Std.TreeMap.getElem?_alter] at found
        split_ifs at found with same
        · rw [← Nat.compare_eq_eq.mp same]
          exact named
        · exact ih.named other object found
    · rw [Builder.children] at found
      split_ifs at found
      · exact ih.inWidth other object found
      · rw [Std.TreeMap.getElem?_alter] at found
        split_ifs at found with same
        · rw [← Option.some.inj found]
          exact ⟨(ih.getD seq).1, childrenInWidth_absorb (ih.getD seq).2 fits⟩
        · exact ih.inWidth other object found

end Builder

namespace ObjectIndex

/-- Entries in order, with one location for each pack and all numbers in the widths they have. -/
structure Sound (index : ObjectIndex) : Prop extends Reduced index where
  named : ∀ entry ∈ index.entries, entry.1 ≤ max64
  inWidth : ∀ entry ∈ index.entries, ∀ location ∈ entry.2.locations, InWidth location

variable {index other : ObjectIndex}

theorem sound_build {builder : Builder} (sound : builder.Sound) : builder.build.Sound where
  toReduced := sound.reduced.build
  named entry listed := sound.named entry.1 entry.2
    (Std.TreeMap.mem_toList_iff_getElem?_eq_some.mp (mem_of_mem_filter listed))
  inWidth entry listed := (sound.inWidth entry.1 entry.2
    (Std.TreeMap.mem_toList_iff_getElem?_eq_some.mp (mem_of_mem_filter listed))).1

theorem Reduced.ext (reduced : index.Reduced) (otherReduced : other.Reduced)
    (same : ∀ seq, index.get seq = other.get seq) : index = other := by
  have nodup : ∀ {one : ObjectIndex}, one.Reduced → one.entries.Nodup := fun oneReduced =>
    oneReduced.ascending.imp fun less equal => (equal ▸ less).ne rfl
  have members : ∀ entry, entry ∈ index.entries ↔ entry ∈ other.entries := by
    rintro ⟨seq, object⟩
    rw [← get_eq_some_iff reduced.ascending, ← get_eq_some_iff otherReduced.ascending]
    exact same seq ▸ Iff.rfl
  have perm := (perm_ext_iff_of_nodup (nodup reduced) (nodup otherReduced)).mpr members
  have equal := perm.eq_of_pairwise
    (fun earlier later _ _ less more => absurd more less.not_gt) reduced.ascending
    otherReduced.ascending
  cases index
  cases other
  exact congrArg ObjectIndex.mk equal

theorem merge_self {object : Object} (reduced : object.Reduced) : object.merge object = object := by
  have distinct : (object.reduce.locations.map Location.packSeq).Nodup := by
    rw [List.Nodup, pairwise_map]
    exact object.reduce.ascending.imp fun less => less.ne
  have absorbed : object.reduce.absorb object.reduce = object.reduce := by
    refine IndexedObject.ext_iff_mem.mpr ⟨?_, fun location => ?_⟩
    · exact congrArg₂ ObjectSeqs.mk (Finset.union_self _) (Finset.union_self _)
    · rw [IndexedObject.mem_absorb]
      simp only [or_self]
      refine ⟨And.left, fun listed => ⟨listed, fun held heldMem samePack => ?_⟩⟩
      rw [inj_on_of_nodup_map distinct heldMem listed samePack]
      exact refl_of Location.Before location
  rw [Object.merge, absorbed, Object.ofIndexed, Object.reduce]
  simp only [Object.keepNewest_sort reduced]

section Bitmaps

variable [Roaring]

theorem lawfulOn_reduced : LawfulOn Reduced := by
  refine pointwise.lawfulOn (fun reduced otherReduced => reduced.ext otherReduced) ?_
  intro held seq object reduced found
  exact merge_self (reduced.reduced _ ((get_eq_some_iff reduced.ascending).mp found))

inductive Produced : ObjectIndex → Prop
  | built {builder : Builder} : builder.Reached → Produced builder.build
  | decoded {index part : ObjectIndex} {range : KeyRange} :
      Produced index → decodeRange index.encoded range = .ok part → Produced part
  | joined {index other : ObjectIndex} :
      Produced index → Produced other → Produced (index.join other)

omit [Roaring] in
theorem Sound.exists_range (sound : index.Sound) (some_ : index.entries ≠ []) :
    ∃ covered, index.range = some covered := by
  have isFirst := List.head?_eq_some_head some_
  have isLast := List.getLast?_eq_some_getLast some_
  have lastNamed := sound.named _ (getLast_mem some_)
  have ordered : (index.entries.head some_).1 ≤ (index.entries.getLast some_).1 := by
    have ascending := sound.ascending
    have listed := getLast_mem some_
    rcases List.head?_eq_some_iff.mp isFirst with ⟨rest, isEntries⟩
    generalize index.entries.head some_ = first at isEntries ⊢
    generalize index.entries.getLast some_ = last at listed ⊢
    rw [isEntries] at ascending listed
    rcases mem_cons.mp listed with same | later
    · rw [same]
    · exact (rel_of_pairwise_cons ascending later).le
  refine ⟨⟨_, _, ordered, lastNamed⟩, ?_⟩
  rw [ObjectIndex.range, isFirst, isLast]
  exact KeyRange.new_eq_some_iff.mpr ⟨rfl, rfl⟩

omit [Roaring] in
theorem inWidth_readBack {location : Location} (fits : InWidth location) :
    InWidth (readLocation (writeLocation location)) := by
  have small : ∀ at_, field 8 (writeLocation location) at_ ≤ max64 := fun at_ =>
    Nat.le_sub_one_of_lt ((field_lt 8 _ at_).trans_eq (by norm_num))
  refine ⟨?_, ?_, ?_, small 68, small 76, small 8, small 16, fun base isBase => ?_⟩
  · rw [packSeq_readLocation fits.packSeq]
    exact fits.packSeq
  · have bound := field_lt 20 (writeLocation location) 32
    rwa [show 256 ^ 20 = 2 ^ 160 by norm_num] at bound
  · have bound := field_lt 16 (writeLocation location) 52
    rwa [show 256 ^ 16 = 2 ^ 128 by norm_num] at bound
  · simp only [readLocation] at isBase
    split_ifs at isBase
    · cases isBase
    · rw [← Option.some.inj isBase]
      exact small 24

theorem entries_of_decodeRange_nil {part : ObjectIndex} {range : KeyRange}
    (none : index.entries = []) (decoded : decodeRange index.encoded range = .ok part) :
    part.entries = [] := by
  rw [decodeRange, Except.bind_eq_ok_iff] at decoded
  rcases decoded with ⟨header, isHeader, rest⟩
  have read := mapError_eq_ok_iff.mp isHeader
  rw [encoded, none] at read
  have sized : (([] : List EntryRow).flatMap EntryRow.write ++ ([] : List UInt8)).length =
      0 * OBJECTS.record + 0 * OBJECTS.unit := by simp
  have same : header = ⟨0, 0, 0⟩ := (eq_of_readHeader (Nat.zero_le _) sized read).1
  simp only [same, Except.bind_eq_ok_iff, Except.pure_eq_ok_iff] at rest
  rcases rest with ⟨entries, isEntries, rfl⟩
  cases isEntries
  rfl

theorem Sound.decoded {part : ObjectIndex} {range : KeyRange} (sound : index.Sound)
    (decoded : decodeRange index.encoded range = .ok part) : part.Sound := by
  by_cases none : index.entries = []
  · have nothing := entries_of_decodeRange_nil none decoded
    exact ⟨⟨nothing ▸ .nil, nothing ▸ forall_mem_nil _⟩, nothing ▸ forall_mem_nil _,
      nothing ▸ forall_mem_nil _⟩
  · rcases sound.exists_range none with ⟨covered, isRange⟩
    rcases exists_of_mapError_bind decoded with ⟨_, read⟩
    rcases eq_header_of_read sound.toReduced isRange read with ⟨rfl, small⟩
    rw [decodeRange_of_header read] at decoded
    cases isAll : index.readAll range with
    | error failure =>
      rw [isAll] at decoded
      cases decoded
    | ok all =>
      rw [isAll] at decoded
      cases decoded
      have originals := fun entry (listed : entry ∈ all) =>
        exists_original sound.named small isAll listed
      refine ⟨⟨(ascending_of_readEntries isAll).1, fun entry listed => ?_⟩,
        fun entry listed => ?_, fun entry listed location located => ?_⟩
      · rcases originals entry listed with ⟨original, originalMem, -, isLocations⟩
        refine reduced_readBack (sound.reduced _ originalMem) (fun location located => ?_)
          isLocations
        exact (sound.inWidth _ originalMem location located).packSeq
      · rcases originals entry listed with ⟨original, originalMem, sameSeq, -⟩
        exact sameSeq ▸ sound.named original originalMem
      · rcases originals entry listed with ⟨original, originalMem, -, isLocations⟩
        rw [isLocations] at located
        rcases mem_map.mp located with ⟨written, writtenMem, rfl⟩
        exact inWidth_readBack (sound.inWidth _ originalMem written writtenMem)

omit [Roaring] in
theorem Sound.joined (sound : index.Sound) (otherSound : other.Sound) :
    (index.join other).Sound := by
  have reduced := reduced_join sound.toReduced otherSound.toReduced
  -- An entry of the join comes from one side, or merges entries of both.
  have from_ : ∀ entry ∈ (index.join other).entries, entry.1 ≤ max64 ∧
      ∀ location ∈ entry.2.locations, InWidth location := by
    rintro ⟨seq, object⟩ listed
    have found := (get_eq_some_iff reduced.ascending).mpr listed
    rw [get_join sound.toReduced otherSound.toReduced] at found
    have mineMem : ∀ {held : Object}, index.get seq = some held → (seq, held) ∈ index.entries :=
      fun isHeld => (get_eq_some_iff sound.ascending).mp isHeld
    have theirMem : ∀ {held : Object}, other.get seq = some held → (seq, held) ∈ other.entries :=
      fun isHeld => (get_eq_some_iff otherSound.ascending).mp isHeld
    cases mine : index.get seq with
    | none =>
      rw [mine, Option.merge_none_left] at found
      exact ⟨otherSound.named _ (theirMem found), otherSound.inWidth _ (theirMem found)⟩
    | some held =>
      have named : seq ≤ max64 := sound.named _ (mineMem mine)
      refine ⟨named, ?_⟩
      cases theirs : other.get seq with
      | none =>
        rw [mine, theirs, Option.merge_none_right, Option.some.injEq] at found
        rw [← found]
        exact sound.inWidth _ (mineMem mine)
      | some theirHeld =>
        rw [mine, theirs, Option.merge_some_some, Option.some.injEq] at found
        rw [← found, ← Object.absorb_eq_merge (sound.reduced _ (mineMem mine))
          (otherSound.reduced _ (theirMem theirs)), Object.absorb]
        intro location located
        simp only at located
        split_ifs at located
        · exact sound.inWidth _ (mineMem mine) location located
        · have listed := Location.mem_of_mem_keepNewestPerPack located
          rw [mem_insertionSort, mem_append] at listed
          rcases listed with inMine | inTheirs
          · exact sound.inWidth _ (mineMem mine) location inMine
          · exact otherSound.inWidth _ (theirMem theirs) location inTheirs
  exact ⟨reduced, fun entry listed => (from_ entry listed).1, fun entry listed =>
    (from_ entry listed).2⟩

theorem Produced.sound (produced : index.Produced) : index.Sound := by
  induction produced with
  | built reached => exact sound_build reached.sound
  | decoded _ decodes ih => exact ih.decoded decodes
  | joined _ _ ih otherIh => exact ih.joined otherIh

theorem semilattice :
    Join.Semilattice fun values : List ObjectIndex => ∀ value ∈ values, value.Produced :=
  .of_lawfulOn fun _ produced =>
    ⟨_, lawfulOn_reduced, fun value listed => (produced value listed).sound.toReduced⟩

end Bitmaps

end ObjectIndex

end Enroute.Stored
