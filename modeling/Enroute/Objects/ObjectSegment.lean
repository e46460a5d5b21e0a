import Enroute.Lattice.Frame
import Enroute.Lattice.Reading
import Enroute.Objects.Index

/-!
# The object index as a segment

Entries in the order of their numbers, each with its own key: an object gains packs after it is
first recorded, so what a segment holds is scattered over the whole space. An entry is twenty bytes,
a number and three offsets into a heap, where the locations and the two bitmaps of children stand.
Decoding checks the order over the whole array and reads only the entries that were asked for.
-/

namespace Enroute.Stored

open Enroute.Lattice Fields Join List

class Roaring where
  serialize : Finset ℕ → Option (List UInt8)
  deserialize : List UInt8 → Option (Finset ℕ)

def ENTRY : ℕ :=
  20

def LOCATION : ℕ :=
  84

def OBJECTS : Layout :=
  { magic := [79, 73, 88, 49], record := ENTRY, unit := 1
    magic_length := rfl, record_pos := by decide, unit_pos := Nat.one_pos }

def NOBASE : ℕ :=
  max64

inductive MalformedObjects where
  | frame (error : Frame)
  | strayHeap (offset : U32)
  | unsorted (position : ℕ)
  | bitmap
  deriving DecidableEq, Repr

def MalformedObjects.message : MalformedObjects → String
  | .frame error => error.message
  | .strayHeap offset => "a heap reference to offset " ++ toString offset.val ++
      ", which is not in the heap"
  | .unsorted position => "object index entries out of order at " ++ toString position
  | .bitmap => "a tree's children are not a bitmap"

structure Object where
  locations : List Location
  children : ObjectSeqs
  deriving DecidableEq

namespace Object

instance : EmptyCollection Object := ⟨⟨[], ∅⟩⟩

def isEmpty (object : Object) : Bool :=
  object.locations.isEmpty && object.children.isEmpty

def absorb (object other : Object) : Object where
  locations :=
    if other.locations = [] then object.locations
    else Location.keepNewestPerPack
      ((object.locations ++ other.locations).insertionSort Location.Before)
  children := object.children.absorb other.children

end Object

structure ObjectIndex where
  entries : List (ℕ × Object)
  deriving DecidableEq

structure EntryRow where
  seq : ℕ
  locationsAt : U32
  treesAt : U32
  blobsAt : U32

def EntryRow.write (row : EntryRow) : List UInt8 :=
  toLe 8 row.seq ++ (toLe 4 row.locationsAt.val ++ (toLe 4 row.treesAt.val ++
    toLe 4 row.blobsAt.val))

def writeLocation (location : Location) : List UInt8 :=
  toLe 8 location.packSeq ++ (toLe 8 location.offset ++ (toLe 8 location.entryLen ++
    (toLe 8 (location.baseSeq.getD NOBASE) ++ (toLe 20 location.packOid ++
      (toLe 16 location.segment.id ++ (toLe 8 location.segment.baseOffset ++
        toLe 8 location.segment.imageLen))))))

def readLocation (record : List UInt8) : Location where
  packSeq := field 8 record 0
  offset := field 8 record 8
  entryLen := field 8 record 16
  baseSeq := if field 8 record 24 = NOBASE then none else some (field 8 record 24)
  packOid := field 20 record 32
  segment := { id := field 16 record 52, baseOffset := field 8 record 68
               imageLen := field 8 record 76 }

def stowLocations (locations : List Location) (heap : List UInt8) : U32 × List UInt8 :=
  if locations = [] then (NONE, heap)
  else ((tryU32 heap.length).getD NONE, heap ++
    (toLe 4 ((tryU32 locations.length).getD 0 : U32).val ++ locations.flatMap writeLocation))

def readLocations (at_ : U32) (heap : List UInt8) : Except MalformedObjects (List Location) :=
  if at_ = NONE then .ok []
  else match blobLength at_ heap with
    | none => .error (.strayHeap at_)
    | some count => readWindow LOCATION (.strayHeap at_) (fun record => .ok (readLocation record))
        (heap.drop (at_.val + 4)) 0 count.val

section Bitmaps

variable [Roaring]

def encodeBitmap (bitmap : Finset ℕ) : Option (List UInt8) :=
  if bitmap = ∅ then some [] else Roaring.serialize bitmap

def decodeBitmap (bytes : List UInt8) : Option (Finset ℕ) :=
  if bytes = [] then some ∅ else Roaring.deserialize bytes

def stowBitmap (bitmap : Finset ℕ) (heap : List UInt8) : U32 × List UInt8 :=
  match encodeBitmap bitmap with
  | none => (NONE, heap)
  | some bytes => stow bytes heap

def readBitmap (at_ : U32) (heap : List UInt8) : Except MalformedObjects (Finset ℕ) :=
  match fetchBlob at_ heap with
  | none => .error (.strayHeap at_)
  | some bytes =>
    match decodeBitmap bytes with
    | none => .error .bitmap
    | some bitmap => .ok bitmap

def stowEntries : List (ℕ × Object) → List UInt8 → List EntryRow × List UInt8
  | [], heap => ([], heap)
  | (seq, object) :: entries, heap =>
    let locations := stowLocations object.locations heap
    let trees := stowBitmap object.children.trees locations.2
    let blobs := stowBitmap object.children.blobs trees.2
    let rest := stowEntries entries blobs.2
    (⟨seq, locations.1, trees.1, blobs.1⟩ :: rest.1, rest.2)

def readObject (heap entry : List UInt8) : Except MalformedObjects Object := do
  let locations ← readLocations (field32 entry 8) heap
  let trees ← readBitmap (field32 entry 12) heap
  let blobs ← readBitmap (field32 entry 16) heap
  return { locations, children := { trees, blobs } }

/-- The entries at some positions that a range asks for. All are checked to be in order, whether
they are asked for or not. -/
def readEntries (body heap : List UInt8) (truncated : MalformedObjects) (range : KeyRange) :
    List ℕ → Option ℕ → Except MalformedObjects (List (ℕ × Object))
  | [], _ => .ok []
  | position :: positions, previous =>
    match slice body (position * ENTRY) ENTRY with
    | none => .error truncated
    | some entry =>
      if previous.any (field 8 entry 0 ≤ ·) then .error (.unsorted position)
      else if range.contains (field 8 entry 0) then do
        let object ← readObject heap entry
        let entries ← readEntries body heap truncated range positions (some (field 8 entry 0))
        return (field 8 entry 0, object) :: entries
      else readEntries body heap truncated range positions (some (field 8 entry 0))

end Bitmaps

namespace ObjectIndex

/-- What the index knows about a number. The entries are in order, so a binary search finds what a
scan does. -/
def get (index : ObjectIndex) (seq : ℕ) : Option Object :=
  (index.entries.find? fun entry => entry.1 = seq).map Prod.snd

def range (index : ObjectIndex) : Option KeyRange :=
  match index.entries.head?, index.entries.getLast? with
  | some first, some last => KeyRange.new first.1 last.1
  | _, _ => none

def mergeInto (merged : Std.TreeMap ℕ Object) (entry : ℕ × Object) : Std.TreeMap ℕ Object :=
  merged.alter entry.1 fun held => some ((held.getD ∅).absorb entry.2)

def join (index other : ObjectIndex) : ObjectIndex :=
  if other.entries = [] then index
  else if index.entries = [] then other
  else ⟨(other.entries.foldl mergeInto (.ofList index.entries)).toList⟩

variable [Roaring]

def encoded (index : ObjectIndex) : List UInt8 :=
  let stowed := stowEntries index.entries []
  writeHeader { first := (index.entries.head?.map Prod.fst).getD 0
                records := index.entries.length, tail := stowed.2.length } OBJECTS ++
    (stowed.1.flatMap EntryRow.write ++ stowed.2)

def decodeRange (bytes : List UInt8) (range : KeyRange) : Except MalformedObjects ObjectIndex := do
  let header ← (readHeader bytes OBJECTS).mapError .frame
  let body := bytes.drop HEADER
  let heap := body.drop (header.records * ENTRY)
  let entries ← readEntries body heap
    (.frame (.truncated (HEADER + header.records * ENTRY) bytes.length)) range
    (List.range' 0 header.records) none
  return ⟨entries⟩

end ObjectIndex

instance [Roaring] : Segment ObjectIndex where
  join := ObjectIndex.join
  range := ObjectIndex.range
  encoded := ObjectIndex.encoded
  decodeRange bytes range := (ObjectIndex.decodeRange bytes range).mapError MalformedObjects.message

/-! ### Merging objects -/

namespace Object

def Reduced (object : Object) : Prop :=
  object.locations.Pairwise fun earlier later => earlier.packSeq < later.packSeq

def reduce (object : Object) : IndexedObject where
  locations := Location.keepNewestPerPack (object.locations.insertionSort Location.Before)
  children := object.children
  ascending := Location.keepNewestPerPack_ascending
    ((pairwise_insertionSort Location.Before _).imp Location.packSeq_le_of_before)

def ofIndexed (object : IndexedObject) : Object :=
  ⟨object.locations, object.children⟩

def merge (object other : Object) : Object :=
  ofIndexed (object.reduce.absorb other.reduce)

theorem keepNewest_sort {locations : List Location}
    (ascending : locations.Pairwise fun earlier later => earlier.packSeq < later.packSeq) :
    Location.keepNewestPerPack (locations.insertionSort Location.Before) = locations := by
  have sorted := ascending.imp Location.before_of_packSeq_lt
  rw [sorted.insertionSort_eq, Location.keepNewestPerPack_of_ascending ascending]

theorem reduce_ofIndexed (object : IndexedObject) : (ofIndexed object).reduce = object := by
  rcases object with ⟨locations, children, ascending⟩
  simp only [reduce, ofIndexed, keepNewest_sort ascending]

instance : Std.Commutative merge :=
  ⟨fun object other => by rw [merge, merge, IndexedObject.absorb_comm]⟩

instance : Std.Associative merge :=
  ⟨fun object other third => by
    simp only [merge, reduce_ofIndexed, IndexedObject.absorb_assoc]⟩

variable {object other : Object}

theorem absorb_eq_merge (reduced : object.Reduced) (otherReduced : other.Reduced) :
    object.absorb other = object.merge other := by
  rw [merge, ofIndexed, absorb, IndexedObject.absorb]
  simp only [reduce, keepNewest_sort reduced, keepNewest_sort otherReduced]
  split_ifs with none
  · rw [none, append_nil, keepNewest_sort reduced]
  · rfl

theorem reduced_empty : (∅ : Object).Reduced :=
  List.Pairwise.nil

theorem empty_absorb (reduced : object.Reduced) : (∅ : Object).absorb object = object := by
  rcases object with ⟨locations, children⟩
  have children_ : (∅ : ObjectSeqs).absorb children = children := by
    change ObjectSeqs.mk (∅ ∪ children.trees) (∅ ∪ children.blobs) = children
    rw [Finset.empty_union, Finset.empty_union]
  have located : (if locations = [] then [] else Location.keepNewestPerPack
      (([] ++ locations).insertionSort Location.Before)) = locations := by
    split_ifs with none
    · exact none.symm
    · exact keepNewest_sort reduced
  exact congrArg₂ Object.mk located children_

end Object

namespace ObjectIndex

/-- Entries in order, each object with one location for each pack: what a builder builds and a join
keeps. -/
structure Reduced (index : ObjectIndex) : Prop where
  ascending : index.entries.Pairwise fun earlier later => earlier.1 < later.1
  reduced : ∀ entry ∈ index.entries, entry.2.Reduced

variable {index other : ObjectIndex} {seq : ℕ} {object : Object}

variable {entries : List (ℕ × Object)}

theorem get_eq_some_iff (ascending : entries.Pairwise fun earlier later => earlier.1 < later.1) :
    get ⟨entries⟩ seq = some object ↔ (seq, object) ∈ entries := by
  rw [get, Option.map_eq_some_iff]
  constructor
  · rintro ⟨entry, found, rfl⟩
    have isSeq := List.find?_some found
    rw [decide_eq_true_eq] at isSeq
    exact isSeq ▸ mem_of_find?_eq_some found
  · intro listed
    induction entries with
    | nil => cases listed
    | cons entry entries ih =>
      rcases mem_cons.mp listed with rfl | later
      · exact ⟨(seq, object), by simp, rfl⟩
      · have less := rel_of_pairwise_cons ascending later
        have different : ¬entry.1 = seq := fun same => by
          simp only [same, lt_self_iff_false] at less
        rw [List.find?_cons_of_neg (by simpa using different)]
        exact ih ascending.of_cons later

theorem toList_ascending (merged : Std.TreeMap ℕ Object) :
    merged.toList.Pairwise fun earlier later => earlier.1 < later.1 := by
  simpa only [Nat.compare_eq_lt] using Std.TreeMap.ordered_keys_toList (t := merged)

theorem get_toList (merged : Std.TreeMap ℕ Object) (seq : ℕ) :
    get ⟨merged.toList⟩ seq = merged[seq]? := by
  ext object
  rw [get_eq_some_iff (toList_ascending merged), Std.TreeMap.mem_toList_iff_getElem?_eq_some]

theorem getElem?_ofList (ascending : entries.Pairwise fun earlier later => earlier.1 < later.1)
    (seq : ℕ) : (Std.TreeMap.ofList entries)[seq]? = get ⟨entries⟩ seq := by
  cases found : get ⟨entries⟩ seq with
  | none =>
    refine Std.TreeMap.getElem?_ofList_of_contains_eq_false ?_
    rw [contains_eq_mem, decide_eq_false_iff_not, mem_map]
    rintro ⟨⟨key, object⟩, listed, rfl⟩
    rw [(get_eq_some_iff ascending).mpr listed] at found
    cases found
  | some object =>
    refine Std.TreeMap.getElem?_ofList_of_mem (Nat.compare_eq_eq.mpr rfl) ?_
      ((get_eq_some_iff ascending).mp found)
    exact ascending.imp fun less same => less.ne (Nat.compare_eq_eq.mp same)

theorem get_cons {entry : ℕ × Object} :
    get ⟨entry :: entries⟩ seq = if entry.1 = seq then some entry.2 else get ⟨entries⟩ seq := by
  rw [get, get, List.find?_cons]
  split_ifs with same <;> simp [same]

theorem getElem?_foldl_mergeInto
    (ascending : entries.Pairwise fun earlier later => earlier.1 < later.1)
    (merged : Std.TreeMap ℕ Object) (seq : ℕ) :
    (entries.foldl mergeInto merged)[seq]? =
      match get ⟨entries⟩ seq with
      | none => merged[seq]?
      | some object => some ((merged[seq]?.getD ∅).absorb object) := by
  induction entries generalizing merged with
  | nil => rfl
  | cons entry entries ih =>
    rw [foldl_cons, ih ascending.of_cons, get_cons, mergeInto, Std.TreeMap.getElem?_alter]
    simp only [Nat.compare_eq_eq]
    by_cases same : entry.1 = seq
    · have gone : get ⟨entries⟩ seq = none := by
        by_contra found
        rcases Option.ne_none_iff_exists'.mp found with ⟨object, isObject⟩
        have less := rel_of_pairwise_cons ascending
          ((get_eq_some_iff ascending.of_cons).mp isObject)
        exact less.ne same
      simp only [gone, same, if_true]
    · simp only [if_neg same]

theorem get_eq_none_of_nil (noEntries : index.entries = []) : index.get seq = none := by
  rw [get, noEntries]
  rfl

theorem get_join (reduced : index.Reduced) (otherReduced : other.Reduced) (seq : ℕ) :
    (index.join other).get seq = Option.merge Object.merge (index.get seq) (other.get seq) := by
  have member : ∀ {side : ObjectIndex} {object : Object}, side.Reduced →
      side.get seq = some object → object.Reduced := fun sideReduced found =>
    sideReduced.reduced _ ((get_eq_some_iff sideReduced.ascending).mp found)
  rw [join]
  split_ifs with noOther noIndex
  · rw [get_eq_none_of_nil noOther, Option.merge_none_right]
  · rw [get_eq_none_of_nil noIndex, Option.merge_none_left]
  · rw [get_toList, getElem?_foldl_mergeInto otherReduced.ascending,
      getElem?_ofList reduced.ascending]
    change (match other.get seq with
      | none => index.get seq
      | some object => some (((index.get seq).getD ∅).absorb object)) = _
    cases theirs : other.get seq with
    | none => rw [Option.merge_none_right]
    | some object =>
      have objectReduced := member otherReduced theirs
      cases mine : index.get seq with
      | none =>
        rw [Option.merge_none_left]
        exact congrArg some (Object.empty_absorb objectReduced)
      | some held =>
        exact congrArg some (Object.absorb_eq_merge (member reduced mine) objectReduced)

theorem reduced_join (reduced : index.Reduced) (otherReduced : other.Reduced) :
    (index.join other).Reduced := by
  have holds := get_join reduced otherReduced
  rw [join] at holds ⊢
  split_ifs at holds ⊢
  · exact reduced
  · exact otherReduced
  · refine ⟨toList_ascending _, fun entry listed => ?_⟩
    have found := holds entry.1
    rw [(get_eq_some_iff (toList_ascending _)).mpr listed] at found
    cases mine : index.get entry.1 with
    | none =>
      rw [mine, Option.merge_none_left] at found
      exact otherReduced.reduced _ ((get_eq_some_iff otherReduced.ascending).mp found.symm)
    | some held =>
      cases theirs : other.get entry.1 with
      | none =>
        rw [mine, theirs, Option.merge_none_right] at found
        exact reduced.reduced _ ((get_eq_some_iff reduced.ascending).mp (mine.trans found.symm))
      | some object =>
        rw [mine, theirs, Option.merge_some_some, Option.some.injEq] at found
        rw [found]
        exact (held.reduce.absorb object.reduce).ascending

end ObjectIndex

/-! ### Building -/

abbrev Builder := Std.TreeMap ℕ Object

namespace Builder

/-- Add a location to what is known about a number; a second one for a pack replaces the first. -/
def locate (builder : Builder) (seq : ℕ) (location : Location) : Builder :=
  builder.alter seq fun held =>
    let object := held.getD ∅
    if location ∈ object.locations then some object
    else
      let sorted := (object.locations ++ [location]).insertionSort Location.Before
      some { object with locations := Location.keepNewestPerPack sorted }

def children (builder : Builder) (seq : ℕ) (children : ObjectSeqs) : Builder :=
  if children.isEmpty then builder
  else builder.alter seq fun held =>
    let object := held.getD ∅
    some { object with children := object.children.absorb children }

def build (builder : Builder) : ObjectIndex :=
  ⟨builder.toList.filter fun entry => !entry.2.isEmpty⟩

def Reduced (builder : Builder) : Prop :=
  ∀ (seq : ℕ) (object : Object), builder[seq]? = some object → object.Reduced

variable {builder : Builder}

theorem reduced_empty : Reduced ∅ := by
  intro seq object found
  rw [Std.TreeMap.getElem?_emptyc] at found
  cases found

theorem Reduced.getD (reduced : Reduced builder) (seq : ℕ) : (builder[seq]?.getD ∅).Reduced := by
  cases found : builder[seq]? with
  | none => exact Object.reduced_empty
  | some object => exact reduced seq object found

theorem reduced_locate (reduced : Reduced builder) (seq : ℕ) (location : Location) :
    Reduced (builder.locate seq location) := by
  intro other object found
  rw [locate, Std.TreeMap.getElem?_alter] at found
  split_ifs at found with same
  · simp only at found
    split_ifs at found
    · cases found
      exact reduced.getD seq
    · cases found
      exact Location.keepNewestPerPack_ascending
        ((pairwise_insertionSort Location.Before _).imp Location.packSeq_le_of_before)
  · exact reduced other object found

theorem reduced_children (reduced : Reduced builder) (seq : ℕ) (added : ObjectSeqs) :
    Reduced (builder.children seq added) := by
  intro other object found
  rw [children] at found
  split_ifs at found with none
  · exact reduced other object found
  · rw [Std.TreeMap.getElem?_alter] at found
    split_ifs at found with same
    · cases found
      exact reduced.getD seq
    · exact reduced other object found

theorem Reduced.build (reduced : Reduced builder) : builder.build.Reduced where
  ascending := (ObjectIndex.toList_ascending builder).sublist filter_sublist
  reduced entry listed := reduced entry.1 entry.2
    (Std.TreeMap.mem_toList_iff_getElem?_eq_some.mp (mem_of_mem_filter listed))

end Builder

/-! ### Reading back -/

theorem EntryRow.length_write (row : EntryRow) : row.write.length = ENTRY := by
  simp [EntryRow.write, ENTRY]

theorem EntryRow.seq_write {row : EntryRow} (named : row.seq ≤ max64) :
    field 8 row.write 0 = row.seq := by
  have fits : row.seq < 256 ^ 8 := named.trans_lt (by norm_num [max64])
  rw [EntryRow.write, field_head fits]

theorem EntryRow.locationsAt_write (row : EntryRow) : field32 row.write 8 = row.locationsAt := by
  have fits : row.locationsAt.val < 256 ^ 4 := row.locationsAt.isLt.trans_eq (by norm_num)
  apply Fin.ext
  rw [field32, EntryRow.write]
  simp only [field_skip le_rfl, Nat.sub_self, field_head fits]

theorem length_writeLocation (location : Location) :
    (writeLocation location).length = LOCATION := by
  simp [writeLocation, LOCATION]

/-- Locations that were stowed are read back, as long as the heap stays within what an offset
reaches. -/
theorem readLocations_stow {locations : List Location} {heap final : List UInt8}
    (grows : (stowLocations locations heap).2 <+: final) (small : final.length < 2 ^ 32) :
    readLocations (stowLocations locations heap).1 final =
      .ok (locations.map fun location => readLocation (writeLocation location)) := by
  unfold stowLocations at grows ⊢
  split_ifs at grows ⊢ with noLocations
  · rw [noLocations, readLocations, if_pos rfl]
    rfl
  · rcases grows with ⟨more, rfl⟩
    have bytes := length_flatMap length_writeLocation locations
    simp only [length_append, length_toLe, bytes, LOCATION] at small
    have offsetFits : heap.length < 2 ^ 32 := by omega
    have countFits : locations.length < 2 ^ 32 := by omega
    have countField : locations.length < 256 ^ 4 := countFits.trans_eq (by norm_num)
    have notNone : (⟨heap.length, offsetFits⟩ : U32) ≠ NONE := by
      intro same
      have := congrArg Fin.val same
      simp only [NONE] at this
      omega
    simp only [tryU32_of_lt offsetFits, tryU32_of_lt countFits, Option.getD_some, append_assoc]
    have word : slice (heap ++ (toLe 4 locations.length ++
        (locations.flatMap writeLocation ++ more))) heap.length 4 =
        some (toLe 4 locations.length) := by
      have alone := slice_all (toLe 4 locations.length)
      rw [length_toLe] at alone
      have here := @slice_append_right heap
        (toLe 4 locations.length ++ (locations.flatMap writeLocation ++ more)) 0 4
      rw [Nat.add_zero] at here
      rw [here, slice_append_left (by rw [length_toLe]), alone]
    have rest : (heap ++ (toLe 4 locations.length ++
        (locations.flatMap writeLocation ++ more))).drop (heap.length + 4) =
        locations.flatMap writeLocation ++ more := by
      rw [← append_assoc]
      exact drop_left' (by simp)
    rw [readLocations, if_neg notNone, blobLength]
    simp only [word, rest, Option.map_some, field32, field, Option.getD_some, ofLe_toLe countField]
    rw [readWindow_records length_writeLocation le_rfl, drop_zero, Nat.sub_zero,
      take_length]
    exact mapM_pure

section Rows

variable [Roaring]

theorem prefix_snd_stowBitmap (bitmap : Finset ℕ) (heap : List UInt8) :
    heap <+: (stowBitmap bitmap heap).2 := by
  unfold stowBitmap
  cases encodeBitmap bitmap with
  | none => exact prefix_rfl
  | some bytes => exact prefix_snd_stow bytes heap

theorem prefix_snd_stowEntries (entries : List (ℕ × Object)) (heap : List UInt8) :
    heap <+: (stowEntries entries heap).2 := by
  induction entries generalizing heap with
  | nil => exact prefix_rfl
  | cons entry entries ih =>
    have locations : heap <+: (stowLocations entry.2.locations heap).2 := by
      unfold stowLocations
      split_ifs
      · exact prefix_rfl
      · exact prefix_append _ _
    exact locations.trans ((prefix_snd_stowBitmap _ _).trans
      ((prefix_snd_stowBitmap _ _).trans (ih _)))

theorem rows_stowEntries {entries : List (ℕ × Object)} {heap final : List UInt8}
    (grows : (stowEntries entries heap).2 <+: final) (small : final.length < 2 ^ 32) :
    List.Forall₂ (fun row entry => row.seq = entry.1 ∧ readLocations row.locationsAt final =
      .ok (entry.2.locations.map fun location => readLocation (writeLocation location)))
      (stowEntries entries heap).1 entries := by
  induction entries generalizing heap with
  | nil => exact .nil
  | cons entry entries ih =>
    refine .cons ⟨rfl, readLocations_stow ?_ small⟩ (ih grows)
    exact (prefix_snd_stowBitmap _ _).trans ((prefix_snd_stowBitmap _ _).trans
      ((prefix_snd_stowEntries _ _).trans grows))

variable {body heap : List UInt8} {truncated : MalformedObjects} {positions : List ℕ}
  {previous : Option ℕ} {all : List (ℕ × Object)} {range : KeyRange}

theorem readEntries_cons_iff {position : ℕ} :
    readEntries body heap truncated range (position :: positions) previous = .ok all ↔
      ∃ entry rest, slice body (position * ENTRY) ENTRY = some entry ∧
        (∀ held ∈ previous, held < field 8 entry 0) ∧
        readEntries body heap truncated range positions (some (field 8 entry 0)) = .ok rest ∧
        if range.contains (field 8 entry 0) then
          ∃ object, readObject heap entry = .ok object ∧ all = (field 8 entry 0, object) :: rest
        else all = rest := by
  rw [readEntries]
  cases slice body (position * ENTRY) ENTRY with
  | none => exact iff_of_false nofun (by rintro ⟨_, _, ⟨⟩, _⟩)
  | some entry =>
    have inOrder : previous.any (field 8 entry 0 ≤ ·) = false ↔
        ∀ held ∈ previous, held < field 8 entry 0 := by
      cases previous <;> simp
    simp only [Option.some.injEq, exists_and_left, exists_eq_left']
    cases unsorted : previous.any (field 8 entry 0 ≤ ·) with
    | true =>
      refine iff_of_false nofun fun sorted => ?_
      rw [inOrder.mpr sorted.1] at unsorted
      cases unsorted
    | false =>
      have sorted := inOrder.mp unsorted
      simp only [Bool.false_eq_true, if_false]
      cases range.contains (field 8 entry 0) with
      | false =>
        simp only [Bool.false_eq_true, if_false]
        constructor
        · intro read
          exact ⟨sorted, all, read, rfl⟩
        · rintro ⟨-, rest, read, rfl⟩
          exact read
      | true =>
        simp only [if_true, Except.bind_eq_ok_iff, Except.pure_eq_ok_iff]
        constructor
        · rintro ⟨object, isObject, rest, read, rfl⟩
          exact ⟨sorted, rest, read, object, isObject, rfl⟩
        · rintro ⟨-, rest, read, object, isObject, rfl⟩
          exact ⟨object, isObject, rest, read, rfl⟩

theorem ascending_of_readEntries
    (read : readEntries body heap truncated range positions previous = .ok all) :
    (all.Pairwise fun earlier later => earlier.1 < later.1) ∧
      ∀ held ∈ previous, ∀ entry ∈ all, held < entry.1 := by
  induction positions generalizing previous all with
  | nil =>
    cases read
    exact ⟨.nil, fun _ _ _ => nofun⟩
  | cons position positions ih =>
    rcases readEntries_cons_iff.mp read with ⟨entry, rest, -, after, readRest, outcome⟩
    rcases ih readRest with ⟨sorted, afterEntry⟩
    have later : ∀ other ∈ rest, field 8 entry 0 < other.1 := afterEntry _ rfl
    split_ifs at outcome with wanted
    · rcases outcome with ⟨object, -, rfl⟩
      refine ⟨pairwise_cons.mpr ⟨later, sorted⟩, fun held isHeld other otherMem => ?_⟩
      rcases mem_cons.mp otherMem with rfl | inRest
      · exact after held isHeld
      · exact (after held isHeld).trans (later other inRest)
    · subst outcome
      exact ⟨sorted, fun held isHeld other inRest => (after held isHeld).trans (later other inRest)⟩

omit [Roaring] in
theorem everything_contains_field (entry : List UInt8) :
    KeyRange.everything.contains (field 8 entry 0) = true := by
  have bound : field 8 entry 0 ≤ max64 := Nat.le_sub_one_of_lt
    ((field_lt 8 entry 0).trans_eq (by norm_num))
  exact KeyRange.contains_iff.mpr ⟨Nat.zero_le _, bound⟩

theorem readEntries_narrowed
    (read : readEntries body heap truncated .everything positions previous = .ok all) :
    readEntries body heap truncated range positions previous =
      .ok (all.filter fun entry => range.contains entry.1) := by
  induction positions generalizing previous all with
  | nil =>
    cases read
    rfl
  | cons position positions ih =>
    rcases readEntries_cons_iff.mp read with ⟨entry, rest, sliced, after, readRest, outcome⟩
    rw [if_pos (everything_contains_field entry)] at outcome
    rcases outcome with ⟨object, isObject, rfl⟩
    refine readEntries_cons_iff.mpr ⟨entry, _, sliced, after, ih readRest, ?_⟩
    split_ifs with wanted
    · exact ⟨object, isObject, by simp [wanted]⟩
    · simp [wanted]

theorem exists_row_of_readEntries {rows : List EntryRow} {from_ count : ℕ}
    (isCount : from_ + count = rows.length)
    (named : ∀ row ∈ rows, row.seq ≤ max64)
    (read : readEntries (rows.flatMap EntryRow.write ++ heap) heap truncated range
      (List.range' from_ count) previous = .ok all) {entry : ℕ × Object} (listed : entry ∈ all) :
    ∃ row ∈ rows, entry.1 = row.seq ∧
      readLocations row.locationsAt heap = .ok entry.2.locations := by
  induction count generalizing from_ previous all with
  | zero =>
    cases read
    cases listed
  | succ count ih =>
    have here : from_ < rows.length := by omega
    rw [List.range'_succ] at read
    rcases readEntries_cons_iff.mp read with ⟨written, rest, sliced, -, readRest, outcome⟩
    rw [slice_records EntryRow.length_write here, Option.some.injEq] at sliced
    subst sliced
    have later : entry ∈ rest → ∃ row ∈ rows, entry.1 = row.seq ∧
        readLocations row.locationsAt heap = .ok entry.2.locations := ih (by omega) readRest
    split_ifs at outcome with wanted
    · rcases outcome with ⟨object, isObject, rfl⟩
      rcases mem_cons.mp listed with rfl | inRest
      · refine ⟨rows[from_], getElem_mem here, ?_, ?_⟩
        · exact EntryRow.seq_write (named _ (getElem_mem here))
        · rw [readObject, Except.bind_eq_ok_iff] at isObject
          rcases isObject with ⟨locations, isLocations, others⟩
          rw [EntryRow.locationsAt_write] at isLocations
          simp only [Except.bind_eq_ok_iff, Except.pure_eq_ok_iff] at others
          rcases others with ⟨trees, -, blobs, -, rfl⟩
          exact isLocations
      · exact later inRest
    · exact later (outcome ▸ listed)

end Rows

namespace ObjectIndex

variable [Roaring] {index : ObjectIndex}

theorem pointwise : Pointwise get Object.merge Reduced (fun _ => 0) 0 where
  lookup_join reduced otherReduced _ seq := get_join reduced otherReduced seq
  good_join reduced otherReduced _ := reduced_join reduced otherReduced
  size_join _ _ _ := Nat.zero_le _

/-- What a segment is made of: reduced, with the numbers of packs in the width they are stored at. -/
structure Stowable (index : ObjectIndex) : Prop extends Reduced index where
  packs : ∀ entry ∈ index.entries, ∀ location ∈ entry.2.locations, location.packSeq ≤ max63

variable {covered : KeyRange}

omit [Roaring] in
theorem contains_of_mem (reduced : index.Reduced) (isRange : index.range = some covered)
    {entry : ℕ × Object} (listed : entry ∈ index.entries) : covered.contains entry.1 = true := by
  have ascending := reduced.ascending
  rw [range] at isRange
  cases isFirst : index.entries.head? with
  | none =>
    rw [List.head?_eq_none_iff.mp isFirst] at listed
    cases listed
  | some first =>
    cases isLast : index.entries.getLast? with
    | none =>
      rw [List.getLast?_eq_none_iff.mp isLast] at listed
      cases listed
    | some last =>
      rw [isFirst, isLast] at isRange
      rcases KeyRange.new_eq_some_iff.mp isRange with ⟨firstIs, lastIs⟩
      rw [KeyRange.contains_iff, firstIs, lastIs]
      constructor
      · rcases List.head?_eq_some_iff.mp isFirst with ⟨rest, split⟩
        rw [split] at ascending listed
        rcases mem_cons.mp listed with rfl | later
        · exact le_rfl
        · exact (rel_of_pairwise_cons ascending later).le
      · rcases List.getLast?_eq_some_iff.mp isLast with ⟨before, split⟩
        rw [split] at ascending listed
        rcases mem_append.mp listed with earlier | isEnd
        · exact ((pairwise_append.mp ascending).2.2 _ earlier _ mem_cons_self).le
        · rw [mem_singleton.mp isEnd]

def rows (index : ObjectIndex) : List EntryRow :=
  (stowEntries index.entries []).1

def heap (index : ObjectIndex) : List UInt8 :=
  (stowEntries index.entries []).2

def header (index : ObjectIndex) : Header :=
  { first := (index.entries.head?.map Prod.fst).getD 0, records := index.entries.length
    tail := index.heap.length }

theorem map_seq_rows (index : ObjectIndex) :
    index.rows.map EntryRow.seq = index.entries.map Prod.fst := by
  have same : ∀ (entries : List (ℕ × Object)) (heap : List UInt8),
      (stowEntries entries heap).1.map EntryRow.seq = entries.map Prod.fst := by
    intro entries
    induction entries with
    | nil => exact fun _ => rfl
    | cons entry entries ih => exact fun heap => congrArg (entry.1 :: ·) (ih _)
  exact same _ _

theorem length_rows (index : ObjectIndex) : index.rows.length = index.entries.length := by
  simpa using congrArg List.length index.map_seq_rows

theorem eq_header_of_read {found : Header} (reduced : index.Reduced)
    (isRange : index.range = some covered) (read : readHeader index.encoded OBJECTS = .ok found) :
    found = index.header ∧ index.heap.length < 2 ^ 32 := by
  have sized : (index.rows.flatMap EntryRow.write ++ index.heap).length =
      index.header.records * OBJECTS.record + index.header.tail * OBJECTS.unit := by
    rw [length_append, length_flatMap EntryRow.length_write, length_rows]
    exact congrArg _ (Nat.mul_one _).symm
  have named : index.header.first ≤ max64 := by
    rw [header]
    cases isFirst : index.entries.head? with
    | none => exact Nat.zero_le _
    | some first =>
      have inside := contains_of_mem reduced isRange (mem_of_mem_head? isFirst)
      exact (KeyRange.contains_iff.mp inside).2.trans covered.bounded
  rcases eq_of_readHeader named sized read with ⟨same, -, -, few⟩
  exact ⟨same, few⟩

/-- What the encoding of the index is read as, entry after entry. -/
def readAll (index : ObjectIndex) (range : KeyRange) :
    Except MalformedObjects (List (ℕ × Object)) :=
  readEntries (index.rows.flatMap EntryRow.write ++ index.heap) index.heap
    (.frame (.truncated (HEADER + index.entries.length * ENTRY) index.encoded.length)) range
    (List.range' 0 index.entries.length) none

theorem decodeRange_of_header (read : readHeader index.encoded OBJECTS = .ok index.header)
    (range : KeyRange) :
    decodeRange index.encoded range = (index.readAll range).map ObjectIndex.mk := by
  have body : index.encoded.drop HEADER = index.rows.flatMap EntryRow.write ++ index.heap := by
    rw [encoded, drop_left' length_writeHeader]
    rfl
  have isHeap : (index.rows.flatMap EntryRow.write ++ index.heap).drop
      (index.header.records * ENTRY) = index.heap := by
    refine drop_left' ?_
    rw [length_flatMap EntryRow.length_write, length_rows]
    rfl
  rw [decodeRange, read, body]
  simp only [Except.mapError, Except.ok_bind, isHeap]
  change (index.readAll range >>= fun entries => pure (ObjectIndex.mk entries)) = _
  cases index.readAll range <;> rfl

omit [Roaring] in
theorem packSeq_readLocation {location : Location} (fits : location.packSeq ≤ max63) :
    (readLocation (writeLocation location)).packSeq = location.packSeq := by
  have small : location.packSeq < 256 ^ 8 := fits.trans_lt (by norm_num [max63])
  simp only [readLocation, writeLocation, field_head small]

omit [Roaring] in
theorem reduced_readBack {object : Object} {locations : List Location} (reduced : object.Reduced)
    (packs : ∀ location ∈ object.locations, location.packSeq ≤ max63)
    (isRead : locations = object.locations.map fun location => readLocation (writeLocation location)) :
    locations.Pairwise fun earlier later => earlier.packSeq < later.packSeq := by
  rw [isRead, pairwise_map]
  refine List.Pairwise.imp_of_mem (fun {earlier later} earlierMem laterMem less => ?_) reduced
  rwa [packSeq_readLocation (packs earlier earlierMem), packSeq_readLocation (packs later laterMem)]

theorem seq_le_of_mem_rows (named : ∀ entry ∈ index.entries, entry.1 ≤ max64) :
    ∀ row ∈ index.rows, row.seq ≤ max64 := by
  intro row rowMem
  have isSeq : row.seq ∈ index.entries.map Prod.fst :=
    index.map_seq_rows ▸ mem_map_of_mem rowMem
  rcases mem_map.mp isSeq with ⟨original, originalMem, sameSeq⟩
  exact sameSeq ▸ named original originalMem

/-- Each entry that is read has the number and the locations of one that was written. -/
theorem exists_original {all : List (ℕ × Object)} {range : KeyRange}
    (named : ∀ entry ∈ index.entries, entry.1 ≤ max64) (small : index.heap.length < 2 ^ 32)
    (read : index.readAll range = .ok all) {entry : ℕ × Object} (listed : entry ∈ all) :
    ∃ original ∈ index.entries, entry.1 = original.1 ∧ entry.2.locations =
      original.2.locations.map fun location => readLocation (writeLocation location) := by
  rcases exists_row_of_readEntries (by rw [length_rows, zero_add]) (seq_le_of_mem_rows named) read
    listed with ⟨row, rowMem, isSeq, isLocations⟩
  rcases getElem_of_mem rowMem with ⟨position, inRows, rfl⟩
  have inEntries : position < index.entries.length := by
    rw [← length_rows]
    exact inRows
  rcases (rows_stowEntries prefix_rfl small).get inRows inEntries with ⟨sameSeq, written⟩
  exact ⟨index.entries[position], getElem_mem inEntries, isSeq.trans sameSeq,
    Except.ok.inj (isLocations.symm.trans written)⟩

theorem narrows {whole : ObjectIndex} (range : KeyRange) (stowable : index.Stowable)
    (isRange : index.range = some covered)
    (decoded : decodeRange index.encoded .everything = .ok whole) :
    ∃ part, decodeRange index.encoded range = .ok part ∧
      Narrowed get Reduced (fun _ => 0) covered range whole part := by
  rcases exists_of_mapError_bind decoded with ⟨_, read⟩
  rcases eq_header_of_read stowable.toReduced isRange read with ⟨rfl, small⟩
  have decodes := decodeRange_of_header read
  rw [decodes] at decoded
  rw [decodes]
  have inside := fun entry (listed : entry ∈ index.entries) =>
    contains_of_mem stowable.toReduced isRange listed
  cases isAll : index.readAll .everything with
  | error failure =>
    rw [isAll] at decoded
    cases decoded
  | ok all =>
    rw [isAll] at decoded
    cases decoded
    have narrowed : index.readAll range = _ := readEntries_narrowed isAll
    rw [narrowed]
    have ascending := (ascending_of_readEntries isAll).1
    have originals := fun entry (listed : entry ∈ all) =>
      exists_original (fun entry listed =>
        (KeyRange.contains_iff.mp (inside entry listed)).2.trans covered.bounded) small isAll listed
    have reduced : ∀ entry ∈ all, entry.2.Reduced := by
      intro entry listed
      rcases originals entry listed with ⟨original, originalMem, -, isLocations⟩
      exact reduced_readBack (stowable.reduced _ originalMem) (stowable.packs _ originalMem)
        isLocations
    refine ⟨_, rfl, ⟨ascending, reduced⟩, ⟨ascending.sublist filter_sublist, fun entry listed =>
      reduced entry (mem_of_mem_filter listed)⟩, le_rfl, ?_, ?_⟩
    · intro key wanted
      ext object
      rw [get_eq_some_iff (ascending.sublist filter_sublist), get_eq_some_iff ascending,
        mem_filter]
      exact and_iff_left wanted
    · intro key present
      rcases Option.ne_none_iff_exists'.mp present with ⟨object, isObject⟩
      have listed := (get_eq_some_iff ascending).mp isObject
      rcases originals _ listed with ⟨original, originalMem, sameSeq, -⟩
      simp only at sameSeq
      rw [sameSeq]
      exact inside _ originalMem

theorem reads_agree {store : Store ObjectIndex} (catalogued : store.Catalogued Stowable) :
    store.ReadsAgree get := by
  refine catalogued.reads_agree pointwise
    (fun index whole covered range stowable isRange decoded _ => ?_) ?_
  · rcases narrows range stowable isRange (mapError_eq_ok_iff.mp decoded) with
      ⟨part, isPart, narrowed⟩
    exact ⟨part, mapError_eq_ok_iff.mpr isPart, narrowed⟩
  · exact store.weight_zero.le

end ObjectIndex

end Enroute.Stored
