import Enroute.GraphStore.Joins
import Enroute.Objects.ObjectJoins

/-!
# Writing the three indexes and reading them back

An index that was built and whose counts fit a header is read back as it was, and so is the join of
the two halves it is read in when it is split at any key. Each decoding of a range holds exactly
what the index holds at the keys of the range, so both follow key by key.

Two numbers cannot be told from nothing in the bytes: a delta base of `u64::MAX` reads back as no
base.
-/

namespace Enroute.Stored

open Enroute.Lattice Fields Join List

/-- A value is read back as it was, and so is it from the two halves of a split, joined. -/
def RoundTrips {S : Type} [Segment S] (value : S) : Prop :=
  Segment.decode (Segment.encoded value) = .ok value ∧
    ∀ (split : ℕ) (bounded : split ≤ max64), ∃ low high,
      Segment.decodeRange (Segment.encoded value) ⟨0, split, Nat.zero_le _, bounded⟩ = .ok low ∧
      Segment.decodeRange (Segment.encoded value) ⟨split, max64, bounded, le_rfl⟩ = .ok high ∧
      join low high = value

def HeaderFits (header : Header) : Prop :=
  header.first ≤ max63 ∧ header.records < 2 ^ 32 ∧ header.tail < 2 ^ 32

instance (header : Header) : Decidable (HeaderFits header) :=
  inferInstanceAs (Decidable (_ ∧ _ ∧ _))

section Parts

variable {S V : Type} [Segment S] {lookup : S → ℕ → Option V} {merge : V → V → V}
  {good : S → Prop} {value : S}

/-- A decoding that holds what the whole holds at the keys of its range, and nothing else. -/
def HasPart (lookup : S → ℕ → Option V) (good : S → Prop) (value : S) (range : KeyRange) : Prop :=
  ∃ part, Segment.decodeRange (Segment.encoded value) range = .ok part ∧ good part ∧
    ∀ key, lookup part key = if range.contains key then lookup value key else none

theorem roundTrips_of_parts (pointwise : Pointwise lookup merge good (fun _ => 0) 0)
    (ext : ∀ {left right : S}, good left → good right →
      (∀ key, lookup left key = lookup right key) → left = right)
    (idem : ∀ {key : ℕ} {held : V}, lookup value key = some held → merge held held = held)
    (isGood : good value) (named : ∀ key, lookup value key ≠ none → key ≤ max64)
    (parts : ∀ range, HasPart lookup good value range) : RoundTrips value := by
  constructor
  · rcases parts .everything with ⟨part, decoded, partGood, holds⟩
    have same : part = value := by
      refine ext partGood isGood fun key => ?_
      rw [holds]
      split_ifs with wanted
      · rfl
      · by_contra held
        exact wanted (KeyRange.contains_iff.mpr ⟨Nat.zero_le _, named key (Ne.symm held)⟩)
    rw [Segment.decode, decoded, same]
  · intro split bounded
    rcases parts ⟨0, split, Nat.zero_le _, bounded⟩ with ⟨low, lowDecoded, lowGood, lowHolds⟩
    rcases parts ⟨split, max64, bounded, le_rfl⟩ with ⟨high, highDecoded, highGood, highHolds⟩
    refine ⟨low, high, lowDecoded, highDecoded,
      ext (pointwise.good_join lowGood highGood le_rfl) isGood fun key => ?_⟩
    rw [pointwise.lookup_join lowGood highGood le_rfl, lowHolds, highHolds]
    simp only [KeyRange.contains_iff, Nat.zero_le, true_and]
    cases held : lookup value key with
    | none => simp
    | some one =>
      have keyNamed : key ≤ max64 := named key (by simp [held])
      rcases lt_trichotomy key split with less | rfl | more
      · rw [if_pos less.le, if_neg (by omega), Option.merge_none_right]
      · rw [if_pos le_rfl, if_pos ⟨le_rfl, keyNamed⟩, Option.merge_some_some, idem held]
      · rw [if_neg (by omega), if_pos ⟨more.le, keyNamed⟩, Option.merge_none_left]

end Parts

namespace Strided

variable {N : Type} {strided : Strided N} {header : Header} {range : KeyRange} {from_ upto : ℕ}

theorem get_sliced (isFirst : header.first = strided.first)
    (isCount : header.records = strided.slots.length)
    (nameable : header.first + (header.records - 1) ≤ max64)
    (sliced : header.sliceOf range = some (from_, upto)) (seq : ℕ) :
    (strided.window from_ upto).get seq =
      if range.contains seq then strided.get seq else none := by
  split_ifs with wanted
  · exact get_window_of_sliced isFirst isCount nameable sliced wanted
  · rw [get_window, if_neg]
    rintro ⟨above, below⟩
    exact wanted (contains_of_sliceOf sliced (isFirst ▸ above) (isFirst ▸ below))

theorem le_max64_of_get (isFirst : header.first = strided.first)
    (isCount : header.records = strided.slots.length) (fits : HeaderFits header) {seq : ℕ}
    (held : strided.get seq ≠ none) : seq ≤ max64 := by
  rcases Option.ne_none_iff_exists'.mp held with ⟨node, found⟩
  have bounds := bounds_of_get found
  rcases fits with ⟨first, records, -⟩
  simp only [max63, max64] at *
  omega

end Strided

theorem nameable_of_fits {header : Header} (fits : HeaderFits header) :
    header.first + (header.records - 1) ≤ max64 := by
  rcases fits with ⟨first, records, -⟩
  simp only [max63, max64] at *
  omega

/-! ### The parent graph -/

namespace CommitIndex

variable {index : CommitIndex} {nodes : Strided Node}

theorem readHeader_encoded (fits : HeaderFits index.header) :
    readHeader index.encoded GRAPH = .ok index.header := by
  refine readHeader_writeHeader fits.1 fits.2.1 fits.2.2 (by norm_num [GRAPH, RECORD])
    (by norm_num [GRAPH]) ?_
  rw [length_append, length_flatMap Record.length_write, length_flatMap length_writeWord]
  rfl

theorem hasPart (laid : index.LaidFrom nodes) (headerFits : HeaderFits index.header)
    (range : KeyRange) : HasPart nodeAt (Among {index}) index range := by
  have fits : Fits nodes := laid.fits headerFits.2.2.le
  rcases laid with ⟨rfl, tidy, present⟩
  have isSlots := slots_assemble fits
  have holds : ∀ key, (assemble nodes).nodeAt key = nodes.get key := nodeAt_assemble fits
  have isFirst : (assemble nodes).header.first = (assemble nodes).slots.first := rfl
  have isCount : (assemble nodes).header.records = (assemble nodes).slots.slots.length :=
    (length_map _).symm
  have nameable := nameable_of_fits headerFits
  have decodes := decodeRange_of_header (readHeader_encoded headerFits) range
  cases sliced : (assemble nodes).header.sliceOf range with
  | none =>
    rw [sliced] at decodes
    have hole : ∀ key, empty.nodeAt key = none := fun key =>
      Strided.get_eq_none_of_holes (forall_mem_nil _)
    refine ⟨empty, mapError_eq_ok_iff.mpr decodes, ⟨.empty, laidFrom_empty, ?_⟩, fun key => ?_⟩
    · intro seq node found
      have nothing : (Strided.empty : Strided Node).get seq = none :=
        Strided.get_eq_none_of_holes (forall_mem_nil _)
      rw [nothing] at found
      cases found
    · rw [hole]
      split_ifs with wanted
      · rw [nodeAt, Strided.get_of_not_sliced isFirst isCount nameable sliced wanted]
      · rfl
  | some window_ =>
    rcases window_ with ⟨from_, upto⟩
    rw [sliced] at decodes
    have noStray : ∀ record ∈ ((assemble nodes).window from_ upto).records,
        stray ((assemble nodes).window from_ upto).tail record = false := by
      intro record recordMem
      exact (node_layOut fits.present prefix_rfl (by simpa using fits.small)).2 record
        (mem_of_mem_drop (mem_of_mem_take recordMem))
    have smaller : Fits ((assemble nodes).window from_ upto).nodes := by
      refine fits_nodes (total_window_le _ |>.trans ?_)
      rw [CommitIndex.nodes, isSlots, Strided.total_trimmed]
      exact fits.small
    have looks : ∀ key, (assemble ((assemble nodes).window from_ upto).nodes).nodeAt key =
        if range.contains key then (assemble nodes).nodeAt key else none := by
      intro key
      rw [nodeAt_assemble smaller, get_nodes, nodeAt, slots_window,
        Strided.get_sliced isFirst isCount nameable sliced, nodeAt]
    refine ⟨assemble ((assemble nodes).window from_ upto).nodes,
      mapError_eq_ok_iff.mpr (decodes.trans (rebuilt_eq_ok_iff.mpr ⟨noStray, rfl⟩)),
      ⟨_, ⟨rfl, Strided.tidy_trimmed _ _, fun seq node found => ?_⟩, fun seq node found => ?_⟩,
      looks⟩
    · exact rootTree_of_nodeAt ((get_nodes _ seq).symm.trans found)
    · have held := (nodeAt_assemble smaller seq).trans found
      rw [looks] at held
      split_ifs at held
      exact ⟨assemble nodes, Finset.mem_singleton_self _, held⟩

theorem roundTrips (laid : index.LaidFrom nodes) (headerFits : HeaderFits index.header) :
    RoundTrips index := by
  have fits : Fits nodes := laid.fits headerFits.2.2.le
  have allLaid : ∀ value ∈ ({index} : Finset CommitIndex), ∃ nodes, value.LaidFrom nodes := by
    intro value isIndex
    rw [Finset.mem_singleton.mp isIndex]
    exact ⟨nodes, laid⟩
  have small : ∑ value ∈ ({index} : Finset CommitIndex), value.tail.length ≤ 2 ^ 32 := by
    rw [Finset.sum_singleton]
    exact headerFits.2.2.le
  have holds : ∀ key, index.nodeAt key = nodes.get key := by
    rw [laid.1]
    exact nodeAt_assemble fits
  refine roundTrips_of_parts (pointwise_among allLaid small) ?_ (fun _ => max_self _)
    ⟨nodes, laid, fun seq node found => ⟨index, Finset.mem_singleton_self _, ?_⟩⟩
    (fun key held => ?_) (hasPart laid headerFits)
  · exact fun leftAmong rightAmong same => ext_among allLaid small leftAmong rightAmong same
  · rw [holds, found]
  · exact @Strided.le_max64_of_get _ index.slots index.header rfl (length_map _).symm
      headerFits key held

end CommitIndex

/-! ### The packs -/

structure PackNode.InWidth (node : PackNode) : Prop where
  entryLen : node.entryLen ≤ max64
  blobOffset : node.blobOffset ≤ max64
  segmentId : node.segmentId < 2 ^ 128
  baseOffset : node.baseOffset ≤ max64
  imageLen : node.imageLen ≤ max64

theorem PackBuilder.Reached.inWidth [Roaring] {builder : PackBuilder} (reached : builder.Reached)
    {seq : ℕ} {node : PackNode} (found : builder.packs[seq]? = some node) : node.InWidth := by
  induction reached with
  | new =>
    rw [PackBuilder.new, Std.TreeMap.getElem?_emptyc] at found
    cases found
  | insert _ _ entryLen blobOffset segmentId baseOffset imageLen inserted ih =>
    simp only [PackBuilder.insert, Except.bind_eq_ok_iff, Except.pure_eq_ok_iff] at inserted
    rcases inserted with ⟨trees, -, blobs, -, rfl⟩
    rw [Std.TreeMap.getElem?_insert] at found
    split_ifs at found
    · rw [← Option.some.inj found]
      exact ⟨entryLen, blobOffset, segmentId, baseOffset, imageLen⟩
    · exact ih found

theorem readPack_writePack {record : PackRecord} {heap : List UInt8}
    (inWidth : record.node.InWidth)
    (trees : fetchBlob record.treesAt heap = some record.node.trees)
    (blobs : fetchBlob record.blobsAt heap = some record.node.blobs) :
    readPack heap (writePack (some record)) = .ok (some record.node) := by
  rcases record with ⟨node, treesAt, blobsAt⟩
  have wide : ∀ {value : ℕ}, value ≤ max64 → value < 256 ^ 8 :=
    fun bounded => bounded.trans_lt (by norm_num [max64])
  have slot : ∀ value : U32, value.val < 256 ^ 4 := fun value => value.isLt.trans_eq (by norm_num)
  have id : node.segmentId < 256 ^ 16 := inWidth.segmentId.trans_eq (by norm_num)
  have field32_eq : ∀ {bytes : List UInt8} {at_ : ℕ} {value : U32},
      field 4 bytes at_ = value.val → field32 bytes at_ = value := fun same => Fin.ext same
  have treesIs : field32 (writePack (some ⟨node, treesAt, blobsAt⟩)) 48 = treesAt := field32_eq (by
    simp (disch := omega) only [writePack, field_skip, field_head (slot _), Nat.reduceSub])
  have blobsIs : field32 (writePack (some ⟨node, treesAt, blobsAt⟩)) 52 = blobsAt := field32_eq (by
    simp (disch := omega) only [writePack, field_skip, field_head (slot _), Nat.reduceSub])
  have present : field32 (writePack (some ⟨node, treesAt, blobsAt⟩)) 56 = PRESENT := field32_eq (by
    simp (disch := omega) only [writePack, field_skip, field_alone (slot _), Nat.reduceSub])
  have here : ¬PRESENT.val % 2 = 0 := by decide
  rw [readPack, treesIs, blobsIs, present, if_neg here, fetchBitmap, fetchBitmap, trees, blobs]
  simp (disch := omega) only [writePack, field_skip, field_head (wide inWidth.entryLen),
    field_head (wide inWidth.blobOffset), field_head id, field_head (wide inWidth.baseOffset),
    field_head (wide inWidth.imageLen), Nat.reduceSub]
  rfl

theorem prefix_snd_stowPacks (slots : List (Option PackNode)) (heap : List UInt8) :
    heap <+: (stowPacks slots heap).2 := by
  induction slots generalizing heap with
  | nil => exact prefix_rfl
  | cons slot slots ih =>
    cases slot with
    | none => exact ih heap
    | some node =>
      exact (prefix_snd_stow _ _).trans ((prefix_snd_stow _ _).trans (ih _))

theorem mapM_readPack_stowPacks {slots : List (Option PackNode)} {heap final : List UInt8}
    (inWidth : ∀ node, some node ∈ slots → node.InWidth)
    (grows : (stowPacks slots heap).2 <+: final) (small : final.length < 2 ^ 32) :
    (stowPacks slots heap).1.mapM (fun record => readPack final (writePack record)) =
      .ok slots := by
  rw [Except.mapM_eq_ok_iff]
  induction slots generalizing heap with
  | nil => exact .nil
  | cons slot slots ih =>
    have later : ∀ node, some node ∈ slots → node.InWidth :=
      fun node listed => inWidth node (mem_cons_of_mem _ listed)
    cases slot with
    | none => exact .cons (readPack_writePack_none final) (ih later grows)
    | some node =>
      refine .cons (readPack_writePack (inWidth node mem_cons_self) ?_ ?_)
        (ih later grows)
      · exact fetchBlob_stow ((prefix_snd_stow _ _).trans
          ((prefix_snd_stowPacks _ _).trans grows)) small
      · exact fetchBlob_stow ((prefix_snd_stowPacks _ _).trans grows) small

namespace PackIndex

variable {index : PackIndex}

theorem readHeader_encoded (fits : HeaderFits index.header) :
    readHeader index.encoded PACKS = .ok index.header := by
  refine readHeader_writeHeader fits.1 fits.2.1 fits.2.2 (by norm_num [PACKS, PACKRECORD])
    (by norm_num [PACKS]) ?_
  rw [length_append, length_flatMap length_writePack]
  exact congrArg₂ (· * PACKRECORD + ·) index.length_records (Nat.mul_one _).symm

theorem hasPart (inWidth : ∀ node, some node ∈ index.nodes.slots → node.InWidth)
    (headerFits : HeaderFits index.header) (range : KeyRange) :
    HasPart get (fun part => part.nodes.Tidy) index range := by
  have reads : index.records.mapM (fun record => readPack index.heap (writePack record)) =
      .ok index.nodes.slots := mapM_readPack_stowPacks inWidth prefix_rfl headerFits.2.2
  have nameable := nameable_of_fits headerFits
  have decodes := decodeRange_of_header (readHeader_encoded headerFits) range
  cases sliced : index.header.sliceOf range with
  | none =>
    rw [sliced] at decodes
    refine ⟨⟨.empty⟩, mapError_eq_ok_iff.mpr decodes, Strided.tidy_empty, fun key => ?_⟩
    have hole : get ⟨.empty⟩ key = none := Strided.get_eq_none_of_holes (forall_mem_nil _)
    rw [hole]
    split_ifs with wanted
    · exact (Strided.get_of_not_sliced rfl rfl nameable sliced wanted).symm
    · rfl
  | some window_ =>
    rcases window_ with ⟨from_, upto⟩
    rw [sliced] at decodes
    simp only [Except.mapM_window reads] at decodes
    refine ⟨_, mapError_eq_ok_iff.mpr decodes, Strided.tidy_trimmed _ _, fun key => ?_⟩
    exact (Strided.get_trimmed _ _ key).trans
      (Strided.get_sliced rfl rfl nameable sliced key)

theorem roundTrips (tidy : index.nodes.Tidy)
    (inWidth : ∀ node, some node ∈ index.nodes.slots → node.InWidth)
    (headerFits : HeaderFits index.header) : RoundTrips index := by
  refine roundTrips_of_parts pointwise_tidy ?_ (fun _ => max_self _) tidy
    (fun key held => Strided.le_max64_of_get rfl rfl headerFits held) (hasPart inWidth headerFits)
  rintro ⟨nodes⟩ ⟨otherNodes⟩ nodesTidy otherTidy same
  exact congrArg PackIndex.mk (nodesTidy.ext otherTidy same)

end PackIndex

/-! ### The objects -/

/-- A bitmap library that reads back the sets it writes, and writes something for each. -/
def Faithful [Roaring] : Prop :=
  ∀ bitmap : Finset ℕ, (∀ seq ∈ bitmap, seq ≤ max64) → bitmap ≠ ∅ →
    ∃ bytes, Roaring.serialize bitmap = some bytes ∧ bytes ≠ [] ∧
      Roaring.deserialize bytes = some bitmap

theorem readLocation_writeLocation {location : Location} (inWidth : InWidth location)
    (nameable : location.baseSeq ≠ some NOBASE) :
    readLocation (writeLocation location) = location := by
  rcases location with ⟨packSeq, packOid, ⟨id, baseOffset, imageLen⟩, offset, entryLen, baseSeq⟩
  have wide : ∀ {value : ℕ}, value ≤ max64 → value < 256 ^ 8 :=
    fun bounded => bounded.trans_lt (by norm_num [max64])
  have pack : packSeq < 256 ^ 8 := inWidth.packSeq.trans_lt (by norm_num [max63])
  have oid : packOid < 256 ^ 20 := inWidth.packOid.trans_eq (by norm_num)
  have segment : id < 256 ^ 16 := inWidth.segmentId.trans_eq (by norm_num)
  have base : baseSeq.getD NOBASE ≤ max64 := by
    cases baseSeq with
    | none => exact le_rfl
    | some seq => exact inWidth.baseSeq seq rfl
  have baseRead : (if baseSeq.getD NOBASE = NOBASE then none else some (baseSeq.getD NOBASE)) =
      baseSeq := by
    cases baseSeq with
    | none => rfl
    | some seq => exact if_neg fun same => nameable (congrArg some same)
  simp (disch := omega) only [readLocation, writeLocation, field_skip, field_head pack,
    field_head oid, field_head segment, field_head (wide inWidth.offset),
    field_head (wide inWidth.entryLen), field_head (wide base),
    field_head (wide inWidth.baseOffset), field_alone (wide inWidth.imageLen), Nat.reduceSub,
    baseRead]

theorem EntryRow.treesAt_write (row : EntryRow) : field32 row.write 12 = row.treesAt := by
  have fits : row.treesAt.val < 256 ^ 4 := row.treesAt.isLt.trans_eq (by norm_num)
  apply Fin.ext
  simp (disch := omega) only [field32, EntryRow.write, field_skip, field_head fits, Nat.reduceSub]

theorem EntryRow.blobsAt_write (row : EntryRow) : field32 row.write 16 = row.blobsAt := by
  have fits : row.blobsAt.val < 256 ^ 4 := row.blobsAt.isLt.trans_eq (by norm_num)
  apply Fin.ext
  simp (disch := omega) only [field32, EntryRow.write, field_skip, field_alone fits, Nat.reduceSub]

section Bitmaps

variable [Roaring]

theorem readBitmap_stowBitmap (faithful : Faithful) {bitmap : Finset ℕ} {heap final : List UInt8}
    (bounded : ∀ seq ∈ bitmap, seq ≤ max64) (grows : (stowBitmap bitmap heap).2 <+: final)
    (small : final.length < 2 ^ 32) :
    readBitmap (stowBitmap bitmap heap).1 final = .ok bitmap := by
  have written : ∃ bytes, encodeBitmap bitmap = some bytes ∧ decodeBitmap bytes = some bitmap := by
    by_cases empty : bitmap = ∅
    · exact ⟨[], if_pos empty, by rw [empty]; rfl⟩
    · rcases faithful bitmap bounded empty with ⟨bytes, serialized, some_, deserialized⟩
      exact ⟨bytes, (if_neg empty).trans serialized, (if_neg some_).trans deserialized⟩
  rcases written with ⟨bytes, encodes, decodes⟩
  simp only [stowBitmap, encodes] at grows ⊢
  simp only [readBitmap, fetchBlob_stow grows small, decodes]

/-- An object whose numbers are in the widths they are stored at, and whose bases are not the number
that stands for none. -/
structure Object.Storable (object : Object) : Prop where
  inWidth : ∀ location ∈ object.locations, InWidth location
  bases : ∀ location ∈ object.locations, location.baseSeq ≠ some NOBASE
  children : ChildrenInWidth object.children

theorem readObject_stowEntries (faithful : Faithful) {entries : List (ℕ × Object)}
    {heap final : List UInt8} (storable : ∀ entry ∈ entries, entry.2.Storable)
    (grows : (stowEntries entries heap).2 <+: final) (small : final.length < 2 ^ 32) :
    List.Forall₂ (fun row entry => row.seq = entry.1 ∧ readObject final row.write = .ok entry.2)
      (stowEntries entries heap).1 entries := by
  induction entries generalizing heap with
  | nil => exact .nil
  | cons entry entries ih =>
    rcases forall_mem_cons.mp storable with ⟨here, later⟩
    refine .cons ⟨rfl, ?_⟩ (ih later grows)
    have afterBlobs : (stowBitmap entry.2.children.blobs (stowBitmap entry.2.children.trees
        (stowLocations entry.2.locations heap).2).2).2 <+: final :=
      (prefix_snd_stowEntries entries _).trans grows
    have afterTrees := (prefix_snd_stowBitmap _ _).trans afterBlobs
    have afterLocations := (prefix_snd_stowBitmap _ _).trans afterTrees
    have same : entry.2.locations.map (fun location => readLocation (writeLocation location)) =
        entry.2.locations := by
      refine (map_congr_left fun location listed => ?_).trans (map_id _)
      exact readLocation_writeLocation (here.inWidth _ listed) (here.bases _ listed)
    have located := (readLocations_stow afterLocations small).trans (congrArg _ same)
    rw [readObject, EntryRow.locationsAt_write, EntryRow.treesAt_write, EntryRow.blobsAt_write,
      located, readBitmap_stowBitmap faithful here.children.1 afterTrees small,
      readBitmap_stowBitmap faithful here.children.2 afterBlobs small]
    rfl

theorem readEntries_rows {rows : List EntryRow} {entries : List (ℕ × Object)}
    {heap : List UInt8} {truncated : MalformedObjects} {from_ count : ℕ} {previous : Option ℕ}
    (reads : List.Forall₂ (fun row entry => row.seq = entry.1 ∧
      readObject heap row.write = .ok entry.2) rows entries)
    (named : ∀ row ∈ rows, row.seq ≤ max64)
    (ascending : entries.Pairwise fun earlier later => earlier.1 < later.1)
    (isCount : from_ + count = rows.length)
    (after : ∀ held ∈ previous, ∀ entry ∈ entries.drop from_, held < entry.1) :
    readEntries (rows.flatMap EntryRow.write ++ heap) heap truncated .everything
      (List.range' from_ count) previous = .ok (entries.drop from_) := by
  induction count generalizing from_ previous with
  | zero =>
    have same := reads.length_eq
    rw [drop_eq_nil_of_le (by omega)]
    rfl
  | succ count ih =>
    have here : from_ < rows.length := by omega
    have inEntries : from_ < entries.length := reads.length_eq ▸ here
    rcases reads.get here inEntries with ⟨isSeq, isObject⟩
    simp only [get_eq_getElem] at isSeq isObject
    have isField : field 8 rows[from_].write 0 = entries[from_].1 :=
      (EntryRow.seq_write (named _ (getElem_mem here))).trans isSeq
    have split := drop_eq_getElem_cons inEntries
    rw [split] at after ⊢
    have later := pairwise_cons.mp (split ▸ ascending.sublist (drop_sublist from_ _))
    rw [List.range'_succ]
    refine readEntries_cons_iff.mpr ⟨rows[from_].write, entries.drop (from_ + 1),
      slice_records EntryRow.length_write here, fun held isHeld => ?_, ?_, ?_⟩
    · rw [isField]
      exact after held isHeld _ mem_cons_self
    · refine ih (by omega) fun held isHeld entry listed => ?_
      rw [← Option.some.inj isHeld, isField]
      exact later.1 entry listed
    · rw [if_pos (everything_contains_field _), isField]
      exact ⟨entries[from_].2, isObject, rfl⟩

namespace ObjectIndex

variable {index : ObjectIndex}

theorem readHeader_encoded (fits : HeaderFits index.header) :
    readHeader index.encoded OBJECTS = .ok index.header := by
  refine readHeader_writeHeader fits.1 fits.2.1 fits.2.2 (by norm_num [OBJECTS, ENTRY])
    (by norm_num [OBJECTS]) ?_
  rw [length_append, length_flatMap EntryRow.length_write]
  exact congrArg₂ (· * ENTRY + ·) index.length_rows (Nat.mul_one _).symm

theorem hasPart (faithful : Faithful) (sound : index.Sound)
    (storable : ∀ entry ∈ index.entries, entry.2.Storable)
    (headerFits : HeaderFits index.header) (range : KeyRange) :
    HasPart get Reduced index range := by
  have reads := readObject_stowEntries faithful storable prefix_rfl headerFits.2.2
  have whole : index.readAll .everything = .ok index.entries :=
    readEntries_rows reads (seq_le_of_mem_rows sound.named) sound.ascending
      (by rw [← length_rows, Nat.zero_add]) nofun
  have decodes := decodeRange_of_header (readHeader_encoded headerFits) range
  have narrowed : index.readAll range = _ := readEntries_narrowed whole
  rw [narrowed] at decodes
  have ascending := sound.ascending.sublist
    (filter_sublist (p := fun entry : ℕ × Object => range.contains entry.1))
  refine ⟨_, mapError_eq_ok_iff.mpr decodes, ⟨ascending, fun entry listed =>
    sound.reduced entry (mem_of_mem_filter listed)⟩, fun key => ?_⟩
  ext object
  rw [get_eq_some_iff ascending, mem_filter]
  split_ifs with wanted
  · rw [get_eq_some_iff sound.ascending]
    exact and_iff_left wanted
  · exact iff_of_false (fun listed => wanted listed.2) nofun

theorem roundTrips (faithful : Faithful) (sound : index.Sound)
    (storable : ∀ entry ∈ index.entries, entry.2.Storable)
    (headerFits : HeaderFits index.header) : RoundTrips index := by
  have listed : ∀ {seq : ℕ} {object : Object}, index.get seq = some object →
      (seq, object) ∈ index.entries := fun found => (get_eq_some_iff sound.ascending).mp found
  refine roundTrips_of_parts pointwise (fun reduced otherReduced => reduced.ext otherReduced)
    (fun found => merge_self (sound.reduced _ (listed found))) sound.toReduced
    (fun key held => ?_) (hasPart faithful sound storable headerFits)
  rcases Option.ne_none_iff_exists'.mp held with ⟨object, found⟩
  exact sound.named _ (listed found)

end ObjectIndex

end Bitmaps

/-! ### All three -/

theorem CommitBuilder.Reached.laidFrom {builder : CommitBuilder} (reached : builder.Reached) :
    builder.build.LaidFrom (.laidOut builder.commits) :=
  ⟨rfl, Strided.tidy_laidOut _, fun seq node found =>
    reached.present seq node (Strided.mem_of_get_laidOut found)⟩

/-- Every index that a builder builds, and whose first key and counts fit the header, is read back
whole and from the two halves of every split; of the objects, when no location has the base that
stands for none. -/
theorem stored_indexes_round_trip [Roaring] (faithful : Faithful) :
    (∀ builder : CommitBuilder, builder.Reached → HeaderFits builder.build.header →
      RoundTrips builder.build) ∧
    (∀ builder : PackBuilder, builder.Reached → HeaderFits builder.build.header →
      RoundTrips builder.build) ∧
    ∀ builder : Builder, builder.Reached → HeaderFits builder.build.header →
      (∀ entry ∈ builder.build.entries, ∀ location ∈ entry.2.locations,
        location.baseSeq ≠ some NOBASE) → RoundTrips builder.build := by
  refine ⟨fun builder reached fits => ?_, fun builder reached fits => ?_,
    fun builder reached fits bases => ?_⟩
  · exact CommitIndex.roundTrips reached.laidFrom fits
  · refine PackIndex.roundTrips (Strided.tidy_laidOut _) (fun node listed => ?_) fits
    rcases Strided.exists_get_of_mem listed with ⟨seq, found⟩
    exact reached.inWidth (Strided.mem_of_get_laidOut found)
  · refine ObjectIndex.roundTrips faithful (ObjectIndex.sound_build reached.sound)
      (fun entry listed => ?_) fits
    have held := reached.sound.inWidth entry.1 entry.2
      (Std.TreeMap.mem_toList_iff_getElem?_eq_some.mp (mem_of_mem_filter listed))
    exact ⟨held.1, bases entry listed, held.2⟩

/-- Sets as their numbers in order, eight bytes each. -/
instance wordBitmaps : Roaring where
  serialize bitmap := some ((bitmap.sort (· ≤ ·)).flatMap (toLe 8))
  deserialize bytes :=
    ((readWindow 8 () (fun word => .ok (field 8 word 0)) bytes 0 (bytes.length / 8)).map
      List.toFinset).toOption

theorem faithful_wordBitmaps : Faithful := by
  intro bitmap bounded some_
  have sized : ∀ seq, (toLe 8 seq).length = 8 := length_toLe 8
  have length := length_flatMap sized (bitmap.sort (· ≤ ·))
  refine ⟨_, rfl, fun none => ?_, ?_⟩
  · rw [none, length_nil, Finset.length_sort] at length
    exact some_ (Finset.card_eq_zero.mp (by omega))
  · have window := @readWindow_records [] _ _ _ Unit ℕ sized (bitmap.sort (· ≤ ·)) 0 _ le_rfl
      (fun word => .ok (field 8 word 0)) ()
    rw [append_nil, drop_zero, Nat.sub_zero, take_length] at window
    have words : (bitmap.sort (· ≤ ·)).mapM (fun seq => Except.ok (field 8 (toLe 8 seq) 0)) =
        (.ok (bitmap.sort (· ≤ ·)) : Except Unit (List ℕ)) := by
      rw [Except.mapM_eq_ok_iff, forall₂_same]
      intro seq listed
      have small := bounded seq ((Finset.mem_sort _).mp listed)
      rw [field_alone (small.trans_lt (by norm_num [max64]))]
    simp only [Roaring.deserialize, length, Nat.mul_div_cancel _ (Nat.succ_pos 7)]
    rw [window, words]
    exact congrArg some (Finset.sort_toFinset _ _)

def againstBase (base : ℕ) : Builder :=
  (∅ : Builder).locate 3 { packSeq := 1, packOid := 2, segment := ⟨7, 0, 90⟩, offset := 12
                           entryLen := 40, baseSeq := some base }

theorem reached_againstBase {base : ℕ} (named : base ≤ max64) : (againstBase base).Reached := by
  refine .locate .new (by decide) ⟨(by decide : 1 ≤ max63), (by decide : 2 < 2 ^ 160),
    (by decide : 7 < 2 ^ 128), Nat.zero_le _, (by decide : 90 ≤ max64), (by decide : 12 ≤ max64),
    (by decide : 40 ≤ max64), fun held isHeld => ?_⟩
  rw [← Option.some.inj isHeld]
  exact named

theorem stored_indexes_round_trip_against : RoundTrips (againstBase 5).build :=
  (stored_indexes_round_trip faithful_wordBitmaps).2.2 _ (reached_againstBase (by decide))
    (by decide +kernel) (by decide +kernel)

/-- The base that stands for none is lost, though the library is faithful and everything fits. -/
theorem base_u64_max_not_read_back : Faithful ∧ (againstBase max64).Reached ∧
    HeaderFits (againstBase max64).build.header ∧ ¬RoundTrips (againstBase max64).build := by
  refine ⟨faithful_wordBitmaps, reached_againstBase le_rfl, by decide +kernel, fun round => ?_⟩
  exact absurd round.1 (by decide +kernel)

end Enroute.Stored
