import Enroute.GraphStore.CommitSegment

/-!
# The packs of commits as a segment

The second tier: what a fetch needs about one commit's pack, as a record of sixty bytes found by the
commit's number, with the two bitmaps in a heap behind the records. The bitmaps stay the bytes they
were written as, and a join keeps the node in the newest segment.
-/

namespace Enroute.Stored

open Enroute.Lattice Fields Join List

def PACKRECORD : ℕ :=
  60

def PACKS : Layout :=
  { magic := [67, 73, 88, 50], record := PACKRECORD, unit := 1
    magic_length := rfl, record_pos := by decide, unit_pos := by decide }

def PRESENT : U32 :=
  1

structure PackNode where
  entryLen : ℕ
  blobOffset : ℕ
  segmentId : ℕ
  baseOffset : ℕ
  imageLen : ℕ
  trees : List UInt8
  blobs : List UInt8
  deriving DecidableEq, Repr

/-- The order nodes are compared by: the greater segment is the live one, and the rest makes the
order total. -/
def PackNode.key (node : PackNode) : List ℕ ×ₗ (List ℕ ×ₗ List ℕ) :=
  toLex ([node.segmentId, node.entryLen, node.blobOffset, node.baseOffset, node.imageLen],
    toLex (node.trees.map UInt8.toNat, node.blobs.map UInt8.toNat))

theorem PackNode.key_injective : Function.Injective PackNode.key := by
  rintro ⟨entryLen, blobOffset, segmentId, baseOffset, imageLen, trees, blobs⟩ ⟨_, _, _, _, _, _, _⟩
    same
  simp only [PackNode.key, toLex_inj, Prod.mk.injEq, List.cons.injEq, and_true,
    (map_injective_iff.mpr fun _ _ => UInt8.toNat_inj.mp).eq_iff] at same
  rcases same with ⟨⟨rfl, rfl, rfl, rfl, rfl⟩, rfl, rfl⟩
  rfl

instance : LinearOrder PackNode :=
  LinearOrder.lift' PackNode.key PackNode.key_injective

structure PackIndex where
  nodes : Strided PackNode
  deriving DecidableEq, Repr

structure PackRecord where
  node : PackNode
  treesAt : U32
  blobsAt : U32

def writePack : Option PackRecord → List UInt8
  | none => List.replicate PACKRECORD 0
  | some record =>
    toLe 8 record.node.entryLen ++ (toLe 8 record.node.blobOffset ++
      (toLe 16 record.node.segmentId ++ (toLe 8 record.node.baseOffset ++
        (toLe 8 record.node.imageLen ++ (toLe 4 record.treesAt.val ++
          (toLe 4 record.blobsAt.val ++ toLe 4 PRESENT.val))))))

/-- The bitmaps of some slots put into the heap, and the records that reach them. -/
def stowPacks : List (Option PackNode) → List UInt8 → List (Option PackRecord) × List UInt8
  | [], heap => ([], heap)
  | none :: slots, heap =>
    let rest := stowPacks slots heap
    (none :: rest.1, rest.2)
  | some node :: slots, heap =>
    let trees := stow node.trees heap
    let blobs := stow node.blobs trees.2
    let rest := stowPacks slots blobs.2
    (some ⟨node, trees.1, blobs.1⟩ :: rest.1, rest.2)

def fetchBitmap (at_ : U32) (heap : List UInt8) : Except Malformed (List UInt8) :=
  match fetchBlob at_ heap with
  | none => .error (.strayExtra at_)
  | some blob => .ok blob

def readPack (heap chunk : List UInt8) : Except Malformed (Option PackNode) :=
  if (field32 chunk 56).val % 2 = 0 then .ok none
  else do
    let trees ← fetchBitmap (field32 chunk 48) heap
    let blobs ← fetchBitmap (field32 chunk 52) heap
    return some {
      entryLen := field 8 chunk 0, blobOffset := field 8 chunk 8, segmentId := field 16 chunk 16
      baseOffset := field 8 chunk 32, imageLen := field 8 chunk 40, trees, blobs }

namespace PackIndex

def get (index : PackIndex) (seq : ℕ) : Option PackNode :=
  index.nodes.get seq

def join (index other : PackIndex) : PackIndex :=
  ⟨index.nodes.joined other.nodes⟩

def encoded (index : PackIndex) : List UInt8 :=
  let stowed := stowPacks index.nodes.slots []
  writeHeader { first := index.nodes.first, records := index.nodes.slots.length
                tail := stowed.2.length } PACKS ++
    (stowed.1.flatMap writePack ++ stowed.2)

def decodeRange (bytes : List UInt8) (range : KeyRange) : Except Malformed PackIndex := do
  let header ← (readHeader bytes PACKS).mapError .frame
  let body := bytes.drop HEADER
  let heap := body.drop (header.records * PACKRECORD)
  match header.sliceOf range with
  | none => .ok ⟨.empty⟩
  | some (from_, upto) => do
      let records ← readWindow PACKRECORD
        (.frame (.truncated (HEADER + header.records * PACKRECORD) bytes.length))
        (readPack heap) body from_ upto
      return ⟨.trimmed (header.first + from_) records⟩

end PackIndex

instance : Segment PackIndex where
  join := PackIndex.join
  range index := index.nodes.range
  encoded := PackIndex.encoded
  decodeRange bytes range := (PackIndex.decodeRange bytes range).mapError Malformed.message

theorem length_writePack (record : Option PackRecord) : (writePack record).length = PACKRECORD := by
  cases record <;> simp [writePack, PACKRECORD]

theorem readPack_writePack_none (heap : List UInt8) : readPack heap (writePack none) = .ok none :=
  if_pos (by decide)

theorem map_isSome_stowPacks (slots : List (Option PackNode)) (heap : List UInt8) :
    (stowPacks slots heap).1.map Option.isSome = slots.map Option.isSome := by
  induction slots generalizing heap with
  | nil => rfl
  | cons slot slots ih => cases slot <;> simp [stowPacks, ih]

namespace PackIndex

variable {index : PackIndex}

theorem pointwise : Pointwise get max (fun _ => True) (fun _ => 0) 0 where
  lookup_join _ _ _ seq := Strided.get_joined _ _ seq
  good_join _ _ _ := trivial
  size_join _ _ _ := Nat.zero_le _

def header (index : PackIndex) : Header :=
  { first := index.nodes.first, records := index.nodes.slots.length
    tail := (stowPacks index.nodes.slots []).2.length }

def records (index : PackIndex) : List (Option PackRecord) :=
  (stowPacks index.nodes.slots []).1

def heap (index : PackIndex) : List UInt8 :=
  (stowPacks index.nodes.slots []).2

theorem length_records (index : PackIndex) : index.records.length = index.nodes.slots.length := by
  have same := congrArg List.length (map_isSome_stowPacks index.nodes.slots [])
  rwa [length_map, length_map] at same

theorem eq_header_of_read {covered : KeyRange} {found : Header}
    (isRange : index.nodes.range = some covered)
    (read : readHeader index.encoded PACKS = .ok found) :
    found = index.header ∧ index.header.first + (index.header.records - 1) ≤ max64 := by
  have sized : (index.records.flatMap writePack ++ index.heap).length =
      index.header.records * PACKS.record + index.header.tail * PACKS.unit := by
    rw [length_append, length_flatMap length_writePack, length_records]
    exact congrArg _ (Nat.mul_one _).symm
  have named : index.header.first ≤ max64 := by
    rcases Option.bind_eq_some_iff.mp isRange with ⟨last, -, isNew⟩
    rw [header, ← (KeyRange.new_eq_some_iff.mp isNew).1]
    exact covered.ordered.trans covered.bounded
  rcases eq_of_readHeader named sized read with ⟨same, first, few, -⟩
  refine ⟨same, ?_⟩
  simp only [max63, max64] at *
  omega

/-- Decoding an index whose header reads back reads the records in the window that the range asks
for. -/
theorem decodeRange_of_header (read : readHeader index.encoded PACKS = .ok index.header)
    (range : KeyRange) :
    decodeRange index.encoded range =
      match index.header.sliceOf range with
      | none => .ok ⟨.empty⟩
      | some (from_, upto) =>
        (((index.records.drop from_).take (upto - from_)).mapM fun record =>
          readPack index.heap (writePack record)).map fun slots =>
            ⟨.trimmed (index.nodes.first + from_) slots⟩ := by
  have body : index.encoded.drop HEADER = index.records.flatMap writePack ++ index.heap := by
    rw [encoded, drop_left' length_writeHeader]
    rfl
  have isHeap : (index.records.flatMap writePack ++ index.heap).drop
      (index.header.records * PACKRECORD) = index.heap := by
    refine drop_left' ?_
    rw [length_flatMap length_writePack, length_records]
    rfl
  rw [decodeRange, read, body]
  simp only [Except.mapError, Except.ok_bind, isHeap]
  cases sliced : index.header.sliceOf range with
  | none => rfl
  | some window_ =>
    rcases window_ with ⟨from_, upto⟩
    have inside : upto ≤ index.records.length :=
      (sliceOf_bounds sliced).2.trans_eq index.length_records.symm
    simp only
    rw [readWindow_records length_writePack inside]
    cases ((index.records.drop from_).take (upto - from_)).mapM fun record =>
      readPack index.heap (writePack record) <;> rfl

theorem exists_of_read {slots : List (Option PackNode)} {seq : ℕ} {node : PackNode}
    (read : index.records.mapM (fun record => readPack index.heap (writePack record)) = .ok slots)
    (found : (Strided.mk index.nodes.first slots).get seq = some node) :
    ∃ original, index.nodes.get seq = some original := by
  rcases Nat.le.dest (Strided.bounds_of_get found).1 with ⟨position, rfl⟩
  simp only at found ⊢
  rw [Strided.get_add, Option.join_eq_some_iff] at found
  rcases Except.getElem?_of_mapM read found with ⟨record, isRecord, reads⟩
  have same : (index.records.map Option.isSome)[position]? =
      (index.nodes.slots.map Option.isSome)[position]? :=
    congrArg (·[position]?) (map_isSome_stowPacks index.nodes.slots [])
  rw [List.getElem?_map, List.getElem?_map, isRecord] at same
  cases record with
  | none =>
    rw [readPack_writePack_none] at reads
    cases reads
  | some record =>
    rw [Option.map_some, eq_comm, Option.map_eq_some_iff] at same
    rcases same with ⟨slot, isSlot, isSome⟩
    rcases Option.isSome_iff_exists.mp isSome with ⟨original, rfl⟩
    refine ⟨original, (Strided.get_add _ _ _).trans ?_⟩
    rw [isSlot]
    rfl

/-- A narrowed decoding holds, at the keys that were asked for, what a whole decoding does, and
nothing that a whole decoding does not hold. -/
theorem narrows {whole : PackIndex} {covered : KeyRange} (range : KeyRange)
    (isRange : index.nodes.range = some covered)
    (decoded : decodeRange index.encoded .everything = .ok whole) :
    ∃ part, decodeRange index.encoded range = .ok part ∧
      Narrowed get (fun _ => True) (fun _ => 0) covered range whole part ∧
        ∀ key node, part.get key = some node → whole.get key = some node := by
  rcases exists_of_mapError_bind decoded with ⟨_, read⟩
  rcases eq_header_of_read isRange read with ⟨rfl, nameable⟩
  have some_ : 0 < index.header.records := by
    refine length_pos_of_ne_nil fun none => ?_
    rcases Option.bind_eq_some_iff.mp isRange with ⟨last, isLast, -⟩
    rw [Strided.last, none] at isLast
    cases isLast
  rw [decodeRange_of_header read, sliceOf_everything nameable some_] at decoded
  simp only [drop_zero, Nat.sub_zero, Nat.add_zero] at decoded
  have allRecords : index.records.take index.header.records = index.records :=
    take_of_length_le index.length_records.le
  rw [allRecords] at decoded
  cases isSlots : index.records.mapM fun record => readPack index.heap (writePack record) with
  | error failure =>
    rw [isSlots] at decoded
    cases decoded
  | ok slots =>
    rw [isSlots] at decoded
    cases decoded
    have isFirst : index.header.first = (Strided.mk index.nodes.first slots).first := rfl
    have isCount : index.header.records = (Strided.mk index.nodes.first slots).slots.length := by
      simp only [← (Except.mapM_eq_ok_iff.mp isSlots).length_eq, length_records]
      rfl
    have wholeAt : ∀ key, get ⟨.trimmed index.nodes.first slots⟩ key =
        (Strided.mk index.nodes.first slots).get key := fun key => Strided.get_trimmed _ _ key
    have covers : ∀ key, get ⟨.trimmed index.nodes.first slots⟩ key ≠ none →
        covered.contains key = true := by
      intro key present
      rcases Option.ne_none_iff_exists'.mp present with ⟨node, isNode⟩
      rw [wholeAt] at isNode
      rcases exists_of_read isSlots isNode with ⟨original, isOriginal⟩
      exact Strided.contains_of_get isRange isOriginal
    rw [decodeRange_of_header read]
    cases sliced : index.header.sliceOf range with
    | none =>
      have nothing : ∀ key, get ⟨.empty⟩ key = none := fun key =>
        Strided.get_eq_none_of_holes (forall_mem_nil _)
      refine ⟨⟨.empty⟩, rfl, ⟨trivial, trivial, le_rfl, fun key wanted => ?_, covers⟩, ?_⟩
      · rw [wholeAt, Strided.get_of_not_sliced isFirst isCount nameable sliced wanted]
        exact nothing key
      · intro key node found
        rw [nothing] at found
        cases found
    | some window_ =>
      rcases window_ with ⟨from_, upto⟩
      simp only
      rw [Except.mapM_window isSlots]
      have partAt : ∀ key, get ⟨.trimmed (index.nodes.first + from_)
          ((slots.drop from_).take (upto - from_))⟩ key =
            ((Strided.mk index.nodes.first slots).window from_ upto).get key :=
        fun key => Strided.get_trimmed _ _ key
      refine ⟨_, rfl, ⟨trivial, trivial, le_rfl, fun key wanted => ?_, covers⟩, ?_⟩
      · rw [wholeAt, ← Strided.get_window_of_sliced isFirst isCount nameable sliced wanted]
        exact partAt key
      · intro key node found
        rw [partAt, Strided.get_window] at found
        split_ifs at found
        rw [wholeAt, found]

theorem reads_agree {store : Store PackIndex} (catalogued : store.Catalogued fun _ => True) :
    store.ReadsAgree get := by
  refine catalogued.reads_agree pointwise (fun index whole covered range _ isRange decoded _ => ?_) ?_
  · rcases narrows range isRange (mapError_eq_ok_iff.mp decoded) with ⟨part, isPart, narrowed, -⟩
    exact ⟨part, mapError_eq_ok_iff.mpr isPart, narrowed⟩
  · exact store.weight_zero.le

end PackIndex

end Enroute.Stored
