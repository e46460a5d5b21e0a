import Enroute.GraphStore.Strided
import Enroute.Lattice.Reading

/-!
# The parent graph as a segment

One commit is a record of twenty bytes, found by its number. Two parents are inline and the rest
are out of line: a record holds an offset into the tail, where their count and then the parents
stand. A join takes the nodes apart and lays them out again, which is where an offset can grow past
what a record holds; the parents are then lost.
-/

namespace Enroute.Stored

open Enroute.Lattice Fields Join List

def RECORD : ℕ :=
  20

def GRAPH : Layout :=
  { magic := [67, 73, 88, 48], record := RECORD, unit := 4
    magic_length := rfl, record_pos := by decide, unit_pos := by decide }

structure Record where
  parent1 : U32
  parent2 : U32
  rootTree : U32
  generation : U32
  extra : U32
  deriving DecidableEq, Repr

namespace Record

def absent : Record :=
  { parent1 := NONE, parent2 := NONE, rootTree := NONE, generation := 0, extra := NONE }

def present (record : Record) : Bool :=
  record.rootTree ≠ NONE

def write (record : Record) : List UInt8 :=
  toLe 4 record.parent1 ++ (toLe 4 record.parent2 ++ (toLe 4 record.rootTree ++
    (toLe 4 record.generation ++ toLe 4 record.extra)))

def read (bytes : List UInt8) : Record :=
  { parent1 := field32 bytes 0, parent2 := field32 bytes 4, rootTree := field32 bytes 8
    generation := field32 bytes 12, extra := field32 bytes 16 }

theorem length_write (record : Record) : record.write.length = RECORD := by
  simp [write, RECORD]

@[simp]
theorem read_write (record : Record) : read record.write = record := by
  have fits : ∀ value : U32, (value : ℕ) < 256 ^ 4 := fun value => value.isLt.trans_eq (by norm_num)
  rcases record with ⟨parent1, parent2, rootTree, generation, extra⟩
  simp (disch := omega) only [read, write, field32, field_skip, field_head (fits _),
    field_alone (fits _), Nat.sub_self, Nat.reduceSub, Fin.eta]

end Record

inductive Malformed where
  | frame (error : Frame)
  | strayExtra (offset : U32)
  | bitmap
  deriving DecidableEq, Repr

def Malformed.message : Malformed → String
  | .frame error => error.message
  | .strayExtra offset => "an octopus merge whose extra parents are not in the tail, at offset " ++
      toString offset.val
  | .bitmap => "a pack bitmap that is not one"

structure Node where
  generation : U32
  rootTree : U32
  parent1 : U32
  parent2 : U32
  extra : List U32
  deriving DecidableEq, Repr

def Node.key (node : Node) : List ℕ :=
  node.generation :: node.rootTree :: node.parent1 :: node.parent2 :: node.extra.map Fin.val

theorem Node.key_injective : Function.Injective Node.key := by
  rintro ⟨generation, rootTree, parent1, parent2, extra⟩ ⟨_, _, _, _, _⟩ same
  simp only [Node.key, List.cons.injEq, Fin.val_inj,
    (map_injective_iff.mpr Fin.val_injective).eq_iff] at same
  rcases same with ⟨rfl, rfl, rfl, rfl, rfl⟩
  rfl

instance : LinearOrder Node :=
  LinearOrder.lift' Node.key Node.key_injective

structure CommitIndex where
  first : ℕ
  records : List Record
  tail : List U32
  deriving DecidableEq, Repr

/-- The out-of-line parents of a record, or nothing for an offset that is not in the tail. -/
def extraSpan (record : Record) (tail : List U32) : Option (List U32) :=
  if record.extra = NONE then some []
  else match tail[record.extra.val]? with
    | none => none
    | some count =>
      if record.extra.val + 1 + count.val ≤ tail.length then
        some ((tail.drop (record.extra.val + 1)).take count.val)
      else none

def extraOf (record : Record) (tail : List U32) : List U32 :=
  (extraSpan record tail).getD []

structure Entry where
  record : Record
  tail : List U32

namespace Entry

def rootTree (entry : Entry) : ℕ :=
  entry.record.rootTree

def generation (entry : Entry) : ℕ :=
  entry.record.generation

def parents (entry : Entry) : List ℕ :=
  (([entry.record.parent1, entry.record.parent2].takeWhile (· ≠ NONE)) ++
    extraOf entry.record entry.tail).map Fin.val

end Entry

def Record.node (tail : List U32) (record : Record) : Option Node :=
  if record.present then
    some { generation := record.generation, rootTree := record.rootTree, parent1 := record.parent1
           parent2 := record.parent2, extra := extraOf record tail }
  else none

def placeExtra (extra tail : List U32) : U32 × List U32 :=
  if extra = [] then (NONE, tail)
  else ((tryU32 tail.length).getD NONE, tail ++ ((tryU32 extra.length).getD 0 :: extra))

def layOut : List (Option Node) → List U32 → List Record × List U32
  | [], tail => ([], tail)
  | none :: slots, tail =>
    let rest := layOut slots tail
    (.absent :: rest.1, rest.2)
  | some node :: slots, tail =>
    let placed := placeExtra node.extra tail
    let rest := layOut slots placed.2
    ({ parent1 := node.parent1, parent2 := node.parent2, rootTree := node.rootTree
       generation := node.generation, extra := placed.1 } :: rest.1, rest.2)

def assemble (nodes : Strided Node) : CommitIndex :=
  let laid := layOut nodes.slots []
  { first := nodes.first, records := laid.1, tail := laid.2 }

def writeWord (word : U32) : List UInt8 :=
  toLe 4 word.val

namespace CommitIndex

def empty : CommitIndex :=
  { first := 0, records := [], tail := [] }

def last (index : CommitIndex) : Option ℕ :=
  (rposition Record.present index.records).map (index.first + ·)

def range (index : CommitIndex) : Option KeyRange :=
  index.last.bind (KeyRange.new index.first)

def get (index : CommitIndex) (seq : ℕ) : Option Entry :=
  if seq < index.first then none
  else match index.records[seq - index.first]? with
    | none => none
    | some record => if record.present then some ⟨record, index.tail⟩ else none

def slots (index : CommitIndex) : Strided Node :=
  ⟨index.first, index.records.map (Record.node index.tail)⟩

def nodes (index : CommitIndex) : Strided Node :=
  .trimmed index.slots.first index.slots.slots

def join (index other : CommitIndex) : CommitIndex :=
  if other.last = none then index
  else if index.last = none then other
  else assemble (index.nodes.joined other.nodes)

def encoded (index : CommitIndex) : List UInt8 :=
  writeHeader { first := index.first, records := index.records.length, tail := index.tail.length }
      GRAPH ++
    (index.records.flatMap Record.write ++ index.tail.flatMap writeWord)

def stray (tail : List U32) (record : Record) : Bool :=
  record.extra ≠ NONE && (extraSpan record tail).isNone

/-- Rebuild what was read, so that the value is canonical whatever laid the bytes out. -/
def rebuilt (read : CommitIndex) : Except Malformed CommitIndex :=
  match read.records.find? (stray read.tail) with
  | some record => .error (.strayExtra record.extra)
  | none => .ok (assemble read.nodes)

def decodeRange (bytes : List UInt8) (range : KeyRange) : Except Malformed CommitIndex := do
  let header ← (readHeader bytes GRAPH).mapError .frame
  let body := bytes.drop HEADER
  match header.sliceOf range with
  | none => .ok empty
  | some (from_, upto) => do
      let records ← readWindow RECORD
        (.frame (.truncated (HEADER + header.records * RECORD) bytes.length))
        (fun chunk => .ok (Record.read chunk)) body from_ upto
      -- Whole, whatever the slice: an offset of a record points anywhere into the tail.
      let tail := (List.range header.tail).map fun position =>
        field32 body (header.records * RECORD + position * 4)
      rebuilt { first := header.first + from_, records, tail }

end CommitIndex

instance : Segment CommitIndex where
  join := CommitIndex.join
  range := CommitIndex.range
  encoded := CommitIndex.encoded
  decodeRange bytes range := (CommitIndex.decodeRange bytes range).mapError Malformed.message

/-! ### Laying nodes out -/

def Node.cost (node : Node) : ℕ :=
  if node.extra = [] then 0 else node.extra.length + 1

theorem length_snd_placeExtra (node : Node) (tail : List U32) :
    (placeExtra node.extra tail).2.length = tail.length + node.cost := by
  unfold placeExtra Node.cost
  split_ifs with none
  · rfl
  · simp

theorem length_snd_layOut (slots : List (Option Node)) (tail : List U32) :
    (layOut slots tail).2.length = tail.length + Strided.total Node.cost slots := by
  induction slots generalizing tail with
  | nil => rfl
  | cons slot slots ih =>
    cases slot with
    | none => simp [layOut, ih, Strided.total]
    | some node =>
      simp only [layOut, ih, length_snd_placeExtra]
      simp only [Strided.total, map_cons, sum_cons, Option.elim_some]
      omega

theorem prefix_snd_layOut (slots : List (Option Node)) (tail : List U32) :
    tail <+: (layOut slots tail).2 := by
  induction slots generalizing tail with
  | nil => exact prefix_rfl
  | cons slot slots ih =>
    cases slot with
    | none => exact ih tail
    | some node =>
      refine List.IsPrefix.trans ?_ (ih _)
      unfold placeExtra
      split_ifs
      · exact prefix_rfl
      · exact prefix_append _ _

variable {final tail : List U32}

theorem extraSpan_placeExtra {extra : List U32} {record : Record}
    (isExtra : record.extra = (placeExtra extra tail).1)
    (grows : (placeExtra extra tail).2 <+: final)
    (small : (placeExtra extra tail).2.length ≤ 2 ^ 32) : extraSpan record final = some extra := by
  unfold placeExtra at isExtra grows small
  split_ifs at isExtra grows small with none
  · rw [extraSpan, if_pos isExtra, none]
  · have some_ : 0 < extra.length := length_pos_of_ne_nil none
    simp only [length_append, length_cons] at small
    have offsetFits : tail.length < 2 ^ 32 := by omega
    have countFits : extra.length < 2 ^ 32 := by omega
    simp only [tryU32_of_lt countFits, Option.getD_some] at grows
    simp only [tryU32_of_lt offsetFits, Option.getD_some] at isExtra
    have isOffset : record.extra.val = tail.length := congrArg Fin.val isExtra
    have notNone : record.extra ≠ NONE := by
      intro same
      have := congrArg Fin.val same
      simp only [isOffset, NONE] at this
      omega
    rcases grows with ⟨more, rfl⟩
    rw [extraSpan, if_neg notNone, isOffset, append_assoc,
      List.getElem?_append_right le_rfl, Nat.sub_self, cons_append, List.getElem?_cons_zero]
    simp only
    rw [if_pos (by simp only [length_append, length_cons]; omega)]
    simp

/-- Nodes that were laid out are read back, and no record of them points outside the tail. -/
theorem node_layOut {slots : List (Option Node)}
    (present : ∀ node, some node ∈ slots → node.rootTree ≠ NONE)
    (grows : (layOut slots tail).2 <+: final)
    (small : tail.length + Strided.total Node.cost slots ≤ 2 ^ 32) :
    (layOut slots tail).1.map (Record.node final) = slots ∧
      ∀ record ∈ (layOut slots tail).1, CommitIndex.stray final record = false := by
  induction slots generalizing tail with
  | nil => exact ⟨rfl, fun _ => nofun⟩
  | cons slot slots ih =>
    have presentRest : ∀ node, some node ∈ slots → node.rootTree ≠ NONE :=
      fun node nodeMem => present node (mem_cons_of_mem _ nodeMem)
    cases slot with
    | none =>
      simp only [Strided.total, map_cons, sum_cons, Option.elim_none, zero_add] at small
      rcases ih presentRest grows small with ⟨nodes, inTail⟩
      simp only [layOut, map_cons, nodes]
      exact ⟨rfl, forall_mem_cons.mpr ⟨by simp [CommitIndex.stray, Record.absent], inTail⟩⟩
    | some node =>
      have costs : Strided.total Node.cost (some node :: slots) =
          node.cost + Strided.total Node.cost slots := by
        simp [Strided.total]
      have placedLength := length_snd_placeExtra node tail
      rw [costs] at small
      simp only [layOut] at grows
      rcases ih presentRest grows (by omega) with ⟨nodes, inTail⟩
      have span : ∀ {record : Record}, record.extra = (placeExtra node.extra tail).1 →
          extraSpan record final = some node.extra := fun isExtra =>
        extraSpan_placeExtra isExtra ((prefix_snd_layOut slots _).trans grows) (by omega)
      simp only [layOut, map_cons]
      refine ⟨?_, forall_mem_cons.mpr ⟨?_, inTail⟩⟩
      · rw [nodes, Record.node, if_pos, extraOf, span rfl]
        · rfl
        · exact decide_eq_true (present node mem_cons_self)
      · rw [CommitIndex.stray, span rfl]
        simp

/-! ### What an index holds at a number -/

def Node.view (node : Node) : ℕ × ℕ × List ℕ :=
  (node.rootTree, node.generation,
    (([node.parent1, node.parent2].takeWhile (· ≠ NONE)) ++ node.extra).map Fin.val)

def Entry.view (entry : Entry) : ℕ × ℕ × List ℕ :=
  (entry.rootTree, entry.generation, entry.parents)

namespace CommitIndex

variable {index other : CommitIndex} {seq : ℕ} {node : Node} {nodes : Strided Node}

def nodeAt (index : CommitIndex) (seq : ℕ) : Option Node :=
  index.slots.get seq

theorem map_view_get (index : CommitIndex) (seq : ℕ) :
    (index.get seq).map Entry.view = (index.nodeAt seq).map Node.view := by
  rw [get, nodeAt, Strided.get, slots]
  simp only [List.getElem?_map]
  split_ifs with below
  · rfl
  · cases index.records[seq - index.first]? with
    | none => rfl
    | some record =>
      simp only [Record.node, Option.map_some]
      split_ifs <;> rfl

@[simp]
theorem get_nodes (index : CommitIndex) (seq : ℕ) : index.nodes.get seq = index.nodeAt seq :=
  Strided.get_trimmed _ _ seq

theorem rootTree_of_nodeAt (found : index.nodeAt seq = some node) : node.rootTree ≠ NONE := by
  rw [nodeAt, Strided.get, slots] at found
  simp only [List.getElem?_map] at found
  split_ifs at found with below
  cases isRecord : index.records[seq - index.first]? with
  | none =>
    rw [isRecord] at found
    cases found
  | some record =>
    rw [isRecord, Option.map_some, Option.join_some, Record.node] at found
    split_ifs at found with present
    cases found
    exact of_decide_eq_true present

theorem last_eq_slots (index : CommitIndex) : index.last = index.slots.last := by
  have same : Option.isSome ∘ Record.node index.tail = Record.present := by
    funext record
    simp only [Function.comp_apply, Record.node]
    cases record.present <;> rfl
  rw [last, Strided.last, slots, rposition_map, same]

/-- Nodes that all hold a commit, and whose out-of-line parents fit the tail. -/
structure Fits (nodes : Strided Node) : Prop where
  present : ∀ node, some node ∈ nodes.slots → node.rootTree ≠ NONE
  small : Strided.total Node.cost nodes.slots ≤ 2 ^ 32

theorem slots_assemble (fits : Fits nodes) : (assemble nodes).slots = nodes := by
  have laid : (layOut nodes.slots []).1.map (Record.node (layOut nodes.slots []).2) = nodes.slots :=
    (node_layOut fits.present prefix_rfl (by simpa using fits.small)).1
  rw [slots, assemble]
  simp only [laid]

theorem range_assemble (fits : Fits nodes) : (assemble nodes).range = nodes.range := by
  rw [range, last_eq_slots, slots_assemble fits]
  rfl

theorem length_tail_assemble (nodes : Strided Node) :
    (assemble nodes).tail.length = Strided.total Node.cost nodes.slots := by
  simp [assemble, length_snd_layOut]

/-- An index whose tail holds nothing twice: its nodes cost no more than the tail is long. -/
def Tight (index : CommitIndex) : Prop :=
  Strided.total Node.cost index.nodes.slots ≤ index.tail.length

theorem tight_assemble (fits : Fits nodes) : (assemble nodes).Tight := by
  rw [Tight, length_tail_assemble, CommitIndex.nodes, slots_assemble fits]
  exact (Strided.total_trimmed _ _).le

theorem nodeAt_assemble (fits : Fits nodes) (seq : ℕ) : (assemble nodes).nodeAt seq = nodes.get seq := by
  rw [nodeAt, slots_assemble fits]

theorem fits_joined (small : Strided.total Node.cost index.nodes.slots +
    Strided.total Node.cost other.nodes.slots ≤ 2 ^ 32) : Fits (index.nodes.joined other.nodes) where
  present node held := by
    rcases Strided.exists_get_of_mem held with ⟨seq, found⟩
    rw [Strided.get_joined, get_nodes, get_nodes] at found
    rcases Strided.eq_or_eq_of_merge_max found with mine | theirs
    · exact rootTree_of_nodeAt mine
    · exact rootTree_of_nodeAt theirs
  small := (Strided.total_joined_le _ _).trans small

theorem nodeAt_eq_none_of_last (empty : index.last = none) : index.nodeAt seq = none :=
  Strided.get_eq_none_of_last (index.last_eq_slots ▸ empty)

/-- A join of tight indexes acts number by number, as long as their tails together stay within what
an offset reaches. -/
theorem pointwise : Pointwise nodeAt max Tight (fun index => index.tail.length) (2 ^ 32) where
  lookup_join {index other} tight tightOther small seq := by
    change (index.join other).nodeAt seq = _
    rw [join]
    split_ifs with noOther noIndex
    · rw [nodeAt_eq_none_of_last noOther, Option.merge_none_right]
    · rw [nodeAt_eq_none_of_last noIndex, Option.merge_none_left]
    · rw [nodeAt_assemble (fits_joined (le_trans (Nat.add_le_add tight tightOther) small)),
        Strided.get_joined, get_nodes, get_nodes]
  good_join {index other} tight tightOther small := by
    change (index.join other).Tight
    rw [join]
    split_ifs
    · exact tight
    · exact tightOther
    · exact tight_assemble (fits_joined (le_trans (Nat.add_le_add tight tightOther) small))
  size_join {index other} tight tightOther small := by
    change (index.join other).tail.length ≤ _
    rw [join]
    split_ifs
    · exact Nat.le_add_right _ _
    · exact Nat.le_add_left _ _
    · rw [length_tail_assemble]
      exact (Strided.total_joined_le _ _).trans (Nat.add_le_add tight tightOther)

/-! ### Reading back -/

def window (index : CommitIndex) (from_ upto : ℕ) : CommitIndex :=
  { first := index.first + from_, records := (index.records.drop from_).take (upto - from_)
    tail := index.tail }

theorem slots_window {from_ upto : ℕ} (index : CommitIndex) :
    (index.window from_ upto).slots = index.slots.window from_ upto := by
  simp only [slots, window, Strided.window, map_take, map_drop]

theorem total_window_le {from_ upto : ℕ} (index : CommitIndex) :
    Strided.total Node.cost (index.window from_ upto).nodes.slots ≤
      Strided.total Node.cost index.nodes.slots := by
  rw [nodes, Strided.total_trimmed, nodes, Strided.total_trimmed]
  exact Strided.total_sublist (((take_sublist _ _).trans (drop_sublist _ _)).map _)

theorem fits_nodes (small : Strided.total Node.cost index.nodes.slots ≤ 2 ^ 32) :
    Fits index.nodes where
  present node held := by
    rcases Strided.exists_get_of_mem held with ⟨seq, found⟩
    exact rootTree_of_nodeAt (index.get_nodes seq ▸ found)
  small := small

def header (index : CommitIndex) : Header :=
  { first := index.first, records := index.records.length, tail := index.tail.length }

variable {covered : KeyRange}

theorem first_le_max64 (isRange : index.range = some covered) :
    index.first ≤ max64 ∧ 0 < index.records.length := by
  rw [range, Option.bind_eq_some_iff] at isRange
  rcases isRange with ⟨last, isLast, isNew⟩
  rcases KeyRange.new_eq_some_iff.mp isNew with ⟨isFirst, -⟩
  refine ⟨isFirst ▸ covered.ordered.trans covered.bounded, length_pos_of_ne_nil ?_⟩
  intro none
  rw [CommitIndex.last, none] at isLast
  cases isLast

theorem length_writeWord (word : U32) : (writeWord word).length = 4 :=
  length_toLe 4 word

theorem eq_header_of_read {found : Header} (isRange : index.range = some covered)
    (read : readHeader index.encoded GRAPH = .ok found) :
    found = index.header ∧ index.first + (index.records.length - 1) ≤ max64 := by
  have sized : (index.records.flatMap Record.write ++ index.tail.flatMap writeWord).length =
      index.header.records * GRAPH.record + index.header.tail * GRAPH.unit := by
    rw [length_append, length_flatMap Record.length_write, length_flatMap length_writeWord]
    rfl
  rcases eq_of_readHeader (first_le_max64 isRange).1 sized read with ⟨same, named, fewRecords, -⟩
  refine ⟨same, ?_⟩
  simp only [header, max63, max64] at *
  omega

theorem read_tail (index : CommitIndex) :
    (List.range index.tail.length).map (fun position =>
      field32 (index.records.flatMap Record.write ++ index.tail.flatMap writeWord)
        (index.records.length * RECORD + position * 4)) = index.tail := by
  refine ext_getElem (by simp) fun position _ inside => ?_
  have fits : index.tail[position].val < 256 ^ 4 :=
    index.tail[position].isLt.trans_eq (by norm_num)
  rw [getElem_map, getElem_range]
  apply Fin.ext
  simp only [field32, field]
  rw [← length_flatMap Record.length_write, slice_append_right,
    slice_flatMap length_writeWord inside, Option.map_some, Option.getD_some, writeWord,
    ofLe_toLe fits]

theorem decodeRange_of_header (read : readHeader index.encoded GRAPH = .ok index.header)
    (range : KeyRange) :
    decodeRange index.encoded range =
      match index.header.sliceOf range with
      | none => .ok empty
      | some (from_, upto) => rebuilt (index.window from_ upto) := by
  have body : index.encoded.drop HEADER =
      index.records.flatMap Record.write ++ index.tail.flatMap writeWord := by
    rw [encoded, drop_left' length_writeHeader]
  rw [decodeRange, read, body]
  simp only [Except.mapError, Except.ok_bind]
  cases sliced : index.header.sliceOf range with
  | none => rfl
  | some window_ =>
    rcases window_ with ⟨from_, upto⟩
    have taken : ∀ records : List Record,
        records.mapM (fun record => (.ok record : Except Malformed Record)) = .ok records :=
      fun records => (mapM_pure).trans (by rw [map_id']; rfl)
    simp only
    rw [readWindow_records Record.length_write (sliceOf_bounds sliced).2]
    simp only [Record.read_write, taken, Except.ok_bind, header, read_tail, window]

theorem rebuilt_eq_ok_iff {read answer : CommitIndex} : rebuilt read = .ok answer ↔
    (∀ record ∈ read.records, stray read.tail record = false) ∧ assemble read.nodes = answer := by
  rw [rebuilt]
  cases strayed : read.records.find? (stray read.tail) with
  | none =>
    rw [List.find?_eq_none] at strayed
    simp only [Bool.not_eq_true] at strayed
    exact ⟨fun same => ⟨strayed, Except.ok.inj same⟩, fun same => congrArg _ same.2⟩
  | some record =>
    refine iff_of_false nofun fun all => ?_
    have passes := List.find?_some strayed
    rw [all.1 record (mem_of_find?_eq_some strayed)] at passes
    cases passes

theorem window_all (index : CommitIndex) : index.window 0 index.records.length = index := by
  rw [window, drop_zero, Nat.sub_zero, take_length]
  rfl

theorem decode_assemble (fits : Fits nodes) (isRange : (assemble nodes).range = some covered)
    (named : nodes.first ≤ max63) (few : nodes.slots.length < 2 ^ 32)
    (short : Strided.total Node.cost nodes.slots < 2 ^ 32) :
    decodeRange (assemble nodes).encoded .everything =
      .ok (assemble (.trimmed nodes.first nodes.slots)) := by
  have count : (assemble nodes).records.length = nodes.slots.length := by
    have same := congrArg (fun strided => strided.slots.length) (slots_assemble fits)
    simpa only [slots, length_map] using same
  have sized : ((assemble nodes).records.flatMap Record.write ++
      (assemble nodes).tail.flatMap writeWord).length =
      (assemble nodes).header.records * GRAPH.record + (assemble nodes).header.tail * GRAPH.unit := by
    rw [length_append, length_flatMap Record.length_write, length_flatMap length_writeWord]
    rfl
  have read : readHeader (assemble nodes).encoded GRAPH = .ok (assemble nodes).header :=
    readHeader_writeHeader named (count.trans_lt few) ((length_tail_assemble nodes).trans_lt short)
      (by norm_num [GRAPH, RECORD]) (by norm_num [GRAPH]) sized
  have nameable := (eq_header_of_read isRange read).2
  have all : (assemble nodes).header.sliceOf .everything = some (0, (assemble nodes).records.length) :=
    sliceOf_everything nameable (first_le_max64 isRange).2
  rw [decodeRange_of_header read, all]
  simp only [window_all]
  rw [rebuilt_eq_ok_iff]
  refine ⟨(node_layOut fits.present prefix_rfl (by simpa using fits.small)).2, ?_⟩
  rw [CommitIndex.nodes, slots_assemble fits]

theorem narrows {whole : CommitIndex} (range : KeyRange) (isRange : index.range = some covered)
    (decoded : decodeRange index.encoded .everything = .ok whole)
    (small : whole.tail.length ≤ 2 ^ 32) :
    ∃ part, decodeRange index.encoded range = .ok part ∧
      Narrowed nodeAt Tight (fun index => index.tail.length) covered range whole part := by
  rcases exists_of_mapError_bind decoded with ⟨_, read⟩
  rcases eq_header_of_read isRange read with ⟨rfl, nameable⟩
  have all : index.header.sliceOf .everything = some (0, index.records.length) :=
    sliceOf_everything nameable (first_le_max64 isRange).2
  rw [decodeRange_of_header read, all] at decoded
  simp only [window_all] at decoded
  rcases rebuilt_eq_ok_iff.mp decoded with ⟨noStray, rfl⟩
  rw [length_tail_assemble] at small
  have isCount : index.header.records = index.slots.slots.length := (length_map _).symm
  have wholeAt : ∀ key, (assemble index.nodes).nodeAt key = index.nodeAt key := fun key => by
    rw [nodeAt_assemble (fits_nodes small), get_nodes]
  have covers : ∀ key, (assemble index.nodes).nodeAt key ≠ none → covered.contains key = true := by
    intro key present
    rcases Option.ne_none_iff_exists'.mp present with ⟨node, isNode⟩
    rw [wholeAt] at isNode
    rw [CommitIndex.range, last_eq_slots] at isRange
    exact Strided.contains_of_get isRange isNode
  rw [decodeRange_of_header read]
  cases sliced : index.header.sliceOf range with
  | none =>
    refine ⟨empty, rfl, tight_assemble (fits_nodes small), le_rfl, Nat.zero_le _, ?_, covers⟩
    intro key wanted
    rw [wholeAt, nodeAt, nodeAt, Strided.get_of_not_sliced rfl isCount nameable sliced wanted]
    exact Strided.get_eq_none_of_holes (forall_mem_nil _)
  | some window_ =>
    rcases window_ with ⟨from_, upto⟩
    have smaller := (@total_window_le from_ upto index).trans small
    refine ⟨assemble (index.window from_ upto).nodes, rebuilt_eq_ok_iff.mpr ⟨?_, rfl⟩,
      tight_assemble (fits_nodes small), tight_assemble (fits_nodes smaller), ?_, ?_, covers⟩
    · intro record recordMem
      exact noStray record (mem_of_mem_drop (mem_of_mem_take recordMem))
    · simp only [length_tail_assemble]
      exact index.total_window_le
    · intro key wanted
      rw [wholeAt, nodeAt_assemble (fits_nodes smaller), get_nodes, nodeAt, nodeAt, slots_window,
        Strided.get_window_of_sliced rfl isCount nameable sliced wanted]

/-- Ranged reads of the parent graph agree with whole ones while all tails together stay within what
an offset reaches. -/
theorem reads_agree {store : Store CommitIndex} (catalogued : store.Catalogued fun _ => True)
    (small : store.weight (fun index => index.tail.length) ≤ 2 ^ 32) :
    store.ReadsAgree fun index key => (index.get key).map Entry.view := by
  have agree : store.ReadsAgree nodeAt := by
    refine catalogued.reads_agree pointwise (fun index whole covered range _ isRange decoded bound => ?_)
      small
    rcases narrows range isRange (mapError_eq_ok_iff.mp decoded) bound with ⟨part, isPart, narrowed⟩
    exact ⟨part, mapError_eq_ok_iff.mpr isPart, narrowed⟩
  simp only [map_view_get]
  exact agree.map Node.view

end CommitIndex

end Enroute.Stored
