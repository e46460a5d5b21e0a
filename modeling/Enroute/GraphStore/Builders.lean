import Enroute.GraphStore.PackSegment
import Enroute.Objects.ObjectSegment

/-!
# Building the two tiers

Both tiers of the commit index are built one commit at a time in a map by number, and laid out
over the numbers they span. What is built, decoded or joined never has a hole at either end, so a
stride array is told by what it holds at each number: two that answer every lookup alike are one.
-/

namespace Enroute.Stored

open Enroute.Lattice Fields Join List

theorem exists_of_rposition {α : Type} {passes : α → Bool} {elements : List α} {last : ℕ}
    (isLast : rposition passes elements = some last) :
    ∃ element, elements[last]? = some element ∧ passes element = true := by
  induction elements generalizing last with
  | nil => cases isLast
  | cons head elements ih =>
    rw [rposition] at isLast
    cases rest : rposition passes elements with
    | some later =>
      rw [rest] at isLast
      cases isLast
      rw [List.getElem?_cons_succ]
      exact ih rest
    | none =>
      simp only [rest] at isLast
      split_ifs at isLast with passed
      cases isLast
      exact ⟨head, rfl, passed⟩

namespace Strided

variable {N : Type} {strided other : Strided N}

def Tidy (strided : Strided N) : Prop :=
  (strided.slots = [] → strided.first = 0) ∧
    (∀ slot ∈ strided.slots.head?, slot.isSome = true) ∧
    ∀ slot ∈ strided.slots.getLast?, slot.isSome = true

theorem tidy_empty : (empty : Strided N).Tidy := by
  simp [Tidy, empty]

theorem tidy_trimmed (first : ℕ) (slots : List (Option N)) : (trimmed first slots).Tidy := by
  rw [trimmed]
  cases isLowest : slots.findIdx? Option.isSome with
  | none => exact tidy_empty
  | some lowest =>
    rcases List.findIdx?_eq_some_iff_getElem.mp isLowest with ⟨inside, lowestSome, -⟩
    have isLow : slots[lowest]? = some slots[lowest] := List.getElem?_eq_getElem inside
    cases isLast : rposition Option.isSome slots with
    | none =>
      have hole := rposition_eq_none_iff.mp isLast _ (getElem_mem inside)
      rw [lowestSome] at hole
      cases hole
    | some highest =>
      have ordered := le_rposition isLast isLow lowestSome
      rcases exists_of_rposition isLast with ⟨slot, isHigh, highSome⟩
      have highInside : highest < slots.length := (List.getElem?_eq_some_iff.mp isHigh).1
      simp only [Option.getD_some]
      refine ⟨fun none => ?_, fun slot isHead => ?_, fun slot isEnd => ?_⟩
      · have := congrArg List.length none
        simp only [length_drop, length_take, length_nil] at this
        omega
      · rw [Option.mem_def, List.head?_drop, List.getElem?_take, if_pos (by omega), isLow,
          Option.some.injEq] at isHead
        rw [← isHead]
        exact lowestSome
      · rw [Option.mem_def, List.getLast?_eq_getElem?, List.getElem?_drop, List.getElem?_take]
          at isEnd
        simp only [length_drop, length_take] at isEnd
        rw [if_pos (by omega), show lowest + (min (highest + 1) slots.length - lowest - 1) =
          highest by omega, isHigh, Option.some.injEq] at isEnd
        rw [← isEnd]
        exact highSome

theorem Tidy.first_held (tidy : strided.Tidy) (some_ : strided.slots ≠ []) :
    ∃ node, strided.get strided.first = some node := by
  rcases exists_cons_of_ne_nil some_ with ⟨slot, slots, isSlots⟩
  have held := tidy.2.1 slot (by rw [isSlots]; rfl)
  rcases Option.isSome_iff_exists.mp held with ⟨node, rfl⟩
  refine ⟨node, ?_⟩
  have here := get_add strided.first 0 strided.slots
  rwa [isSlots, Nat.add_zero, List.getElem?_cons_zero, Option.join_some, ← isSlots] at here

theorem Tidy.last_held (tidy : strided.Tidy) (some_ : strided.slots ≠ []) :
    ∃ node, strided.get (strided.first + (strided.slots.length - 1)) = some node := by
  have isLast : strided.slots.getLast? = some (strided.slots.getLast some_) :=
    List.getLast?_eq_some_getLast some_
  rcases Option.isSome_iff_exists.mp (tidy.2.2 _ isLast) with ⟨node, isNode⟩
  refine ⟨node, (get_add _ _ _).trans ?_⟩
  rw [← List.getLast?_eq_getElem?, isLast, isNode, Option.join_some]

theorem Tidy.ext (tidy : strided.Tidy) (otherTidy : other.Tidy)
    (same : ∀ seq, strided.get seq = other.get seq) : strided = other := by
  have emptied : ∀ {one two : Strided N}, two.Tidy → (∀ seq, one.get seq = two.get seq) →
      one.slots = [] → two.slots = [] := by
    intro one two twoTidy agree none
    by_contra some_
    rcases twoTidy.first_held some_ with ⟨node, held⟩
    rw [← agree] at held
    have hole : one.get two.first = Option.none :=
      get_eq_none_of_holes (none ▸ forall_mem_nil _)
    rw [hole] at held
    cases held
  have within : ∀ {one two : Strided N}, one.Tidy → (∀ seq, one.get seq = two.get seq) →
      one.slots ≠ [] → two.first ≤ one.first ∧
        one.first + (one.slots.length - 1) < two.first + two.slots.length := by
    intro one two oneTidy agree some_
    rcases oneTidy.first_held some_ with ⟨node, firstHeld⟩
    rcases oneTidy.last_held some_ with ⟨_, lastHeld⟩
    rw [agree] at firstHeld lastHeld
    exact ⟨(bounds_of_get firstHeld).1, (bounds_of_get lastHeld).2⟩
  rcases strided with ⟨first, slots⟩
  rcases other with ⟨otherFirst, otherSlots⟩
  by_cases none : slots = []
  · have otherNone : otherSlots = [] := emptied otherTidy same none
    have isFirst : first = 0 := tidy.1 none
    have isOtherFirst : otherFirst = 0 := otherTidy.1 otherNone
    rw [isFirst, isOtherFirst, none, otherNone]
  · have otherSome : otherSlots ≠ [] := fun otherNone =>
      none (emptied tidy (fun seq => (same seq).symm) otherNone)
    have mine := within tidy same none
    have theirs := within otherTidy (fun seq => (same seq).symm) otherSome
    have positive : 0 < slots.length := length_pos_iff.mpr none
    have otherPositive : 0 < otherSlots.length := length_pos_iff.mpr otherSome
    simp only at mine theirs
    have sameFirst : first = otherFirst := by omega
    subst sameFirst
    have sameLength : slots.length = otherSlots.length := by omega
    have sameSlots : slots = otherSlots := by
      refine ext_getElem sameLength fun position inside otherInside => ?_
      have here := same (first + position)
      rwa [get_add, get_add, List.getElem?_eq_getElem inside, List.getElem?_eq_getElem otherInside,
        Option.join_some, Option.join_some] at here
    rw [sameSlots]

theorem Tidy.trimmed_eq (tidy : strided.Tidy) : trimmed strided.first strided.slots = strided :=
  (tidy_trimmed _ _).ext tidy fun seq => get_trimmed _ _ seq

theorem Tidy.joined [LinearOrder N] (tidy : strided.Tidy) (otherTidy : other.Tidy) :
    (strided.joined other).Tidy := by
  rw [Strided.joined]
  cases other.last with
  | none => exact tidy
  | some theirs =>
    cases strided.last with
    | none => exact otherTidy
    | some mine => exact tidy_trimmed _ _

/-! ### Laying nodes out -/

def place (first : ℕ) (slots : List (Option N)) (entry : ℕ × N) : List (Option N) :=
  slots.set (entry.1 - first) (some entry.2)

def laidOut (nodes : Std.TreeMap ℕ N) : Strided N :=
  match nodes.toList.head?, nodes.toList.getLast? with
  | some (first, _), some (last, _) =>
    trimmed first (nodes.toList.foldl (place first) (List.replicate (last - first + 1) none))
  | _, _ => empty

theorem tidy_laidOut (nodes : Std.TreeMap ℕ N) : (laidOut nodes).Tidy := by
  rw [laidOut]
  split
  · exact tidy_trimmed _ _
  · exact tidy_empty

theorem getElem?_foldl_place {first : ℕ} {entries : List (ℕ × N)} {slots : List (Option N)}
    {position : ℕ} {node : N} (above : ∀ entry ∈ entries, first ≤ entry.1)
    (filled : (entries.foldl (place first) slots)[position]? = some (some node)) :
    (first + position, node) ∈ entries ∨ slots[position]? = some (some node) := by
  induction entries generalizing slots with
  | nil => exact Or.inr filled
  | cons entry entries ih =>
    rw [forall_mem_cons] at above
    rcases ih above.2 filled with later | earlier
    · exact Or.inl (mem_cons_of_mem _ later)
    · rw [place, List.getElem?_set] at earlier
      split_ifs at earlier with here inside
      · rw [Option.some.injEq, Option.some.injEq] at earlier
        left
        rw [← earlier, ← here, Nat.add_sub_cancel' above.1]
        exact mem_cons_self
      · exact Or.inr earlier

theorem toList_ascending (nodes : Std.TreeMap ℕ N) :
    nodes.toList.Pairwise fun earlier later => earlier.1 < later.1 := by
  simpa only [Nat.compare_eq_lt] using Std.TreeMap.ordered_keys_toList (t := nodes)

theorem head_le_of_mem {nodes : Std.TreeMap ℕ N} {first : ℕ × N}
    (isFirst : nodes.toList.head? = some first) : ∀ entry ∈ nodes.toList, first.1 ≤ entry.1 := by
  have ascending := toList_ascending nodes
  rcases List.head?_eq_some_iff.mp isFirst with ⟨rest, isList⟩
  rw [isList] at ascending ⊢
  exact forall_mem_cons.mpr ⟨le_rfl, fun entry later =>
    (rel_of_pairwise_cons ascending later).le⟩

theorem le_getLast_of_mem {nodes : Std.TreeMap ℕ N} {last : ℕ × N}
    (isLast : nodes.toList.getLast? = some last) : ∀ entry ∈ nodes.toList, entry.1 ≤ last.1 := by
  have ascending := toList_ascending nodes
  rcases List.getLast?_eq_some_iff.mp isLast with ⟨init, isList⟩
  rw [isList] at ascending ⊢
  rw [forall_mem_append, forall_mem_singleton]
  refine ⟨fun entry earlier => ?_, le_rfl⟩
  exact ((pairwise_append.mp ascending).2.2 entry earlier last (mem_singleton_self _)).le

theorem mem_of_get_laidOut {nodes : Std.TreeMap ℕ N} {seq : ℕ} {node : N}
    (found : (laidOut nodes).get seq = some node) : nodes[seq]? = some node := by
  rw [laidOut] at found
  split at found
  · rename_i first node_ last lastNode isFirst isLast
    rw [get_trimmed] at found
    have above := head_le_of_mem isFirst
    rcases Nat.le.dest (bounds_of_get found).1 with ⟨position, isSeq⟩
    rw [← isSeq, get_add, Option.join_eq_some_iff] at found
    rcases getElem?_foldl_place above found with listed | held
    · rw [← isSeq]
      exact Std.TreeMap.mem_toList_iff_getElem?_eq_some.mp listed
    · rw [List.getElem?_replicate] at held
      split_ifs at held
      cases held
  · have hole : (empty : Strided N).get seq = none := get_eq_none_of_holes (forall_mem_nil _)
    rw [hole] at found
    cases found

theorem getElem?_foldl_place_of_mem {first : ℕ} {entries : List (ℕ × N)} {slots : List (Option N)}
    {entry : ℕ × N} (ascending : entries.Pairwise fun earlier later => earlier.1 < later.1)
    (above : ∀ entry ∈ entries, first ≤ entry.1) (listed : entry ∈ entries)
    (inside : entry.1 - first < slots.length) :
    (entries.foldl (place first) slots)[entry.1 - first]? = some (some entry.2) := by
  induction entries using List.reverseRecOn with
  | nil => cases listed
  | append_singleton entries last ih =>
    rw [pairwise_append] at ascending
    rw [forall_mem_append, forall_mem_singleton] at above
    have length : (entries.foldl (place first) slots).length = slots.length := by
      clear ih listed inside ascending above
      induction entries generalizing slots with
      | nil => rfl
      | cons head entries ih => rw [foldl_cons, ih, place, length_set]
    rw [foldl_append, foldl_cons, foldl_nil, place, List.getElem?_set]
    rcases mem_append.mp listed with earlier | isLast
    · have before := ascending.2.2 entry earlier last (mem_singleton_self _)
      have starts := above.1 entry earlier
      rw [if_neg (by omega)]
      exact ih ascending.1 above.1 earlier
    · rw [mem_singleton.mp isLast] at inside ⊢
      rw [if_pos rfl, if_pos (by omega)]

theorem get_laidOut (nodes : Std.TreeMap ℕ N) (seq : ℕ) : (laidOut nodes).get seq = nodes[seq]? := by
  refine Option.ext fun node => ⟨mem_of_get_laidOut, fun found => ?_⟩
  have listed : (seq, node) ∈ nodes.toList := Std.TreeMap.mem_toList_iff_getElem?_eq_some.mpr found
  obtain ⟨⟨first, firstNode⟩, isFirst⟩ : ∃ first, nodes.toList.head? = some first :=
    Option.ne_none_iff_exists'.mp (mt List.head?_eq_none_iff.mp (ne_nil_of_mem listed))
  obtain ⟨⟨last, lastNode⟩, isLast⟩ : ∃ last, nodes.toList.getLast? = some last :=
    Option.ne_none_iff_exists'.mp (mt List.getLast?_eq_none_iff.mp (ne_nil_of_mem listed))
  have above := head_le_of_mem isFirst
  have starts := above _ listed
  have ends := le_getLast_of_mem isLast _ listed
  dsimp only at starts ends
  have placed := @getElem?_foldl_place_of_mem N first nodes.toList
    (List.replicate (last - first + 1) none) _ (toList_ascending nodes) above listed
    (by rw [length_replicate]; omega)
  rw [laidOut, isFirst, isLast]
  dsimp only at placed ⊢
  rw [get_trimmed, ← Nat.add_sub_cancel' starts, get_add, placed, Option.join_some]

end Strided

/-! ### The parent graph -/

inductive TooLarge where
  | commit (seq : ℕ)
  | object (seq : ℕ)
  deriving DecidableEq, Repr

inductive Unwritable where
  | tooLarge (error : TooLarge)
  | unknownParent (child parent : ℕ)
  deriving DecidableEq, Repr

def commitSlot (seq : ℕ) : Except TooLarge U32 :=
  match tryU32 seq with
  | some slot => if slot ≠ NONE then .ok slot else .error (.commit seq)
  | none => .error (.commit seq)

def objectSlot (seq : ℕ) : Except TooLarge U32 :=
  match tryU32 seq with
  | some slot => if slot ≠ NONE then .ok slot else .error (.object seq)
  | none => .error (.object seq)

def optionalSlot : Option ℕ → Except TooLarge U32
  | none => .ok NONE
  | some seq => commitSlot seq

def commitSeq (seq : ℕ) : Except TooLarge ℕ :=
  (commitSlot seq).map fun _ => seq

/-- A generation above every parent's: the committer's date when that is, in seconds. -/
def correctedDate (committerDate : ℤ) (parents : List U32) : U32 :=
  let own : U32 := (tryU32 (max committerDate 0).toNat).getD NONE
  let floor : U32 := parents.max?.elim 0 fun deepest => (tryU32 (deepest.val + 1)).getD NONE
  max (max own floor) 1

structure CommitBuilder where
  commits : Std.TreeMap ℕ Node
  /-- Generations of commits that are not recorded here. -/
  known : Std.TreeMap ℕ U32

namespace CommitBuilder

def new : CommitBuilder :=
  ⟨∅, ∅⟩

structure Commit where
  parents : List ℕ
  rootTree : ℕ
  generation : U32

structure DatedCommit where
  parents : List ℕ
  rootTree : ℕ
  committerDate : ℤ

/-- A commit in the slots of the index: two parents inline, the rest behind them. -/
def nodeOf (commit : Commit) : Except TooLarge Node := do
  let rootTree ← objectSlot commit.rootTree
  let parent1 ← optionalSlot commit.parents[0]?
  let parent2 ← optionalSlot commit.parents[1]?
  let extra ← (commit.parents.drop 2).mapM commitSlot
  return { generation := commit.generation, rootTree, parent1, parent2, extra }

def insert (builder : CommitBuilder) (seq : ℕ) (commit : Commit) :
    Except TooLarge CommitBuilder := do
  let node ← nodeOf commit
  let seq ← commitSeq seq
  return { builder with commits := builder.commits.insert seq node }

def know (builder : CommitBuilder) (seq : ℕ) (generation : U32) : CommitBuilder :=
  { builder with known := builder.known.insert seq generation }

def generationOf (builder : CommitBuilder) (seq : ℕ) : Option U32 :=
  (builder.commits[seq]?.map Node.generation).or builder.known[seq]?

def generationsOf (builder : CommitBuilder) (child : ℕ) (parents : List ℕ) :
    Except Unwritable (List U32) :=
  parents.mapM fun parent =>
    match builder.generationOf parent with
    | none => .error (.unknownParent child parent)
    | some generation => .ok generation

def insertDated (builder : CommitBuilder) (seq : ℕ) (commit : DatedCommit) :
    Except Unwritable (CommitBuilder × U32) := do
  let parents ← builder.generationsOf seq commit.parents
  let generation := correctedDate commit.committerDate parents
  let builder ← (builder.insert seq
    { parents := commit.parents, rootTree := commit.rootTree, generation }).mapError .tooLarge
  return (builder, generation)

def build (builder : CommitBuilder) : CommitIndex :=
  assemble (.laidOut builder.commits)

inductive Reached : CommitBuilder → Prop
  | new : Reached new
  | insert {builder next : CommitBuilder} {seq : ℕ} {commit : Commit} :
      Reached builder → builder.insert seq commit = .ok next → Reached next
  | know {builder : CommitBuilder} (seq : ℕ) (generation : U32) :
      Reached builder → Reached (builder.know seq generation)
  | insertDated {builder next : CommitBuilder} {seq : ℕ} {commit : DatedCommit}
      {generation : U32} :
      Reached builder → builder.insertDated seq commit = .ok (next, generation) → Reached next

/-- Every commit recorded has a root tree, which is what tells its slot from a hole. -/
def Present (builder : CommitBuilder) : Prop :=
  ∀ (seq : ℕ) (node : Node), builder.commits[seq]? = some node → node.rootTree ≠ NONE

theorem rootTree_of_nodeOf {commit : Commit} {node : Node} (isNode : nodeOf commit = .ok node) :
    node.rootTree ≠ NONE := by
  simp only [nodeOf, Except.bind_eq_ok_iff, Except.pure_eq_ok_iff] at isNode
  rcases isNode with ⟨rootTree, slotted, parent1, -, parent2, -, extra, -, rfl⟩
  rw [objectSlot] at slotted
  split at slotted
  · split_ifs at slotted with notNone
    rwa [← Except.ok.inj slotted]
  · cases slotted

theorem Present.insert {builder next : CommitBuilder} {seq : ℕ} {commit : Commit}
    (present : builder.Present) (inserted : builder.insert seq commit = .ok next) :
    next.Present := by
  simp only [CommitBuilder.insert, Except.bind_eq_ok_iff, Except.pure_eq_ok_iff] at inserted
  rcases inserted with ⟨node, isNode, slot, -, rfl⟩
  intro other held found
  rw [Std.TreeMap.getElem?_insert] at found
  split_ifs at found
  · rw [← Option.some.inj found]
    exact rootTree_of_nodeOf isNode
  · exact present other held found

theorem Reached.present {builder : CommitBuilder} (reached : Reached builder) :
    builder.Present := by
  induction reached with
  | new =>
    intro seq node found
    rw [CommitBuilder.new, Std.TreeMap.getElem?_emptyc] at found
    cases found
  | insert _ inserted ih => exact ih.insert inserted
  | know seq generation _ ih => exact ih
  | insertDated _ inserted ih =>
    simp only [CommitBuilder.insertDated, Except.bind_eq_ok_iff, Except.pure_eq_ok_iff] at inserted
    rcases inserted with ⟨parents, -, built, inserted, same⟩
    rw [Prod.mk.injEq] at same
    rw [← same.1]
    exact ih.insert (mapError_eq_ok_iff.mp inserted)

end CommitBuilder

/-! ### The packs -/

structure Pack where
  entryLen : ℕ
  blobOffset : ℕ
  segment : SegmentLocation
  trees : Finset ℕ
  blobs : Finset ℕ

structure PackBuilder where
  packs : Std.TreeMap ℕ PackNode

namespace PackBuilder

def new : PackBuilder :=
  ⟨∅⟩

def serialize [Roaring] (bitmap : Finset ℕ) : Except Malformed (List UInt8) :=
  match encodeBitmap bitmap with
  | none => .error .bitmap
  | some bytes => .ok bytes

def insert [Roaring] (builder : PackBuilder) (seq : ℕ) (pack : Pack) :
    Except Malformed PackBuilder := do
  let trees ← serialize pack.trees
  let blobs ← serialize pack.blobs
  let node : PackNode :=
    { entryLen := pack.entryLen, blobOffset := pack.blobOffset, segmentId := pack.segment.id
      baseOffset := pack.segment.baseOffset, imageLen := pack.segment.imageLen, trees, blobs }
  return ⟨builder.packs.insert seq node⟩

def build (builder : PackBuilder) : PackIndex :=
  ⟨.laidOut builder.packs⟩

/-- A builder as its own operations leave it, with numbers in the widths they have. -/
inductive Reached [Roaring] : PackBuilder → Prop
  | new : Reached new
  | insert {builder next : PackBuilder} {seq : ℕ} {pack : Pack} :
      Reached builder → seq ≤ max63 → pack.entryLen ≤ max64 → pack.blobOffset ≤ max64 →
      pack.segment.id < 2 ^ 128 → pack.segment.baseOffset ≤ max64 →
      pack.segment.imageLen ≤ max64 → builder.insert seq pack = .ok next → Reached next

end PackBuilder

end Enroute.Stored
