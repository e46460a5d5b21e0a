import Enroute.Lattice.Key
import Enroute.Lib.Except
import Enroute.Lib.Fields
import Enroute.Lib.Lists
import Enroute.Lib.Table
import Enroute.Objects.Index

/-!
# Reading entries through shared requests

Entries that sit close together are read by one request: a run grows while the next item follows
in the same segment, after a small gap and within a span. A run is read forward once, so an item
that starts before the last one ended opens a run of its own. What a run reads is cut up again by
where each entry sits, and what comes out is kept by segment and offset.
-/

namespace Enroute

open List

def runGapBytes : ℕ := 32 * 1024

def runSpanBytes : ℕ := 1024 * 1024

/-- Extend the open run, which ends at `runEnd`, as long as the next item sits close to it. -/
def extendRun {α : Type} (whereItSits : α → ℕ × ℕ × ℕ) (runSegment start runEnd : ℕ) :
    List α → List α → List (List α)
  | run, [] => [run]
  | run, item :: items =>
    let (segment, offset, len) := whereItSits item
    let itemEnd := saturatingAdd offset len
    if runSegment = segment ∧ runEnd ≤ offset ∧ offset - runEnd ≤ runGapBytes ∧
        itemEnd - start ≤ runSpanBytes then
      extendRun whereItSits segment start itemEnd (run ++ [item]) items
    else run :: extendRun whereItSits segment offset itemEnd [item] items

def runsOf {α : Type} (whereItSits : α → ℕ × ℕ × ℕ) : List α → List (List α)
  | [] => []
  | item :: items =>
    let (segment, offset, len) := whereItSits item
    extendRun whereItSits segment offset (saturatingAdd offset len) [item] items

/-! ## What a run is -/

section Runs

variable {α : Type} {whereItSits : α → ℕ × ℕ × ℕ}

theorem extendRun_flatten (whereItSits : α → ℕ × ℕ × ℕ) (segment start runEnd : ℕ)
    (run items : List α) :
    (extendRun whereItSits segment start runEnd run items).flatten = run ++ items := by
  induction items generalizing segment start runEnd run with
  | nil => simp [extendRun]
  | cons item items ih =>
    simp only [extendRun]
    split
    · rw [ih, append_assoc, singleton_append]
    · rw [flatten_cons, ih, singleton_append]

theorem runsOf_flatten (whereItSits : α → ℕ × ℕ × ℕ) (items : List α) :
    (runsOf whereItSits items).flatten = items := by
  cases items with
  | nil => rfl
  | cons item items =>
    rw [runsOf, extendRun_flatten, singleton_append]

def endOf (whereItSits : α → ℕ × ℕ × ℕ) (item : α) : ℕ :=
  saturatingAdd (whereItSits item).2.1 (whereItSits item).2.2

/-- Items one request reads: of one segment, each after the one before with a gap worth reading
past, and together within a span unless it is a single item. -/
structure Coalesced (whereItSits : α → ℕ × ℕ × ℕ) (run : List α) : Prop where
  nonempty : run ≠ []
  oneSegment : ∀ item ∈ run, ∀ other ∈ run, (whereItSits item).1 = (whereItSits other).1
  bridges : run.IsChain fun earlier later =>
    endOf whereItSits earlier ≤ (whereItSits later).2.1 ∧
      (whereItSits later).2.1 - endOf whereItSits earlier ≤ runGapBytes
  span : ∀ first ∈ run.head?, ∀ last ∈ run.getLast?, run.length = 1 ∨
    endOf whereItSits last - (whereItSits first).2.1 ≤ runSpanBytes

theorem coalesced_singleton (whereItSits : α → ℕ × ℕ × ℕ) (item : α) :
    Coalesced whereItSits [item] where
  nonempty := cons_ne_nil _ _
  oneSegment := by simp
  bridges := isChain_singleton _
  span := fun _ _ _ _ => Or.inl rfl

theorem Coalesced.append {run : List α} {item first last : α}
    (coalesced : Coalesced whereItSits run) (isFirst : run.head? = some first)
    (isLast : run.getLast? = some last)
    (sameSegment : (whereItSits first).1 = (whereItSits item).1)
    (after : endOf whereItSits last ≤ (whereItSits item).2.1)
    (near : (whereItSits item).2.1 - endOf whereItSits last ≤ runGapBytes)
    (within : endOf whereItSits item - (whereItSits first).2.1 ≤ runSpanBytes) :
    Coalesced whereItSits (run ++ [item]) where
  nonempty := by simp
  oneSegment := by
    have toItem : ∀ one ∈ run ++ [item], (whereItSits one).1 = (whereItSits item).1 := by
      intro one listed
      rcases mem_append.mp listed with before | isItem
      · rw [← sameSegment]
        exact coalesced.oneSegment one before first (mem_of_head? isFirst)
      · rw [mem_singleton.mp isItem]
    exact fun one oneMem other otherMem => (toItem one oneMem).trans (toItem other otherMem).symm
  bridges := by
    refine isChain_append.mpr ⟨coalesced.bridges, isChain_singleton _, ?_⟩
    rintro earlier isEarlier later isLater
    rw [isLast] at isEarlier
    cases isEarlier
    cases isLater
    exact ⟨after, near⟩
  span := by
    intro head isHead end_ isEnd
    rw [List.head?_append, isFirst] at isHead
    rw [List.getLast?_append, List.getLast?_singleton] at isEnd
    cases isHead
    cases isEnd
    exact Or.inr within

theorem coalesced_extendRun {segment start runEnd : ℕ} {run items : List α} {first last : α}
    (coalesced : Coalesced whereItSits run) (isFirst : run.head? = some first)
    (isLast : run.getLast? = some last) (isSegment : segment = (whereItSits first).1)
    (isStart : start = (whereItSits first).2.1) (isEnd : runEnd = endOf whereItSits last) :
    ∀ made ∈ extendRun whereItSits segment start runEnd run items,
      Coalesced whereItSits made := by
  induction items generalizing segment start runEnd run first last with
  | nil =>
    intro made isMade
    rw [extendRun, mem_singleton] at isMade
    exact isMade ▸ coalesced
  | cons item items ih =>
    rw [extendRun]
    dsimp only
    split_ifs with close
    · rcases close with ⟨sameSegment, after, near, within⟩
      subst isSegment isStart isEnd
      refine ih (coalesced.append isFirst isLast sameSegment after near within) ?_
        (by rw [List.getLast?_append, List.getLast?_singleton]; rfl) sameSegment.symm rfl rfl
      rw [List.head?_append, isFirst]
      rfl
    · rw [forall_mem_cons]
      exact ⟨coalesced, ih (coalesced_singleton whereItSits item) rfl rfl rfl rfl rfl⟩

theorem coalesced_runsOf {items : List α} :
    ∀ run ∈ runsOf whereItSits items, Coalesced whereItSits run := by
  cases items with
  | nil => simp [runsOf]
  | cons item items =>
    exact coalesced_extendRun (coalesced_singleton whereItSits item) rfl rfl rfl rfl rfl

end Runs

/-! ## Reading placements -/

/-- The segments in the bucket; none is longer than sixty-four bits can address. -/
structure SegmentStore where
  segment : ℕ → Option Bytes
  addressable : ∀ id bytes, segment id = some bytes → bytes.length ≤ max64

/-- The placement of one entry: the segment holding it and its span within. -/
structure Placement where
  segment : ℕ
  offset : ℕ
  len : ℕ
  deriving DecidableEq, Repr

namespace Placement

def sits (placement : Placement) : ℕ × ℕ × ℕ :=
  (placement.segment, placement.offset, placement.len)

def SitsBefore (earlier later : Placement) : Prop :=
  Location.lexLe [earlier.segment, earlier.offset, earlier.len]
    [later.segment, later.offset, later.len] = true

instance : DecidableRel SitsBefore :=
  fun _ _ => inferInstanceAs (Decidable (_ = true))

end Placement

/-- A single request covering one or more entries that sit close together. -/
structure Run where
  segment : ℕ
  offset : ℕ
  len : ℕ
  covers : List Placement

def Run.covering (covers : List Placement) : Option Run :=
  match covers.head?, covers.getLast? with
  | some first, some last =>
    some ⟨first.segment, first.offset, saturatingAdd last.offset last.len - first.offset, covers⟩
  | _, _ => none

def Placement.planRuns (sorted : List Placement) : List Run :=
  (runsOf Placement.sits sorted).filterMap Run.covering

namespace SegmentStore

/-- Read a byte range of a segment, or nothing if there is no such segment. The bucket refuses an
empty range and one that starts behind the end, and cuts off one that ends behind it. -/
def getSegmentSlice (store : SegmentStore) (id offset len : ℕ) : Except String (Option Bytes) :=
  match store.segment id with
  | none => .ok none
  | some bytes =>
    if len = 0 ∨ bytes.length ≤ offset then .error "streaming segment slice"
    else .ok (some ((bytes.drop offset).take len))

def cutOut (run : Run) (bytes : Bytes) (placement : Placement) :
    Except String ((ℕ × ℕ) × Bytes) :=
  let at_ := placement.offset - run.offset
  if at_ + placement.len ≤ bytes.length then
    .ok ((placement.segment, placement.offset), (bytes.drop at_).take placement.len)
  else .error s!"run for segment {placement.segment} was read short"

def readRun (store : SegmentStore) (run : Run) : Except String (List ((ℕ × ℕ) × Bytes)) := do
  let some bytes ← store.getSegmentSlice run.segment run.offset run.len
    | .error s!"segment {run.segment} not found in store"
  run.covers.mapM (cutOut run bytes)

abbrev Entries := AList fun _ : ℕ × ℕ => Bytes

def readEntries (store : SegmentStore) (placements : List Placement) : Except String Entries := do
  let sorted := (placements.insertionSort Placement.SitsBefore).destutter (· ≠ ·)
  let read ← (Placement.planRuns sorted).mapM store.readRun
  return Table.enter Prod.fst Prod.snd read.flatten ∅

def readAlone (store : SegmentStore) (placement : Placement) : Option Bytes :=
  match store.getSegmentSlice placement.segment placement.offset placement.len with
  | .ok (some bytes) => if bytes.length = placement.len then some bytes else none
  | _ => none

variable {store : SegmentStore} {placement : Placement} {bytes : Bytes}

theorem readAlone_eq_some : store.readAlone placement = some bytes ↔
    ∃ held, store.segment placement.segment = some held ∧ 0 < placement.len ∧
      placement.offset + placement.len ≤ held.length ∧
        bytes = (held.drop placement.offset).take placement.len := by
  rw [readAlone, getSegmentSlice]
  rcases store.segment placement.segment with _ | held
  · simp
  · by_cases refused : placement.len = 0 ∨ held.length ≤ placement.offset
    · simp only [refused, if_true, reduceCtorEq, Option.some.injEq, exists_eq_left', false_iff]
      omega
    · simp only [refused, if_false, length_take, length_drop, Option.some.injEq,
        exists_eq_left', Option.ite_none_right_eq_some]
      constructor
      · rintro ⟨whole, rfl⟩
        exact ⟨by omega, by omega, rfl⟩
      · rintro ⟨positive, within, rfl⟩
        exact ⟨by omega, rfl⟩

def Follows (earlier later : Placement) : Prop :=
  earlier.offset ≤ later.offset ∧ earlier.offset + earlier.len ≤ later.offset + later.len

instance : IsTrans Placement Follows :=
  ⟨fun _ _ _ first second => ⟨first.1.trans second.1, first.2.trans second.2⟩⟩

theorem follows_of_coalesced {run : List Placement} (coalesced : Coalesced Placement.sits run)
    (addressed : ∀ placement ∈ run, placement.offset + placement.len ≤ max64) :
    run.Pairwise Follows := by
  rw [← isChain_iff_pairwise, isChain_iff_getElem]
  intro at_ within
  have bridged := (isChain_iff_getElem.mp coalesced.bridges at_ within).1
  have ends := addressed run[at_] (getElem_mem _)
  simp only [endOf, Placement.sits, saturatingAdd] at bridged
  rw [min_eq_left ends] at bridged
  exact ⟨by omega, by omega⟩

theorem follows_first {run : List Placement} {first : Placement} (ordered : run.Pairwise Follows)
    (isFirst : run.head? = some first) : ∀ placement ∈ run, Follows first placement := by
  rcases List.head?_eq_some_iff.mp isFirst with ⟨rest, rfl⟩
  exact forall_mem_cons.mpr ⟨⟨le_rfl, le_rfl⟩, (pairwise_cons.mp ordered).1⟩

theorem follows_last {run : List Placement} {last : Placement} (ordered : run.Pairwise Follows)
    (isLast : run.getLast? = some last) : ∀ placement ∈ run, Follows placement last := by
  rcases List.getLast?_eq_some_iff.mp isLast with ⟨init, rfl⟩
  intro placement listed
  rcases mem_append.mp listed with earlier | isSame
  · exact (pairwise_append.mp ordered).2.2 placement earlier last (mem_singleton_self _)
  · rw [mem_singleton.mp isSame]
    exact ⟨le_rfl, le_rfl⟩

theorem cutOut_eq_ok {run : Run} {held : Bytes}
    (starts : run.offset ≤ placement.offset)
    (ends : placement.offset + placement.len ≤ run.offset + run.len)
    (within : placement.offset + placement.len ≤ held.length) :
    cutOut run ((held.drop run.offset).take run.len) placement =
      .ok ((placement.segment, placement.offset),
        (held.drop placement.offset).take placement.len) := by
  rw [cutOut, if_pos (by rw [length_take, length_drop]; omega), drop_take,
    drop_drop, take_take, Nat.add_sub_cancel' starts, min_eq_left (by omega)]

theorem readRun_eq_ok {covers : List Placement} (coalesced : Coalesced Placement.sits covers)
    (readable : ∀ placement ∈ covers, ∃ bytes, store.readAlone placement = some bytes) :
    ∃ run, Run.covering covers = some run ∧ ∃ read, store.readRun run = .ok read ∧
      read.map (fun entry => (entry.1, some entry.2)) = covers.map fun placement =>
        ((placement.segment, placement.offset), store.readAlone placement) := by
  obtain ⟨first, isFirst⟩ : ∃ first, covers.head? = some first :=
    Option.ne_none_iff_exists'.mp (mt List.head?_eq_none_iff.mp coalesced.nonempty)
  obtain ⟨last, isLast⟩ : ∃ last, covers.getLast? = some last :=
    Option.ne_none_iff_exists'.mp (mt List.getLast?_eq_none_iff.mp coalesced.nonempty)
  have firstMem := mem_of_head? isFirst
  have lastMem := mem_of_getLast? isLast
  rcases readable first firstMem with ⟨_, firstReads⟩
  rcases readAlone_eq_some.mp firstReads with ⟨held, found, positive, -, -⟩
  have segments : ∀ placement ∈ covers, placement.segment = first.segment := fun placement listed =>
    coalesced.oneSegment placement listed first firstMem
  have lies : ∀ placement ∈ covers, placement.offset + placement.len ≤ held.length ∧
      store.readAlone placement = some ((held.drop placement.offset).take placement.len) := by
    intro placement listed
    rcases readable placement listed with ⟨bytes, reads⟩
    rcases readAlone_eq_some.mp reads with ⟨other, foundThere, -, within, rfl⟩
    rw [segments placement listed, found] at foundThere
    cases foundThere
    exact ⟨within, reads⟩
  have addressed : ∀ placement ∈ covers, placement.offset + placement.len ≤ max64 :=
    fun placement listed => (lies placement listed).1.trans (store.addressable _ _ found)
  have ordered := follows_of_coalesced coalesced addressed
  have afterFirst := follows_first ordered isFirst
  have beforeLast := follows_last ordered isLast
  have lastEnd : saturatingAdd last.offset last.len = last.offset + last.len :=
    min_eq_left (addressed last lastMem)
  refine ⟨⟨first.segment, first.offset, last.offset + last.len - first.offset, covers⟩,
    by rw [Run.covering, isFirst, isLast, ← lastEnd], ?_⟩
  generalize isLen : last.offset + last.len - first.offset = len
  have slice : store.getSegmentSlice first.segment first.offset len =
      .ok (some ((held.drop first.offset).take len)) := by
    have ends := (beforeLast first firstMem).2
    have within := (lies first firstMem).1
    rw [getSegmentSlice, found]
    dsimp only
    rw [if_neg (by omega)]
  have cuts : ∀ placement ∈ covers, cutOut ⟨first.segment, first.offset, len, covers⟩
      ((held.drop first.offset).take len) placement = .ok ((placement.segment, placement.offset),
        (held.drop placement.offset).take placement.len) := by
    intro placement listed
    have starts := (afterFirst placement listed).1
    have ends := (beforeLast placement listed).2
    exact cutOut_eq_ok starts (by dsimp only; omega) (lies placement listed).1
  rcases Except.mapM_isOk fun placement listed => ⟨_, cuts placement listed⟩ with ⟨read, mapped⟩
  refine ⟨read, ?_, ?_⟩
  · rw [readRun, slice, Except.ok_bind]
    exact mapped
  · refine Except.map_eq_of_mapM (fun placement listed result isCut => ?_) mapped
    rw [cuts placement listed] at isCut
    cases isCut
    rw [(lies placement listed).2]

/-- Placements that can each be read alone are read together, and what is read for each of them is
what is read for it alone. -/
theorem readRuns_eq_ok {sorted : List Placement}
    (readable : ∀ placement ∈ sorted, ∃ bytes, store.readAlone placement = some bytes) :
    ∃ read, (Placement.planRuns sorted).mapM store.readRun = .ok read ∧
      read.flatten.map (fun entry => (entry.1, some entry.2)) = sorted.map fun placement =>
        ((placement.segment, placement.offset), store.readAlone placement) := by
  rw [Placement.planRuns]
  have flat := runsOf_flatten Placement.sits sorted
  have coalesced := @coalesced_runsOf _ Placement.sits sorted
  generalize runsOf Placement.sits sorted = runs at flat coalesced ⊢
  subst flat
  induction runs with
  | nil => exact ⟨[], rfl, rfl⟩
  | cons covers runs ih =>
    rw [forall_mem_cons] at coalesced
    rw [flatten_cons, forall_mem_append] at readable
    rcases readRun_eq_ok coalesced.1 readable.1 with ⟨run, isRun, read, isRead, aloneHere⟩
    rcases ih coalesced.2 readable.2 with ⟨later, isLater, aloneLater⟩
    refine ⟨read :: later, ?_, ?_⟩
    · rw [filterMap_cons_some isRun, Except.mapM_eq_ok_iff]
      exact .cons isRead (Except.mapM_eq_ok_iff.mp isLater)
    · rw [flatten_cons, map_append, aloneHere, aloneLater, flatten_cons,
        map_append]

theorem mem_sorted {placements : List Placement} {placement : Placement} :
    placement ∈ (placements.insertionSort Placement.SitsBefore).destutter (· ≠ ·) ↔
      placement ∈ placements := by
  rw [Lists.mem_destutter_ne, mem_insertionSort]

/-- Placements that can each be read alone are read. What is kept for each of them is what it gives
alone exactly when no two of them start at one place with different lengths. -/
theorem readEntries_exact (store : SegmentStore) (placements : List Placement)
    (readable : ∀ placement ∈ placements, ∃ bytes, store.readAlone placement = some bytes) :
    ∃ entries, store.readEntries placements = .ok entries ∧
      ((∀ placement ∈ placements,
          entries.lookup (placement.segment, placement.offset) = store.readAlone placement) ↔
        ∀ placement ∈ placements, ∀ other ∈ placements, placement.segment = other.segment →
          placement.offset = other.offset → placement.len = other.len) := by
  rcases readRuns_eq_ok fun placement listed => readable placement (mem_sorted.mp listed) with
    ⟨read, isRead, alone⟩
  refine ⟨Table.enter Prod.fst Prod.snd read.flatten ∅, by rw [readEntries, isRead]; rfl, ?_⟩
  have length : ∀ placement bytes, store.readAlone placement = some bytes →
      bytes.length = placement.len := by
    intro placement bytes reads
    rcases readAlone_eq_some.mp reads with ⟨held, -, -, within, rfl⟩
    rw [length_take, length_drop]
    omega
  constructor
  · intro exactly placement listed other otherListed sameSegment sameOffset
    rcases readable placement listed with ⟨bytes, reads⟩
    rcases readable other otherListed with ⟨otherBytes, otherReads⟩
    have here := exactly placement listed
    rw [sameSegment, sameOffset, exactly other otherListed, reads, otherReads,
      Option.some.injEq] at here
    rw [← length placement bytes reads, ← length other otherBytes otherReads, here]
  · intro oneLength placement listed
    -- something was entered under the placement, by a placement that starts there too
    have entered : (placement.segment, placement.offset) ∈
        Table.enter Prod.fst Prod.snd read.flatten (∅ : Entries) := by
      refine Table.mem_enter_of_mem ?_
      have keys : read.flatten.map Prod.fst = ((placements.insertionSort
          Placement.SitsBefore).destutter (· ≠ ·)).map fun placement =>
            (placement.segment, placement.offset) := by
        have firsts := congrArg (List.map Prod.fst) alone
        rwa [map_map, map_map] at firsts
      rw [keys]
      exact mem_map_of_mem (mem_sorted.mpr listed)
    rcases Option.isSome_iff_exists.mp (AList.lookup_isSome.mpr entered) with ⟨bytes, found⟩
    rcases Table.lookup_enter_eq_some found with ⟨entry, isEntry, isKey, isBytes⟩ | absent
    · have asAlone : (entry.1, some entry.2) ∈ ((placements.insertionSort
          Placement.SitsBefore).destutter (· ≠ ·)).map fun placement =>
            ((placement.segment, placement.offset), store.readAlone placement) :=
        alone ▸ mem_map_of_mem isEntry
      rcases mem_map.mp asAlone with ⟨other, otherListed, same⟩
      rcases Prod.mk.inj same with ⟨otherKey, otherReads⟩
      rcases Prod.mk.inj (otherKey.trans isKey) with ⟨sameSegment, sameOffset⟩
      have isOther : other = placement := by
        rcases other with ⟨_, _, _⟩
        rcases placement with ⟨_, _, _⟩
        have sameLen := oneLength _ (mem_sorted.mp otherListed) _ listed sameSegment sameOffset
        simp_all
      rw [found, ← isBytes, ← otherReads, isOther]
    · cases absent

end SegmentStore

end Enroute
