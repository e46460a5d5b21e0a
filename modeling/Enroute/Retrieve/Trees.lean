import Enroute.Graph.DiffExact

/-!
# Diffs that fetch what they lack

A diff holds no storage: it names the trees it could not read and is run again with those at hand.
Every round names a tree the last one had not read, so the trees in hand only grow, and the loop ends
in the whole answer unless it is told to read no more than so many trees.
-/

namespace Enroute

open Diff List

abbrev ReadTrees := ObjectHashMap (List TreeChild)

namespace ReadTrees

def children (own : TreeReader) (read : ReadTrees) : TreeReader := fun oid =>
  (own oid).or (read.lookup oid)

def extend (read : ReadTrees) (found : List (ObjectId × List TreeChild)) : ReadTrees :=
  found.foldl (fun read tree => read.insert tree.1 tree.2) read

end ReadTrees

def readTrees (store : TreeReader) (oids : List ObjectId) :
    Except String (List (ObjectId × List TreeChild)) :=
  oids.mapM fun oid =>
    match store oid with
    | none => .error ("reading tree " ++ toString oid)
    | some children => .ok (oid, children)

def diffRounds (store own : TreeReader) (oldRoot : Option ObjectId) (newRoot : ObjectId)
    (options : DiffOptions) (readLimit fuel : ℕ) :
    ℕ → ReadTrees → Option (Except String TreeDiff)
  | 0, _ => none
  | rounds + 1, read =>
    match diffTreesWith fuel (read.children own) oldRoot newRoot options with
    | none => none
    | some diff =>
      -- A diff that stopped short is still an answer, and says that it is a part of one.
      if diff.isComplete || readLimit ≤ read.keys.length then some (.ok diff)
      else
        match readTrees store diff.unreadable with
        | .error failure => some (.error failure)
        | .ok found =>
          diffRounds store own oldRoot newRoot options readLimit fuel rounds
            (read.extend found)

section Reading

variable {store : TreeReader} {found : List (ObjectId × List TreeChild)}

theorem readTrees_of_held {oids : List ObjectId} (held : ∀ oid ∈ oids, store oid ≠ none) :
    ∃ found, readTrees store oids = .ok found ∧ found.map Prod.fst = oids ∧
      ∀ tree ∈ found, store tree.1 = some tree.2 := by
  induction oids with
  | nil => exact ⟨[], rfl, rfl, forall_mem_nil _⟩
  | cons oid oids ih =>
    rcases forall_mem_cons.mp held with ⟨here, later⟩
    rcases Option.ne_none_iff_exists'.mp here with ⟨children, isHeld⟩
    rcases ih later with ⟨found, reads, isOids, areHeld⟩
    refine ⟨(oid, children) :: found, ?_, congrArg (oid :: ·) isOids,
      forall_mem_cons.mpr ⟨isHeld, areHeld⟩⟩
    rw [readTrees] at reads ⊢
    rw [mapM_cons, isHeld, reads]
    rfl

theorem lookup_extend (areHeld : ∀ tree ∈ found, store tree.1 = some tree.2) (read : ReadTrees)
    (oid : ObjectId) :
    (read.extend found).lookup oid =
      if oid ∈ found.map Prod.fst then store oid else read.lookup oid := by
  induction found generalizing read with
  | nil => simp [ReadTrees.extend]
  | cons tree found ih =>
    rcases forall_mem_cons.mp areHeld with ⟨here, later⟩
    have rest := ih later (read.insert tree.1 tree.2)
    rw [ReadTrees.extend, foldl_cons]
    rw [ReadTrees.extend] at rest
    rw [rest]
    by_cases same : oid = tree.1
    · subst same
      simp [here]
    · rw [AList.lookup_insert_ne same, map_cons]
      simp only [mem_cons, same, false_or]

end Reading

section Rounds

variable {world own : TreeReader} {oldRoot : Option ObjectId} {newRoot : ObjectId} {depth : ℕ}

def askedFor (frames : List DiffFrame) : Finset ObjectId :=
  (frames.flatMap fun frame => frame.old.toList ++ frame.new.toList).toFinset

theorem mem_askedFor {frames : List DiffFrame} {oid : ObjectId} :
    oid ∈ askedFor frames ↔ ∃ frame ∈ frames, frame.old = some oid ∨ frame.new = some oid := by
  simp [askedFor]

/-- The trees that were read are of those a diff asks for, and are what they really are. -/
structure Reading (world own : TreeReader) (asked : Finset ObjectId) (read : ReadTrees) : Prop where
  agrees : Agrees (read.children own) world
  asked : ∀ oid ∈ read.keys, oid ∈ asked

def lacking (own : TreeReader) (asked : Finset ObjectId) (read : ReadTrees) : Finset ObjectId :=
  asked.filter fun oid => read.children own oid = none

theorem Reading.extend {asked : Finset ObjectId} {read : ReadTrees}
    {found : List (ObjectId × List TreeChild)} (reading : Reading world own asked read)
    (areHeld : ∀ tree ∈ found, world tree.1 = some tree.2)
    (areAsked : ∀ tree ∈ found, tree.1 ∈ asked)
    (wereLacking : ∀ tree ∈ found, read.children own tree.1 = none) (some_ : found ≠ []) :
    Reading world own asked (read.extend found) ∧
      (lacking own asked (read.extend found)).card < (lacking own asked read).card := by
  have holds := lookup_extend areHeld read
  refine ⟨⟨fun oid entries isRead => ?_, fun oid isKey => ?_⟩, Finset.card_lt_card ?_⟩
  · rw [ReadTrees.children, holds] at isRead
    split_ifs at isRead with isFound
    · cases isOwn : own oid with
      | none =>
        rw [isOwn, Option.none_or] at isRead
        exact isRead
      | some ownEntries =>
        refine reading.agrees oid entries ?_
        rw [isOwn, Option.some_or] at isRead
        rw [ReadTrees.children, isOwn, Option.some_or, isRead]
    · exact reading.agrees oid entries isRead
  · rw [← AList.mem_keys, ← AList.lookup_isSome, holds] at isKey
    split_ifs at isKey with isFound
    · rcases mem_map.mp isFound with ⟨tree, isTree, rfl⟩
      exact areAsked tree isTree
    · exact reading.asked oid (AList.mem_keys.mp (AList.lookup_isSome.mp isKey))
  · refine Finset.ssubset_iff_of_subset ?_ |>.mpr ?_
    · intro oid isLacking
      rw [lacking, Finset.mem_filter, ReadTrees.children, holds, Option.or_eq_none_iff] at isLacking
      refine Finset.mem_filter.mpr ⟨isLacking.1, ?_⟩
      rw [ReadTrees.children, Option.or_eq_none_iff]
      refine ⟨isLacking.2.1, ?_⟩
      have unread := isLacking.2.2
      split_ifs at unread with isFound
      · rcases mem_map.mp isFound with ⟨tree, isTree, rfl⟩
        rw [areHeld tree isTree] at unread
        cases unread
      · exact unread
    · rcases exists_mem_of_ne_nil _ some_ with ⟨tree, isTree⟩
      refine ⟨tree.1, Finset.mem_filter.mpr ⟨areAsked tree isTree, wereLacking tree isTree⟩, ?_⟩
      intro isLacking
      rw [lacking, Finset.mem_filter, ReadTrees.children, holds, Option.or_eq_none_iff,
        if_pos (mem_map_of_mem isTree), areHeld tree isTree] at isLacking
      cases isLacking.2.2

/-- What a diff comes to with only some of the trees at hand. -/
def PartialDiff (world : TreeReader) (oldRoot : Option ObjectId) (newRoot : ObjectId)
    (diff : TreeDiff) : Prop :=
  ∃ reader fuel popped, Agrees reader world ∧
    visited fuel reader oldRoot newRoot withRemovals = some popped ∧
    diff = gathered reader withRemovals popped

/-- With enough rounds and enough fuel the loop ends in a diff, which is the one with every tree at
hand if it may read enough trees. -/
theorem diffRounds_ends {fuel : ℕ} {all : List DiffFrame} {read : ReadTrees}
    (oldWithin : SideWithin world depth oldRoot)
    (newWithin : SideWithin world depth (some newRoot))
    (whole : visited fuel world oldRoot newRoot withRemovals = some all)
    (reading : Reading world own (askedFor all) read) :
    ∃ enough, ∀ readLimit, ∃ diff, PartialDiff world oldRoot newRoot diff ∧
      (enough ≤ readLimit → diff = gathered world withRemovals all) ∧
      ∀ fuel rounds, enough ≤ fuel → enough ≤ rounds →
        diffRounds world own oldRoot newRoot withRemovals readLimit fuel rounds read =
          some (.ok diff) := by
  -- Every round that does not end the loop leaves fewer trees lacking.
  induction isCount : (lacking own (askedFor all) read).card using Nat.strong_induction_on
    generalizing read with
  | _ count ih =>
    rcases exists_visited_all reading.agrees oldWithin newWithin with ⟨needed, popped, visits⟩
    have isPartial : PartialDiff world oldRoot newRoot
        (gathered (read.children own) withRemovals popped) :=
      ⟨_, needed, popped, reading.agrees, visits, rfl⟩
    have stops : ∀ readLimit fuel rounds, needed ≤ fuel → 0 < rounds →
        ((gathered (read.children own) withRemovals popped).isComplete = true ∨
          readLimit ≤ read.keys.length) →
        diffRounds world own oldRoot newRoot withRemovals readLimit fuel rounds read =
          some (.ok (gathered (read.children own) withRemovals popped)) := by
      intro readLimit fuel rounds le positive stop
      rcases Nat.exists_eq_add_of_le' positive with ⟨more, rfl⟩
      rw [diffRounds, diffTreesWith_eq, visited_of_le visits le, Option.map_some]
      exact if_pos (by simpa using stop)
    by_cases complete : (gathered (read.children own) withRemovals popped).unreadable = []
    · refine ⟨needed + 1, fun readLimit => ⟨_, isPartial, fun _ => ?_, ?_⟩⟩
      · exact gathered_eq_of_complete reading.agrees visits whole complete
      · intro fuel rounds enoughFuel enoughRounds
        refine stops readLimit fuel rounds (by omega) (by omega) (Or.inl ?_)
        rw [TreeDiff.isComplete, complete, isEmpty_nil]
    · have asked : ∀ oid ∈ (gathered (read.children own) withRemovals popped).unreadable,
          read.children own oid = none ∧ oid ∈ askedFor all := by
        intro oid named
        rcases mem_unreadable_gathered.mp named with ⟨lacks, frame, isFrame, isSide⟩
        exact ⟨lacks, mem_askedFor.mpr
          ⟨frame, (visited_sublist reading.agrees visits whole).subset isFrame, isSide⟩⟩
      have held : ∀ oid ∈ askedFor all, world oid ≠ none := by
        intro oid isAsked missing
        have named : oid ∈ (gathered world withRemovals all).unreadable :=
          mem_unreadable_gathered.mpr ⟨missing, mem_askedFor.mp isAsked⟩
        rw [unreadable_gathered oldWithin newWithin whole] at named
        cases named
      rcases readTrees_of_held fun oid named => held oid (asked oid named).2 with
        ⟨found, reads, isNamed, areHeld⟩
      have named : ∀ tree ∈ found,
          tree.1 ∈ (gathered (read.children own) withRemovals popped).unreadable := by
        intro tree isTree
        rw [← isNamed]
        exact mem_map_of_mem isTree
      rcases reading.extend areHeld (fun tree isTree => (asked _ (named tree isTree)).2)
        (fun tree isTree => (asked _ (named tree isTree)).1)
        (fun none => complete (by rw [← isNamed, none]; rfl)) with ⟨nextReading, fewer⟩
      rcases ih _ (isCount ▸ fewer) nextReading rfl with ⟨later, ends⟩
      have few : read.keys.length ≤ (askedFor all).card := by
        rw [← toFinset_card_of_nodup read.keys_nodup]
        refine Finset.card_le_card fun oid isKey => reading.asked oid (mem_toFinset.mp isKey)
      refine ⟨needed + later + (askedFor all).card + 1, fun readLimit => ?_⟩
      by_cases stop : readLimit ≤ read.keys.length
      · refine ⟨_, isPartial, by omega, fun fuel rounds enoughFuel enoughRounds => ?_⟩
        exact stops readLimit fuel rounds (by omega) (by omega) (Or.inr stop)
      · rcases ends readLimit with ⟨diff, isPart, isWhole, diffs⟩
        refine ⟨diff, isPart, fun enough => isWhole (by omega), ?_⟩
        intro fuel rounds enoughFuel enoughRounds
        rcases Nat.exists_eq_add_of_le' enoughRounds with ⟨more, rfl⟩
        have goesOn : ((gathered (read.children own) withRemovals popped).isComplete ||
            decide (readLimit ≤ read.keys.length)) = false := by
          rw [Bool.or_eq_false_iff, TreeDiff.isComplete, isEmpty_eq_false_iff,
            decide_eq_false_iff_not]
          exact ⟨complete, stop⟩
        rw [← Nat.add_assoc, diffRounds, diffTreesWith_eq, visited_of_le visits (by omega),
          Option.map_some]
        simp only [goesOn, Bool.false_eq_true, if_false, reads]
        exact diffs fuel _ (by omega) (by omega)

theorem reading_empty {asked : Finset ObjectId} (agrees : Agrees own world) :
    Reading world own asked ∅ := by
  refine ⟨fun oid entries isRead => ?_, fun oid isKey => nomatch isKey⟩
  rw [ReadTrees.children, AList.lookup_empty, Option.or_none] at isRead
  exact agrees oid entries isRead

end Rounds

/-! ### What diffs come to -/

theorem exists_sidesWithin {world : TreeReader} {oldRoot : Option ObjectId} {newRoot : ObjectId}
    (oldFinite : ∀ root ∈ oldRoot, FiniteTree world root) (newFinite : FiniteTree world newRoot) :
    ∃ depth, SideWithin world depth oldRoot ∧ SideWithin world depth (some newRoot) := by
  rcases newFinite with ⟨newDepth, isNewFinite⟩
  have oldSide : ∃ oldDepth, SideWithin world oldDepth oldRoot := by
    cases oldRoot with
    | none => exact ⟨0, fun oid isRoot => nomatch isRoot⟩
    | some root =>
      rcases oldFinite root rfl with ⟨oldDepth, within⟩
      exact ⟨oldDepth, fun oid isRoot => Option.some.inj isRoot ▸ within⟩
  rcases oldSide with ⟨oldDepth, isOldFinite⟩
  refine ⟨max oldDepth newDepth, isOldFinite.mono (Nat.le_max_left oldDepth newDepth), ?_⟩
  exact SideWithin.mono (fun oid isRoot => Option.some.inj isRoot ▸ isNewFinite)
    (Nat.le_max_right oldDepth newDepth)

def Diffs (reader : TreeReader) (oldRoot : Option ObjectId) (newRoot : ObjectId) (diff : TreeDiff)
    (frames : List DiffFrame) : Prop :=
  ∃ enough, ∀ fuel, enough ≤ fuel →
    diffTreesWith fuel reader oldRoot newRoot withRemovals = some diff ∧
      visited fuel reader oldRoot newRoot withRemovals = some frames

/-- What running a diff again with the trees it lacked comes to, with enough rounds, enough fuel and
leave to read enough trees. -/
def EndsIn (store reader : TreeReader) (oldRoot : Option ObjectId) (newRoot : ObjectId)
    (diff : TreeDiff) : Prop :=
  ∃ enough, ∀ fuel rounds readLimit, enough ≤ fuel → enough ≤ rounds → enough ≤ readLimit →
    diffRounds store reader oldRoot newRoot withRemovals readLimit fuel rounds ∅ = some (.ok diff)

/-- Diffs of finite trees are exact. There is one answer that says what the differences of the two
listings are. A reader that supplies every tree it is asked for gives that answer; any other names
the trees it lacks, each once, and ends in that answer when they are added. No reader is asked for a
tree at or under a path at which both sides have the same tree. -/
theorem tree_diffs_exact {world : TreeReader} {oldRoot : Option ObjectId} {newRoot : ObjectId}
    (oldFinite : ∀ root ∈ oldRoot, FiniteTree world root) (newFinite : FiniteTree world newRoot) :
    ∃ complete : TreeDiff,
      ExactDiff (listing world oldRoot) (listing world (some newRoot)) complete ∧
      (∀ path, listing world oldRoot path ≠ listing world (some newRoot) path ↔
        path ∈ complete.changes.map Change.path ∨ path ∈ complete.removals.map Removal.path) ∧
      complete.applied (listing world oldRoot) = listing world (some newRoot) ∧
      ∀ reader, Agrees reader world → ∃ diff frames, Diffs reader oldRoot newRoot diff frames ∧
        ((∀ oid ∈ askedFor frames, reader oid ≠ none) → diff = complete) ∧
        (∀ frame ∈ frames, ∀ names, names <+: components frame.lead →
          treeAt world oldRoot names ≠ treeAt world (some newRoot) names) ∧
        diff.unreadable.Nodup ∧ (diff.unreadable = [] ↔ diff = complete) ∧
        EndsIn world reader oldRoot newRoot complete := by
  rcases exists_sidesWithin oldFinite newFinite with ⟨depth, oldWithin, newWithin⟩
  rcases exists_visited_all (fun _ _ => id) oldWithin newWithin with ⟨fuel, all, whole⟩
  have exact_ := exactDiff_gathered oldWithin newWithin whole
  refine ⟨gathered world withRemovals all, exact_, exact_.differs_iff, exact_.applied_eq,
    fun reader agrees => ?_⟩
  rcases exists_visited_all agrees oldWithin newWithin with ⟨needed, frames, visits⟩
  refine ⟨gathered reader withRemovals frames, frames, ⟨needed, fun fuel le => ?_⟩,
    fun supplied => ?_, fun frame isFrame => ?_, ?_, ⟨fun none => ?_, fun same => ?_⟩, ?_⟩
  · rw [diffTreesWith_eq, visited_of_le visits le]
    exact ⟨rfl, rfl⟩
  · refine gathered_eq_of_complete agrees visits whole
      (eq_nil_iff_forall_not_mem.mpr fun oid named => ?_)
    rcases mem_unreadable_gathered.mp named with ⟨lacks, isSide⟩
    exact supplied oid (mem_askedFor.mpr isSide) lacks
  · exact (placed_of_visited oldWithin newWithin agrees visits frame isFrame).1.differs
  · have once : ((Stream.keepFirst id [] (gather reader withRemovals ∅ frames).unreadable).map
        id).Nodup := Stream.keepFirst_nodup [] _
    rwa [map_id] at once
  · exact gathered_eq_of_complete agrees visits whole none
  · rw [same]
    exact unreadable_gathered oldWithin newWithin whole
  · rcases diffRounds_ends oldWithin newWithin whole (reading_empty agrees) with ⟨enough, ends⟩
    refine ⟨enough, fun fuel rounds readLimit enoughFuel enoughRounds enoughLimit => ?_⟩
    rcases ends readLimit with ⟨diff, -, isWhole, diffs⟩
    rw [diffs fuel rounds enoughFuel enoughRounds, isWhole enoughLimit]

/-- A directory that becomes a file, next to a file that goes and a copy of the directory. -/
def movedDirectory : TreeReader
  | 1 => some [⟨10, false, false, [97]⟩, ⟨2, true, false, [100]⟩]
  | 2 => some [⟨11, false, false, [120]⟩]
  | 3 => some [⟨12, false, false, [100]⟩, ⟨2, true, false, [101]⟩]
  | _ => none

theorem finite_movedDirectory : FiniteTree movedDirectory 1 ∧ FiniteTree movedDirectory 3 := by
  have leaf : FiniteWithin movedDirectory 1 2 :=
    ⟨_, rfl, ⟨by decide, by decide, by decide⟩, by simp⟩
  refine ⟨⟨2, _, rfl, ⟨by decide, by decide, by decide⟩, ?_⟩,
    ⟨2, _, rfl, ⟨by decide, by decide, by decide⟩, ?_⟩⟩
  · simp [leaf]
  · simp [leaf]

theorem tree_diffs_exact_moved : ∃ complete,
    ExactDiff (listing movedDirectory (some 1)) (listing movedDirectory (some 3)) complete ∧
      EndsIn movedDirectory (fun _ => none) (some 1) 3 complete := by
  rcases tree_diffs_exact (fun root isRoot => Option.some.inj isRoot ▸ finite_movedDirectory.1)
    finite_movedDirectory.2 with ⟨complete, exact_, -, -, readers⟩
  rcases readers (fun _ => none) nofun with ⟨diff, frames, -, -, -, -, -, ends⟩
  exact ⟨complete, exact_, ends⟩

/-- The directory is removed with what it holds, and stands under its new name as something new. -/
example : diffTreesWith 4 movedDirectory (some 1) 3 withRemovals =
    some ⟨[⟨[100], .blob, none, 12⟩, ⟨[101], .tree, none, 2⟩, ⟨[101, 47, 120], .blob, none, 11⟩],
      [⟨[100], .tree, 2⟩, ⟨[97], .blob, 10⟩, ⟨[100, 47, 120], .blob, 11⟩], []⟩ := by
  decide +kernel

end Enroute
