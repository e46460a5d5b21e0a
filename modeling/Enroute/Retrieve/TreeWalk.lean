import Enroute.Retrieve.Meta
import Enroute.Retrieve.Paths
import Enroute.Retrieve.Trees
import Mathlib.Data.List.GetD

/-!
# Listing a tree

The trees to read are found in the object index, without reading one, by a walk that takes each tree
once and stops when it has found more trees than entries are wanted. What was found is read at once,
and the listing goes through the trees that were read and passes over the others. Every tree the walk
found except the root is named by an entry further up, so when the walk stopped early the listing has
as many entries as are wanted before it comes to a tree that was not read.
-/

namespace Enroute

open Diff List

structure TreeWalk where
  levels : List (List TreeItem)
  /-- Whether the walk hit its entry budget with more left to name. -/
  truncated : Bool
  deriving DecidableEq, Repr

inductive TreeError where
  | missing (oid : ObjectId)
  | notTreeish (oid : ObjectId) (kind : Kind)
  | failed (message : String)
  deriving DecidableEq, Repr

/-! ## The trees under a root -/

namespace RepoObjects

def takeTrees (state : Finset ℕ × List ℕ) (children : ObjectSeqs) : Finset ℕ × List ℕ :=
  (state.1 ∪ children.trees, state.2 ++ (children.trees \ state.1).sort (· ≤ ·))

/-- Find the trees of one level after another, until there are no more or enough. -/
def underRounds (objects : RepoObjects) (entryLimit : ℕ) :
    ℕ → List ObjectId → Finset ℕ → List ℕ → Option (List ObjectId)
  | 0, _, _, _ => none
  | rounds + 1, found, seen, frontier =>
    if frontier.isEmpty then some found
    else
      let (seen, frontier) := (frontier.map objects.childrenOf).foldl takeTrees (seen, [])
      if frontier.isEmpty then some found
      else
        let found := found ++ (objects.locationsBySeq (frontier.map .tree)).map Prod.fst
        if entryLimit < found.length then some found
        else objects.underRounds entryLimit rounds found seen frontier

def treesUnder (objects : RepoObjects) (rounds : ℕ) (root : ObjectId) (entryLimit : ℕ) :
    Option (Except String (List ObjectId)) :=
  match (objects.identities root).filter fun held => held.kind = .tree with
  | none => some (.error s!"identity holds no tree at {root}")
  | some held => (objects.underRounds entryLimit rounds [root] {held.seq} [held.seq]).map .ok

end RepoObjects

/-! ## The listing -/

/-- The entries of the directories of a level that were read, and the directories among them. -/
def readLevel (trees : ReadTrees) (level : List (Bytes × ObjectId)) :
    List TreeItem × List (Bytes × ObjectId) :=
  level.foldl (fun state dir =>
    match trees.lookup dir.2 with
    | none => state
    | some children =>
      let found := children.filterMap (treeItem dir.1)
      (state.1 ++ found, state.2 ++ directories found)) ([], [])

def levelRounds (trees : ReadTrees) (entryLimit : ℕ) :
    ℕ → List (List TreeItem) → ℕ → List (Bytes × ObjectId) → Option TreeWalk
  | 0, _, _, _ => none
  | rounds + 1, done, named, level =>
    if level.isEmpty then some ⟨done, false⟩
    else
      let (entries, next) := readLevel trees level
      if entryLimit < named + entries.length then
        some ⟨done ++ [entries.take (entryLimit - named)], true⟩
      else
        levelRounds trees entryLimit rounds (if entries.isEmpty then done else done ++ [entries])
          (named + entries.length) next

def levels (rounds : ℕ) (trees : ReadTrees) (root : ObjectId) (entryLimit : ℕ) : Option TreeWalk :=
  levelRounds trees entryLimit rounds [] 0 [([], root)]

structure TreeStorage where
  storage : Storage
  object : ObjectId → Except String (Kind × Bytes)
  objectRefs : Kind → Bytes → Except String ObjectRefs

namespace TreeStorage

def rootTree (held : TreeStorage) (start : ObjectId) : Except TreeError ObjectId :=
  -- numbered without being recorded reads as absent
  match (held.storage.metas start).filter ObjectMeta.isStored with
  | none => .error (.missing start)
  | some found =>
    match found.kind with
    | .tree => .ok start
    | .commit =>
      match held.object start with
      | .error _ => .error (.failed s!"reading commit {start}")
      | .ok (kind, bytes) =>
        match held.objectRefs kind bytes with
        | .ok (.commit root _ _) => .ok root
        | _ => .error (.failed s!"commit {start} did not parse as one")
    | kind => .error (.notTreeish start kind)

def children (held : TreeStorage) : TreeReader := fun oid =>
  match held.object oid with
  | .error _ => none
  | .ok (kind, bytes) =>
    match held.objectRefs kind bytes with
    | .ok (.tree children) => some children
    | _ => some []

def tree (held : TreeStorage) (rounds : ℕ) (start : ObjectId) (entryLimit : ℕ) :
    Option (Except TreeError TreeWalk) :=
  match held.rootTree start with
  | .error failure => some (.error failure)
  | .ok root =>
    match held.storage.objects.treesUnder rounds root entryLimit with
    | none => none
    | some (.error message) => some (.error (.failed message))
    | some (.ok oids) =>
      match readTrees held.children oids with
      | .error message => some (.error (.failed message))
      | .ok found => (levels rounds (ReadTrees.extend ∅ found) root entryLimit).map .ok

/-- A tree that can be read, is numbered, and whose recorded subtrees are those its bytes name. -/
def Recorded (held : TreeStorage) (oid : ObjectId) : Prop :=
  ∃ entries seq, held.children oid = some entries ∧
    held.storage.identities oid = some ⟨.tree, seq⟩ ∧
    ∀ child, child ∈ (held.storage.objects.childrenOf seq).trees ↔
      ∃ entry ∈ entries, entry.isCommit = false ∧ entry.isTree = true ∧
        held.storage.identities entry.oid = some ⟨.tree, child⟩

/-- A stored tree: it and every tree under it are recorded, and it has finitely many levels. -/
structure StoredTree (held : TreeStorage) (root : ObjectId) : Prop where
  recorded : ∀ level, ∀ dir ∈ dirsAt held.children root level, held.Recorded dir.2
  finite : ∃ level, dirsAt held.children root level = []

end TreeStorage

/-! ## What the index walk finds -/

namespace RepoObjects

theorem foldl_takeTrees (batch : List ObjectSeqs) {seen : Finset ℕ} {frontier : List ℕ}
    (distinct : frontier.Nodup) (within : ∀ seq ∈ frontier, seq ∈ seen) :
    let result := batch.foldl takeTrees (seen, frontier)
    (∀ seq, seq ∈ result.1 ↔ seq ∈ seen ∨ ∃ children ∈ batch, seq ∈ children.trees) ∧
      (∀ seq, seq ∈ result.2 ↔ seq ∈ frontier ∨
        seq ∉ seen ∧ ∃ children ∈ batch, seq ∈ children.trees) ∧ result.2.Nodup := by
  induction batch generalizing seen frontier with
  | nil => simp [distinct]
  | cons children batch ih =>
    have fresh : ∀ seq, seq ∈ (children.trees \ seen).sort (· ≤ ·) ↔
        seq ∈ children.trees ∧ seq ∉ seen := fun seq => by
      rw [Finset.mem_sort, Finset.mem_sdiff]
    have distinctNext : (frontier ++ (children.trees \ seen).sort (· ≤ ·)).Nodup := by
      refine distinct.append (Finset.sort_nodup _ _) fun seq isOld isNew => ?_
      exact ((fresh seq).mp isNew).2 (within seq isOld)
    have withinNext : ∀ seq ∈ frontier ++ (children.trees \ seen).sort (· ≤ ·),
        seq ∈ seen ∪ children.trees := by
      intro seq listed
      rcases mem_append.mp listed with isOld | isNew
      · exact Finset.mem_union_left _ (within seq isOld)
      · exact Finset.mem_union_right _ ((fresh seq).mp isNew).1
    rcases ih distinctNext withinNext with ⟨seenAfter, waiting, stillDistinct⟩
    rw [foldl_cons]
    refine ⟨fun seq => ?_, fun seq => ?_, stillDistinct⟩
    · rw [takeTrees, seenAfter, Finset.mem_union, exists_mem_cons_iff, or_assoc]
    · rw [takeTrees, waiting, mem_append, fresh, Finset.mem_union,
        exists_mem_cons_iff]
      have := within seq
      tauto

end RepoObjects

namespace TreeStorage

variable {held : TreeStorage} {root : ObjectId} {entryLimit : ℕ}

variable {level : ℕ} {world : TreeReader} {found : List ObjectId} {frontier : List ℕ}
  {seen : Finset ℕ}

theorem StoredTree.child_recorded (stored : held.StoredTree root) {seq : ℕ} {dir : Bytes × ObjectId}
    (isDir : dir ∈ dirsAt held.children root level)
    (isSeq : held.storage.identities dir.2 = some ⟨.tree, seq⟩) (child : ℕ) :
    child ∈ (held.storage.objects.childrenOf seq).trees ↔
      ∃ entry ∈ entriesOf held.children (some dir.2), entry.isCommit = false ∧
        entry.isTree = true ∧ held.storage.identities entry.oid = some ⟨.tree, child⟩ := by
  rcases stored.recorded level dir isDir with ⟨entries, number, isRead, isNumber, agrees⟩
  rw [isNumber] at isSeq
  cases isSeq
  rw [entriesOf, Option.bind_some, isRead, Option.getD_some]
  exact agrees child

theorem mem_dirsAt_succ {path : Bytes} {oid : ObjectId} :
    (path, oid) ∈ dirsAt world root (level + 1) ↔ ∃ dir ∈ dirsAt world root level,
      ∃ entry ∈ entriesOf world (some dir.2), entry.isCommit = false ∧ entry.isTree = true ∧
        path = joinPath dir.1 entry.name ∧ oid = entry.oid := by
  rw [dirsAt_succ, mem_directories, pathsAt, mem_itemsIn]
  simp only [TreeItem.mk.injEq]
  constructor
  · rintro ⟨dir, isDir, entry, listed, notCommit, isPath, isOid, isTree⟩
    exact ⟨dir, isDir, entry, listed, notCommit, isTree.symm, isPath, isOid⟩
  · rintro ⟨dir, isDir, entry, listed, notCommit, isTree, isPath, isOid⟩
    exact ⟨dir, isDir, entry, listed, notCommit, isPath, isOid, isTree.symm⟩

/-- Where the index walk stands when it has gone down so many levels. -/
structure Under (held : TreeStorage) (root : ObjectId) (level : ℕ) (found : List ObjectId)
    (seen : Finset ℕ) (frontier : List ℕ) : Prop where
  waiting : ∀ seq ∈ frontier, ∃ dir ∈ dirsAt held.children root level,
    held.storage.identities dir.2 = some ⟨.tree, seq⟩
  within : ∀ seq ∈ frontier, seq ∈ seen
  -- what is seen and does not wait has its subtrees seen
  closed : ∀ seq ∈ seen, seq ∉ frontier →
    ∀ child ∈ (held.storage.objects.childrenOf seq).trees, child ∈ seen
  reached : ∀ upper ≤ level, ∀ dir ∈ dirsAt held.children root upper,
    ∃ seq ∈ seen, held.storage.identities dir.2 = some ⟨.tree, seq⟩
  found_iff : ∀ oid, oid ∈ found ↔ ∃ seq ∈ seen, held.storage.identities oid = some ⟨.tree, seq⟩
  distinct : found.Nodup
  -- every tree found is the root or is named further up
  named : ∃ rest, found = root :: rest ∧ ∀ oid ∈ rest, ∃ upper < level,
    ∃ path, (path, oid) ∈ dirsAt held.children root (upper + 1)

theorem under_start {seq : ℕ} (isSeq : held.storage.identities root = some ⟨.tree, seq⟩)
    (numbered : held.storage.Numbered) : held.Under root 0 [root] {seq} [seq] where
  waiting other listed := by
    rw [mem_singleton.mp listed]
    exact ⟨_, mem_singleton_self _, isSeq⟩
  within other listed := by simpa using listed
  closed other listed notWaiting := by simp_all
  reached upper le dir isDir := by
    obtain rfl : upper = 0 := by omega
    rw [mem_singleton.mp isDir]
    exact ⟨seq, Finset.mem_singleton_self seq, isSeq⟩
  found_iff oid := by
    rw [mem_singleton]
    constructor
    · rintro rfl
      exact ⟨seq, Finset.mem_singleton_self seq, isSeq⟩
    · rintro ⟨other, listed, isOther⟩
      rw [Finset.mem_singleton.mp listed, ← numbered] at isOther
      rw [← numbered, isOther, Option.some.injEq] at isSeq
      exact isSeq
  distinct := nodup_singleton root
  named := ⟨[], rfl, forall_mem_nil _⟩

theorem Under.fresh (under : held.Under root level found seen frontier)
    (stored : held.StoredTree root) {child : ℕ}
    (isChild : ∃ children ∈ frontier.map held.storage.objects.childrenOf, child ∈ children.trees) :
    ∃ dir ∈ dirsAt held.children root (level + 1),
      held.storage.identities dir.2 = some ⟨.tree, child⟩ := by
  rcases isChild with ⟨_, listed, isChild⟩
  rcases mem_map.mp listed with ⟨seq, isWaiting, rfl⟩
  rcases under.waiting seq isWaiting with ⟨dir, isDir, isSeq⟩
  rcases (stored.child_recorded isDir isSeq child).mp isChild with
    ⟨entry, isEntry, notCommit, isTree, isNumber⟩
  exact ⟨(_, entry.oid),
    mem_dirsAt_succ.mpr ⟨dir, isDir, entry, isEntry, notCommit, isTree, rfl, rfl⟩, isNumber⟩

theorem treeOids (objects : RepoObjects) (seqs : List ℕ) :
    (objects.locationsBySeq (seqs.map .tree)).map Prod.fst =
      seqs.filterMap (objects.oidOf .tree) := by
  have trees : Shelf.trees.shelved (seqs.map .tree) = seqs := by
    simp only [Shelf.shelved, filterMap_map, Function.comp_def, filterMap_some]
  have blobs : Shelf.blobs.shelved (seqs.map .tree) = [] := by
    simp [Shelf.shelved, filterMap_map]
  rw [RepoObjects.locationsBySeq_oids, trees, blobs, filterMap_nil, append_nil]

theorem Under.next (under : held.Under root level found seen frontier)
    (stored : held.StoredTree root) (numbered : held.storage.Numbered) :
    let taken := (frontier.map held.storage.objects.childrenOf).foldl RepoObjects.takeTrees
      (seen, [])
    held.Under root (level + 1) (found ++
      (held.storage.objects.locationsBySeq (taken.2.map .tree)).map Prod.fst) taken.1 taken.2 := by
  rcases RepoObjects.foldl_takeTrees (frontier.map held.storage.objects.childrenOf)
    nodup_nil (forall_mem_nil fun seq => seq ∈ seen) with ⟨isSeen, isFresh, distinct⟩
  dsimp only
  rw [treeOids]
  generalize (frontier.map held.storage.objects.childrenOf).foldl RepoObjects.takeTrees (seen, []) =
    taken at isSeen isFresh distinct ⊢
  simp only [not_mem_nil, false_or] at isFresh
  have oldSeen : ∀ seq ∈ seen, seq ∈ taken.1 := fun seq isOld => (isSeen seq).mpr (Or.inl isOld)
  have childSeen : ∀ seq ∈ seen, ∀ child ∈ (held.storage.objects.childrenOf seq).trees,
      child ∈ taken.1 := by
    intro seq isOld child isChild
    by_cases isWaiting : seq ∈ frontier
    · exact (isSeen child).mpr (Or.inr ⟨_, mem_map_of_mem isWaiting, isChild⟩)
    · exact oldSeen child (under.closed seq isOld isWaiting child isChild)
  have freshOid : ∀ oid, oid ∈ taken.2.filterMap (held.storage.objects.oidOf .tree) ↔
      ∃ seq ∈ taken.2, held.storage.identities oid = some ⟨.tree, seq⟩ := by
    intro oid
    rw [mem_filterMap]
    exact exists_congr fun seq => and_congr_right fun _ => numbered oid .tree seq
  refine ⟨fun seq listed => under.fresh stored ((isFresh seq).mp listed).2,
    fun seq listed => (isSeen seq).mpr (Or.inr ((isFresh seq).mp listed).2), ?_, ?_, ?_, ?_, ?_⟩
  · intro seq isThere notWaiting child isChild
    refine childSeen seq ?_ child isChild
    rcases (isSeen seq).mp isThere with isOld | isNew
    · exact isOld
    · by_contra notOld
      exact notWaiting ((isFresh seq).mpr ⟨notOld, isNew⟩)
  · rintro upper le ⟨path, oid⟩ isDir
    rcases Nat.le_succ_iff.mp le with above | rfl
    · rcases under.reached upper above _ isDir with ⟨seq, isOld, isSeq⟩
      exact ⟨seq, oldSeen seq isOld, isSeq⟩
    · rcases stored.recorded _ _ isDir with ⟨-, child, -, isChild, -⟩
      rcases mem_dirsAt_succ.mp isDir with ⟨dir, isParent, entry, listed, notCommit, isTree, -, rfl⟩
      rcases under.reached level le_rfl dir isParent with ⟨seq, isOld, isSeq⟩
      refine ⟨child, childSeen seq isOld child ?_, isChild⟩
      exact (stored.child_recorded isParent isSeq child).mpr
        ⟨entry, listed, notCommit, isTree, isChild⟩
  · intro oid
    rw [mem_append, under.found_iff, freshOid]
    constructor
    · rintro (⟨seq, isOld, isSeq⟩ | ⟨seq, isNew, isSeq⟩)
      · exact ⟨seq, oldSeen seq isOld, isSeq⟩
      · exact ⟨seq, (isSeen seq).mpr (Or.inr ((isFresh seq).mp isNew).2), isSeq⟩
    · rintro ⟨seq, isThere, isSeq⟩
      by_cases isOld : seq ∈ seen
      · exact Or.inl ⟨seq, isOld, isSeq⟩
      · have isNew := ((isSeen seq).mp isThere).resolve_left isOld
        exact Or.inr ⟨seq, (isFresh seq).mpr ⟨isOld, isNew⟩, isSeq⟩
  · refine under.distinct.append (distinct.filterMap fun seq other oid isSeq isOther => ?_)
      fun oid isOld isNew => ?_
    · have isNumber := (numbered oid .tree seq).mp isSeq
      rw [(numbered oid .tree other).mp isOther] at isNumber
      cases isNumber
      rfl
    · rcases (under.found_iff oid).mp isOld with ⟨seq, isThere, isSeq⟩
      rcases (freshOid oid).mp isNew with ⟨other, isOther, isSame⟩
      rw [isSeq] at isSame
      cases isSame
      exact ((isFresh seq).mp isOther).1 isThere
  · rcases under.named with ⟨rest, rfl, areNamed⟩
    refine ⟨rest ++ taken.2.filterMap (held.storage.objects.oidOf .tree), rfl, ?_⟩
    intro oid listed
    rcases mem_append.mp listed with isOld | isNew
    · rcases areNamed oid isOld with ⟨upper, above, isDir⟩
      exact ⟨upper, Nat.lt_succ_of_lt above, isDir⟩
    · rcases (freshOid oid).mp isNew with ⟨seq, isThere, isSeq⟩
      rcases under.fresh stored ((isFresh seq).mp isThere).2 with ⟨⟨path, other⟩, isDir, isOther⟩
      rw [← numbered] at isSeq isOther
      rw [isSeq, Option.some.injEq] at isOther
      exact ⟨level, Nat.lt_succ_self level, path, isOther ▸ isDir⟩

/-- What the index walk ends with: every directory down to a level, each tree once, where that level
is the last one or has as many entries above it as are wanted. -/
structure Gathered (held : TreeStorage) (root : ObjectId) (entryLimit : ℕ) (found : List ObjectId)
    (level : ℕ) : Prop where
  readable : ∀ oid ∈ found, held.children oid ≠ none
  reached : ∀ upper ≤ level, ∀ dir ∈ dirsAt held.children root upper, dir.2 ∈ found
  enough : dirsAt held.children root (level + 1) = [] ∨
    entryLimit ≤ (breadthFirst held.children root level).length

theorem Under.readable (under : held.Under root level found seen frontier)
    (stored : held.StoredTree root) : ∀ oid ∈ found, held.children oid ≠ none := by
  have ofDir : ∀ upper, ∀ dir ∈ dirsAt held.children root upper,
      held.children dir.2 ≠ none := by
    intro upper dir isDir
    rcases stored.recorded upper dir isDir with ⟨entries, -, isRead, -⟩
    rw [isRead]
    exact Option.some_ne_none entries
  rcases under.named with ⟨rest, rfl, areNamed⟩
  refine forall_mem_cons.mpr ⟨ofDir 0 _ (mem_singleton_self _), fun oid listed => ?_⟩
  rcases areNamed oid listed with ⟨upper, -, path, isDir⟩
  exact ofDir _ _ isDir

theorem Under.length_le (under : held.Under root level found seen frontier) :
    found.length ≤ (breadthFirst held.children root level).length + 1 := by
  have distinct := under.distinct
  rcases under.named with ⟨rest, rfl, areNamed⟩
  have listed : rest ⊆ (breadthFirst held.children root level).map TreeItem.oid := by
    intro oid isFound
    rcases areNamed oid isFound with ⟨upper, above, path, isDir⟩
    rw [dirsAt_succ, mem_directories] at isDir
    exact mem_map.mpr
      ⟨_, mem_flatMap.mpr ⟨upper, mem_range.mpr above, isDir⟩, rfl⟩
  have few := ((nodup_cons.mp distinct).2.subperm listed).length_le
  rw [length_map] at few
  rw [length_cons]
  omega

section

variable (under : held.Under root level found seen []) (stored : held.StoredTree root)
  (numbered : held.storage.Numbered)

include under stored numbered

theorem Under.deeper (more : ℕ) : held.Under root (level + more) found seen [] := by
  induction more with
  | zero => exact under
  | succ more ih =>
    have next : held.Under root (level + more + 1) (found ++ []) seen [] :=
      ih.next stored numbered
    rw [append_nil] at next
    exact next

theorem Under.complete : ∃ last, held.Gathered root entryLimit found last := by
  rcases stored.finite with ⟨deepest, isDeepest⟩
  have deep := under.deeper stored numbered deepest
  refine ⟨level + deepest, deep.readable stored, fun upper above dir isDir => ?_,
    Or.inl (dirsAt_eq_nil isDeepest (by omega))⟩
  exact (deep.found_iff dir.2).mpr (deep.reached upper above dir isDir)

end

theorem underRounds_gathered (stored : held.StoredTree root) (numbered : held.storage.Numbered)
    {deepest rounds : ℕ} (isDeepest : dirsAt held.children root deepest = [])
    (enough : deepest < level + rounds) (some_ : 0 < rounds)
    (under : held.Under root level found seen frontier) :
    ∃ oids, held.storage.objects.underRounds entryLimit rounds found seen frontier = some oids ∧
      ∃ last, held.Gathered root entryLimit oids last := by
  induction rounds generalizing level found seen frontier with
  | zero => omega
  | succ rounds ih =>
    have next := under.next stored numbered
    simp only [RepoObjects.underRounds]
    dsimp only at next
    generalize (frontier.map held.storage.objects.childrenOf).foldl RepoObjects.takeTrees
      (seen, []) = taken at next ⊢
    rcases taken with ⟨seenNext, frontierNext⟩
    dsimp only at next ⊢
    split_ifs with noneWaits noneFresh many
    · rw [List.isEmpty_iff.mp noneWaits] at under
      exact ⟨found, rfl, under.complete stored numbered⟩
    · rw [List.isEmpty_iff.mp noneFresh] at next
      have same : held.Under root (level + 1) (found ++ []) seenNext [] := next
      rw [append_nil] at same
      exact ⟨found, rfl, same.complete stored numbered⟩
    · refine ⟨_, rfl, level + 1, next.readable stored, fun upper above dir isDir =>
        (next.found_iff dir.2).mpr (next.reached upper above dir isDir), Or.inr ?_⟩
      have few := next.length_le
      omega
    · -- a tree that waits is a directory of its level, so the level is not past the deepest
      refine ih (by omega) ?_ next
      rcases exists_mem_of_ne_nil frontierNext (by simpa using noneFresh) with ⟨seq, isWaiting⟩
      rcases next.waiting seq isWaiting with ⟨dir, isDir, -⟩
      by_contra noRounds
      rw [dirsAt_eq_nil isDeepest (by omega)] at isDir
      cases isDir

theorem Gathered.shallow {deepest : ℕ} (gathered : held.Gathered root entryLimit found level)
    (isDeepest : dirsAt held.children root deepest = []) :
    held.Gathered root entryLimit found (min level deepest) where
  readable := gathered.readable
  reached upper above := gathered.reached upper (above.trans (min_le_left _ _))
  enough := by
    rcases le_total level deepest with shallow | deep
    · rw [min_eq_left shallow]
      exact gathered.enough
    · rw [min_eq_right deep]
      exact Or.inl (dirsAt_eq_nil isDeepest (Nat.le_succ deepest))

/-- The level after the last one the index walk went down to is empty, or comes after more entries
than are wanted. -/
theorem Gathered.enough_below (gathered : held.Gathered root entryLimit found level) :
    dirsAt held.children root (level + 1) = [] ∨
      entryLimit < (breadthFirst held.children root (level + 1)).length := by
  rcases gathered.enough with noDirs | many
  · exact Or.inl noDirs
  · rcases isHere : pathsAt held.children root level with _ | ⟨item, items⟩
    · left
      rw [dirsAt_succ, isHere]
      rfl
    · right
      rw [breadthFirst_succ, length_append, isHere, length_cons]
      omega

/-! ## What the listing names -/

def Answers (world : TreeReader) (root : ObjectId) (entryLimit : ℕ) (walk : TreeWalk) : Prop :=
  (walk.truncated = false ∧ ∃ last, walk.levels = (List.range last).map (pathsAt world root) ∧
      pathsAt world root last = []) ∨
    (walk.truncated = true ∧ ∃ last, (breadthFirst world root last).length ≤ entryLimit ∧
      entryLimit < (breadthFirst world root (last + 1)).length ∧
      walk.levels = (List.range last).map (pathsAt world root) ++
        [(pathsAt world root last).take (entryLimit - (breadthFirst world root last).length)])

theorem directories_append (items more : List TreeItem) :
    directories (items ++ more) = directories items ++ directories more := by
  rw [directories, filter_append, map_append, directories, directories]

theorem readLevel_eq {trees : ReadTrees} {dirs : List (Bytes × ObjectId)}
    (areRead : ∀ dir ∈ dirs, ∃ entries, trees.lookup dir.2 = some entries ∧
      world dir.2 = some entries) : readLevel trees dirs = (itemsIn world dirs, directories (itemsIn world dirs)) := by
  suffices from_ : ∀ items, dirs.foldl (fun state dir =>
      match trees.lookup dir.2 with
      | none => state
      | some children =>
        (state.1 ++ children.filterMap (treeItem dir.1),
          state.2 ++ directories (children.filterMap (treeItem dir.1))))
      (items, directories items) =
      (items ++ itemsIn world dirs, directories (items ++ itemsIn world dirs)) from from_ []
  induction dirs with
  | nil => simp [itemsIn]
  | cons dir dirs ih =>
    intro items
    rcases forall_mem_cons.mp areRead with ⟨⟨entries, isRead, isTree⟩, later⟩
    have isHere : itemsIn world (dir :: dirs) =
        entries.filterMap (treeItem dir.1) ++ itemsIn world dirs := by
      rw [itemsIn, flatMap_cons, entriesOf, Option.bind_some, isTree, Option.getD_some,
        itemsIn]
    rw [foldl_cons, isRead, isHere, ← append_assoc, ← ih later, directories_append]

theorem levelRounds_answers {trees : ReadTrees} {last rounds : ℕ}
    (areRead : ∀ upper < last, ∀ dir ∈ dirsAt world root upper,
      ∃ entries, trees.lookup dir.2 = some entries ∧ world dir.2 = some entries)
    (enough : dirsAt world root last = [] ∨ entryLimit < (breadthFirst world root last).length)
    (above : level ≤ last) (within : (breadthFirst world root level).length ≤ entryLimit)
    (fuel : last + 1 < level + rounds) :
    ∃ walk, levelRounds trees entryLimit rounds ((List.range level).map (pathsAt world root))
      (breadthFirst world root level).length (dirsAt world root level) = some walk ∧
        Answers world root entryLimit walk := by
  induction rounds generalizing level with
  | zero => omega
  | succ rounds ih =>
    by_cases noDirs : dirsAt world root level = []
    · refine ⟨⟨(List.range level).map (pathsAt world root), false⟩, ?_,
        Or.inl ⟨rfl, level, rfl, pathsAt_of_dirsAt_eq_nil noDirs⟩⟩
      rw [levelRounds, if_pos (List.isEmpty_iff.mpr noDirs)]
    · have below : level < last := by
        refine lt_of_le_of_ne above ?_
        rintro rfl
        rcases enough with noMore | many
        · exact noDirs noMore
        · omega
      have length : (breadthFirst world root (level + 1)).length =
          (breadthFirst world root level).length + (pathsAt world root level).length := by
        rw [breadthFirst_succ, length_append]
      rw [levelRounds, if_neg (by rwa [List.isEmpty_iff]), readLevel_eq (areRead level below)]
      dsimp only
      rw [← pathsAt, ← dirsAt_succ]
      split_ifs with many noPaths
      · exact ⟨_, rfl, Or.inr ⟨rfl, level, within, by omega, rfl⟩⟩
      · -- the next round finds no directories and ends
        rw [List.isEmpty_iff] at noPaths
        obtain ⟨rounds, rfl⟩ : ∃ fewer, rounds = fewer + 1 := ⟨rounds - 1, by omega⟩
        refine ⟨⟨(List.range level).map (pathsAt world root), false⟩, ?_,
          Or.inl ⟨rfl, level, rfl, noPaths⟩⟩
        rw [dirsAt_succ, noPaths]
        rfl
      · have later := @ih (level + 1) below (by omega) (by omega)
        rw [range_succ, map_append, map_singleton, length] at later
        exact later

/-! ## The answer in terms of the listing -/

section Answered

variable {world : TreeReader} {walk : TreeWalk}

theorem getD_levels (last level : ℕ) :
    (((List.range last).map (pathsAt world root)).getD level []) =
      if level < last then pathsAt world root level else [] := by
  split_ifs with above
  · simp [above]
  · rw [getD_eq_default _ _ (by simpa using above)]

section

variable (answers : Answers world root entryLimit walk)

include answers

theorem Answers.complete (whole : walk.truncated = false) (level : ℕ) :
    walk.levels.getD level [] = pathsAt world root level := by
  rcases answers with ⟨-, last, isLevels, noPaths⟩ | ⟨isTruncated, -⟩
  · rw [isLevels, getD_levels]
    split_ifs with above
    · rfl
    · exact (pathsAt_eq_nil noPaths (by omega)).symm
  · rw [whole] at isTruncated
    cases isTruncated

theorem Answers.cut (truncated : walk.truncated = true) {deep : ℕ}
    (noPaths : pathsAt world root deep = []) :
    walk.levels.flatten = (breadthFirst world root deep).take entryLimit ∧
      entryLimit < (breadthFirst world root deep).length ∧
        ∀ level, walk.levels.getD level [] <+: pathsAt world root level := by
  rcases answers with ⟨whole, -⟩ | ⟨-, last, within, many, isLevels⟩
  · rw [truncated] at whole
    cases whole
  · have above : last + 1 ≤ deep := by
      by_contra below
      have noneLast := pathsAt_eq_nil noPaths (show deep ≤ last by omega)
      rw [breadthFirst_succ, noneLast, append_nil] at many
      omega
    rcases breadthFirst_mono above with ⟨more, isMore⟩
    refine ⟨?_, ?_, fun level => ?_⟩
    · rw [isLevels, ← isMore, take_append_of_le_length many.le, breadthFirst_succ,
        take_append, take_of_length_le within, flatten_append, flatten_singleton]
      rfl
    · rw [← isMore, length_append]
      omega
    · rw [isLevels]
      rcases lt_or_ge level last with shallow | deepEnough
      · rw [getD_append _ _ _ _ (by simpa using shallow), getD_levels, if_pos shallow]
      · rw [getD_append_right _ _ _ _ (by simpa using deepEnough), length_map,
          length_range]
        rcases Nat.eq_or_lt_of_le deepEnough with rfl | below
        · rw [Nat.sub_self]
          exact take_prefix _ _
        · rw [getD_eq_default _ _ (by rw [length_singleton]; omega)]
          exact nil_prefix

theorem Answers.first_paths : ∃ levels, walk.levels.flatten <+: breadthFirst world root levels := by
  rcases answers with ⟨-, last, isLevels, -⟩ | ⟨-, last, -, -, isLevels⟩
  · refine ⟨last, ?_⟩
    rw [isLevels]
    exact prefix_rfl
  · refine ⟨last + 1, ?_⟩
    rw [isLevels, flatten_append, flatten_singleton, breadthFirst_succ]
    exact (prefix_append_right_inj _).mpr ( take_prefix _ _)

end

end Answered

/-- A listing is complete or says that it is not. For a stored tree it ends. If it is not cut off it
has every level as it is, and if it is cut off it has the first paths of the breadth-first listing,
as many as were wanted, and there are more. Where the trees are well named, a level holds what the
recursive listing has at its depth, and no path is listed twice. -/
theorem tree_complete_or_truncated (held : TreeStorage) {start root : ObjectId}
    (numbered : held.storage.Numbered) (resolved : held.rootTree start = .ok root)
    (stored : held.StoredTree root) (entryLimit : ℕ) :
    ∃ enough, ∀ rounds ≥ enough, ∃ walk, held.tree rounds start entryLimit = some (.ok walk) ∧
      (walk.truncated = false →
        ∀ level, walk.levels.getD level [] = pathsAt held.children root level) ∧
      (walk.truncated = true → ∀ deep, pathsAt held.children root deep = [] →
        walk.levels.flatten = (breadthFirst held.children root deep).take entryLimit ∧
          entryLimit < (breadthFirst held.children root deep).length ∧
            ∀ level, walk.levels.getD level [] <+: pathsAt held.children root level) ∧
      (AllWellNamed held.children root →
        (walk.levels.flatten.map TreeItem.path).Nodup ∧
          ∀ level item, item ∈ pathsAt held.children root level ↔
            (components item.path).length = level + 1 ∧
              listing held.children (some root) item.path = some (item.kind, item.oid)) := by
  rcases stored.finite with ⟨deepest, isDeepest⟩
  rcases stored.recorded 0 _ (mem_singleton_self _) with ⟨-, seq, -, isSeq, -⟩
  refine ⟨deepest + 4, fun rounds enough => ?_⟩
  rcases @underRounds_gathered held root entryLimit 0 _ _ _ stored numbered deepest rounds
    isDeepest (by omega) (by omega) (under_start isSeq numbered) with ⟨oids, isFound, last, atLast⟩
  have gathered := atLast.shallow isDeepest
  have shallow := min_le_right last deepest
  generalize min last deepest = level at gathered shallow
  rcases readTrees_of_held gathered.readable with ⟨found, isRead, areOids, areHeld⟩
  have areRead : ∀ upper < level + 1, ∀ dir ∈ dirsAt held.children root upper,
      ∃ entries, (ReadTrees.extend ∅ found).lookup dir.2 = some entries ∧
        held.children dir.2 = some entries := by
    intro upper above dir isDir
    have listed := gathered.reached upper (Nat.le_of_lt_succ above) dir isDir
    rcases Option.ne_none_iff_exists'.mp (gathered.readable _ listed) with ⟨entries, isTree⟩
    exact ⟨entries, by rw [lookup_extend areHeld, areOids, if_pos listed, isTree], isTree⟩
  rcases @levelRounds_answers root entryLimit 0 _ _ _ rounds areRead gathered.enough_below
    (Nat.zero_le _) (Nat.zero_le _) (by omega) with ⟨walk, isWalk, answers⟩
  refine ⟨walk, ?_, answers.complete, fun truncated deep noPaths => answers.cut truncated noPaths,
    fun wellNamed => ⟨?_, fun level item => mem_pathsAt wellNamed⟩⟩
  · have isUnder : held.storage.objects.treesUnder rounds root entryLimit = some (.ok oids) := by
      rw [RepoObjects.treesUnder, show held.storage.objects.identities root = _ from isSeq]
      exact congrArg (Option.map Except.ok) isFound
    rw [tree, resolved]
    dsimp only
    rw [isUnder]
    dsimp only
    rw [isRead]
    exact congrArg (Option.map Except.ok) isWalk
  · rcases answers.first_paths with ⟨levels, isFirst⟩
    exact (isFirst.sublist.map TreeItem.path).nodup (nodup_breadthFirst wellNamed levels)

def sharedDirectory : TreeStorage where
  storage := {
    index := ∅
    packs := fun _ => none
    trees := [⟨0, ⟨[⟨0, 1, ⟨7, 0, 24⟩, 12, 4, none⟩], ⟨{1}, ∅⟩, pairwise_singleton _ _⟩⟩,
      ⟨1, .listing ⟨∅, {0}⟩⟩].toAList
    blobs := ∅
    identities := fun oid =>
      if oid = 10 then some ⟨.tree, 0⟩ else if oid = 11 then some ⟨.tree, 1⟩
      else if oid = 12 then some ⟨.blob, 0⟩ else none
    oidOf := fun kind seq => match kind with
      | .tree => if seq = 0 then some 10 else if seq = 1 then some 11 else none
      | .blob => if seq = 0 then some 12 else none
      | _ => none
    tags := ∅
    image := fun _ => none
    rebuild := fun _ => .ok () }
  object := fun oid =>
    if oid = 10 then .ok (.tree, [1]) else if oid = 11 then .ok (.tree, [2])
    else .error "not found"
  objectRefs := fun _ bytes =>
    if bytes = [1] then .ok (.tree [⟨11, true, false, [97]⟩, ⟨11, true, false, [98]⟩])
    else .ok (.tree [⟨12, false, false, [99]⟩])

theorem numbered_sharedDirectory : sharedDirectory.storage.Numbered := by
  intro oid kind seq
  simp only [sharedDirectory]
  constructor
  · intro named
    cases kind with
    | tree => split_ifs at named <;> (cases named; subst_vars; rfl)
    | blob =>
      split_ifs at named
      cases named
      subst_vars
      rfl
    | commit => cases named
    | tag => cases named
  · intro named
    split_ifs at named <;> (cases named; subst_vars; rfl)

theorem stored_sharedDirectory : sharedDirectory.StoredTree 10 := by
  have root : sharedDirectory.Recorded 10 := by
    refine ⟨_, 0, rfl, rfl, fun child => ?_⟩
    change child ∈ ({1} : Finset ℕ) ↔ _
    rw [Finset.mem_singleton]
    constructor
    · rintro rfl
      exact ⟨⟨11, true, false, [97]⟩, mem_cons_self, rfl, rfl, rfl⟩
    · rintro ⟨entry, listed, -, -, isNumber⟩
      simp only [mem_cons, not_mem_nil, or_false] at listed
      rcases listed with rfl | rfl <;> (cases isNumber; rfl)
  have shared : sharedDirectory.Recorded 11 := by
    refine ⟨_, 1, rfl, rfl, fun child => ?_⟩
    change child ∈ (∅ : Finset ℕ) ↔ _
    simp
  have noMore : dirsAt sharedDirectory.children 10 2 = [] := rfl
  refine ⟨fun level dir isDir => ?_, 2, noMore⟩
  match level with
  | 0 =>
    rw [mem_singleton.mp isDir]
    exact root
  | 1 =>
    have isShared : dir.2 = 11 := by
      have listed : dir ∈ [([97], 11), ([98], 11)] := isDir
      simp only [mem_cons, not_mem_nil, or_false] at listed
      rcases listed with rfl | rfl <;> rfl
    rw [isShared]
    exact shared
  | level + 2 =>
    rw [dirsAt_eq_nil noMore (by omega)] at isDir
    cases isDir

theorem tree_complete_or_truncated_shared : ∃ rounds walk,
    sharedDirectory.tree rounds 10 3 = some (.ok walk) ∧
      (walk.truncated = true →
        walk.levels.flatten = (breadthFirst sharedDirectory.children 10 2).take 3) := by
  rcases tree_complete_or_truncated sharedDirectory numbered_sharedDirectory
    (show sharedDirectory.rootTree 10 = .ok 10 from rfl) stored_sharedDirectory 3 with
    ⟨enough, ends⟩
  rcases ends enough le_rfl with ⟨walk, isWalk, -, cut, -⟩
  exact ⟨enough, walk, isWalk, fun truncated => (cut truncated 2 (by decide)).1⟩

end TreeStorage

end Enroute
