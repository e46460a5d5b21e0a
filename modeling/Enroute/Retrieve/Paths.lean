import Enroute.Graph.Listing

/-!
# Paths under a tree, level by level

The breadth-first listing of a tree: the levels in order, and in a level the entries of one
directory after another, in the order of the directories. Gitlinks have no path. Where names are
distinct and have no slash, a level holds what the recursive listing has at its depth, each path
once.
-/

namespace Enroute

open Diff List

structure TreeItem where
  /-- The path from the root of the walk. -/
  path : Bytes
  oid : ObjectId
  isTree : Bool
  deriving DecidableEq, Repr

def TreeItem.kind (item : TreeItem) : Kind :=
  if item.isTree then .tree else .blob

/-- One entry under its walk-rooted path. A gitlink has none: it names a commit in a repository
this one does not have. -/
def treeItem (lead : Bytes) (child : TreeChild) : Option TreeItem :=
  if child.isCommit then none
  else some ⟨joinPath lead child.name, child.oid, child.isTree⟩

def directories (items : List TreeItem) : List (Bytes × ObjectId) :=
  (items.filter TreeItem.isTree).map fun item => (item.path, item.oid)

def itemsIn (read : TreeReader) (level : List (Bytes × ObjectId)) : List TreeItem :=
  level.flatMap fun dir => (entriesOf read (some dir.2)).filterMap (treeItem dir.1)

def dirsAt (world : TreeReader) (root : ObjectId) : ℕ → List (Bytes × ObjectId)
  | 0 => [([], root)]
  | level + 1 => directories (itemsIn world (dirsAt world root level))

def pathsAt (world : TreeReader) (root : ObjectId) (level : ℕ) : List TreeItem :=
  itemsIn world (dirsAt world root level)

def breadthFirst (world : TreeReader) (root : ObjectId) (levels : ℕ) : List TreeItem :=
  (List.range levels).flatMap (pathsAt world root)

variable {world : TreeReader} {root : ObjectId} {level : ℕ}

theorem dirsAt_succ : dirsAt world root (level + 1) = directories (pathsAt world root level) :=
  rfl

theorem mem_directories {items : List TreeItem} {path : Bytes} {oid : ObjectId} :
    (path, oid) ∈ directories items ↔ ⟨path, oid, true⟩ ∈ items := by
  rw [directories, mem_map]
  constructor
  · rintro ⟨⟨_, _, isTree⟩, listed, same⟩
    rcases mem_filter.mp listed with ⟨listed, rfl⟩
    cases same
    exact listed
  · exact fun listed => ⟨_, mem_filter.mpr ⟨listed, rfl⟩, rfl⟩

variable {item : TreeItem} {deeper : ℕ} {name : Bytes} {names : List Bytes} {child : TreeChild}

theorem mem_itemsIn {dirs : List (Bytes × ObjectId)} :
    item ∈ itemsIn world dirs ↔ ∃ dir ∈ dirs, ∃ child ∈ entriesOf world (some dir.2),
      child.isCommit = false ∧ item = ⟨joinPath dir.1 child.name, child.oid, child.isTree⟩ := by
  rw [itemsIn, mem_flatMap]
  refine exists_congr fun dir => and_congr_right fun _ => ?_
  rw [mem_filterMap]
  refine exists_congr fun child => and_congr_right fun _ => ?_
  rw [treeItem, Option.ite_none_left_eq_some, Bool.not_eq_true, Option.some.injEq,
    eq_comm (b := item)]

theorem pathsAt_of_dirsAt_eq_nil (none_ : dirsAt world root level = []) :
    pathsAt world root level = [] := by
  rw [pathsAt, none_]
  rfl

theorem dirsAt_eq_nil (none_ : dirsAt world root level = []) (le : level ≤ deeper) :
    dirsAt world root deeper = [] := by
  induction deeper, le using Nat.le_induction with
  | base => exact none_
  | succ deeper _ ih =>
    rw [dirsAt_succ, pathsAt_of_dirsAt_eq_nil ih]
    rfl

theorem pathsAt_eq_nil (none_ : pathsAt world root level = []) (le : level ≤ deeper) :
    pathsAt world root deeper = [] := by
  have noDirs : dirsAt world root (level + 1) = [] := by
    rw [dirsAt_succ, none_]
    rfl
  rcases Nat.eq_or_lt_of_le le with rfl | below
  · exact none_
  · exact pathsAt_of_dirsAt_eq_nil (dirsAt_eq_nil noDirs below)

theorem breadthFirst_succ :
    breadthFirst world root (level + 1) =
      breadthFirst world root level ++ pathsAt world root level := by
  rw [breadthFirst, range_succ, flatMap_append, flatMap_singleton, breadthFirst]

theorem breadthFirst_mono (le : level ≤ deeper) :
    breadthFirst world root level <+: breadthFirst world root deeper := by
  induction deeper, le using Nat.le_induction with
  | base => exact prefix_rfl
  | succ deeper _ ih =>
    rw [breadthFirst_succ]
    exact ih.trans (prefix_append _ _)

/-! ## What a level holds -/

/-- Every directory under the root has entries with distinct names, none of them empty or with a
slash. -/
def AllWellNamed (world : TreeReader) (root : ObjectId) : Prop :=
  ∀ level, ∀ dir ∈ dirsAt world root level, WellNamed (entriesOf world (some dir.2))

theorem entryAt_concat {side : Option ObjectId} :
    entryAt world side (names ++ [name]) = entryIn world (treeAt world side names) name := by
  rw [entryAt_append names (cons_ne_nil name [])]
  rfl

theorem treeAt_concat {side : Option ObjectId} :
    treeAt world side (names ++ [name]) = treeOf (entryAt world side (names ++ [name])) := by
  rw [treeAt_append, entryAt_concat]
  rfl

theorem WellNamed.entryIn_eq_some {dir : ObjectId}
    (wellNamed : WellNamed (entriesOf world (some dir)))
    (listed : child ∈ entriesOf world (some dir)) (notCommit : child.isCommit = false) :
    entryIn world (some dir) child.name = some child := by
  refine find?_of_mem ((filter_sublist.map TreeChild.name).nodup wellNamed.distinct) ?_
  exact mem_filter.mpr ⟨listed, by rw [notCommit]; rfl⟩

section

variable (wellNamed : AllWellNamed world root)

include wellNamed

theorem components_of_mem {dir : Bytes × ObjectId} (isDir : dir ∈ dirsAt world root level)
    (listed : child ∈ entriesOf world (some dir.2)) :
    components (joinPath dir.1 child.name) = components dir.1 ++ [child.name] :=
  have named := wellNamed level dir isDir
  components_joinPath (named.nonempty child listed) (named.slashFree child listed)

theorem entryAt_of_pathsAt
    (isTree : ∀ dir ∈ dirsAt world root level, (components dir.1).length = level ∧ treeAt world
      (some root) (components dir.1) = some dir.2) (isPath : item ∈ pathsAt world root level) :
    (components item.path).length = level + 1 ∧
      ∃ child, entryAt world (some root) (components item.path) = some child ∧
        child.oid = item.oid ∧ child.isTree = item.isTree := by
  rcases mem_itemsIn.mp isPath with ⟨dir, isDir, child, listed, notCommit, rfl⟩
  rcases isTree dir isDir with ⟨depth, isTree⟩
  rw [components_of_mem wellNamed isDir listed, length_append, depth, entryAt_concat, isTree]
  exact ⟨rfl, child, (wellNamed level dir isDir).entryIn_eq_some listed notCommit, rfl, rfl⟩

theorem treeAt_of_dirsAt (level : ℕ) :
    ∀ dir ∈ dirsAt world root level, (components dir.1).length = level ∧
      treeAt world (some root) (components dir.1) = some dir.2 := by
  induction level with
  | zero =>
    intro dir isDir
    rw [dirsAt, mem_singleton] at isDir
    rw [isDir]
    exact ⟨rfl, rfl⟩
  | succ level ih =>
    rintro ⟨path, oid⟩ isDir
    rw [dirsAt_succ, mem_directories] at isDir
    rcases entryAt_of_pathsAt wellNamed ih isDir with ⟨depth, child, isEntry, isOid, isTree⟩
    refine ⟨depth, ?_⟩
    rcases eq_nil_or_concat (components path) with none_ | ⟨names, name, isPath⟩
    · rw [none_] at depth
      cases depth
    · rw [concat_eq_append] at isPath
      dsimp only at isEntry isOid isTree ⊢
      rw [isPath] at isEntry ⊢
      rw [treeAt_concat, isEntry, treeOf, Option.filter_some, isTree, if_pos rfl, Option.map_some,
        isOid]

/-- What stands at the end of some names is on the level of its depth, if the directory it stands in
is. -/
theorem pathsAt_of_entryAt
    (isDir : ∀ oid, treeAt world (some root) names = some oid → ∃ path, components path = names ∧
      (path, oid) ∈ dirsAt world root names.length)
    (isEntry : entryAt world (some root) (names ++ [name]) = some child) :
    ∃ path, components path = names ++ [name] ∧
      ⟨path, child.oid, child.isTree⟩ ∈ pathsAt world root names.length := by
  rw [entryAt_concat] at isEntry
  rcases name_of_entryNamed isEntry with ⟨listed, notCommit, rfl⟩
  rcases isTree : treeAt world (some root) names with _ | oid
  · rw [isTree] at listed
    cases listed
  · rw [isTree] at listed
    rcases isDir oid isTree with ⟨lead, isLead, isLevel⟩
    refine ⟨joinPath lead child.name, ?_, ?_⟩
    · rw [← isLead]
      exact components_of_mem wellNamed isLevel listed
    · exact mem_itemsIn.mpr ⟨_, isLevel, child, listed, notCommit, rfl⟩

theorem dirsAt_of_treeAt (names : List Bytes) :
    ∀ oid, treeAt world (some root) names = some oid →
      ∃ path, components path = names ∧ (path, oid) ∈ dirsAt world root names.length := by
  induction names using List.reverseRecOn with
  | nil =>
    intro oid isRoot
    cases isRoot
    exact ⟨[], rfl, mem_singleton_self _⟩
  | append_singleton names name ih =>
    intro oid isTree
    rw [treeAt_concat] at isTree
    rcases exists_of_treeOf isTree with ⟨child, isEntry, marked, rfl⟩
    rcases pathsAt_of_entryAt wellNamed ih isEntry with ⟨path, isPath, listed⟩
    refine ⟨path, isPath, ?_⟩
    rw [length_append, length_singleton, dirsAt_succ, mem_directories, ← marked]
    exact listed

theorem mem_pathsAt :
    item ∈ pathsAt world root level ↔ (components item.path).length = level + 1 ∧
      listing world (some root) item.path = some (item.kind, item.oid) := by
  have sameKind : ∀ child : TreeChild, child.kind = item.kind ↔ child.isTree = item.isTree := by
    intro child
    cases isTree : child.isTree <;> cases otherTree : item.isTree <;>
      simp [TreeChild.kind, TreeItem.kind, isTree, otherTree]
  constructor
  · intro isPath
    rcases entryAt_of_pathsAt wellNamed (treeAt_of_dirsAt wellNamed level) isPath with
      ⟨depth, child, isEntry, isOid, isTree⟩
    refine ⟨depth, ?_⟩
    rw [listing, isEntry, Option.map_some, isOid, (sameKind child).mpr isTree]
  · rintro ⟨depth, isListed⟩
    rw [listing, Option.map_eq_some_iff] at isListed
    rcases isListed with ⟨child, isEntry, same⟩
    rcases Prod.mk.inj same with ⟨isKind, isOid⟩
    rcases eq_nil_or_concat (components item.path) with none_ | ⟨names, name, isPath⟩
    · rw [none_] at depth
      cases depth
    · rw [concat_eq_append] at isPath
      rw [isPath] at isEntry depth
      rcases pathsAt_of_entryAt wellNamed (dirsAt_of_treeAt wellNamed names) isEntry with
        ⟨path, isThis, listed⟩
      have isLevel : names.length = level := by simpa using depth
      have samePath : path = item.path := components_injective (isThis.trans isPath.symm)
      rw [isLevel, samePath, isOid, (sameKind child).mp isKind] at listed
      exact listed

end

/-! ## Each path once -/

theorem paths_filterMap_treeItem (lead : Bytes) (entries : List TreeChild) :
    (entries.filterMap (treeItem lead)).map TreeItem.path =
      (entries.filter fun child => !child.isCommit).map fun child => joinPath lead child.name := by
  induction entries with
  | nil => rfl
  | cons child entries ih =>
    cases isCommit : child.isCommit <;> simp [treeItem, isCommit, ih]

theorem nodup_itemsIn (wellNamed : AllWellNamed world root)
    (distinct : ((dirsAt world root level).map Prod.fst).Nodup) :
    ((pathsAt world root level).map TreeItem.path).Nodup := by
  rw [pathsAt, itemsIn, map_flatMap, nodup_flatMap]
  refine ⟨fun dir isDir => ?_, ?_⟩
  · rw [paths_filterMap_treeItem, ← Function.comp_def (joinPath dir.1), ← map_map]
    exact ((filter_sublist.map TreeChild.name).nodup (wellNamed level dir isDir).distinct).map
      (joinPath_injective dir.1)
  · refine (pairwise_map.mp distinct).imp_of_mem fun {first second} isFirst isSecond apart => ?_
    rw [Function.onFun, paths_filterMap_treeItem, paths_filterMap_treeItem]
    intro path inFirst inSecond
    rcases mem_map.mp inFirst with ⟨child, listed, rfl⟩
    rcases mem_map.mp inSecond with ⟨other, otherListed, same⟩
    have names := congrArg components same
    rw [components_of_mem wellNamed isFirst (mem_of_mem_filter listed),
      components_of_mem wellNamed isSecond (mem_of_mem_filter otherListed)] at names
    exact apart (components_injective (append_inj_left' names rfl)).symm

theorem nodup_dirsAt (wellNamed : AllWellNamed world root) (level : ℕ) :
    ((dirsAt world root level).map Prod.fst).Nodup := by
  induction level with
  | zero => exact nodup_singleton _
  | succ level ih =>
    rw [dirsAt_succ, directories, map_map]
    exact (filter_sublist.map TreeItem.path).nodup (nodup_itemsIn wellNamed ih)

theorem nodup_breadthFirst (wellNamed : AllWellNamed world root) (levels : ℕ) :
    ((breadthFirst world root levels).map TreeItem.path).Nodup := by
  rw [breadthFirst, map_flatMap, nodup_flatMap]
  refine ⟨fun level _ => nodup_itemsIn wellNamed (nodup_dirsAt wellNamed level), ?_⟩
  refine nodup_range.imp fun {first second} apart path inFirst inSecond => apart ?_
  rcases mem_map.mp inFirst with ⟨item, isFirst, rfl⟩
  rcases mem_map.mp inSecond with ⟨other, isSecond, same⟩
  have depth := ((mem_pathsAt wellNamed).mp isFirst).1
  have otherDepth := ((mem_pathsAt wellNamed).mp isSecond).1
  rw [same, depth] at otherDepth
  exact Nat.succ.inj otherDepth

end Enroute
