import Enroute.Graph.DiffWalk

/-!
# What stands at a path

A recursive listing of a tree says what stands at each path under it, directories included and
gitlinks left out. Paths are taken apart at their slashes, which no name has, so a path under a tree
is told by the names on the way.
-/

namespace Enroute

open Diff List

def components (path : Bytes) : List Bytes :=
  if path = [] then [] else path.splitOn 47

theorem intercalate_components (path : Bytes) : [47].intercalate (components path) = path := by
  rw [components]
  split_ifs with empty
  · rw [empty]
    rfl
  · exact intercalate_splitOn 47

theorem components_injective : Function.Injective components := by
  intro first second same
  rw [← intercalate_components first, same, intercalate_components]

theorem joinPath_injective (lead : Bytes) : Function.Injective (joinPath lead) := by
  intro first second same
  simp only [joinPath] at same
  split_ifs at same
  · exact same
  · simpa using same

theorem components_joinPath {lead name : Bytes} (some_ : name ≠ []) (slashFree : 47 ∉ name) :
    components (joinPath lead name) = components lead ++ [name] := by
  have alone : name.splitOn 47 = [name] := by
    refine splitOnP_eq_singleton fun byte listed => ?_
    rw [beq_eq_false_iff_ne]
    exact fun same => slashFree (same ▸ listed)
  by_cases empty : lead = []
  · rw [joinPath, components, components, empty]
    simp [some_, alone]
  · have split : (lead ++ 47 :: name).splitOn 47 = lead.splitOn 47 ++ name.splitOn 47 :=
      splitOnP_append_cons _ _ (by simp)
    rw [joinPath, components, components]
    simp [empty, split, alone]

/-- Names that are distinct, and none of which is empty or has a slash. -/
structure WellNamed (entries : List TreeChild) : Prop where
  distinct : (entries.map TreeChild.name).Nodup
  nonempty : ∀ entry ∈ entries, entry.name ≠ []
  slashFree : ∀ entry ∈ entries, 47 ∉ entry.name

/-- A tree of at most so many levels, whose entries are well named and name trees where their modes
say so. -/
def FiniteWithin (world : TreeReader) : ℕ → ObjectId → Prop
  | 0, _ => False
  | depth + 1, oid => ∃ entries, world oid = some entries ∧ WellNamed entries ∧
      ∀ entry ∈ entries, entry.isCommit = false → entry.isTree = true →
        FiniteWithin world depth entry.oid

def FiniteTree (world : TreeReader) (oid : ObjectId) : Prop :=
  ∃ depth, FiniteWithin world depth oid

def entriesOf (world : TreeReader) (side : Option ObjectId) : List TreeChild :=
  (side.bind world).getD []

def entryIn (world : TreeReader) (side : Option ObjectId) (name : Bytes) : Option TreeChild :=
  entryNamed (entriesOf world side) name

def treeAt (world : TreeReader) (side : Option ObjectId) : List Bytes → Option ObjectId
  | [] => side
  | name :: names => treeAt world (treeOf (entryIn world side name)) names

def entryAt (world : TreeReader) (side : Option ObjectId) : List Bytes → Option TreeChild
  | [] => none
  | [name] => entryIn world side name
  | name :: names => entryAt world (treeOf (entryIn world side name)) names

abbrev Listing := Bytes → Option (Kind × ObjectId)

def listing (world : TreeReader) (side : Option ObjectId) : Listing := fun path =>
  (entryAt world side (components path)).map fun entry => (entry.kind, entry.oid)

variable {world : TreeReader} {side : Option ObjectId} {depth : ℕ}

theorem treeAt_append (names more : List Bytes) :
    treeAt world side (names ++ more) = treeAt world (treeAt world side names) more := by
  induction names generalizing side with
  | nil => rfl
  | cons name names ih => exact ih

theorem entryAt_append (names : List Bytes) {more : List Bytes} (some_ : more ≠ []) :
    entryAt world side (names ++ more) = entryAt world (treeAt world side names) more := by
  induction names generalizing side with
  | nil => rfl
  | cons name names ih =>
    have rest : names ++ more ≠ [] := append_ne_nil_of_right_ne_nil _ some_
    rcases exists_cons_of_ne_nil rest with ⟨next, others, isRest⟩
    rw [cons_append, treeAt, ← ih, isRest]
    rfl

def SideWithin (world : TreeReader) (depth : ℕ) (side : Option ObjectId) : Prop :=
  ∀ oid ∈ side, FiniteWithin world depth oid

theorem FiniteWithin.succ {oid : ObjectId} (within : FiniteWithin world depth oid) :
    FiniteWithin world (depth + 1) oid := by
  induction depth generalizing oid with
  | zero => cases within
  | succ depth ih =>
    rcases within with ⟨entries, isTree, named, under⟩
    exact ⟨entries, isTree, named, fun entry listed notCommit subtree =>
      ih (under entry listed notCommit subtree)⟩

theorem FiniteWithin.ne_none {oid : ObjectId} (within : FiniteWithin world depth oid) :
    world oid ≠ none := by
  cases depth with
  | zero => cases within
  | succ depth =>
    rcases within with ⟨entries, isTree, -⟩
    rw [isTree]
    exact Option.some_ne_none entries

theorem SideWithin.mono {more : ℕ} (within : SideWithin world depth side) (le : depth ≤ more) :
    SideWithin world more side := by
  intro oid isSide
  exact Nat.le_induction (within oid isSide) (fun _ _ finite => finite.succ) more le

theorem SideWithin.read (within : SideWithin world depth side) :
    readSide world side = some (entriesOf world side) ∧ WellNamed (entriesOf world side) := by
  cases side with
  | none => exact ⟨rfl, nodup_nil, forall_mem_nil _, forall_mem_nil _⟩
  | some oid =>
    cases depth with
    | zero => exact (within oid rfl).elim
    | succ depth =>
      rcases within oid rfl with ⟨entries, isTree, named, -⟩
      have isEntries : entriesOf world (some oid) = entries := by
        rw [entriesOf, Option.bind_some, isTree, Option.getD_some]
      rw [isEntries]
      exact ⟨isTree, named⟩

theorem SideWithin.none_of_zero (within : SideWithin world 0 side) : side = none :=
  Option.eq_none_iff_forall_not_mem.mpr within

theorem exists_of_treeOf {entry : Option TreeChild} {oid : ObjectId}
    (isTree : treeOf entry = some oid) :
    ∃ held, entry = some held ∧ held.isTree = true ∧ held.oid = oid := by
  rw [treeOf, Option.map_eq_some_iff] at isTree
  rcases isTree with ⟨held, kept, isOid⟩
  rw [Option.filter_eq_some_iff] at kept
  exact ⟨held, kept.1, kept.2, isOid⟩

theorem SideWithin.child (within : SideWithin world (depth + 1) side) (name : Bytes) :
    SideWithin world depth (treeOf (entryIn world side name)) := by
  intro oid isChild
  rcases exists_of_treeOf isChild with ⟨entry, isEntry, isTree, rfl⟩
  rcases name_of_entryNamed isEntry with ⟨listed, notCommit, -⟩
  cases side with
  | none => cases listed
  | some root =>
    rcases within root rfl with ⟨entries, isEntries, -, under⟩
    rw [entriesOf, Option.bind_some, isEntries, Option.getD_some] at listed
    exact under entry listed notCommit isTree

theorem SideWithin.treeAt (within : SideWithin world depth side) (names : List Bytes) :
    SideWithin world depth (treeAt world side names) := by
  induction names generalizing side with
  | nil => exact within
  | cons name names ih =>
    refine ih ?_
    cases depth with
    | zero =>
      rw [within.none_of_zero]
      exact fun oid isChild => nomatch isChild
    | succ depth => exact (within.child name).mono (Nat.le_succ depth)

theorem listing_eq_of_treeAt_eq {oldSide newSide : Option ObjectId} {path : Bytes}
    {names more : List Bytes} (isPath : components path = names ++ more) (some_ : more ≠ [])
    (same : treeAt world oldSide names = treeAt world newSide names) :
    listing world oldSide path = listing world newSide path := by
  rw [listing, listing, isPath, entryAt_append names some_, entryAt_append names some_, same]

theorem kind_eq_iff {first second : TreeChild} :
    first.kind = second.kind ↔ first.isTree = second.isTree := by
  cases isTree : first.isTree <;> cases otherTree : second.isTree <;>
    simp [TreeChild.kind, isTree, otherTree]

end Enroute
