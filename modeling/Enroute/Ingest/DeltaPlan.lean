import Enroute.Graph.Diff
import Enroute.Ingest.Wire

/-!
# What the pack of a commit stores

The pack of a commit has an entry for each object the commit's tree has and the tree of its first
parent does not: the root tree first, then the other trees, then the blobs. An entry says what it is
encoded against and where its bytes come from.
-/

namespace Enroute

open List

inductive EntrySource where
  /-- The client's own bytes. -/
  | wire (at_ : WireRef)
  /-- Produced by this push and staged, or already stored. -/
  | encoded
  deriving DecidableEq, Repr

structure DeltaEntry where
  oid : ObjectId
  kind : Kind
  /-- The version the entry deltas against, or nothing when it is stored whole. -/
  base : Option ObjectId
  source : EntrySource
  deriving DecidableEq, Repr

structure DeltaEntry.InWidth (entry : DeltaEntry) : Prop where
  oid : entry.oid < 2 ^ 160
  base : ∀ base, entry.base = some base → base < 2 ^ 160

def sortChanges : List Change → List ObjectId → List DeltaEntry × List DeltaEntry
  | [], _ => ([], [])
  | change :: changes, seen =>
    if change.new ∈ seen then sortChanges changes seen
    else
      let entry : DeltaEntry := ⟨change.new, change.kind, change.old, .encoded⟩
      let (trees, blobs) := sortChanges changes (change.new :: seen)
      if change.kind = .tree then (entry :: trees, blobs) else (trees, entry :: blobs)

/-- Turn a diff into entries: the root tree first, then trees, then blobs. A diff does not name the
roots themselves, and one object may stand at several changed paths. -/
def orderEntries (rootTree : ObjectId) (baseRoot : Option ObjectId) (changes : List Change) :
    List DeltaEntry :=
  if changes.isEmpty && baseRoot == some rootTree then []
  else
    let (trees, blobs) := sortChanges changes [rootTree]
    ⟨rootTree, .tree, baseRoot, .encoded⟩ :: trees ++ blobs

def TreesFirst (entries : List DeltaEntry) : Prop :=
  ∃ trees others, entries = trees ++ others ∧ (∀ entry ∈ trees, entry.kind = .tree) ∧
    ∀ entry ∈ others, entry.kind ≠ .tree

theorem treesFirst_nil : TreesFirst [] :=
  ⟨[], [], rfl, by simp, by simp⟩

def Change.entry (change : Change) : DeltaEntry :=
  ⟨change.new, change.kind, change.old, .encoded⟩

theorem sortChanges_eq (changes : List Change) (seen : List ObjectId) :
    sortChanges changes seen =
      (((Stream.keepFirst Change.new seen changes).map Change.entry).filter (·.kind = .tree),
        ((Stream.keepFirst Change.new seen changes).map Change.entry).filter
          fun entry => !decide (entry.kind = .tree)) := by
  induction changes generalizing seen with
  | nil => rfl
  | cons change changes ih =>
    rw [sortChanges, Stream.keepFirst]
    split_ifs with isSeen isTree
    · exact ih seen
    · simp [ih, Change.entry, isTree]
    · simp [ih, Change.entry, isTree]

theorem treesFirst_orderEntries (rootTree : ObjectId) (baseRoot : Option ObjectId)
    (changes : List Change) : TreesFirst (orderEntries rootTree baseRoot changes) := by
  rw [orderEntries, sortChanges_eq]
  split_ifs
  · exact treesFirst_nil
  · exact ⟨_ :: _, _, rfl, by simp, by simp⟩

theorem perm_orderEntries (rootTree : ObjectId) (baseRoot : Option ObjectId)
    (changes : List Change) : (orderEntries rootTree baseRoot changes).Perm
      (if changes = [] ∧ baseRoot = some rootTree then []
        else ⟨rootTree, .tree, baseRoot, .encoded⟩ ::
          (Stream.keepFirst Change.new [rootTree] changes).map Change.entry) := by
  rw [orderEntries, sortChanges_eq]
  simp only [Bool.and_eq_true, List.isEmpty_iff, beq_iff_eq]
  split_ifs
  · rfl
  · exact (filter_append_perm _ _).cons _

theorem nodup_orderEntries (rootTree : ObjectId) (baseRoot : Option ObjectId)
    (changes : List Change) :
    ((orderEntries rootTree baseRoot changes).map DeltaEntry.oid).Nodup := by
  rw [((perm_orderEntries rootTree baseRoot changes).map _).nodup_iff]
  split_ifs
  · exact nodup_nil
  · rw [map_cons, map_map]
    refine nodup_cons.mpr ⟨fun again => ?_, Stream.keepFirst_nodup [rootTree] changes⟩
    exact (Stream.mem_map_keepFirst.mp again).1 mem_cons_self

/-- The pack of a commit has the root tree and what changed, each object once and trees first. It is
empty if nothing changed. -/
theorem orderEntries_exact (rootTree : ObjectId) (baseRoot : Option ObjectId)
    (changes : List Change) :
    TreesFirst (orderEntries rootTree baseRoot changes) ∧
      ((orderEntries rootTree baseRoot changes).map DeltaEntry.oid).Nodup ∧
      ∀ oid, oid ∈ (orderEntries rootTree baseRoot changes).map DeltaEntry.oid ↔
        ¬(changes = [] ∧ baseRoot = some rootTree) ∧
          (oid = rootTree ∨ oid ∈ changes.map Change.new) := by
  refine ⟨treesFirst_orderEntries _ _ _, nodup_orderEntries _ _ _, fun oid => ?_⟩
  rw [((perm_orderEntries _ _ _).map _).mem_iff]
  split_ifs with nothing
  · simp [nothing]
  · rw [map_cons, map_map, mem_cons]
    change _ ∨ oid ∈ map Change.new _ ↔ _
    rw [Stream.mem_map_keepFirst]
    by_cases isRoot : oid = rootTree <;> simp [isRoot, nothing]

end Enroute
