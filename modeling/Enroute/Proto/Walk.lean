import Enroute.GraphStore.DepthWalk
import Enroute.Objects.Read

/-!
# What a fetch needs

The two halves of a walk meet here. The commit graph answers which commits to send, the object
index closes the root trees of a new shallow boundary: those snapshots are sent whole, since
their history is not.
-/

namespace Enroute

structure ShallowNeeded where
  needed : NeededCommits
  /-- Boundary objects not covered by `needed`, with their places. -/
  backfill : List (ObjectId × ObjectMeta)
  /-- Every object of the boundary snapshots. -/
  backfillSeqs : ObjectSeqs
  shallow : List ObjectId
  unshallow : List ObjectId

namespace ShallowNeeded

instance : EmptyCollection ShallowNeeded := ⟨⟨∅, [], ∅, [], []⟩⟩

def contains (walked : ShallowNeeded) (seq : ObjectSeq) : Bool :=
  walked.needed.contains seq || walked.backfillSeqs.contains seq

theorem contains_tree {walked : ShallowNeeded} {seq : ℕ} :
    walked.contains (.tree seq) = true ↔
      seq ∈ walked.needed.trees ∨ seq ∈ walked.backfillSeqs.trees := by
  rw [contains, Bool.or_eq_true, NeededCommits.contains_tree, ObjectSeqs.contains_tree]

theorem contains_blob {walked : ShallowNeeded} {seq : ℕ} :
    walked.contains (.blob seq) = true ↔
      seq ∈ walked.needed.blobs ∨ seq ∈ walked.backfillSeqs.blobs := by
  rw [contains, Bool.or_eq_true, NeededCommits.contains_blob, ObjectSeqs.contains_blob]

end ShallowNeeded

namespace RepoGraph

/-- The numbers of some commits, each once; an oid that was never numbered is dropped. -/
def resolve (graph : RepoGraph) (oids : List ObjectId) : List ℕ :=
  (oids.filterMap graph.seqOf).eraseDups

theorem mem_resolve {graph : RepoGraph} {oids : List ObjectId} {seq : ℕ} :
    seq ∈ graph.resolve oids ↔ ∃ oid ∈ oids, graph.seqOf oid = some seq := by
  rw [resolve, List.mem_eraseDups, List.mem_filterMap]

def resolveSeeds (graph : RepoGraph) (wants haves clientShallow : List ObjectId) : WalkSeeds where
  wants := graph.resolve wants
  haves := graph.resolve haves
  shallow := graph.resolve clientShallow

def plain (graph : RepoGraph) (wants haves clientShallow : List ObjectId) :
    Except String NeededCommits :=
  if wants.isEmpty then .ok ∅
  else graph.neededCommits (graph.resolveSeeds wants haves clientShallow) .production

def backfillOf (objects : RepoObjects) (needed : NeededCommits) (closure : ObjectSeqs) :
    List (ObjectId × ObjectMeta) :=
  objects.locationsBySeq (closure.iter.filter fun seq => !needed.contains seq)

def shallow (graph : RepoGraph) (objects : RepoObjects)
    (wants haves clientShallow : List ObjectId) (depth : ℕ) : Except String ShallowNeeded :=
  if 2 ^ 63 ≤ depth then .error "deepen depth out of range"
  else do
    let walked ← graph.neededCommitsShallow (graph.resolveSeeds wants haves clientShallow) depth
      .production
    let closure := if walked.boundaryRoots.isEmpty then ∅
      else objects.treeClosure walked.boundaryRoots
    return {
      needed := walked.needed
      backfill := if walked.boundaryRoots.isEmpty then []
        else backfillOf objects walked.needed closure
      backfillSeqs := closure
      shallow := walked.shallow
      unshallow := walked.unshallow }

def needed (graph : RepoGraph) (objects : RepoObjects) (wants haves clientShallow : List ObjectId)
    (deepen : Option ℕ) : Except String ShallowNeeded :=
  match deepen with
  | some depth => graph.shallow objects wants haves clientShallow depth
  | none => do
      let needed ← graph.plain wants haves clientShallow
      return { (∅ : ShallowNeeded) with needed }

end RepoGraph

theorem mem_backfillOf {objects : RepoObjects} {needed : NeededCommits} {closure : ObjectSeqs}
    {entry : ObjectId × ObjectMeta} :
    entry ∈ RepoGraph.backfillOf objects needed closure ↔
      ∃ kind seq, (kind = .tree ∧ seq ∈ closure.trees ∧ seq ∉ needed.trees ∨
          kind = .blob ∧ seq ∈ closure.blobs ∧ seq ∉ needed.blobs) ∧
        objects.oidOf kind seq = some entry.1 ∧ entry.2 = objects.assemble { kind, seq } := by
  rcases entry with ⟨oid, found⟩
  simp only [RepoGraph.backfillOf, RepoObjects.locationsBySeq, List.flatMap_cons,
    List.flatMap_nil, List.append_nil, List.mem_append, List.mem_filterMap, Shelf.shelved,
    Shelf.kind, List.mem_filter, ObjectSeqs.mem_iter]
  constructor
  · rintro (⟨seq, ⟨object, ⟨inside, outside⟩, picked⟩, named⟩ |
      ⟨seq, ⟨object, ⟨inside, outside⟩, picked⟩, named⟩)
    · cases object with
      | tree number =>
        cases picked
        rcases Option.map_eq_some_iff.mp named with ⟨other, found, same⟩
        cases same
        exact ⟨.tree, seq, Or.inl ⟨rfl, by simpa using inside, by simpa using outside⟩, found,
          rfl⟩
      | blob number => cases picked
      | tag number => cases picked
    · cases object with
      | tree number => cases picked
      | blob number =>
        cases picked
        rcases Option.map_eq_some_iff.mp named with ⟨other, found, same⟩
        cases same
        exact ⟨.blob, seq, Or.inr ⟨rfl, by simpa using inside, by simpa using outside⟩, found,
          rfl⟩
      | tag number => cases picked
  · rintro ⟨kind, seq, ⟨rfl, inside, outside⟩ | ⟨rfl, inside, outside⟩, named, rfl⟩
    · refine Or.inl ⟨seq, ⟨.tree seq, ⟨by simpa using inside, ?_⟩, rfl⟩, by rw [named]; rfl⟩
      simpa using outside
    · refine Or.inr ⟨seq, ⟨.blob seq, ⟨by simpa using inside, ?_⟩, rfl⟩, by rw [named]; rfl⟩
      simpa using outside

end Enroute
