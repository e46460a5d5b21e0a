import Enroute.Core.Object

/-!
# The commit graph as readers see it

Two indexes over commit numbers, one with the parents and the root tree of each commit and one
with its pack: where the image is and which trees and blobs it stores. Numbers are `i64` in the
source and never negative, so they are natural numbers here. A roaring bitmap is a `Finset`.
-/

namespace Enroute

/-- A set of objects, held apart by the space each kind is counted in. -/
structure ObjectSeqs where
  trees : Finset ℕ
  blobs : Finset ℕ
  deriving DecidableEq

namespace ObjectSeqs

instance : EmptyCollection ObjectSeqs := ⟨⟨∅, ∅⟩⟩

instance : Inhabited ObjectSeqs := ⟨∅⟩

/-- Whether a number is in the set, asked in the space it belongs to; a tag never is. -/
def contains (seqs : ObjectSeqs) : ObjectSeq → Bool
  | .tree seq => seq ∈ seqs.trees
  | .blob seq => seq ∈ seqs.blobs
  | .tag _ => false

variable {seqs : ObjectSeqs}

@[simp]
theorem contains_tree {seq : ℕ} : seqs.contains (.tree seq) = true ↔ seq ∈ seqs.trees :=
  decide_eq_true_iff

@[simp]
theorem contains_blob {seq : ℕ} : seqs.contains (.blob seq) = true ↔ seq ∈ seqs.blobs :=
  decide_eq_true_iff

def absorb (seqs other : ObjectSeqs) : ObjectSeqs :=
  { trees := seqs.trees ∪ other.trees, blobs := seqs.blobs ∪ other.blobs }

def iter (seqs : ObjectSeqs) : List ObjectSeq :=
  (seqs.trees.sort (· ≤ ·)).map .tree ++ (seqs.blobs.sort (· ≤ ·)).map .blob

def isEmpty (seqs : ObjectSeqs) : Bool :=
  seqs.trees = ∅ && seqs.blobs = ∅

theorem mem_iter {seq : ObjectSeq} : seq ∈ seqs.iter ↔ seqs.contains seq = true := by
  cases seq <;> simp [iter, contains]

theorem iter_empty : (∅ : ObjectSeqs).iter = [] := by
  refine List.eq_nil_iff_forall_not_mem.mpr fun seq listed => ?_
  rw [mem_iter] at listed
  cases seq with
  | tree seq => exact absurd (contains_tree.mp listed) (Finset.notMem_empty seq)
  | blob seq => exact absurd (contains_blob.mp listed) (Finset.notMem_empty seq)
  | tag seq => cases listed

theorem iter_nodup (seqs : ObjectSeqs) : seqs.iter.Nodup := by
  rw [iter, List.nodup_append]
  refine ⟨?_, ?_, ?_⟩
  · exact (seqs.trees.sort_nodup _).map fun _ _ same => ObjectSeq.tree.inj same
  · exact (seqs.blobs.sort_nodup _).map fun _ _ same => ObjectSeq.blob.inj same
  · rintro left leftMem right rightMem rfl
    simp only [List.mem_map] at leftMem rightMem
    rcases leftMem with ⟨_, _, rfl⟩
    rcases rightMem with ⟨_, _, different⟩
    cases different

end ObjectSeqs

structure CommitEntry where
  parents : List ℕ
  rootTree : ℕ
  deriving DecidableEq, Repr

abbrev CommitIndex := AList fun _ : ℕ => CommitEntry

structure PackFacts where
  /-- The span of the commit's own entry. -/
  entryLen : ℕ
  /-- Where the blobs of the image begin. -/
  blobOffset : ℕ
  segment : SegmentLocation
  trees : Finset ℕ
  blobs : Finset ℕ
  deriving DecidableEq

def PackFacts.holds (pack : PackFacts) : ObjectSeqs :=
  { trees := pack.trees, blobs := pack.blobs }

namespace CommitIndex

def parents (index : CommitIndex) (seq : ℕ) : List ℕ :=
  match index.lookup seq with
  | some entry => entry.parents
  | none => []

def SeqMonotone (index : CommitIndex) : Prop :=
  ∀ seq, ∀ parent ∈ index.parents seq, parent < seq

def ParentClosed (index : CommitIndex) : Prop :=
  ∀ seq, ∀ parent ∈ index.parents seq, parent ∈ index.keys

variable {index : CommitIndex}

theorem exists_entry_of_mem_parents {seq parent : ℕ} (isParent : parent ∈ index.parents seq) :
    ∃ entry ∈ index.entries, entry.1 = seq ∧ parent ∈ entry.2.parents := by
  rw [parents] at isParent
  cases found : index.lookup seq with
  | none =>
    rw [found] at isParent
    cases isParent
  | some entry =>
    rw [found] at isParent
    exact ⟨⟨seq, entry⟩, AList.mem_lookup_iff.mp found, rfl, isParent⟩

theorem seqMonotone_of_entries
    (ascending : ∀ entry ∈ index.entries, ∀ parent ∈ entry.2.parents, parent < entry.1) :
    index.SeqMonotone := by
  intro seq parent isParent
  rcases exists_entry_of_mem_parents isParent with ⟨entry, entryMem, rfl, inEntry⟩
  exact ascending entry entryMem parent inEntry

theorem parentClosed_of_entries
    (closed : ∀ entry ∈ index.entries, ∀ parent ∈ entry.2.parents, parent ∈ index.keys) :
    index.ParentClosed := by
  intro seq parent isParent
  rcases exists_entry_of_mem_parents isParent with ⟨entry, entryMem, rfl, inEntry⟩
  exact closed entry entryMem parent inEntry

end CommitIndex

/-- The commit graph of one repository: both indexes and the numbering of commits. -/
structure RepoGraph where
  index : CommitIndex
  packs : ℕ → Option PackFacts
  seqOf : ObjectId → Option ℕ
  oidOf : ℕ → Option ObjectId

/-- A recorded history: parents are recorded below their children, every recorded commit has its
pack and its oid, and commits and numbers correspond one to one. -/
structure RepoGraph.Recorded (graph : RepoGraph) : Prop where
  monotone : graph.index.SeqMonotone
  closed : graph.index.ParentClosed
  packed : ∀ seq ∈ graph.index.keys, ∃ pack, graph.packs seq = some pack
  named : ∀ seq ∈ graph.index.keys, ∃ oid, graph.oidOf seq = some oid
  numbered : ∀ oid seq, graph.seqOf oid = some seq ↔ graph.oidOf seq = some oid

end Enroute
