import Enroute.Proto.Walk

/-!
# What a repository holds, as readers see it

The identity table, both halves of the index, the loose tags and the pack images. A pack image
is its header count and its entries in order. What decoding a tag's bytes gives stands for the
bytes, and whether a delta can be rebuilt is left to the storage.
-/

namespace Enroute

structure ImageEntry where
  oid : ObjectId
  kind : Kind
  base : Option ObjectId
  /-- The header and the body together. -/
  length : ℕ
  deriving DecidableEq, Repr

structure PackImage where
  /-- What the header of the image declares. -/
  objectCount : ℕ
  entries : List ImageEntry
  deriving DecidableEq, Repr

def commitPackHeaderSize : ℕ := 12

namespace PackImage

def findAt : ℕ → List ImageEntry → ℕ → Option ImageEntry
  | _, [], _ => none
  | start, entry :: entries, offset =>
    if start = offset then some entry else findAt (start + entry.length) entries offset

def entryAt (image : PackImage) (offset : ℕ) : Option ImageEntry :=
  findAt commitPackHeaderSize image.entries offset

end PackImage

structure Storage where
  index : CommitIndex
  packs : ℕ → Option PackFacts
  trees : ObjectIndex
  blobs : ObjectIndex
  identities : ObjectId → Option Identity
  oidOf : Kind → ℕ → Option ObjectId
  tags : ObjectHashMap (Except String ObjectRefs)
  image : SegmentLocation → Option PackImage
  rebuild : ObjectId → Except String Unit

namespace Storage

def commitSeq (storage : Storage) (oid : ObjectId) : Option ℕ :=
  (storage.identities oid).bind fun identity =>
    if identity.kind = .commit then some identity.seq else none

def graph (storage : Storage) : RepoGraph where
  index := storage.index
  packs := storage.packs
  seqOf := storage.commitSeq
  oidOf := storage.oidOf .commit

def objects (storage : Storage) : RepoObjects where
  trees := storage.trees
  blobs := storage.blobs
  identities := storage.identities
  oidOf := storage.oidOf

def commitMeta (storage : Storage) (oid : ObjectId) (seq : ℕ) : ObjectMeta where
  kind := .commit
  location := (storage.packs seq).map fun pack => {
    image := {
      packSha := oid
      offset := commitPackHeaderSize
      entryLen := pack.entryLen
      base := none }
    segment := pack.segment }
  objectSeq := none

def metas (storage : Storage) (oid : ObjectId) : Option ObjectMeta :=
  (storage.identities oid).map fun identity =>
    if identity.kind = .commit then storage.commitMeta oid identity.seq
    else storage.objects.assemble identity

def Numbered (storage : Storage) : Prop :=
  ∀ oid kind seq, storage.oidOf kind seq = some oid ↔ storage.identities oid = some ⟨kind, seq⟩

theorem kind_of_metas {storage : Storage} {oid : ObjectId} {found : ObjectMeta}
    (known : storage.metas oid = some found) :
    ∃ identity, storage.identities oid = some identity ∧ found.kind = identity.kind ∧
      found.objectSeq = identity.numbered := by
  rcases Option.map_eq_some_iff.mp known with ⟨identity, named, rfl⟩
  refine ⟨identity, named, ?_⟩
  split
  next isCommit =>
    rw [Identity.numbered, isCommit]
    exact ⟨rfl, rfl⟩
  next => exact ⟨rfl, rfl⟩

end Storage

end Enroute
