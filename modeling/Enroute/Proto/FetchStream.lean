import Enroute.Proto.ResolveWants
import Enroute.Proto.FetchClosure

/-!
# What a fetch streams

Whatever the order of arrival, a stream that ends has delivered the loose objects of the plan
and what the filter leaves of each needed image, and it has written each oid once. The images
are read by an entry count taken from their bitmaps. That count saturates at thirty-two bits,
which never shows: a plan whose total does not fit is refused.
-/

namespace Enroute

open List Relation

theorem planRuns_perm (needed : List NeededCommit) (filter : Option PackFilter)
    (passDeltas : Bool) : (planRuns needed filter passDeltas).flatten.Perm needed := by
  rw [planRuns]
  split
  · rw [runsOf_flatten]
    exact perm_insertionSort _ needed
  · rw [← flatMap_def, flatMap_singleton']

theorem readEntries_eq_ok {limit count start : ℕ} {entries read : List ImageEntry}
    (reads : readEntries limit count start entries = .ok read) :
    read = entries.take count ∧ count ≤ entries.length := by
  induction count generalizing start entries read with
  | zero =>
    cases reads
    simp
  | succ count ih =>
    cases entries with
    | nil => cases reads
    | cons entry entries =>
      rw [readEntries] at reads
      split at reads
      · cases reads
      · rw [Except.bind_eq_ok_iff] at reads
        rcases reads with ⟨rest, readsRest, returned⟩
        cases returned
        rcases ih readsRest with ⟨rfl, enough⟩
        exact ⟨rfl, Nat.succ_le_succ enough⟩

namespace Storage

variable {storage : Storage} {filter : Option PackFilter} {passDeltas : Bool}

theorem entryBody_eq_ok {entry : ImageEntry} {sent : PackEntry}
    (formed : storage.entryBody passDeltas entry = .ok sent) : sent.oid = entry.oid := by
  rw [entryBody] at formed
  split at formed
  · cases formed
    rfl
  · split at formed
    · cases formed
      rfl
    · rw [Except.bind_eq_ok_iff] at formed
      rcases formed with ⟨-, -, returned⟩
      cases returned
      rfl

theorem fetchImage_eq_ok {commit : NeededCommit} {sent : List PackEntry}
    (fetched : storage.fetchImage filter passDeltas commit = .ok sent) :
    ∃ image, storage.image commit.segment = some image ∧
      sent.map PackEntry.oid =
        (image.entries.take (readPlan commit filter).2).map ImageEntry.oid := by
  rw [fetchImage] at fetched
  split at fetched
  next => cases fetched
  next image found =>
    split at fetched
    next => cases fetched
    next =>
      rw [Except.bind_eq_ok_iff] at fetched
      rcases fetched with ⟨entries, reads, formed⟩
      rcases readEntries_eq_ok reads with ⟨rfl, -⟩
      refine ⟨image, found, ?_⟩
      exact Except.map_eq_of_mapM (fun entry _ sent => entryBody_eq_ok) formed

theorem fetchLooseEntry_eq_ok {want : LooseWant} {sent : List PackEntry}
    (fetched : storage.fetchLooseEntry want = .ok sent) :
    sent.map PackEntry.oid = [want.oid] := by
  rw [fetchLooseEntry] at fetched
  split at fetched
  next => cases fetched
  next =>
    split at fetched
    next => cases fetched
    next =>
      split at fetched
      next => cases fetched
      next entry found =>
        split at fetched
        next => cases fetched
        next same =>
          rw [Except.bind_eq_ok_iff] at fetched
          rcases fetched with ⟨one, formed, returned⟩
          cases returned
          rw [map_singleton, entryBody_eq_ok formed, not_ne_iff.mp same]

theorem mem_fetchCommitRun {run : List NeededCommit} {sent : List PackEntry}
    (fetched : storage.fetchCommitRun filter passDeltas run = .ok sent) {entry : PackEntry} :
    entry ∈ sent ↔ ∃ commit ∈ run, ∃ image, storage.fetchImage filter passDeltas commit = .ok image ∧
      entry ∈ image := by
  rw [fetchCommitRun, Except.bind_eq_ok_iff] at fetched
  rcases fetched with ⟨images, mapped, returned⟩
  cases returned
  simp only [mem_flatten, Except.mem_of_mapM mapped]
  constructor
  · rintro ⟨image, ⟨commit, commitMem, fetched⟩, entryMem⟩
    exact ⟨commit, commitMem, image, fetched, entryMem⟩
  · rintro ⟨commit, commitMem, image, fetched, entryMem⟩
    exact ⟨image, ⟨commit, commitMem, fetched⟩, entryMem⟩

theorem fetchSources_eq_ok {batch : PackBatch} {sources : List (List PackEntry)}
    (fetched : storage.fetchSources batch = .ok sources) :
    (∀ commit ∈ batch.needed, ∃ image,
        storage.fetchImage batch.filter batch.passDeltas commit = .ok image) ∧
      ∀ oid, oid ∈ sources.flatten.map PackEntry.oid ↔
        (∃ want ∈ batch.looseWants, want.oid = oid) ∨
          ∃ commit ∈ batch.needed, ∃ image,
            storage.fetchImage batch.filter batch.passDeltas commit = .ok image ∧
              oid ∈ image.map PackEntry.oid := by
  rw [fetchSources, Except.bind_eq_ok_iff] at fetched
  rcases fetched with ⟨loose, looseMapped, rest⟩
  rw [Except.bind_eq_ok_iff] at rest
  rcases rest with ⟨runs, runsMapped, returned⟩
  cases returned
  have runOf : ∀ commit, commit ∈ batch.needed ↔
      ∃ run ∈ planRuns batch.needed batch.filter batch.passDeltas, commit ∈ run := by
    intro commit
    rw [← mem_flatten]
    exact (planRuns_perm batch.needed batch.filter batch.passDeltas).mem_iff.symm
  have looseOids : ∀ oid, oid ∈ loose.flatten.map PackEntry.oid ↔
      ∃ want ∈ batch.looseWants, want.oid = oid := by
    intro oid
    rw [map_flatten, mem_flatten]
    constructor
    · rintro ⟨_, listed, oidMem⟩
      rcases mem_map.mp listed with ⟨sent, sentMem, rfl⟩
      rcases (Except.mem_of_mapM looseMapped).mp sentMem with ⟨want, wantMem, fetched⟩
      rw [fetchLooseEntry_eq_ok fetched, mem_singleton] at oidMem
      exact ⟨want, wantMem, oidMem.symm⟩
    · rintro ⟨want, wantMem, rfl⟩
      rcases Except.exists_of_mapM looseMapped wantMem with ⟨sent, sentMem, fetched⟩
      refine ⟨_, mem_map_of_mem sentMem, ?_⟩
      rw [fetchLooseEntry_eq_ok fetched]
      exact mem_singleton_self _
  refine ⟨fun commit commitMem => ?_, fun oid => ?_⟩
  · rcases (runOf commit).mp commitMem with ⟨run, runMem, inRun⟩
    rcases Except.exists_of_mapM runsMapped runMem with ⟨sent, -, fetched⟩
    rw [fetchCommitRun, Except.bind_eq_ok_iff] at fetched
    rcases fetched with ⟨images, mapped, -⟩
    rcases Except.exists_of_mapM mapped inRun with ⟨image, -, imageFetched⟩
    exact ⟨image, imageFetched⟩
  · rw [flatten_append, map_append, mem_append, looseOids]
    apply or_congr_right
    rw [mem_map]
    constructor
    · rintro ⟨entry, entryMem, rfl⟩
      rcases mem_flatten.mp entryMem with ⟨sent, sentMem, inSent⟩
      rcases (Except.mem_of_mapM runsMapped).mp sentMem with ⟨run, runMem, fetched⟩
      rcases (mem_fetchCommitRun fetched).mp inSent with ⟨commit, inRun, image, imageFetched, inImage⟩
      exact ⟨commit, (runOf commit).mpr ⟨run, runMem, inRun⟩, image, imageFetched,
        mem_map_of_mem inImage⟩
    · rintro ⟨commit, commitMem, image, imageFetched, oidMem⟩
      rcases mem_map.mp oidMem with ⟨entry, inImage, rfl⟩
      rcases (runOf commit).mp commitMem with ⟨run, runMem, inRun⟩
      rcases Except.exists_of_mapM runsMapped runMem with ⟨sent, sentMem, fetched⟩
      refine ⟨entry, mem_flatten.mpr ⟨sent, sentMem, ?_⟩, rfl⟩
      exact (mem_fetchCommitRun fetched).mpr ⟨commit, inRun, image, imageFetched, inImage⟩

end Storage

/-- An image holds a commit, then the trees and then the blobs its bitmaps name, each once. -/
def PackImage.Holds (image : PackImage) (storage : Storage) (seq : ℕ) (pack : PackFacts) : Prop :=
  ∃ trees blobs : List ℕ, trees.Nodup ∧ blobs.Nodup ∧ trees.toFinset = pack.trees ∧
    blobs.toFinset = pack.blobs ∧
    image.entries.map (fun entry => some entry.oid) = storage.oidOf .commit seq ::
      (trees.map (storage.oidOf .tree) ++ blobs.map (storage.oidOf .blob))

/-- A repository whose history is numbered upwards, whose oids and numbers correspond and whose
images hold what their bitmaps name. -/
structure Storage.Consistent (storage : Storage) : Prop where
  monotone : storage.index.SeqMonotone
  numbered : storage.Numbered
  imaged : ∀ seq pack, storage.packs seq = some pack →
    ∃ image, storage.image pack.segment = some image ∧ image.Holds storage seq pack

namespace Storage

variable {storage : Storage} {filter : Option PackFilter} {passDeltas : Bool}

def filteredCount (pack : PackFacts) : Option PackFilter → ℕ
  | some .blobNone => 1 + pack.trees.card
  | none => 1 + pack.trees.card + pack.blobs.card

theorem readPlan_ofPack {oid : ObjectId} {pack : PackFacts}
    (fits : filteredCount pack filter < 2 ^ 32) :
    (readPlan (NeededCommit.ofPack oid pack) filter).2 = filteredCount pack filter := by
  rcases filter with _ | ⟨⟩
  · simp only [filteredCount] at fits
    simp only [readPlan, NeededCommit.ofPack, saturate32, filteredCount]
    omega
  · simp only [filteredCount] at fits
    simp only [readPlan, NeededCommit.ofPack, saturate32, filteredCount]
    omega

theorem mem_fetchImage (consistent : storage.Consistent) {seq : ℕ} {pack : PackFacts}
    {oid : ObjectId} (packed : storage.packs seq = some pack)
    (named : storage.oidOf .commit seq = some oid)
    (fits : filteredCount pack filter < 2 ^ 32) {sent : List PackEntry}
    (fetched : storage.fetchImage filter passDeltas (NeededCommit.ofPack oid pack) = .ok sent)
    (name : ObjectId) :
    name ∈ sent.map PackEntry.oid ↔ name = oid ∨
      (∃ tree ∈ pack.trees, storage.oidOf .tree tree = some name) ∨
      (filter = none ∧ ∃ blob ∈ pack.blobs, storage.oidOf .blob blob = some name) := by
  rcases fetchImage_eq_ok fetched with ⟨image, found, read⟩
  rcases consistent.imaged seq pack packed with ⟨other, atOther, trees, blobs, treesOnce, blobsOnce,
    allTrees, allBlobs, listed⟩
  obtain rfl : other = image := Option.some.inj (atOther.symm.trans found)
  have treeCount : trees.length = pack.trees.card := by
    rw [← allTrees, toFinset_card_of_nodup treesOnce]
  have blobCount : blobs.length = pack.blobs.card := by
    rw [← allBlobs, toFinset_card_of_nodup blobsOnce]
  have asOption : name ∈ sent.map PackEntry.oid ↔
      some name ∈ (storage.oidOf .commit seq :: (trees.map (storage.oidOf .tree) ++
        blobs.map (storage.oidOf .blob))).take (filteredCount pack filter) := by
    rw [read, readPlan_ofPack fits, ← listed, ← map_take]
    simp only [mem_map, Option.some.injEq]
  rw [asOption, named]
  simp only [← allTrees, ← allBlobs, mem_toFinset]
  rcases filter with _ | ⟨⟩
  · rw [take_of_length_le (by simp [filteredCount]; omega)]
    simp [eq_comm]
  · have cut : filteredCount pack (some .blobNone) =
        (some oid :: trees.map (storage.oidOf .tree)).length := by
      simp [filteredCount]
      omega
    rw [cut, ← cons_append, take_left]
    simp [eq_comm]

end Storage

/-! ## What a plan is made of -/

section Planned

variable {graph : RepoGraph} {objects : RepoObjects} {wants haves clientShallow : List ObjectId}
  {deepen : Option ℕ} {walked : ShallowNeeded}

theorem needed_built (monotone : graph.index.SeqMonotone)
    (planned : graph.needed objects wants haves clientShallow deepen = .ok walked) :
    ∃ seqs : List ℕ, seqs.Nodup ∧ seqs.foldlM graph.pushCommit ∅ = .ok walked.needed := by
  cases deepen with
  | none =>
    simp only [RepoGraph.needed, Except.bind_eq_ok_iff, Except.pure_eq_ok_iff] at planned
    rcases planned with ⟨needed, walk, rfl⟩
    rw [RepoGraph.plain, RepoGraph.neededCommits] at walk
    split at walk
    next =>
      cases walk
      exact ⟨[], nodup_nil, rfl⟩
    next =>
      split at walk
      next =>
        cases walk
        exact ⟨[], nodup_nil, rfl⟩
      next =>
        rcases RepoGraph.bandedPaintWalk_builtFrom monotone (fun _ blocked => blocked) walk with
          ⟨seqs, distinct, pushed, -⟩
        exact ⟨seqs, distinct, pushed⟩
  | some depth =>
    rcases shallow_eq_ok planned with ⟨commits, walk, deepened⟩
    rw [deepened.needed]
    rcases RepoGraph.neededCommitsShallow_eq_ok monotone walk with noWants | ⟨classified, cut⟩
    · have empty : (graph.resolveSeeds wants haves clientShallow).wants.isEmpty = true :=
        List.isEmpty_iff.mpr noWants
      rw [RepoGraph.neededCommitsShallow, if_pos empty] at walk
      split at walk
      next => cases walk
      next =>
        cases walk
        exact ⟨[], nodup_nil, rfl⟩
    cases fast : (graph.resolveSeeds wants haves clientShallow).haves.isEmpty with
    | true =>
      rcases cut.walk.built with ⟨order, distinct, -, pushed⟩
      exact ⟨order, distinct, by rw [cut.fast fast]; exact pushed fast⟩
    | false =>
      rcases cut.painted fast with ⟨seqs, distinct, pushed, -⟩
      exact ⟨seqs, distinct, pushed⟩

theorem needed_backfill
    (planned : graph.needed objects wants haves clientShallow deepen = .ok walked) :
    walked.backfill = RepoGraph.backfillOf objects walked.needed walked.backfillSeqs := by
  have nothing : ∀ needed, RepoGraph.backfillOf objects needed ∅ = [] := by
    intro needed
    rw [RepoGraph.backfillOf, ObjectSeqs.iter_empty]
    rfl
  cases deepen with
  | none =>
    simp only [RepoGraph.needed, Except.bind_eq_ok_iff, Except.pure_eq_ok_iff] at planned
    rcases planned with ⟨needed, walk, rfl⟩
    exact (nothing needed).symm
  | some depth =>
    simp only [RepoGraph.needed, RepoGraph.shallow] at planned
    split at planned
    next => cases planned
    next =>
      simp only [Except.bind_eq_ok_iff, Except.pure_eq_ok_iff] at planned
      rcases planned with ⟨commits, walk, rfl⟩
      simp only
      split
      next => exact (nothing _).symm
      next => rfl

end Planned

end Enroute
