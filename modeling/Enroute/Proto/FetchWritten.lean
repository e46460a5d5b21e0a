import Enroute.Proto.FetchStream

/-!
# What a fetch has written

A plan is split into its tags, the loose blobs outside the walk and the walk itself. The numbers
of these parts do not meet, and oids follow numbers, so the counts taken from the bitmaps add up
to the entries written. The same split shows what a filter takes away from a direct want.
-/

namespace Enroute

open List

structure FetchPlan (storage : Storage) (args : FetchArgs) (wants : ResolvedWants)
    (walked : ShallowNeeded) (batch : PackBatch) : Prop where
  resolved : storage.resolveWants args.wants = .ok wants
  walk : storage.graph.needed storage.objects wants.commitWants args.haves args.shallow
    args.deepen = .ok walked
  needed : batch.needed = walked.needed.commits
  filter : batch.filter = args.filter
  tags : batch.tagObjects = wants.tagObjects
  loose : batch.looseWants = Storage.directWants walked wants.looseWants ++
    Storage.keptBackfill args walked
  total : batch.totalCount = walked.needed.objectCount (args.keeps .tree) (args.keeps .blob) +
    (batch.tagObjects.length + batch.looseWants.length)
  fits : batch.totalCount < 2 ^ 32

theorem planFetch_eq_ok {storage : Storage} {args : FetchArgs} {batch : PackBatch}
    (planned : storage.planFetch args = .ok batch) :
    ∃ wants walked, FetchPlan storage args wants walked batch := by
  simp only [Storage.planFetch, Except.bind_eq_ok_iff] at planned
  rcases planned with ⟨wants, resolved, walked, walk, rest⟩
  split at rest
  next => cases rest
  next fits =>
    cases rest
    exact ⟨wants, walked, resolved, walk, rfl, rfl, rfl, rfl, rfl, not_le.mp fits⟩

section Streamed

variable {storage : Storage} {args : FetchArgs} {wants : ResolvedWants} {walked : ShallowNeeded}
  {batch : PackBatch}

theorem FetchArgs.keeps_tree (args : FetchArgs) : args.keeps .tree = true := by
  rcases filter : args.filter with _ | ⟨⟩ <;> simp [FetchArgs.keeps, filter, PackFilter.keep]

theorem FetchArgs.keeps_commit (args : FetchArgs) : args.keeps .commit = true := by
  rcases filter : args.filter with _ | ⟨⟩ <;> simp [FetchArgs.keeps, filter, PackFilter.keep]

theorem FetchArgs.keeps_blob (args : FetchArgs) : args.keeps .blob = true ↔ args.filter = none := by
  rcases filter : args.filter with _ | ⟨⟩ <;> simp [FetchArgs.keeps, filter, PackFilter.keep]

/-- A pack the walk needs, whose entries the filter leaves can be counted in 32 bits. -/
structure NeededPack (storage : Storage) (args : FetchArgs) (needed : NeededCommits) (seq : ℕ)
    (pack : PackFacts) (oid : ObjectId) : Prop where
  packed : storage.packs seq = some pack
  named : storage.oidOf .commit seq = some oid
  trees : pack.trees ⊆ needed.trees
  blobs : pack.blobs ⊆ needed.blobs
  listed : NeededCommit.ofPack oid pack ∈ needed.commits
  fits : Storage.filteredCount pack args.filter < 2 ^ 32

theorem FetchPlan.filteredCount_lt (plan : FetchPlan storage args wants walked batch)
    {pack : PackFacts} (trees : pack.trees ⊆ walked.needed.trees)
    (blobs : pack.blobs ⊆ walked.needed.blobs) (someCommit : walked.needed.commits ≠ []) :
    Storage.filteredCount pack args.filter < 2 ^ 32 := by
  have treeCard := Finset.card_le_card trees
  have blobCard := Finset.card_le_card blobs
  have commits := length_pos_iff.mpr someCommit
  have total := plan.total
  have fits := plan.fits
  rw [NeededCommits.objectCount, args.keeps_tree, if_pos rfl] at total
  rcases filter : args.filter with _ | ⟨⟩
  · rw [if_pos (args.keeps_blob.mpr filter)] at total
    simp only [Storage.filteredCount]
    omega
  · simp only [Storage.filteredCount]
    omega

theorem FetchPlan.mem_needed (monotone : storage.index.SeqMonotone)
    (plan : FetchPlan storage args wants walked batch) :
    (∀ commit ∈ walked.needed.commits, ∃ seq pack oid,
        NeededPack storage args walked.needed seq pack oid ∧
          commit = NeededCommit.ofPack oid pack) ∧
      ∀ object, walked.needed.contains object = true → ∃ seq pack oid,
        NeededPack storage args walked.needed seq pack oid ∧
          pack.holds.contains object = true := by
  rcases needed_built monotone plan.walk with ⟨seqs, -, pushed⟩
  rcases RepoGraph.pushCommits_eq_ok pushed with ⟨⟨added, appended, paired⟩, contains⟩
  replace appended : walked.needed.commits = added := appended
  have nothing : ∀ object, (∅ : NeededCommits).contains object = false := by
    intro object
    cases object <;> rfl
  rcases forall₂_iff_get.mp paired with ⟨sameLength, each⟩
  have neededAt : ∀ place, (inSeqs : place < seqs.length) → (inAdded : place < added.length) →
      ∃ pack oid, NeededPack storage args walked.needed (seqs.get ⟨place, inSeqs⟩) pack oid ∧
        added.get ⟨place, inAdded⟩ = NeededCommit.ofPack oid pack := by
    intro place inSeqs inAdded
    rcases each place inSeqs inAdded with ⟨pack, oid, packed, named, entry⟩
    have holds : ∀ object, pack.holds.contains object = true →
        walked.needed.contains object = true := fun object stored =>
      (contains object).mpr (Or.inr ⟨_, get_mem seqs _, pack, packed, stored⟩)
    have trees : pack.trees ⊆ walked.needed.trees := fun tree treeMem =>
      NeededCommits.contains_tree.mp (holds _ (ObjectSeqs.contains_tree.mpr treeMem))
    have blobs : pack.blobs ⊆ walked.needed.blobs := fun blob blobMem =>
      NeededCommits.contains_blob.mp (holds _ (ObjectSeqs.contains_blob.mpr blobMem))
    have listed : NeededCommit.ofPack oid pack ∈ walked.needed.commits := by
      rw [appended, ← entry]
      exact get_mem added _
    exact ⟨pack, oid, ⟨packed, named, trees, blobs, listed,
      plan.filteredCount_lt trees blobs (ne_nil_of_mem listed)⟩, entry⟩
  refine ⟨fun commit commitMem => ?_, fun object found => ?_⟩
  · rw [appended] at commitMem
    rcases mem_iff_get.mp commitMem with ⟨⟨place, inAdded⟩, rfl⟩
    rcases neededAt place (inAdded.trans_eq sameLength.symm) inAdded with ⟨pack, oid, needs, entry⟩
    exact ⟨_, pack, oid, needs, entry⟩
  · rw [contains, nothing] at found
    rcases found with impossible | ⟨seq, inSeqs, pack, packed, stored⟩
    · cases impossible
    rcases mem_iff_get.mp inSeqs with ⟨⟨place, before⟩, rfl⟩
    rcases neededAt place before (before.trans_eq sameLength) with ⟨other, oid, needs, -⟩
    obtain rfl : other = pack := Option.some.inj (needs.packed.symm.trans packed)
    exact ⟨_, other, oid, needs, stored⟩

/-- An object of the walk before any filter: a needed commit, or a tree or blob of a needed pack
or of a boundary snapshot. -/
def Storage.InWalk (storage : Storage) (walked : ShallowNeeded) : Kind → ObjectId → Prop
  | .commit, oid => ∃ commit ∈ walked.needed.commits, commit.oid = oid
  | .tree, oid => ∃ seq, walked.contains (.tree seq) = true ∧ storage.oidOf .tree seq = some oid
  | .blob, oid => ∃ seq, walked.contains (.blob seq) = true ∧ storage.oidOf .blob seq = some oid
  | .tag, _ => False

variable {kind : Kind} {oid : ObjectId}

theorem FetchPlan.identity_of_inWalk (consistent : storage.Consistent)
    (plan : FetchPlan storage args wants walked batch) (found : storage.InWalk walked kind oid) :
    ∃ seq, storage.identities oid = some ⟨kind, seq⟩ := by
  cases kind with
  | commit =>
    rcases found with ⟨commit, commitMem, rfl⟩
    rcases (plan.mem_needed consistent.monotone).1 commit commitMem with
      ⟨seq, pack, oid, needs, rfl⟩
    exact ⟨seq, (consistent.numbered oid .commit seq).mp needs.named⟩
  | tree =>
    rcases found with ⟨seq, -, named⟩
    exact ⟨seq, (consistent.numbered oid .tree seq).mp named⟩
  | blob =>
    rcases found with ⟨seq, -, named⟩
    exact ⟨seq, (consistent.numbered oid .blob seq).mp named⟩
  | tag => cases found

theorem FetchPlan.mem_keptBackfill (plan : FetchPlan storage args wants walked batch) :
    oid ∈ (Storage.keptBackfill args walked).map LooseWant.oid ↔
      ∃ kind seq, (kind = .tree ∧ seq ∈ walked.backfillSeqs.trees ∧ seq ∉ walked.needed.trees ∨
          kind = .blob ∧ seq ∈ walked.backfillSeqs.blobs ∧ seq ∉ walked.needed.blobs) ∧
        storage.oidOf kind seq = some oid ∧ args.keeps kind = true := by
  rw [Storage.keptBackfill, map_map, mem_map]
  simp only [mem_filter, needed_backfill plan.walk, mem_backfillOf]
  constructor
  · rintro ⟨⟨other, found⟩, ⟨⟨kind, seq, place, named, rfl⟩, kept⟩, rfl⟩
    exact ⟨kind, seq, place, named, kept⟩
  · rintro ⟨kind, seq, place, named, kept⟩
    exact ⟨(oid, storage.objects.assemble { kind, seq }), ⟨⟨kind, seq, place, named, rfl⟩, kept⟩,
      rfl⟩

theorem FetchPlan.mem_directWants (plan : FetchPlan storage args wants walked batch) :
    oid ∈ (Storage.directWants walked wants.looseWants).map LooseWant.oid ↔
      storage.Resolved args.wants oid ∧ ∃ seq, storage.identities oid = some ⟨.blob, seq⟩ ∧
        walked.contains (.blob seq) = false := by
  rcases Storage.resolveWants_eq_ok plan.resolved with ⟨settled, -, visits, rfl⟩
  rw [Storage.directWants, Stream.mem_map_keepFirst, mem_map, ← visits]
  simp only [not_mem_nil, not_false_eq_true, true_and, mem_filter, Storage.split,
    mem_filterMap, Storage.looseOf, Option.map_eq_some_iff, Option.filter_eq_some_iff,
    decide_eq_true_eq]
  constructor
  · rintro ⟨_, ⟨⟨other, inSettled, found, ⟨known, isBlob⟩, rfl⟩, uncovered⟩, rfl⟩
    rcases Storage.kind_of_metas known with ⟨⟨kind, seq⟩, named, sameKind, sameSeq⟩
    obtain rfl : kind = .blob := sameKind.symm.trans isBlob
    rw [sameSeq] at uncovered
    exact ⟨inSettled, seq, named, by simpa [Identity.numbered] using uncovered⟩
  · rintro ⟨inSettled, seq, named, uncovered⟩
    have known : storage.metas oid = some (storage.objects.assemble ⟨.blob, seq⟩) := by
      rw [Storage.metas, named]
      rfl
    refine ⟨_, ⟨⟨oid, inSettled, _, ⟨known, rfl⟩, rfl⟩, ?_⟩, rfl⟩
    have sameSeq : (storage.objects.assemble ⟨.blob, seq⟩).objectSeq = some (.blob seq) := rfl
    rw [sameSeq]
    simpa using uncovered

def Storage.oidsOf (storage : Storage) (kind : Kind) (seqs : Finset ℕ) : List ObjectId :=
  (seqs.sort (· ≤ ·)).filterMap (storage.oidOf kind)

theorem Storage.mem_oidsOf {seqs : Finset ℕ} :
    oid ∈ storage.oidsOf kind seqs ↔ ∃ seq ∈ seqs, storage.oidOf kind seq = some oid := by
  simp only [Storage.oidsOf, mem_filterMap, Finset.mem_sort]

/-- What of the walk the filter keeps, as the commits, trees and blobs of the needed packs and the
backfill beside them. -/
theorem FetchPlan.inWalk_kept_iff (plan : FetchPlan storage args wants walked batch) :
    (∃ kind, storage.InWalk walked kind oid ∧ args.keeps kind = true) ↔
      oid ∈ walked.needed.commits.map NeededCommit.oid ∨
        oid ∈ storage.oidsOf .tree walked.needed.trees ∨
        args.keeps .blob = true ∧ oid ∈ storage.oidsOf .blob walked.needed.blobs ∨
        oid ∈ (Storage.keptBackfill args walked).map LooseWant.oid := by
  rw [plan.mem_keptBackfill, mem_map]
  simp only [Storage.mem_oidsOf]
  constructor
  · rintro ⟨kind, found, kept⟩
    cases kind with
    | commit => exact Or.inl found
    | tree =>
      rcases found with ⟨seq, covered, named⟩
      by_cases inNeeded : seq ∈ walked.needed.trees
      · exact Or.inr (Or.inl ⟨seq, inNeeded, named⟩)
      · have inside := (ShallowNeeded.contains_tree.mp covered).resolve_left inNeeded
        exact Or.inr (Or.inr (Or.inr ⟨.tree, seq, Or.inl ⟨rfl, inside, inNeeded⟩, named, kept⟩))
    | blob =>
      rcases found with ⟨seq, covered, named⟩
      by_cases inNeeded : seq ∈ walked.needed.blobs
      · exact Or.inr (Or.inr (Or.inl ⟨kept, seq, inNeeded, named⟩))
      · have inside := (ShallowNeeded.contains_blob.mp covered).resolve_left inNeeded
        exact Or.inr (Or.inr (Or.inr ⟨.blob, seq, Or.inr ⟨rfl, inside, inNeeded⟩, named, kept⟩))
    | tag => cases found
  · rintro (isCommit | ⟨seq, inNeeded, named⟩ | ⟨kept, seq, inNeeded, named⟩ |
      ⟨kind, seq, place, named, kept⟩)
    · exact ⟨.commit, isCommit, args.keeps_commit⟩
    · exact ⟨.tree, ⟨seq, ShallowNeeded.contains_tree.mpr (Or.inl inNeeded), named⟩,
        args.keeps_tree⟩
    · exact ⟨.blob, ⟨seq, ShallowNeeded.contains_blob.mpr (Or.inl inNeeded), named⟩, kept⟩
    · refine ⟨kind, ?_, kept⟩
      rcases place with ⟨rfl, inside, -⟩ | ⟨rfl, inside, -⟩
      · exact ⟨seq, ShallowNeeded.contains_tree.mpr (Or.inr inside), named⟩
      · exact ⟨seq, ShallowNeeded.contains_blob.mpr (Or.inr inside), named⟩

theorem FetchPlan.mem_sources (consistent : storage.Consistent)
    (plan : FetchPlan storage args wants walked batch) {sources : List (List PackEntry)}
    (fetched : storage.fetchSources batch = .ok sources) (oid : ObjectId) :
    oid ∈ sources.flatten.map PackEntry.oid ↔
      oid ∈ (Storage.directWants walked wants.looseWants).map LooseWant.oid ∨
        ∃ kind, storage.InWalk walked kind oid ∧ args.keeps kind = true := by
  rcases Storage.fetchSources_eq_ok fetched with ⟨everyImage, delivered⟩
  rcases plan.mem_needed consistent.monotone with ⟨packOf, neededIn⟩
  rw [delivered, plan.loose, plan.needed, plan.filter, ← mem_map, map_append,
    mem_append, or_assoc, plan.inWalk_kept_iff]
  rw [plan.needed, plan.filter] at everyImage
  apply or_congr_right
  constructor
  · rintro (filled | ⟨commit, commitMem, image, imageFetched, oidMem⟩)
    · exact Or.inr (Or.inr (Or.inr filled))
    · rcases packOf commit commitMem with ⟨seq, pack, commitOid, needs, rfl⟩
      rcases (Storage.mem_fetchImage consistent needs.packed needs.named needs.fits imageFetched
        oid).mp oidMem with rfl | ⟨tree, treeMem, named⟩ | ⟨unfiltered, blob, blobMem, named⟩
      · exact Or.inl (mem_map_of_mem commitMem)
      · exact Or.inr (Or.inl (Storage.mem_oidsOf.mpr ⟨tree, needs.trees treeMem, named⟩))
      · exact Or.inr (Or.inr (Or.inl ⟨args.keeps_blob.mpr unfiltered,
          Storage.mem_oidsOf.mpr ⟨blob, needs.blobs blobMem, named⟩⟩))
  · -- each of the first three stands in the image of a needed pack
    have inImage : ∀ {seq pack commitOid}, NeededPack storage args walked.needed seq pack commitOid →
        (oid = commitOid ∨ (∃ tree ∈ pack.trees, storage.oidOf .tree tree = some oid) ∨
          args.filter = none ∧ ∃ blob ∈ pack.blobs, storage.oidOf .blob blob = some oid) →
        ∃ commit ∈ walked.needed.commits, ∃ image,
          storage.fetchImage args.filter batch.passDeltas commit = .ok image ∧
            oid ∈ image.map PackEntry.oid := by
      intro seq pack commitOid needs holds
      rcases everyImage _ needs.listed with ⟨image, imageFetched⟩
      exact ⟨_, needs.listed, image, imageFetched, (Storage.mem_fetchImage consistent needs.packed
        needs.named needs.fits imageFetched oid).mpr holds⟩
    rintro (isCommit | isTree | ⟨kept, isBlob⟩ | filled)
    · rcases mem_map.mp isCommit with ⟨commit, commitMem, isOid⟩
      rcases packOf commit commitMem with ⟨seq, pack, commitOid, needs, rfl⟩
      exact Or.inr (inImage needs (Or.inl isOid.symm))
    · rcases Storage.mem_oidsOf.mp isTree with ⟨tree, inNeeded, named⟩
      rcases neededIn (.tree tree) (NeededCommits.contains_tree.mpr inNeeded) with
        ⟨seq, pack, commitOid, needs, stored⟩
      exact Or.inr (inImage needs
        (Or.inr (Or.inl ⟨tree, ObjectSeqs.contains_tree.mp stored, named⟩)))
    · rcases Storage.mem_oidsOf.mp isBlob with ⟨blob, inNeeded, named⟩
      rcases neededIn (.blob blob) (NeededCommits.contains_blob.mpr inNeeded) with
        ⟨seq, pack, commitOid, needs, stored⟩
      exact Or.inr (inImage needs (Or.inr (Or.inr ⟨args.keeps_blob.mp kept, blob,
        ObjectSeqs.contains_blob.mp stored, named⟩)))
    · exact Or.inl filled

/-- What is written: the tags, the loose blobs outside the walk and what of the walk the filter
keeps. -/
theorem FetchPlan.mem_written (consistent : storage.Consistent)
    (plan : FetchPlan storage args wants walked batch) {written : List PackEntry}
    (streams : storage.Streams batch written) (oid : ObjectId) :
    oid ∈ written.map PackEntry.oid ↔ oid ∈ wants.tagObjects ∨
      oid ∈ (Storage.directWants walked wants.looseWants).map LooseWant.oid ∨
        ∃ kind, storage.InWalk walked kind oid ∧ args.keeps kind = true := by
  rcases streams with ⟨sources, arrived, fetched, merged, rfl⟩
  have tagOids : (batch.tagObjects.map fun oid => (⟨oid, .tag, .stored⟩ : PackEntry)).map
      PackEntry.oid = wants.tagObjects := by
    rw [map_map, ← plan.tags]
    exact map_id _
  rw [map_append, mem_append, tagOids, Stream.mem_map_keepFirst,
    (merged.perm.map PackEntry.oid).mem_iff, plan.mem_sources consistent fetched]
  simp only [not_mem_nil, not_false_eq_true, true_and]

/-- What the requested commits, tags and blobs call for: what of the walk the filter keeps, and
every tag and every blob the wants resolve to, whatever the filter is. -/
def Storage.Expected (storage : Storage) (args : FetchArgs) (walked : ShallowNeeded)
    (oid : ObjectId) : Prop :=
  (∃ kind, storage.InWalk walked kind oid ∧ args.keeps kind = true) ∨
    storage.Resolved args.wants oid ∧
      (storage.isKind .tag oid = true ∨ storage.isKind .blob oid = true)

theorem Storage.isKind_iff :
    storage.isKind kind oid = true ↔ ∃ seq, storage.identities oid = some ⟨kind, seq⟩ := by
  rw [Storage.isKind, Option.any_eq_true]
  constructor
  · rintro ⟨found, known, sameKind⟩
    rcases Storage.kind_of_metas known with ⟨⟨other, seq⟩, named, isOther, -⟩
    obtain rfl : other = kind := isOther.symm.trans (of_decide_eq_true sameKind)
    exact ⟨seq, named⟩
  · rintro ⟨seq, named⟩
    have known := congrArg (Option.map fun identity : Identity =>
      if identity.kind = .commit then storage.commitMeta oid identity.seq
      else storage.objects.assemble identity) named
    rcases Storage.kind_of_metas known with ⟨identity, again, sameKind, -⟩
    obtain rfl : ⟨kind, seq⟩ = identity := Option.some.inj (named.symm.trans again)
    exact ⟨_, known, decide_eq_true sameKind⟩

theorem FetchPlan.mem_tagObjects (plan : FetchPlan storage args wants walked batch) :
    oid ∈ wants.tagObjects ↔ storage.Resolved args.wants oid ∧ storage.isKind .tag oid = true := by
  rcases Storage.resolveWants_eq_ok plan.resolved with ⟨settled, -, visits, rfl⟩
  rw [Storage.split, mem_filter, visits]

theorem FetchPlan.of_planFetch (resolved : storage.resolveWants args.wants = .ok wants)
    (walk : storage.graph.needed storage.objects wants.commitWants args.haves args.shallow
      args.deepen = .ok walked)
    (planned : storage.planFetch args = .ok batch) :
    FetchPlan storage args wants walked batch := by
  rcases planFetch_eq_ok planned with ⟨otherWants, otherWalked, plan⟩
  obtain rfl : otherWants = wants := Except.ok.inj (plan.resolved.symm.trans resolved)
  obtain rfl : otherWalked = walked := Except.ok.inj (plan.walk.symm.trans walk)
  exact plan

/-- A direct want for a blob is lost exactly when a filter drops the blobs of a walk that covers
it. -/
theorem written_iff_expected (consistent : storage.Consistent)
    (resolved : storage.resolveWants args.wants = .ok wants)
    (walk : storage.graph.needed storage.objects wants.commitWants args.haves args.shallow
      args.deepen = .ok walked)
    (planned : storage.planFetch args = .ok batch) {written : List PackEntry}
    (streams : storage.Streams batch written) :
    (∀ oid, oid ∈ written.map PackEntry.oid ↔ storage.Expected args walked oid) ↔
      (args.filter = none ∨ ∀ oid, storage.Resolved args.wants oid →
        storage.isKind .blob oid = true → ¬storage.InWalk walked .blob oid) := by
  have plan := FetchPlan.of_planFetch resolved walk planned
  have oneNumber : ∀ {oid kind other seq number}, storage.identities oid = some ⟨kind, seq⟩ →
      storage.identities oid = some ⟨other, number⟩ → kind = other ∧ seq = number := by
    intro oid kind other seq number left right
    cases Option.some.inj (left.symm.trans right)
    exact ⟨rfl, rfl⟩
  constructor
  · intro faithful
    refine or_iff_not_imp_left.mpr fun filtered oid wanted isBlob inWalk => ?_
    have expected : storage.Expected args walked oid := Or.inr ⟨wanted, Or.inr isBlob⟩
    rcases Storage.isKind_iff.mp isBlob with ⟨seq, named⟩
    rcases (plan.mem_written consistent streams oid).mp ((faithful oid).mpr expected) with
      tag | direct | ⟨kind, found, kept⟩
    · rcases Storage.isKind_iff.mp (plan.mem_tagObjects.mp tag).2 with ⟨number, isTag⟩
      cases (oneNumber named isTag).1
    · rcases plan.mem_directWants.mp direct with ⟨-, number, isNumber, uncovered⟩
      rcases inWalk with ⟨other, covered, otherNamed⟩
      have sameSeq := (oneNumber isNumber ((consistent.numbered oid .blob other).mp otherNamed)).2
      rw [sameSeq, covered] at uncovered
      cases uncovered
    · rcases plan.identity_of_inWalk consistent found with ⟨number, isKind⟩
      obtain rfl := (oneNumber named isKind).1
      exact filtered (args.keeps_blob.mp kept)
  · intro condition oid
    rw [plan.mem_written consistent streams, plan.mem_tagObjects, plan.mem_directWants]
    constructor
    · rintro (⟨wanted, isTag⟩ | ⟨wanted, seq, named, -⟩ | kept)
      · exact Or.inr ⟨wanted, Or.inl isTag⟩
      · exact Or.inr ⟨wanted, Or.inr (Storage.isKind_iff.mpr ⟨seq, named⟩)⟩
      · exact Or.inl kept
    · rintro (kept | ⟨wanted, isTag | isBlob⟩)
      · exact Or.inr (Or.inr kept)
      · exact Or.inl ⟨wanted, isTag⟩
      · rcases Storage.isKind_iff.mp isBlob with ⟨seq, named⟩
        cases covered : walked.contains (.blob seq) with
        | false => exact Or.inr (Or.inl ⟨wanted, seq, named, covered⟩)
        | true =>
          have inWalk : storage.InWalk walked .blob oid :=
            ⟨seq, covered, (consistent.numbered oid .blob seq).mpr named⟩
          refine Or.inr (Or.inr ⟨.blob, inWalk, args.keeps_blob.mpr ?_⟩)
          exact condition.resolve_right fun never => never oid wanted isBlob inWalk

/-! ## The count -/

theorem Storage.Numbered.filterMap_nodup (numbered : storage.Numbered) (kind : Kind)
    {seqs : List ℕ} (distinct : seqs.Nodup) : (seqs.filterMap (storage.oidOf kind)).Nodup := by
  refine distinct.filterMap fun seq other oid named otherNamed => ?_
  have isSeq := (numbered oid kind seq).mp named
  have isOther := (numbered oid kind other).mp otherNamed
  exact congrArg Identity.seq (Option.some.inj (isSeq.symm.trans isOther))

theorem Storage.Numbered.oidsOf_nodup (numbered : storage.Numbered) (kind : Kind)
    (seqs : Finset ℕ) : (storage.oidsOf kind seqs).Nodup :=
  numbered.filterMap_nodup kind (Finset.sort_nodup seqs _)

theorem Storage.length_oidsOf {seqs : Finset ℕ}
    (named : ∀ seq ∈ seqs, ∃ oid, storage.oidOf kind seq = some oid) :
    (storage.oidsOf kind seqs).length = seqs.card := by
  rw [Storage.oidsOf, filterMap_length_eq_length.mpr, Finset.length_sort]
  intro seq listed
  rcases named seq ((Finset.mem_sort _).mp listed) with ⟨oid, isOid⟩
  rw [isOid]
  rfl

section

variable (consistent : storage.Consistent) (plan : FetchPlan storage args wants walked batch)

include consistent plan

theorem FetchPlan.needed_named :
    (∀ seq ∈ walked.needed.trees, ∃ oid, storage.oidOf .tree seq = some oid) ∧
      ∀ seq ∈ walked.needed.blobs, ∃ oid, storage.oidOf .blob seq = some oid := by
  have packNamed : ∀ {seq pack}, storage.packs seq = some pack →
      (∀ tree ∈ pack.trees, ∃ oid, storage.oidOf .tree tree = some oid) ∧
        ∀ blob ∈ pack.blobs, ∃ oid, storage.oidOf .blob blob = some oid := by
    intro seq pack packed
    rcases consistent.imaged seq pack packed with
      ⟨image, -, trees, blobs, -, -, allTrees, allBlobs, listed⟩
    have isName : ∀ name ∈ trees.map (storage.oidOf .tree) ++ blobs.map (storage.oidOf .blob),
        ∃ oid, name = some oid := by
      intro name inBody
      have inEntries := mem_cons_of_mem (storage.oidOf .commit seq) inBody
      rw [← listed] at inEntries
      rcases mem_map.mp inEntries with ⟨entry, -, rfl⟩
      exact ⟨entry.oid, rfl⟩
    rw [← allTrees, ← allBlobs]
    simp only [mem_toFinset]
    exact ⟨fun tree inTrees => isName _ (mem_append_left _ (mem_map_of_mem inTrees)),
      fun blob inBlobs => isName _ (mem_append_right _ (mem_map_of_mem inBlobs))⟩
  rcases plan.mem_needed consistent.monotone with ⟨-, neededIn⟩
  refine ⟨fun tree treeMem => ?_, fun blob blobMem => ?_⟩
  · rcases neededIn (.tree tree) (NeededCommits.contains_tree.mpr treeMem) with
      ⟨seq, pack, commitOid, needs, stored⟩
    exact (packNamed needs.packed).1 tree (ObjectSeqs.contains_tree.mp stored)
  · rcases neededIn (.blob blob) (NeededCommits.contains_blob.mpr blobMem) with
      ⟨seq, pack, commitOid, needs, stored⟩
    exact (packNamed needs.packed).2 blob (ObjectSeqs.contains_blob.mp stored)

theorem FetchPlan.commits_nodup : (walked.needed.commits.map NeededCommit.oid).Nodup := by
  rcases needed_built consistent.monotone plan.walk with ⟨seqs, distinct, pushed⟩
  rcases (RepoGraph.pushCommits_eq_ok pushed).1 with ⟨added, appended, paired⟩
  have named : added.map NeededCommit.oid = seqs.filterMap (storage.oidOf .commit) := by
    clear appended distinct pushed
    induction paired with
    | nil => rfl
    | cons entry paired ih =>
      rcases entry with ⟨pack, oid, -, isOid, rfl⟩
      have isOid : storage.oidOf .commit _ = some oid := isOid
      rw [map_cons, filterMap_cons, isOid, ih]
      rfl
  rw [show walked.needed.commits = added from appended, named]
  exact consistent.numbered.filterMap_nodup .commit distinct

theorem FetchPlan.keptBackfill_nodup :
    ((Storage.keptBackfill args walked).map LooseWant.oid).Nodup := by
  have kept : ((Storage.keptBackfill args walked).map LooseWant.oid).Sublist
      (walked.backfill.map Prod.fst) := by
    rw [Storage.keptBackfill, map_map]
    exact filter_sublist.map Prod.fst
  refine List.Nodup.sublist kept ?_
  rw [needed_backfill plan.walk, RepoGraph.backfillOf, RepoObjects.locationsBySeq_oids]
  have distinct := walked.backfillSeqs.iter_nodup.filter fun seq => !walked.needed.contains seq
  refine nodup_append.mpr ⟨?_, ?_, ?_⟩
  · exact consistent.numbered.filterMap_nodup .tree (RepoObjects.shelved_nodup distinct .trees)
  · exact consistent.numbered.filterMap_nodup .blob (RepoObjects.shelved_nodup distinct .blobs)
  · rintro oid isTree _ isBlob rfl
    rcases mem_filterMap.mp isTree with ⟨tree, -, treeNamed⟩
    rcases mem_filterMap.mp isBlob with ⟨blob, -, blobNamed⟩
    have left := (consistent.numbered oid .tree tree).mp treeNamed
    have right := (consistent.numbered oid .blob blob).mp blobNamed
    cases Option.some.inj (left.symm.trans right)

end

def Storage.countedOids (storage : Storage) (args : FetchArgs) (wants : ResolvedWants)
    (walked : ShallowNeeded) : List ObjectId :=
  walked.needed.commits.map NeededCommit.oid ++ (storage.oidsOf .tree walked.needed.trees ++
    ((if args.keeps .blob then storage.oidsOf .blob walked.needed.blobs else []) ++
      ((Storage.directWants walked wants.looseWants).map LooseWant.oid ++
        (Storage.keptBackfill args walked).map LooseWant.oid)))

theorem FetchPlan.length_countedOids (consistent : storage.Consistent)
    (plan : FetchPlan storage args wants walked batch) :
    (storage.countedOids args wants walked).length =
      walked.needed.objectCount (args.keeps .tree) (args.keeps .blob) +
        batch.looseWants.length := by
  rcases plan.needed_named consistent with ⟨treesNamed, blobsNamed⟩
  simp only [Storage.countedOids, length_append, length_map, plan.loose,
    Storage.length_oidsOf treesNamed, NeededCommits.objectCount, args.keeps_tree, if_true]
  cases args.keeps .blob with
  | true =>
    simp only [if_true, Storage.length_oidsOf blobsNamed]
    omega
  | false =>
    simp only [Bool.false_eq_true, if_false, length_nil]
    omega

theorem FetchPlan.countedOids_nodup (consistent : storage.Consistent)
    (plan : FetchPlan storage args wants walked batch) :
    (storage.countedOids args wants walked).Nodup := by
  have numbered := consistent.numbered
  have commitOid : ∀ oid ∈ walked.needed.commits.map NeededCommit.oid,
      ∃ seq, storage.identities oid = some ⟨.commit, seq⟩ := by
    intro oid listed
    rcases mem_map.mp listed with ⟨commit, commitMem, isOid⟩
    have inWalk : storage.InWalk walked .commit oid := ⟨commit, commitMem, isOid⟩
    exact plan.identity_of_inWalk consistent inWalk
  have treeOid : ∀ oid ∈ storage.oidsOf .tree walked.needed.trees,
      ∃ seq ∈ walked.needed.trees, storage.identities oid = some ⟨.tree, seq⟩ := by
    intro oid listed
    rcases Storage.mem_oidsOf.mp listed with ⟨seq, inNeeded, named⟩
    exact ⟨seq, inNeeded, (numbered oid .tree seq).mp named⟩
  have blobOid : ∀ oid ∈ (if args.keeps .blob then storage.oidsOf .blob walked.needed.blobs else []),
      ∃ seq ∈ walked.needed.blobs, storage.identities oid = some ⟨.blob, seq⟩ := by
    intro oid listed
    split at listed
    · rcases Storage.mem_oidsOf.mp listed with ⟨seq, inNeeded, named⟩
      exact ⟨seq, inNeeded, (numbered oid .blob seq).mp named⟩
    · cases listed
  have directOid : ∀ oid ∈ (Storage.directWants walked wants.looseWants).map LooseWant.oid,
      ∃ seq, seq ∉ walked.needed.blobs ∧ seq ∉ walked.backfillSeqs.blobs ∧
        storage.identities oid = some ⟨.blob, seq⟩ := by
    intro oid listed
    rcases plan.mem_directWants.mp listed with ⟨-, seq, named, uncovered⟩
    have outside : ¬(seq ∈ walked.needed.blobs ∨ seq ∈ walked.backfillSeqs.blobs) := by
      rw [← ShallowNeeded.contains_blob, uncovered]
      exact Bool.false_ne_true
    exact ⟨seq, fun inside => outside (Or.inl inside), fun inside => outside (Or.inr inside), named⟩
  have backfillOid : ∀ oid ∈ (Storage.keptBackfill args walked).map LooseWant.oid,
      ∃ kind seq, (kind = .tree ∧ seq ∉ walked.needed.trees ∨
          kind = .blob ∧ seq ∈ walked.backfillSeqs.blobs ∧ seq ∉ walked.needed.blobs) ∧
        storage.identities oid = some ⟨kind, seq⟩ := by
    intro oid listed
    rcases plan.mem_keptBackfill.mp listed with ⟨kind, seq, place, named, -⟩
    refine ⟨kind, seq, ?_, (numbered oid kind seq).mp named⟩
    exact place.imp (fun inTrees => ⟨inTrees.1, inTrees.2.2⟩) id
  simp only [Storage.countedOids, nodup_append, mem_append]
  refine ⟨plan.commits_nodup consistent, ⟨numbered.oidsOf_nodup _ _, ⟨?_, ⟨?_, ?_, ?_⟩, ?_⟩, ?_⟩, ?_⟩
  · split
    · exact numbered.oidsOf_nodup _ _
    · exact nodup_nil
  · exact Stream.keepFirst_nodup _ _
  · exact plan.keptBackfill_nodup consistent
  · grind
  · grind
  · grind
  · grind

theorem FetchPlan.mem_countedOids (plan : FetchPlan storage args wants walked batch) :
    oid ∈ storage.countedOids args wants walked ↔
      oid ∈ (Storage.directWants walked wants.looseWants).map LooseWant.oid ∨
        ∃ kind, storage.InWalk walked kind oid ∧ args.keeps kind = true := by
  have blobs : oid ∈ (if args.keeps .blob then storage.oidsOf .blob walked.needed.blobs else []) ↔
      args.keeps .blob = true ∧ oid ∈ storage.oidsOf .blob walked.needed.blobs := by
    split_ifs with kept <;> simp [kept]
  simp only [Storage.countedOids, mem_append, plan.inWalk_kept_iff, blobs]
  tauto

theorem FetchPlan.written_nodup (consistent : storage.Consistent)
    (plan : FetchPlan storage args wants walked batch) {sources : List (List PackEntry)}
    {arrived : List PackEntry} (fetched : storage.fetchSources batch = .ok sources)
    (merged : Stream.Interleaved sources arrived) :
    (batch.tagObjects ++ (Stream.keepFirst PackEntry.oid [] arrived).map PackEntry.oid).Nodup := by
  refine nodup_append.mpr ⟨?_, Stream.keepFirst_nodup _ _, ?_⟩
  · rw [plan.tags]
    rcases Storage.resolveWants_eq_ok plan.resolved with ⟨settled, distinct, -, rfl⟩
    exact distinct.filter _
  · rintro oid isTag _ delivered rfl
    rw [plan.tags, plan.mem_tagObjects, Storage.isKind_iff] at isTag
    rcases isTag with ⟨-, tagSeq, tagNamed⟩
    rw [Stream.mem_map_keepFirst, (merged.perm.map PackEntry.oid).mem_iff,
      plan.mem_sources consistent fetched] at delivered
    rcases delivered with ⟨-, direct | ⟨kind, found, -⟩⟩
    · rcases plan.mem_directWants.mp direct with ⟨-, seq, named, -⟩
      cases Option.some.inj (tagNamed.symm.trans named)
    · rcases plan.identity_of_inWalk consistent found with ⟨seq, named⟩
      cases Option.some.inj (tagNamed.symm.trans named)
      cases found

/-- A stream that ends has written as many entries as its header announced, and no object twice. -/
theorem written_length_eq_totalCount (consistent : storage.Consistent)
    (planned : storage.planFetch args = .ok batch) {written : List PackEntry}
    (streams : storage.Streams batch written) :
    written.length = batch.totalCount ∧ (written.map PackEntry.oid).Nodup := by
  rcases planFetch_eq_ok planned with ⟨wants, walked, plan⟩
  rcases streams with ⟨sources, arrived, fetched, merged, rfl⟩
  refine ⟨?_, ?_⟩
  · have delivered : (arrived.map PackEntry.oid).toFinset =
        (storage.countedOids args wants walked).toFinset := by
      ext oid
      rw [mem_toFinset, mem_toFinset, (merged.perm.map PackEntry.oid).mem_iff,
        plan.mem_sources consistent fetched, plan.mem_countedOids]
    rw [length_append, length_map, Stream.length_keepFirst, delivered,
      toFinset_card_of_nodup (plan.countedOids_nodup consistent),
      plan.length_countedOids consistent, plan.total]
    omega
  · have tagOids : (batch.tagObjects.map fun oid => (⟨oid, .tag, .stored⟩ : PackEntry)).map
        PackEntry.oid = batch.tagObjects := by
      rw [map_map]
      exact map_id _
    rw [map_append, tagOids]
    exact plan.written_nodup consistent fetched merged

end Streamed

/-- Two root commits, each with a tree of one blob, and a tag on the first blob. -/
def twoRoots : Storage where
  index := [⟨0, ⟨[], 0⟩⟩, ⟨1, ⟨[], 1⟩⟩].toAList
  packs := fun seq =>
    if seq = 0 then some ⟨4, 20, ⟨7, 0, 24⟩, {0}, {0}⟩
    else if seq = 1 then some ⟨4, 20, ⟨8, 0, 24⟩, {1}, {1}⟩ else none
  trees := [⟨0, .listing ⟨∅, {0}⟩⟩, ⟨1, .listing ⟨∅, {1}⟩⟩].toAList
  blobs := [⟨0, .located ⟨0, 100, ⟨7, 0, 24⟩, 20, 4, none⟩⟩,
    ⟨1, .located ⟨1, 101, ⟨8, 0, 24⟩, 20, 4, none⟩⟩].toAList
  identities := fun oid =>
    if oid = 100 then some ⟨.commit, 0⟩ else if oid = 101 then some ⟨.commit, 1⟩
    else if oid = 200 then some ⟨.tree, 0⟩ else if oid = 201 then some ⟨.tree, 1⟩
    else if oid = 300 then some ⟨.blob, 0⟩ else if oid = 301 then some ⟨.blob, 1⟩
    else if oid = 400 then some ⟨.tag, 0⟩ else none
  oidOf := fun kind seq => match kind with
    | .commit => if seq = 0 then some 100 else if seq = 1 then some 101 else none
    | .tree => if seq = 0 then some 200 else if seq = 1 then some 201 else none
    | .blob => if seq = 0 then some 300 else if seq = 1 then some 301 else none
    | .tag => if seq = 0 then some 400 else none
  tags := [⟨400, .ok (.tag 300)⟩].toAList
  image := fun segment =>
    if segment = ⟨7, 0, 24⟩ then
      some ⟨3, [⟨100, .commit, none, 4⟩, ⟨200, .tree, none, 4⟩, ⟨300, .blob, none, 4⟩]⟩
    else if segment = ⟨8, 0, 24⟩ then
      some ⟨3, [⟨101, .commit, none, 4⟩, ⟨201, .tree, none, 4⟩, ⟨301, .blob, none, 4⟩]⟩
    else none
  rebuild := fun _ => .ok ()

theorem consistent_twoRoots : twoRoots.Consistent := by
  refine ⟨?_, ?_, ?_⟩
  · intro seq parent isParent
    rw [CommitIndex.parents] at isParent
    split at isParent
    next entry found =>
      have isKey : seq ∈ twoRoots.index.keys := AList.lookup_isSome.mp (by rw [found]; rfl)
      have keys : twoRoots.index.keys = [0, 1] := by decide
      rw [keys] at isKey
      have which : seq = 0 ∨ seq = 1 := by simpa using isKey
      rcases which with rfl | rfl
      · cases found
        cases isParent
      · cases found
        cases isParent
    next => cases isParent
  · intro oid kind seq
    simp only [twoRoots]
    constructor
    · intro named
      cases kind <;> simp only at named <;> split_ifs at named <;>
        (cases named; subst_vars; rfl)
    · intro named
      split_ifs at named <;> (cases named; subst_vars; rfl)
  · intro seq pack packed
    simp only [twoRoots] at packed
    split_ifs at packed with first second
    · cases packed
      exact ⟨_, rfl, [0], [0], by simp, by simp, rfl, rfl, by subst first; rfl⟩
    · cases packed
      exact ⟨_, rfl, [1], [1], by simp, by simp, rfl, rfl, by subst second; rfl⟩

def everything : FetchArgs where
  wants := [100, 101, 400, 301, 301]
  haves := []
  filter := none
  shallow := []
  deepen := none

/-- The tag, and the three objects of each image. -/
theorem written_length_everything : ∃ batch written,
    twoRoots.planFetch everything = .ok batch ∧ twoRoots.Streams batch written ∧
      batch.totalCount = 7 ∧ written.length = 7 ∧ (written.map PackEntry.oid).Nodup := by
  have reads : (twoRoots.planFetch everything >>= twoRoots.fetchSources) =
      .ok [[⟨100, .commit, .stored⟩, ⟨200, .tree, .stored⟩, ⟨300, .blob, .stored⟩],
        [⟨101, .commit, .stored⟩, ⟨201, .tree, .stored⟩, ⟨301, .blob, .stored⟩]] := by
    decide +kernel
  rcases Except.bind_eq_ok_iff.mp reads with ⟨batch, planned, fetched⟩
  have counted : (twoRoots.planFetch everything).map PackBatch.totalCount = .ok 7 := by
    decide +kernel
  rw [planned] at counted
  injection counted with total
  have streams : twoRoots.Streams batch _ :=
    ⟨_, _, fetched, Stream.Interleaved.flatten _, rfl⟩
  rcases written_length_eq_totalCount consistent_twoRoots planned streams with ⟨length, distinct⟩
  exact ⟨batch, _, planned, streams, total, length.trans total, distinct⟩

/-- A partial clone of the first commit together with a direct want for its blob. -/
def cloneAndBlob : FetchArgs where
  wants := [100, 300]
  haves := []
  filter := some .blobNone
  shallow := []
  deepen := none

/-- The blob is in the pack of the commit, so it is not sent on its own, and the filter keeps it
from being sent with the pack. -/
theorem cloneAndBlob_loses_blob : twoRoots.Consistent ∧ ∃ wants walked batch written,
    twoRoots.resolveWants cloneAndBlob.wants = .ok wants ∧
      twoRoots.graph.needed twoRoots.objects wants.commitWants cloneAndBlob.haves
        cloneAndBlob.shallow cloneAndBlob.deepen = .ok walked ∧
      twoRoots.planFetch cloneAndBlob = .ok batch ∧ twoRoots.Streams batch written ∧
      twoRoots.Expected cloneAndBlob walked 300 ∧ 300 ∉ written.map PackEntry.oid := by
  have reads : (twoRoots.planFetch cloneAndBlob >>= twoRoots.fetchSources) =
      .ok [[⟨100, .commit, .stored⟩, ⟨200, .tree, .stored⟩]] := by
    decide +kernel
  have noTags : (twoRoots.planFetch cloneAndBlob).map PackBatch.tagObjects = .ok [] := by
    decide +kernel
  rcases Except.bind_eq_ok_iff.mp reads with ⟨batch, planned, fetched⟩
  rcases planFetch_eq_ok planned with ⟨wants, walked, plan⟩
  rw [planned] at noTags
  injection noTags with noTags
  refine ⟨consistent_twoRoots, wants, walked, batch, _, plan.resolved, plan.walk, planned,
    ⟨_, _, fetched, Stream.Interleaved.flatten _, rfl⟩, ?_, ?_⟩
  · exact Or.inr ⟨⟨300, by simp [cloneAndBlob], .refl⟩, Or.inr (by decide)⟩
  · rw [noTags]
    decide

/-- A partial clone of the first commit with a direct want for the other commit's blob. -/
def cloneAndOtherBlob : FetchArgs :=
  { cloneAndBlob with wants := [100, 301] }

/-- That blob is outside the walk and is sent under the same filter. -/
theorem written_iff_expected_cloneAndOtherBlob : ∃ wants walked batch written,
    twoRoots.resolveWants cloneAndOtherBlob.wants = .ok wants ∧
      twoRoots.planFetch cloneAndOtherBlob = .ok batch ∧ twoRoots.Streams batch written ∧
      written.map PackEntry.oid = [301, 100, 200] ∧
      ∀ oid, oid ∈ written.map PackEntry.oid ↔
        twoRoots.Expected cloneAndOtherBlob walked oid := by
  have reads : (twoRoots.planFetch cloneAndOtherBlob >>= twoRoots.fetchSources) =
      .ok [[⟨301, .blob, .stored⟩], [⟨100, .commit, .stored⟩, ⟨200, .tree, .stored⟩]] := by
    decide +kernel
  have noTags : (twoRoots.planFetch cloneAndOtherBlob).map PackBatch.tagObjects = .ok [] := by
    decide +kernel
  rcases Except.bind_eq_ok_iff.mp reads with ⟨batch, planned, fetched⟩
  rcases planFetch_eq_ok planned with ⟨wants, walked, plan⟩
  rw [planned] at noTags
  injection noTags with noTags
  have outside : walked.contains (.blob 1) = false := by
    have both : (twoRoots.resolveWants cloneAndOtherBlob.wants >>= fun wants =>
        (twoRoots.graph.needed twoRoots.objects wants.commitWants [] [] none).map
          fun walked => walked.contains (.blob 1)) = .ok false := by
      decide +kernel
    rw [plan.resolved, Except.bind_eq_ok_iff] at both
    rcases both with ⟨again, same, walks⟩
    cases same
    have walk : twoRoots.graph.needed twoRoots.objects wants.commitWants [] [] none = .ok walked :=
      plan.walk
    rw [walk] at walks
    injection walks
  have streams : twoRoots.Streams batch _ := ⟨_, _, fetched, Stream.Interleaved.flatten _, rfl⟩
  refine ⟨wants, walked, batch, _, plan.resolved, planned, streams, ?_, ?_⟩
  · rw [noTags]
    decide
  refine (written_iff_expected consistent_twoRoots plan.resolved plan.walk planned streams).mpr
    (Or.inr ?_)
  rintro oid ⟨want, wanted, path⟩ isBlob ⟨seq, covered, named⟩
  have which : want = 100 ∨ want = 301 := by simpa [cloneAndOtherBlob] using wanted
  have unpeeled : twoRoots.peelTarget want = none := by
    rcases which with rfl | rfl <;> decide
  obtain rfl : want = oid := by
    rcases path.cases_head with same | ⟨target, peels, -⟩
    · exact same
    · rw [Storage.Peels, unpeeled] at peels
      cases peels
  rcases which with rfl | rfl
  · revert isBlob
    decide
  · cases Option.some.inj ((consistent_twoRoots.numbered 301 .blob seq).mp named)
    rw [outside] at covered
    cases covered

end Enroute
