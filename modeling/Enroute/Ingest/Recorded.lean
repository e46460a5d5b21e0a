import Enroute.Ingest.Promotion

/-!
# What a promotion records

Every place that is recorded is that of an entry of a written image: of the first one for a commit,
of another one for a tree or a blob.
-/

namespace Enroute.Promotion

open List

variable {objectRefs : ObjectHashMap ObjectRefs} {bases : Bases} {images : PromotedImages}
  {built : CommitPackBuilt}

def commitRecord (commitEntry : PackTrailerEntry) (entries : List PackTrailerEntry)
    (segment : SegmentLocation) : PromotedCommit :=
  ⟨commitEntry.entryLen, blobSectionOffset (commitEntry :: entries), segment⟩

def entryRecord (bases : Bases) (packSha : ObjectId) (entry : PackTrailerEntry) :
    PackImageLocation :=
  ⟨packSha, entry.offset, entry.entryLen, ((bases.lookup packSha).bind (·.lookup entry.sha)).join⟩

/-- Whether an entry other than the first of an image of a commit is that of an object. -/
def Listed (images : PromotedImages) (packSha oid : ObjectId) (entry : PackTrailerEntry) : Prop :=
  ∃ commitEntry entries segment, (packSha, commitEntry :: entries, segment) ∈ images ∧
    entry ∈ entries ∧ entry.sha = oid

/-- Whether everything recorded is of an image, and every image has its commit recorded. -/
structure Records (bases : Bases) (images : PromotedImages) (built : CommitPackBuilt) : Prop where
  promoted : ∀ commit place, built.promoted.lookup commit = some place →
    ∃ commitEntry entries segment, (commit, commitEntry :: entries, segment) ∈ images ∧
      place = commitRecord commitEntry entries segment
  objects : ∀ oid known, built.newObjects.lookup oid = some known → known.oid = oid ∧
    ∀ location ∈ known.locations, ∃ packSha entry, Listed images packSha oid entry ∧
      location = entryRecord bases packSha entry
  every : ∀ image ∈ images, image.1 ∈ built.promoted

theorem records_nil : Records bases [] ⟨∅, ∅⟩ where
  promoted _ _ isPromoted := by cases isPromoted
  objects _ _ isKnown := by cases isKnown
  every _ listed := by cases listed

theorem Listed.append {image : ObjectId × List PackTrailerEntry × SegmentLocation}
    {packSha oid : ObjectId} {entry : PackTrailerEntry} (listed : Listed images packSha oid entry) :
    Listed (images ++ [image]) packSha oid entry := by
  rcases listed with ⟨commitEntry, entries, segment, isImage, isEntry, isOid⟩
  exact ⟨commitEntry, entries, segment, mem_append_left _ isImage, isEntry, isOid⟩

theorem objects_recorded {packSha : ObjectId} {entries : List PackTrailerEntry}
    {newObjects : ObjectHashMap NewObject}
    (before : ∀ oid known, newObjects.lookup oid = some known → known.oid = oid ∧
      ∀ location ∈ known.locations, ∃ packSha entry, Listed images packSha oid entry ∧
        location = entryRecord bases packSha entry)
    (listed : ∀ entry ∈ entries, Listed images packSha entry.sha entry) :
    ∀ oid known, (recordObjectEntriesAbsolute objectRefs packSha (bases.lookup packSha) newObjects
        entries).lookup oid = some known → known.oid = oid ∧
      ∀ location ∈ known.locations, ∃ packSha entry, Listed images packSha oid entry ∧
        location = entryRecord bases packSha entry := by
  induction entries generalizing newObjects with
  | nil => exact before
  | cons entry entries ih =>
    rcases forall_mem_cons.mp listed with ⟨listedHere, listedLater⟩
    rw [recordObjectEntriesAbsolute, foldl_cons]
    refine ih ?_ listedLater
    intro oid known isKnown
    rw [recordEntry] at isKnown
    by_cases same : oid = entry.sha
    · subst same
      rw [AList.lookup_insert, Option.some.injEq] at isKnown
      subst isKnown
      cases isOld : newObjects.lookup entry.sha with
      | none =>
        refine ⟨rfl, fun location isLocation => ?_⟩
        rw [mem_singleton.mp isLocation]
        exact ⟨packSha, entry, listedHere, rfl⟩
      | some old =>
        rcases before entry.sha old isOld with ⟨isOid, oldLocations⟩
        refine ⟨isOid, fun location isLocation => ?_⟩
        rcases mem_append.mp isLocation with isOldOne | isNew
        · exact oldLocations location isOldOne
        · rw [mem_singleton.mp isNew]
          exact ⟨packSha, entry, listedHere, rfl⟩
    · rw [AList.lookup_insert_ne same] at isKnown
      exact before oid known isKnown

theorem Records.recordImage {image : ObjectId × List PackTrailerEntry × SegmentLocation}
    {after : CommitPackBuilt} (records : Records bases images built)
    (recorded : recordImage objectRefs bases built image = .ok after) :
    Records bases (images ++ [image]) after := by
  rcases image with ⟨commit, trailer, segment⟩
  rw [Promotion.recordImage] at recorded
  cases trailer with
  | nil => cases recorded
  | cons commitEntry entries =>
    cases recorded
    have last : (commit, commitEntry :: entries, segment) ∈
        images ++ [(commit, commitEntry :: entries, segment)] :=
      mem_append_right _ mem_cons_self
    refine ⟨?_, ?_, ?_⟩
    · intro other place isPlace
      by_cases same : other = commit
      · subst same
        rw [AList.lookup_insert, Option.some.injEq] at isPlace
        exact ⟨commitEntry, entries, segment, last, isPlace.symm⟩
      · rw [AList.lookup_insert_ne same] at isPlace
        rcases records.promoted other place isPlace with ⟨first, rest, at_, isImage, isRecord⟩
        exact ⟨first, rest, at_, mem_append_left _ isImage, isRecord⟩
    · refine objects_recorded ?_ ?_
      · intro oid known isKnown
        rcases records.objects oid known isKnown with ⟨isOid, locations⟩
        refine ⟨isOid, fun location isLocation => ?_⟩
        rcases locations location isLocation with ⟨packSha, entry, listed, isRecord⟩
        exact ⟨packSha, entry, listed.append, isRecord⟩
      · intro entry isEntry
        exact ⟨commitEntry, entries, segment, last, isEntry, rfl⟩
    · intro other listed
      refine (AList.mem_insert _).mpr ?_
      rcases mem_append.mp listed with earlier | isLast
      · exact Or.inr (records.every other earlier)
      · rw [mem_singleton.mp isLast]
        exact Or.inl rfl

theorem records_of_recordImages (recorded : recordImages objectRefs bases images = .ok built) :
    Records bases images built := by
  suffices onto : ∀ before start, Records bases before start →
      images.foldlM (recordImage objectRefs bases) start = .ok built →
      Records bases (before ++ images) built from onto [] _ records_nil recorded
  clear recorded
  induction images with
  | nil =>
    intro before start records folded
    cases folded
    rwa [append_nil]
  | cons image images ih =>
    intro before start records folded
    rw [foldlM_cons, Except.bind_eq_ok_iff] at folded
    rcases folded with ⟨next, recorded, folded⟩
    have whole := ih (before ++ [image]) next (records.recordImage recorded) folded
    rwa [append_assoc] at whole

theorem exists_recordImages (some_ : ∀ image ∈ images, image.2.1 ≠ []) :
    ∃ built, recordImages objectRefs bases images = .ok built := by
  suffices from_ : ∀ start, ∃ built, images.foldlM (recordImage objectRefs bases) start = .ok built
    from from_ _
  induction images with
  | nil => exact fun start => ⟨start, rfl⟩
  | cons image images ih =>
    intro start
    rcases image with ⟨commit, trailer, segment⟩
    rcases forall_mem_cons.mp some_ with ⟨someHere, someLater⟩
    cases trailer with
    | nil => exact absurd rfl someHere
    | cons commitEntry entries =>
      rcases ih someLater _ with ⟨built, folded⟩
      exact ⟨built, folded⟩

end Enroute.Promotion
