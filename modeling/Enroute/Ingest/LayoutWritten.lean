import Enroute.Ingest.Written

/-!
# Recorded places are true

Every place an upload records spans an entry of the object it is recorded for, in a segment the
upload has written. Segments do not change, so this stays true of every bucket that uploads and
sweeps lead to, and what a later upload forwards from there is right again.
-/

namespace Enroute

open Layout List Placed

namespace Pump

variable {ids : ℕ → ℕ} {index : ℕ} {segments : List (List WrittenImage)}

theorem mem_promotedFrom {image : ObjectId × List PackTrailerEntry × SegmentLocation} :
    image ∈ promotedFrom ids index segments ↔ ∃ run number written,
      (run, number) ∈ segments.zipIdx index ∧ written ∈ run ∧
        image = WrittenImage.promoted (ids number) written := by
  rw [promotedFrom, mem_flatMap]
  constructor
  · rintro ⟨⟨run, number⟩, isRun, listed⟩
    rcases mem_map.mp listed with ⟨written, isImage, rfl⟩
    exact ⟨run, number, written, isRun, isImage, rfl⟩
  · rintro ⟨run, number, written, isRun, isImage, rfl⟩
    exact ⟨(run, number), isRun, mem_map_of_mem isImage⟩

theorem map_promotedFrom :
    (promotedFrom ids index segments).map Prod.fst =
      segments.flatten.map fun written => written.image.commitOid := by
  induction segments generalizing index with
  | nil => rfl
  | cons run segments ih =>
    rw [promotedFrom, zipIdx_cons, flatMap_cons, map_append, ← promotedFrom, ih,
      map_map, flatten_cons, map_append]
    rfl

theorem mem_objectsFrom {run : List WrittenImage} {number : ℕ}
    (isRun : (run, number) ∈ segments.zipIdx index) :
    (ids number, run.flatMap WrittenImage.bytes) ∈ objectsFrom ids index segments :=
  mem_map_of_mem isRun

theorem map_objectsFrom :
    (objectsFrom ids index segments).map Prod.fst =
      (List.range' index segments.length).map ids := by
  induction segments generalizing index with
  | nil => rfl
  | cons run segments ih =>
    rw [objectsFrom, zipIdx_cons, map_cons, map_cons, ← objectsFrom, ih,
      length_cons, List.range'_succ, map_cons]

end Pump

namespace Upload

variable {upload : Upload} {bucket : Bucket} {plan : List PlannedImage}
  {objects : List (ℕ × Bytes)} {segments : List (List WrittenImage)} {built : CommitPackBuilt}

structure CommitRecorded (objects : List (ℕ × Bytes)) (segments : List (List WrittenImage))
    (commit : ObjectId) (place : PromotedCommit) (written : WrittenImage) : Prop where
  isImage : written ∈ segments.flatten
  commitOid : written.image.commitOid = commit
  baseOffset : place.segment.baseOffset = written.image.baseOffset
  imageLen : place.segment.imageLen = written.bytes.length
  /-- The image is in the object the place names. -/
  stored : ∃ object, (place.segment.id, object) ∈ objects ∧
    Fields.slice object place.segment.baseOffset place.segment.imageLen = some written.bytes
  blobs : BlobsFrom written place.blobOffset

structure EntryRecorded (upload : Upload) (bucket : Bucket) (objects : List (ℕ × Bytes))
    (oid : ObjectId) (location : CommitPackLocation) (commit : PlannedCommit)
    (planned : DeltaEntry) (object bytes : Bytes) (header : PackEntryHeader) (body : Bytes) :
    Prop where
  isCommit : commit ∈ upload.perCommit
  packSha : commit.commitOid = location.image.packSha
  isPlanned : planned ∈ commit.all
  isOid : planned.oid = oid
  stored : (location.segment.id, object) ∈ objects
  span : spanOf object location = some bytes
  decodes : Decodes bytes header body
  sha : header.sha = oid
  base : header.base = location.image.base
  own : upload.Own bucket planned header body

theorem Written.commitOids (isWritten : upload.Written bucket objects segments) :
    (segments.flatten.map fun written => written.image.commitOid).Nodup := by
  rw [← map_eq_of_forall₂ (fun _ _ isWritten => isWritten.commitOid.symm) isWritten.images]
  exact upload.distinct

/-- A written image with the commit it is of, in the segment it is in. -/
structure Placed (upload : Upload) (bucket : Bucket) (segments : List (List WrittenImage))
    (run : List WrittenImage) (number : ℕ) (written : WrittenImage) (commit : PlannedCommit) :
    Prop where
  isRun : (run, number) ∈ segments.zipIdx
  isImage : written ∈ run
  isCommit : commit ∈ upload.perCommit
  isWritten : upload.ImageWritten bucket commit written

theorem Written.exists_placed (isWritten : upload.Written bucket objects segments)
    {commit : ObjectId} {trailer : List PackTrailerEntry} {segment : SegmentLocation}
    (listed : (commit, trailer, segment) ∈ Pump.promotedFrom upload.ids 0 segments) :
    ∃ run number written planned, upload.Placed bucket segments run number written planned ∧
      planned.commitOid = commit ∧ trailer = written.trailer ∧
      segment = ⟨upload.ids number, written.image.baseOffset, written.image.imageLen⟩ := by
  rcases Pump.mem_promotedFrom.mp listed with ⟨run, number, written, isRun, isImage, isPromoted⟩
  have inSegments : run ∈ segments := (mem_zipIdx isRun).2.2 ▸ getElem_mem _
  rcases exists_left isWritten.images (mem_flatten.mpr ⟨run, inSegments, isImage⟩) with
    ⟨planned, isCommit, imageWritten⟩
  cases isPromoted
  exact ⟨run, number, written, planned, ⟨isRun, isImage, isCommit, imageWritten⟩,
    imageWritten.commitOid.symm, rfl, rfl⟩

variable {commit : PlannedCommit} {number : ℕ} {run : List WrittenImage} {written : WrittenImage}

theorem Placed.inSegments (placed : upload.Placed bucket segments run number written commit) :
    run ∈ segments :=
  (mem_zipIdx placed.isRun).2.2 ▸ getElem_mem _

theorem Placed.entryRecorded (isWritten : upload.Written bucket objects segments)
    (placed : upload.Placed bucket segments run number written commit) {entry : WrittenEntry}
    (isEntry : entry ∈ written.entries) :
    ∃ planned object bytes header body, upload.EntryRecorded bucket objects entry.entry.oid
      ⟨⟨commit.commitOid, entry.entry.offset, entry.entry.entryLen, entry.entry.base⟩,
        ⟨upload.ids number, written.image.baseOffset, written.image.imageLen⟩⟩
      commit planned object bytes header body := by
  rcases exists_left placed.isWritten.each isEntry with ⟨planned, isPlanned, header, body, wrote⟩
  refine ⟨planned, run.flatMap WrittenImage.bytes, entry.bytes, header, body, placed.isCommit, rfl,
    isPlanned, wrote.oid.symm, ?_, isWritten.span placed.inSegments placed.isImage isEntry,
    wrote.decodes, wrote.sha.trans wrote.oid.symm, wrote.base, wrote.own⟩
  rw [isWritten.objects]
  exact Pump.mem_objectsFrom placed.isRun

theorem Placed.base_lookup (placed : upload.Placed bucket segments run number written commit)
    (isWritten : upload.Written bucket objects segments)
    (isPlan : segments.flatten.map WrittenImage.image = plan) {first entry : WrittenEntry}
    {rest : List WrittenEntry} (isEntries : written.entries = first :: rest)
    (isEntry : entry ∈ rest) :
    (((Promotion.basesOf plan).lookup commit.commitOid).bind (·.lookup entry.entry.oid)).join =
      entry.entry.base := by
  have distinct : (plan.map PlannedImage.commitOid).Nodup := by
    rw [← isPlan, map_map]
    exact isWritten.commitOids
  have isImage : written.image ∈ plan := by
    rw [← isPlan]
    exact mem_map_of_mem (mem_flatten.mpr ⟨run, placed.inSegments, placed.isImage⟩)
  have isBases : (Promotion.basesOf plan).lookup commit.commitOid =
      some (Promotion.imageBases written.image) := by
    rw [← placed.isWritten.commitOid]
    exact Table.lookup_enter_of_mem distinct isImage
  rcases placed.isWritten.exists_head with ⟨_, _, isHead, -, -, -, -, sameOids⟩
  cases isEntries.symm.trans isHead
  -- The commit is entered first, so what is entered for another entry stays.
  have isBase : (Promotion.imageBases written.image).lookup entry.entry.oid =
      some entry.entry.base := by
    rw [Promotion.imageBases, ← placed.isWritten.entries, isEntries, map_cons]
    refine @Table.lookup_enter_of_mem _ _ _ _ PlannedEntry.oid PlannedEntry.base
      (rest.map WrittenEntry.entry) _ ?_ entry.entry (mem_map_of_mem isEntry)
    rw [map_map]
    exact sameOids ▸ commit.distinct
  rw [isBases, Option.bind_some, isBase]
  rfl

theorem Written.commitRecorded (isWritten : upload.Written bucket objects segments)
    {bases : Promotion.Bases}
    (records : Promotion.Records bases (Pump.promotedFrom upload.ids 0 segments) built)
    {commit : ObjectId} {place : PromotedCommit}
    (isPromoted : built.promoted.lookup commit = some place) :
    ∃ written, CommitRecorded objects segments commit place written := by
  rcases records.promoted commit place isPromoted with ⟨first, rest, segment, listed, rfl⟩
  rcases isWritten.exists_placed listed with
    ⟨run, number, written, planned, placed, rfl, isTrailer, rfl⟩
  have sized := placed.isWritten.imageLen.symm
  have sliced := @PlacedFrom.slice _ _ _ run WrittenImage.bytes [] [] written
    (isWritten.placed run placed.inSegments) (fun _ _ => rfl) placed.isImage
  rw [nil_append, append_nil, ← sized] at sliced
  refine ⟨written, mem_flatten.mpr ⟨run, placed.inSegments, placed.isImage⟩,
    placed.isWritten.commitOid, rfl, sized, ⟨run.flatMap WrittenImage.bytes, ?_, sliced⟩, ?_⟩
  · rw [isWritten.objects]
    exact Pump.mem_objectsFrom placed.isRun
  · rw [Promotion.commitRecord, isTrailer]
    exact placed.isWritten.blobsFrom

theorem Written.entryRecorded (isWritten : upload.Written bucket objects segments)
    (isPlan : segments.flatten.map WrittenImage.image = plan)
    (records : Promotion.Records (Promotion.basesOf plan)
      (Pump.promotedFrom upload.ids 0 segments) built)
    {oid : ObjectId} {location : CommitPackLocation} (places : built.Places oid location) :
    ∃ commit planned object bytes header body,
      upload.EntryRecorded bucket objects oid location commit planned object bytes header body := by
  cases places with
  | @commit place isPromoted =>
    rcases records.promoted oid place isPromoted with ⟨first, rest, segment, listed, rfl⟩
    rcases isWritten.exists_placed listed with
      ⟨run, number, written, commit, placed, rfl, isTrailer, rfl⟩
    rcases placed.isWritten.exists_head with ⟨head, tail, isEntries, -, isOid, noBase, isAt, -⟩
    have isHead : head ∈ written.entries := isEntries ▸ mem_cons_self
    have recorded := placed.entryRecorded isWritten isHead
    rw [WrittenImage.trailer, isEntries, map_cons] at isTrailer
    rw [isOid, noBase, isAt] at recorded
    cases isTrailer
    exact ⟨commit, recorded⟩
  | @object known location place isKnown isLocation isPromoted =>
    rcases (records.objects oid known isKnown).2 location isLocation with
      ⟨packSha, entry, ⟨first, rest, segment, listed, isEntry, rfl⟩, rfl⟩
    rcases records.promoted _ place isPromoted with ⟨other, others, otherSegment, again, rfl⟩
    -- The commits are distinct, so it is the same image twice.
    have distinct : ((Pump.promotedFrom upload.ids 0 segments).map Prod.fst).Nodup := by
      rw [Pump.map_promotedFrom]
      exact isWritten.commitOids
    cases inj_on_of_nodup_map distinct listed again rfl
    rcases isWritten.exists_placed listed with
      ⟨run, number, written, commit, placed, rfl, isTrailer, rfl⟩
    rcases placed.isWritten.exists_head with ⟨head, tail, isEntries, -⟩
    rw [WrittenImage.trailer, isEntries, map_cons] at isTrailer
    cases isTrailer
    rcases mem_map.mp isEntry with ⟨writtenEntry, isTail, rfl⟩
    have isListed : writtenEntry ∈ written.entries := isEntries ▸ mem_cons_of_mem _ isTail
    have recorded := placed.entryRecorded isWritten isListed
    rw [← placed.base_lookup isWritten isPlan isEntries isTail] at recorded
    exact ⟨commit, recorded⟩

/-! ### Running an upload -/

theorem run_eq_ok (ran : upload.run bucket = .ok (objects, built)) :
    ∃ plan images, planImages upload.perCommit upload.sources upload.target = .ok plan ∧
      pumpImages (upload.io bucket) upload.ids plan = .ok (objects, images) ∧
      Promotion.recordImages upload.objectRefs (Promotion.basesOf plan) images = .ok built := by
  rw [run, buildCommitPacks, Except.bind_eq_ok_iff] at ran
  rcases ran with ⟨plan, isPlan, ran⟩
  rw [Except.bind_eq_ok_iff] at ran
  rcases ran with ⟨⟨pumped, images⟩, isPumped, ran⟩
  rw [Except.bind_eq_ok_iff] at ran
  rcases ran with ⟨recorded, isRecorded, returned⟩
  cases returned
  exact ⟨plan, images, isPlan, isPumped, isRecorded⟩

theorem written_of_run (spanned : bucket.Spanned) (from_ : upload.From bucket)
    (isPlan : planImages upload.perCommit upload.sources upload.target = .ok plan)
    (ran : upload.run bucket = .ok (objects, built)) :
    ∃ segments, segments.map (List.map WrittenImage.image) = Pump.splitSegments plan ∧
      upload.Written bucket objects segments ∧
      segments.flatten.map WrittenImage.image = plan ∧
      Promotion.Records (Promotion.basesOf plan) (Pump.promotedFrom upload.ids 0 segments)
        built := by
  rcases run_eq_ok ran with ⟨same, images, isSame, pumped, recorded⟩
  cases isPlan.symm.trans isSame
  rcases exists_written spanned from_ isPlan pumped with ⟨segments, isSplit, isWritten, rfl⟩
  refine ⟨segments, isSplit, isWritten, ?_, Promotion.records_of_recordImages recorded⟩
  rw [map_flatten, isSplit, Pump.flatten_splitSegments]

theorem exists_fetched_image (spanned : bucket.Spanned) (available : upload.Available bucket)
    {image : PlannedImage} (isPlanned : ImagePlanned upload.sources commit image) :
    ∃ written : WrittenImage, written.image = image ∧ Pump.Fetched (upload.io bucket) written := by
  have each : ∀ entry ∈ image.entries, ∃ written : WrittenEntry, written.entry = entry ∧
      Pump.fetchEntry (upload.io bucket) written.entry = .ok (written.bytes, written.length) := by
    intro entry listed
    rcases exists_left isPlanned.each listed with ⟨planned, -, plannedAs⟩
    rcases exists_fetched spanned available plannedAs with ⟨bytes, length, isFetched⟩
    exact ⟨⟨entry, bytes, length⟩, rfl, isFetched⟩
  rcases exists_map_eq each with ⟨entries, isEntries, fetched⟩
  exact ⟨⟨image, entries⟩, rfl, ⟨isEntries, fetched⟩⟩

theorem exists_run (spanned : bucket.Spanned) (from_ : upload.From bucket)
    (available : upload.Available bucket)
    (isPlan : planImages upload.perCommit upload.sources upload.target = .ok plan) :
    ∃ objects built, upload.run bucket = .ok (objects, built) := by
  rcases Pump.exists_cut isPlan (Pump.cut_nil upload.target) with ⟨each, -⟩
  have images : ∀ run ∈ Pump.splitSegments plan, ∀ image ∈ run, ∃ written : WrittenImage,
      written.image = image ∧ Pump.Fetched (upload.io bucket) written := by
    intro run isRun image isImage
    have inPlan : image ∈ plan := by
      rw [← Pump.flatten_splitSegments plan]
      exact mem_flatten.mpr ⟨run, isRun, isImage⟩
    rcases exists_left each inPlan with ⟨commit, -, isPlanned⟩
    exact exists_fetched_image spanned available isPlanned
  rcases exists_map_eq fun run isRun => exists_map_eq (images run isRun) with
    ⟨segments, isSplit, fetched⟩
  have pumped : pumpImages (upload.io bucket) upload.ids plan =
      .ok (Pump.objectsFrom upload.ids 0 segments, Pump.promotedFrom upload.ids 0 segments) :=
    Pump.writeSegments_eq_ok_iff.mpr ⟨segments, isSplit, fetched, rfl, rfl⟩
  rcases exists_written spanned from_ isPlan pumped with ⟨others, -, isWritten, isImages⟩
  have some_ : ∀ image ∈ Pump.promotedFrom upload.ids 0 segments, image.2.1 ≠ [] := by
    rintro ⟨commit, trailer, segment⟩ listed isNil
    rw [isImages] at listed
    rcases isWritten.exists_placed listed with
      ⟨run, number, written, planned, placed, -, isTrailer, -⟩
    rcases placed.isWritten.exists_head with ⟨first, rest, isEntries, -⟩
    rw [WrittenImage.trailer, isEntries] at isTrailer
    exact cons_ne_nil _ _ (isTrailer.symm.trans isNil)
  rcases @Promotion.exists_recordImages upload.objectRefs (Promotion.basesOf plan) _ some_ with
    ⟨built, recorded⟩
  refine ⟨Pump.objectsFrom upload.ids 0 segments, built, ?_⟩
  rw [run, buildCommitPacks, isPlan, Except.ok_bind, pumped, Except.ok_bind]
  dsimp only
  rw [recorded]
  rfl

end Upload

namespace Bucket

variable {bucket : Bucket} {upload : Upload} {objects : List (ℕ × Bytes)} {built : CommitPackBuilt}

theorem lookup_of_mem (distinct : (objects.map Prod.fst).Nodup) {id : ℕ} {object : Bytes}
    (listed : (id, object) ∈ objects) : objects.lookup id = some object := by
  rcases append_of_mem listed with ⟨front, back, rfl⟩
  refine lookup_eq_some_iff.mpr ⟨front, back, rfl, fun other isOther => ?_⟩
  rw [map_append, nodup_append] at distinct
  exact bne_iff_ne.mpr (distinct.2.2 other.1 (mem_map_of_mem isOther) id (by simp)).symm

theorem Spanned.take (spanned : bucket.Spanned) (from_ : upload.From bucket)
    (ran : upload.run bucket = .ok (objects, built)) : (bucket.take objects built).Spanned := by
  rcases Upload.run_eq_ok ran with ⟨plan, images, isPlan, -⟩
  rcases Upload.written_of_run spanned from_ isPlan ran with
    ⟨segments, -, isWritten, isImages, records⟩
  have keys : objects.map Prod.fst = (List.range' 0 segments.length).map upload.ids := by
    rw [isWritten.objects, Pump.map_objectsFrom]
  have distinct : (objects.map Prod.fst).Nodup := by
    rw [keys]
    exact List.Nodup.map upload.idsDistinct nodup_range'
  have fresh : ∀ id ∈ bucket.used, objects.lookup id = none := by
    intro id isUsed
    refine lookup_eq_none_iff.mpr fun object listed => bne_iff_ne.mpr ?_
    rintro rfl
    have isKey := mem_map_of_mem (f := Prod.fst) listed
    rw [keys] at isKey
    rcases mem_map.mp isKey with ⟨index, -, isId⟩
    exact from_.fresh index (isId ▸ isUsed)
  refine ⟨fun id object isStored => ?_, fun oid location isRecorded => ?_,
    fun oid location isRecorded object isStored => ?_⟩
  · rcases Option.or_eq_some_iff.mp isStored with isNew | ⟨-, isOld⟩
    · rcases lookup_eq_some_iff.mp isNew with ⟨front, back, rfl, -⟩
      exact Or.inr (by simp)
    · exact Or.inl (spanned.stored id object isOld)
  · rcases isRecorded with isOld | isNew
    · exact Or.inl (spanned.named oid location isOld)
    · rcases isWritten.entryRecorded isImages records isNew with ⟨_, _, object, _, _, _, recorded⟩
      exact Or.inr (mem_map_of_mem (f := Prod.fst) recorded.stored)
  · rcases isRecorded with isOld | isNew
    · have isStored : (objects.lookup location.segment.id).or
          (bucket.segments location.segment.id) = some object := isStored
      rw [fresh _ (spanned.named oid location isOld), Option.none_or] at isStored
      exact spanned.spans oid location isOld object isStored
    · rcases isWritten.entryRecorded isImages records isNew with
        ⟨_, _, written, bytes, header, body, recorded⟩
      have isStored : (objects.lookup location.segment.id).or
          (bucket.segments location.segment.id) = some object := isStored
      rw [lookup_of_mem distinct recorded.stored, Option.some_or, Option.some.injEq] at isStored
      subst isStored
      exact ⟨bytes, header, body, recorded.span, recorded.decodes, recorded.sha, recorded.base⟩

theorem Reached.spanned (reached : bucket.Reached) : bucket.Spanned := by
  induction reached with
  | empty =>
    exact ⟨fun _ _ isStored => (nomatch isStored), fun _ _ isRecorded => isRecorded.elim,
      fun _ _ isRecorded => isRecorded.elim⟩
  | upload _ from_ ran spanned => exact spanned.take from_ ran
  | @stray bucket id object _ fresh spanned =>
    refine ⟨fun other stored isStored => ?_, fun oid location isRecorded => ?_,
      fun oid location isRecorded stored isStored => ?_⟩
    · by_cases same : other = id
      · exact Or.inl same
      · dsimp only at isStored
        rw [Function.update_of_ne same] at isStored
        exact Or.inr (spanned.stored other stored isStored)
    · exact Or.inr (spanned.named oid location isRecorded)
    · have other : location.segment.id ≠ id := by
        rintro rfl
        exact fresh (spanned.named oid location isRecorded)
      dsimp only at isStored
      rw [Function.update_of_ne other] at isStored
      exact spanned.spans oid location isRecorded stored isStored
  | @swept bucket keep _ spanned =>
    have kept : ∀ {id object}, (if keep id then bucket.segments id else none) = some object →
        bucket.segments id = some object :=
      fun isStored => (Option.ite_none_right_eq_some.mp isStored).2
    exact ⟨fun id object isStored => spanned.stored id object (kept isStored), spanned.named,
      fun oid location isRecorded object isStored =>
        spanned.spans oid location isRecorded object (kept isStored)⟩

end Bucket

/-- The planned layout is the written layout, for every upload into every bucket that is reached. An
upload that has been planned can be written while what it forwards is there. -/
theorem planned_layout_written {bucket : Bucket} (reached : bucket.Reached) {upload : Upload}
    (from_ : upload.From bucket) {plan : List PlannedImage}
    (isPlan : planImages upload.perCommit upload.sources upload.target = .ok plan) :
    (upload.Available bucket → ∃ objects built, upload.run bucket = .ok (objects, built)) ∧
      ∀ objects built, upload.run bucket = .ok (objects, built) → ∃ segments,
        segments.map (List.map WrittenImage.image) = Pump.splitSegments plan ∧
        upload.Written bucket objects segments ∧
        (∀ commit ∈ upload.perCommit, commit.commitOid ∈ built.promoted) ∧
        (∀ commit place, built.promoted.lookup commit = some place →
          ∃ written, Upload.CommitRecorded objects segments commit place written) ∧
        ∀ oid location, built.Places oid location → ∃ commit planned object bytes header body,
          upload.EntryRecorded bucket objects oid location commit planned object bytes header
            body := by
  refine ⟨fun available => Upload.exists_run reached.spanned from_ available isPlan,
    fun objects built ran => ?_⟩
  rcases Upload.written_of_run reached.spanned from_ isPlan ran with
    ⟨segments, isSplit, isWritten, isImages, records⟩
  refine ⟨segments, isSplit, isWritten, fun commit isCommit => ?_,
    fun commit place isPromoted => isWritten.commitRecorded records isPromoted,
    fun oid location places => isWritten.entryRecorded isImages records places⟩
  have listed : commit.commitOid ∈ (Pump.promotedFrom upload.ids 0 segments).map Prod.fst := by
    rw [Pump.map_promotedFrom,
      ← map_eq_of_forall₂ (fun _ _ isWritten => isWritten.commitOid.symm) isWritten.images]
    exact mem_map_of_mem isCommit
  rcases mem_map.mp listed with ⟨image, isImage, isOid⟩
  exact isOid ▸ records.every image isImage

/-- Two commits, one with a tree it staged and a blob kept from the client's pack. -/
def stagedAndKept : Upload where
  perCommit := [
    ⟨1, .encoded, [⟨2, .tree, none, .encoded⟩, ⟨3, .blob, none, .wire ⟨0, 0⟩⟩],
      ⟨[⟨2, .tree, none, .encoded⟩], [⟨3, .blob, none, .wire ⟨0, 0⟩⟩], rfl, by simp, by simp⟩,
      by decide, by decide, by
        intro entry listed
        simp only [mem_cons, not_mem_nil, or_false] at listed
        rcases listed with rfl | rfl <;> exact ⟨by decide, nofun⟩⟩,
    ⟨4, .encoded, [], treesFirst_nil, by decide, by decide, nofun⟩]
  distinct := by decide
  wire := [⟨[0x30, 9, 9], [⟨.whole .blob, 5, ⟨0, 3⟩, 1⟩], [3], rfl⟩]
  wireFits := by simp
  staged := [(⟨1, .commit, none, 2⟩, [7]), (⟨2, .tree, none, 3⟩, [8, 8]),
    (⟨4, .commit, none, 1⟩, [6])]
  prefetched := ∅
  objectRefs := ∅
  target := 100
  arrive := fun bytes => [bytes]
  whole := by simp
  ids := id
  idsDistinct := Function.injective_id

theorem planned_layout_written_stagedAndKept :
    ∃ objects built, stagedAndKept.run ⟨fun _ => none, ∅, ∅⟩ = .ok (objects, built) ∧
      ∃ segments, stagedAndKept.Written ⟨fun _ => none, ∅, ∅⟩ objects segments := by
  have isPlan : ∃ plan,
      planImages stagedAndKept.perCommit stagedAndKept.sources stagedAndKept.target = .ok plan :=
    ⟨_, rfl⟩
  rcases isPlan with ⟨plan, isPlan⟩
  have from_ : stagedAndKept.From ⟨fun _ => none, ∅, ∅⟩ := ⟨fun _ => nofun, nofun⟩
  have layout := planned_layout_written Bucket.Reached.empty from_ isPlan
  rcases layout.1 nofun with ⟨objects, built, ran⟩
  rcases layout.2 objects built ran with ⟨segments, -, isWritten, -⟩
  exact ⟨objects, built, ran, segments, isWritten⟩

end Enroute
