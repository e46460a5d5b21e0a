import Enroute.Ingest.Upload

/-!
# The planned layout is the written layout

Offsets and lengths are planned before a byte is written. What is written is then exactly as
planned: every image is where it was planned and as long as it was planned, its entries follow each
other from the end of its header on, and every place that is recorded spans the entry of its object.
Recorded places stay true, so what later uploads forward is right as well.
-/

namespace Enroute

open Layout List Placed

/-! ### Trees before blobs -/

theorem TreesFirst.pairwise {entries : List DeltaEntry} (ordered : TreesFirst entries) :
    entries.Pairwise fun earlier later => earlier.kind = .blob → later.kind ≠ .tree := by
  rcases ordered with ⟨trees, others, rfl, areTrees, areOthers⟩
  refine pairwise_append.mpr ⟨?_, ?_, ?_⟩
  · refine List.Pairwise.imp_of_mem ?_ (pairwise_of_forall fun _ _ => trivial)
    intro earlier later isEarlier _ _ isBlob
    rw [areTrees earlier isEarlier] at isBlob
    cases isBlob
  · exact List.Pairwise.imp_of_mem (fun _ isLater _ _ => areOthers _ isLater)
      (pairwise_of_forall fun _ _ => trivial)
  · exact fun _ _ later isLater _ => areOthers later isLater

theorem PlannedCommit.pairwise_all (commit : PlannedCommit) :
    commit.all.Pairwise fun earlier later => earlier.kind = .blob → later.kind ≠ .tree :=
  pairwise_cons.mpr ⟨fun _ _ isBlob => (nomatch isBlob), commit.ordered.pairwise⟩

theorem PlannedCommit.inWidth_of_all (commit : PlannedCommit) :
    ∀ planned ∈ commit.all, planned.InWidth :=
  forall_mem_cons.mpr ⟨⟨commit.oidFits, nofun⟩, commit.entriesFit⟩

/-! ### Images -/

namespace Upload

variable {upload : Upload} {bucket : Bucket} {commit : PlannedCommit} {written : WrittenImage}

structure ImageWritten (upload : Upload) (bucket : Bucket) (commit : PlannedCommit)
    (written : WrittenImage) : Prop where
  commitOid : written.image.commitOid = commit.commitOid
  entries : written.entries.map WrittenEntry.entry = written.image.entries
  /-- The entries are those that were planned, in that order. -/
  planned : List.Forall₂ (fun planned (entry : WrittenEntry) => entry.entry.oid = planned.oid ∧
    entry.entry.kind = planned.kind ∧ (entry.entry.base = planned.base ∨ entry.entry.base = none))
    commit.all written.entries
  /-- An entry is its own header and its own body. -/
  each : List.Forall₂ (fun planned (entry : WrittenEntry) => ∃ header body,
    upload.Wrote bucket planned entry.entry entry.bytes entry.length header body) commit.all
    written.entries
  /-- The entries follow the header of twelve bytes without gaps. -/
  headerLen : (encodeCommitPackHeader written.image.entryCount).length = 12
  placed : PlacedFrom (fun entry : WrittenEntry => entry.entry.offset)
    (fun entry => entry.bytes.length) 12 written.entries
  trailerLen : (encodePackTrailer written.trailer).length = 4 + 45 * written.entries.length
  imageLen : written.bytes.length = written.image.imageLen

theorem imageWritten (spanned : bucket.Spanned) (from_ : upload.From bucket)
    (isPlanned : ImagePlanned upload.sources commit written.image)
    (fetched : Pump.Fetched (upload.io bucket) written) :
    upload.ImageWritten bucket commit written := by
  have planned := isPlanned.each
  rw [← fetched.planned, forall₂_map_right_iff] at planned
  have each : List.Forall₂ (fun planned (entry : WrittenEntry) => ∃ header body,
      upload.Wrote bucket planned entry.entry entry.bytes entry.length header body) commit.all
      written.entries :=
    forall₂_imp_of_mem (fun planned isPlanned entry isEntry plannedAs => wrote_of_fetched spanned
      from_ plannedAs (commit.inWidth_of_all planned isPlanned) (fetched.fetched entry isEntry))
      planned
  have sized : ∀ entry ∈ written.entries, entry.entry.entryLen = entry.bytes.length := by
    intro entry listed
    rcases exists_left each listed with ⟨_, -, _, _, wrote⟩
    exact wrote.sized.symm
  have placed := isPlanned.placed
  have imageLen := isPlanned.imageLen
  rw [← fetched.planned, placedFrom_map] at placed
  rw [← fetched.planned, extent_map, length_map, extent_congr sized] at imageLen
  refine ⟨isPlanned.commitOid, fetched.planned, ?_, each, length_encodeCommitPackHeader _,
    placed.congr sized, ?_, ?_⟩
  · exact planned.imp fun _ _ plannedAs => ⟨plannedAs.oid, plannedAs.kind, plannedAs.base⟩
  · rw [length_encodePackTrailer, WrittenImage.trailer, length_map, trailerSuffixLen,
      TRAILER_ENTRY_LEN, Nat.mul_comm]
  · rw [WrittenImage.bytes, length_append, length_append, length_encodeCommitPackHeader,
      length_encodePackTrailer, length_flatMap fun _ _ => rfl, WrittenImage.trailer,
      length_map, imageLen, Nat.add_assoc]

theorem ImageWritten.kinds (isWritten : upload.ImageWritten bucket commit written) :
    written.entries.Pairwise fun earlier later =>
      earlier.entry.kind = .blob → later.entry.kind ≠ .tree := by
  have ordered := commit.pairwise_all
  have planned := isWritten.planned
  generalize commit.all = pack at ordered planned
  generalize written.entries = entries at planned
  induction planned with
  | nil => exact .nil
  | @cons first entry pack entries isPlanned others ih =>
    rcases pairwise_cons.mp ordered with ⟨here, later⟩
    refine pairwise_cons.mpr ⟨fun other listed isBlob => ?_, ih later⟩
    rcases exists_left others listed with ⟨otherPlanned, isOther, -, isKind, -⟩
    rw [isKind]
    exact here otherPlanned isOther (isPlanned.2.1.symm.trans isBlob)

theorem ImageWritten.exists_head (isWritten : upload.ImageWritten bucket commit written) :
    ∃ first rest, written.entries = first :: rest ∧ first.entry.kind = .commit ∧
      first.entry.oid = commit.commitOid ∧ first.entry.base = none ∧ first.entry.offset = 12 ∧
      commit.entries.map DeltaEntry.oid = rest.map fun entry => entry.entry.oid := by
  have planned := isWritten.planned
  have placed := isWritten.placed
  rw [PlannedCommit.all] at planned
  generalize written.entries = entries at planned placed
  cases planned with
  | @cons _ first _ rest isPlanned others =>
    exact ⟨first, rest, rfl, isPlanned.2.1, isPlanned.1, isPlanned.2.2.elim id id, placed.1,
      map_eq_of_forall₂ (fun _ _ same => same.1.symm) others⟩

/-! ### Where the blobs begin -/

structure BlobsFrom (written : WrittenImage) (blobOffset : ℕ) : Prop where
  first : ∀ front entry back, written.entries = front ++ entry :: back →
    entry.entry.kind = .blob → (∀ other ∈ front, other.entry.kind ≠ .blob) →
    blobOffset = entry.entry.offset
  absent : (∀ entry ∈ written.entries, entry.entry.kind ≠ .blob) →
    blobOffset = 12 + extent (fun entry : WrittenEntry => entry.bytes.length) written.entries
  /-- The commit and all trees end before. -/
  before : ∀ entry ∈ written.entries,
    written.entries.head? = some entry ∨ entry.entry.kind = .tree →
    entry.entry.offset + entry.bytes.length ≤ blobOffset

theorem blobSectionOffset_first {front back : List WrittenEntry} {entry : WrittenEntry}
    (isBlob : entry.entry.kind = .blob) (none_ : ∀ other ∈ front, other.entry.kind ≠ .blob) :
    blobSectionOffset ((front ++ entry :: back).map WrittenEntry.trailerEntry) =
      entry.entry.offset := by
  have skipped : (front.map WrittenEntry.trailerEntry).find? (fun entry => entry.kind = .blob) =
      none := by
    rw [List.find?_eq_none]
    intro other listed
    rcases mem_map.mp listed with ⟨earlier, isEarlier, rfl⟩
    exact fun isBlob => none_ earlier isEarlier (of_decide_eq_true isBlob)
  have found : ((front ++ entry :: back).map WrittenEntry.trailerEntry).find?
      (fun entry => entry.kind = .blob) = some entry.trailerEntry := by
    rw [map_append, List.find?_append, skipped, Option.none_or, map_cons,
      List.find?_cons_of_pos]
    exact decide_eq_true isBlob
  rw [blobSectionOffset, found]
  rfl

section

variable (isWritten : upload.ImageWritten bucket commit written)

include isWritten

theorem ImageWritten.blobSectionOffset_absent
    (none_ : ∀ entry ∈ written.entries, entry.entry.kind ≠ .blob) :
    blobSectionOffset written.trailer =
      12 + extent (fun entry : WrittenEntry => entry.bytes.length) written.entries := by
  have absent : written.trailer.find? (fun entry => entry.kind = .blob) = none := by
    rw [List.find?_eq_none]
    intro other listed
    rcases mem_map.mp listed with ⟨entry, isEntry, rfl⟩
    exact fun isBlob => none_ entry isEntry (of_decide_eq_true isBlob)
  rw [blobSectionOffset, absent, WrittenImage.trailer]
  rcases isWritten.exists_head with ⟨first, rest, isEntries, -⟩
  rcases eq_nil_or_concat written.entries with isNil | ⟨front, last, isConcat⟩
  · rw [isNil] at isEntries
    cases isEntries
  · have placed := isWritten.placed
    rcases exists_left isWritten.each (b := last) (by rw [isConcat]; simp) with ⟨_, -, _, _, wrote⟩
    rw [isConcat, concat_eq_append] at placed ⊢
    rw [map_append, map_cons, map_nil, List.getLast?_append, List.getLast?_singleton]
    change last.entry.offset + last.entry.entryLen = _
    rw [placed.at_eq, ← wrote.sized, extent_append, extent_cons, extent_nil]
    omega

theorem ImageWritten.mem_front {front back : List WrittenEntry} {blob entry : WrittenEntry}
    (isEntries : written.entries = front ++ blob :: back) (isBlob : blob.entry.kind = .blob)
    (listed : entry ∈ written.entries)
    (early : written.entries.head? = some entry ∨ entry.entry.kind = .tree) : entry ∈ front := by
  rcases early with isHead | isTree
  · rcases isWritten.exists_head with ⟨first, rest, starts, isCommit, -⟩
    rw [starts, List.head?_cons, Option.some.injEq] at isHead
    rw [starts] at isEntries
    cases front with
    | nil =>
      rw [(List.cons.inj isEntries).1, isBlob] at isCommit
      cases isCommit
    | cons other front =>
      rw [← isHead, (List.cons.inj isEntries).1]
      exact mem_cons_self
  · have kinds := isWritten.kinds
    rw [isEntries] at listed kinds
    rcases mem_append.mp listed with earlier | notEarlier
    · exact earlier
    · exfalso
      rcases mem_cons.mp notEarlier with rfl | later
      · rw [isTree] at isBlob
        cases isBlob
      · have after := (pairwise_append.mp kinds).2.1
        exact (pairwise_cons.mp after).1 entry later isBlob isTree

theorem ImageWritten.blobsFrom :
    BlobsFrom written (blobSectionOffset written.trailer) where
  first front entry back isEntries isBlob none_ := by
    rw [WrittenImage.trailer, isEntries]
    exact blobSectionOffset_first isBlob none_
  absent := isWritten.blobSectionOffset_absent
  before entry listed early := by
    cases found : written.entries.find? fun entry => entry.entry.kind = .blob with
    | none =>
      have none_ : ∀ entry ∈ written.entries, entry.entry.kind ≠ .blob := by
        simpa using List.find?_eq_none.mp found
      rw [isWritten.blobSectionOffset_absent none_]
      exact isWritten.placed.end_le listed
    | some blob =>
      rcases List.find?_eq_some_iff_append.mp found with ⟨isBlob, front, back, isEntries, none_⟩
      have isBlob : blob.entry.kind = .blob := by simpa using isBlob
      have none_ : ∀ other ∈ front, other.entry.kind ≠ .blob := by simpa using none_
      have inFront : entry ∈ front := isWritten.mem_front isEntries isBlob listed early
      have placed := isWritten.placed
      rw [isEntries] at placed
      rcases placedFrom_append.mp placed with ⟨placedFront, isAt, -⟩
      rw [WrittenImage.trailer, isEntries, blobSectionOffset_first isBlob none_]
      exact (placedFront.end_le inFront).trans_eq isAt.symm

end

/-! ### Segments -/

structure Written (upload : Upload) (bucket : Bucket) (objects : List (ℕ × Bytes))
    (segments : List (List WrittenImage)) : Prop where
  /-- The images stand in the order of their commits. -/
  images : List.Forall₂ (upload.ImageWritten bucket) upload.perCommit segments.flatten
  /-- An object is its images one after another. -/
  objects : objects = Pump.objectsFrom upload.ids 0 segments
  nonempty : ∀ images ∈ segments, images ≠ []
  placed : ∀ images ∈ segments, PlacedFrom (fun written : WrittenImage => written.image.baseOffset)
    (fun written => written.bytes.length) 0 images
  /-- A segment goes on while it is short of the target, and only then. -/
  below : ∀ images ∈ segments, ∀ front back, images = front ++ back → front ≠ [] → back ≠ [] →
    extent (fun written : WrittenImage => written.bytes.length) front < upload.target
  reached : ∀ earlier images later, segments = earlier ++ images :: later → later ≠ [] →
    upload.target ≤ extent (fun written : WrittenImage => written.bytes.length) images

variable {plan : List PlannedImage} {objects : List (ℕ × Bytes)} {images : PromotedImages}
  {segments : List (List WrittenImage)}

theorem exists_written (spanned : bucket.Spanned) (from_ : upload.From bucket)
    (isPlan : planImages upload.perCommit upload.sources upload.target = .ok plan)
    (pumped : pumpImages (upload.io bucket) upload.ids plan = .ok (objects, images)) :
    ∃ segments, segments.map (List.map WrittenImage.image) = Pump.splitSegments plan ∧
      upload.Written bucket objects segments ∧
      images = Pump.promotedFrom upload.ids 0 segments := by
  rcases Pump.writeSegments_eq_ok_iff.mp pumped with
    ⟨segments, isSplit, fetched, isObjects, isImages⟩
  rcases Pump.exists_cut isPlan (Pump.cut_nil upload.target) with ⟨each, open_, cut⟩
  have cut : Pump.Cut upload.target open_ (Pump.splitSegments plan) := cut
  have flattened : segments.flatten.map WrittenImage.image = plan := by
    rw [map_flatten, isSplit, Pump.flatten_splitSegments]
  have written : List.Forall₂ (upload.ImageWritten bucket) upload.perCommit segments.flatten := by
    rw [← flattened, forall₂_map_right_iff] at each
    refine forall₂_imp_of_mem (fun commit _ image listed isPlanned => ?_) each
    rcases mem_flatten.mp listed with ⟨run, isRun, isImage⟩
    exact imageWritten spanned from_ isPlanned (fetched run isRun image isImage)
  have sized : ∀ run ∈ segments, ∀ image ∈ run, image.image.imageLen = image.bytes.length := by
    intro run isRun image isImage
    rcases exists_left written (mem_flatten.mpr ⟨run, isRun, isImage⟩) with ⟨_, -, isWritten⟩
    exact isWritten.imageLen.symm
  have runs : ∀ run ∈ segments, Pump.Run upload.target (run.map WrittenImage.image) := by
    intro run isRun
    refine cut.run ?_
    rw [← isSplit]
    exact mem_map_of_mem isRun
  refine ⟨segments, isSplit, ⟨written, isObjects, ?_, ?_, ?_, ?_⟩, isImages⟩
  · rintro run isRun rfl
    exact (runs [] isRun).nonempty rfl
  · intro run isRun
    exact ((placedFrom_map _ _).mp (runs run isRun).placed).congr (sized run isRun)
  · rintro run isRun front back rfl someFront someBack
    have short := (runs _ isRun).below (front.map WrittenImage.image) (back.map WrittenImage.image)
      (map_append) (by simpa using someFront) (by simpa using someBack)
    rw [extent_map] at short
    rwa [← extent_congr fun image isImage => sized _ isRun image (mem_append_left _ isImage)]
  · rintro earlier run later rfl notLast
    rw [← isSplit, map_append, map_cons] at cut
    have long := cut.reached (by simpa using notLast)
    rw [extent_map] at long
    rwa [← extent_congr (sized run (mem_append_right _ mem_cons_self))]

theorem Written.span (isWritten : upload.Written bucket objects segments)
    {run : List WrittenImage} {written : WrittenImage} {entry : WrittenEntry}
    (isRun : run ∈ segments) (isImage : written ∈ run) (isEntry : entry ∈ written.entries) :
    Fields.slice (run.flatMap WrittenImage.bytes)
      (written.image.baseOffset + entry.entry.offset) entry.entry.entryLen = some entry.bytes := by
  rcases exists_left isWritten.images (mem_flatten.mpr ⟨run, isRun, isImage⟩) with
    ⟨commit, -, imageWritten⟩
  rcases exists_left imageWritten.each isEntry with ⟨_, -, _, _, wrote⟩
  have image := @PlacedFrom.slice _ _ _ run WrittenImage.bytes [] [] written
    (isWritten.placed run isRun) (fun _ _ => rfl) isImage
  rw [nil_append, append_nil] at image
  have placed := imageWritten.placed
  rw [← imageWritten.headerLen] at placed
  have inside := @PlacedFrom.slice _ _ _ written.entries WrittenEntry.bytes
    (encodeCommitPackHeader written.image.entryCount) (encodePackTrailer written.trailer) entry
    placed (fun _ _ => rfl) isEntry
  rw [← wrote.sized]
  exact Fields.slice_trans image inside

end Upload

end Enroute
