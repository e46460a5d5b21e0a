import Enroute.Ingest.Pumped

/-!
# What is planned

What the plan says of an entry follows from where its bytes are. Entries are planned without gaps,
and so are the images of a segment; a segment goes on exactly as long as it is shorter than the
target. As every image takes room, the images planned at position zero are those that start a
segment, and splitting the plan there gives the segments back.
-/

namespace Enroute

open List Placed

namespace Layout

variable {index : Sources} {planned : DeltaEntry} {offset target size : ℕ} {entry : PlannedEntry}

inductive PlannedAs (index : Sources) (planned : DeltaEntry) (offset : ℕ) :
    PlannedEntry → Prop where
  | wire {at_ : WireRef} {pack : WirePack} {scanned : ScannedEntry} {front body : Bytes}
      (source : planned.source = .wire at_) (isPack : index.wire[at_.pack]? = some pack)
      (isEntry : pack.entry at_.at_ = .ok scanned) (isBody : pack.body at_.at_ = .ok body)
      (fits : body.length < 2 ^ 64)
      (encodes : encodePackEntryHeader ⟨planned.oid, planned.kind, planned.base,
        scanned.decompressedSize, body.length⟩ = .ok front) :
      PlannedAs index planned offset ⟨planned.oid, planned.kind, planned.base, offset,
        front.length + body.length, .wire front body scanned.decompressedSize⟩
  | staged {base : Option ObjectId} {location : StagedObjectLocation} {front : Bytes}
      (source : planned.source = .encoded)
      (isStaged : stagedFor index.chunkIndex planned.oid planned.base = some (base, location))
      (lengthFits : location.decompressedLen < 2 ^ 64) (fits : location.compressedLen < 2 ^ 64)
      (encodes : encodePackEntryHeader ⟨planned.oid, planned.kind, base,
        location.decompressedLen, location.compressedLen⟩ = .ok front) :
      PlannedAs index planned offset ⟨planned.oid, planned.kind, base, offset,
        front.length + location.compressedLen, .staged front location.chunkId location.offset
          location.compressedLen location.decompressedLen⟩
  | indexed {found : ObjectMeta} {location : CommitPackLocation}
      (source : planned.source = .encoded)
      (isKnown : index.prefetched.lookup planned.oid = some found)
      (isLocated : found.location = some location) (isWhole : location.image.base = none) :
      PlannedAs index planned offset ⟨planned.oid, planned.kind, none, offset,
        location.image.entryLen, .indexed location.segment.id
          (location.segment.baseOffset + location.image.offset)⟩

section

variable (plannedAs : PlannedAs index planned offset entry)

include plannedAs

theorem PlannedAs.oid : entry.oid = planned.oid := by
  cases plannedAs <;> rfl

theorem PlannedAs.kind : entry.kind = planned.kind := by
  cases plannedAs <;> rfl

theorem PlannedAs.at_ : entry.offset = offset := by
  cases plannedAs <;> rfl

end

theorem stagedFor_eq_some {chunkIndex : ObjectHashMap StagedEncodings} {oid : ObjectId}
    {wanted base : Option ObjectId} {location : StagedObjectLocation}
    (isStaged : stagedFor chunkIndex oid wanted = some (base, location)) :
    (base = wanted ∨ base = none) ∧ ∃ encodings, chunkIndex.lookup oid = some encodings ∧
      (base, location) ∈ encodings := by
  rcases Option.bind_eq_some_iff.mp isStaged with ⟨encodings, isIndexed, chosen⟩
  rcases Option.or_eq_some_iff.mp chosen with against | ⟨-, whole⟩
  · rcases Option.map_eq_some_iff.mp against with ⟨found, isFound, same⟩
    cases same
    exact ⟨Or.inl rfl, encodings, isIndexed, StagedEncodings.mem_of_against isFound⟩
  · rcases Option.map_eq_some_iff.mp whole with ⟨found, isFound, same⟩
    cases same
    exact ⟨Or.inr rfl, encodings, isIndexed, StagedEncodings.mem_of_against isFound⟩

theorem PlannedAs.base (plannedAs : PlannedAs index planned offset entry) :
    entry.base = planned.base ∨ entry.base = none := by
  cases plannedAs with
  | wire => exact Or.inl rfl
  | staged _ isStaged => exact (stagedFor_eq_some isStaged).1
  | indexed => exact Or.inr rfl

theorem toU64_eq_ok_iff {what : String} {value result : ℕ} :
    toU64 what value = .ok result ↔ value < 2 ^ 64 ∧ value = result := by
  rw [toU64]
  split_ifs with fits
  · rw [Except.ok.injEq]
    exact ⟨fun same => ⟨fits, same⟩, And.right⟩
  · exact ⟨nofun, fun both => absurd both.1 fits⟩

theorem plannedEntry_eq_ok {oid : ObjectId} {kind : Kind} {base : Option ObjectId}
    {length compressedLen : ℕ} {source : Bytes → PlannedSource}
    (isPlanned : plannedEntry oid kind base offset length compressedLen source = .ok entry) :
    ∃ front, encodePackEntryHeader ⟨oid, kind, base, length, compressedLen⟩ = .ok front ∧
      entry = ⟨oid, kind, base, offset, front.length + compressedLen, source front⟩ := by
  rw [plannedEntry] at isPlanned
  cases encodes : encodePackEntryHeader ⟨oid, kind, base, length, compressedLen⟩ with
  | error failure =>
    rw [encodes] at isPlanned
    cases isPlanned
  | ok front =>
    rw [encodes] at isPlanned
    exact ⟨front, rfl, (Except.ok.inj isPlanned).symm⟩

theorem plannedAs_of_planWireEntry {at_ : WireRef} (source : planned.source = .wire at_)
    (isPlanned : planWireEntry planned.oid planned.kind planned.base offset at_ index.wire =
      .ok entry) : PlannedAs index planned offset entry := by
  rw [planWireEntry] at isPlanned
  cases isPack : index.wire[at_.pack]? with
  | none =>
    rw [isPack] at isPlanned
    cases isPlanned
  | some pack =>
    simp only [isPack, Except.bind_eq_ok_iff, toU64_eq_ok_iff] at isPlanned
    rcases isPlanned with ⟨body, isBody, scanned, isEntry, _, ⟨fits, rfl⟩, isPlanned⟩
    rcases plannedEntry_eq_ok isPlanned with ⟨front, encodes, rfl⟩
    exact .wire source isPack isEntry isBody fits encodes

theorem plannedAs_of_planIndexedEntry (source : planned.source = .encoded)
    (isPlanned : planIndexedEntry planned.oid planned.kind offset index.prefetched = .ok entry) :
    PlannedAs index planned offset entry := by
  rw [planIndexedEntry] at isPlanned
  cases isKnown : index.prefetched.lookup planned.oid with
  | none =>
    rw [isKnown] at isPlanned
    cases isPlanned
  | some found =>
    rw [isKnown] at isPlanned
    dsimp only at isPlanned
    cases isLocated : found.location with
    | none =>
      rw [isLocated] at isPlanned
      cases isPlanned
    | some location =>
      rw [isLocated] at isPlanned
      dsimp only at isPlanned
      cases isWhole : location.image.base with
      | some base =>
        rw [isWhole] at isPlanned
        cases isPlanned
      | none =>
        rw [isWhole] at isPlanned
        cases isPlanned
        exact .indexed source isKnown isLocated isWhole

theorem plannedAs_of_planEntry (isPlanned : planEntry index planned offset = .ok entry) :
    PlannedAs index planned offset entry := by
  rw [planEntry] at isPlanned
  cases source : planned.source with
  | wire at_ =>
    rw [source] at isPlanned
    exact plannedAs_of_planWireEntry source isPlanned
  | encoded =>
    rw [source] at isPlanned
    dsimp only at isPlanned
    cases isStaged : stagedFor index.chunkIndex planned.oid planned.base with
    | none =>
      rw [isStaged] at isPlanned
      exact plannedAs_of_planIndexedEntry source isPlanned
    | some found =>
      simp only [isStaged, planStagedEntry, Except.bind_eq_ok_iff, toU64_eq_ok_iff] at isPlanned
      rcases isPlanned with ⟨_, ⟨lengthFits, rfl⟩, _, ⟨fits, rfl⟩, isPlanned⟩
      rcases plannedEntry_eq_ok isPlanned with ⟨front, encodes, rfl⟩
      exact .staged source isStaged lengthFits fits encodes

theorem planEntries_eq_ok {pack : List DeltaEntry} {entries : List PlannedEntry} {final : ℕ}
    (isPlanned : planEntries index pack offset = .ok (entries, final)) :
    List.Forall₂ (fun planned entry => PlannedAs index planned entry.offset entry) pack entries ∧
      PlacedFrom PlannedEntry.offset PlannedEntry.entryLen offset entries ∧
      final = offset + extent PlannedEntry.entryLen entries := by
  induction pack generalizing offset entries final with
  | nil =>
    cases isPlanned
    exact ⟨.nil, trivial, rfl⟩
  | cons planned pack ih =>
    rw [planEntries, Except.bind_eq_ok_iff] at isPlanned
    rcases isPlanned with ⟨entry, isEntry, isPlanned⟩
    have plannedAs := plannedAs_of_planEntry isEntry
    split_ifs at isPlanned
    rw [Except.bind_eq_ok_iff] at isPlanned
    rcases isPlanned with ⟨⟨rest, last⟩, isRest, returned⟩
    cases returned
    rcases ih isRest with ⟨each, placed, isFinal⟩
    refine ⟨.cons ?_ each, ⟨plannedAs.at_, placed⟩, ?_⟩
    · rwa [plannedAs.at_]
    · rw [isFinal, extent_cons, Nat.add_assoc]

structure ImagePlanned (index : Sources) (commit : PlannedCommit) (image : PlannedImage) :
    Prop where
  commitOid : image.commitOid = commit.commitOid
  each : List.Forall₂ (fun planned entry => PlannedAs index planned entry.offset entry) commit.all
    image.entries
  placed : PlacedFrom PlannedEntry.offset PlannedEntry.entryLen COMMIT_PACK_HEADER_SIZE
    image.entries
  count : image.entryCount = image.entries.length
  imageLen : image.imageLen = COMMIT_PACK_HEADER_SIZE +
    extent PlannedEntry.entryLen image.entries + trailerSuffixLen image.entries.length

theorem planImage_eq_ok {commit : PlannedCommit} {image : PlannedImage}
    (isPlanned : planImage index commit size = .ok image) :
    ImagePlanned index commit image ∧ image.baseOffset = size := by
  rw [planImage, Except.bind_eq_ok_iff] at isPlanned
  rcases isPlanned with ⟨⟨entries, final⟩, isEntries, isPlanned⟩
  dsimp only at isPlanned
  split_ifs at isPlanned
  cases isPlanned
  rcases planEntries_eq_ok isEntries with ⟨each, placed, isFinal⟩
  exact ⟨⟨rfl, each, placed, rfl, by rw [isFinal]⟩, rfl⟩

theorem ImagePlanned.imageLen_pos {commit : PlannedCommit} {image : PlannedImage}
    (isPlanned : ImagePlanned index commit image) : 0 < image.imageLen := by
  rw [isPlanned.imageLen, COMMIT_PACK_HEADER_SIZE]
  omega

end Layout

namespace Pump

open Layout

variable {index : Sources} {target size : ℕ} {segments : List (List PlannedImage)}
  {image : PlannedImage} {images : List PlannedImage}

theorem addImage_append (run : List PlannedImage) (image : PlannedImage) :
    addImage (segments ++ [run]) image =
      if image.baseOffset = 0 then segments ++ [run] ++ [[image]]
      else segments ++ [run ++ [image]] := by
  rw [addImage, List.getLast?_append, List.getLast?_singleton, Option.some_or, dropLast_concat]

theorem addImage_start (starts : image.baseOffset = 0) :
    addImage segments image = segments ++ [[image]] := by
  rcases eq_nil_or_concat segments with rfl | ⟨closed, run, rfl⟩
  · rfl
  · rw [concat_eq_append, addImage_append, if_pos starts]

theorem flatten_addImage (segments : List (List PlannedImage)) (image : PlannedImage) :
    (addImage segments image).flatten = segments.flatten ++ [image] := by
  rcases eq_nil_or_concat segments with rfl | ⟨closed, run, rfl⟩
  · rfl
  · rw [concat_eq_append, addImage_append]
    split_ifs <;> simp

theorem flatten_splitSegments (plan : List PlannedImage) : (splitSegments plan).flatten = plan := by
  suffices onto : ∀ segments : List (List PlannedImage),
      (plan.foldl addImage segments).flatten = segments.flatten ++ plan from onto []
  induction plan with
  | nil => simp
  | cons image plan ih =>
    intro segments
    rw [foldl_cons, ih, flatten_addImage, append_assoc]
    rfl

/-- The images of one segment: placed without gaps from the start on, and short of the target
before the last of them. -/
structure Run (target : ℕ) (run : List PlannedImage) : Prop where
  nonempty : run ≠ []
  placed : PlacedFrom PlannedImage.baseOffset PlannedImage.imageLen 0 run
  below : ∀ front back, run = front ++ back → front ≠ [] → back ≠ [] →
    extent PlannedImage.imageLen front < target

theorem run_singleton (starts : image.baseOffset = 0) : Run target [image] where
  nonempty := cons_ne_nil _ _
  placed := ⟨starts, trivial⟩
  below front back isRun someFront someBack := by
    cases front with
    | nil => exact absurd rfl someFront
    | cons first front =>
      have empty := append_eq_nil_iff.mp (List.cons.inj isRun).2.symm
      exact absurd empty.2 someBack

theorem Run.append {run : List PlannedImage} (isRun : Run target run)
    (below : extent PlannedImage.imageLen run < target)
    (follows : image.baseOffset = extent PlannedImage.imageLen run) :
    Run target (run ++ [image]) where
  nonempty := append_ne_nil_of_right_ne_nil _ (cons_ne_nil _ _)
  placed := placedFrom_append.mpr ⟨isRun.placed, by rw [follows, Nat.zero_add], trivial⟩
  below front back isSplit _ someBack := by
    -- What is left behind ends with the new image, so the front is of the old run.
    rcases (eq_nil_or_concat back).resolve_left someBack with ⟨others, last, rfl⟩
    rw [concat_eq_append, ← append_assoc] at isSplit
    rw [(append_inj' isSplit rfl).1, extent_append] at below
    omega

/-- The segments planned so far, and the size of the one that is still open: zero when the last was
closed. -/
inductive Cut (target : ℕ) : ℕ → List (List PlannedImage) → Prop where
  | closed {segments : List (List PlannedImage)}
      (all : ∀ run ∈ segments, Run target run ∧ target ≤ extent PlannedImage.imageLen run) :
      Cut target 0 segments
  | opened {segments : List (List PlannedImage)} {run : List PlannedImage}
      (all : ∀ run ∈ segments, Run target run ∧ target ≤ extent PlannedImage.imageLen run)
      (isRun : Run target run) (positive : 0 < extent PlannedImage.imageLen run)
      (below : extent PlannedImage.imageLen run < target) :
      Cut target (extent PlannedImage.imageLen run) (segments ++ [run])

theorem cut_nil (target : ℕ) : Cut target 0 [] :=
  .closed fun _ listed => nomatch listed

theorem cut_grown {run : List PlannedImage}
    (all : ∀ run ∈ segments, Run target run ∧ target ≤ extent PlannedImage.imageLen run)
    (isRun : Run target run) (positive : 0 < extent PlannedImage.imageLen run) :
    Cut target
      (if target ≤ extent PlannedImage.imageLen run then 0 else extent PlannedImage.imageLen run)
      (segments ++ [run]) := by
  split_ifs with reached
  · refine .closed fun other listed => ?_
    rcases mem_append.mp listed with earlier | last
    · exact all other earlier
    · rw [mem_singleton.mp last]
      exact ⟨isRun, reached⟩
  · exact .opened all isRun positive (by omega)

theorem Cut.addImage (cut : Cut target size segments) (isBase : image.baseOffset = size)
    (positive : 0 < image.imageLen) :
    Cut target (if target ≤ size + image.imageLen then 0 else size + image.imageLen)
      (addImage segments image) := by
  cases cut with
  | closed all =>
    have grown := @cut_grown target segments [image] all (run_singleton isBase)
      (by simpa using positive)
    rw [extent_cons, extent_nil, Nat.add_zero] at grown
    rwa [addImage_start isBase, Nat.zero_add]
  | opened all isRun started below =>
    have grown := cut_grown all (isRun.append below isBase) (by rw [extent_append]; omega)
    rw [extent_append, extent_cons, extent_nil, Nat.add_zero] at grown
    have goesOn : image.baseOffset ≠ 0 := by omega
    rwa [addImage_append, if_neg goesOn]

theorem exists_cut {commits : List PlannedCommit}
    (isPlanned : planFrom index target commits size = .ok images) (cut : Cut target size segments) :
    List.Forall₂ (ImagePlanned index) commits images ∧
      ∃ open_, Cut target open_ (images.foldl Pump.addImage segments) := by
  induction commits generalizing size images segments with
  | nil =>
    cases isPlanned
    exact ⟨.nil, size, cut⟩
  | cons commit commits ih =>
    rw [planFrom, Except.bind_eq_ok_iff] at isPlanned
    rcases isPlanned with ⟨image, isImage, isPlanned⟩
    rw [Except.bind_eq_ok_iff] at isPlanned
    rcases isPlanned with ⟨rest, isRest, returned⟩
    cases returned
    rcases planImage_eq_ok isImage with ⟨imagePlanned, isBase⟩
    rcases ih isRest (cut.addImage isBase imagePlanned.imageLen_pos) with ⟨each, isCut⟩
    exact ⟨.cons imagePlanned each, isCut⟩

theorem Cut.run {run : List PlannedImage} (cut : Cut target size segments)
    (listed : run ∈ segments) : Run target run := by
  cases cut with
  | closed all => exact (all run listed).1
  | opened all isRun positive below =>
    rcases mem_append.mp listed with earlier | last
    · exact (all run earlier).1
    · rwa [mem_singleton.mp last]

theorem Cut.reached {earlier later : List (List PlannedImage)} {run : List PlannedImage}
    (cut : Cut target size (earlier ++ run :: later)) (notLast : later ≠ []) :
    target ≤ extent PlannedImage.imageLen run := by
  generalize isAll : earlier ++ run :: later = all at cut
  cases cut with
  | closed all => exact (all run (by simp [← isAll])).2
  | @opened segments last all isRun positive below =>
    rcases (eq_nil_or_concat later).resolve_left notLast with ⟨others, final, rfl⟩
    rw [concat_eq_append, ← cons_append, ← append_assoc] at isAll
    refine (all run ?_).2
    rw [← (append_inj' isAll rfl).1]
    exact mem_append_right _ mem_cons_self

end Pump

end Enroute
