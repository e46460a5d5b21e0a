import Enroute.Proto.FetchStream
import Enroute.Store.CommitPack

/-!
# Streaming runs of images

Images that sit close together are streamed through one request, at the level of bytes: skip to the
next image, read its header and its entries off a view bounded to the image, drain the view. What a
run yields is what its images yield when each is requested alone, up to the text of a failure.
-/

namespace Enroute

open List

inductive StreamedBody where
  | stored (length : ℕ) (compressed : Bytes)
  | delta (base : ObjectId) (length : ℕ) (compressed : Bytes)
  | rebuilt (content : Bytes)
  deriving DecidableEq, Repr

structure StreamedEntry where
  oid : ObjectId
  kind : Kind
  body : StreamedBody
  deriving DecidableEq, Repr

/-- What a stream yields: its entries, and what ended it if it failed. -/
structure Yielded where
  entries : List StreamedEntry
  failure : Option String

namespace Yielded

def done : Yielded :=
  ⟨[], none⟩

def failed (message : String) : Yielded :=
  ⟨[], some message⟩

def andThen (first second : Yielded) : Yielded :=
  if first.failure.isSome then first
  else ⟨first.entries ++ second.entries, second.failure⟩

def Same (first second : Yielded) : Prop :=
  first.entries = second.entries ∧ first.failure.isSome = second.failure.isSome

end Yielded

def skipExact (reader : Bytes) (len : ℕ) : Except String Bytes :=
  if len = 0 then .ok reader
  else if reader.length < len then
    .error s!"commit pack run ended {len - reader.length} bytes before its next image"
  else .ok (reader.drop len)

def readOnePackEntry : Bytes → Except String ((PackEntryHeader × Bytes) × Bytes)
  | [] => .error "reading pack entry header length: early eof"
  | headerLength :: reader =>
    if reader.length < headerLength.toNat then .error "reading pack entry header: early eof"
    else do
      let (header, _) ← decodePackEntryHeader (headerLength :: reader.take headerLength.toNat)
      let reader := reader.drop headerLength.toNat
      if reader.length < header.compressedLen then
        .error ("reading pack entry body for " ++ toString header.sha ++ ": early eof")
      else return ((header, reader.take header.compressedLen), reader.drop header.compressedLen)

/-- What streaming needs besides the segments: whether stored deltas go out as they are, and how an
entry is rebuilt when they do not. -/
structure Streaming where
  store : SegmentStore
  filter : Option PackFilter
  passDeltas : Bool
  rebuildEntry : ObjectId → ObjectId → ℕ → Bytes → Except String Bytes

namespace Streaming

def readLen (streaming : Streaming) (commit : NeededCommit) : ℕ :=
  (readPlan commit streaming.filter).1

def sits (streaming : Streaming) (commit : NeededCommit) : ℕ × ℕ × ℕ :=
  (commit.segment.id, commit.segment.baseOffset, streaming.readLen commit)

def entryOf (streaming : Streaming) (header : PackEntryHeader) (bytes : Bytes) :
    Except String StreamedEntry :=
  match header.base with
  | none => .ok ⟨header.sha, header.kind, .stored header.length bytes⟩
  | some base =>
    if streaming.passDeltas then .ok ⟨header.sha, header.kind, .delta base header.length bytes⟩
    else do
      let content ← streaming.rebuildEntry header.sha base header.length bytes
      return ⟨header.sha, header.kind, .rebuilt content⟩

def streamEntries (streaming : Streaming) : ℕ → Bytes → Yielded
  | 0, _ => .done
  | count + 1, image =>
    match readOnePackEntry image with
    | .error message => .failed message
    | .ok ((header, bytes), image) =>
      match streaming.entryOf header bytes with
      | .error message => .failed message
      | .ok entry => Yielded.andThen ⟨[entry], none⟩ (streaming.streamEntries count image)

def streamImage (streaming : Streaming) (commit : NeededCommit) (image : Bytes) : Yielded :=
  if image.length < COMMIT_PACK_HEADER_SIZE then
    .failed ("reading commit pack " ++ toString commit.oid ++ " header: early eof")
  else
    match decodeCommitPackHeader (image.take COMMIT_PACK_HEADER_SIZE) with
    | .error message => .failed ("commit pack " ++ toString commit.oid ++ " header: " ++ message)
    | .ok objectCount =>
      if objectCount ≠ commit.packObjectCount then
        .failed ("commit pack " ++ toString commit.oid ++ " header declares " ++
          toString objectCount ++ " objects, but the commit graph expected " ++
          toString commit.packObjectCount)
      else streaming.streamEntries (readPlan commit streaming.filter).2
        (image.drop COMMIT_PACK_HEADER_SIZE)

/-- Read the images of a run one after another, from a position of the segment on. -/
def streamImages (streaming : Streaming) : ℕ → Bytes → List NeededCommit → Yielded
  | _, _, [] => .done
  | pos, reader, commit :: images =>
    let readLen := streaming.readLen commit
    if commit.segment.baseOffset < pos then .failed "attempt to subtract with overflow"
    else
      match skipExact reader (commit.segment.baseOffset - pos) with
      | .error message => .failed message
      | .ok reader =>
        (streaming.streamImage commit (reader.take readLen)).andThen
          (streaming.streamImages (commit.segment.baseOffset + readLen) (reader.drop readLen)
            images)

/-- Request what lies between the start of one image and the end of another, and stream it. -/
def requestSpan (streaming : Streaming) (head last : NeededCommit) (images : List NeededCommit) :
    Yielded :=
  let runStart := head.segment.baseOffset
  let runEnd := last.segment.baseOffset + streaming.readLen last
  if runEnd < runStart then .failed "attempt to subtract with overflow"
  else
    match streaming.store.getSegmentSlice head.segment.id runStart (runEnd - runStart) with
    | .error message => .failed message
    | .ok none => .failed ("commit pack " ++ toString head.oid ++ " not found")
    | .ok (some reader) => streaming.streamImages runStart reader images

def fetchCommitRun (streaming : Streaming) : List NeededCommit → Yielded
  | [] => .done
  | head :: rest => streaming.requestSpan head (rest.getLast?.getD head) (head :: rest)

def fetchAlone (streaming : Streaming) (images : List NeededCommit) : Yielded :=
  images.foldr (fun commit later => (streaming.fetchCommitRun [commit]).andThen later) .done

end Streaming

/-! ## A run against its images -/

namespace Yielded

@[simp]
theorem same_refl (yielded : Yielded) : yielded.Same yielded :=
  ⟨rfl, rfl⟩

theorem Same.symm {first second : Yielded} (same : first.Same second) : second.Same first :=
  ⟨same.1.symm, same.2.symm⟩

theorem Same.trans {first second third : Yielded} (same : first.Same second)
    (further : second.Same third) : first.Same third :=
  ⟨same.1.trans further.1, same.2.trans further.2⟩

theorem andThen_done (yielded : Yielded) : yielded.andThen done = yielded := by
  rcases yielded with ⟨entries, failure⟩
  rcases failure with _ | message
  · change Yielded.mk (entries ++ []) none = _
    rw [append_nil]
  · rfl

theorem Same.andThen {first second later other : Yielded} (same : first.Same second)
    (sameLater : later.Same other) : (first.andThen later).Same (second.andThen other) := by
  rw [Yielded.andThen, Yielded.andThen, same.2]
  split_ifs
  · exact same
  · exact ⟨by rw [same.1, sameLater.1], sameLater.2⟩

theorem same_failed (message other : String) : (failed message).Same (failed other) :=
  ⟨rfl, rfl⟩

end Yielded

namespace Streaming

variable {streaming : Streaming}

theorem streamImage_nil (commit : NeededCommit) : ∃ message, streaming.streamImage commit [] =
    .failed message :=
  ⟨_, if_pos (by decide)⟩

theorem requestSpan_missing {head : NeededCommit}
    (missing : streaming.store.segment head.segment.id = none) (last : NeededCommit)
    (images : List NeededCommit) :
    ∃ message, streaming.requestSpan head last images = .failed message := by
  rw [requestSpan]
  split_ifs
  · exact ⟨_, rfl⟩
  · rw [SegmentStore.getSegmentSlice, missing]
    exact ⟨_, rfl⟩

theorem fetchCommitRun_singleton {commit : NeededCommit} {held : Bytes}
    (found : streaming.store.segment commit.segment.id = some held) :
    (streaming.fetchCommitRun [commit]).Same (streaming.streamImage commit
      ((held.drop commit.segment.baseOffset).take (streaming.readLen commit))) := by
  change (streaming.requestSpan commit commit [commit]).Same _
  rw [requestSpan, if_neg (by omega), Nat.add_sub_cancel_left, SegmentStore.getSegmentSlice, found]
  dsimp only
  by_cases refused : streaming.readLen commit = 0 ∨ held.length ≤ commit.segment.baseOffset
  · have nothing : (held.drop commit.segment.baseOffset).take (streaming.readLen commit) = [] := by
      rcases refused with none_ | behind
      · rw [none_, take_zero]
      · rw [drop_of_length_le behind, take_nil]
    rcases streaming.streamImage_nil commit with ⟨message, fails⟩
    rw [if_pos refused, nothing, fails]
    exact Yielded.same_failed _ _
  · rw [if_neg refused]
    simp only [streamImages, lt_irrefl, if_false, Nat.sub_self, skipExact, if_true]
    rw [Yielded.andThen_done, take_take, min_self]
    exact Yielded.same_refl _

/-- Images of one segment, each no earlier than the one before is read to. -/
structure InRun (streaming : Streaming) (held : Bytes) (pos runEnd : ℕ)
    (images : List NeededCommit) : Prop where
  found : ∀ commit ∈ images, streaming.store.segment commit.segment.id = some held
  after : ∀ first ∈ images.head?, pos ≤ first.segment.baseOffset
  apart : images.IsChain fun earlier later =>
    earlier.segment.baseOffset + streaming.readLen earlier ≤ later.segment.baseOffset
  within : ∀ commit ∈ images, commit.segment.baseOffset + streaming.readLen commit ≤ runEnd

theorem InRun.tail {held : Bytes} {pos runEnd : ℕ} {commit : NeededCommit}
    {images : List NeededCommit} (inRun : streaming.InRun held pos runEnd (commit :: images)) :
    streaming.InRun held (commit.segment.baseOffset + streaming.readLen commit) runEnd images where
  found := (forall_mem_cons.mp inRun.found).2
  after first isFirst := by
    rcases List.head?_eq_some_iff.mp (Option.mem_def.mp isFirst) with ⟨rest, rfl⟩
    exact (isChain_cons_cons.mp inRun.apart).1
  apart := inRun.apart.tail
  within := (forall_mem_cons.mp inRun.within).2

theorem skipExact_slice {held : Bytes} {pos target runEnd : ℕ} (ahead : pos ≤ target)
    (within : target ≤ runEnd) :
    skipExact ((held.drop pos).take (runEnd - pos)) (target - pos) =
        .ok ((held.drop target).take (runEnd - target)) ∨
      held.length ≤ target ∧ ∃ message,
        skipExact ((held.drop pos).take (runEnd - pos)) (target - pos) = .error message := by
  rw [skipExact]
  split_ifs with here short
  · obtain rfl : pos = target := by omega
    exact Or.inl rfl
  · rw [length_take, length_drop] at short
    exact Or.inr ⟨by omega, _, rfl⟩
  · left
    have rest : runEnd - pos - (target - pos) = runEnd - target := by omega
    rw [drop_take, drop_drop, Nat.add_sub_cancel' ahead, rest]

theorem streamImages_same {held : Bytes} {pos runEnd : ℕ} {images : List NeededCommit}
    (inRun : streaming.InRun held pos runEnd images) :
    (streaming.streamImages pos ((held.drop pos).take (runEnd - pos)) images).Same
      (streaming.fetchAlone images) := by
  induction images generalizing pos with
  | nil => exact Yielded.same_refl _
  | cons commit images ih =>
    have starts := inRun.after commit rfl
    have ends := inRun.within commit mem_cons_self
    have alone := fetchCommitRun_singleton (inRun.found commit mem_cons_self)
    have later := ih inRun.tail
    rw [fetchAlone, foldr_cons, ← fetchAlone]
    simp only [streamImages]
    rw [if_neg (not_lt.mpr starts)]
    rcases @skipExact_slice held pos commit.segment.baseOffset runEnd starts (by omega) with
      skipped | ⟨behind, message, skipFails⟩
    · rw [skipped]
      dsimp only
      rw [take_take, min_eq_left (by omega), drop_take, drop_drop, Nat.sub_sub]
      exact Yielded.Same.andThen alone.symm later
    · -- the segment ends before the image, which alone cannot be read either
      rcases streaming.streamImage_nil commit with ⟨nothing, fails⟩
      rw [drop_of_length_le behind, take_nil, fails] at alone
      rw [skipFails]
      exact Yielded.Same.andThen (Yielded.Same.symm (alone.trans (Yielded.same_failed _ _))) later

/-- What a run of near-adjacent images is, for images that sixty-four bits can address. -/
structure Planned (streaming : Streaming) (run : List NeededCommit) : Prop where
  coalesced : Coalesced streaming.sits run
  addressed : ∀ commit ∈ run, commit.segment.baseOffset + streaming.readLen commit ≤ max64

theorem Planned.apart {run : List NeededCommit} (planned : streaming.Planned run) :
    run.IsChain fun earlier later =>
      earlier.segment.baseOffset + streaming.readLen earlier ≤ later.segment.baseOffset := by
  refine planned.coalesced.bridges.imp_of_mem_imp fun earlier later earlierMem _ bridged => ?_
  have ends := planned.addressed earlier earlierMem
  simp only [endOf, sits, saturatingAdd] at bridged
  rw [min_eq_left ends] at bridged
  exact bridged.1

theorem Planned.end_le {run : List NeededCommit} {last : NeededCommit}
    (planned : streaming.Planned run) (isLast : run.getLast? = some last) : ∀ commit ∈ run,
      commit.segment.baseOffset + streaming.readLen commit ≤
        last.segment.baseOffset + streaming.readLen last := by
  have apart := planned.apart
  clear planned
  induction run with
  | nil => simp
  | cons first rest ih =>
    cases rest with
    | nil =>
      cases isLast
      simp
    | cons second rest =>
      rw [List.getLast?_cons_cons] at isLast
      have later := ih isLast apart.tail
      refine forall_mem_cons.mpr ⟨?_, later⟩
      have follows := (isChain_cons_cons.mp apart).1
      have ends := later second mem_cons_self
      omega

theorem fetchCommitRun_same {run : List NeededCommit} (planned : streaming.Planned run) :
    (streaming.fetchCommitRun run).Same (streaming.fetchAlone run) := by
  cases run with
  | nil => exact Yielded.same_refl _
  | cons head rest =>
    generalize isLast : rest.getLast?.getD head = last
    have isEnd : (head :: rest).getLast? = some last := by
      rw [List.getLast?_cons, isLast]
    have ends := planned.end_le isEnd head mem_cons_self
    have sameSegment : ∀ commit ∈ head :: rest, commit.segment.id = head.segment.id :=
      fun commit listed => planned.coalesced.oneSegment commit listed head mem_cons_self
    rw [fetchCommitRun, isLast, fetchAlone, foldr_cons]
    rcases found : streaming.store.segment head.segment.id with _ | held
    · rcases requestSpan_missing found last (head :: rest) with ⟨message, fails⟩
      rcases requestSpan_missing found head [head] with ⟨other, failsAlone⟩
      rw [fails, show streaming.fetchCommitRun [head] = .failed other from failsAlone]
      exact Yielded.same_failed message other
    · rw [requestSpan, if_neg (by omega), SegmentStore.getSegmentSlice, found]
      dsimp only
      split_ifs with refused
      · have nothing :
            (held.drop head.segment.baseOffset).take (streaming.readLen head) = [] := by
          rcases refused with none_ | behind
          · rw [show streaming.readLen head = 0 by omega, take_zero]
          · rw [drop_of_length_le behind, take_nil]
        have alone := @fetchCommitRun_singleton streaming head held found
        rcases streaming.streamImage_nil head with ⟨message, fails⟩
        rw [nothing, fails] at alone
        exact (alone.trans (Yielded.same_failed _ _)).symm.andThen (Yielded.same_refl _)
      · refine streamImages_same ⟨fun commit listed => ?_, ?_, planned.apart,
          planned.end_le isEnd⟩
        · rw [sameSegment commit listed, found]
        · rintro _ ⟨⟩
          exact le_rfl

theorem planned_planRuns {needed : List NeededCommit} {passDeltas : Bool}
    (addressed : ∀ commit ∈ needed,
      commit.segment.baseOffset + streaming.readLen commit ≤ max64) :
    ∀ run ∈ planRuns needed streaming.filter passDeltas, streaming.Planned run := by
  intro run isRun
  refine ⟨?_, fun commit inRun => addressed commit
    ((planRuns_perm _ _ _).mem_iff.mp (mem_flatten_of_mem isRun inRun))⟩
  rw [planRuns] at isRun
  split at isRun
  · exact coalesced_runsOf run isRun
  · rcases mem_map.mp isRun with ⟨commit, -, rfl⟩
    exact coalesced_singleton streaming.sits commit

end Streaming

/-- Placements read through shared requests. Placements fall into consecutive runs. When
each placement can be read alone, what is read for it is what it gives alone exactly when no two of
them start at one place with different lengths. The needed commits fall into runs whose images
follow one another, and a run yields what its images yield alone. -/
theorem coalescedReads_exact (store : SegmentStore) (placements : List Placement)
    (streaming : Streaming) (needed : List NeededCommit) :
    ((runsOf Placement.sits placements).flatten = placements ∧
      ∀ run ∈ runsOf Placement.sits placements, Coalesced Placement.sits run) ∧
    ((∀ placement ∈ placements, ∃ bytes, store.readAlone placement = some bytes) →
      ∃ entries, store.readEntries placements = .ok entries ∧
        ((∀ placement ∈ placements,
            entries.lookup (placement.segment, placement.offset) = store.readAlone placement) ↔
          ∀ placement ∈ placements, ∀ other ∈ placements, placement.segment = other.segment →
            placement.offset = other.offset → placement.len = other.len)) ∧
    ((∀ commit ∈ needed, commit.segment.baseOffset + streaming.readLen commit ≤ max64) →
      (planRuns needed streaming.filter streaming.passDeltas).flatten.Perm needed ∧
        ∀ run ∈ planRuns needed streaming.filter streaming.passDeltas,
          run ≠ [] ∧
          (run.IsChain fun earlier later =>
            earlier.segment.baseOffset + streaming.readLen earlier ≤ later.segment.baseOffset) ∧
          (∀ first ∈ run.head?, ∀ last ∈ run.getLast?,
            first.segment.baseOffset ≤ last.segment.baseOffset + streaming.readLen last) ∧
          (streaming.fetchCommitRun run).Same (streaming.fetchAlone run)) := by
  refine ⟨⟨runsOf_flatten _ _, coalesced_runsOf⟩, store.readEntries_exact placements,
    fun addressed => ⟨planRuns_perm _ _ _, fun run isRun => ?_⟩⟩
  have planned := Streaming.planned_planRuns addressed run isRun
  refine ⟨planned.coalesced.nonempty, planned.apart, fun first isFirst last isLast => ?_,
    Streaming.fetchCommitRun_same planned⟩
  have ends := planned.end_le isLast first (mem_of_head? isFirst)
  omega

/-- Two placements that start at one place: the longer one is what is read for the shorter. -/
theorem readEntries_mixes_lengths :
    ∃ store : SegmentStore, store.segment 1 = some [7, 8] ∧
      store.readAlone ⟨1, 0, 1⟩ = some [7] ∧ store.readAlone ⟨1, 0, 2⟩ = some [7, 8] ∧
      ∃ entries, store.readEntries [⟨1, 0, 1⟩, ⟨1, 0, 2⟩] = .ok entries ∧
        entries.lookup (1, 0) = some [7, 8] := by
  refine ⟨⟨fun id => if id = 1 then some [7, 8] else none, fun id bytes isSegment => ?_⟩, rfl, rfl,
    rfl, _, rfl, rfl⟩
  split_ifs at isSegment
  cases isSegment
  decide

end Enroute
