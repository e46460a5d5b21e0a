import Enroute.Lib.Lists
import Enroute.Proto.Packets
import Enroute.Retrieve.Trees

/-!
# The files a diff touched

An answer lists the files of a diff in path order, in messages of a fixed size. The limit on files
cuts the sorted list, which leaves its front. The limit on trees stops the diff, which leaves out
the files under every directory it had not read, wherever those stand in the order.
-/

namespace Enroute.ChangedFiles

open Diff ExactDiff List PktLine

def treeEntryLimit : ℕ := 50000

def diffChangeLimit : ℕ := treeEntryLimit

def diffBatchChanges : ℕ := 1000

structure FileChange where
  path : String
  oldObjectId : Option ObjectId
  newObjectId : Option ObjectId
  deriving DecidableEq, Repr

structure DiffCommitResponse where
  changes : List FileChange
  truncated : Bool
  deriving DecidableEq, Repr

def wirePath (lossy : LossyDecoder) (path : Bytes) : String :=
  (String.fromUTF8? ⟨path.toArray⟩).getD (lossy.fromUtf8Lossy path)

def FileChange.Before (left right : FileChange) : Prop :=
  utf8 left.path ≤ utf8 right.path

instance : DecidableRel FileChange.Before := fun left right =>
  inferInstanceAs (Decidable (utf8 left.path ≤ utf8 right.path))

instance : Std.Total FileChange.Before :=
  ⟨fun left right => List.le_total (utf8 left.path) (utf8 right.path)⟩

instance : IsTrans FileChange FileChange.Before :=
  ⟨fun _ _ _ => List.le_trans⟩

def addedFile (lossy : LossyDecoder) (change : Change) : FileChange :=
  ⟨wirePath lossy change.path, change.old, some change.new⟩

def goneFile (lossy : LossyDecoder) (removal : Removal) : FileChange :=
  ⟨wirePath lossy removal.path, some removal.old, none⟩

/-- The blobs a diff touched. Trees are dropped. -/
def touched (lossy : LossyDecoder) (diff : TreeDiff) : List FileChange :=
  (diff.changes.filter fun change => change.kind = .blob).map (addedFile lossy) ++
    (diff.removals.filter fun removal => removal.kind = .blob).map (goneFile lossy)

def sortedFiles (lossy : LossyDecoder) (diff : TreeDiff) : List FileChange :=
  (touched lossy diff).insertionSort FileChange.Before

/-- The flag goes on the last message, and on one of its own when there is no other. -/
def markLast (batches : List DiffCommitResponse) : List DiffCommitResponse :=
  match batches.getLast? with
  | some last => batches.dropLast ++ [{ last with truncated := true }]
  | none => [⟨[], true⟩]

def changedFiles (lossy : LossyDecoder) (diff : TreeDiff) : List DiffCommitResponse :=
  let changes := sortedFiles lossy diff
  let truncated := decide (diffChangeLimit < changes.length) || !diff.isComplete
  let batches := (Lists.chunks diffBatchChanges (changes.take diffChangeLimit)).map
    fun changes => ⟨changes, false⟩
  if truncated then markLast batches else batches

/-! ## Messages -/

variable {lossy : LossyDecoder} {diff : TreeDiff}

theorem markLast_spec (batches : List DiffCommitResponse) :
    (markLast batches).flatMap DiffCommitResponse.changes =
        batches.flatMap DiffCommitResponse.changes ∧
      (markLast batches).dropLast = batches.dropLast ∧
      ∃ last ∈ (markLast batches).getLast?, last.truncated = true := by
  rcases eq_nil_or_concat batches with rfl | ⟨front, last, rfl⟩
  · exact ⟨rfl, rfl, _, rfl, rfl⟩
  · rw [concat_eq_append, markLast, List.getLast?_concat]
    simp

theorem changes_changedFiles :
    (changedFiles lossy diff).flatMap DiffCommitResponse.changes =
      (sortedFiles lossy diff).take diffChangeLimit := by
  have flat : ∀ pieces : List (List FileChange),
      (pieces.map fun changes => (⟨changes, false⟩ : DiffCommitResponse)).flatMap
        DiffCommitResponse.changes = pieces.flatten := by
    intro pieces
    rw [flatMap_map, flatten_eq_flatMap]
    rfl
  simp only [changedFiles]
  split_ifs
  · rw [(markLast_spec _).1, flat, Lists.flatten_chunks (by decide)]
  · rw [flat, Lists.flatten_chunks (by decide)]

theorem length_of_mem_changedFiles {message : DiffCommitResponse}
    (listed : message ∈ (changedFiles lossy diff).dropLast) :
    message.changes.length = diffBatchChanges := by
  have full : ∀ pieces, message ∈ ((Lists.chunks diffBatchChanges pieces).map
      fun changes => (⟨changes, false⟩ : DiffCommitResponse)).dropLast →
      message.changes.length = diffBatchChanges := by
    intro pieces inFront
    rw [← map_dropLast] at inFront
    rcases mem_map.mp inFront with ⟨chunk, isChunk, rfl⟩
    exact Lists.length_of_mem_dropLast isChunk
  simp only [changedFiles] at listed
  split_ifs at listed
  · rw [(markLast_spec _).2.1] at listed
    exact full _ listed
  · exact full _ listed

theorem truncated_or_all :
    (∃ last ∈ (changedFiles lossy diff).getLast?, last.truncated = true) ∨
      diff.isComplete = true ∧
        (sortedFiles lossy diff).take diffChangeLimit = sortedFiles lossy diff := by
  simp only [changedFiles]
  split_ifs with truncated
  · exact Or.inl (markLast_spec _).2.2
  · simp only [Bool.or_eq_true, decide_eq_true_eq, Bool.not_eq_true', not_or,
      Bool.not_eq_false] at truncated
    exact Or.inr ⟨truncated.2, take_of_length_le (Nat.le_of_not_lt truncated.1)⟩

/-! ## Names that are text -/

/-- Every name in a directory under the root is text. -/
def TextNamed (world : TreeReader) (side : Option ObjectId) : Prop :=
  ∀ way name, entryIn world (treeAt world side way) name ≠ none → ∃ text, utf8 text = name

theorem wirePath_utf8 (text : String) : wirePath lossy (utf8 text) = text := by
  rw [wirePath, fromUTF8?_utf8, Option.getD_some]

theorem entryAt_none (world : TreeReader) (names : List Bytes) :
    entryAt world none names = none := by
  induction names with
  | nil => rfl
  | cons name names ih =>
    cases names with
    | nil => rfl
    | cons next names => exact ih

theorem TextNamed.intercalate {world : TreeReader} {side : Option ObjectId} {names : List Bytes}
    (named : TextNamed world side) (stands : entryAt world side names ≠ none) :
    ∃ text, utf8 text = [47].intercalate names := by
  induction names generalizing side with
  | nil => exact absurd rfl stands
  | cons name names ih =>
    cases names with
    | nil =>
      rw [intercalate_singleton]
      exact named [] name stands
    | cons next names =>
      have here : entryIn world side name ≠ none := by
        intro nothing
        rw [entryAt, nothing] at stands
        · exact stands (entryAt_none world (next :: names))
        · exact cons_ne_nil next names
      rcases named [] name here with ⟨text, isName⟩
      rcases @ih (treeOf (entryIn world side name)) (fun way => named (name :: way)) stands with
        ⟨rest, isRest⟩
      have slash : utf8 "/" = [47] := by decide
      refine ⟨text ++ "/" ++ rest, ?_⟩
      rw [intercalate_cons_cons, utf8_append, utf8_append, isName, isRest, slash]

theorem TextNamed.path {world : TreeReader} {side : Option ObjectId} {path : Bytes}
    (named : TextNamed world side) (stands : listing world side path ≠ none) :
    ∃ text, utf8 text = path := by
  have isEntry : entryAt world side (components path) ≠ none := by
    intro nothing
    rw [listing, nothing] at stands
    exact stands rfl
  rw [← intercalate_components path]
  exact named.intercalate isEntry

/-! ## The files that differ -/

section Exact

variable {old new : Listing} (exact_ : ExactDiff old new diff)
  (text : ∀ path, old path ≠ none ∨ new path ≠ none → ∃ text, utf8 text = path)

include exact_ text

theorem utf8_addedFile {change : Change} (listed : change ∈ diff.changes) :
    utf8 (addedFile lossy change).path = change.path := by
  have stands := ((exact_.mem_changes change).mp listed).1
  rcases text change.path (Or.inr (stands ▸ Option.some_ne_none _)) with ⟨path, isPath⟩
  rw [addedFile, ← isPath, wirePath_utf8]

theorem utf8_goneFile {removal : Removal} (listed : removal ∈ diff.removals) :
    utf8 (goneFile lossy removal).path = removal.path := by
  have stood := ((exact_.mem_removals removal).mp listed).1
  rcases text removal.path (Or.inl (stood ▸ Option.some_ne_none _)) with ⟨path, isPath⟩
  rw [goneFile, ← isPath, wirePath_utf8]

theorem mem_touched_iff (file : FileChange) :
    file ∈ touched lossy diff ↔
      file.oldObjectId = versionOf old (utf8 file.path) .blob ∧
        file.newObjectId = versionOf new (utf8 file.path) .blob ∧
        file.oldObjectId ≠ file.newObjectId := by
  rw [touched, mem_append, mem_map, mem_map]
  simp only [mem_filter, decide_eq_true_eq]
  constructor
  · rintro (⟨change, ⟨listed, isBlob⟩, rfl⟩ | ⟨removal, ⟨listed, isBlob⟩, rfl⟩)
    · rcases (exact_.mem_changes change).mp listed with ⟨isNew, differs, isOld⟩
      rw [utf8_addedFile exact_ text listed]
      rw [isBlob] at isNew differs isOld
      have newIs := versionOf_eq_some_iff.mpr isNew
      have oldIs : change.old = versionOf old change.path .blob := by
        ext oid
        rw [isOld, versionOf_eq_some_iff]
      refine ⟨oldIs, newIs.symm, fun same => differs ?_⟩
      exact (isOld _).mp same
    · rcases (exact_.mem_removals removal).mp listed with ⟨isOld, gone⟩
      rw [utf8_goneFile exact_ text listed]
      rw [isBlob] at isOld gone
      refine ⟨(versionOf_eq_some_iff.mpr isOld).symm, ?_, Option.some_ne_none _⟩
      refine (Option.eq_none_iff_forall_ne_some.mpr fun oid isNew => ?_).symm
      exact gone oid (versionOf_eq_some_iff.mp isNew)
  · rcases file with ⟨path, oldId, newId⟩
    rintro ⟨oldIs, newIs, differs⟩
    simp only at oldIs newIs differs
    cases newId with
    | some oid =>
      refine Or.inl ⟨⟨utf8 path, .blob, oldId, oid⟩, ⟨(exact_.mem_changes _).mpr ?_, rfl⟩, ?_⟩
      · refine ⟨versionOf_eq_some_iff.mp newIs.symm, fun same => differs ?_, fun other => ?_⟩
        · exact oldIs.trans (versionOf_eq_some_iff.mpr same)
        · rw [oldIs, versionOf_eq_some_iff]
      · rw [addedFile, wirePath_utf8]
    | none =>
      rcases Option.ne_none_iff_exists'.mp differs with ⟨oid, rfl⟩
      refine Or.inr ⟨⟨utf8 path, .blob, oid⟩, ⟨(exact_.mem_removals _).mpr ?_, rfl⟩, ?_⟩
      · refine ⟨versionOf_eq_some_iff.mp oldIs.symm, fun other isNew => ?_⟩
        rw [versionOf_eq_some_iff.mpr isNew] at newIs
        cases newIs
      · rw [goneFile, wirePath_utf8]

theorem nodup_touched : ((touched lossy diff).map fun file => utf8 file.path).Nodup := by
  have added : ((diff.changes.filter fun change => change.kind = .blob).map (addedFile lossy)).map
      (fun file => utf8 file.path) =
      (diff.changes.filter fun change => change.kind = .blob).map Change.path := by
    rw [map_map]
    exact map_congr_left fun change listed =>
      utf8_addedFile exact_ text (mem_of_mem_filter listed)
  have gone : ((diff.removals.filter fun removal => removal.kind = .blob).map (goneFile lossy)).map
      (fun file => utf8 file.path) =
      (diff.removals.filter fun removal => removal.kind = .blob).map Removal.path := by
    rw [map_map]
    exact map_congr_left fun removal listed =>
      utf8_goneFile exact_ text (mem_of_mem_filter listed)
  rw [touched, map_append, added, gone]
  refine List.Nodup.append (exact_.changes_nodup.sublist (filter_sublist.map _))
    (exact_.removals_nodup.sublist (filter_sublist.map _)) fun path isAdded isGone => ?_
  rcases mem_map.mp isAdded with ⟨change, isChange, rfl⟩
  rcases mem_map.mp isGone with ⟨removal, isRemoval, samePath⟩
  rw [mem_filter, decide_eq_true_eq] at isChange isRemoval
  have isNew := ((exact_.mem_changes change).mp isChange.1).1
  refine ((exact_.mem_removals removal).mp isRemoval.1).2 change.new ?_
  rw [samePath, isNew, isChange.2, isRemoval.2]

end Exact

theorem mem_touched_cut {world reader : TreeReader} {oldRoot : Option ObjectId}
    {newRoot : ObjectId} {depth fuel more : ℕ} {popped all : List DiffFrame}
    (oldWithin : SideWithin world depth oldRoot)
    (newWithin : SideWithin world depth (some newRoot)) (agrees : Agrees reader world)
    (visits : visited fuel reader oldRoot newRoot withRemovals = some popped)
    (whole : visited more world oldRoot newRoot withRemovals = some all)
    (text : ∀ path, listing world oldRoot path ≠ none ∨ listing world (some newRoot) path ≠ none →
      ∃ text, utf8 text = path) {file : FileChange} :
    file ∈ touched lossy (gathered reader withRemovals popped) ↔
      file ∈ touched lossy (gathered world withRemovals all) ∧
        ¬Unread world oldRoot newRoot (gathered reader withRemovals popped) (utf8 file.path) := by
  have exact_ := exactDiff_gathered oldWithin newWithin whole
  have changes {change} : change ∈ (gathered reader withRemovals popped).changes ↔ _ :=
    foundChanges.mem_partial agrees visits whole oldWithin newWithin
  have removals {removal} : removal ∈ (gathered reader withRemovals popped).removals ↔ _ :=
    foundRemovals.mem_partial agrees visits whole oldWithin newWithin
  simp only [touched, mem_append, mem_map, mem_filter, decide_eq_true_eq]
  constructor
  · rintro (⟨change, ⟨listed, isBlob⟩, rfl⟩ | ⟨removal, ⟨listed, isBlob⟩, rfl⟩)
    · rcases changes.mp listed with ⟨inWhole, isRead⟩
      rw [utf8_addedFile exact_ text inWhole]
      exact ⟨Or.inl ⟨change, ⟨inWhole, isBlob⟩, rfl⟩, isRead⟩
    · rcases removals.mp listed with ⟨inWhole, isRead⟩
      rw [utf8_goneFile exact_ text inWhole]
      exact ⟨Or.inr ⟨removal, ⟨inWhole, isBlob⟩, rfl⟩, isRead⟩
  · rintro ⟨⟨change, ⟨listed, isBlob⟩, rfl⟩ | ⟨removal, ⟨listed, isBlob⟩, rfl⟩, isRead⟩
    · rw [utf8_addedFile exact_ text listed] at isRead
      exact Or.inl ⟨change, ⟨changes.mpr ⟨listed, isRead⟩, isBlob⟩, rfl⟩
    · rw [utf8_goneFile exact_ text listed] at isRead
      exact Or.inr ⟨removal, ⟨removals.mpr ⟨listed, isRead⟩, isBlob⟩, rfl⟩

theorem pairwise_sorted {files : List FileChange}
    (nodup : (files.map fun file => utf8 file.path).Nodup) :
    (files.insertionSort FileChange.Before).Pairwise fun left right =>
      utf8 left.path < utf8 right.path := by
  have perm := perm_insertionSort FileChange.Before files
  have distinct := pairwise_map.mp ((perm.map fun file => utf8 file.path).nodup_iff.mpr nodup)
  refine ((pairwise_insertionSort FileChange.Before files).and distinct).imp fun both => ?_
  exact (List.le_iff_lt_or_eq.mp both.1).resolve_right both.2

/-- The whole answer: each file that was added, changed or removed, once and in path order. -/
structure CompleteAnswer (world : TreeReader) (oldRoot : Option ObjectId) (newRoot : ObjectId)
    (files : List FileChange) : Prop where
  sorted : files.Pairwise fun left right => utf8 left.path < utf8 right.path
  mem_iff : ∀ file, file ∈ files ↔
    file.oldObjectId = versionOf (listing world oldRoot) (utf8 file.path) .blob ∧
      file.newObjectId = versionOf (listing world (some newRoot)) (utf8 file.path) .blob ∧
      file.oldObjectId ≠ file.newObjectId

/-- A file changes at the root, and one in a directory before it. -/
def changedDirectory : TreeReader
  | 1 => some [⟨3, true, false, [97]⟩, ⟨10, false, false, [122]⟩]
  | 2 => some [⟨4, true, false, [97]⟩, ⟨11, false, false, [122]⟩]
  | 3 => some [⟨20, false, false, [120]⟩]
  | 4 => some [⟨21, false, false, [120]⟩]
  | _ => none

theorem finite_changedDirectory :
    FiniteTree changedDirectory 1 ∧ FiniteTree changedDirectory 2 := by
  have leaves : FiniteWithin changedDirectory 1 3 ∧ FiniteWithin changedDirectory 1 4 :=
    ⟨⟨_, rfl, ⟨by decide, by decide, by decide⟩, by simp⟩,
      ⟨_, rfl, ⟨by decide, by decide, by decide⟩, by simp⟩⟩
  refine ⟨⟨2, _, rfl, ⟨by decide, by decide, by decide⟩, ?_⟩,
    ⟨2, _, rfl, ⟨by decide, by decide, by decide⟩, ?_⟩⟩
  · simp [leaves]
  · simp [leaves]

theorem textNamed_changedDirectory (side : Option ObjectId) : TextNamed changedDirectory side := by
  intro way name stands
  rcases Option.ne_none_iff_exists'.mp stands with ⟨entry, isEntry⟩
  rcases name_of_entryNamed isEntry with ⟨listed, -, rfl⟩
  generalize treeAt changedDirectory side way = tree at listed
  have names : entry.name = utf8 "a" ∨ entry.name = utf8 "x" ∨ entry.name = utf8 "z" := by
    cases tree with
    | none => cases listed
    | some oid =>
      rw [entriesOf, Option.bind_some] at listed
      unfold changedDirectory at listed
      split at listed
      · rcases mem_pair.mp listed with rfl | rfl <;> decide
      · rcases mem_pair.mp listed with rfl | rfl <;> decide
      · rw [mem_singleton.mp listed]
        decide
      · rw [mem_singleton.mp listed]
        decide
      · cases listed
  rcases names with isName | isName | isName
  · exact ⟨"a", isName.symm⟩
  · exact ⟨"x", isName.symm⟩
  · exact ⟨"z", isName.symm⟩

end Enroute.ChangedFiles
