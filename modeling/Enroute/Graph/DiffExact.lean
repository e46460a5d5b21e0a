import Enroute.Graph.Listing

/-!
# A diff is exact

A walk goes down into exactly the directories at which the two sides have different trees all the
way from the roots. Whatever differs stands right under one of them, so a diff that could read every
tree it asked for names each path that differs once, and nothing else. One that could not says so,
and with the trees it names at hand the next one gets further.
-/

namespace Enroute

open Diff List Unstack

def Agrees (reader world : TreeReader) : Prop :=
  ∀ oid entries, reader oid = some entries → world oid = some entries

/-- A frame that stands where it says, with other trees on both sides all the way down to it. -/
structure Placed (world : TreeReader) (oldRoot newRoot : Option ObjectId) (frame : DiffFrame) :
    Prop where
  old : frame.old = treeAt world oldRoot (components frame.lead)
  new : frame.new = treeAt world newRoot (components frame.lead)
  differs : ∀ names, names <+: components frame.lead →
    treeAt world oldRoot names ≠ treeAt world newRoot names

def withRemovals : DiffOptions :=
  ⟨true⟩

section Frames

variable {world reader : TreeReader} {options : DiffOptions} {frame : DiffFrame} {depth : ℕ}

theorem readSide_of_agrees (agrees : Agrees reader world) {side : Option ObjectId}
    {entries : List TreeChild} (isRead : readSide reader side = some entries) :
    readSide world side = some entries := by
  cases side with
  | none => exact isRead
  | some oid => exact agrees oid entries isRead

/-- A frame that could be read is compared as it would be with everything at hand; one that could
not adds the trees that are missing and nothing else. -/
theorem diffFrame_cases (agrees : Agrees reader world) (options : DiffOptions) (frame : DiffFrame) :
    (diffFrame reader options frame = diffFrame world options frame ∧
      (diffFrame reader options frame).found.unreadable = []) ∨
    (diffFrame reader options frame =
        ⟨⟨[], [], missingSide reader frame.old ++ missingSide reader frame.new⟩, []⟩ ∧
      (diffFrame reader options frame).found.unreadable ≠ []) := by
  have missing : ∀ {side}, readSide reader side = none → missingSide reader side ≠ [] := by
    intro side notRead
    cases side with
    | none => cases notRead
    | some oid => simp [missingSide, notRead]
  cases isOld : readSide reader frame.old with
  | none =>
    have outcome : diffFrame reader options frame =
        ⟨⟨[], [], missingSide reader frame.old ++ missingSide reader frame.new⟩, []⟩ := by
      rw [diffFrame, isOld]
    refine Or.inr ⟨outcome, ?_⟩
    rw [outcome]
    exact append_ne_nil_of_left_ne_nil (missing isOld) _
  | some oldEntries =>
    cases isNew : readSide reader frame.new with
    | none =>
      have outcome : diffFrame reader options frame =
          ⟨⟨[], [], missingSide reader frame.old ++ missingSide reader frame.new⟩, []⟩ := by
        rw [diffFrame, isOld, isNew]
      refine Or.inr ⟨outcome, ?_⟩
      rw [outcome]
      exact append_ne_nil_of_right_ne_nil _ (missing isNew)
    | some newEntries =>
      refine Or.inl ⟨?_, ?_⟩
      · rw [diffFrame, diffFrame, isOld, isNew, readSide_of_agrees agrees isOld,
          readSide_of_agrees agrees isNew]
      · rw [diffFrame, isOld, isNew]

theorem pushes_of_agrees (agrees : Agrees reader world) {pushed : DiffFrame}
    (isPushed : pushed ∈ pushes reader options frame) : pushed ∈ pushes world options frame := by
  rcases diffFrame_cases agrees options frame with ⟨same, -⟩ | ⟨nothing, -⟩
  · rwa [pushes, same] at isPushed
  · rw [pushes, nothing] at isPushed
    cases isPushed

theorem mem_unreadable_diffFrame {oid : ObjectId} :
    oid ∈ (diffFrame reader options frame).found.unreadable ↔
      reader oid = none ∧ (frame.old = some oid ∨ frame.new = some oid) := by
  have side : ∀ side, oid ∈ missingSide reader side ↔ reader oid = none ∧ side = some oid := by
    intro side
    cases side with
    | none => simp [missingSide]
    | some other =>
      rw [missingSide, readSide]
      split_ifs with notRead
      · rw [Option.isNone_iff_eq_none] at notRead
        simp only [Option.toList_some, mem_singleton, Option.some.injEq, eq_comm]
        exact (and_iff_right_of_imp fun same => same ▸ notRead).symm
      · refine iff_of_false not_mem_nil fun missing => notRead ?_
        rw [Option.some.inj missing.2, missing.1, Option.isNone_none]
  have held : ∀ {side entries}, readSide reader side = some entries → reader oid = none →
      side ≠ some oid := by
    rintro _ entries isRead missing rfl
    exact Option.some_ne_none entries (isRead.symm.trans missing)
  rw [diffFrame]
  split
  next oldRead newRead =>
    refine iff_of_false not_mem_nil fun missing => ?_
    exact missing.2.elim (held oldRead missing.1) (held newRead missing.1)
  next => rw [mem_append, side, side, and_or_left]

theorem byName_diffFrame (oldWithin : SideWithin world depth frame.old)
    (newWithin : SideWithin world depth frame.new) :
    ∃ names : List Bytes, names.Nodup ∧
      (∀ name, name ∈ names ↔
        entryIn world frame.old name ≠ none ∨ entryIn world frame.new name ≠ none) ∧
      diffFrame world withRemovals frame =
        ⟨⟨names.filterMap (changeAt frame.lead (entryIn world frame.old) (entryIn world frame.new)),
          names.filterMap (removalAt frame.lead (entryIn world frame.old) (entryIn world frame.new)),
          []⟩,
        names.reverse.filterMap
          (frameAt frame.lead (entryIn world frame.old) (entryIn world frame.new))⟩ := by
  rcases @byName_compareTrees withRemovals frame.lead rfl _ _ oldWithin.read.2.distinct
    newWithin.read.2.distinct with ⟨names, nodup, listed, byName⟩
  refine ⟨names, nodup, listed, ?_⟩
  rw [diffFrame, oldWithin.read.1, newWithin.read.1]
  simp only [byName.changes, byName.removals, byName.pushed]
  rfl

theorem components_of_entryIn {side : Option ObjectId} (within : SideWithin world depth side)
    {lead name : Bytes} (named : entryIn world side name ≠ none) :
    components (joinPath lead name) = components lead ++ [name] := by
  rcases Option.ne_none_iff_exists'.mp named with ⟨entry, isEntry⟩
  rcases name_of_entryNamed isEntry with ⟨listed, -, rfl⟩
  exact components_joinPath (within.read.2.nonempty entry listed)
    (within.read.2.slashFree entry listed)

end Frames

/-! ### What one frame adds -/

theorem changeAt_eq_some_iff {lead : Bytes} {was is : Bytes → Option TreeChild} {name : Bytes}
    {change : Change} :
    changeAt lead was is name = some change ↔
      ∃ entry, is name = some entry ∧ unchanged entry (was name) = false ∧
        change = ⟨joinPath lead name, entry.kind, oldVersion entry (was name), entry.oid⟩ := by
  rw [changeAt, Option.bind_eq_some_iff]
  refine exists_congr fun entry => and_congr_right fun _ => ?_
  cases unchanged entry (was name) <;> simp [eq_comm]

theorem removalAt_eq_some_iff {lead : Bytes} {was is : Bytes → Option TreeChild} {name : Bytes}
    {removal : Removal} :
    removalAt lead was is name = some removal ↔
      ∃ gone, was name = some gone ∧ (∀ entry ∈ is name, entry.isTree ≠ gone.isTree) ∧
        removal = ⟨joinPath lead name, gone.kind, gone.oid⟩ := by
  rw [removalAt, Option.bind_eq_some_iff]
  refine exists_congr fun gone => and_congr_right fun _ => ?_
  cases is name with
  | none => simp [eq_comm]
  | some entry =>
    by_cases same : entry.isTree = gone.isTree
    · simp [same]
    · simp only [Option.any_some, beq_iff_eq, same, if_false, Option.some.injEq, Option.mem_def,
        forall_eq', ne_eq, not_false_eq_true, true_and]
      exact eq_comm

/-- What a diff finds name by name: its changes, or its removals. -/
structure FoundAt {β : Type} (path : β → Bytes) (found : TreeDiff → List β)
    (at_ : Bytes → (Bytes → Option TreeChild) → (Bytes → Option TreeChild) → Bytes → Option β) :
    Prop where
  byName : ∀ lead was is (names : List Bytes) unreadable,
    found ⟨names.filterMap (changeAt lead was is), names.filterMap (removalAt lead was is),
      unreadable⟩ = names.filterMap (at_ lead was is)
  gathers : ∀ read options frames, found (gathered read options frames) =
    frames.flatMap fun frame => found (diffFrame read options frame).found
  named : ∀ {lead was is name item}, at_ lead was is name = some item →
    path item = joinPath lead name ∧ (was name ≠ none ∨ is name ≠ none)

theorem foundChanges : FoundAt Change.path TreeDiff.changes changeAt where
  byName _ _ _ _ _ := rfl
  gathers _ _ _ := rfl
  named := by
    intro lead was is name change isChange
    rcases changeAt_eq_some_iff.mp isChange with ⟨entry, isEntry, -, rfl⟩
    exact ⟨rfl, Or.inr (isEntry ▸ Option.some_ne_none entry)⟩

theorem foundRemovals : FoundAt Removal.path TreeDiff.removals removalAt where
  byName _ _ _ _ _ := rfl
  gathers _ _ _ := rfl
  named := by
    intro lead was is name removal isGone
    rcases removalAt_eq_some_iff.mp isGone with ⟨gone, wasGone, -, rfl⟩
    exact ⟨rfl, Or.inl (wasGone ▸ Option.some_ne_none gone)⟩

section Frame

variable {world : TreeReader} {frame : DiffFrame} {depth : ℕ} {β : Type} {path : β → Bytes}
  {found : TreeDiff → List β}
  {at_ : Bytes → (Bytes → Option TreeChild) → (Bytes → Option TreeChild) → Bytes → Option β}

theorem FoundAt.nothing (foundAt : FoundAt path found at_) (unreadable : List ObjectId) :
    found ⟨[], [], unreadable⟩ = [] :=
  foundAt.byName [] (fun _ => none) (fun _ => none) [] unreadable

theorem FoundAt.ofFrame (foundAt : FoundAt path found at_)
    (oldWithin : SideWithin world depth frame.old)
    (newWithin : SideWithin world depth frame.new) :
    ((found (diffFrame world withRemovals frame).found).map path).Nodup ∧
      ∀ item, item ∈ found (diffFrame world withRemovals frame).found ↔ ∃ name,
        at_ frame.lead (entryIn world frame.old) (entryIn world frame.new) name = some item := by
  rcases byName_diffFrame oldWithin newWithin with ⟨names, nodup, listed, outcome⟩
  rw [outcome, foundAt.byName]
  refine ⟨?_, fun item => ?_⟩
  · exact Stream.nodup_map_filterMap (nodup.map (joinPath_injective frame.lead))
      fun name item isFound => (foundAt.named isFound).1
  · rw [mem_filterMap]
    exact exists_congr fun name => and_iff_right_of_imp fun isFound =>
      (listed name).mpr (foundAt.named isFound).2

end Frame

theorem mem_unreadable_gathered {reader : TreeReader} {options : DiffOptions}
    {popped : List DiffFrame} {oid : ObjectId} :
    oid ∈ (gathered reader options popped).unreadable ↔
      reader oid = none ∧ ∃ frame ∈ popped, frame.old = some oid ∨ frame.new = some oid := by
  have once := @Stream.mem_map_keepFirst ObjectId ObjectId _ id []
    (gather reader options ∅ popped).unreadable oid
  rw [map_id, map_id] at once
  refine once.trans ((and_iff_right not_mem_nil).trans (mem_flatMap.trans ?_))
  simp only [mem_unreadable_diffFrame]
  exact ⟨fun ⟨frame, isFrame, missing, isSide⟩ => ⟨missing, frame, isFrame, isSide⟩,
    fun ⟨missing, frame, isFrame, isSide⟩ => ⟨frame, isFrame, missing, isSide⟩⟩

section Walk

variable {world reader : TreeReader} {oldRoot : Option ObjectId} {newRoot : ObjectId}
  {depth fuel more : ℕ} {frame : DiffFrame} {popped all : List DiffFrame}

theorem visited_of_le {options : DiffOptions}
    (visits : visited fuel reader oldRoot newRoot options = some popped) (le : fuel ≤ more) :
    visited more reader oldRoot newRoot options = some popped := by
  rw [visited] at visits ⊢
  split_ifs at visits ⊢
  · exact visits
  · exact popAll_of_le visits le

/-- A walk that lacks trees pops some of the frames of the whole one, in the same order. -/
theorem visited_sublist (agrees : Agrees reader world)
    (visits : visited fuel reader oldRoot newRoot withRemovals = some popped)
    (whole : visited more world oldRoot newRoot withRemovals = some all) : popped.Sublist all := by
  rw [visited] at visits whole
  split_ifs at visits whole
  · cases visits
    exact nil_sublist all
  · refine popAll_sublist visits whole fun frame => ?_
    rcases diffFrame_cases agrees withRemovals frame with ⟨same, -⟩ | ⟨nothing, -⟩
    · exact Or.inl (congrArg FrameDiff.pushed same)
    · exact Or.inr (congrArg FrameDiff.pushed nothing)

variable (oldWithin : SideWithin world depth oldRoot)
  (newWithin : SideWithin world depth (some newRoot))

include oldWithin newWithin

theorem Placed.within (placed : Placed world oldRoot (some newRoot) frame) :
    SideWithin world depth frame.old ∧ SideWithin world depth frame.new := by
  rw [placed.old, placed.new]
  exact ⟨oldWithin.treeAt _, newWithin.treeAt _⟩

theorem Placed.pushes (placed : Placed world oldRoot (some newRoot) frame) {pushed : DiffFrame}
    (isPushed : pushed ∈ pushes world withRemovals frame) :
    Placed world oldRoot (some newRoot) pushed ∧
      ∃ name, components pushed.lead = components frame.lead ++ [name] := by
  rcases placed.within oldWithin newWithin with ⟨oldHere, newHere⟩
  rcases byName_diffFrame oldHere newHere with ⟨names, -, listed, outcome⟩
  rw [Diff.pushes, outcome, mem_filterMap] at isPushed
  rcases isPushed with ⟨name, isName, isFrame⟩
  rw [frameAt] at isFrame
  split_ifs at isFrame with same
  rw [← Option.some.inj isFrame]
  have address : components (joinPath frame.lead name) = components frame.lead ++ [name] := by
    rcases (listed name).mp (mem_reverse.mp isName) with isOld | isNew
    · exact components_of_entryIn oldHere isOld
    · exact components_of_entryIn newHere isNew
  have oldStep : treeAt world oldRoot (components frame.lead ++ [name]) =
      treeOf (entryIn world frame.old name) := by
    rw [treeAt_append, ← placed.old]
    rfl
  have newStep : treeAt world (some newRoot) (components frame.lead ++ [name]) =
      treeOf (entryIn world frame.new name) := by
    rw [treeAt_append, ← placed.new]
    rfl
  refine ⟨⟨?_, ?_, fun way leads => ?_⟩, name, address⟩
  · simp only [address, oldStep]
  · simp only [address, newStep]
  · simp only [address] at leads
    rcases prefix_concat_iff.mp leads with rfl | before
    · rw [oldStep, newStep]
      exact same
    · exact placed.differs way before

omit oldWithin newWithin in
theorem placed_root (differ : oldRoot ≠ some newRoot) :
    Placed world oldRoot (some newRoot) ⟨[], oldRoot, some newRoot⟩ := by
  refine ⟨rfl, rfl, fun names leads => ?_⟩
  rw [prefix_nil.mp leads]
  exact differ

theorem nodup_visited (whole : visited fuel world oldRoot newRoot withRemovals = some all) :
    (all.map fun frame => components frame.lead).Nodup := by
  rw [visited] at whole
  split_ifs at whole with same
  · cases whole
    exact nodup_nil
  · refine popAll_nodup (Placed world oldRoot (some newRoot)) whole
      (fun frame placed pushed isPushed => (placed.pushes oldWithin newWithin isPushed).1)
      (fun frame placed pushed isPushed => (placed.pushes oldWithin newWithin isPushed).2)
      (fun frame placed => ?_) (forall_mem_singleton.mpr (placed_root same))
      (pairwise_singleton _ _)
    rcases placed.within oldWithin newWithin with ⟨oldHere, newHere⟩
    rcases byName_diffFrame oldHere newHere with ⟨names, nodup, -, outcome⟩
    rw [Diff.pushes, outcome]
    refine Stream.nodup_map_filterMap ((nodup_reverse.mpr nodup).map
      (components_injective.comp (joinPath_injective frame.lead))) fun name pushed isFrame => ?_
    rw [frameAt] at isFrame
    split_ifs at isFrame
    rw [← Option.some.inj isFrame]
    rfl

variable (agrees : Agrees reader world)
  (visits : visited fuel reader oldRoot newRoot withRemovals = some popped)

include agrees visits

/-- Whatever is popped stands where it says, and both trees could be read at every directory above
it. -/
theorem placed_of_visited :
    ∀ frame ∈ popped, Placed world oldRoot (some newRoot) frame ∧
      ∀ way, way <+: components frame.lead → way ≠ components frame.lead →
        ∀ oid, treeAt world oldRoot way = some oid ∨ treeAt world (some newRoot) way = some oid →
          reader oid ≠ none := by
  rw [visited] at visits
  split_ifs at visits with same
  · cases visits
    exact forall_mem_nil _
  · refine popAll_invariant visits (forall_mem_singleton.mpr ⟨placed_root same, ?_⟩) ?_
    · intro way leads isBelow
      exact absurd (prefix_nil.mp leads) isBelow
    · rintro frame ⟨placed, isAbove⟩ pushed isPushed
      rcases placed.pushes oldWithin newWithin (pushes_of_agrees agrees isPushed) with
        ⟨isPlaced, name, address⟩
      refine ⟨isPlaced, fun way leads isBelow oid isSide missing => ?_⟩
      rw [address] at leads isBelow
      have leads := (prefix_concat_iff.mp leads).resolve_left isBelow
      by_cases here : way = components frame.lead
      · -- a frame that lacks a side pushes nothing
        rw [here, ← placed.old, ← placed.new] at isSide
        have unread : oid ∈ (diffFrame reader withRemovals frame).found.unreadable :=
          mem_unreadable_diffFrame.mpr ⟨missing, isSide⟩
        rcases diffFrame_cases agrees withRemovals frame with ⟨-, isRead⟩ | ⟨nothing, -⟩
        · exact not_mem_nil (isRead ▸ unread)
        · rw [Diff.pushes, nothing] at isPushed
          cases isPushed
      · exact isAbove way leads here oid isSide missing

theorem exists_visited {names : List Bytes}
    (differs : ∀ way, way <+: names → treeAt world oldRoot way ≠ treeAt world (some newRoot) way)
    (isRead : ∀ way, way <+: names → way ≠ names →
      ∀ oid ∈ (gathered reader withRemovals popped).unreadable,
        ¬(treeAt world oldRoot way = some oid ∨ treeAt world (some newRoot) way = some oid)) :
    ∃ frame ∈ popped, components frame.lead = names := by
  have areVisited := placed_of_visited oldWithin newWithin agrees visits
  have different : oldRoot ≠ some newRoot := differs [] nil_prefix
  rw [visited, if_neg different] at visits
  rcases popAll_closed visits with ⟨starts, closed⟩
  induction names using List.reverseRecOn with
  | nil => exact ⟨_, starts _ mem_cons_self, rfl⟩
  | append_singleton names name ih =>
    have shorter : names <+: names ++ [name] := prefix_append names [name]
    have strictly : ∀ {way}, way <+: names → way ≠ names ++ [name] := by
      rintro way leads rfl
      simpa using leads.length_le
    rcases ih (fun way leads => differs way (leads.trans shorter))
      (fun way leads _ => isRead way (leads.trans shorter) (strictly leads)) with
      ⟨frame, isFrame, address⟩
    have here := (areVisited frame isFrame).1
    rcases here.within oldWithin newWithin with ⟨oldHere, newHere⟩
    have apart := differs (names ++ [name]) prefix_rfl
    rw [treeAt_append, treeAt_append, ← address, ← here.old, ← here.new] at apart
    change treeOf (entryIn world frame.old name) ≠ treeOf (entryIn world frame.new name) at apart
    rcases byName_diffFrame oldHere newHere with ⟨listedNames, -, listed, outcome⟩
    -- One of the two sides has a tree under the name.
    have named : entryIn world frame.old name ≠ none ∨ entryIn world frame.new name ≠ none := by
      by_contra neither
      rw [not_or, not_not, not_not] at neither
      rw [neither.1, neither.2] at apart
      exact apart rfl
    have same : diffFrame reader withRemovals frame = diffFrame world withRemovals frame := by
      rcases diffFrame_cases agrees withRemovals frame with ⟨same, -⟩ | ⟨-, missing⟩
      · exact same
      · rcases exists_mem_of_ne_nil _ missing with ⟨oid, unread⟩
        rcases mem_unreadable_diffFrame.mp unread with ⟨lacks, isSide⟩
        refine absurd ?_ (isRead names shorter (strictly prefix_rfl) oid
          (mem_unreadable_gathered.mpr ⟨lacks, frame, isFrame, isSide⟩))
        rwa [← address, ← here.old, ← here.new]
    have isPushed : (⟨joinPath frame.lead name, treeOf (entryIn world frame.old name),
        treeOf (entryIn world frame.new name)⟩ : DiffFrame) ∈
        Diff.pushes reader withRemovals frame := by
      rw [Diff.pushes, same, outcome, mem_filterMap]
      exact ⟨name, mem_reverse.mpr ((listed name).mpr named), if_neg apart⟩
    refine ⟨_, closed frame isFrame _ isPushed, ?_⟩
    rw [← address]
    rcases named with isOld | isNew
    · exact components_of_entryIn oldHere isOld
    · exact components_of_entryIn newHere isNew

end Walk

/-! ### What is found -/

/-- What deleting the removals and then applying the changes makes of a listing. -/
def TreeDiff.applied (diff : TreeDiff) (old : Listing) : Listing := fun path =>
  match diff.changes.find? fun change => change.path = path with
  | some change => some (change.kind, change.new)
  | none => if path ∈ diff.removals.map Removal.path then none else old path

structure ExactDiff (old new : Listing) (diff : TreeDiff) : Prop where
  /-- Every path is changed once and removed once at most. -/
  changes_nodup : (diff.changes.map Change.path).Nodup
  removals_nodup : (diff.removals.map Removal.path).Nodup
  /-- A change is what the new listing has and the old one does not, with the old version of the same
  type. -/
  mem_changes : ∀ change, change ∈ diff.changes ↔
    new change.path = some (change.kind, change.new) ∧
      old change.path ≠ some (change.kind, change.new) ∧
      ∀ oid, change.old = some oid ↔ old change.path = some (change.kind, oid)
  /-- A removal is what the old listing has and the new one has no more of the same type. -/
  mem_removals : ∀ removal, removal ∈ diff.removals ↔
    old removal.path = some (removal.kind, removal.old) ∧
      ∀ oid, new removal.path ≠ some (removal.kind, oid)

namespace ExactDiff

variable {old new : Listing} {diff : TreeDiff}

def versionOf (old : Listing) (path : Bytes) (kind : Kind) : Option ObjectId :=
  (old path).bind fun held => if held.1 = kind then some held.2 else none

theorem versionOf_eq_some_iff {path : Bytes} {kind : Kind} {oid : ObjectId} :
    versionOf old path kind = some oid ↔ old path = some (kind, oid) := by
  rw [versionOf, Option.bind_eq_some_iff]
  constructor
  · rintro ⟨⟨heldKind, held⟩, isHeld, kept⟩
    split_ifs at kept with same
    rw [isHeld, ← Option.some.inj kept, ← same]
  · intro isHeld
    exact ⟨_, isHeld, if_pos rfl⟩

theorem exists_change (exact_ : ExactDiff old new diff) {path : Bytes} {kind : Kind} {oid : ObjectId}
    (isNew : new path = some (kind, oid)) (differs : old path ≠ some (kind, oid)) :
    ∃ change ∈ diff.changes, change.path = path := by
  refine ⟨⟨path, kind, versionOf old path kind, oid⟩, (exact_.mem_changes _).mpr ?_, rfl⟩
  exact ⟨isNew, differs, fun _ => versionOf_eq_some_iff⟩

theorem differs_iff (exact_ : ExactDiff old new diff) (path : Bytes) :
    old path ≠ new path ↔
      path ∈ diff.changes.map Change.path ∨ path ∈ diff.removals.map Removal.path := by
  constructor
  · intro differs
    cases isNew : new path with
    | some held =>
      rcases exact_.exists_change isNew (isNew ▸ differs) with ⟨change, isChange, isPath⟩
      exact Or.inl (mem_map.mpr ⟨change, isChange, isPath⟩)
    | none =>
      rcases Option.ne_none_iff_exists'.mp (isNew ▸ differs) with ⟨⟨kind, oid⟩, isOld⟩
      refine Or.inr (mem_map.mpr ⟨⟨path, kind, oid⟩, (exact_.mem_removals _).mpr ?_, rfl⟩)
      refine ⟨isOld, fun other isOther => ?_⟩
      simp only [isNew] at isOther
      cases isOther
  · rintro (changed | removed) same
    · rcases mem_map.mp changed with ⟨change, isChange, rfl⟩
      rcases (exact_.mem_changes _).mp isChange with ⟨isNew, differs, -⟩
      exact differs (same.trans isNew)
    · rcases mem_map.mp removed with ⟨removal, isRemoval, rfl⟩
      rcases (exact_.mem_removals _).mp isRemoval with ⟨isOld, gone⟩
      exact gone _ (same.symm.trans isOld)

theorem applied_eq (exact_ : ExactDiff old new diff) : diff.applied old = new := by
  funext path
  rw [TreeDiff.applied]
  cases found : diff.changes.find? fun change => change.path = path with
  | some change =>
    have isPath := List.find?_some found
    rw [decide_eq_true_eq] at isPath
    have isChange := (exact_.mem_changes change).mp (mem_of_find?_eq_some found)
    rw [← isPath]
    exact isChange.1.symm
  | none =>
    have unchanged : path ∉ diff.changes.map Change.path := by
      intro changed
      rcases mem_map.mp changed with ⟨change, isChange, isPath⟩
      exact List.find?_eq_none.mp found change isChange (decide_eq_true isPath)
    simp only
    split_ifs with removed
    · -- What is removed and not changed is not there any more.
      by_contra still
      rcases Option.ne_none_iff_exists'.mp (Ne.symm still) with ⟨held, isNew⟩
      have differs : old path ≠ new path := (exact_.differs_iff path).mpr (Or.inr removed)
      rcases exact_.exists_change isNew (isNew ▸ differs) with ⟨change, isChange, isPath⟩
      exact unchanged (mem_map.mpr ⟨change, isChange, isPath⟩)
    · by_contra differs
      rcases (exact_.differs_iff path).mp differs with changed | isRemoved
      · exact unchanged changed
      · exact removed isRemoved

end ExactDiff

theorem unchanged_eq_false_iff {entry : TreeChild} {was : Option TreeChild} :
    unchanged entry was = false ↔
      was.map (fun old => (old.kind, old.oid)) ≠ some (entry.kind, entry.oid) := by
  cases was with
  | none => simp [unchanged]
  | some old =>
    simp only [unchanged, Option.any_some, Option.map_some, ne_eq, Option.some.injEq,
      Prod.mk.injEq, kind_eq_iff]
    by_cases sameOid : old.oid = entry.oid <;> by_cases sameType : old.isTree = entry.isTree <;>
      simp [sameOid, sameType]

theorem oldVersion_eq_some_iff {entry : TreeChild} {was : Option TreeChild} {oid : ObjectId} :
    oldVersion entry was = some oid ↔
      was.map (fun old => (old.kind, old.oid)) = some (entry.kind, oid) := by
  cases was with
  | none => simp [oldVersion]
  | some old =>
    simp only [oldVersion, Option.map_some, Option.some.injEq, Prod.mk.injEq, kind_eq_iff]
    by_cases sameType : old.isTree = entry.isTree <;> simp [sameType, Option.filter_some]

section Complete

variable {world reader : TreeReader} {oldRoot : Option ObjectId} {newRoot : ObjectId}
  {depth fuel more : ℕ} {frame : DiffFrame} {popped all : List DiffFrame} {β : Type}
  {path : β → Bytes} {found : TreeDiff → List β}
  {at_ : Bytes → (Bytes → Option TreeChild) → (Bytes → Option TreeChild) → Bytes → Option β}
  (oldWithin : SideWithin world depth oldRoot)
  (newWithin : SideWithin world depth (some newRoot))

include oldWithin newWithin

theorem Placed.listing_joinPath (placed : Placed world oldRoot (some newRoot) frame) {name : Bytes}
    (named : entryIn world frame.old name ≠ none ∨ entryIn world frame.new name ≠ none) :
    components (joinPath frame.lead name) = components frame.lead ++ [name] ∧
      listing world oldRoot (joinPath frame.lead name) =
        (entryIn world frame.old name).map (fun entry => (entry.kind, entry.oid)) ∧
      listing world (some newRoot) (joinPath frame.lead name) =
        (entryIn world frame.new name).map fun entry => (entry.kind, entry.oid) := by
  rcases placed.within oldWithin newWithin with ⟨oldHere, newHere⟩
  have address : components (joinPath frame.lead name) = components frame.lead ++ [name] := by
    rcases named with isOld | isNew
    · exact components_of_entryIn oldHere isOld
    · exact components_of_entryIn newHere isNew
  refine ⟨address, ?_, ?_⟩
  · rw [listing, address, entryAt_append _ (cons_ne_nil _ _), ← placed.old]
    rfl
  · rw [listing, address, entryAt_append _ (cons_ne_nil _ _), ← placed.new]
    rfl

section Found

variable (whole : visited more world oldRoot newRoot withRemovals = some all)

include whole

theorem unreadable_gathered : (gathered world withRemovals all).unreadable = [] := by
  refine eq_nil_iff_forall_not_mem.mpr fun oid named => ?_
  rcases mem_unreadable_gathered.mp named with ⟨missing, frame, isFrame, isSide⟩
  have placed := (placed_of_visited oldWithin newWithin (fun _ _ => id) whole frame isFrame).1
  rcases placed.within oldWithin newWithin with ⟨oldHere, newHere⟩
  rcases isSide with isOld | isNew
  · exact (oldHere oid isOld).ne_none missing
  · exact (newHere oid isNew).ne_none missing

theorem exists_frame {path : Bytes}
    (differs : listing world oldRoot path ≠ listing world (some newRoot) path) :
    ∃ frame ∈ all, ∃ name, joinPath frame.lead name = path ∧
      (entryIn world frame.old name ≠ none ∨ entryIn world frame.new name ≠ none) := by
  have some_ : components path ≠ [] := by
    intro none
    rw [listing, listing, none] at differs
    exact differs rfl
  rcases eq_nil_or_concat (components path) with none | ⟨names, name, isPath⟩
  · exact absurd none some_
  rw [concat_eq_append] at isPath
  have apart : ∀ way, way <+: names →
      treeAt world oldRoot way ≠ treeAt world (some newRoot) way := by
    rintro way ⟨more, rfl⟩ same
    rw [append_assoc] at isPath
    exact differs (listing_eq_of_treeAt_eq isPath (by simp) same)
  have isRead := unreadable_gathered oldWithin newWithin whole
  rcases exists_visited oldWithin newWithin (fun _ _ => id) whole apart
    (by simp [isRead]) with ⟨frame, isFrame, address⟩
  have placed := (placed_of_visited oldWithin newWithin (fun _ _ => id) whole frame isFrame).1
  have named : entryIn world frame.old name ≠ none ∨ entryIn world frame.new name ≠ none := by
    by_contra neither
    rw [not_or, not_not, not_not, placed.old, placed.new, address] at neither
    rw [listing, listing, isPath, entryAt_append _ (cons_ne_nil _ _),
      entryAt_append _ (cons_ne_nil _ _), entryAt, entryAt, neither.1, neither.2] at differs
    exact differs rfl
  refine ⟨frame, isFrame, name, components_injective ?_, named⟩
  rw [(placed.listing_joinPath oldWithin newWithin named).1, address, isPath]

/-- Each thing found stands right under the frame it was found at. -/
theorem FoundAt.ofVisited (foundAt : FoundAt path found at_) (isFrame : frame ∈ all) :
    Placed world oldRoot (some newRoot) frame ∧
      ((found (diffFrame world withRemovals frame).found).map path).Nodup ∧
      (∀ item, item ∈ found (diffFrame world withRemovals frame).found ↔ ∃ name,
        at_ frame.lead (entryIn world frame.old) (entryIn world frame.new) name = some item) ∧
      ∀ item ∈ found (diffFrame world withRemovals frame).found,
        ∃ name, components (path item) = components frame.lead ++ [name] := by
  have placed := (placed_of_visited oldWithin newWithin (fun _ _ => id) whole frame isFrame).1
  rcases placed.within oldWithin newWithin with ⟨oldHere, newHere⟩
  rcases foundAt.ofFrame oldHere newHere with ⟨nodup, isFound⟩
  refine ⟨placed, nodup, isFound, fun item listed => ?_⟩
  rcases (isFound item).mp listed with ⟨name, isItem⟩
  rcases foundAt.named isItem with ⟨isPath, named⟩
  exact ⟨name, isPath ▸ (placed.listing_joinPath oldWithin newWithin named).1⟩

theorem FoundAt.nodup (foundAt : FoundAt path found at_) :
    ((found (gathered world withRemovals all)).map path).Nodup := by
  rw [foundAt.gathers, map_flatMap]
  refine nodup_flatMap.mpr ⟨fun frame isFrame =>
    (foundAt.ofVisited oldWithin newWithin whole isFrame).2.1, ?_⟩
  have apart := pairwise_map.mp (nodup_visited oldWithin newWithin whole)
  refine apart.imp_of_mem ?_
  intro first second isFirst isSecond different path inFirst inSecond
  rcases mem_map.mp inFirst with ⟨item, isItem, rfl⟩
  rcases mem_map.mp inSecond with ⟨other, isOther, samePath⟩
  rcases (foundAt.ofVisited oldWithin newWithin whole isFirst).2.2.2 item isItem with ⟨name, ofFirst⟩
  rcases (foundAt.ofVisited oldWithin newWithin whole isSecond).2.2.2 other isOther with
    ⟨otherName, ofSecond⟩
  rw [samePath, ofFirst] at ofSecond
  exact different (append_inj_left' ofSecond rfl)

theorem FoundAt.mem_gathered (foundAt : FoundAt path found at_) {item : β} :
    item ∈ found (gathered world withRemovals all) ↔ ∃ frame ∈ all, ∃ name,
      at_ frame.lead (entryIn world frame.old) (entryIn world frame.new) name = some item := by
  rw [foundAt.gathers, mem_flatMap]
  exact exists_congr fun frame => and_congr_right fun isFrame =>
    (foundAt.ofVisited oldWithin newWithin whole isFrame).2.2.1 item

theorem mem_changes_gathered (change : Change) :
    change ∈ (gathered world withRemovals all).changes ↔
      listing world (some newRoot) change.path = some (change.kind, change.new) ∧
        listing world oldRoot change.path ≠ some (change.kind, change.new) ∧
        ∀ oid, change.old = some oid ↔
          listing world oldRoot change.path = some (change.kind, oid) := by
  have areVisited := placed_of_visited oldWithin newWithin (fun _ _ => id) whole
  rw [foundChanges.mem_gathered oldWithin newWithin whole]
  constructor
  · rintro ⟨frame, isFrame, name, isChange⟩
    rcases changeAt_eq_some_iff.mp isChange with ⟨entry, isEntry, differs, rfl⟩
    rcases (areVisited frame isFrame).1.listing_joinPath oldWithin newWithin
      (Or.inr (isEntry ▸ Option.some_ne_none entry)) with ⟨-, oldIs, newIs⟩
    simp only [oldIs, newIs, isEntry, Option.map_some]
    exact ⟨trivial, unchanged_eq_false_iff.mp differs, fun oid => oldVersion_eq_some_iff⟩
  · rintro ⟨isNew, differs, isOld⟩
    rcases exists_frame oldWithin newWithin whole (isNew ▸ differs) with
      ⟨frame, isFrame, name, isPath, named⟩
    rcases (areVisited frame isFrame).1.listing_joinPath oldWithin newWithin named with
      ⟨-, oldIs, newIs⟩
    rw [isPath] at oldIs newIs
    rw [newIs, Option.map_eq_some_iff] at isNew
    rcases isNew with ⟨entry, isEntry, sameNew⟩
    rw [Prod.mk.injEq] at sameNew
    refine ⟨frame, isFrame, name, changeAt_eq_some_iff.mpr
      ⟨entry, isEntry, unchanged_eq_false_iff.mpr ?_, ?_⟩⟩
    · rw [← oldIs, sameNew.1, sameNew.2]
      exact differs
    · have sameOld : change.old = oldVersion entry (entryIn world frame.old name) := by
        ext oid
        rw [isOld, oldVersion_eq_some_iff, ← oldIs, sameNew.1]
      rw [isPath, sameNew.1, sameNew.2, ← sameOld]

theorem mem_removals_gathered (removal : Removal) :
    removal ∈ (gathered world withRemovals all).removals ↔
      listing world oldRoot removal.path = some (removal.kind, removal.old) ∧
        ∀ oid, listing world (some newRoot) removal.path ≠ some (removal.kind, oid) := by
  have areVisited := placed_of_visited oldWithin newWithin (fun _ _ => id) whole
  rw [foundRemovals.mem_gathered oldWithin newWithin whole]
  constructor
  · rintro ⟨frame, isFrame, name, isGone⟩
    rcases removalAt_eq_some_iff.mp isGone with ⟨gone, wasGone, noEntry, rfl⟩
    rcases (areVisited frame isFrame).1.listing_joinPath oldWithin newWithin
      (Or.inl (wasGone ▸ Option.some_ne_none gone)) with ⟨-, oldIs, newIs⟩
    simp only [oldIs, newIs, wasGone, Option.map_some]
    refine ⟨trivial, fun oid isNew => ?_⟩
    rcases Option.map_eq_some_iff.mp isNew with ⟨entry, isEntry, same⟩
    exact noEntry entry isEntry (kind_eq_iff.mp (Prod.mk.inj same).1)
  · rintro ⟨isOld, gone⟩
    have differs : listing world oldRoot removal.path ≠
        listing world (some newRoot) removal.path := fun same => gone _ (same.symm.trans isOld)
    rcases exists_frame oldWithin newWithin whole differs with
      ⟨frame, isFrame, name, isPath, named⟩
    rcases (areVisited frame isFrame).1.listing_joinPath oldWithin newWithin named with
      ⟨-, oldIs, newIs⟩
    rw [isPath] at oldIs newIs
    rw [oldIs, Option.map_eq_some_iff] at isOld
    rcases isOld with ⟨entry, isEntry, sameOld⟩
    rw [Prod.mk.injEq] at sameOld
    refine ⟨frame, isFrame, name, removalAt_eq_some_iff.mpr
      ⟨entry, isEntry, fun held isHeld sameType => ?_, ?_⟩⟩
    · refine gone held.oid ?_
      rw [newIs, Option.mem_def.mp isHeld, Option.map_some, kind_eq_iff.mpr sameType, sameOld.1]
    · rw [isPath, sameOld.1, sameOld.2]

theorem exactDiff_gathered :
    ExactDiff (listing world oldRoot) (listing world (some newRoot))
      (gathered world withRemovals all) :=
  ⟨foundChanges.nodup oldWithin newWithin whole, foundRemovals.nodup oldWithin newWithin whole,
    mem_changes_gathered oldWithin newWithin whole,
    mem_removals_gathered oldWithin newWithin whole⟩

end Found

end Complete

/-! ### Readers that lack trees -/

/-- A path under a directory at which the diff named one of the two trees as unreadable. -/
def Unread (world : TreeReader) (oldRoot : Option ObjectId) (newRoot : ObjectId) (diff : TreeDiff)
    (path : Bytes) : Prop :=
  ∃ way rest, components path = way ++ rest ∧ rest ≠ [] ∧ ∃ oid ∈ diff.unreadable,
    treeAt world oldRoot way = some oid ∨ treeAt world (some newRoot) way = some oid

section Partial

variable {world reader : TreeReader} {oldRoot : Option ObjectId} {newRoot : ObjectId}
  {depth fuel more : ℕ} {popped all : List DiffFrame} {β : Type} {path : β → Bytes}
  {found : TreeDiff → List β}
  {at_ : Bytes → (Bytes → Option TreeChild) → (Bytes → Option TreeChild) → Bytes → Option β}

theorem exists_visited_all (agrees : Agrees reader world)
    (oldWithin : SideWithin world depth oldRoot)
    (newWithin : SideWithin world depth (some newRoot)) :
    ∃ fuel popped, visited fuel reader oldRoot newRoot withRemovals = some popped := by
  simp only [visited]
  split_ifs
  · exact ⟨0, [], rfl⟩
  · have names : ∀ {height : ℕ} {frame pushed : DiffFrame}, SideWithin world height frame.old →
        SideWithin world height frame.new → pushed ∈ pushes reader withRemovals frame →
        ∃ name, pushed.old = treeOf (entryIn world frame.old name) ∧
          pushed.new = treeOf (entryIn world frame.new name) ∧ pushed.old ≠ pushed.new := by
      intro height frame pushed oldHere newHere isPushed
      rcases byName_diffFrame oldHere newHere with ⟨names, -, -, outcome⟩
      have byName := pushes_of_agrees agrees isPushed
      rw [pushes, outcome, mem_filterMap] at byName
      rcases byName with ⟨name, -, isFrame⟩
      rw [frameAt] at isFrame
      split_ifs at isFrame with same
      rw [← Option.some.inj isFrame]
      exact ⟨name, rfl, rfl, same⟩
    refine exists_popAll (fun height frame => SideWithin world height frame.old ∧
      SideWithin world height frame.new) ?_ ?_ depth
      (forall_mem_singleton.mpr ⟨oldWithin, newWithin⟩)
    · rintro frame ⟨oldHere, newHere⟩
      refine eq_nil_iff_forall_not_mem.mpr fun pushed isPushed => ?_
      rcases names oldHere newHere isPushed with ⟨name, isOld, isNew, differs⟩
      rw [isOld, isNew, oldHere.none_of_zero, newHere.none_of_zero] at differs
      exact differs rfl
    · rintro height frame ⟨oldHere, newHere⟩ pushed isPushed
      rcases names oldHere newHere isPushed with ⟨name, isOld, isNew, -⟩
      rw [isOld, isNew]
      exact ⟨oldHere.child name, newHere.child name⟩

variable (agrees : Agrees reader world)
  (visits : visited fuel reader oldRoot newRoot withRemovals = some popped)
  (whole : visited more world oldRoot newRoot withRemovals = some all)

include agrees visits whole

theorem gathered_eq_of_complete
    (complete : (gathered reader withRemovals popped).unreadable = []) :
    gathered reader withRemovals popped = gathered world withRemovals all := by
  have same : ∀ frame ∈ popped,
      diffFrame world withRemovals frame = diffFrame reader withRemovals frame := by
    intro frame isFrame
    rcases diffFrame_cases agrees withRemovals frame with ⟨same, -⟩ | ⟨-, missing⟩
    · exact same.symm
    · rcases exists_mem_of_ne_nil _ missing with ⟨oid, unread⟩
      rcases mem_unreadable_diffFrame.mp unread with ⟨lacks, isSide⟩
      have named : oid ∈ (gathered reader withRemovals popped).unreadable :=
        mem_unreadable_gathered.mpr ⟨lacks, frame, isFrame, isSide⟩
      rw [complete] at named
      cases named
  have sameWalk : visited fuel world oldRoot newRoot withRemovals = some popped := by
    rw [visited] at visits ⊢
    split_ifs at visits ⊢
    · exact visits
    · exact popAll_congr visits fun frame isFrame => congrArg FrameDiff.pushed (same frame isFrame)
  have isAll : all = popped := Option.some.inj
    ((visited_of_le whole (Nat.le_max_right fuel more)).symm.trans
      (visited_of_le sameWalk (Nat.le_max_left fuel more)))
  rw [isAll, gathered, gathered, gather, gather]
  simp only [flatMap_congr fun frame isFrame =>
    congrArg (fun compared => compared.found.changes) (same frame isFrame),
    flatMap_congr fun frame isFrame =>
      congrArg (fun compared => compared.found.removals) (same frame isFrame),
    flatMap_congr fun frame isFrame =>
      congrArg (fun compared => compared.found.unreadable) (same frame isFrame)]

theorem FoundAt.sublist (foundAt : FoundAt path found at_) :
    (found (gathered reader withRemovals popped)).Sublist
      (found (gathered world withRemovals all)) := by
  rw [foundAt.gathers, foundAt.gathers]
  refine List.Sublist.trans (List.Sublist.flatMap_right _ fun frame _ => ?_)
    ((visited_sublist agrees visits whole).flatMap _)
  rcases diffFrame_cases agrees withRemovals frame with ⟨same, -⟩ | ⟨nothing, -⟩
  · rw [same]
  · rw [nothing, foundAt.nothing]
    exact nil_sublist _

/-- What a diff that lacks trees leaves out is what stands under a directory it lacks. -/
theorem FoundAt.mem_partial (foundAt : FoundAt path found at_)
    (oldWithin : SideWithin world depth oldRoot)
    (newWithin : SideWithin world depth (some newRoot)) {item : β} :
    item ∈ found (gathered reader withRemovals popped) ↔
      item ∈ found (gathered world withRemovals all) ∧
        ¬Unread world oldRoot newRoot (gathered reader withRemovals popped) (path item) := by
  have arePopped := placed_of_visited oldWithin newWithin agrees visits
  constructor
  · intro isFound
    refine ⟨(foundAt.sublist agrees visits whole).subset isFound, ?_⟩
    rintro ⟨way, rest, isPath, some_, oid, named, isSide⟩
    rcases mem_unreadable_gathered.mp named with ⟨missing, -⟩
    rw [foundAt.gathers, mem_flatMap] at isFound
    rcases isFound with ⟨frame, isFrame, isFound⟩
    rcases diffFrame_cases agrees withRemovals frame with ⟨same, isRead⟩ | ⟨nothing, -⟩
    · rw [same] at isFound
      have inAll := (visited_sublist agrees visits whole).subset isFrame
      rcases (foundAt.ofVisited oldWithin newWithin whole inAll).2.2.2 item isFound with
        ⟨name, address⟩
      have leads : way <+: components frame.lead := by
        have onWay : way <+: components frame.lead ++ [name] := ⟨rest, isPath.symm.trans address⟩
        refine (prefix_concat_iff.mp onWay).resolve_left fun here => some_ ?_
        rw [address, ← here] at isPath
        exact append_right_eq_self.mp isPath.symm
      by_cases here : way = components frame.lead
      · have placed := (arePopped frame isFrame).1
        rw [here, ← placed.old, ← placed.new] at isSide
        have unread : oid ∈ (diffFrame reader withRemovals frame).found.unreadable :=
          mem_unreadable_diffFrame.mpr ⟨missing, isSide⟩
        exact not_mem_nil (isRead ▸ unread)
      · exact (arePopped frame isFrame).2 way leads here oid isSide missing
    · rw [nothing, foundAt.nothing] at isFound
      cases isFound
  · rintro ⟨isFound, isRead⟩
    rw [foundAt.gathers, mem_flatMap] at isFound ⊢
    rcases isFound with ⟨frame, inAll, isFound⟩
    rcases foundAt.ofVisited oldWithin newWithin whole inAll with ⟨placed, -, -, isUnder⟩
    rcases isUnder item isFound with ⟨name, address⟩
    have isRead : ∀ way, way <+: components frame.lead →
        ∀ oid ∈ (gathered reader withRemovals popped).unreadable,
          ¬(treeAt world oldRoot way = some oid ∨ treeAt world (some newRoot) way = some oid) := by
      rintro way ⟨rest, isWay⟩ oid named isSide
      refine isRead ⟨way, rest ++ [name], ?_, by simp, oid, named, isSide⟩
      rw [address, ← isWay, append_assoc]
    rcases exists_visited oldWithin newWithin agrees visits placed.differs
      (fun way leads _ => isRead way leads) with ⟨other, isFrame, sameLead⟩
    -- both stand at the same directory
    have same : other = frame := by
      have otherPlaced := (arePopped other isFrame).1
      rcases other with ⟨lead, old, new⟩
      rcases frame with ⟨frameLead, frameOld, frameNew⟩
      obtain rfl : lead = frameLead := components_injective sameLead
      rw [DiffFrame.mk.injEq]
      exact ⟨rfl, otherPlaced.old.trans placed.old.symm, otherPlaced.new.trans placed.new.symm⟩
    subst same
    refine ⟨other, isFrame, ?_⟩
    rcases diffFrame_cases agrees withRemovals other with ⟨same, -⟩ | ⟨-, missing⟩
    · rwa [same]
    · rcases exists_mem_of_ne_nil _ missing with ⟨oid, unread⟩
      rcases mem_unreadable_diffFrame.mp unread with ⟨lacks, isSide⟩
      refine absurd ?_ (isRead _ prefix_rfl oid
        (mem_unreadable_gathered.mpr ⟨lacks, other, isFrame, isSide⟩))
      rwa [← placed.old, ← placed.new]

end Partial

end Enroute
