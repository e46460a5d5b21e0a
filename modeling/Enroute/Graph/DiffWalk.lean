import Enroute.Graph.Diff

/-!
# One comparison of two trees

A diff gathers what the frames it pops off its stack add. What one frame adds is told name by name
when the names within a tree are distinct: what stood under a name and what stands there now decide
whether there is a change, a removal and a frame to go down into.
-/

namespace Enroute.Diff

open List Unstack

variable {read : TreeReader} {options : DiffOptions}

def pushes (read : TreeReader) (options : DiffOptions) (frame : DiffFrame) : List DiffFrame :=
  (diffFrame read options frame).pushed

def gather (read : TreeReader) (options : DiffOptions) (out : TreeDiff) (frames : List DiffFrame) :
    TreeDiff :=
  ⟨out.changes ++ frames.flatMap fun frame => (diffFrame read options frame).found.changes,
    out.removals ++ frames.flatMap fun frame => (diffFrame read options frame).found.removals,
    out.unreadable ++ frames.flatMap fun frame => (diffFrame read options frame).found.unreadable⟩

theorem diffLoop_eq (fuel : ℕ) (stack : List DiffFrame) (out : TreeDiff) :
    diffLoop read options fuel stack out =
      (popAll (pushes read options) fuel stack).map (gather read options out) := by
  induction fuel generalizing stack out with
  | zero => cases stack <;> simp [diffLoop, popAll, gather]
  | succ fuel ih =>
    cases stack with
    | nil => simp [diffLoop, popAll, gather]
    | cons frame stack =>
      rw [diffLoop, popAll_cons, Option.map_map, ih]
      congr 1
      funext frames
      simp [gather, append]

/-- The frames a diff pops, in order. The reader is asked for both sides of each of them, and for
nothing else. -/
def visited (fuel : ℕ) (read : TreeReader) (oldRoot : Option ObjectId) (newRoot : ObjectId)
    (options : DiffOptions) : Option (List DiffFrame) :=
  if oldRoot = some newRoot then some []
  else popAll (pushes read options) fuel [⟨[], oldRoot, some newRoot⟩]

def gathered (read : TreeReader) (options : DiffOptions) (frames : List DiffFrame) : TreeDiff :=
  { gather read options ∅ frames with
    unreadable := Stream.keepFirst id [] (gather read options ∅ frames).unreadable }

theorem diffTreesWith_eq (fuel : ℕ) (oldRoot : Option ObjectId) (newRoot : ObjectId) :
    diffTreesWith fuel read oldRoot newRoot options =
      (visited fuel read oldRoot newRoot options).map (gathered read options) := by
  rw [diffTreesWith, visited]
  split_ifs
  · rfl
  · rw [diffLoop_eq, Option.map_map]
    rfl

/-! ### Name by name -/

def entryNamed (entries : List TreeChild) (name : Bytes) : Option TreeChild :=
  (entries.filter fun entry => !entry.isCommit).find? fun entry => entry.name = name

def treeOf (entry : Option TreeChild) : Option ObjectId :=
  (entry.filter TreeChild.isTree).map TreeChild.oid

def changeAt (lead : Bytes) (was is : Bytes → Option TreeChild) (name : Bytes) : Option Change :=
  (is name).bind fun entry =>
    if unchanged entry (was name) then none
    else some ⟨joinPath lead name, entry.kind, oldVersion entry (was name), entry.oid⟩

def removalAt (lead : Bytes) (was is : Bytes → Option TreeChild) (name : Bytes) : Option Removal :=
  (was name).bind fun gone =>
    if (is name).any fun entry => entry.isTree == gone.isTree then none
    else some ⟨joinPath lead name, gone.kind, gone.oid⟩

def frameAt (lead : Bytes) (was is : Bytes → Option TreeChild) (name : Bytes) : Option DiffFrame :=
  if treeOf (was name) = treeOf (is name) then none
  else some ⟨joinPath lead name, treeOf (was name), treeOf (is name)⟩

/-- Everything a comparison adds, as names in the order they are looked at. -/
structure ByName (lead : Bytes) (was is : Bytes → Option TreeChild) (names : List Bytes)
    (compared : Comparing) : Prop where
  changes : compared.changes = names.filterMap (changeAt lead was is)
  removals : compared.removals = names.filterMap (removalAt lead was is)
  pushed : compared.pushed = names.reverse.filterMap (frameAt lead was is)

section Names

variable {entries : List TreeChild} {entry : TreeChild} {name : Bytes}

theorem name_of_entryNamed (named : entryNamed entries name = some entry) :
    entry ∈ entries ∧ entry.isCommit = false ∧ entry.name = name := by
  have listed := mem_of_find?_eq_some named
  have isNamed := List.find?_some named
  simp only [mem_filter, Bool.not_eq_true', decide_eq_true_eq] at listed isNamed
  exact ⟨listed.1, listed.2, isNamed⟩

theorem find?_of_mem {listed : List TreeChild} (distinct : (listed.map TreeChild.name).Nodup)
    (isListed : entry ∈ listed) :
    (listed.find? fun other => other.name = entry.name) = some entry := by
  induction listed with
  | nil => cases isListed
  | cons first rest ih =>
    rw [map_cons, nodup_cons] at distinct
    rcases mem_cons.mp isListed with rfl | later
    · simp
    · have different : ¬first.name = entry.name := fun same =>
        distinct.1 (same ▸ mem_map_of_mem later)
      rw [List.find?_cons_of_neg (by simpa using different)]
      exact ih distinct.2 later

theorem lookup_foldl_insert {listed : List TreeChild}
    (distinct : (listed.map TreeChild.name).Nodup) (previous : Previous) (name : Bytes) :
    (listed.foldl (fun previous entry => previous.insert entry.name entry) previous).lookup name =
      (listed.find? fun entry => entry.name = name).or (previous.lookup name) := by
  induction listed generalizing previous with
  | nil => simp
  | cons first rest ih =>
    rw [map_cons, nodup_cons] at distinct
    rw [foldl_cons, ih distinct.2]
    by_cases same : first.name = name
    · have gone : (rest.find? fun entry => entry.name = name) = none := by
        rw [List.find?_eq_none]
        intro other listed isNamed
        rw [decide_eq_true_eq] at isNamed
        exact distinct.1 (same ▸ isNamed ▸ mem_map_of_mem listed)
      rw [gone, List.find?_cons_of_pos (by simpa using same), ← same, AList.lookup_insert]
      rfl
    · rw [List.find?_cons_of_neg (by simpa using same),
        AList.lookup_insert_ne (Ne.symm same)]

theorem nodup_filter (distinct : (entries.map TreeChild.name).Nodup) :
    ((entries.filter fun entry => !entry.isCommit).map TreeChild.name).Nodup :=
  distinct.sublist (filter_sublist.map _)

theorem lookup_previousOf (distinct : (entries.map TreeChild.name).Nodup) (name : Bytes) :
    (previousOf entries).lookup name = entryNamed entries name := by
  rw [previousOf, lookup_foldl_insert (nodup_filter distinct), AList.lookup_empty, Option.or_none]
  rfl

end Names

section Comparison

variable {lead : Bytes} {was is : Bytes → Option TreeChild}

theorem compareEntry_eq (wanted : options.removals = true) (state : Comparing) (entry : TreeChild)
    (isWas : state.previous.lookup entry.name = was entry.name)
    (isEntry : is entry.name = some entry) :
    compareEntry options lead state entry =
      { previous := state.previous.erase entry.name
        changes := state.changes ++ (changeAt lead was is entry.name).toList
        removals := state.removals ++ (removalAt lead was is entry.name).toList
        pushed := (frameAt lead was is entry.name).toList ++ state.pushed } := by
  simp only [compareEntry, isWas, changeAt, removalAt, frameAt, isEntry, Option.bind_some]
  cases was entry.name with
  | none =>
    by_cases isTree : entry.isTree = true <;>
      simp [unchanged, changed, removedType, oldVersion, treeOf, isTree, wanted]
  | some old =>
    by_cases sameType : old.isTree = entry.isTree
    · by_cases sameOid : old.oid = entry.oid
      · simp [unchanged, sameType, sameOid, treeOf, Option.filter_some]
      · by_cases isTree : entry.isTree = true <;>
          simp_all [unchanged, changed, removedType, oldVersion, treeOf, Option.filter_some]
    · by_cases isTree : entry.isTree = true <;> by_cases wasTree : old.isTree = true <;>
        simp_all [unchanged, changed, removed, removedType, oldVersion, treeOf,
          Option.filter_some]

theorem foldl_compareEntry (wanted : options.removals = true) {listed : List TreeChild}
    (distinct : (listed.map TreeChild.name).Nodup) (state : Comparing)
    (isWas : ∀ entry ∈ listed, state.previous.lookup entry.name = was entry.name)
    (isEntry : ∀ entry ∈ listed, is entry.name = some entry) :
    ((listed.foldl (compareEntry options lead) state).changes = state.changes ++
        (listed.map TreeChild.name).filterMap (changeAt lead was is) ∧
      (listed.foldl (compareEntry options lead) state).removals = state.removals ++
        (listed.map TreeChild.name).filterMap (removalAt lead was is) ∧
      (listed.foldl (compareEntry options lead) state).pushed =
        (listed.map TreeChild.name).reverse.filterMap (frameAt lead was is) ++ state.pushed) ∧
      ∀ name, (listed.foldl (compareEntry options lead) state).previous.lookup name =
        if name ∈ listed.map TreeChild.name then none else state.previous.lookup name := by
  induction listed generalizing state with
  | nil => simp
  | cons entry listed ih =>
    rw [map_cons, nodup_cons] at distinct
    rcases forall_mem_cons.mp isWas with ⟨wasHere, wasLater⟩
    rcases forall_mem_cons.mp isEntry with ⟨entryHere, entryLater⟩
    rw [foldl_cons, compareEntry_eq wanted state entry wasHere entryHere]
    have unclaimed : ∀ other ∈ listed,
        (state.previous.erase entry.name).lookup other.name = was other.name := by
      intro other isOther
      have different : other.name ≠ entry.name := fun same =>
        distinct.1 (same ▸ mem_map_of_mem isOther)
      rw [AList.lookup_erase_ne different, wasLater other isOther]
    rcases ih distinct.2 ⟨state.previous.erase entry.name, _, _, _⟩ unclaimed entryLater with
      ⟨⟨changes, removals, pushed⟩, previous⟩
    refine ⟨⟨?_, ?_, ?_⟩, fun name => ?_⟩
    · rw [changes, map_cons, filterMap_cons]
      cases changeAt lead was is entry.name <;> simp
    · rw [removals, map_cons, filterMap_cons]
      cases removalAt lead was is entry.name <;> simp
    · rw [pushed, map_cons, reverse_cons, filterMap_append]
      cases isFrame : frameAt lead was is entry.name <;> simp [isFrame]
    · rw [previous, map_cons]
      by_cases same : name = entry.name
      · rw [same, AList.lookup_erase, ite_self, if_pos mem_cons_self]
      · simp [same, AList.lookup_erase_ne same]

theorem foldl_removed {gone : List TreeChild}
    (isWas : ∀ entry ∈ gone, was entry.name = some entry)
    (noEntry : ∀ entry ∈ gone, is entry.name = none) (state : Comparing) :
    (gone.foldl (fun state entry => removed state (joinPath lead entry.name) entry) state).changes =
        state.changes ∧
      (gone.foldl (fun state entry => removed state (joinPath lead entry.name) entry)
        state).removals = state.removals ++
          (gone.map TreeChild.name).filterMap (removalAt lead was is) ∧
      (gone.foldl (fun state entry => removed state (joinPath lead entry.name) entry)
        state).pushed = (gone.map TreeChild.name).reverse.filterMap (frameAt lead was is) ++
          state.pushed := by
  induction gone generalizing state with
  | nil => simp
  | cons entry gone ih =>
    rcases forall_mem_cons.mp isWas with ⟨wasHere, wasLater⟩
    rcases forall_mem_cons.mp noEntry with ⟨noneHere, noneLater⟩
    rcases ih wasLater noneLater (removed state (joinPath lead entry.name) entry) with
      ⟨changes, removals, pushed⟩
    rw [foldl_cons, changes, removals, pushed]
    refine ⟨rfl, ?_, ?_⟩
    · simp [removed, removalAt, wasHere, noneHere]
    · by_cases isTree : entry.isTree = true <;>
        simp [removed, frameAt, treeOf, wasHere, noneHere, isTree, Option.filter_some]

theorem byName_compareTrees (wanted : options.removals = true) {oldEntries newEntries : List TreeChild}
    (oldDistinct : (oldEntries.map TreeChild.name).Nodup)
    (newDistinct : (newEntries.map TreeChild.name).Nodup) :
    ∃ names : List Bytes, names.Nodup ∧
      (∀ name, name ∈ names ↔
        entryNamed oldEntries name ≠ none ∨ entryNamed newEntries name ≠ none) ∧
      ByName lead (entryNamed oldEntries) (entryNamed newEntries) names
        (compareTrees options lead oldEntries newEntries) := by
  have listed : ∀ {name}, entryNamed newEntries name ≠ none ↔
      name ∈ (newEntries.filter fun entry => !entry.isCommit).map TreeChild.name := by
    intro name
    simp [entryNamed, List.find?_eq_none, and_assoc]
  rcases @foldl_compareEntry options lead (entryNamed oldEntries) (entryNamed newEntries) wanted
    (newEntries.filter fun entry => !entry.isCommit) (nodup_filter newDistinct)
    ⟨previousOf oldEntries, [], [], []⟩ (fun entry _ => lookup_previousOf oldDistinct entry.name)
    (fun entry isEntry => find?_of_mem (nodup_filter newDistinct) isEntry) with
    ⟨⟨changes, removals, pushed⟩, previous⟩
  change (compareEntries options lead oldEntries newEntries).changes = _ at changes
  change (compareEntries options lead oldEntries newEntries).removals = _ at removals
  change (compareEntries options lead oldEntries newEntries).pushed = _ at pushed
  change ∀ name, (compareEntries options lead oldEntries newEntries).previous.lookup name = _
    at previous
  simp only [compareTrees, wanted, if_true]
  generalize compareEntries options lead oldEntries newEntries = compared at *
  simp only [lookup_previousOf oldDistinct] at previous
  -- What no new entry claimed stands under its own name.
  have unclaimed : ∀ held ∈ compared.previous.entries, held.1 = held.2.name ∧
      entryNamed oldEntries held.2.name = some held.2 ∧ entryNamed newEntries held.2.name = none := by
    rintro ⟨name, entry⟩ isHeld
    have found := previous name
    rw [AList.mem_lookup_iff.mpr isHeld] at found
    split_ifs at found with claimed
    have isNamed := (name_of_entryNamed found.symm).2.2
    simp only [isNamed, true_and]
    exact ⟨found.symm, by_contra fun some_ => claimed (listed.mp some_)⟩
  generalize isGone : (compared.previous.entries.map Sigma.snd).insertionSort
    (fun first second => first.name ≤ second.name) = gone
  have perm : gone.Perm (compared.previous.entries.map Sigma.snd) :=
    isGone ▸ perm_insertionSort _ _
  have goneIs : ∀ entry ∈ gone, entryNamed oldEntries entry.name = some entry ∧
      entryNamed newEntries entry.name = none := by
    intro entry isEntry
    rcases mem_map.mp (perm.mem_iff.mp isEntry) with ⟨held, isHeld, rfl⟩
    exact (unclaimed held isHeld).2
  have goneNames : (gone.map TreeChild.name).Perm (compared.previous.entries.map Sigma.fst) := by
    refine (perm.map _).trans (.of_eq ?_)
    rw [map_map]
    exact map_congr_left fun held isHeld => (unclaimed held isHeld).1.symm
  rcases @foldl_removed lead (entryNamed oldEntries) (entryNamed newEntries) gone
    (fun entry isEntry => (goneIs entry isEntry).1) (fun entry isEntry => (goneIs entry isEntry).2)
    compared with ⟨noChanges, moreRemovals, morePushed⟩
  have noChange : (gone.map TreeChild.name).filterMap
      (changeAt lead (entryNamed oldEntries) (entryNamed newEntries)) = [] := by
    rw [filterMap_eq_nil_iff]
    intro name isName
    rcases mem_map.mp isName with ⟨entry, isEntry, rfl⟩
    rw [changeAt, (goneIs entry isEntry).2]
    rfl
  refine ⟨(newEntries.filter fun entry => !entry.isCommit).map TreeChild.name ++
    gone.map TreeChild.name, ?_, fun name => ?_, ?_, ?_, ?_⟩
  · refine List.Nodup.append (nodup_filter newDistinct)
      (goneNames.nodup_iff.mpr compared.previous.nodupKeys) ?_
    intro name isNew isGone
    rcases mem_map.mp isGone with ⟨entry, isEntry, rfl⟩
    exact listed.mpr isNew (goneIs entry isEntry).2
  · rw [mem_append, ← listed]
    constructor
    · rintro (isNew | isGone)
      · exact Or.inr isNew
      · rcases mem_map.mp isGone with ⟨entry, isEntry, rfl⟩
        exact Or.inl (by rw [(goneIs entry isEntry).1]; exact Option.some_ne_none _)
    · rintro (isOld | isNew)
      · by_cases isNew : entryNamed newEntries name = none
        · refine Or.inr (goneNames.mem_iff.mpr ?_)
          have found := previous name
          rw [if_neg (fun claimed => listed.mpr claimed isNew)] at found
          rcases Option.ne_none_iff_exists'.mp isOld with ⟨entry, isEntry⟩
          exact mem_map.mpr ⟨⟨name, entry⟩, AList.mem_lookup_iff.mp (found.trans isEntry), rfl⟩
        · exact Or.inl isNew
      · exact Or.inl isNew
  · rw [noChanges, changes, filterMap_append, noChange, append_nil, nil_append]
  · rw [moreRemovals, removals, filterMap_append, nil_append]
  · rw [morePushed, pushed, reverse_append, filterMap_append, append_nil]

end Comparison

end Enroute.Diff
