import Enroute.Core.Object
import Enroute.Lib.Stream
import Enroute.Lib.Unstack

/-!
# Diffs of trees

A diff pairs the entries of two trees by name and goes down into every subtree that is not the same
on both sides. It walks off a stack of its own, and a tree the reader does not have is named instead
of failing the walk: whoever asked fetches what is missing and runs the diff again.
-/

namespace Enroute

abbrev TreeReader := ObjectId → Option (List TreeChild)

def TreeChild.kind (entry : TreeChild) : Kind :=
  if entry.isTree then .tree else .blob

structure Change where
  path : Bytes
  kind : Kind
  old : Option ObjectId
  new : ObjectId
  deriving DecidableEq, Repr

structure Removal where
  path : Bytes
  kind : Kind
  old : ObjectId
  deriving DecidableEq, Repr

structure TreeDiff where
  changes : List Change
  removals : List Removal
  unreadable : List ObjectId
  deriving DecidableEq, Repr

instance : EmptyCollection TreeDiff := ⟨⟨[], [], []⟩⟩

def TreeDiff.isComplete (diff : TreeDiff) : Bool :=
  diff.unreadable.isEmpty

structure DiffOptions where
  removals : Bool
  deriving DecidableEq, Repr

structure DiffFrame where
  lead : Bytes
  old : Option ObjectId
  new : Option ObjectId
  deriving DecidableEq, Repr

namespace Diff

def joinPath (lead name : Bytes) : Bytes :=
  if lead.isEmpty then name else lead ++ 47 :: name

def readSide (read : TreeReader) : Option ObjectId → Option (List TreeChild)
  | none => some []
  | some oid => read oid

def missingSide (read : TreeReader) (side : Option ObjectId) : List ObjectId :=
  if (readSide read side).isNone then side.toList else []

abbrev Previous := AList fun _ : Bytes => TreeChild

/-- The entries of a tree by name, gitlinks left out. The last of two entries with one name stays. -/
def previousOf (entries : List TreeChild) : Previous :=
  (entries.filter fun entry => !entry.isCommit).foldl
    (fun previous entry => previous.insert entry.name entry) ∅

/-- The comparison of two trees under way. The frames pushed stand with the last one first. -/
structure Comparing where
  previous : Previous
  changes : List Change
  removals : List Removal
  pushed : List DiffFrame

/-- Note a removed path, and queue a removed tree so that the paths under it are named too. -/
def removed (state : Comparing) (path : Bytes) (entry : TreeChild) : Comparing :=
  { state with
    pushed := if entry.isTree then ⟨path, some entry.oid, none⟩ :: state.pushed else state.pushed
    removals := state.removals ++ [⟨path, entry.kind, entry.oid⟩] }

def removedType (options : DiffOptions) (state : Comparing) (path : Bytes) (entry : TreeChild)
    (was : Option TreeChild) : Comparing :=
  match options.removals, was.filter fun old => old.isTree != entry.isTree with
  | true, some gone => removed state path gone
  | _, _ => state

def changed (state : Comparing) (path : Bytes) (entry : TreeChild) (old : Option ObjectId) :
    Comparing :=
  { state with
    pushed := if entry.isTree then ⟨path, old, some entry.oid⟩ :: state.pushed else state.pushed
    changes := state.changes ++ [⟨path, entry.kind, old, entry.oid⟩] }

def oldVersion (entry : TreeChild) (was : Option TreeChild) : Option ObjectId :=
  (was.filter fun old => old.isTree == entry.isTree).map TreeChild.oid

def unchanged (entry : TreeChild) (was : Option TreeChild) : Bool :=
  was.any fun old => old.oid == entry.oid && old.isTree == entry.isTree

def compareEntry (options : DiffOptions) (lead : Bytes) (state : Comparing) (entry : TreeChild) :
    Comparing :=
  let was := state.previous.lookup entry.name
  let state := { state with previous := state.previous.erase entry.name }
  if unchanged entry was then state
  else
    let path := joinPath lead entry.name
    changed (removedType options state path entry was) path entry (oldVersion entry was)

def compareEntries (options : DiffOptions) (lead : Bytes) (oldEntries newEntries : List TreeChild) :
    Comparing :=
  (newEntries.filter fun entry => !entry.isCommit).foldl (compareEntry options lead)
    ⟨previousOf oldEntries, [], [], []⟩

/-- Compare the entries of two trees. Removed entries are those no new one claimed by name. -/
def compareTrees (options : DiffOptions) (lead : Bytes) (oldEntries newEntries : List TreeChild) :
    Comparing :=
  let compared := compareEntries options lead oldEntries newEntries
  if options.removals then
    let gone := (compared.previous.entries.map Sigma.snd).insertionSort
      fun first second => first.name ≤ second.name
    gone.foldl (fun state entry => removed state (joinPath lead entry.name) entry) compared
  else compared

structure FrameDiff where
  found : TreeDiff
  pushed : List DiffFrame

def diffFrame (read : TreeReader) (options : DiffOptions) (frame : DiffFrame) : FrameDiff :=
  match readSide read frame.old, readSide read frame.new with
  | some oldEntries, some newEntries =>
    let compared := compareTrees options frame.lead oldEntries newEntries
    ⟨⟨compared.changes, compared.removals, []⟩, compared.pushed⟩
  | _, _ => ⟨⟨[], [], missingSide read frame.old ++ missingSide read frame.new⟩, []⟩

def append (first second : TreeDiff) : TreeDiff :=
  ⟨first.changes ++ second.changes, first.removals ++ second.removals,
    first.unreadable ++ second.unreadable⟩

def diffLoop (read : TreeReader) (options : DiffOptions) :
    ℕ → List DiffFrame → TreeDiff → Option TreeDiff
  | _, [], out => some out
  | 0, _ :: _, _ => none
  | fuel + 1, frame :: stack, out =>
    let compared := diffFrame read options frame
    diffLoop read options fuel (compared.pushed ++ stack) (append out compared.found)

end Diff

open Diff

/-- The diff of a tree against an older one, or against nothing. Each tree that could not be read is
named once. -/
def diffTreesWith (fuel : ℕ) (read : TreeReader) (oldRoot : Option ObjectId) (newRoot : ObjectId)
    (options : DiffOptions) : Option TreeDiff :=
  if oldRoot = some newRoot then some ∅
  else (diffLoop read options fuel [⟨[], oldRoot, some newRoot⟩] ∅).map fun out =>
    { out with unreadable := Stream.keepFirst id [] out.unreadable }

def diffTrees (fuel : ℕ) (read : TreeReader) (oldRoot : Option ObjectId) (newRoot : ObjectId) :
    Option TreeDiff :=
  diffTreesWith fuel read oldRoot newRoot ⟨false⟩

end Enroute
