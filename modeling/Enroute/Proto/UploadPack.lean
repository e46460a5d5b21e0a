import Enroute.Retrieve.Fetch
import Enroute.Retrieve.Meta
import Enroute.Lib.Stream

/-!
# Answering a fetch

`planFetch` resolves the wants, walks what they need and counts everything before a byte is
sent; `Streams` sends it. The sources of a stream deliver concurrently, so what it writes
depends on an order of arrival: every order in which the next entry of some source arrives is
a possible one. Whatever arrives under an oid already written is dropped.
-/

namespace Enroute

inductive PackFilter where
  | blobNone
  deriving DecidableEq, Repr

def PackFilter.keep : PackFilter → Kind → Bool
  | .blobNone, kind => kind ≠ .blob

structure FetchArgs where
  wants : List ObjectId
  haves : List ObjectId
  filter : Option PackFilter
  shallow : List ObjectId
  deepen : Option ℕ

namespace FetchArgs

def keeps (args : FetchArgs) (kind : Kind) : Bool :=
  args.filter.all fun filter => filter.keep kind

end FetchArgs

structure LooseWant where
  oid : ObjectId
  found : ObjectMeta

structure ResolvedWants where
  commitWants : List ObjectId
  tagObjects : List ObjectId
  looseWants : List LooseWant

/-- Take the pending oids that were not resolved before, each once, and mark them. -/
def drainPending : List ObjectId → List ObjectId → List ObjectId × List ObjectId
  | resolved, [] => ([], resolved)
  | resolved, oid :: pending =>
    if oid ∈ resolved then drainPending resolved pending
    else
      let (oids, resolved) := drainPending (oid :: resolved) pending
      (oid :: oids, resolved)

namespace Storage

def classifyWant (storage : Storage) (oid : ObjectId) (found : ObjectMeta)
    (wants : ResolvedWants) : Except String (ResolvedWants × Option ObjectId) :=
  match found.kind with
  | .tag =>
    match storage.tags.lookup oid with
    | none => .error ("tag " ++ toString oid ++ " missing from store")
    | some (.error message) => .error message
    | some (.ok (.tag target)) =>
      .ok ({ wants with tagObjects := wants.tagObjects ++ [oid] }, some target)
    | some (.ok _) => .error ("tag " ++ toString oid ++ " does not decode as a tag")
  | .commit => .ok ({ wants with commitWants := wants.commitWants ++ [oid] }, none)
  | .blob => .ok ({ wants with looseWants := wants.looseWants ++ [⟨oid, found⟩] }, none)
  | .tree => .error ("want " ++ toString oid ++ ": direct tree wants are not supported")

def resolveOne (storage : Storage) (state : ResolvedWants × List ObjectId) (oid : ObjectId) :
    Except String (ResolvedWants × List ObjectId) :=
  match (storage.metas oid).filter ObjectMeta.isStored with
  | none => .error ("no object " ++ toString oid)
  | some found => do
      let (wants, target) ← storage.classifyWant oid found state.1
      return (wants, state.2 ++ target.toList)

def resolveRounds (storage : Storage) :
    ℕ → List ObjectId → List ObjectId → ResolvedWants → Except String ResolvedWants
  | 0, _, _, wants => .ok wants
  | rounds + 1, resolved, pending, wants =>
    if pending.isEmpty then .ok wants
    else do
      let (oids, resolved) := drainPending resolved pending
      let (wants, pending) ← oids.foldlM storage.resolveOne (wants, [])
      storage.resolveRounds rounds resolved pending wants

def resolveWants (storage : Storage) (wants : List ObjectId) : Except String ResolvedWants :=
  storage.resolveRounds (storage.tags.keys.length + 2) [] wants ⟨[], [], []⟩

end Storage

def mayPassDeltas (args : FetchArgs) : Bool :=
  args.haves.isEmpty && args.shallow.isEmpty && args.deepen.isNone

structure PackBatch where
  needed : List NeededCommit
  filter : Option PackFilter
  tagObjects : List ObjectId
  looseWants : List LooseWant
  totalCount : ℕ
  shallowInfo : Option (List ObjectId × List ObjectId)
  passDeltas : Bool

namespace Storage

def directWants (walked : ShallowNeeded) (looseWants : List LooseWant) : List LooseWant :=
  Stream.keepFirst LooseWant.oid []
    (looseWants.filter fun want => want.found.objectSeq.all fun seq => !walked.contains seq)

def keptBackfill (args : FetchArgs) (walked : ShallowNeeded) : List LooseWant :=
  (walked.backfill.filter fun entry => args.keeps entry.2.kind).map fun entry =>
    ⟨entry.1, entry.2⟩

def planFetch (storage : Storage) (args : FetchArgs) : Except String PackBatch := do
  let wants ← storage.resolveWants args.wants
  let walked ← storage.graph.needed storage.objects wants.commitWants args.haves args.shallow
    args.deepen
  let looseWants := directWants walked wants.looseWants ++ keptBackfill args walked
  let total := walked.needed.objectCount (args.keeps .tree) (args.keeps .blob) +
    (wants.tagObjects.length + looseWants.length)
  if 2 ^ 32 ≤ total then .error "pack too large: out of range integral type conversion attempted"
  else .ok {
    needed := walked.needed.commits
    filter := args.filter
    tagObjects := wants.tagObjects
    looseWants
    totalCount := total
    shallowInfo := if args.deepen.isSome || !args.shallow.isEmpty then
        some (walked.shallow, walked.unshallow)
      else none
    passDeltas := mayPassDeltas args }

end Storage

/-! ## Streaming -/

/-- How far into a commit's image a filtered read goes, and how many entries it reads. -/
def readPlan (commit : NeededCommit) : Option PackFilter → ℕ × ℕ
  | some .blobNone => (commit.blobOffset, commit.packTreeCount)
  | none => (commit.segment.imageLen, commit.packObjectCount)

def NeededCommit.SitsBefore (earlier later : NeededCommit) : Prop :=
  Location.lexLe [earlier.segment.id, earlier.segment.baseOffset]
    [later.segment.id, later.segment.baseOffset] = true

instance : DecidableRel NeededCommit.SitsBefore :=
  fun _ _ => inferInstanceAs (Decidable (_ = true))

def planRuns (needed : List NeededCommit) (filter : Option PackFilter) (passDeltas : Bool) :
    List (List NeededCommit) :=
  if passDeltas then
    runsOf (fun commit => (commit.segment.id, commit.segment.baseOffset, (readPlan commit filter).1))
      (needed.insertionSort NeededCommit.SitsBefore)
  else needed.map fun commit => [commit]

/-- The payload of a streamed entry, in whichever form reading it left it. -/
inductive EntryBody where
  | stored
  | delta (base : ObjectId)
  | rebuilt
  deriving DecidableEq, Repr

structure PackEntry where
  oid : ObjectId
  kind : Kind
  body : EntryBody
  deriving DecidableEq, Repr

def readEntries (limit : ℕ) : ℕ → ℕ → List ImageEntry → Except String (List ImageEntry)
  | 0, _, _ => .ok []
  | _ + 1, _, [] => .error "reading pack entry header length: early eof"
  | count + 1, start, entry :: entries =>
    if limit < start + entry.length then
      .error ("reading pack entry body for " ++ toString entry.oid ++ ": early eof")
    else do
      let rest ← readEntries limit count (start + entry.length) entries
      return entry :: rest

namespace Storage

def entryBody (storage : Storage) (passDeltas : Bool) (entry : ImageEntry) :
    Except String PackEntry :=
  match entry.base with
  | none => .ok ⟨entry.oid, entry.kind, .stored⟩
  | some base =>
    if passDeltas then .ok ⟨entry.oid, entry.kind, .delta base⟩
    else do
      storage.rebuild entry.oid
      return ⟨entry.oid, entry.kind, .rebuilt⟩

def fetchImage (storage : Storage) (filter : Option PackFilter) (passDeltas : Bool)
    (commit : NeededCommit) : Except String (List PackEntry) :=
  match storage.image commit.segment with
  | none => .error ("commit pack " ++ toString commit.oid ++ " not found")
  | some image =>
    if image.objectCount ≠ commit.packObjectCount then
      .error ("commit pack " ++ toString commit.oid ++ " header declares " ++
        toString image.objectCount ++ " objects, but the commit graph expected " ++
        toString commit.packObjectCount)
    else do
      let (readLen, entryCount) := readPlan commit filter
      let entries ← readEntries readLen entryCount commitPackHeaderSize image.entries
      entries.mapM (storage.entryBody passDeltas)

def fetchCommitRun (storage : Storage) (filter : Option PackFilter) (passDeltas : Bool)
    (run : List NeededCommit) : Except String (List PackEntry) := do
  let images ← run.mapM (storage.fetchImage filter passDeltas)
  return images.flatten

def fetchLooseEntry (storage : Storage) (want : LooseWant) : Except String (List PackEntry) :=
  match want.found.location with
  | none => .error ("no object " ++ toString want.oid)
  | some location =>
    match storage.image location.segment with
    | none => .error ("commit pack " ++ toString location.image.packSha ++ " not found")
    | some image =>
      match image.entryAt location.image.offset with
      | none => .error "decoding pack entry header: truncated"
      | some entry =>
        if entry.oid ≠ want.oid then
          .error ("commit pack " ++ toString location.image.packSha ++ " entry at offset " ++
            toString location.image.offset ++ " has sha " ++ toString entry.oid ++
            ", expected " ++ toString want.oid)
        else do
          let sent ← storage.entryBody false entry
          return [sent]

def fetchSources (storage : Storage) (batch : PackBatch) : Except String (List (List PackEntry)) := do
  let loose ← batch.looseWants.mapM storage.fetchLooseEntry
  let runs ← (planRuns batch.needed batch.filter batch.passDeltas).mapM
    (storage.fetchCommitRun batch.filter batch.passDeltas)
  return loose ++ runs

/-- A stream that ends without error has written these entries: the tags, and then, in some order
of arrival, each object of the sources once. -/
def Streams (storage : Storage) (batch : PackBatch) (written : List PackEntry) : Prop :=
  ∃ sources arrived, storage.fetchSources batch = .ok sources ∧
    Stream.Interleaved sources arrived ∧
    written = (batch.tagObjects.map fun oid => ⟨oid, .tag, .stored⟩) ++
      Stream.keepFirst PackEntry.oid [] arrived

end Storage

end Enroute
