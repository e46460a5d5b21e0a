import Enroute.Ingest.Scan

/-!
# Identifying the entries of a pack

Every entry is inflated, its delta applied and the result hashed. An entry whose base is at hand is
ready; a delta against another entry of the pack hangs off it, by position or by an id that is not
known before that entry is hashed. Jobs run on a pool, so many may be in flight, and which of them
ends next is anyone's guess: the driver takes a schedule that says so.
-/

namespace Enroute

namespace Resolve

def IN_FLIGHT_ENTRIES : ℕ := 64

def IN_FLIGHT_BYTES : ℕ := 256 * 1024 * 1024

/-- What an entry becomes itself from: its own bytes, or a base. A delta has the kind of its base. -/
structure JobBase where
  kind : Kind
  content : Option Bytes
  deriving DecidableEq, Repr

structure Job where
  raw : Bytes
  entry : ScannedEntry
  base : JobBase
  deriving DecidableEq, Repr

structure Done where
  sha : ObjectId
  kind : Kind
  content : Bytes
  refs : ObjectRefs
  deriving DecidableEq, Repr

def costOf (entry : ScannedEntry) (base : JobBase) : ℕ :=
  (base.content.map List.length).getD 0 + entry.decompressedSize

/-- The content of an object: the bytes themselves, or a delta applied to a base. -/
def materialise (base : Option Bytes) (inflated : Bytes) : Except String Bytes :=
  match base with
  | none => .ok inflated
  | some base => applyDelta base inflated

def identify [ObjectCodec] (job : Job) : Except String Done :=
  if job.raw.length < job.entry.headerLen then .error "pack entry shorter than its header"
  else do
    let inflated ← inflateEntry (job.raw.drop job.entry.headerLen) job.entry.decompressedSize
    let content ← materialise job.base.content inflated
    let sha ← hashLoose job.base.kind content
    let refs ← objectRefs job.base.kind content
    return { sha, kind := job.base.kind, content, refs }

structure Pending where
  at_ : ℕ
  base : JobBase
  deriving DecidableEq, Repr

def Pending.whole (at_ : ℕ) (kind : Kind) : Pending :=
  ⟨at_, ⟨kind, none⟩⟩

def Pending.delta (at_ : ℕ) (kind : Kind) (content : Bytes) : Pending :=
  ⟨at_, ⟨kind, some content⟩⟩

structure Running where
  at_ : ℕ
  cost : ℕ
  job : Job
  deriving DecidableEq, Repr

structure Draining where
  /-- Entries blocked on an object that is not known yet, by its id. -/
  byId : ObjectHashMap (List ℕ)
  ready : List Pending
  inFlight : List Running
  inFlightBytes : ℕ
  identified : ℕ
  oids : List ObjectId
  resolved : ObjectHashMap ObjectRefs
  /-- The entries identified, in the order they were; nothing reads it. -/
  history : List (ℕ × Done)

def hang (dependents : List (List ℕ)) (located : ScannedEntry × ℕ) : List (List ℕ) :=
  match located.1.base with
  | .inPack base => dependents.modify base (· ++ [located.2])
  | _ => dependents

def dependentsByIndex (entries : List ScannedEntry) : List (List ℕ) :=
  entries.zipIdx.foldl hang (List.replicate entries.length [])

def namedBases (entries : List ScannedEntry) : List ObjectId :=
  entries.filterMap fun entry =>
    match entry.base with
    | .ref base => some base
    | _ => none

def fetchOne (held : ObjectId → Option (Kind × Bytes)) (found : ObjectHashMap (Kind × Bytes))
    (sha : ObjectId) : ObjectHashMap (Kind × Bytes) :=
  match held sha with
  | some object => found.insert sha object
  | none => found

def fetchMany (held : ObjectId → Option (Kind × Bytes)) (shas : List ObjectId) :
    ObjectHashMap (Kind × Bytes) :=
  shas.foldl (fetchOne held) ∅

def seed (bases : ObjectHashMap (Kind × Bytes)) (state : List Pending × ObjectHashMap (List ℕ))
    (located : ScannedEntry × ℕ) : List Pending × ObjectHashMap (List ℕ) :=
  match located.1.base with
  | .whole kind => (state.1 ++ [.whole located.2 kind], state.2)
  -- It hangs off its base, and becomes runnable when that one lands.
  | .inPack _ => state
  | .ref base =>
    match bases.lookup base with
    | some (kind, content) => (state.1 ++ [.delta located.2 kind content], state.2)
    | none => (state.1, state.2.insert base ((state.2.lookup base).getD [] ++ [located.2]))

def allIdentified (resolved entries : ℕ) : Except String Unit :=
  if resolved = entries then .ok ()
  else .error (s!"identified {resolved} of {entries} pack entries; the rest delta against " ++
    "a base that is neither in the pack nor already stored")

/-- Hand ready entries to the pool while there is room. One that is too large is admitted alone. -/
def fill (entries : List ScannedEntry) (pack : Bytes) :
    List Pending → List Running → ℕ → Except String (List Pending × List Running × ℕ)
  | [], inFlight, bytes => .ok ([], inFlight, bytes)
  | pending :: ready, inFlight, bytes =>
    if inFlight.length < IN_FLIGHT_ENTRIES ∧ (inFlight = [] ∨ bytes < IN_FLIGHT_BYTES) then
      match entries[pending.at_]? with
      | none => .error "entry index out of range"
      | some entry => do
          let raw ← readSpan pack entry.entry
          let cost := costOf entry pending.base
          fill entries pack ready
            (inFlight ++ [⟨pending.at_, cost, ⟨raw, entry, pending.base⟩⟩]) (bytes + cost)
    else .ok (pending :: ready, inFlight, bytes)

def next (turn : ℕ) (inFlight : List Running) : Option (Running × List Running) :=
  (inFlight[turn % inFlight.length]?).map fun ended =>
    (ended, inFlight.eraseIdx (turn % inFlight.length))

def land (byIndex : List (List ℕ)) (state : Draining) (ended : Running) (others : List Running)
    (done : Done) : Draining :=
  let unblocked := (byIndex[ended.at_]?).getD [] ++ (state.byId.lookup done.sha).getD []
  { byId := state.byId.erase done.sha
    -- To the front one by one, so that a chain is followed to its end before the next root starts.
    ready := (unblocked.map fun blocked => Pending.delta blocked done.kind done.content).reverse ++
      state.ready
    inFlight := others
    inFlightBytes := state.inFlightBytes - ended.cost
    identified := state.identified + 1
    oids := state.oids.set ended.at_ done.sha
    resolved := state.resolved.insert done.sha done.refs
    history := state.history ++ [(ended.at_, done)] }

def drain [ObjectCodec] (entries : List ScannedEntry) (pack : Bytes) (byIndex : List (List ℕ))
    (schedule : ℕ → ℕ) : ℕ → Draining → Option (Except String Draining)
  | 0, _ => none
  | fuel + 1, state =>
    match fill entries pack state.ready state.inFlight state.inFlightBytes with
    | .error failure => some (.error failure)
    | .ok (ready, inFlight, inFlightBytes) =>
      let state := { state with ready, inFlight, inFlightBytes }
      match next (schedule state.identified) inFlight with
      | none => some ((allIdentified state.identified entries.length).map fun _ => state)
      | some (ended, others) =>
        match identify ended.job with
        | .error failure => some (.error failure)
        | .ok done => drain entries pack byIndex schedule fuel (land byIndex state ended others done)

def start (entries : List ScannedEntry) (held : ObjectId → Option (Kind × Bytes))
    (resolved : ObjectHashMap ObjectRefs) : Draining :=
  let bases := fetchMany held (namedBases entries)
  let seeded := entries.zipIdx.foldl (seed bases) ([], ∅)
  { byId := seeded.2, ready := seeded.1, inFlight := [], inFlightBytes := 0, identified := 0
    oids := List.replicate entries.length ObjectId.null, resolved, history := [] }

end Resolve

open Resolve

/-- Identify every entry the scan located: the id of each by position, and what each refers to. The
state the driver ends in is kept whole. -/
def identifyEntries [ObjectCodec] (fuel : ℕ) (schedule : ℕ → ℕ) (entries : List ScannedEntry)
    (pack : Bytes) (held : ObjectId → Option (Kind × Bytes)) (resolved : ObjectHashMap ObjectRefs) :
    Option (Except String Draining) :=
  drain entries pack (dependentsByIndex entries) schedule fuel (start entries held resolved)

end Enroute
