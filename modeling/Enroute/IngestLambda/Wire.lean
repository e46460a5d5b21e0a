import Enroute.Ingest.RefUpdates
import Enroute.Metadata.RefsMap

/-!
# What the front door and the worker send each other

The worker answers in frames, one JSON document a line. An enumeration the worker sends mirrors one
of the program and has one value more, for what this build has no name for.
-/

namespace Enroute

inductive IngestProgress where
  | dispatching
  | resolvingObjects (done total : UInt64)
  | preparingPacks (done total : UInt64)
  | compressingObjects (done total : UInt64)
  | checkingConnectivity
  | updatingRepository (done total : UInt64)
  | recordingCommits
  | updatingReferences
  deriving DecidableEq, Repr

structure StoreUnits where
  getClass : UInt64
  putClass : UInt64
  deletes : UInt64
  bytesRead : UInt64
  bytesWritten : UInt64
  deriving DecidableEq, Repr

structure LambdaUnits where
  invocations : UInt64
  mbMillis : UInt64
  deriving DecidableEq, Repr

structure Units where
  primary : StoreUnits
  handoff : StoreUnits
  lambda : LambdaUnits
  deriving DecidableEq, Repr

def StoreUnits.add (held units : StoreUnits) : StoreUnits where
  getClass := held.getClass + units.getClass
  putClass := held.putClass + units.putClass
  deletes := held.deletes + units.deletes
  bytesRead := held.bytesRead + units.bytesRead
  bytesWritten := held.bytesWritten + units.bytesWritten

def Units.add (meter units : Units) : Units where
  primary := meter.primary.add units.primary
  handoff := meter.handoff.add units.handoff
  lambda := {
    invocations := meter.lambda.invocations + units.lambda.invocations
    mbMillis := meter.lambda.mbMillis + units.lambda.mbMillis
  }

namespace Wire

inductive Mirrored (Git : Type) where
  | known (value : Git)
  | unknown

def Mirrored.toGit {Git : Type} : Mirrored Git → Option Git
  | .known value => some value
  | .unknown => none

abbrev Progress := Mirrored IngestProgress

abbrev RefStoreRejection := Mirrored RefUpdateRejection

structure Cost where
  primary : StoreUnits
  handoff : StoreUnits
  memoryMb : UInt64
  durationMs : UInt64

inductive Rejection where
  | missingObjects
  | funnyRefname
  | nonCommitObject
  | policy (reason : String)
  | refStore (kind : RefStoreRejection)
  | internal
  | unknown

structure Refused where
  refname : String
  rejection : Rejection

structure Ingested where
  rejected : List Refused
  screened : List String

inductive Frame where
  | progress (stage : Progress)
  | done (ingested : Ingested) (cost : Option Cost)
  | failed (message : String) (cost : Option Cost)
  | unknown

structure Staged where
  key : String
  len : ℕ

inductive Pack where
  | inline (bytes : Bytes)
  | staged (from_ : Staged)

structure Repo where
  id : ℤ
  storageKey : String
  defaultBranch : String

structure RefUpdate where
  refname : String
  oldId : String
  newId : String

structure Request where
  repo : Repo
  existing : RefsMap
  updates : List RefUpdate
  pack : Pack

inductive Push where
  | inline (request : Request)
  | staged (from_ : Staged)

structure Call (Envelope : Type) where
  envelope : Envelope
  push : Push

end Wire

def opaqueRejection (detail : String) : PushRejection :=
  .policy s!"rejected by ingest worker ({detail})"

def rejectionFromWire : Wire.Rejection → PushRejection
  | .missingObjects => .missingObjects
  | .funnyRefname => .funnyRefname
  | .nonCommitObject => .nonCommitObject
  | .policy reason => .policy reason
  | .refStore kind =>
    match kind.toGit with
    | some kind => .refStore kind
    | none => opaqueRejection "unrecognised ref-store refusal"
  | .internal => .internal
  | .unknown => opaqueRejection "unrecognised reason"

/-- What the worker established, by refname; of two refusals of a ref the later one is kept. -/
def ingestedFromWire (ingested : Wire.Ingested) : Ingested where
  rejected := ingested.rejected.foldl (fun rejected refused =>
    Function.update rejected refused.refname (some (rejectionFromWire refused.rejection)))
    fun _ => none
  screened := ingested.screened

def costFromWire (cost : Wire.Cost) : Units where
  primary := cost.primary
  handoff := cost.handoff
  lambda := {
    invocations := 1
    mbMillis := .ofNat (min (cost.memoryMb.toNat * cost.durationMs.toNat) (2 ^ 64 - 1))
  }

end Enroute
