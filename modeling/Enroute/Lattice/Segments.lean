import Enroute.Lattice.Plan
import Enroute.Lib.Atomic
import Enroute.Lib.Join
import Mathlib.Data.List.AList

/-!
# Reading, writing and compacting one value held as segments

One scope of a store: the rows of its catalog, each of which holds a segment's bytes or names the
bucket object that does, and the bucket. Every call of the catalog and of the bucket is one atomic
step, so calls of any number of writers, compaction passes and sweeps interleave. Besides the rows
and the bucket a store carries what it has been through: the rows that landed, with the value each
was made of, and the objects sweeps deleted. No program reads these.
-/

namespace Enroute.Lattice

open Atomic Join

abbrev Bytes := List UInt8

abbrev SegmentId := ℕ

/-- When a name was made, in milliseconds since the epoch: the high bits of the ULID. -/
def SegmentId.madeAtMs (id : SegmentId) : ℕ :=
  id / 2 ^ 80

class Segment (S : Type) extends Join S where
  /-- The keys the value holds, or nothing when it holds none. -/
  range : S → Option KeyRange
  encoded : S → Bytes
  /-- Read back the part of the bytes that a range covers, or more. -/
  decodeRange : Bytes → KeyRange → Except String S

namespace Segment

variable {S : Type} [Segment S]

def decode (bytes : Bytes) : Except String S :=
  decodeRange bytes .everything

/-- What a segment type promises: a lawful join, and a decoder that inverts its encoder. -/
structure Laws (S : Type) [Segment S] : Prop extends Join.Laws S where
  decode_encoded : ∀ value : S, decode (encoded value) = .ok value

end Segment

/-- The bytes of a segment, or the key of the object that holds them. Under the prefix of one scope
an object's key is the name of its segment. -/
inductive Body where
  | inline (bytes : Bytes)
  | bucket (path : SegmentId)
  deriving DecidableEq

def Body.residence : Body → Residence
  | .inline _ => .inline
  | .bucket _ => .bucket

/-- What the catalog knows about a segment without reading its bytes. -/
structure Entry where
  id : SegmentId
  range : KeyRange
  tier : Tier
  bytes : ℕ
  residence : Residence
  deriving DecidableEq

def Entry.placement (entry : Entry) : Placement :=
  { range := entry.range, tier := entry.tier, bytes := entry.bytes, residence := entry.residence }

structure Listed where
  entry : Entry
  body : Body
  deriving DecidableEq

structure Written where
  id : SegmentId
  range : KeyRange
  tier : Tier
  body : Body
  bytes : ℕ
  deriving DecidableEq

def Written.entry (row : Written) : Entry :=
  { id := row.id, range := row.range, tier := row.tier, bytes := row.bytes
    residence := row.body.residence }

def Written.listed (row : Written) : Listed :=
  { entry := row.entry, body := row.body }

/-- A row that was recorded: the value it was made of, when, and whether a writer inserted it or a
compaction put it in the place of others. -/
structure Landing (S : Type) where
  id : SegmentId
  value : S
  at_ : ℕ
  inserted : Bool

/-- An object a sweep deleted, and the rows that were there at that moment. -/
structure Deletion where
  id : SegmentId
  rows : List Written

structure Store (S : Type) where
  rows : List Written
  bucket : AList fun _ : SegmentId => Bytes
  /-- How many names have been drawn. -/
  drawn : ℕ
  /-- Real time, in milliseconds since the epoch. -/
  clock : ℕ
  landed : List (Landing S)
  swept : List Deletion

namespace Store

variable {S : Type}

def empty (clock : ℕ) : Store S :=
  { rows := [], bucket := ∅, drawn := 0, clock, landed := [], swept := [] }

def inserted (store : Store S) : List S :=
  (store.landed.filter Landing.inserted).map Landing.value

def entries (store : Store S) : List Entry :=
  store.rows.map Written.entry

def bodies (store : Store S) (ids : List SegmentId) : List Listed :=
  (store.rows.filter fun row => row.id ∈ ids).map Written.listed

def covering (store : Store S) (range : KeyRange) : List Listed :=
  (store.rows.filter fun row => row.range.overlaps range).map Written.listed

def insert (store : Store S) (row : Written) (value : S) : Store S :=
  { store with
    rows := store.rows ++ [row]
    landed := store.landed ++ [⟨row.id, value, store.clock, true⟩] }

def replace (store : Store S) (inputs : List SegmentId) (row : Written) (value : S) : Store S :=
  { store with
    rows := (store.rows.filter fun old => old.id ∉ inputs) ++ [row]
    landed := store.landed ++ [⟨row.id, value, store.clock, false⟩] }

end Store

inductive Error where
  | bucket (id : SegmentId)
  | corrupt (id : SegmentId) (source : String)
  deriving DecidableEq, Repr

structure Report where
  merged : ℕ
  graduated : ℕ
  written : ℕ
  orphaned : ℕ
  deriving DecidableEq, Repr

/-- When a sweep runs, and how long an unnamed object is left alone. -/
structure Sweep where
  nowMs : ℕ
  nowMs_le : nowMs ≤ max64
  graceSecs : ℕ
  dryRun : Bool

structure Swept where
  scanned : ℕ
  orphans : ℕ
  bytes : ℕ
  deriving DecidableEq, Repr

structure Found where
  id : SegmentId
  bytes : ℕ
  deriving DecidableEq, Repr

structure Arrivals where
  order : List Listed → List Listed
  perm : ∀ listed, (order listed).Perm listed

abbrev Action (S α : Type) := ExceptT Error (Prog (Store S)) α

def bucketKeys (listed : List Listed) : List SegmentId :=
  listed.filterMap fun one =>
    match one.body with
    | .bucket path => some path
    | .inline _ => none

def orphansOf (found : List Found) (named : List SegmentId) (sweep : Sweep) : List Found :=
  let window := saturatingMul sweep.graceSecs 1000
  (found.filter fun one => one.id ∉ named).filter fun one =>
    window < sweep.nowMs - SegmentId.madeAtMs one.id

section Programs

variable {S : Type} [Segment S] (names : ℕ → SegmentId) (policy : Policy)

def fresh : Action S SegmentId :=
  ExceptT.mk (Prog.act fun store =>
    (.ok (names store.drawn), { store with drawn := store.drawn + 1 }))

def upload (id : SegmentId) (bytes : Bytes) : Action S Unit :=
  ExceptT.mk (Prog.act fun store => (.ok (), { store with bucket := store.bucket.insert id bytes }))

def fetch (id path : SegmentId) : Action S Bytes :=
  ExceptT.mk (Prog.read fun store =>
    match store.bucket.lookup path with
    | some bytes => .ok bytes
    | none => .error (.bucket id))

def view {α : Type} (look : Store S → α) : Action S α :=
  ExceptT.mk (Prog.read fun store => .ok (look store))

def change (next : Store S → Store S) : Action S Unit :=
  ExceptT.mk (Prog.act fun store => (.ok (), next store))

def put (range : KeyRange) (tier : Tier) (value : S) : Action S Written := do
  let id ← fresh names
  let bytes := Segment.encoded value
  match policy.residenceFor bytes.length with
  | .inline => return { id, range, tier, body := .inline bytes, bytes := bytes.length }
  | .bucket => do
      upload id bytes
      return { id, range, tier, body := .bucket id, bytes := bytes.length }

def prepare (value : S) : Action S (Option Written) :=
  match Segment.range value with
  | none => return none
  | some range => do
      let written ← put names policy range 0 value
      return some written

def write (value : S) : Action S (Option SegmentId) := do
  match ← prepare names policy value with
  | none => return none
  | some written => do
      change fun store => store.insert written value
      return some written.id

def bytesOf (listed : Listed) : Action S Bytes :=
  match listed.body with
  | .inline bytes => pure bytes
  | .bucket path => fetch listed.entry.id path

def decodeOne (range : KeyRange) (listed : Listed) : Action S S := do
  let bytes ← bytesOf listed
  ExceptT.mk (pure ((Segment.decodeRange bytes range).mapError (.corrupt listed.entry.id)))

def decodeNarrowed (arrivals : Arrivals) (listed : List Listed) (range : KeyRange) :
    Action S (List S) :=
  (arrivals.order listed).mapM (decodeOne range)

def read (arrivals : Arrivals) (range : KeyRange) : Action S (Option S) := do
  let listed ← view (·.covering range)
  let values ← decodeNarrowed arrivals listed range
  return compose values

def discard (stuck : SegmentId → Bool) : List SegmentId → Action S ℕ
  | [] => return 0
  | path :: paths =>
    if stuck path then do
      let orphaned ← discard stuck paths
      return orphaned + 1
    else do
      change fun store => { store with bucket := store.bucket.erase path }
      discard stuck paths

def runMerge (arrivals : Arrivals) (stuck : SegmentId → Bool) (entries : List Entry)
    (report : Report) (merge : Merge) : Action S Report := do
  let ids := (merge.inputs.filterMap (entries[·]?)).map Entry.id
  if ids.length < 2 then return report
  else do
    let listed ← view (·.bodies ids)
    let values ← decodeNarrowed arrivals listed .everything
    match compose values with
    | none => return report
    | some value => do
        let range := (Segment.range value).getD merge.range
        let written ← put names policy range merge.tier value
        change fun store => store.replace ids written value
        -- Only now, since until the replace the rows still name these.
        let orphaned ← discard stuck (bucketKeys listed)
        return {
          merged := report.merged + ids.length
          graduated := report.graduated + if written.body.residence = .bucket then 1 else 0
          written := saturatingAdd report.written written.bytes
          orphaned := report.orphaned + orphaned }

def compact (arrivals : Arrivals) (stuck : SegmentId → Bool) : Action S Report := do
  let entries ← view Store.entries
  (plan (entries.map Entry.placement) policy).foldlM
    (runMerge names policy arrivals stuck entries) ⟨0, 0, 0, 0⟩

/-- Delete the objects no row names. The bucket is listed first and the rows after it, so that a
segment recorded between the two reads as named. -/
def sweepBucket (sweep : Sweep) (stuck : SegmentId → Bool) : Action S Swept := do
  let found ← view fun store => store.bucket.entries.map fun object =>
    { id := object.1, bytes := object.2.length : Found }
  let named ← view fun store => store.rows.map Written.id
  (orphansOf found named sweep).foldlM (fun swept orphan => do
    if sweep.dryRun then
      return { swept with
        orphans := swept.orphans + 1, bytes := saturatingAdd swept.bytes orphan.bytes }
    else if stuck orphan.id then return swept
    else do
      change fun store => { store with
        bucket := store.bucket.erase orphan.id
        swept := store.swept ++ [⟨orphan.id, store.rows⟩] }
      return { swept with
        orphans := swept.orphans + 1, bytes := saturatingAdd swept.bytes orphan.bytes })
    ⟨found.length, 0, 0⟩

inductive Call (S : Type) where
  | write (value : S)
  | compact (arrivals : Arrivals) (stuck : SegmentId → Bool)
  | sweep (sweep : Sweep) (stuck : SegmentId → Bool)
  | tick (elapsed : ℕ)

inductive Outcome where
  | wrote (id : Option SegmentId)
  | compacted (report : Report)
  | swept (swept : Swept)
  | ticked

def body : Call S → Prog (Store S) (Except Error Outcome)
  | .write value => (Outcome.wrote <$> write names policy value : Action S Outcome).run
  | .compact arrivals stuck =>
    (Outcome.compacted <$> compact names policy arrivals stuck : Action S Outcome).run
  | .sweep sweep stuck => (Outcome.swept <$> sweepBucket sweep stuck : Action S Outcome).run
  | .tick elapsed => ((fun _ => Outcome.ticked) <$>
      change (S := S) fun store => { store with clock := store.clock + elapsed } :
        Action S Outcome).run

end Programs

end Enroute.Lattice
