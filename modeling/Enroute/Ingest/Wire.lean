import Enroute.Ingest.Identified

/-!
# The packs of a push

The packs a push arrived in are kept while it runs, and every later pass reads bytes out of them. An
object is found by its id where it arrived first; it may have been sent more than once.
-/

namespace Enroute

structure WireRef where
  pack : ℕ
  at_ : ℕ
  deriving DecidableEq, Repr

/-- A received pack, and what each of its entries turned out to be. -/
structure WirePack where
  pack : Bytes
  entries : List ScannedEntry
  oids : List ObjectId
  aligned : entries.length = oids.length
  deriving DecidableEq, Repr

namespace WirePack

def new (pack : Bytes) (entries : List ScannedEntry) (oids : List ObjectId) :
    Except String WirePack :=
  if aligned : entries.length = oids.length then .ok ⟨pack, entries, oids, aligned⟩
  else .error s!"pack has {entries.length} entries but {oids.length} were identified"

def entry (wirePack : WirePack) (at_ : ℕ) : Except String ScannedEntry :=
  match wirePack.entries[at_]? with
  | some entry => .ok entry
  | none => .error s!"entry {at_} is not in this pack"

def body (wirePack : WirePack) (at_ : ℕ) : Except String Bytes := do
  let entry ← wirePack.entry at_
  let raw ← readSpan wirePack.pack entry.entry
  if raw.length < entry.headerLen then .error s!"entry {at_} is shorter than its header"
  else .ok (raw.drop entry.headerLen)

def oid (wirePack : WirePack) (at_ : ℕ) : Except String ObjectId :=
  match wirePack.oids[at_]? with
  | some oid => .ok oid
  | none => .error s!"entry {at_} is not in this pack"

end WirePack

/-- Every pack a push arrived in, and where each object it received sits. -/
structure WirePacks where
  packs : List WirePack
  entryOf : ObjectHashMap WireRef

instance : EmptyCollection WirePacks := ⟨⟨[], ∅⟩⟩

namespace WirePacks

def noteAt (pack : ℕ) (entryOf : ObjectHashMap WireRef) (located : ObjectId × ℕ) :
    ObjectHashMap WireRef :=
  match entryOf.lookup located.1 with
  | some _ => entryOf
  | none => entryOf.insert located.1 ⟨pack, located.2⟩

def adopt (wire : WirePacks) (pack : WirePack) : WirePacks where
  packs := wire.packs ++ [pack]
  entryOf := pack.oids.zipIdx.foldl (noteAt wire.packs.length) wire.entryOf

def pack (wire : WirePacks) (at_ : ℕ) : Except String WirePack :=
  match wire.packs[at_]? with
  | some pack => .ok pack
  | none => .error s!"pack {at_} is not part of this push"

def entry (wire : WirePacks) (at_ : WireRef) : Except String ScannedEntry := do
  (← wire.pack at_.pack).entry at_.at_

def oid (wire : WirePacks) (at_ : WireRef) : Except String ObjectId := do
  (← wire.pack at_.pack).oid at_.at_

def body (wire : WirePacks) (at_ : WireRef) : Except String Bytes := do
  (← wire.pack at_.pack).body at_.at_

end WirePacks

end Enroute
