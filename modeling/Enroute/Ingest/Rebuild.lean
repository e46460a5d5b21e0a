import Enroute.Ingest.Wire
import Enroute.Lib.Lru

/-!
# Rebuilding objects out of the packs they arrived in

The delta chain of an entry is walked back to something whole, and the deltas are applied on the way
up. A base is looked for in the push first, and in the repository if the push does not have it or the
walk has already come through it. What was rebuilt lately is kept in a cache, and a base that is
cached ends the walk wherever it is found.

The cache is shared by every call, so each function takes it and gives it back, also when it fails.
-/

namespace Enroute

def CACHE_BYTES : ℕ := 128 * 1024 * 1024

def MAX_CACHED_BYTES : ℕ := CACHE_BYTES / 8

abbrev ByteCache := Lru ObjectId Bytes List.length CACHE_BYTES

namespace Rebuild

def remember (cache : ByteCache) (oid : ObjectId) (content : Bytes) : ByteCache :=
  if MAX_CACHED_BYTES < content.length then cache else cache.put oid content

/-- One hop of a delta chain: the compressed instructions and what they inflate to. -/
structure Hop where
  oid : ObjectId
  body : Bytes
  decompressedSize : ℕ

/-- Where a walk goes next: another entry of the push, or an object only the repository has. -/
inductive Next where
  | entry (at_ : WireRef)
  | repo (oid : ObjectId)

inductive Root where
  | entry (hop : Hop)
  | content (content : Bytes)

/-- What one walk produced: the object, and the versions passed through on the way. -/
structure Rebuilt where
  target : Bytes
  alongTheWay : List (ObjectId × Bytes)

def hop (wire : WirePacks) (at_ : WireRef) : Except String Hop := do
  let oid ← wire.oid at_
  let body ← wire.body at_
  let entry ← wire.entry at_
  return { oid, body, decompressedSize := entry.decompressedSize }

def keep (kept : List (ObjectId × Bytes)) (oid : ObjectId) (content : Bytes) :
    List (ObjectId × Bytes) :=
  if content.length ≤ MAX_CACHED_BYTES then kept ++ [(oid, content)] else kept

section Applying

variable [ObjectCodec]

def applyHops : List Hop → Bytes → List (ObjectId × Bytes) → Except String Rebuilt
  | [], content, kept => .ok ⟨content, kept⟩
  | hop :: chain, content, kept => do
      let delta ← inflateEntry hop.body hop.decompressedSize
      let content ← applyDelta content delta
      applyHops chain content (keep kept hop.oid content)

def applyChain (root : Root) (chain : List Hop) : Except String Rebuilt :=
  match root with
  | .entry hop => do
      let inflated ← inflateEntry hop.body hop.decompressedSize
      applyHops chain inflated (keep [] hop.oid inflated)
  | .content content => applyHops chain content []

end Applying

def outside (held : ObjectId → Option (Kind × Bytes)) (oid : ObjectId) (cache : ByteCache) :
    Except String Bytes × ByteCache :=
  match cache.get oid with
  | (some hit, cache) => (.ok hit, cache)
  | (none, cache) =>
    match held oid with
    | none => (.error s!"{oid} is in neither this push nor the store", cache)
    | some (_, content) => (.ok content, remember cache oid content)

def nextOf (wire : WirePacks) (walked : List WireRef) (cursor : WireRef) : EntryBase → Option Next
  | .whole _ => none
  | .inPack base => some (.entry ⟨cursor.pack, base⟩)
  | .ref base =>
    match (wire.entryOf.lookup base).filter fun at_ => at_ ∉ walked with
    | some at_ => some (.entry at_)
    | none => some (.repo base)

/-- Walk a chain back to something whole: where it bottoms out, and the hops up from there. -/
def walk (wire : WirePacks) (held : ObjectId → Option (Kind × Bytes)) :
    ℕ → WireRef → List WireRef → List Hop → ByteCache →
      Option (Except String (Root × List Hop) × ByteCache)
  | 0, _, _, _, _ => none
  | fuel + 1, cursor, walked, chain, cache =>
    match hop wire cursor, wire.entry cursor with
    | .error failure, _ => some (.error failure, cache)
    | _, .error failure => some (.error failure, cache)
    | .ok hop, .ok entry =>
      match nextOf wire (cursor :: walked) cursor entry.base with
      | none => some (.ok (.entry hop, chain), cache)
      -- A base the push did not bring, or one the walk has already come through.
      | some (.repo oid) =>
        let (found, cache) := outside held oid cache
        some (found.map fun content => (.content content, hop :: chain), cache)
      | some (.entry at_) =>
        match wire.oid at_ with
        | .error failure => some (.error failure, cache)
        | .ok oid =>
          match cache.get oid with
          | (some hit, cache) => some (.ok (.content hit, hop :: chain), cache)
          | (none, cache) => walk wire held fuel at_ (cursor :: walked) (hop :: chain) cache

def rememberAll (cache : ByteCache) (versions : List (ObjectId × Bytes)) : ByteCache :=
  versions.foldl (fun cache version => remember cache version.1 version.2) cache

variable [ObjectCodec]

def rebuild (fuel : ℕ) (wire : WirePacks) (held : ObjectId → Option (Kind × Bytes)) (at_ : WireRef)
    (cache : ByteCache) : Option (Except String Bytes × ByteCache) :=
  (walk wire held fuel at_ [] [] cache).map fun (walked, cache) =>
    match walked with
    | .error failure => (.error failure, cache)
    | .ok (root, chain) =>
      match applyChain root chain with
      | .error failure => (.error failure, cache)
      | .ok rebuilt => (.ok rebuilt.target, rememberAll cache rebuilt.alongTheWay)

/-- The content of an object: cached, rebuilt from the push, or from the repository. -/
def content (fuel : ℕ) (wire : WirePacks) (held : ObjectId → Option (Kind × Bytes)) (oid : ObjectId)
    (cache : ByteCache) : Option (Except String Bytes × ByteCache) :=
  match cache.get oid with
  | (some hit, cache) => some (.ok hit, cache)
  | (none, cache) =>
    match wire.entryOf.lookup oid with
    | some at_ => rebuild fuel wire held at_ cache
    | none => some (outside held oid cache)

def contentOr (fuel : ℕ) (wire : WirePacks) (held : ObjectId → Option (Kind × Bytes))
    (prefetched : ObjectHashMap Bytes) (oid : ObjectId) (cache : ByteCache) :
    Option (Except String Bytes × ByteCache) :=
  match prefetched.lookup oid with
  | some hit => some (.ok hit, cache)
  | none => content fuel wire held oid cache

omit [ObjectCodec]

/-- The objects to read: those the push does not have and the cache does not either. -/
def wantedOf (wire : WirePacks) : List ObjectId → ByteCache → List ObjectId × ByteCache
  | [], cache => ([], cache)
  | oid :: oids, cache =>
    match wire.entryOf.lookup oid with
    | some _ => wantedOf wire oids cache
    | none =>
      match cache.get oid with
      | (some _, cache) => wantedOf wire oids cache
      | (none, cache) =>
        let (wanted, cache) := wantedOf wire oids cache
        (oid :: wanted, cache)

def prefetch (wire : WirePacks) (held : ObjectId → Option (Kind × Bytes)) (oids : List ObjectId)
    (cache : ByteCache) : ObjectHashMap Bytes × ByteCache :=
  let (wanted, cache) := wantedOf wire oids.dedup cache
  (Resolve.fetchMany held wanted).entries.foldl
    (fun (read, cache) found => (read.insert found.1 found.2.2, remember cache found.1 found.2.2))
    (∅, cache)

end Rebuild

end Enroute
