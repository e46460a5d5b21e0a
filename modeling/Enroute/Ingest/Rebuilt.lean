import Enroute.Ingest.Rebuilding

/-!
# Rebuilding after any calls

Whatever calls came before, what the cache holds is named by its content, so a hit in the middle of
a chain changes nothing but where the walk ends. An entry is then rebuilt to what it was identified
as from every cache, exactly when the walk does not get stranded without one.
-/

namespace Enroute

namespace Rebuild

open Resolve

variable [ObjectCodec] {held : ObjectId → Option (Kind × Bytes)} {wire : WirePacks} {at_ : WireRef}
  {oid : ObjectId} {fuel : ℕ} {cache after : ByteCache} {result : Except String Bytes}

/-- The caches there may be after any calls for a push. Between two calls more may come to be held. -/
inductive Reached (wire : WirePacks) : ByteCache → Prop
  | new : Reached wire Lru.empty
  | content {cache after : ByteCache} {held : ObjectId → Option (Kind × Bytes)} {fuel : ℕ}
      {oid : ObjectId} {result : Except String Bytes} : Reached wire cache → Received held wire →
      Intact held → content fuel wire held oid cache = some (result, after) → Reached wire after
  | contentOr {cache after : ByteCache} {held : ObjectId → Option (Kind × Bytes)} {fuel : ℕ}
      {prefetched : ObjectHashMap Bytes} {oid : ObjectId} {result : Except String Bytes} :
      Reached wire cache → Received held wire → Intact held →
      contentOr fuel wire held prefetched oid cache = some (result, after) → Reached wire after
  | prefetch {cache : ByteCache} {held : ObjectId → Option (Kind × Bytes)} (oids : List ObjectId) :
      Reached wire cache → Intact held → Reached wire (prefetch wire held oids cache).2

theorem CacheSound.rebuild (injective : ObjectCodec.Injective) (sound : CacheSound cache)
    (received : Received held wire) (intact : Intact held) (isOid : wire.oid at_ = .ok oid)
    (rebuilds : rebuild fuel wire held at_ cache = some (result, after)) : CacheSound after := by
  rcases received.exists_built injective intact isOid with ⟨⟨built⟩, -⟩
  rcases received.rebuild_spec injective intact isOid built.names sound with
    ⟨enough, found, foundAfter, ends, foundSound, -⟩
  have first := rebuild_of_le ends (Nat.le_max_left enough fuel)
  have second := rebuild_of_le rebuilds (Nat.le_max_right enough fuel)
  rw [first, Option.some.injEq, Prod.mk.injEq] at second
  rwa [← second.2]

theorem CacheSound.outside (sound : CacheSound cache) (intact : Intact held) (oid : ObjectId) :
    CacheSound (outside held oid cache).2 := by
  cases cached : cache.find oid with
  | some hit =>
    rw [outside_of_find cached]
    exact sound.get oid
  | none =>
    rw [outside_of_none cached]
    cases isHeld : held oid with
    | none => exact sound.get oid
    | some object => exact (sound.get oid).remember ⟨object.1, intact _ _ _ isHeld⟩

theorem CacheSound.content (injective : ObjectCodec.Injective) (sound : CacheSound cache)
    (received : Received held wire) (intact : Intact held)
    (returns : content fuel wire held oid cache = some (result, after)) : CacheSound after := by
  rw [Rebuild.content] at returns
  have gotSound := sound.get oid
  generalize cache.get oid = got at returns gotSound
  rcases got with ⟨_ | hit, cache⟩
  · dsimp only at returns
    split at returns
    next at_ isFirst =>
      exact gotSound.rebuild injective received intact (received.oid_of_entryOf isFirst) returns
    next =>
      rw [Option.some.injEq] at returns
      have after := gotSound.outside intact oid
      rwa [returns] at after
  · cases returns
    exact gotSound

theorem CacheSound.wantedOf (sound : CacheSound cache) (oids : List ObjectId) :
    CacheSound (wantedOf wire oids cache).2 := by
  induction oids generalizing cache with
  | nil => exact sound
  | cons oid oids ih =>
    rw [Rebuild.wantedOf]
    split
    · exact ih sound
    · have gotSound := sound.get oid
      generalize cache.get oid = got at gotSound
      rcases got with ⟨_ | hit, cache⟩
      · exact ih gotSound
      · exact ih gotSound

theorem CacheSound.prefetch (sound : CacheSound cache) (intact : Intact held)
    (oids : List ObjectId) : CacheSound (prefetch wire held oids cache).2 := by
  rw [Rebuild.prefetch]
  have wantedSound : CacheSound (Rebuild.wantedOf wire oids.dedup cache).2 := sound.wantedOf _
  generalize Rebuild.wantedOf wire oids.dedup cache = wanted at wantedSound
  rcases wanted with ⟨wanted, cache⟩
  dsimp only at wantedSound ⊢
  have fetched : ∀ found ∈ (fetchMany held wanted).entries, Names found.1 found.2.2 := by
    intro found listed
    have isFound : (fetchMany held wanted).lookup found.1 = some found.2 :=
      AList.mem_lookup_iff.mpr listed
    rw [fetchMany, lookup_foldl_fetchOne, AList.lookup_empty, Option.or_none] at isFound
    split_ifs at isFound
    exact ⟨found.2.1, intact _ _ _ isFound⟩
  generalize (∅ : ObjectHashMap Bytes) = read
  generalize (fetchMany held wanted).entries = entries at fetched ⊢
  induction entries generalizing cache read with
  | nil => exact wantedSound
  | cons found entries ih =>
    rcases List.forall_mem_cons.mp fetched with ⟨first, others⟩
    exact ih _ (wantedSound.remember first) _ others

theorem Reached.sound (injective : ObjectCodec.Injective) (reached : Reached wire cache) :
    CacheSound cache := by
  induction reached with
  | new => exact cacheSound_empty
  | content _ received intact returns ih => exact ih.content injective received intact returns
  | @contentOr _ _ _ _ prefetched oid _ _ received intact returns ih =>
    rw [Rebuild.contentOr] at returns
    split at returns
    · cases returns
      exact ih
    · exact ih.content injective received intact returns
  | prefetch oids _ intact ih => exact ih.prefetch intact oids

end Rebuild

open Rebuild Resolve

/-- An entry of a received push is rebuilt to the content it was identified by, from whatever is
cached, exactly when the walk from it does not come back to an entry for an object that is not
held. -/
theorem rebuild_returns_identified [ObjectCodec] (injective : ObjectCodec.Injective)
    {held : ObjectId → Option (Kind × Bytes)} {wire : WirePacks} (received : Received held wire)
    (intact : Intact held) (at_ : WireRef) (oid : ObjectId) (isOid : wire.oid at_ = .ok oid) :
    ∃ done, IdentifiedAs held wire at_ done ∧ done.sha = oid ∧
      hashLoose done.kind done.content = .ok oid ∧
      ((∀ cache, Reached wire cache → ∃ fuel after, ∀ more ≥ fuel,
        rebuild more wire held at_ cache = some (.ok done.content, after)) ↔
          ¬Strands wire held [] at_) := by
  rcases received.exists_identifiedAs injective isOid with ⟨done, identified, isSha, hashed⟩
  refine ⟨done, identified, isSha, hashed, fun returns strands => ?_, fun unstranded => ?_⟩
  · rcases strands.fails [] Lru.empty (fun _ => Lru.find_empty) with ⟨fuel, failure, after, walks⟩
    rcases returns Lru.empty .new with ⟨enough, finally_, returned⟩
    have fails : rebuild fuel wire held at_ Lru.empty = some (.error failure, after) := by
      rw [rebuild, walks, Option.map_some]
    have failed := rebuild_of_le fails (Nat.le_max_left fuel enough)
    rw [returned _ (Nat.le_max_right fuel enough)] at failed
    cases failed
  · intro cache reached
    rcases received.rebuild_spec injective intact isOid ⟨done.kind, hashed⟩
      (reached.sound injective) with ⟨fuel, result, after, rebuilds, -, isContent | ⟨-, strands⟩⟩
    · exact ⟨fuel, after, fun more le => rebuild_of_le (isContent ▸ rebuilds) le⟩
    · exact absurd strands unstranded

theorem received_single {held : ObjectId → Option (Kind × Bytes)} {entries : List ScannedEntry}
    {pack : Bytes} {oids : List ObjectId} (aligned : entries.length = oids.length)
    (identifies : ∃ final, identifyEntries (entries.length + 1) (fun _ => 0) entries pack held ∅ =
      some (.ok final) ∧ final.oids = oids) :
    Received held ((∅ : WirePacks).adopt ⟨pack, entries, oids, aligned⟩) := by
  rcases identifies with ⟨final, succeeds, rfl⟩
  exact .adopt .none (Nat.lt_succ_self _) (fun _ _ isHeld => isHeld) succeeds (dif_pos aligned)

def crossedDeltas : List ScannedEntry :=
  [⟨.ref 7, 4, ⟨0, 4⟩, 0⟩, ⟨.ref 12, 2, ⟨4, 2⟩, 0⟩]

def emptyBlobHeld (oid : ObjectId) : Option (Kind × Bytes) :=
  if oid = 7 then some (.blob, []) else none

theorem intact_emptyBlobHeld : Intact emptyBlobHeld := by
  intro oid kind content isHeld
  rw [emptyBlobHeld] at isHeld
  split_ifs at isHeld with same
  cases isHeld
  rw [same]
  rfl

def crossedWire : WirePacks :=
  (∅ : WirePacks).adopt ⟨[0, 1, 1, 1, 1, 0], crossedDeltas, [12, 7], rfl⟩

theorem received_crossedWire : Received emptyBlobHeld crossedWire :=
  received_single rfl ⟨_, rfl, rfl⟩

theorem not_strands_crossedWire : ¬Strands crossedWire emptyBlobHeld [] ⟨0, 1⟩ := by
  have first : ¬Strands crossedWire emptyBlobHeld [⟨0, 1⟩] ⟨0, 0⟩ := by
    rintro (⟨isEntry, isBase, isFirst, isBack, noneHeld⟩ | ⟨isEntry, isBase, -⟩ |
      ⟨isEntry, isBase, isFirst, unwalked, -⟩)
    · cases isEntry
      cases isBase
      cases noneHeld
    · cases isEntry
      cases isBase
    · cases isEntry
      cases isBase
      cases isFirst
      exact unwalked (by decide)
  rintro (⟨isEntry, isBase, isFirst, isBack, noneHeld⟩ | ⟨isEntry, isBase, -⟩ |
    ⟨isEntry, isBase, isFirst, -, strands⟩)
  · cases isEntry
    cases isBase
    cases isFirst
    exact absurd isBack (by decide)
  · cases isEntry
    cases isBase
  · cases isEntry
    cases isBase
    cases isFirst
    exact first strands

theorem rebuild_returns_identified_crossed :
    ∃ done, IdentifiedAs emptyBlobHeld crossedWire ⟨0, 1⟩ done ∧ done.sha = 7 ∧
      ∀ cache, Reached crossedWire cache → ∃ fuel after, ∀ more ≥ fuel,
        rebuild more crossedWire emptyBlobHeld ⟨0, 1⟩ cache = some (.ok done.content, after) := by
  rcases rebuild_returns_identified injective_plainObjects received_crossedWire intact_emptyBlobHeld
    ⟨0, 1⟩ 7 rfl with ⟨done, identified, isSha, -, returns⟩
  exact ⟨done, identified, isSha, returns.mpr not_strands_crossedWire⟩

/-- From an empty cache the first of the two is not rebuilt, though it was identified from the held
object; once the second has been, it is. -/
theorem crossed_deltas_strand :
    Received emptyBlobHeld crossedWire ∧ Intact emptyBlobHeld ∧
      crossedWire.oid ⟨0, 0⟩ = .ok 12 ∧ hashLoose .blob [1] = .ok 12 ∧
      (Reached crossedWire Lru.empty ∧ ∃ failure after, ∀ more ≥ 2,
        rebuild more crossedWire emptyBlobHeld ⟨0, 0⟩ Lru.empty = some (.error failure, after)) ∧
      ∃ cache, Reached crossedWire cache ∧ ∃ after, ∀ more ≥ 2,
        rebuild more crossedWire emptyBlobHeld ⟨0, 0⟩ cache = some (.ok [1], after) := by
  refine ⟨received_crossedWire, intact_emptyBlobHeld, rfl, rfl, ⟨.new,
    "12 is in neither this push nor the store", Lru.empty, fun more le => rebuild_of_le rfl le⟩, ?_⟩
  have second : ∃ after, content 3 crossedWire emptyBlobHeld 7 Lru.empty = some (.ok [], after) ∧
      ∃ last, rebuild 2 crossedWire emptyBlobHeld ⟨0, 0⟩ after = some (.ok [1], last) :=
    ⟨_, rfl, _, rfl⟩
  rcases second with ⟨after, returns, last, rebuilds⟩
  exact ⟨after, .content .new received_crossedWire intact_emptyBlobHeld returns, last,
    fun more le => rebuild_of_le rebuilds le⟩

end Enroute
