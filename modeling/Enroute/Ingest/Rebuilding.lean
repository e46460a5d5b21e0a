import Enroute.Ingest.Received

/-!
# Rebuilt objects are the ones identified

A walk looks for a base in the push before it looks in the repository, while identification does it
the other way around. So it may come back to an entry it has already been through, by a delta that
names an object of the push which was identified from the repository. Where it never gets stranded
like this, every entry is rebuilt to what it was identified as, whatever the cache holds.
-/

namespace Enroute.Rebuild

open List Resolve

variable {held : ObjectId → Option (Kind × Bytes)} {wire : WirePacks} {cursor at_ : WireRef}
  {walked : List WireRef} {oid : ObjectId}

/-- Whether a walk through the push comes back, by a delta that names an object by its id, to an
entry it has been through, and the repository does not hold that object. -/
inductive Strands (wire : WirePacks) (held : ObjectId → Option (Kind × Bytes)) :
    List WireRef → WireRef → Prop
  | here {walked : List WireRef} {cursor back : WireRef} {entry : ScannedEntry} {oid : ObjectId} :
      wire.entry cursor = .ok entry → entry.base = .ref oid →
      wire.entryOf.lookup oid = some back → back ∈ cursor :: walked → held oid = none →
      Strands wire held walked cursor
  | inPack {walked : List WireRef} {cursor : WireRef} {entry : ScannedEntry} {below : ℕ} :
      wire.entry cursor = .ok entry → entry.base = .inPack below →
      Strands wire held (cursor :: walked) ⟨cursor.pack, below⟩ → Strands wire held walked cursor
  | ref {walked : List WireRef} {cursor at_ : WireRef} {entry : ScannedEntry} {oid : ObjectId} :
      wire.entry cursor = .ok entry → entry.base = .ref oid →
      wire.entryOf.lookup oid = some at_ → at_ ∉ cursor :: walked →
      Strands wire held (cursor :: walked) at_ → Strands wire held walked cursor

/-! ### One step of a walk -/

theorem nextOf_ref_unwalked (isFirst : wire.entryOf.lookup oid = some at_) (unwalked : at_ ∉ walked) :
    nextOf wire walked cursor (.ref oid) = some (.entry at_) := by
  simp [nextOf, isFirst, Option.filter, unwalked]

theorem nextOf_ref_walked (isFirst : wire.entryOf.lookup oid = some at_) (isWalked : at_ ∈ walked) :
    nextOf wire walked cursor (.ref oid) = some (.repo oid) := by
  simp [nextOf, isFirst, Option.filter, isWalked]

theorem nextOf_ref_absent (absent : wire.entryOf.lookup oid = none) :
    nextOf wire walked cursor (.ref oid) = some (.repo oid) := by
  simp [nextOf, absent]

section Steps

variable {fuel : ℕ} {chain : List Hop} {cache : ByteCache} {hop : Hop} {entry : ScannedEntry}

section

variable (isHop : Rebuild.hop wire cursor = .ok hop) (isEntry : wire.entry cursor = .ok entry)

include isHop isEntry

theorem walk_whole (isNext : nextOf wire (cursor :: walked) cursor entry.base = none) :
    walk wire held (fuel + 1) cursor walked chain cache = some (.ok (.entry hop, chain), cache) := by
  rw [walk, isHop, isEntry]
  simp only [isNext]

theorem walk_repo (isNext : nextOf wire (cursor :: walked) cursor entry.base = some (.repo oid)) :
    walk wire held (fuel + 1) cursor walked chain cache =
      some ((outside held oid cache).1.map fun content => (.content content, hop :: chain),
        (outside held oid cache).2) := by
  rw [walk, isHop, isEntry]
  simp only [isNext]

theorem walk_entry (isNext : nextOf wire (cursor :: walked) cursor entry.base = some (.entry at_))
    (isOid : wire.oid at_ = .ok oid) :
    walk wire held (fuel + 1) cursor walked chain cache =
      match cache.find oid with
      | some hit => some (.ok (.content hit, hop :: chain), (cache.get oid).2)
      | none => walk wire held fuel at_ (cursor :: walked) (hop :: chain) (cache.get oid).2 := by
  rw [walk, isHop, isEntry]
  simp only [isNext, isOid]
  rw [← Lru.get_fst]
  rcases cache.get oid with ⟨_ | hit, rest⟩ <;> rfl

end

end Steps

variable {cache : ByteCache} {chain : List Hop} {content base target : Bytes}

theorem walk_of_le {fuel more : ℕ} {result : Except String (Root × List Hop) × ByteCache}
    (ends : walk wire held fuel cursor walked chain cache = some result) (le : fuel ≤ more) :
    walk wire held more cursor walked chain cache = some result := by
  induction fuel generalizing cursor walked chain cache more with
  | zero => cases ends
  | succ fuel ih =>
    cases more with
    | zero => omega
    | succ more =>
      rw [walk] at ends ⊢
      split at ends
      · exact ends
      · exact ends
      · split at ends
        · exact ends
        · exact ends
        · split at ends
          · exact ends
          · split at ends
            · exact ends
            · exact ih ends (by omega)

/-! ### Walks that get stranded -/

theorem outside_of_find {hit : Bytes} (cached : cache.find oid = some hit) :
    outside held oid cache = (.ok hit, (cache.get oid).2) := by
  rw [← Lru.get_fst] at cached
  rw [outside]
  generalize cache.get oid = got at cached ⊢
  rcases got with ⟨_, rest⟩
  cases cached
  rfl

theorem outside_of_none (missing : cache.find oid = none) :
    outside held oid cache = match held oid with
      | none => (.error s!"{oid} is in neither this push nor the store", (cache.get oid).2)
      | some (_, content) => (.ok content, remember (cache.get oid).2 oid content) := by
  rw [← Lru.get_fst] at missing
  rw [outside]
  generalize cache.get oid = got at missing ⊢
  rcases got with ⟨_, rest⟩
  cases missing
  rfl

def Fails (wire : WirePacks) (held : ObjectId → Option (Kind × Bytes)) (walked : List WireRef)
    (cursor : WireRef) : Prop :=
  ∀ chain (cache : ByteCache), (∀ oid, cache.find oid = none) → ∃ fuel failure after,
    walk wire held fuel cursor walked chain cache = some (.error failure, after)

theorem fails_of_hop (fails : ∀ hop, Rebuild.hop wire cursor = .ok hop → Fails wire held walked cursor) :
    Fails wire held walked cursor := by
  intro chain cache empty
  cases isHop : Rebuild.hop wire cursor with
  | error failure => exact ⟨1, failure, cache, by rw [walk, isHop]⟩
  | ok hop => exact fails hop isHop chain cache empty

theorem fails_of_next {entry : ScannedEntry} (isEntry : wire.entry cursor = .ok entry)
    (isNext : nextOf wire (cursor :: walked) cursor entry.base = some (.entry at_))
    (fails : Fails wire held (cursor :: walked) at_) : Fails wire held walked cursor := by
  refine fails_of_hop fun hop isHop chain cache empty => ?_
  cases isOid : wire.oid at_ with
  | error failure =>
    refine ⟨1, failure, cache, ?_⟩
    rw [walk, isHop, isEntry]
    simp only [isNext, isOid]
  | ok oid =>
    rcases fails (hop :: chain) (cache.get oid).2 (by simpa using empty) with
      ⟨fuel, failure, after, walks⟩
    refine ⟨fuel + 1, failure, after, ?_⟩
    rw [walk_entry isHop isEntry isNext isOid, empty oid]
    exact walks

theorem Strands.fails (strands : Strands wire held walked cursor) :
    Fails wire held walked cursor := by
  induction strands with
  | @here walked cursor back entry oid isEntry isBase isFirst isBack noneHeld =>
    refine fails_of_hop fun hop isHop chain cache empty =>
      ⟨1, s!"{oid} is in neither this push nor the store", (cache.get oid).2, ?_⟩
    rw [walk_repo isHop isEntry (isBase ▸ nextOf_ref_walked isFirst isBack),
      outside_of_none (empty oid), noneHeld]
    rfl
  | inPack isEntry isBase _ ih => exact fails_of_next isEntry (by rw [isBase]; rfl) ih
  | ref isEntry isBase isFirst unwalked _ ih =>
    exact fails_of_next isEntry (isBase ▸ nextOf_ref_unwalked isFirst unwalked) ih

/-! ### Walks that arrive -/

variable [ObjectCodec]

def CacheSound (cache : ByteCache) : Prop :=
  ∀ oid content, cache.find oid = some content → Names oid content

def VersionsSound (versions : List (ObjectId × Bytes)) : Prop :=
  ∀ version ∈ versions, Names version.1 version.2

theorem cacheSound_empty : CacheSound Lru.empty := by
  intro oid content found
  rw [Lru.find_empty] at found
  cases found

theorem CacheSound.get (sound : CacheSound cache) (oid : ObjectId) :
    CacheSound (cache.get oid).2 := by
  intro other content found
  rw [Lru.find_get] at found
  exact sound other content found

theorem CacheSound.remember (sound : CacheSound cache) (names : Names oid content) :
    CacheSound (remember cache oid content) := by
  rw [Rebuild.remember]
  split_ifs
  · exact sound
  · intro other found isFound
    rcases Lru.find_put isFound with ⟨rfl, rfl⟩ | before
    · exact names
    · exact sound other found before

theorem CacheSound.rememberAll {versions : List (ObjectId × Bytes)} (sound : CacheSound cache)
    (versionsSound : VersionsSound versions) : CacheSound (rememberAll cache versions) := by
  induction versions generalizing cache with
  | nil => exact sound
  | cons version versions ih =>
    rcases forall_mem_cons.mp versionsSound with ⟨first, others⟩
    exact ih (sound.remember first) others

theorem VersionsSound.keep {kept : List (ObjectId × Bytes)} (sound : VersionsSound kept)
    (names : Names oid content) : VersionsSound (keep kept oid content) := by
  rw [Rebuild.keep]
  split_ifs
  · intro version listed
    rw [mem_append, mem_singleton] at listed
    rcases listed with before | rfl
    · exact sound version before
    · exact names
  · exact sound

/-- Whether the hops of a chain lead from a base up to an object, through sound versions. -/
def Lifts (chain : List Hop) (base target : Bytes) : Prop :=
  ∀ kept, VersionsSound kept → ∃ rebuilt, applyHops chain base kept = .ok rebuilt ∧
    rebuilt.target = target ∧ VersionsSound rebuilt.alongTheWay

theorem lifts_nil (target : Bytes) : Lifts [] target target :=
  fun kept sound => ⟨⟨target, kept⟩, rfl, rfl, sound⟩

theorem Lifts.cons {hop : Hop} {delta : Bytes} (lifts : Lifts chain content target)
    (inflates : inflateEntry hop.body hop.decompressedSize = .ok delta)
    (applies : applyDelta base delta = .ok content) (names : Names hop.oid content) :
    Lifts (hop :: chain) base target := by
  intro kept sound
  rcases lifts (keep kept hop.oid content) (sound.keep names) with ⟨rebuilt, isRebuilt, facts⟩
  refine ⟨rebuilt, ?_, facts⟩
  rw [applyHops, inflates, Except.ok_bind, applies, Except.ok_bind, isRebuilt]

/-- Whether a chain applied onto its root comes to an object, through sound versions. -/
def Reaches (root : Root) (chain : List Hop) (target : Bytes) : Prop :=
  ∃ rebuilt, applyChain root chain = .ok rebuilt ∧ rebuilt.target = target ∧
    VersionsSound rebuilt.alongTheWay

theorem Lifts.reaches_content (lifts : Lifts chain base target) :
    Reaches (.content base) chain target :=
  lifts [] (by simp [VersionsSound])

theorem Lifts.reaches_entry {hop : Hop} (lifts : Lifts chain base target)
    (inflates : inflateEntry hop.body hop.decompressedSize = .ok base) (names : Names hop.oid base) :
    Reaches (.entry hop) chain target := by
  rcases lifts (keep [] hop.oid base) (VersionsSound.keep (by simp [VersionsSound]) names) with
    ⟨rebuilt, isRebuilt, facts⟩
  refine ⟨rebuilt, ?_, facts⟩
  rw [applyChain, inflates, Except.ok_bind, isRebuilt]

/-- What a walk may end with: a root its chain leads up from, or a failure if it got stranded. -/
def Lands (wire : WirePacks) (held : ObjectId → Option (Kind × Bytes)) (walked : List WireRef)
    (cursor : WireRef) (target : Bytes) : Except String (Root × List Hop) × ByteCache → Prop
  | (.ok (root, chain), after) => CacheSound after ∧ Reaches root chain target
  | (.error _, after) => CacheSound after ∧ Strands wire held walked cursor

/-- Whether a walk from an entry ends well or stranded, if the hops so far lead up from what the
entry was identified as. -/
def Arrives (wire : WirePacks) (held : ObjectId → Option (Kind × Bytes)) (walked : List WireRef)
    (cursor : WireRef) : Prop :=
  ∀ {oid content target chain} {cache : ByteCache}, wire.oid cursor = .ok oid →
    Names oid content → Lifts chain content target → CacheSound cache →
    ∃ fuel outcome, walk wire held fuel cursor walked chain cache = some outcome ∧
      Lands wire held walked cursor target outcome

theorem outside_spec (injective : ObjectCodec.Injective) (intact : Intact held)
    (sound : CacheSound cache) (names : Names oid base) :
    CacheSound (outside held oid cache).2 ∧ ((outside held oid cache).1 = .ok base ∨
      (∃ failure, (outside held oid cache).1 = .error failure) ∧ held oid = none) := by
  cases cached : cache.find oid with
  | some hit =>
    rw [outside_of_find cached, (sound oid hit cached).unique injective names]
    exact ⟨sound.get oid, Or.inl rfl⟩
  | none =>
    rw [outside_of_none cached]
    cases isHeld : held oid with
    | none => exact ⟨sound.get oid, Or.inr ⟨⟨_, rfl⟩, rfl⟩⟩
    | some object =>
      rcases object with ⟨kind, content⟩
      have namesHeld : Names oid content := ⟨kind, intact oid kind content isHeld⟩
      exact ⟨(sound.get oid).remember namesHeld,
        Or.inl (congrArg Except.ok (namesHeld.unique injective names))⟩

section Arriving

variable {chain : List Hop} {cache : ByteCache} {hop : Hop} {entry : ScannedEntry}
  {base target : Bytes}

theorem lands_repo (injective : ObjectCodec.Injective) (intact : Intact held)
    (isHop : Rebuild.hop wire cursor = .ok hop) (isEntry : wire.entry cursor = .ok entry)
    (isNext : nextOf wire (cursor :: walked) cursor entry.base = some (.repo oid))
    (names : Names oid base) (lifts : Lifts (hop :: chain) base target) (sound : CacheSound cache)
    (strands : held oid = none → Strands wire held walked cursor) :
    ∃ fuel outcome, walk wire held fuel cursor walked chain cache = some outcome ∧
      Lands wire held walked cursor target outcome := by
  refine ⟨1, _, walk_repo isHop isEntry isNext, ?_⟩
  rcases outside_spec injective intact sound names with ⟨afterSound, found | ⟨⟨failure, fails⟩, missing⟩⟩
  · rw [found]
    exact ⟨afterSound, lifts.reaches_content⟩
  · rw [fails]
    exact ⟨afterSound, strands missing⟩

theorem lands_entry (injective : ObjectCodec.Injective)
    (isHop : Rebuild.hop wire cursor = .ok hop) (isEntry : wire.entry cursor = .ok entry)
    (isNext : nextOf wire (cursor :: walked) cursor entry.base = some (.entry at_))
    (isOid : wire.oid at_ = .ok oid) (names : Names oid base)
    (lifts : Lifts (hop :: chain) base target) (sound : CacheSound cache)
    (arrives : Arrives wire held (cursor :: walked) at_)
    (strands : Strands wire held (cursor :: walked) at_ → Strands wire held walked cursor) :
    ∃ fuel outcome, walk wire held fuel cursor walked chain cache = some outcome ∧
      Lands wire held walked cursor target outcome := by
  cases cached : cache.find oid with
  | some hit =>
    refine ⟨1, (.ok (.content hit, hop :: chain), (cache.get oid).2), ?_, sound.get oid, ?_⟩
    · rw [walk_entry isHop isEntry isNext isOid, cached]
    · rw [(sound oid hit cached).unique injective names]
      exact lifts.reaches_content
  | none =>
    rcases arrives isOid names lifts (sound.get oid) with ⟨fuel, ⟨result, after⟩, walks, lands⟩
    refine ⟨fuel + 1, (result, after), ?_, ?_⟩
    · rw [walk_entry isHop isEntry isNext isOid, cached]
      exact walks
    · cases result with
      | ok found => exact lands
      | error failure => exact ⟨lands.1, strands lands.2⟩

end Arriving

omit [ObjectCodec] in
theorem length_filter_le (all walked : List WireRef) (at_ : WireRef) :
    (all.filter (· ∉ at_ :: walked)).length ≤ (all.filter (· ∉ walked)).length := by
  refine List.Sublist.length_le (monotone_filter_right _ fun other unwalked => ?_)
  rw [decide_eq_true_eq, mem_cons, not_or] at unwalked
  exact decide_eq_true unwalked.2

omit [ObjectCodec] in
theorem length_filter_lt {all : List WireRef} (listed : at_ ∈ all) (unwalked : at_ ∉ walked) :
    (all.filter (· ∉ at_ :: walked)).length < (all.filter (· ∉ walked)).length := by
  have same : all.filter (· ∉ at_ :: walked) = (all.filter (· ∉ walked)).filter (· ≠ at_) := by
    rw [filter_filter]
    refine filter_congr fun other _ => ?_
    simp
  rw [same, length_filter_lt_length_iff_exists]
  exact ⟨at_, mem_filter.mpr ⟨listed, decide_eq_true unwalked⟩, by simp⟩

/-- Every walk ends. A delta by id leads to an entry that was not walked, and between two of them
deltas by position go down the pack. -/
theorem Received.arrives (injective : ObjectCodec.Injective) (received : Received held wire)
    (intact : Intact held) (all : List WireRef)
    (listed : ∀ {at_ oid}, wire.oid at_ = .ok oid → at_ ∈ all) :
    ∀ (count : ℕ) {cursor : WireRef} {walked : List WireRef}, Anchored wire cursor →
      (all.filter (· ∉ cursor :: walked)).length ≤ count → Arrives wire held walked cursor := by
  intro count
  induction count using Nat.strong_induction_on with
  | _ count fewer =>
    intro cursor walked anchored few
    -- On the same level the deltas by position are followed down.
    induction anchored generalizing walked with
    | @stop cursor entry isEntry noPosition =>
      intro oid content target chain cache isOid names lifts sound
      rcases received.exists_built injective intact isOid with
        ⟨⟨_, hop, inflated, _, isSame, isHop, rfl, inflates, namesBuilt, from_⟩, -⟩
      rw [isEntry, Except.ok.injEq] at isSame
      subst isSame
      rw [namesBuilt.unique injective names] at from_
      generalize isBase : entry.base = base at from_
      cases from_ with
      | whole =>
        exact ⟨1, _, walk_whole isHop isEntry (by rw [isBase]; rfl), sound,
          lifts.reaches_entry inflates names⟩
      | inPack => exact absurd isBase (noPosition _)
      | @ref oid base _ namesBase heldOr applies =>
        have lifted := lifts.cons inflates applies names
        cases isFirst : wire.entryOf.lookup oid with
        | none =>
          refine lands_repo injective intact isHop isEntry
            (isBase ▸ nextOf_ref_absent isFirst) namesBase lifted sound fun missing => ?_
          rcases heldOr isFirst with ⟨kind, isHeld⟩
          rw [missing] at isHeld
          cases isHeld
        | some at_ =>
          have isOidAt := received.oid_of_entryOf isFirst
          by_cases isWalked : at_ ∈ cursor :: walked
          · exact lands_repo injective intact isHop isEntry
              (isBase ▸ nextOf_ref_walked isFirst isWalked) namesBase lifted sound
              (.here isEntry isBase isFirst isWalked)
          · refine lands_entry injective isHop isEntry
              (isBase ▸ nextOf_ref_unwalked isFirst isWalked) isOidAt namesBase lifted sound
              ?_ (.ref isEntry isBase isFirst isWalked)
            refine fewer _ (Nat.lt_of_lt_of_le ?_ few)
              (received.exists_built injective intact isOidAt).2 le_rfl
            exact length_filter_lt (listed isOidAt) isWalked
    | @inPack cursor entry below isEntry isBase _ down =>
      intro oid content target chain cache isOid names lifts sound
      rcases received.exists_built injective intact isOid with
        ⟨⟨_, hop, inflated, _, isSame, isHop, rfl, inflates, namesBuilt, from_⟩, -⟩
      rw [isEntry, Except.ok.injEq] at isSame
      subst isSame
      rw [namesBuilt.unique injective names, isBase] at from_
      cases from_ with
      | inPack isOidBelow namesBase applies =>
        refine lands_entry injective isHop isEntry (by rw [isBase]; rfl) isOidBelow namesBase
          (lifts.cons inflates applies names) sound (down ?_) (.inPack isEntry isBase)
        exact (length_filter_le _ _ _).trans few

omit [ObjectCodec] in
theorem exists_all (wire : WirePacks) :
    ∃ all : List WireRef, ∀ {at_ oid}, wire.oid at_ = .ok oid → at_ ∈ all := by
  refine ⟨wire.packs.zipIdx.flatMap fun located =>
    (List.range located.1.oids.length).map fun position => ⟨located.2, position⟩, ?_⟩
  intro at_ oid isOid
  rcases oid_eq_ok_iff.mp isOid with ⟨wirePack, isPack, isPackOid⟩
  refine mem_flatMap.mpr ⟨(wirePack, at_.pack), mem_zipIdx_iff_getElem?.mpr isPack, ?_⟩
  exact mem_map.mpr ⟨at_.at_,
    mem_range.mpr (List.getElem?_eq_some_iff.mp isPackOid).1, rfl⟩

section Rebuilds

variable {fuel more : ℕ} {cache after : ByteCache} {result : Except String Bytes}

theorem rebuild_of_le {outcome : Except String Bytes × ByteCache}
    (ends : rebuild fuel wire held at_ cache = some outcome) (le : fuel ≤ more) :
    rebuild more wire held at_ cache = some outcome := by
  rw [rebuild, Option.map_eq_some_iff] at ends ⊢
  rcases ends with ⟨walkOutcome, walks, isOutcome⟩
  exact ⟨walkOutcome, walk_of_le walks le, isOutcome⟩

/-- An entry is rebuilt to the content of its id, unless the walk gets stranded; and whatever is
cached afterwards has its id. -/
theorem Received.rebuild_spec (injective : ObjectCodec.Injective) (received : Received held wire)
    (intact : Intact held) (isOid : wire.oid at_ = .ok oid) {content : Bytes}
    (names : Names oid content) (sound : CacheSound cache) :
    ∃ fuel result after, rebuild fuel wire held at_ cache = some (result, after) ∧
      CacheSound after ∧
      (result = .ok content ∨ (∃ failure, result = .error failure) ∧ Strands wire held [] at_) := by
  rcases exists_all wire with ⟨all, listed⟩
  have arrives : Arrives wire held [] at_ := received.arrives injective intact all listed _
    (received.exists_built injective intact isOid).2 le_rfl
  rcases arrives isOid names (lifts_nil content) sound with ⟨fuel, ⟨walkResult, after⟩, walks, lands⟩
  cases walkResult with
  | error failure =>
    refine ⟨fuel, .error failure, after, ?_, lands.1, Or.inr ⟨⟨failure, rfl⟩, lands.2⟩⟩
    rw [rebuild, walks, Option.map_some]
  | ok found =>
    rcases found with ⟨root, chain⟩
    rcases lands with ⟨afterSound, rebuilt, isRebuilt, isTarget, versionsSound⟩
    refine ⟨fuel, .ok rebuilt.target, rememberAll after rebuilt.alongTheWay, ?_,
      afterSound.rememberAll versionsSound, Or.inl (congrArg Except.ok isTarget)⟩
    rw [rebuild, walks, Option.map_some]
    simp only [isRebuilt]

end Rebuilds

end Enroute.Rebuild
