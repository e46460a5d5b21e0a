import Enroute.Ingest.Rebuild

/-!
# What a received push holds

The packs of a push are adopted once every entry of them is identified, each against the objects the
repository and the staging area held at that time. So an entry can be rebuilt from a base: a base by
position is an entry of its pack, and one by id is an object of the push or of the repository.
-/

namespace Enroute.Rebuild

open Resolve

variable [ObjectCodec] {held : ObjectId → Option (Kind × Bytes)} {wire : WirePacks}
  {at_ : WireRef} {oid : ObjectId}

def Names (oid : ObjectId) (content : Bytes) : Prop :=
  ∃ kind, hashLoose kind content = .ok oid

theorem Names.unique (injective : ObjectCodec.Injective) {content other : Bytes}
    (names : Names oid content) (namesOther : Names oid other) : content = other := by
  rcases names with ⟨kind, hashed⟩
  rcases namesOther with ⟨otherKind, otherHashed⟩
  exact (injective _ _ _ _ _ hashed otherHashed).2

def Intact (held : ObjectId → Option (Kind × Bytes)) : Prop :=
  ∀ oid kind content, held oid = some (kind, content) → hashLoose kind content = .ok oid

omit [ObjectCodec] in
def Grows (earlier later : ObjectId → Option (Kind × Bytes)) : Prop :=
  ∀ oid object, earlier oid = some object → later oid = some object

/-- The packs of a push, adopted one by one after each was identified. What was held when one was
identified is still held. -/
inductive Received (held : ObjectId → Option (Kind × Bytes)) : WirePacks → Prop
  | none : Received held ∅
  | adopt {wire : WirePacks} {entries : List ScannedEntry} {pack : Bytes} {fuel : ℕ}
      {schedule : ℕ → ℕ} {earlier : ObjectId → Option (Kind × Bytes)}
      {resolved : ObjectHashMap ObjectRefs} {final : Draining} {wirePack : WirePack} :
      Received held wire → entries.length < fuel → Grows earlier held →
      identifyEntries fuel schedule entries pack earlier resolved = some (.ok final) →
      WirePack.new pack entries final.oids = .ok wirePack →
      Received held (wire.adopt wirePack)

def IdentifiedPack (held : ObjectId → Option (Kind × Bytes)) (wirePack : WirePack) : Prop :=
  ∃ earlier, Grows earlier held ∧ ∀ at_ < wirePack.entries.length, ∃ done,
    Identifies wirePack.entries wirePack.pack earlier at_ done ∧
      wirePack.oids[at_]? = some done.sha

/-! ### Where objects sit -/

omit [ObjectCodec] in
theorem oid_eq_ok_iff :
    wire.oid at_ = .ok oid ↔
      ∃ wirePack, wire.packs[at_.pack]? = some wirePack ∧ wirePack.oids[at_.at_]? = some oid := by
  rw [WirePacks.oid, WirePacks.pack]
  cases isPack : wire.packs[at_.pack]? with
  | none =>
    refine iff_of_false (fun isOk => ?_) (by simp)
    cases isOk
  | some wirePack =>
    simp only [Except.ok_bind, WirePack.oid, Option.some.injEq, exists_eq_left']
    cases wirePack.oids[at_.at_]? <;> simp

omit [ObjectCodec] in
theorem lookup_foldl_noteAt (pack : ℕ) (located : List (ObjectId × ℕ))
    (entryOf : ObjectHashMap WireRef) (oid : ObjectId) :
    (located.foldl (WirePacks.noteAt pack) entryOf).lookup oid =
      (entryOf.lookup oid).or
        ((located.find? fun one => one.1 = oid).map fun one => ⟨pack, one.2⟩) := by
  induction located generalizing entryOf with
  | nil => simp
  | cons first located ih =>
    rw [List.foldl_cons, ih, WirePacks.noteAt]
    by_cases same : first.1 = oid
    · subst same
      cases found : entryOf.lookup first.1 <;> simp [found]
    · cases found : entryOf.lookup first.1 <;>
        simp [same, AList.lookup_insert_ne (Ne.symm same)]

omit [ObjectCodec] in
theorem packs_adopt (wirePack : WirePack) :
    (wire.adopt wirePack).packs = wire.packs ++ [wirePack] :=
  rfl

omit [ObjectCodec] in
theorem lookup_adopt (wirePack : WirePack) (oid : ObjectId) :
    (wire.adopt wirePack).entryOf.lookup oid = (wire.entryOf.lookup oid).or
      ((wirePack.oids.zipIdx.find? fun one => one.1 = oid).map
        fun one => ⟨wire.packs.length, one.2⟩) :=
  lookup_foldl_noteAt _ _ _ _

theorem Received.identified (injective : ObjectCodec.Injective) (received : Received held wire) :
    ∀ wirePack ∈ wire.packs, IdentifiedPack held wirePack := by
  induction received with
  | none => simp [EmptyCollection.emptyCollection]
  | adopt _ enough grows succeeds isNew ih =>
    intro wirePack listed
    rw [packs_adopt, List.mem_append, List.mem_singleton] at listed
    rcases listed with before | rfl
    · exact ih wirePack before
    · rw [WirePack.new] at isNew
      split_ifs at isNew
      cases isNew
      exact ⟨_, grows, (every_of_identifyEntries injective enough succeeds).2.2⟩

theorem Received.oid_of_entryOf (received : Received held wire)
    (isFirst : wire.entryOf.lookup oid = some at_) : wire.oid at_ = .ok oid := by
  induction received generalizing at_ with
  | none => cases isFirst
  | @adopt wire _ _ _ _ _ _ _ wirePack _ _ _ _ _ ih =>
    rw [oid_eq_ok_iff, packs_adopt]
    rw [lookup_adopt] at isFirst
    cases before : wire.entryOf.lookup oid with
    | some first =>
      rw [before, Option.some_or, Option.some.injEq] at isFirst
      subst isFirst
      rcases oid_eq_ok_iff.mp (ih before) with ⟨other, isPack, isOid⟩
      exact ⟨other, List.getElem?_append_left (List.getElem?_eq_some_iff.mp isPack).1 ▸ isPack,
        isOid⟩
    | none =>
      rw [before, Option.none_or, Option.map_eq_some_iff] at isFirst
      rcases isFirst with ⟨one, found, rfl⟩
      have isOid := List.find?_some found
      rw [decide_eq_true_eq] at isOid
      refine ⟨wirePack, List.getElem?_concat_length, ?_⟩
      rw [← isOid]
      exact List.mem_zipIdx_iff_getElem?.mp (List.mem_of_find?_eq_some found)

theorem Received.exists_entryOf (received : Received held wire) (isOid : wire.oid at_ = .ok oid) :
    ∃ first, wire.entryOf.lookup oid = some first := by
  rw [oid_eq_ok_iff] at isOid
  rcases isOid with ⟨wirePack, isPack, isOid⟩
  have listed := List.mem_of_getElem? isPack
  clear isPack
  induction received with
  | none => simp [EmptyCollection.emptyCollection] at listed
  | adopt _ _ _ _ _ ih =>
    rw [lookup_adopt]
    rw [packs_adopt, List.mem_append, List.mem_singleton] at listed
    rcases listed with before | rfl
    · rcases ih before with ⟨first, isFirst⟩
      exact ⟨first, by rw [isFirst, Option.some_or]⟩
    · rw [← Option.isSome_iff_exists, Option.isSome_or, Bool.or_eq_true, Option.isSome_map,
        List.find?_isSome]
      exact Or.inr ⟨(oid, at_.at_), List.mem_zipIdx_iff_getElem?.mpr isOid, by simp⟩

def IdentifiedAs (held : ObjectId → Option (Kind × Bytes)) (wire : WirePacks) (at_ : WireRef)
    (done : Done) : Prop :=
  ∃ wirePack earlier, wire.packs[at_.pack]? = some wirePack ∧ Grows earlier held ∧
    Identifies wirePack.entries wirePack.pack earlier at_.at_ done

theorem Received.exists_identifiedAs (injective : ObjectCodec.Injective)
    (received : Received held wire) (isOid : wire.oid at_ = .ok oid) :
    ∃ done, IdentifiedAs held wire at_ done ∧ done.sha = oid ∧
      hashLoose done.kind done.content = .ok oid := by
  rcases oid_eq_ok_iff.mp isOid with ⟨wirePack, isPack, isPackOid⟩
  rcases received.identified injective wirePack (List.mem_of_getElem? isPack) with
    ⟨earlier, grows, every⟩
  have inside : at_.at_ < wirePack.entries.length :=
    wirePack.aligned ▸ (List.getElem?_eq_some_iff.mp isPackOid).1
  rcases every at_.at_ inside with ⟨done, identifies, isSha⟩
  rw [isPackOid, Option.some.injEq] at isSha
  rcases identifies with ⟨base, has, identified⟩
  refine ⟨done, ⟨wirePack, earlier, isPack, grows, base, has, identified⟩, isSha.symm, ?_⟩
  rw [isSha]
  exact hashLoose_of_identifyAt identified

/-! ### What an entry is built from -/

/-- How the content of an entry comes from what the entry inflates to and a base. A base by id is an
object of the push unless the repository holds it. -/
inductive BuiltFrom (held : ObjectId → Option (Kind × Bytes)) (wire : WirePacks) (pack : ℕ)
    (inflated : Bytes) : EntryBase → Bytes → Prop
  | whole {kind : Kind} : BuiltFrom held wire pack inflated (.whole kind) inflated
  | inPack {below : ℕ} {oid : ObjectId} {base content : Bytes} :
      wire.oid ⟨pack, below⟩ = .ok oid → Names oid base → applyDelta base inflated = .ok content →
      BuiltFrom held wire pack inflated (.inPack below) content
  | ref {oid : ObjectId} {base content : Bytes} :
      Names oid base → (wire.entryOf.lookup oid = none → ∃ kind, held oid = some (kind, base)) →
      applyDelta base inflated = .ok content → BuiltFrom held wire pack inflated (.ref oid) content

/-- Whether deltas by position go down to an entry that is not one. -/
inductive Anchored (wire : WirePacks) : WireRef → Prop
  | stop {at_ : WireRef} {entry : ScannedEntry} : wire.entry at_ = .ok entry →
      (∀ below, entry.base ≠ .inPack below) → Anchored wire at_
  | inPack {at_ : WireRef} {entry : ScannedEntry} {below : ℕ} : wire.entry at_ = .ok entry →
      entry.base = .inPack below → Anchored wire ⟨at_.pack, below⟩ → Anchored wire at_

section Entries

variable {wirePack : WirePack}

omit [ObjectCodec] in
theorem pack_eq_ok (isPack : wire.packs[at_.pack]? = some wirePack) :
    wire.pack at_.pack = .ok wirePack := by
  rw [WirePacks.pack, isPack]

omit [ObjectCodec] in
theorem entry_eq_ok {entry : ScannedEntry} (isPack : wire.packs[at_.pack]? = some wirePack)
    (isEntry : wirePack.entries[at_.at_]? = some entry) : wire.entry at_ = .ok entry := by
  rw [WirePacks.entry, pack_eq_ok isPack, Except.ok_bind, WirePack.entry, isEntry]

theorem hop_eq_ok {base : JobBase} {done : Done} (isPack : wire.packs[at_.pack]? = some wirePack)
    (isOid : wirePack.oids[at_.at_]? = some oid)
    (identified : identifyAt wirePack.entries wirePack.pack at_.at_ base = .ok done) :
    ∃ entry body inflated, wirePack.entries[at_.at_]? = some entry ∧
      hop wire at_ = .ok ⟨oid, body, entry.decompressedSize⟩ ∧
      inflateEntry body entry.decompressedSize = .ok inflated ∧
      materialise base.content inflated = .ok done.content := by
  rcases exists_of_identifyAt identified with ⟨entry, raw, isEntry, isRaw, identified⟩
  rw [identify] at identified
  split_ifs at identified with short
  simp only [Except.bind_eq_ok_iff, Except.pure_eq_ok_iff] at identified
  rcases identified with ⟨inflated, inflates, content, isContent, sha, hashed, refs, -, rfl⟩
  refine ⟨entry, raw.drop entry.headerLen, inflated, isEntry, ?_, inflates, isContent⟩
  have wireOid : wire.oid at_ = .ok oid := oid_eq_ok_iff.mpr ⟨wirePack, isPack, isOid⟩
  have wireEntry := entry_eq_ok isPack isEntry
  have wireBody : wire.body at_ = .ok (raw.drop entry.headerLen) := by
    rw [WirePacks.body, pack_eq_ok isPack, Except.ok_bind, WirePack.body, WirePack.entry, isEntry]
    simp only [Except.ok_bind, isRaw, if_neg short]
  rw [hop, wireOid, wireEntry, wireBody]
  rfl

theorem anchored_of_hasBase {earlier : ObjectId → Option (Kind × Bytes)} {pack : ℕ}
    (isPack : wire.packs[pack]? = some wirePack) {position : ℕ} {base : JobBase}
    (has : HasBase wirePack.entries wirePack.pack earlier position base) :
    Anchored wire ⟨pack, position⟩ := by
  induction has with
  | whole isEntry isBase => exact .stop (entry_eq_ok isPack isEntry) (by simp [isBase])
  | inPack isEntry isBase _ _ below => exact .inPack (entry_eq_ok isPack isEntry) isBase below
  | stored isEntry isBase _ => exact .stop (entry_eq_ok isPack isEntry) (by simp [isBase])
  | ref isEntry isBase _ _ _ _ => exact .stop (entry_eq_ok isPack isEntry) (by simp [isBase])

end Entries

structure Built (held : ObjectId → Option (Kind × Bytes)) (wire : WirePacks) (at_ : WireRef)
    (oid : ObjectId) where
  entry : ScannedEntry
  hop : Hop
  inflated : Bytes
  content : Bytes
  isEntry : wire.entry at_ = .ok entry
  isHop : Rebuild.hop wire at_ = .ok hop
  isOid : hop.oid = oid
  inflates : inflateEntry hop.body hop.decompressedSize = .ok inflated
  names : Names oid content
  from_ : BuiltFrom held wire at_.pack inflated entry.base content

theorem Received.exists_built (injective : ObjectCodec.Injective) (received : Received held wire)
    (intact : Intact held) (isOid : wire.oid at_ = .ok oid) :
    Nonempty (Built held wire at_ oid) ∧ Anchored wire at_ := by
  rcases oid_eq_ok_iff.mp isOid with ⟨wirePack, isPack, isPackOid⟩
  rcases received.identified injective wirePack (List.mem_of_getElem? isPack) with
    ⟨earlier, grows, every⟩
  have inside : at_.at_ < wirePack.entries.length :=
    wirePack.aligned ▸ (List.getElem?_eq_some_iff.mp isPackOid).1
  rcases every at_.at_ inside with ⟨done, ⟨base, has, identified⟩, isSha⟩
  rw [isPackOid, Option.some.injEq] at isSha
  subst isSha
  refine ⟨?_, anchored_of_hasBase isPack has⟩
  rcases hop_eq_ok isPack isPackOid identified with
    ⟨entry, body, inflated, isEntry, isHop, inflates, isContent⟩
  refine ⟨⟨entry, _, inflated, done.content, entry_eq_ok isPack isEntry, isHop, rfl, inflates,
    ⟨done.kind, hashLoose_of_identifyAt identified⟩, ?_⟩⟩
  -- An entry the base is landed on is one of this pack, and the push has what it is.
  have oidBelow : ∀ {below base doneBelow}, HasBase wirePack.entries wirePack.pack earlier below base →
      identifyAt wirePack.entries wirePack.pack below base = .ok doneBelow →
      wire.oid ⟨at_.pack, below⟩ = .ok doneBelow.sha := by
    intro below base doneBelow hasBelow identifiedBelow
    rcases every below hasBelow.inside with ⟨other, identifies, isOther⟩
    rw [Identifies.unique injective ⟨base, hasBelow, identifiedBelow⟩ identifies]
    exact oid_eq_ok_iff.mpr ⟨wirePack, isPack, isOther⟩
  cases has with
  | whole isOther isBase =>
    rw [isEntry, Option.some.injEq] at isOther
    rw [isOther, isBase]
    cases isContent
    exact .whole
  | inPack isOther isBase hasBelow identifiedBelow =>
    rw [isEntry, Option.some.injEq] at isOther
    rw [isOther, isBase]
    exact .inPack (oidBelow hasBelow identifiedBelow)
      ⟨_, hashLoose_of_identifyAt identifiedBelow⟩ isContent
  | stored isOther isBase isHeld =>
    rw [isEntry, Option.some.injEq] at isOther
    rw [isOther, isBase]
    exact .ref ⟨_, intact _ _ _ (grows _ _ isHeld)⟩ (fun _ => ⟨_, grows _ _ isHeld⟩) isContent
  | ref isOther isBase _ hasBelow identifiedBelow =>
    rw [isEntry, Option.some.injEq] at isOther
    rw [isOther, isBase]
    refine .ref ⟨_, hashLoose_of_identifyAt identifiedBelow⟩ (fun absent => ?_) isContent
    rcases received.exists_entryOf (oidBelow hasBelow identifiedBelow) with ⟨first, isFirst⟩
    rw [absent] at isFirst
    cases isFirst

end Enroute.Rebuild
