import Enroute.Ingest.Resolve
import Enroute.Lib.Stream

/-!
# Every entry is identified once, whatever ends first

What an entry is a delta against does not depend on the order jobs end in: a base by position is one
entry, a base the repository holds is that object, and among the entries of the pack with the id a
delta names all hold one content, as no two objects have one id. The driver starts an entry when its
base has landed and never before, and each entry once. So it ends with every entry identified unless
some entry has no base that can be identified, or the work on some entry fails.
-/

namespace Enroute.Resolve

open List

variable [ObjectCodec]

def identifyAt (entries : List ScannedEntry) (pack : Bytes) (at_ : ℕ) (base : JobBase) :
    Except String Done :=
  match entries[at_]? with
  | none => .error "entry index out of range"
  | some entry => do
      let raw ← readSpan pack entry.entry
      identify ⟨raw, entry, base⟩

/-- What an entry becomes itself from, all the way down its chain. A delta that names an object of
the repository is one against that, and any other against an entry of the pack with that id. -/
inductive HasBase (entries : List ScannedEntry) (pack : Bytes)
    (held : ObjectId → Option (Kind × Bytes)) : ℕ → JobBase → Prop
  | whole {at_ : ℕ} {entry : ScannedEntry} {kind : Kind} :
      entries[at_]? = some entry → entry.base = .whole kind →
      HasBase entries pack held at_ ⟨kind, none⟩
  | inPack {at_ below : ℕ} {entry : ScannedEntry} {base : JobBase} {done : Done} :
      entries[at_]? = some entry → entry.base = .inPack below →
      HasBase entries pack held below base → identifyAt entries pack below base = .ok done →
      HasBase entries pack held at_ ⟨done.kind, some done.content⟩
  | stored {at_ : ℕ} {entry : ScannedEntry} {oid : ObjectId} {kind : Kind} {content : Bytes} :
      entries[at_]? = some entry → entry.base = .ref oid → held oid = some (kind, content) →
      HasBase entries pack held at_ ⟨kind, some content⟩
  | ref {at_ below : ℕ} {entry : ScannedEntry} {base : JobBase} {done : Done} :
      entries[at_]? = some entry → entry.base = .ref done.sha → held done.sha = none →
      HasBase entries pack held below base → identifyAt entries pack below base = .ok done →
      HasBase entries pack held at_ ⟨done.kind, some done.content⟩

def Identifies (entries : List ScannedEntry) (pack : Bytes)
    (held : ObjectId → Option (Kind × Bytes)) (at_ : ℕ) (done : Done) : Prop :=
  ∃ base, HasBase entries pack held at_ base ∧ identifyAt entries pack at_ base = .ok done

section Chains

variable {entries : List ScannedEntry} {pack : Bytes} {held : ObjectId → Option (Kind × Bytes)}
  {at_ : ℕ} {base other : JobBase} {done : Done}

theorem hashLoose_of_identify {job : Job} (identified : identify job = .ok done) :
    hashLoose done.kind done.content = .ok done.sha := by
  rw [identify] at identified
  split_ifs at identified
  simp only [Except.bind_eq_ok_iff, Except.pure_eq_ok_iff] at identified
  rcases identified with ⟨inflated, -, content, -, sha, hashed, refs, -, rfl⟩
  exact hashed

theorem exists_of_identifyAt (identified : identifyAt entries pack at_ base = .ok done) :
    ∃ entry raw, entries[at_]? = some entry ∧ readSpan pack entry.entry = .ok raw ∧
      identify ⟨raw, entry, base⟩ = .ok done := by
  rw [identifyAt] at identified
  cases isEntry : entries[at_]? with
  | none =>
    rw [isEntry] at identified
    cases identified
  | some entry =>
    rw [isEntry] at identified
    rcases Except.bind_eq_ok_iff.mp identified with ⟨raw, isRaw, identified⟩
    exact ⟨entry, raw, rfl, isRaw, identified⟩

theorem hashLoose_of_identifyAt (identified : identifyAt entries pack at_ base = .ok done) :
    hashLoose done.kind done.content = .ok done.sha := by
  rcases exists_of_identifyAt identified with ⟨entry, raw, -, -, identified⟩
  exact hashLoose_of_identify identified

theorem HasBase.unique (injective : ObjectCodec.Injective)
    (has : HasBase entries pack held at_ base) (hasOther : HasBase entries pack held at_ other) :
    base = other := by
  induction has generalizing other with
  | whole isEntry isBase =>
    cases hasOther <;> simp_all
  | inPack isEntry isBase _ identified ih =>
    cases hasOther with
    | inPack isOther isOtherBase below otherIdentified =>
      simp only [isEntry, Option.some.injEq] at isOther
      subst isOther
      rw [isBase, EntryBase.inPack.injEq] at isOtherBase
      subst isOtherBase
      rw [ih below, otherIdentified, Except.ok.injEq] at identified
      rw [identified]
    | whole => simp_all
    | stored => simp_all
    | ref => simp_all
  | stored isEntry isBase isHeld =>
    cases hasOther <;> simp_all
  | ref isEntry isBase noneHeld _ identified ih =>
    cases hasOther with
    | ref isOther isOtherBase _ _ otherIdentified =>
      simp only [isEntry, Option.some.injEq] at isOther
      subst isOther
      rw [isBase, EntryBase.ref.injEq] at isOtherBase
      have hashed := hashLoose_of_identifyAt identified
      rw [isOtherBase] at hashed
      rcases injective _ _ _ _ _ hashed (hashLoose_of_identifyAt otherIdentified) with
        ⟨sameKind, sameContent⟩
      rw [sameKind, sameContent]
    | whole => simp_all
    | stored => simp_all
    | inPack => simp_all

theorem Identifies.unique (injective : ObjectCodec.Injective) {otherDone : Done}
    (identifies : Identifies entries pack held at_ done)
    (otherwise : Identifies entries pack held at_ otherDone) : done = otherDone := by
  rcases identifies with ⟨base, has, identified⟩
  rcases otherwise with ⟨other, hasOther, otherIdentified⟩
  rw [has.unique injective hasOther, otherIdentified, Except.ok.injEq] at identified
  exact identified.symm

end Chains

/-! ### Seeding -/

section Seeding

omit [ObjectCodec]

variable {entries : List ScannedEntry}

variable {below : ℕ} {held : ObjectId → Option (Kind × Bytes)}

theorem getD_foldl_hang (located : List (ScannedEntry × ℕ)) (dependents : List (List ℕ))
    (inside : below < dependents.length) :
    ((located.foldl hang dependents)[below]?).getD [] =
      (dependents[below]?).getD [] ++
        (located.filter fun located => located.1.base = .inPack below).map Prod.snd := by
  induction located generalizing dependents with
  | nil => simp
  | cons first located ih =>
    rcases first with ⟨entry, at_⟩
    rw [foldl_cons]
    cases isBase : entry.base with
    | whole kind =>
      have same : hang dependents (entry, at_) = dependents := by simp [hang, isBase]
      rw [same, ih _ inside]
      simp [isBase]
    | ref oid =>
      have same : hang dependents (entry, at_) = dependents := by simp [hang, isBase]
      rw [same, ih _ inside]
      simp [isBase]
    | inPack base =>
      have added : hang dependents (entry, at_) = dependents.modify base (· ++ [at_]) := by
        simp [hang, isBase]
      rw [added, ih _ (by rwa [length_modify])]
      by_cases same : base = below
      · subst same
        simp [isBase, List.getElem?_eq_getElem inside]
      · simp [isBase, same]

theorem getD_dependentsByIndex (inside : below < entries.length) :
    ((dependentsByIndex entries)[below]?).getD [] =
      (entries.zipIdx.filter fun located => located.1.base = .inPack below).map Prod.snd := by
  rw [dependentsByIndex, getD_foldl_hang _ _ (by rwa [length_replicate])]
  simp [inside]

theorem mem_dependentsByIndex {blocked : ℕ} (inside : below < entries.length) :
    blocked ∈ ((dependentsByIndex entries)[below]?).getD [] ↔
      ∃ entry, entries[blocked]? = some entry ∧ entry.base = .inPack below := by
  rw [getD_dependentsByIndex inside]
  simp [mem_zipIdx_iff_getElem?]

theorem nodup_zipIdx_filter (keep : ScannedEntry × ℕ → Bool) :
    ((entries.zipIdx.filter keep).map Prod.snd).Nodup := by
  refine List.Nodup.sublist (filter_sublist.map _) ?_
  rw [zipIdx_map_snd]
  exact nodup_range'

theorem lookup_foldl_fetchOne (shas : List ObjectId) (found : ObjectHashMap (Kind × Bytes))
    (sha : ObjectId) :
    (shas.foldl (fetchOne held) found).lookup sha =
      if sha ∈ shas then (held sha).or (found.lookup sha) else found.lookup sha := by
  induction shas generalizing found with
  | nil => simp
  | cons first shas ih =>
    rw [foldl_cons, ih, fetchOne]
    by_cases same : sha = first
    · subst same
      cases held sha <;> simp
    · cases held first <;> simp [same, AList.lookup_insert_ne same]

theorem lookup_fetchMany {shas : List ObjectId} {sha : ObjectId} (named : sha ∈ shas) :
    (fetchMany held shas).lookup sha = held sha := by
  rw [fetchMany, lookup_foldl_fetchOne, if_pos named, AList.lookup_empty, Option.or_none]

def rootOf (held : ObjectId → Option (Kind × Bytes)) (located : ScannedEntry × ℕ) :
    Option Pending :=
  match located.1.base with
  | .whole kind => some (.whole located.2 kind)
  | .inPack _ => none
  | .ref oid => (held oid).map fun object => .delta located.2 object.1 object.2

def WaitsFor (held : ObjectId → Option (Kind × Bytes)) (entry : ScannedEntry) (oid : ObjectId) :
    Prop :=
  entry.base = .ref oid ∧ held oid = none

instance (held : ObjectId → Option (Kind × Bytes)) (entry : ScannedEntry) (oid : ObjectId) :
    Decidable (WaitsFor held entry oid) :=
  inferInstanceAs (Decidable (_ ∧ _))

theorem foldl_seed {bases : ObjectHashMap (Kind × Bytes)} (located : List (ScannedEntry × ℕ))
    (areHeld : ∀ one ∈ located, ∀ oid, one.1.base = .ref oid → bases.lookup oid = held oid)
    (state : List Pending × ObjectHashMap (List ℕ)) :
    (located.foldl (seed bases) state).1 = state.1 ++ located.filterMap (rootOf held) ∧
      ∀ oid, ((located.foldl (seed bases) state).2.lookup oid).getD [] =
        (state.2.lookup oid).getD [] ++
          (located.filter fun one => WaitsFor held one.1 oid).map Prod.snd := by
  induction located generalizing state with
  | nil => simp
  | cons first located ih =>
    rcases first with ⟨entry, at_⟩
    rcases forall_mem_cons.mp areHeld with ⟨here, later⟩
    rcases ih later (seed bases state (entry, at_)) with ⟨ready, waiting⟩
    rw [foldl_cons, ready]
    refine ⟨?_, fun oid => ?_⟩
    · cases isBase : entry.base with
      | whole kind => simp [seed, rootOf, isBase]
      | inPack below => simp [seed, rootOf, isBase]
      | ref base =>
        have isHeld := here base isBase
        cases found : held base <;> simp [seed, rootOf, isBase, isHeld, found]
    · rw [waiting]
      cases isBase : entry.base with
      | whole kind => simp [seed, WaitsFor, isBase]
      | inPack below => simp [seed, WaitsFor, isBase]
      | ref base =>
        have isHeld := here base isBase
        cases found : held base with
        | some object =>
          have notWaiting : ¬WaitsFor held entry oid := by
            rintro ⟨isRef, noneHeld⟩
            rw [isBase, EntryBase.ref.injEq] at isRef
            rw [← isRef, found] at noneHeld
            cases noneHeld
          simp [seed, isBase, isHeld, found, notWaiting]
        | none =>
          by_cases same : oid = base
          · subst same
            simp [seed, WaitsFor, isBase, isHeld, found]
          · simp [seed, WaitsFor, isBase, isHeld, found, Ne.symm same,
              AList.lookup_insert_ne same]

end Seeding

end Enroute.Resolve
