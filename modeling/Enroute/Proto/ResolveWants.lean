import Enroute.Proto.UploadPack

/-!
# What resolving the wants settles

Resolving visits the wants and everything they peel to, each oid once, and sorts what it visits
by kind. The rounds end because every round that leaves a target to resolve has met a tag for
the first time.
-/

namespace Enroute

open List Relation

theorem drainPending_spec (resolved pending : List ObjectId) :
    (drainPending resolved pending).1.Nodup ∧
      (∀ oid, oid ∈ (drainPending resolved pending).1 ↔ oid ∈ pending ∧ oid ∉ resolved) ∧
      ∀ oid, oid ∈ (drainPending resolved pending).2 ↔ oid ∈ resolved ∨ oid ∈ pending := by
  induction pending generalizing resolved with
  | nil => simp [drainPending]
  | cons head pending ih =>
    rw [drainPending]
    split
    next known =>
      rcases ih resolved with ⟨distinct, drained, marked⟩
      refine ⟨distinct, fun oid => ?_, fun oid => ?_⟩
      · rw [drained, mem_cons]
        constructor
        · rintro ⟨listed, fresh⟩
          exact ⟨Or.inr listed, fresh⟩
        · rintro ⟨rfl | listed, fresh⟩
          · exact absurd known fresh
          · exact ⟨listed, fresh⟩
      · rw [marked, mem_cons]
        constructor
        · rintro (before | listed)
          · exact Or.inl before
          · exact Or.inr (Or.inr listed)
        · rintro (before | rfl | listed)
          · exact Or.inl before
          · exact Or.inl known
          · exact Or.inr listed
    next unknown =>
      rcases ih (head :: resolved) with ⟨distinct, drained, marked⟩
      refine ⟨?_, fun oid => ?_, fun oid => ?_⟩
      · refine nodup_cons.mpr ⟨fun again => ?_, distinct⟩
        exact ((drained head).mp again).2 mem_cons_self
      · rw [mem_cons, drained, mem_cons, mem_cons, not_or]
        constructor
        · rintro (rfl | ⟨listed, -, fresh⟩)
          · exact ⟨Or.inl rfl, unknown⟩
          · exact ⟨Or.inr listed, fresh⟩
        · rintro ⟨rfl | listed, fresh⟩
          · exact Or.inl rfl
          · by_cases same : oid = head
            · exact Or.inl same
            · exact Or.inr ⟨listed, same, fresh⟩
      · rw [marked, mem_cons, mem_cons, or_assoc, or_left_comm]

namespace Storage

variable {storage : Storage}

def isKind (storage : Storage) (kind : Kind) (oid : ObjectId) : Bool :=
  (storage.metas oid).any fun found => found.kind = kind

def peelTarget (storage : Storage) (oid : ObjectId) : Option ObjectId :=
  if storage.isKind .tag oid then
    match storage.tags.lookup oid with
    | some (.ok (.tag target)) => some target
    | _ => none
  else none

def Peels (storage : Storage) (oid target : ObjectId) : Prop :=
  storage.peelTarget oid = some target

def Resolved (storage : Storage) (wants : List ObjectId) (oid : ObjectId) : Prop :=
  ∃ want ∈ wants, ReflTransGen storage.Peels want oid

def looseOf (storage : Storage) (oid : ObjectId) : Option LooseWant :=
  ((storage.metas oid).filter fun found => found.kind = .blob).map (⟨oid, ·⟩)

def split (storage : Storage) (oids : List ObjectId) : ResolvedWants where
  commitWants := oids.filter (storage.isKind .commit)
  tagObjects := oids.filter (storage.isKind .tag)
  looseWants := oids.filterMap storage.looseOf

theorem resolveOne_eq_ok {before after : ResolvedWants} {pending next : List ObjectId}
    {oid : ObjectId} (resolved : storage.resolveOne (before, pending) oid = .ok (after, next)) :
    after.commitWants = before.commitWants ++ [oid].filter (storage.isKind .commit) ∧
      after.tagObjects = before.tagObjects ++ [oid].filter (storage.isKind .tag) ∧
      after.looseWants = before.looseWants ++ [oid].filterMap storage.looseOf ∧
      next = pending ++ [oid].filterMap storage.peelTarget := by
  rw [resolveOne] at resolved
  split at resolved
  next => cases resolved
  next found stored =>
    have known : storage.metas oid = some found := (Option.filter_eq_some_iff.mp stored).1
    rw [Except.bind_eq_ok_iff] at resolved
    rcases resolved with ⟨⟨wants, target⟩, classified, returned⟩
    cases returned
    rw [classifyWant] at classified
    cases kind : found.kind with
    | tag =>
      simp only [kind] at classified
      split at classified
      · cases classified
      · cases classified
      next target peeled =>
        cases classified
        simp [isKind, known, kind, looseOf, peelTarget, peeled, Option.filter]
      · cases classified
    | commit =>
      simp only [kind] at classified
      cases classified
      simp [isKind, known, kind, looseOf, peelTarget, Option.filter]
    | blob =>
      simp only [kind] at classified
      cases classified
      simp [isKind, known, kind, looseOf, peelTarget, Option.filter]
    | tree =>
      simp only [kind] at classified
      cases classified

theorem resolveOids_eq_ok {oids done pending next : List ObjectId} {after : ResolvedWants}
    (resolved : oids.foldlM storage.resolveOne (storage.split done, pending) = .ok (after, next)) :
    after = storage.split (done ++ oids) ∧ next = pending ++ oids.filterMap storage.peelTarget := by
  induction oids generalizing done pending with
  | nil =>
    cases resolved
    simp
  | cons oid oids ih =>
    rw [foldlM_cons, Except.bind_eq_ok_iff] at resolved
    rcases resolved with ⟨⟨between, waiting⟩, first, rest⟩
    rcases resolveOne_eq_ok first with ⟨commits, tags, loose, rfl⟩
    have grown : between = storage.split (done ++ [oid]) := by
      rcases between with ⟨betweenCommits, betweenTags, betweenLoose⟩
      simp only at commits tags loose
      rw [commits, tags, loose]
      simp only [split, filter_append, filterMap_append]
    rw [grown] at rest
    rcases ih rest with ⟨rfl, rfl⟩
    simp only [append_assoc, singleton_append, true_and]
    rw [← filterMap_append, singleton_append]

structure ResolveInv (storage : Storage) (wants done resolved pending : List ObjectId) : Prop where
  marked : ∀ oid, oid ∈ resolved ↔ oid ∈ done
  distinct : done.Nodup
  sound : ∀ oid, oid ∈ done ∨ oid ∈ pending → storage.Resolved wants oid
  started : ∀ want ∈ wants, want ∈ done ∨ want ∈ pending
  closed : ∀ oid ∈ done, ∀ target, storage.Peels oid target → target ∈ done ∨ target ∈ pending

theorem ResolveInv.round {wants done resolved pending : List ObjectId}
    (inv : storage.ResolveInv wants done resolved pending) :
    storage.ResolveInv wants (done ++ (drainPending resolved pending).1)
      (drainPending resolved pending).2
      ((drainPending resolved pending).1.filterMap storage.peelTarget) := by
  rcases drainPending_spec resolved pending with ⟨distinct, drained, marked⟩
  have inDone : ∀ oid, oid ∈ done ∨ oid ∈ pending →
      oid ∈ done ++ (drainPending resolved pending).1 := by
    intro oid found
    by_cases before : oid ∈ done
    · exact mem_append_left _ before
    · refine mem_append_right _ ((drained oid).mpr ⟨found.resolve_left before, ?_⟩)
      exact fun known => before ((inv.marked oid).mp known)
  refine ⟨?_, ?_, ?_, ?_, ?_⟩
  · intro oid
    rw [marked, inv.marked, mem_append, drained, inv.marked]
    tauto
  · refine nodup_append.mpr ⟨inv.distinct, distinct, ?_⟩
    rintro oid before _ now rfl
    exact ((drained oid).mp now).2 ((inv.marked oid).mpr before)
  · have doneSound : ∀ oid, oid ∈ done ++ (drainPending resolved pending).1 →
        storage.Resolved wants oid := by
      intro oid found
      rcases mem_append.mp found with before | now
      · exact inv.sound oid (Or.inl before)
      · exact inv.sound oid (Or.inr ((drained oid).mp now).1)
    rintro oid (found | waiting)
    · exact doneSound oid found
    · rcases mem_filterMap.mp waiting with ⟨tag, drainedTag, peels⟩
      rcases doneSound tag (mem_append_right _ drainedTag) with ⟨want, wanted, path⟩
      exact ⟨want, wanted, path.tail peels⟩
  · exact fun want wanted => Or.inl (inDone want (inv.started want wanted))
  · intro oid found target peels
    rcases mem_append.mp found with before | now
    · exact Or.inl (inDone target (inv.closed oid before target peels))
    · exact Or.inr (mem_filterMap.mpr ⟨oid, now, peels⟩)

theorem Peels.mem_keys {oid target : ObjectId} (peels : storage.Peels oid target) :
    oid ∈ storage.tags.keys := by
  rw [Peels, peelTarget] at peels
  split at peels
  next =>
    split at peels
    next found => exact AList.lookup_isSome.mp (by rw [found]; rfl)
    next => cases peels
  next => cases peels

theorem resolveRounds_eq_ok {rounds : ℕ} {wants done resolved pending : List ObjectId}
    {result : ResolvedWants} (inv : storage.ResolveInv wants done resolved pending)
    (enough : pending ≠ [] → (storage.tags.keys.toFinset \ done.toFinset).card < rounds)
    (run : storage.resolveRounds rounds resolved pending (storage.split done) = .ok result) :
    ∃ settled, storage.ResolveInv wants settled settled [] ∧ result = storage.split settled := by
  induction rounds generalizing done resolved pending with
  | zero =>
    obtain rfl : pending = [] := by
      by_contra more
      exact absurd (enough more) (Nat.not_lt_zero _)
    cases run
    exact ⟨done, ⟨fun _ => Iff.rfl, inv.distinct, inv.sound, inv.started, inv.closed⟩, rfl⟩
  | succ rounds ih =>
    rw [resolveRounds] at run
    split at run
    next empty =>
      obtain rfl : pending = [] := List.isEmpty_iff.mp empty
      cases run
      exact ⟨done, ⟨fun _ => Iff.rfl, inv.distinct, inv.sound, inv.started, inv.closed⟩, rfl⟩
    next more =>
      rw [Except.bind_eq_ok_iff] at run
      rcases run with ⟨⟨after, next⟩, resolvedOids, rest⟩
      rcases resolveOids_eq_ok resolvedOids with ⟨rfl, rfl⟩
      rw [nil_append] at rest
      refine ih inv.round (fun goesOn => ?_) rest
      have step := enough (by simpa using more)
      rcases exists_mem_of_ne_nil _ goesOn with ⟨target, waiting⟩
      rcases mem_filterMap.mp waiting with ⟨tag, drained, peels⟩
      have unmet : tag ∉ done := fun before =>
        (((drainPending_spec resolved pending).2.1 tag).mp drained).2
          ((inv.marked tag).mpr before)
      have fewer : (storage.tags.keys.toFinset \
          (done ++ (drainPending resolved pending).1).toFinset).card <
          (storage.tags.keys.toFinset \ done.toFinset).card := by
        refine Finset.card_lt_card (Finset.ssubset_iff_of_subset ?_ |>.mpr ⟨tag, ?_, ?_⟩)
        · refine Finset.sdiff_subset_sdiff le_rfl fun oid before => ?_
          rw [mem_toFinset] at before ⊢
          exact mem_append_left _ before
        · simp [Peels.mem_keys peels, unmet]
        · simp [drained]
      omega

theorem resolveWants_eq_ok {wants : List ObjectId} {result : ResolvedWants}
    (run : storage.resolveWants wants = .ok result) :
    ∃ settled : List ObjectId, settled.Nodup ∧
      (∀ oid, oid ∈ settled ↔ storage.Resolved wants oid) ∧ result = storage.split settled := by
  have starts : storage.ResolveInv wants [] [] wants := by
    refine ⟨fun _ => Iff.rfl, nodup_nil, ?_, fun _ => Or.inr, fun _ found => by cases found⟩
    rintro oid (found | waiting)
    · cases found
    · exact ⟨oid, waiting, .refl⟩
  have enough : wants ≠ [] → (storage.tags.keys.toFinset \
      ([] : List ObjectId).toFinset).card < storage.tags.keys.length + 2 := by
    intro _
    have short := toFinset_card_le storage.tags.keys
    simp only [toFinset_nil, Finset.sdiff_empty]
    omega
  rcases resolveRounds_eq_ok starts enough run with ⟨settled, ends, rfl⟩
  refine ⟨settled, ends.distinct, fun oid => ⟨fun found => ends.sound oid (Or.inl found), ?_⟩, rfl⟩
  rintro ⟨want, wanted, path⟩
  have closed : ∀ oid ∈ settled, ∀ target, storage.Peels oid target → target ∈ settled :=
    fun oid found target peels =>
      (ends.closed oid found target peels).resolve_right not_mem_nil
  induction path with
  | refl => exact (ends.started want wanted).resolve_right not_mem_nil
  | tail _ peels ih => exact closed _ ih _ peels

end Storage

end Enroute
