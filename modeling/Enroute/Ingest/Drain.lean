import Enroute.Ingest.ResolveSpec

/-!
# The driver's invariant

Every entry is in one place at most: identified, in flight, ready, or waiting for an object by its
id. It is in one of the first three exactly when its base is at hand, which is what makes the driver
complete, and what it was given as a base is the base its chain has.
-/

namespace Enroute.Resolve

open List

variable [ObjectCodec] {entries : List ScannedEntry} {pack : Bytes}
  {held : ObjectId → Option (Kind × Bytes)} {state : Draining}

omit [ObjectCodec] in
/-- Whether what an entry needs is at hand: nothing, an entry that has landed, or an object that is
held or has landed. -/
def AtHand (held : ObjectId → Option (Kind × Bytes)) (history : List (ℕ × Done)) :
    EntryBase → Prop
  | .whole _ => True
  | .inPack below => below ∈ history.map Prod.fst
  | .ref oid => held oid ≠ none ∨ ∃ landed ∈ history, landed.2.sha = oid

def Draining.started (state : Draining) : List ℕ :=
  state.history.map Prod.fst ++ (state.inFlight.map Running.at_ ++ state.ready.map Pending.at_)

structure Sound (entries : List ScannedEntry) (pack : Bytes)
    (held : ObjectId → Option (Kind × Bytes)) (state : Draining) : Prop where
  once : state.started.Nodup
  /-- An entry was started exactly when its base was at hand. -/
  started : ∀ at_, at_ ∈ state.started ↔
    ∃ entry, entries[at_]? = some entry ∧ AtHand held state.history entry.base
  waiting : ∀ oid at_, at_ ∈ (state.byId.lookup oid).getD [] ↔
    (∃ entry, entries[at_]? = some entry ∧ WaitsFor held entry oid) ∧ at_ ∉ state.started
  waitingOnce : ∀ oid, ((state.byId.lookup oid).getD []).Nodup
  ready : ∀ pending ∈ state.ready, HasBase entries pack held pending.at_ pending.base
  inFlight : ∀ running ∈ state.inFlight, HasBase entries pack held running.at_ running.job.base ∧
    identifyAt entries pack running.at_ running.job.base = identify running.job
  landed : ∀ landed ∈ state.history, Identifies entries pack held landed.1 landed.2 ∧
    state.oids[landed.1]? = some landed.2.sha
  count : state.identified = state.history.length
  length : state.oids.length = entries.length

/-! ### Filling the window -/

/-- What filling the window does: some of the ready entries go in flight, all of them while nothing
is. -/
theorem fill_eq_ok {ready rest : List Pending} {inFlight filled : List Running} {bytes total : ℕ}
    (fills : fill entries pack ready inFlight bytes = .ok (rest, filled, total)) :
    (∃ moved jobs, ready = moved ++ rest ∧ filled = inFlight ++ jobs ∧
      List.Forall₂ (fun pending running => running.at_ = pending.at_ ∧
        running.job.base = pending.base ∧
        identifyAt entries pack pending.at_ pending.base = identify running.job) moved jobs) ∧
      (filled = [] → rest = []) := by
  induction ready generalizing inFlight bytes with
  | nil =>
    cases fills
    exact ⟨⟨[], [], rfl, (append_nil _).symm, .nil⟩, fun _ => rfl⟩
  | cons pending ready ih =>
    rw [fill] at fills
    split_ifs at fills with room
    · cases isEntry : entries[pending.at_]? with
      | none =>
        rw [isEntry] at fills
        cases fills
      | some entry =>
        rw [isEntry] at fills
        rcases Except.bind_eq_ok_iff.mp fills with ⟨raw, isRaw, fills⟩
        rcases ih fills with ⟨⟨moved, jobs, isReady, isFilled, moves⟩, drained⟩
        refine ⟨⟨pending :: moved,
          ⟨pending.at_, costOf entry pending.base, ⟨raw, entry, pending.base⟩⟩ :: jobs,
          congrArg (pending :: ·) isReady, ?_, .cons ⟨rfl, rfl, ?_⟩ moves⟩, drained⟩
        · rw [isFilled, append_assoc]
          rfl
        · rw [identifyAt, isEntry]
          simp only [isRaw, Except.ok_bind]
    · cases fills
      refine ⟨⟨[], [], rfl, (append_nil _).symm, .nil⟩, fun empty => ?_⟩
      rw [empty] at room
      exact absurd ⟨by decide, Or.inl rfl⟩ room

theorem fill_eq_error {ready : List Pending} {inFlight : List Running} {bytes : ℕ}
    {failure : String} (fails : fill entries pack ready inFlight bytes = .error failure) :
    ∃ pending ∈ ready, identifyAt entries pack pending.at_ pending.base = .error failure := by
  induction ready generalizing inFlight bytes with
  | nil => cases fails
  | cons pending ready ih =>
    rw [fill] at fails
    split_ifs at fails with room
    cases isEntry : entries[pending.at_]? with
    | none =>
      rw [isEntry] at fails
      refine ⟨pending, mem_cons_self, ?_⟩
      rw [identifyAt, isEntry]
      cases fails
      rfl
    | some entry =>
      rw [isEntry] at fails
      cases isRaw : readSpan pack entry.entry with
      | error short =>
        simp only [isRaw] at fails
        refine ⟨pending, mem_cons_self, ?_⟩
        rw [identifyAt, isEntry]
        simp only [isRaw]
        cases fails
        rfl
      | ok raw =>
        simp only [isRaw] at fails
        rcases ih fails with ⟨other, isOther, otherFails⟩
        exact ⟨other, mem_cons_of_mem _ isOther, otherFails⟩

theorem Sound.fill (sound : Sound entries pack held state) {rest : List Pending}
    {filled : List Running} {total : ℕ}
    (fills : fill entries pack state.ready state.inFlight state.inFlightBytes =
      .ok (rest, filled, total)) :
    Sound entries pack held { state with ready := rest, inFlight := filled, inFlightBytes := total } := by
  rcases (fill_eq_ok fills).1 with ⟨moved, jobs, isReady, isFilled, moves⟩
  have sameAt : jobs.map Running.at_ = moved.map Pending.at_ := by
    clear isReady isFilled
    induction moves with
    | nil => rfl
    | cons move _ ih => rw [map_cons, map_cons, move.1, ih]
  have same : ({ state with ready := rest, inFlight := filled, inFlightBytes := total } :
      Draining).started = state.started := by
    simp only [Draining.started, isFilled, isReady, map_append, sameAt, append_assoc]
  refine ⟨same ▸ sound.once, fun at_ => same ▸ sound.started at_,
    fun oid at_ => same ▸ sound.waiting oid at_, sound.waitingOnce, fun pending listed => ?_,
    fun running listed => ?_, sound.landed, sound.count, sound.length⟩
  · exact sound.ready pending (isReady ▸ mem_append_right _ listed)
  · rw [isFilled] at listed
    rcases mem_append.mp listed with before | isMoved
    · exact sound.inFlight running before
    · rcases getElem_of_mem isMoved with ⟨position, inJobs, rfl⟩
      have inMoved : position < moved.length := moves.length_eq ▸ inJobs
      rcases moves.get inMoved inJobs with ⟨isAt, isBase, identifies⟩
      simp only [get_eq_getElem] at isAt isBase identifies
      have was := sound.ready moved[position]
        (isReady ▸ mem_append_left _ (getElem_mem inMoved))
      rw [isAt, isBase]
      exact ⟨was, identifies⟩

/-! ### Landing -/

omit [ObjectCodec] in
theorem next_eq_none_iff {turn : ℕ} {inFlight : List Running} :
    next turn inFlight = none ↔ inFlight = [] := by
  rw [next, Option.map_eq_none_iff, List.getElem?_eq_none_iff]
  constructor
  · intro le
    by_contra some_
    exact absurd (Nat.mod_lt turn (length_pos_of_ne_nil some_)) (not_lt.mpr le)
  · rintro rfl
    exact Nat.zero_le _

omit [ObjectCodec] in
theorem perm_of_next {turn : ℕ} {inFlight others : List Running} {ended : Running}
    (isNext : next turn inFlight = some (ended, others)) : (ended :: others).Perm inFlight := by
  rw [next, Option.map_eq_some_iff] at isNext
  rcases isNext with ⟨found, isFound, same⟩
  rw [Prod.mk.injEq] at same
  rcases List.getElem?_eq_some_iff.mp isFound with ⟨inside, isElement⟩
  rw [← same.1, ← same.2, ← isElement]
  exact getElem_cons_eraseIdx_perm inside

section Landing

variable {ended : Running} {others : List Running} {done : Done}

omit [ObjectCodec] in
theorem started_land (byIndex : List (List ℕ)) (isEnded : (ended :: others).Perm state.inFlight)
    (done : Done) :
    (land byIndex state ended others done).started.Perm
      (state.started ++ ((byIndex[ended.at_]?).getD [] ++ (state.byId.lookup done.sha).getD [])) := by
  have same : ((ended :: others).map Running.at_).Perm (state.inFlight.map Running.at_) :=
    isEnded.map _
  simp only [land, Draining.started]
  generalize (byIndex[ended.at_]?).getD [] ++ (state.byId.lookup done.sha).getD [] = unblocked
  have names : (unblocked.map fun blocked => Pending.delta blocked done.kind done.content).map
      Pending.at_ = unblocked := by
    rw [map_map]
    exact map_id _
  rw [map_append, map_append, map_reverse, names]
  rw [← Multiset.coe_eq_coe] at same ⊢
  simp only [← Multiset.coe_add, Multiset.coe_reverse, map_cons, map_nil,
    ← Multiset.cons_coe, ← Multiset.singleton_add] at same ⊢
  rw [← same]
  simp only [Multiset.coe_nil, add_zero]
  abel

omit [ObjectCodec] in
theorem AtHand.mono {history : List (ℕ × Done)} {base : EntryBase} (landed : ℕ × Done)
    (atHand : AtHand held history base) : AtHand held (history ++ [landed]) base := by
  cases base with
  | whole kind => trivial
  | inPack below =>
    rw [AtHand, map_append]
    exact mem_append_left _ atHand
  | ref oid =>
    rcases atHand with isHeld | ⟨before, isBefore, isOid⟩
    · exact Or.inl isHeld
    · exact Or.inr ⟨before, mem_append_left _ isBefore, isOid⟩

theorem Sound.land (sound : Sound entries pack held state)
    (isEnded : (ended :: others).Perm state.inFlight) (identified : identify ended.job = .ok done) :
    Sound entries pack held (land (dependentsByIndex entries) state ended others done) := by
  have isRunning : ended ∈ state.inFlight := isEnded.mem_iff.mp mem_cons_self
  rcases sound.inFlight ended isRunning with ⟨hasBase, isWork⟩
  have identifiedAt := isWork.trans identified
  have wasStarted : ended.at_ ∈ state.started :=
    mem_append_right _ (mem_append_left _ (mem_map_of_mem isRunning))
  rcases (sound.started _).mp wasStarted with ⟨endedEntry, isEndedEntry, -⟩
  have inside : ended.at_ < entries.length := (List.getElem?_eq_some_iff.mp isEndedEntry).1
  have notLanded : ended.at_ ∉ state.history.map Prod.fst := by
    intro wasLanded
    exact (nodup_append.mp sound.once).2.2 _ wasLanded _
      (mem_append_left _ (mem_map_of_mem isRunning)) rfl
  have perm := started_land (dependentsByIndex entries) isEnded done
  have hangs : ∀ {blocked}, blocked ∈ ((dependentsByIndex entries)[ended.at_]?).getD [] ↔
      ∃ entry, entries[blocked]? = some entry ∧ entry.base = .inPack ended.at_ :=
    mem_dependentsByIndex inside
  have waits := sound.waiting done.sha
  have listed : ∀ at_, at_ ∈ (Resolve.land (dependentsByIndex entries) state ended others
      done).started ↔ at_ ∈ state.started ∨ at_ ∈ ((dependentsByIndex entries)[ended.at_]?).getD [] ∨
        at_ ∈ (state.byId.lookup done.sha).getD [] := by
    intro at_
    rw [perm.mem_iff, mem_append, mem_append]
  refine ⟨?_, fun at_ => ?_, fun oid at_ => ?_, fun oid => ?_, fun pending isPending => ?_,
    fun running isRunning => ?_, fun landed isLanded => ?_, ?_, ?_⟩
  · rw [perm.nodup_iff]
    refine List.Nodup.append sound.once (List.Nodup.append ?_ (sound.waitingOnce _) ?_) ?_
    · rw [getD_dependentsByIndex inside]
      exact nodup_zipIdx_filter _
    · intro blocked isHanging isWaiting
      rcases hangs.mp isHanging with ⟨entry, isEntry, isBase⟩
      rcases ((waits blocked).mp isWaiting).1 with ⟨other, isOther, isRef, -⟩
      rw [isEntry, Option.some.injEq] at isOther
      rw [← isOther, isBase] at isRef
      cases isRef
    · intro at_ isStarted isUnblocked
      rcases mem_append.mp isUnblocked with isHanging | isWaiting
      · rcases hangs.mp isHanging with ⟨entry, isEntry, isBase⟩
        rcases (sound.started at_).mp isStarted with ⟨other, isOther, atHand⟩
        rw [isEntry, Option.some.injEq] at isOther
        rw [← isOther, isBase] at atHand
        exact notLanded atHand
      · exact ((waits at_).mp isWaiting).2 isStarted
  · rw [listed]
    constructor
    · rintro (isStarted | isHanging | isWaiting)
      · rcases (sound.started at_).mp isStarted with ⟨entry, isEntry, atHand⟩
        exact ⟨entry, isEntry, atHand.mono _⟩
      · rcases hangs.mp isHanging with ⟨entry, isEntry, isBase⟩
        refine ⟨entry, isEntry, ?_⟩
        rw [isBase, AtHand, Resolve.land, map_append]
        exact mem_append_right _ mem_cons_self
      · rcases ((waits at_).mp isWaiting).1 with ⟨entry, isEntry, isRef, -⟩
        refine ⟨entry, isEntry, ?_⟩
        rw [isRef]
        exact Or.inr ⟨_, mem_append_right _ mem_cons_self, rfl⟩
    · rintro ⟨entry, isEntry, atHand⟩
      by_cases before : AtHand held state.history entry.base
      · exact Or.inl ((sound.started at_).mpr ⟨entry, isEntry, before⟩)
      · refine Or.inr ?_
        cases isBase : entry.base with
        | whole kind =>
          rw [isBase] at before
          exact absurd trivial before
        | inPack below =>
          rw [isBase] at atHand before
          rw [AtHand, Resolve.land, map_append, mem_append] at atHand
          rcases atHand with early | isEndedAt
          · exact absurd early before
          · rw [map_singleton, mem_singleton] at isEndedAt
            exact Or.inl (hangs.mpr ⟨entry, isEntry, isBase.trans (isEndedAt ▸ rfl)⟩)
        | ref oid =>
          rw [isBase] at atHand before
          have noneHeld : held oid = none := by_contra fun isHeld => before (Or.inl isHeld)
          rcases atHand with isHeld | ⟨landed, isLanded, isOid⟩
          · exact absurd noneHeld isHeld
          · rcases mem_append.mp isLanded with early | isNow
            · exact absurd (Or.inr ⟨landed, early, isOid⟩) before
            · rw [mem_singleton.mp isNow] at isOid
              subst isOid
              refine Or.inr ((waits at_).mpr ⟨⟨entry, isEntry, isBase, noneHeld⟩, ?_⟩)
              intro isStarted
              rcases (sound.started at_).mp isStarted with ⟨other, isOther, early⟩
              rw [isEntry, Option.some.injEq] at isOther
              rw [← isOther, isBase] at early
              exact before early
  · rw [listed]
    by_cases same : oid = done.sha
    · subst same
      simp only [Resolve.land, AList.lookup_erase, Option.getD_none]
      refine iff_of_false not_mem_nil ?_
      rintro ⟨waiting, notStarted⟩
      rw [not_or, not_or] at notStarted
      exact notStarted.2.2 ((waits at_).mpr ⟨waiting, notStarted.1⟩)
    · simp only [Resolve.land, AList.lookup_erase_ne same]
      rw [sound.waiting]
      refine and_congr_right fun waiting => not_congr (Iff.symm (or_iff_left ?_))
      rcases waiting with ⟨entry, isEntry, isRef, -⟩
      rintro (isHanging | isWaiting)
      · rcases hangs.mp isHanging with ⟨other, isOther, isBase⟩
        rw [isEntry, Option.some.injEq] at isOther
        rw [← isOther, isRef] at isBase
        cases isBase
      · rcases ((waits at_).mp isWaiting).1 with ⟨other, isOther, isOtherRef, -⟩
        rw [isEntry, Option.some.injEq] at isOther
        rw [← isOther, isRef, EntryBase.ref.injEq] at isOtherRef
        exact same isOtherRef
  · by_cases same : oid = done.sha
    · subst same
      simp only [Resolve.land, AList.lookup_erase, Option.getD_none]
      exact nodup_nil
    · simp only [Resolve.land, AList.lookup_erase_ne same]
      exact sound.waitingOnce oid
  · rcases mem_append.mp isPending with isUnblocked | before
    · rw [mem_reverse, mem_map] at isUnblocked
      rcases isUnblocked with ⟨blocked, isBlocked, rfl⟩
      rcases mem_append.mp isBlocked with isHanging | isWaiting
      · rcases hangs.mp isHanging with ⟨entry, isEntry, isBase⟩
        exact .inPack isEntry isBase hasBase identifiedAt
      · rcases ((waits blocked).mp isWaiting).1 with ⟨entry, isEntry, isRef, noneHeld⟩
        exact .ref isEntry isRef noneHeld hasBase identifiedAt
    · exact sound.ready pending before
  · exact sound.inFlight running (isEnded.mem_iff.mp (mem_cons_of_mem _ isRunning))
  · rcases mem_append.mp isLanded with before | isNow
    · rcases sound.landed landed before with ⟨identifies, isOid⟩
      have different : ended.at_ ≠ landed.1 := fun same =>
        notLanded (same ▸ mem_map_of_mem before)
      refine ⟨identifies, ?_⟩
      simp only [Resolve.land, List.getElem?_set_ne different, isOid]
    · rw [mem_singleton.mp isNow]
      refine ⟨⟨_, hasBase, identifiedAt⟩, ?_⟩
      simp only [Resolve.land]
      rw [List.getElem?_set_self (by rwa [sound.length])]
  · simp only [Resolve.land, sound.count, length_append, length_singleton]
  · simp only [Resolve.land, length_set, sound.length]

end Landing

/-! ### The start -/

omit [ObjectCodec] in
theorem at_of_rootOf {located : ScannedEntry × ℕ} {pending : Pending}
    (isRoot : rootOf held located = some pending) : pending.at_ = located.2 := by
  rw [rootOf] at isRoot
  split at isRoot
  · cases isRoot
    rfl
  · cases isRoot
  · rcases Option.map_eq_some_iff.mp isRoot with ⟨object, -, rfl⟩
    rfl

omit [ObjectCodec] in
theorem exists_rootOf_iff {located : ScannedEntry × ℕ} :
    (∃ pending, rootOf held located = some pending) ↔ AtHand held [] located.1.base := by
  cases isBase : located.1.base with
  | whole kind => simp [rootOf, isBase, AtHand]
  | inPack below => simp [rootOf, isBase, AtHand]
  | ref oid => simp [rootOf, isBase, AtHand, Option.ne_none_iff_exists, eq_comm]

theorem hasBase_of_rootOf {entry : ScannedEntry} {at_ : ℕ} {pending : Pending}
    (isEntry : entries[at_]? = some entry) (isRoot : rootOf held (entry, at_) = some pending) :
    HasBase entries pack held at_ pending.base := by
  cases isBase : entry.base with
  | whole kind =>
    simp only [rootOf, isBase, Option.some.injEq] at isRoot
    subst isRoot
    exact .whole isEntry isBase
  | inPack below =>
    simp only [rootOf, isBase] at isRoot
    cases isRoot
  | ref oid =>
    simp only [rootOf, isBase, Option.map_eq_some_iff] at isRoot
    rcases isRoot with ⟨object, isHeld, rfl⟩
    exact .stored isEntry isBase isHeld

omit [ObjectCodec] in
theorem mem_namedBases {entry : ScannedEntry} {oid : ObjectId} (listed : entry ∈ entries)
    (isBase : entry.base = .ref oid) : oid ∈ namedBases entries :=
  mem_filterMap.mpr ⟨entry, listed, by rw [isBase]⟩

variable (entries pack held) in
theorem sound_start (resolved : ObjectHashMap ObjectRefs) :
    Sound entries pack held (start entries held resolved) := by
  have areHeld : ∀ located ∈ entries.zipIdx, ∀ oid, located.1.base = .ref oid →
      (fetchMany held (namedBases entries)).lookup oid = held oid := fun located listed oid isBase =>
    lookup_fetchMany (mem_namedBases (fst_mem_of_mem_zipIdx listed) isBase)
  rcases foldl_seed entries.zipIdx areHeld ([], ∅) with ⟨isReady, isWaiting⟩
  have ready : (start entries held resolved).ready = entries.zipIdx.filterMap (rootOf held) := isReady
  have waiting : ∀ oid, ((start entries held resolved).byId.lookup oid).getD [] =
      (entries.zipIdx.filter fun one => WaitsFor held one.1 oid).map Prod.snd := by
    intro oid
    exact (isWaiting oid).trans (by simp)
  have started : (start entries held resolved).started =
      (entries.zipIdx.filterMap (rootOf held)).map Pending.at_ := by
    rw [Draining.started, ready]
    rfl
  have mem_started : ∀ at_, at_ ∈ (start entries held resolved).started ↔
      ∃ entry, entries[at_]? = some entry ∧ AtHand held [] entry.base := by
    intro at_
    rw [started]
    constructor
    · intro listed
      rcases mem_map.mp listed with ⟨pending, isPending, rfl⟩
      rcases mem_filterMap.mp isPending with ⟨located, isLocated, isRoot⟩
      refine ⟨located.1, ?_, exists_rootOf_iff.mp ⟨pending, isRoot⟩⟩
      rw [at_of_rootOf isRoot]
      exact mem_zipIdx_iff_getElem?.mp isLocated
    · rintro ⟨entry, isEntry, atHand⟩
      rcases (@exists_rootOf_iff held (entry, at_)).mpr atHand with ⟨pending, isRoot⟩
      exact mem_map.mpr ⟨pending, mem_filterMap.mpr
        ⟨(entry, at_), mem_zipIdx_iff_getElem?.mpr isEntry, isRoot⟩, at_of_rootOf isRoot⟩
  refine ⟨?_, mem_started, fun oid at_ => ?_, fun oid => ?_, fun pending isPending => ?_,
    fun running isRunning => ?_, fun landed isLanded => ?_, rfl, length_replicate⟩
  · rw [started]
    refine Stream.nodup_map_filterMap ?_ fun located pending => at_of_rootOf
    rw [zipIdx_map_snd]
    exact nodup_range'
  · rw [waiting, mem_started]
    simp only [mem_map, mem_filter, decide_eq_true_eq, Prod.exists, exists_eq_right,
      mem_zipIdx_iff_getElem?]
    constructor
    · rintro ⟨entry, isEntry, waits⟩
      refine ⟨⟨entry, isEntry, waits⟩, ?_⟩
      rintro ⟨other, isOther, atHand⟩
      rw [isEntry, Option.some.injEq] at isOther
      rw [← isOther, waits.1] at atHand
      rcases atHand with isHeld | ⟨landed, isLanded, -⟩
      · exact isHeld waits.2
      · cases isLanded
    · rintro ⟨waits, -⟩
      exact waits
  · rw [waiting]
    exact nodup_zipIdx_filter _
  · rw [ready] at isPending
    rcases mem_filterMap.mp isPending with ⟨located, isLocated, isRoot⟩
    rw [at_of_rootOf isRoot]
    exact hasBase_of_rootOf (mem_zipIdx_iff_getElem?.mp isLocated) isRoot
  · cases isRunning
  · cases isLanded

end Enroute.Resolve
