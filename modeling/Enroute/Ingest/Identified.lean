import Enroute.Ingest.Drain

/-!
# What the driver ends with

Each job that lands is one entry more, so the driver ends. It ends well when nothing is left to run
and every entry has landed. If one has not, its chain goes down to an entry whose base is not at
hand, or the work on one of them fails; either way the pack has an entry that nothing identifies.
-/

namespace Enroute

open List

namespace Resolve

variable [ObjectCodec] {entries : List ScannedEntry} {pack : Bytes}
  {held : ObjectId → Option (Kind × Bytes)} {state : Draining}

def AllIdentifiable (entries : List ScannedEntry) (pack : Bytes)
    (held : ObjectId → Option (Kind × Bytes)) : Prop :=
  ∀ at_ < entries.length, ∃ done, Identifies entries pack held at_ done

variable {at_ : ℕ} {base : JobBase}

section

variable (sound : Sound entries pack held state)

include sound

theorem Sound.inside (isStarted : at_ ∈ state.started) : at_ < entries.length := by
  rcases (sound.started at_).mp isStarted with ⟨entry, isEntry, -⟩
  exact (List.getElem?_eq_some_iff.mp isEntry).1

theorem Sound.landedOnce : (state.history.map Prod.fst).Nodup :=
  (nodup_append.mp sound.once).1

theorem Sound.subperm : (state.history.map Prod.fst).Subperm (List.range entries.length) := by
  refine sound.landedOnce.subperm fun at_ listed => ?_
  exact mem_range.mpr (sound.inside (mem_append_left _ listed))

theorem Sound.length_le : state.history.length ≤ entries.length := by
  simpa using sound.subperm.length_le

end

theorem HasBase.inside (has : HasBase entries pack held at_ base) : at_ < entries.length := by
  cases has <;> exact (List.getElem?_eq_some_iff.mp (by assumption)).1

theorem not_allIdentifiable {failure : String} (injective : ObjectCodec.Injective)
    (has : HasBase entries pack held at_ base)
    (fails : identifyAt entries pack at_ base = .error failure) :
    ¬AllIdentifiable entries pack held := by
  intro all
  rcases all at_ has.inside with ⟨done, other, hasOther, identified⟩
  rw [← has.unique injective hasOther, fails] at identified
  cases identified

section

variable (sound : Sound entries pack held state) (injective : ObjectCodec.Injective)
  (noneReady : state.ready = []) (noneInFlight : state.inFlight = [])

include sound injective noneReady noneInFlight

theorem Sound.landed_of_hasBase (has : HasBase entries pack held at_ base) :
    at_ ∈ state.history.map Prod.fst := by
  have started : state.started = state.history.map Prod.fst := by
    simp [Draining.started, noneReady, noneInFlight]
  have landed : ∀ {at_ entry}, entries[at_]? = some entry →
      AtHand held state.history entry.base → at_ ∈ state.history.map Prod.fst :=
    fun isEntry atHand => started ▸ (sound.started _).mpr ⟨_, isEntry, atHand⟩
  induction has with
  | whole isEntry isBase => exact landed isEntry (by rw [isBase]; trivial)
  | inPack isEntry isBase _ _ below => exact landed isEntry (by rw [isBase]; exact below)
  | stored isEntry isBase isHeld =>
    refine landed isEntry ?_
    rw [isBase, AtHand, isHeld]
    exact Or.inl (Option.some_ne_none _)
  | @ref at_ below entry base done isEntry isBase _ has identified isBelow =>
    rcases mem_map.mp isBelow with ⟨before, isBefore, rfl⟩
    -- What landed there is what its chain comes to, so it has the id the delta names.
    have same := (sound.landed before isBefore).1.unique injective ⟨base, has, identified⟩
    refine landed isEntry ?_
    rw [isBase]
    exact Or.inr ⟨before, isBefore, congrArg Done.sha same⟩

theorem Sound.perm_range (all : AllIdentifiable entries pack held) :
    (state.history.map Prod.fst).Perm (List.range entries.length) := by
  refine List.Subperm.antisymm sound.subperm ?_
  refine nodup_range.subperm fun at_ listed => ?_
  rcases all at_ (mem_range.mp listed) with ⟨done, base, has, -⟩
  exact sound.landed_of_hasBase injective noneReady noneInFlight has

end

def Ends (entries : List ScannedEntry) (pack : Bytes) (held : ObjectId → Option (Kind × Bytes)) :
    Except String Draining → Prop
  | .ok final => Sound entries pack held final ∧ final.history.length = entries.length
  | .error _ => ¬AllIdentifiable entries pack held

theorem Sound.ends_allIdentified (sound : Sound entries pack held state)
    (injective : ObjectCodec.Injective) (noneReady : state.ready = [])
    (noneInFlight : state.inFlight = []) :
    Ends entries pack held
      ((allIdentified state.identified entries.length).map fun _ => state) := by
  rw [allIdentified]
  split_ifs with every
  · exact ⟨sound, sound.count ▸ every⟩
  · intro all
    have same := (sound.perm_range injective noneReady noneInFlight all).length_eq
    rw [length_map, length_range] at same
    exact every (sound.count.trans same)

theorem drain_ends (injective : ObjectCodec.Injective) (schedule : ℕ → ℕ) (fuel : ℕ)
    (sound : Sound entries pack held state)
    (enough : entries.length < fuel + state.history.length) :
    ∃ outcome, drain entries pack (dependentsByIndex entries) schedule fuel state = some outcome ∧
      Ends entries pack held outcome := by
  induction fuel generalizing state with
  | zero =>
    have le := sound.length_le
    omega
  | succ fuel ih =>
    rw [drain]
    cases fills : fill entries pack state.ready state.inFlight state.inFlightBytes with
    | error failure =>
      refine ⟨_, rfl, ?_⟩
      rcases fill_eq_error fills with ⟨pending, isPending, fails⟩
      exact not_allIdentifiable injective (sound.ready pending isPending) fails
    | ok filled =>
      rcases filled with ⟨ready, inFlight, inFlightBytes⟩
      have filledSound := sound.fill fills
      dsimp only
      cases isNext : next (schedule state.identified) inFlight with
      | none =>
        have noneInFlight := next_eq_none_iff.mp isNext
        exact ⟨_, rfl, filledSound.ends_allIdentified injective
          ((fill_eq_ok fills).2 noneInFlight) noneInFlight⟩
      | some taken =>
        rcases taken with ⟨ended, others⟩
        have isEnded := perm_of_next isNext
        dsimp only
        cases identified : identify ended.job with
        | error failure =>
          refine ⟨_, rfl, ?_⟩
          have isRunning : ended ∈ inFlight := isEnded.mem_iff.mp mem_cons_self
          rcases filledSound.inFlight ended isRunning with ⟨has, isWork⟩
          exact not_allIdentifiable injective has (isWork.trans identified)
        | ok done =>
          refine ih (filledSound.land isEnded identified) ?_
          simp only [land, length_append, length_singleton]
          omega

theorem Sound.every (sound : Sound entries pack held state)
    (whole : state.history.length = entries.length) :
    (state.history.map Prod.fst).Perm (List.range entries.length) ∧
      state.oids.length = entries.length ∧
      ∀ at_ < entries.length, ∃ done, Identifies entries pack held at_ done ∧
        state.oids[at_]? = some done.sha := by
  have perm : (state.history.map Prod.fst).Perm (List.range entries.length) := by
    refine sound.subperm.perm_of_length_le ?_
    rw [length_map, length_range, whole]
  refine ⟨perm, sound.length, fun at_ inside => ?_⟩
  rcases mem_map.mp (perm.mem_iff.mpr (mem_range.mpr inside)) with
    ⟨landed, isLanded, rfl⟩
  exact ⟨landed.2, sound.landed landed isLanded⟩

end Resolve

open Resolve

theorem every_of_identifyEntries [ObjectCodec] (injective : ObjectCodec.Injective)
    {entries : List ScannedEntry} {pack : Bytes} {held : ObjectId → Option (Kind × Bytes)}
    {resolved : ObjectHashMap ObjectRefs} {fuel : ℕ} {schedule : ℕ → ℕ} {final : Draining}
    (enough : entries.length < fuel)
    (succeeds : identifyEntries fuel schedule entries pack held resolved = some (.ok final)) :
    (final.history.map Prod.fst).Perm (List.range entries.length) ∧
      final.oids.length = entries.length ∧
      ∀ at_ < entries.length, ∃ done, Identifies entries pack held at_ done ∧
        final.oids[at_]? = some done.sha := by
  rcases drain_ends injective schedule fuel (sound_start entries pack held resolved)
    (Nat.lt_of_lt_of_le enough (Nat.le_add_right _ _)) with ⟨outcome, isOutcome, isEnd⟩
  rw [identifyEntries, isOutcome, Option.some.injEq] at succeeds
  rw [succeeds] at isEnd
  exact isEnd.1.every isEnd.2

/-- Every entry is identified once and whatever the order jobs end in: identification ends, it
succeeds exactly when every entry can be identified, and each entry then has the id of the content
its chain comes to, the same in every order. -/
theorem identify_entries_complete [ObjectCodec] (injective : ObjectCodec.Injective)
    (entries : List ScannedEntry) (pack : Bytes) (held : ObjectId → Option (Kind × Bytes)) (resolved : ObjectHashMap ObjectRefs)
    (fuel : ℕ) (enough : entries.length < fuel) :
    (∀ schedule, ∃ outcome,
      identifyEntries fuel schedule entries pack held resolved = some outcome ∧
        ((∃ final, outcome = .ok final) ↔
          ∀ at_ < entries.length, ∃ done, Identifies entries pack held at_ done)) ∧
      (∀ schedule final,
        identifyEntries fuel schedule entries pack held resolved = some (.ok final) →
          (final.history.map Prod.fst).Perm (List.range entries.length) ∧
            final.oids.length = entries.length ∧
            ∀ at_ < entries.length, ∃ done, Identifies entries pack held at_ done ∧
              final.oids[at_]? = some done.sha) ∧
      ∀ schedule other final otherFinal,
        identifyEntries fuel schedule entries pack held resolved = some (.ok final) →
          identifyEntries fuel other entries pack held resolved = some (.ok otherFinal) →
            final.oids = otherFinal.oids := by
  refine ⟨fun schedule => ?_, fun schedule final => every_of_identifyEntries injective enough,
    fun schedule other final otherFinal succeeds otherSucceeds => ?_⟩
  · rcases drain_ends injective schedule fuel (sound_start entries pack held resolved)
      (Nat.lt_of_lt_of_le enough (Nat.le_add_right _ _)) with ⟨outcome, isOutcome, isEnd⟩
    refine ⟨outcome, isOutcome, ?_⟩
    cases outcome with
    | error failure =>
      refine iff_of_false ?_ isEnd
      rintro ⟨final, isOk⟩
      cases isOk
    | ok final =>
      refine iff_of_true ⟨final, rfl⟩ fun at_ inside => ?_
      rcases (isEnd.1.every isEnd.2).2.2 at_ inside with ⟨done, identifies, -⟩
      exact ⟨done, identifies⟩
  · rcases every_of_identifyEntries injective enough succeeds with ⟨-, length, ids⟩
    rcases every_of_identifyEntries injective enough otherSucceeds with ⟨-, otherLength, otherIds⟩
    refine ext_getElem? fun at_ => ?_
    by_cases inside : at_ < entries.length
    · rcases ids at_ inside with ⟨done, identifies, isOid⟩
      rcases otherIds at_ inside with ⟨otherDone, otherIdentifies, isOtherOid⟩
      rw [isOid, isOtherOid, identifies.unique injective otherIdentifies]
    · rw [List.getElem?_eq_none (by omega), List.getElem?_eq_none (by omega)]

/-- Objects as they are, under ids that number them. -/
instance plainObjects : ObjectCodec where
  zlibDecompress bytes _ := .ok bytes
  hashLoose kind content := .ok (Encodable.encode (kind.ctorIdx, content.map UInt8.toNat) + 1)
  objectRefs _ _ := .ok .blob

theorem injective_plainObjects : ObjectCodec.Injective := by
  intro kind content other otherContent oid hashed otherHashed
  have same := hashed.trans otherHashed.symm
  simp only [hashLoose, Except.ok.injEq, Nat.add_right_cancel_iff, Encodable.encode_inj,
    Prod.mk.injEq] at same
  refine ⟨?_, map_injective_iff.mpr (fun _ _ => UInt8.toNat_inj.mp) same.2⟩
  cases kind <;> cases other <;> first | rfl | cases same.1

def deltaFirst : List ScannedEntry :=
  [⟨.ref 7, 4, ⟨0, 4⟩, 0⟩, ⟨.whole .blob, 0, ⟨4, 0⟩, 0⟩]

theorem identifies_deltaFirst : ∀ at_ < deltaFirst.length, ∃ done,
    Identifies deltaFirst [0, 1, 1, 66] (fun _ => none) at_ done := by
  have empty : HasBase deltaFirst [0, 1, 1, 66] (fun _ => none) 1 ⟨.blob, none⟩ := .whole rfl rfl
  have appended : HasBase deltaFirst [0, 1, 1, 66] (fun _ => none) 0 ⟨.blob, some []⟩ :=
    @HasBase.ref _ _ _ _ 0 1 _ _ ⟨7, .blob, [], .blob⟩ rfl rfl rfl empty rfl
  intro at_ inside
  match at_, inside with
  | 0, _ => exact ⟨⟨_, .blob, [66], .blob⟩, _, appended, rfl⟩
  | 1, _ => exact ⟨⟨7, .blob, [], .blob⟩, _, empty, rfl⟩

theorem identify_entries_complete_deltaFirst :
    ∃ final, identifyEntries 3 (fun _ => 0) deltaFirst [0, 1, 1, 66] (fun _ => none) ∅ =
        some (.ok final) ∧
      (final.history.map Prod.fst).Perm [0, 1] := by
  rcases identify_entries_complete injective_plainObjects deltaFirst [0, 1, 1, 66] (fun _ => none) ∅
    3 (by decide) with ⟨ends, every, -⟩
  rcases ends fun _ => 0 with ⟨outcome, isOutcome, succeeds⟩
  rcases succeeds.mpr identifies_deltaFirst with ⟨final, rfl⟩
  exact ⟨final, isOutcome, (every _ final isOutcome).1⟩

/-- The empty blob, and a delta against it by position whose header is for a base of one byte. -/
def misfitDelta : List ScannedEntry :=
  [⟨.whole .blob, 0, ⟨0, 0⟩, 0⟩, ⟨.inPack 0, 1, ⟨0, 1⟩, 0⟩]

/-- Every chain goes down to a whole entry, and still the work on one entry fails. -/
theorem misfit_delta_grounded :
    (∀ at_ < misfitDelta.length, ∃ base,
      HasBase misfitDelta [1] (fun _ => none) at_ base) ∧
      ∃ failure, identifyEntries 3 (fun _ => 0) misfitDelta [1] (fun _ => none) ∅ =
        some (.error failure) := by
  have empty : HasBase misfitDelta [1] (fun _ => none) 0 ⟨.blob, none⟩ := .whole rfl rfl
  refine ⟨fun at_ inside => ?_, _, rfl⟩
  match at_, inside with
  | 0, _ => exact ⟨_, empty⟩
  | 1, _ => exact ⟨_, @HasBase.inPack _ _ _ _ 1 0 _ _ ⟨7, .blob, [], .blob⟩ rfl rfl empty rfl⟩

end Enroute
