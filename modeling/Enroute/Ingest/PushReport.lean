import Enroute.Ingest.RefUpdates

/-!
# What a push reports

Outcomes travel from the ref store to the report through a map keyed by refname, and the report
takes each entry out of that map as it reads it. The map is filled by name and the report is
read by position, so the two agree as long as every name is asked for once. A second update of
a ref finds its entry gone, and the first one has read the answer the second one got.
-/

namespace Enroute

open List

section Report

variable (validName : String → Bool) (numbersCommit : ObjectId → Bool)
  (preRejected : RefMap PushRejection)

/-- What became of each update on its own: the rejection its ref already had, or what the ref
store answered this very update, given what the earlier ones left. -/
def fates : Refs → List RefUpdate → List (Except PushRejection Unit)
  | _, [] => []
  | refs, update :: updates =>
    match preRejected update.refname with
    | some rejection => .error rejection :: fates refs updates
    | none =>
      let applied := refs.apply validName numbersCommit update
      applied.2.result.mapError .refStore :: fates applied.1 updates

/-- The report answers every update, in order, with what became of it. -/
structure Truthful (refs : Refs) (updates : List RefUpdate)
    (outcomes : List RefUpdateOutcome) : Prop where
  inOrder : outcomes.map RefUpdateOutcome.refname = updates.map RefUpdate.refname
  ownFate : outcomes.map RefUpdateOutcome.result =
    fates validName numbersCommit preRejected refs updates
  known : ∀ outcome ∈ outcomes, outcome.result ≠ .error .internal

end Report

/-! ## The map on the way -/

def recordAnswer (results : RefMap (Except PushRejection Unit)) (answer : RefUpdateResult) :
    RefMap (Except PushRejection Unit) :=
  Function.update results answer.refname (some (answer.result.mapError .refStore))

theorem resultsByRef_eq (preRejected : RefMap PushRejection) (answers : List RefUpdateResult) :
    resultsByRef preRejected answers =
      answers.foldl recordAnswer fun refname => (preRejected refname).map .error :=
  rfl

theorem foldl_recordAnswer_of_not_mem {answers : List RefUpdateResult} {refname : String}
    (results : RefMap (Except PushRejection Unit))
    (unanswered : refname ∉ answers.map RefUpdateResult.refname) :
    answers.foldl recordAnswer results refname = results refname := by
  induction answers generalizing results with
  | nil => rfl
  | cons answer answers ih =>
    rw [map_cons, mem_cons, not_or] at unanswered
    rw [foldl_cons, ih _ unanswered.2, recordAnswer, Function.update_of_ne unanswered.1]

theorem takeOutcomes_map_refname (results : RefMap (Except PushRejection Unit))
    (updates : List RefUpdate) :
    (takeOutcomes results updates).map RefUpdateOutcome.refname =
      updates.map RefUpdate.refname := by
  induction updates generalizing results with
  | nil => rfl
  | cons update updates ih => rw [takeOutcomes, map_cons, ih, map_cons]

variable {updates : List RefUpdate}

theorem takeOutcomes_map_result (distinct : (updates.map RefUpdate.refname).Nodup)
    (results : RefMap (Except PushRejection Unit)) :
    (takeOutcomes results updates).map RefUpdateOutcome.result =
      updates.map fun update => (results update.refname).getD (.error .internal) := by
  induction updates generalizing results with
  | nil => rfl
  | cons head updates ih =>
    rw [map_cons, nodup_cons] at distinct
    rw [takeOutcomes, map_cons, ih distinct.2, map_cons, List.cons.injEq]
    refine ⟨rfl, ?_⟩
    apply map_congr_left
    intro update updateMem
    have different : update.refname ≠ head.refname := by
      intro same
      exact distinct.1 (same ▸ mem_map_of_mem updateMem)
    rw [Function.update_of_ne different]

theorem internal_of_taken {results : RefMap (Except PushRejection Unit)} {refname : String}
    (taken : results refname = none) (asked : refname ∈ updates.map RefUpdate.refname) :
    ∃ outcome ∈ takeOutcomes results updates, outcome.result = .error .internal := by
  rcases mem_map.mp asked with ⟨update, updateMem, rfl⟩
  rcases exists_takeOutcomes results updateMem with ⟨outcome, outcomeMem, -, found⟩
  refine ⟨outcome, outcomeMem, ?_⟩
  rw [found, taken, Option.getD_none]

theorem nodup_of_known {results : RefMap (Except PushRejection Unit)}
    (known : ∀ outcome ∈ takeOutcomes results updates, outcome.result ≠ .error .internal) :
    (updates.map RefUpdate.refname).Nodup := by
  induction updates generalizing results with
  | nil => exact nodup_nil
  | cons head updates ih =>
    rw [takeOutcomes, forall_mem_cons] at known
    rw [map_cons, nodup_cons]
    refine ⟨?_, ih known.2⟩
    intro again
    rcases internal_of_taken (Function.update_self head.refname none results) again with
      ⟨outcome, outcomeMem, internal⟩
    exact known.2 outcome outcomeMem internal

section Answers

variable {validName : String → Bool} {numbersCommit : ObjectId → Bool}
  {preRejected : RefMap PushRejection}

variable {updates : List RefUpdate}

theorem foldl_recordAnswer_eq_fates (distinct : (updates.map RefUpdate.refname).Nodup) (refs : Refs)
    {results : RefMap (Except PushRejection Unit)}
    (rejectedKnown : ∀ update ∈ updates, ∀ rejection,
      preRejected update.refname = some rejection →
        results update.refname = some (.error rejection)) :
    (updates.map fun update =>
      ((refs.updateRefs validName numbersCommit
        (updates.filter fun update => (preRejected update.refname).isNone)).2.foldl
          recordAnswer results update.refname).getD (.error .internal)) =
      fates validName numbersCommit preRejected refs updates := by
  induction updates generalizing refs results with
  | nil => rfl
  | cons head updates ih =>
    rw [map_cons, nodup_cons] at distinct
    rw [forall_mem_cons] at rejectedKnown
    -- No later answer is recorded under the name of the head.
    have settled (refs : Refs) (results : RefMap (Except PushRejection Unit)) :
        (refs.updateRefs validName numbersCommit
          (updates.filter fun update => (preRejected update.refname).isNone)).2.foldl
            recordAnswer results head.refname = results head.refname := by
      apply foldl_recordAnswer_of_not_mem
      rw [updateRefs_map_refname]
      intro again
      rcases mem_map.mp again with ⟨other, otherMem, same⟩
      exact distinct.1 (same ▸ mem_map_of_mem (mem_of_mem_filter otherMem))
    rw [map_cons, fates]
    cases rejection : preRejected head.refname with
    | some rejection =>
      rw [filter_cons_of_neg (by simp [rejection]), settled,
        rejectedKnown.1 _ ‹_›, Option.getD_some, ih distinct.2 refs rejectedKnown.2]
    | none =>
      rw [filter_cons_of_pos (by simp [rejection])]
      simp only [Refs.updateRefs, foldl_cons]
      have recorded : ∀ update ∈ updates, ∀ rejection,
          preRejected update.refname = some rejection →
            recordAnswer results (refs.apply validName numbersCommit head).2
              update.refname = some (.error rejection) := by
        intro update updateMem rejection known
        have different : update.refname ≠
            (refs.apply validName numbersCommit head).2.refname := by
          rw [Refs.apply_refname]
          intro same
          exact distinct.1 (same ▸ mem_map_of_mem updateMem)
        rw [recordAnswer, Function.update_of_ne different]
        exact rejectedKnown.2 update updateMem rejection known
      rw [settled, ih distinct.2 _ recorded, recordAnswer, Refs.apply_refname,
        Function.update_self, Option.getD_some]

theorem not_internal_of_mem_fates {refs : Refs} {fate : Except PushRejection Unit}
    (notGiven : ∀ update ∈ updates, preRejected update.refname ≠ some .internal)
    (fateMem : fate ∈ fates validName numbersCommit preRejected refs updates) :
    fate ≠ .error .internal := by
  induction updates generalizing refs with
  | nil => cases fateMem
  | cons head updates ih =>
    rw [forall_mem_cons] at notGiven
    rw [fates] at fateMem
    cases rejection : preRejected head.refname with
    | some rejection =>
      simp only [rejection, mem_cons] at fateMem
      rcases fateMem with rfl | later
      · rintro ⟨⟩
        exact notGiven.1 ‹_›
      · exact ih notGiven.2 later
    | none =>
      simp only [rejection, mem_cons] at fateMem
      rcases fateMem with rfl | later
      · cases (refs.apply validName numbersCommit head).2.result <;> rintro ⟨⟩
      · exact ih notGiven.2 later

variable (validName numbersCommit) in
theorem internal_of_given (refs : Refs) {update : RefUpdate} (updateMem : update ∈ updates)
    (given : preRejected update.refname = some .internal) :
    .error .internal ∈ fates validName numbersCommit preRejected refs updates := by
  induction updates generalizing refs with
  | nil => cases updateMem
  | cons head updates ih =>
    rw [fates]
    rcases mem_cons.mp updateMem with rfl | later
    · simp [given]
    · cases preRejected head.refname with
      | some rejection => exact mem_cons_of_mem _ (ih refs later)
      | none => exact mem_cons_of_mem _ (ih _ later)

end Answers

/-! ## When the report is truthful -/

/-- A push is told the truth about each of its updates exactly when it names every ref once and
no ref came rejected as an internal error. -/
theorem resolveRefUpdates_truthful_iff (validName : String → Bool) (world : PushWorld)
    (updates : List RefUpdate) (preRejected : RefMap PushRejection) :
    Truthful validName world.numbersCommit preRejected world.refs updates
        (resolveRefUpdates validName world updates preRejected).2.2 ↔
      (updates.map RefUpdate.refname).Nodup ∧
        ∀ update ∈ updates, preRejected update.refname ≠ some .internal := by
  constructor
  · intro truthful
    refine ⟨nodup_of_known truthful.known, ?_⟩
    intro update updateMem given
    have reported :=
      internal_of_given validName world.numbersCommit world.refs updateMem given
    rw [← truthful.ownFate] at reported
    rcases mem_map.mp reported with ⟨outcome, outcomeMem, internal⟩
    exact truthful.known outcome outcomeMem internal
  · rintro ⟨distinct, notGiven⟩
    have ownFate : ((resolveRefUpdates validName world updates preRejected).2.2).map
        RefUpdateOutcome.result =
          fates validName world.numbersCommit preRejected world.refs updates := by
      rw [resolveRefUpdates, takeOutcomes_map_result distinct, resultsByRef_eq]
      apply foldl_recordAnswer_eq_fates distinct
      intro update _ rejection known
      rw [known, Option.map_some]
    refine ⟨takeOutcomes_map_refname _ _, ownFate, ?_⟩
    intro outcome outcomeMem
    apply not_internal_of_mem_fates notGiven
    rw [← ownFate]
    exact mem_map_of_mem outcomeMem

/-- The branch is asked for twice and only the second update lands: the first one is reported
as landed, the second one as an internal error. -/
theorem doubledUpdates_misreported :
    ¬Truthful (fun _ => true) protectedWorld.numbersCommit (fun _ => none) protectedWorld.refs
      doubledUpdates
      (resolveRefUpdates (fun _ => true) protectedWorld doubledUpdates fun _ => none).2.2 ∧
    (resolveRefUpdates (fun _ => true) protectedWorld doubledUpdates fun _ => none).2.1 =
      [⟨"refs/heads/main", 3, 4⟩] ∧
    (resolveRefUpdates (fun _ => true) protectedWorld doubledUpdates fun _ => none).2.2.map
      RefUpdateOutcome.isOk = [true, false] := by
  refine ⟨?_, by decide, by decide⟩
  intro truthful
  have notOk := congrArg (List.map fun (result : Except PushRejection Unit) => result.isOk)
    truthful.ownFate
  revert notOk
  decide

end Enroute
