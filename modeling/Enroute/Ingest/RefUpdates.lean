import Enroute.Ingest.Connectivity
import Enroute.Ingest.Hooks

/-!
# Screening and applying a push's ref updates

A push reads the refs it names, screens its updates and walks their tips, puts what is still
live to the hook, and hands the survivors to the ref store. Other pushes may move refs, store
objects and number commits between any two of these steps, so each step meets a state of its
own: `PushWorld` collects what each one reads, with nothing said about how they are related.

An update screened as non-fast-forward is skipped by the walk and by the hook but is not rejected,
so it still reaches the ref store, which compares it with the ref as it is by then.
-/

namespace Enroute

open List

/-- Refs of updates whose old value is not the one held when the refs were read. -/
def nffRejectedRefs (updates : List RefUpdate) (existing : RefMap ObjectId) : List String :=
  (updates.filter fun update =>
    if update.oldId = .null ∨ update.newId = .null then false
    else update.oldId ≠ (existing update.refname).getD .null).map RefUpdate.refname

def nonCommitBranchUpdates (updates : List RefUpdate) (objectRefs : Pack) : List String :=
  ((updates.filter fun update => update.newId ≠ .null && isBranchRefname update.refname).filter
    fun update =>
      match objectRefs.lookup update.newId with
      | some refs => !refs.isCommit
      | none => false).map RefUpdate.refname

def refnameRejections (validName : String → Bool) (updates : List RefUpdate) : List String :=
  (updates.filter fun update =>
    isFunnyRefname validName update.refname (update.newId = .null)).map RefUpdate.refname

def toCheck (updates : List RefUpdate) (preScreened : List String) : List RefUpdate :=
  updates.filter fun update => update.newId ≠ .null ∧ update.refname ∉ preScreened

/-- Walk each new tip: the commits of the pack met by a walk that passed, and the refs whose
walk failed. -/
def checkRefUpdateConnectivity (index : Index) (objectRefs : Pack) (updates : List RefUpdate)
    (preScreened : List String) : List ObjectId × List String :=
  let walked := (toCheck updates preScreened).map fun update =>
    (update, checkConnectivity index objectRefs update.newId)
  let connectedCommits := (walked.filter fun walk => walk.2.1).flatMap fun walk =>
    walk.2.2.filter fun oid =>
      match objectRefs.lookup oid with
      | some refs => refs.isCommit
      | none => false
  let connectivityFailures := (walked.filter fun walk => !walk.2.1).map fun walk => walk.1.refname
  (connectedCommits, connectivityFailures)

/-- The fixed reasons: a non-commit object beats a funny name beats missing objects. -/
def buildPreRejected (connectivityFailures refnameRejected nonCommitRejected : List String) :
    RefMap PushRejection := fun refname =>
  if refname ∈ nonCommitRejected then some .nonCommitObject
  else if refname ∈ refnameRejected then some .funnyRefname
  else if refname ∈ connectivityFailures then some .missingObjects
  else none

structure Ingested where
  rejected : RefMap PushRejection
  screened : List String

def Ingested.alreadyOut (ingested : Ingested) (refname : String) : Bool :=
  decide (refname ∈ ingested.screened) || (ingested.rejected refname).isSome

def preScreened (validName : String → Bool) (existing : RefMap ObjectId) (objectRefs : Pack)
    (updates : List RefUpdate) : List String :=
  nffRejectedRefs updates existing ++ refnameRejections validName updates ++
    nonCommitBranchUpdates updates objectRefs

/-- The deciding half of `finalize`: screen the updates and walk the tips of the rest. The
commits that a passing walk met come back for promotion. -/
def screenUpdates (validName : String → Bool) (existing : RefMap ObjectId) (index : Index)
    (objectRefs : Pack) (updates : List RefUpdate) : Ingested × List ObjectId :=
  let checked := checkRefUpdateConnectivity index objectRefs updates
    (preScreened validName existing objectRefs updates)
  ({ rejected := buildPreRejected checked.2 (refnameRejections validName updates)
      (nonCommitBranchUpdates updates objectRefs)
     screened := nffRejectedRefs updates existing },
    checked.1)

structure RefUpdateOutcome where
  refname : String
  result : Except PushRejection Unit

def RefUpdateOutcome.isOk (outcome : RefUpdateOutcome) : Bool :=
  match outcome.result with
  | .ok _ => true
  | .error _ => false

/-- The results known by refname: the rejections, then whatever the ref store answered. -/
def resultsByRef (preRejected : RefMap PushRejection) (answers : List RefUpdateResult) :
    RefMap (Except PushRejection Unit) :=
  answers.foldl
    (fun results answer =>
      Function.update results answer.refname (some (answer.result.mapError .refStore)))
    fun refname => (preRejected refname).map .error

def takeOutcomes (results : RefMap (Except PushRejection Unit)) :
    List RefUpdate → List RefUpdateOutcome
  | [] => []
  | update :: updates =>
    { refname := update.refname
      result := (results update.refname).getD (.error .internal) } ::
      takeOutcomes (Function.update results update.refname none) updates

/-- What applying a push's updates did, with what each party was shown on the way. -/
structure Applied where
  /-- The commands put to `pre-receive`. -/
  commands : List RefCommand
  /-- The updates the ref store accepted. -/
  landed : List RefUpdate
  /-- One outcome per update asked for, in order. -/
  outcomes : List RefUpdateOutcome
  /-- The commands handed to `post-receive`. -/
  posted : List RefCommand
  /-- The refs afterwards. -/
  refs : Refs

structure PushWorld where
  /-- The refs when the push read them. -/
  existing : RefMap ObjectId
  /-- The object index when the tips are walked. -/
  index : Index
  /-- The commit graph when the hook is asked. -/
  isAncestor : ObjectId → ObjectId → Bool
  /-- The hook. -/
  hook : PreReceiveHook
  /-- The numbered commits when the ref store is updated. -/
  numbersCommit : ObjectId → Bool
  /-- The refs when the ref store is updated. -/
  refs : Refs

def resolveRefUpdates (validName : String → Bool) (world : PushWorld) (updates : List RefUpdate)
    (preRejected : RefMap PushRejection) : Refs × List RefUpdate × List RefUpdateOutcome :=
  let toApply := updates.filter fun update => (preRejected update.refname).isNone
  let answered := world.refs.updateRefs validName world.numbersCommit toApply
  (answered.1, world.refs.landed validName world.numbersCommit toApply,
    takeOutcomes (resultsByRef preRejected answered.2) updates)

def applyRefUpdates (validName : String → Bool) (world : PushWorld) (updates : List RefUpdate)
    (ingested : Ingested) : Except String Applied :=
  match Hooks.preReceive world.hook world.isAncestor updates ingested.alreadyOut with
  | .error message => .error message
  | .ok (rejectedByHook, commands) =>
    let rejected := fun refname => (rejectedByHook refname).or (ingested.rejected refname)
    let (refs, landed, outcomes) := resolveRefUpdates validName world updates rejected
    let landedRefs := (outcomes.filter RefUpdateOutcome.isOk).map RefUpdateOutcome.refname
    .ok { commands, landed, outcomes, refs
          posted := Hooks.postReceive commands fun refname => refname ∈ landedRefs }

def push (validName : String → Bool) (world : PushWorld) (objectRefs : Pack)
    (updates : List RefUpdate) : Except String Applied :=
  applyRefUpdates validName world updates
    (screenUpdates validName world.existing world.index objectRefs updates).1

/-! ## Outcomes of refs asked for once -/

variable {update : RefUpdate} {updates : List RefUpdate}

theorem filter_refname_eq_singleton (distinct : (updates.map RefUpdate.refname).Nodup)
    (updateMem : update ∈ updates) :
    updates.filter (fun other => other.refname = update.refname) = [update] := by
  induction updates with
  | nil => cases updateMem
  | cons head updates ih =>
    rw [map_cons, nodup_cons] at distinct
    rcases mem_cons.mp updateMem with rfl | later
    · have noOther : updates.filter (fun other => other.refname = update.refname) = [] := by
        rw [filter_eq_nil_iff]
        intro other otherMem same
        rw [decide_eq_true_eq] at same
        exact distinct.1 (same ▸ mem_map_of_mem otherMem)
      simp [noOther]
    · have different : head.refname ≠ update.refname := by
        intro same
        exact distinct.1 (same ▸ mem_map_of_mem later)
      rw [filter_cons_of_neg (by simpa using different)]
      exact ih distinct.2 later

theorem updateRefs_map_refname (validName : String → Bool) (numbersCommit : ObjectId → Bool)
    (refs : Refs) (updates : List RefUpdate) :
    ((refs.updateRefs validName numbersCommit updates).2.map RefUpdateResult.refname) =
      updates.map RefUpdate.refname := by
  induction updates generalizing refs with
  | nil => rfl
  | cons update updates ih => simp [Refs.updateRefs, ih]

theorem answers_isOk_of_landed {validName : String → Bool} {numbersCommit : ObjectId → Bool}
    {refs : Refs} (once : updates.filter (fun other => other.refname = update.refname) = [update])
    (lands : update ∈ refs.landed validName numbersCommit updates) :
    ∀ answer ∈ (refs.updateRefs validName numbersCommit updates).2,
      answer.refname = update.refname → answer.isOk = true := by
  induction updates generalizing refs with
  | nil => simp at once
  | cons head updates ih =>
    intro answer answerMem same
    rw [Refs.landed_cons] at lands
    simp only [Refs.updateRefs, mem_cons] at answerMem
    by_cases headSame : head.refname = update.refname
    · rw [filter_cons_of_pos (by simpa using headSame), List.cons.injEq] at once
      rcases once with ⟨rfl, noOther⟩
      have notLater : head ∉ updates := by
        intro later
        rw [filter_eq_nil_iff] at noOther
        exact noOther head later (by simp)
      rcases answerMem with rfl | later
      · split_ifs at lands with accepted
        · exact accepted
        · exact absurd (Refs.mem_of_mem_landed lands) notLater
      · have named : head.refname ∈ updates.map RefUpdate.refname := by
          rw [← updateRefs_map_refname validName numbersCommit, ← same]
          exact mem_map_of_mem later
        rcases mem_map.mp named with ⟨other, otherMem, otherSame⟩
        rw [filter_eq_nil_iff] at noOther
        exact absurd (by simpa using otherSame) (noOther other otherMem)
    · rw [filter_cons_of_neg (by simpa using headSame)] at once
      rcases answerMem with rfl | later
      · exact absurd (by simpa using same) headSame
      · refine ih once ?_ answer later same
        split_ifs at lands with accepted
        · rcases mem_cons.mp lands with rfl | landsLater
          · exact absurd rfl headSame
          · exact landsLater
        · exact lands

theorem resultsByRef_of_isOk (preRejected : RefMap PushRejection)
    {answers : List RefUpdateResult} {refname : String}
    (answered : refname ∈ answers.map RefUpdateResult.refname)
    (allOk : ∀ answer ∈ answers, answer.refname = refname → answer.isOk = true) :
    resultsByRef preRejected answers refname = some (.ok ()) := by
  induction answers using List.reverseRecOn with
  | nil => cases answered
  | append_singleton answers answer ih =>
    rw [resultsByRef, foldl_append, foldl_cons, foldl_nil]
    by_cases last : answer.refname = refname
    · have lastOk := allOk answer (by simp) last
      subst last
      rw [Function.update_self]
      rcases answer with ⟨name, result⟩
      cases result with
      | ok value => rfl
      | error rejection => cases lastOk
    · rw [Function.update_of_ne (Ne.symm last)]
      apply ih
      · simpa [Ne.symm last] using answered
      · intro other otherMem
        exact allOk other (mem_append_left _ otherMem)

theorem exists_takeOutcomes (results : RefMap (Except PushRejection Unit))
    (updateMem : update ∈ updates) :
    ∃ outcome ∈ takeOutcomes results updates, outcome.refname = update.refname ∧
      outcome.result = (results update.refname).getD (.error .internal) := by
  induction updates generalizing results with
  | nil => cases updateMem
  | cons head updates ih =>
    by_cases same : head.refname = update.refname
    · refine ⟨_, mem_cons_self, same, ?_⟩
      rw [same]
    · have later : update ∈ updates := by
        rcases mem_cons.mp updateMem with rfl | later
        · exact absurd rfl same
        · exact later
      rcases ih (Function.update results head.refname none) later with
        ⟨outcome, outcomeMem, outcomeSame, outcomeResult⟩
      refine ⟨outcome, mem_cons_of_mem _ outcomeMem, outcomeSame, ?_⟩
      rw [outcomeResult, Function.update_of_ne (Ne.symm same)]

/-! ## What may be recorded -/

/-- Commits of a push that may be recorded. -/
structure Promotable (index : Index) (pack : Pack) (commits : List ObjectId) : Prop where
  isCommit : ∀ oid ∈ commits, ∃ refs ∈ pack.lookup oid, refs.isCommit = true
  /-- What is not in the pack of all they reach is stored. -/
  connected : ∀ oid ∈ commits, ∀ reached, pack.Reaches oid reached →
    (pack.lookup reached).isSome ∨ index.holds reached
  /-- The commits among what they reach in the pack may be recorded with them. -/
  closed : ∀ oid ∈ commits, ∀ reached, pack.Reaches oid reached →
    ∀ refs ∈ pack.lookup reached, refs.isCommit = true → reached ∈ commits

theorem mem_connectedCommits {index : Index} {pack : Pack} {updates : List RefUpdate}
    {preScreened : List String} {oid : ObjectId} :
    oid ∈ (checkRefUpdateConnectivity index pack updates preScreened).1 ↔
      (∃ refs ∈ pack.lookup oid, refs.isCommit = true) ∧
      ∃ update ∈ toCheck updates preScreened, pack.Reaches update.newId oid ∧
        (checkConnectivity index pack update.newId).1 = true := by
  simp only [checkRefUpdateConnectivity, mem_flatMap, mem_filter, mem_map,
    ← mem_checkConnectivity_visited index]
  constructor
  · rintro ⟨_, ⟨⟨update, listed, rfl⟩, connected⟩, met, isCommit⟩
    refine ⟨?_, update, listed, met, connected⟩
    cases found : pack.lookup oid with
    | none => simp [found] at isCommit
    | some refs => exact ⟨refs, rfl, by simpa [found] using isCommit⟩
  · rintro ⟨⟨refs, found, isCommit⟩, update, listed, met, connected⟩
    refine ⟨_, ⟨⟨update, listed, rfl⟩, connected⟩, met, ?_⟩
    rw [found]
    exact isCommit

/-- The screening of a push lets through commits that may be recorded, and refuses a ref for missing
objects only if what its tip reaches does lack one. -/
theorem screenUpdates_promotable (validName : String → Bool) (existing : RefMap ObjectId)
    (index : Index) (pack : Pack) (updates : List RefUpdate) :
    Promotable index pack (screenUpdates validName existing index pack updates).2 ∧
    ∀ refname, (screenUpdates validName existing index pack updates).1.rejected refname =
        some .missingObjects →
      ∃ update ∈ updates, update.refname = refname ∧ ∃ oid, pack.Reaches update.newId oid ∧
        pack.lookup oid = none ∧ index.holds oid = false := by
  refine ⟨⟨fun oid promoted => (mem_connectedCommits.mp promoted).1, ?_, ?_⟩, ?_⟩
  · intro oid promoted reached path
    rcases (mem_connectedCommits.mp promoted).2 with ⟨update, -, fromTip, connected⟩
    exact (checkConnectivity_connected index pack _).mp connected reached (fromTip.trans path)
  · intro oid promoted reached path refs found isCommit
    rcases (mem_connectedCommits.mp promoted).2 with ⟨update, listed, fromTip, connected⟩
    exact mem_connectedCommits.mpr
      ⟨⟨refs, found, isCommit⟩, update, listed, fromTip.trans path, connected⟩
  · intro refname refused
    simp only [screenUpdates, buildPreRejected] at refused
    split_ifs at refused with _ _ failed <;> cases refused
    simp only [checkRefUpdateConnectivity, mem_map, mem_filter] at failed
    rcases failed with ⟨_, ⟨⟨update, listed, rfl⟩, fails⟩, rfl⟩
    refine ⟨update, (mem_filter.mp listed).1, rfl, ?_⟩
    by_contra! holds
    have connected := (checkConnectivity_connected index pack update.newId).mpr fun oid path => by
      rw [or_iff_not_imp_left, Option.not_isSome_iff_eq_none]
      simpa using holds oid path
    simp [connected] at fails

/-! ## No ref moves without its own verdict -/

/-- The command shows the hook the ref of the update, its old value and its new one. -/
def RefCommand.Shows (command : RefCommand) (update : RefUpdate) : Prop :=
  command.refname = update.refname ∧
    command.oldId = (if update.oldId = .null ∧ update.newId ≠ .null then none
      else some update.oldId) ∧
    command.newId = if update.newId = .null then none else some update.newId

theorem commandOf_shows (isAncestor : ObjectId → ObjectId → Bool) (update : RefUpdate) :
    (Hooks.commandOf isAncestor update).Shows update := by
  refine ⟨rfl, ?_, rfl⟩
  simp only [Hooks.commandOf, and_comm]

section Verdict

variable (validName : String → Bool) (world : PushWorld) (objectRefs : Pack)
  (updates : List RefUpdate)

def liveUpdates : List RefUpdate :=
  updates.filter fun update =>
    !(screenUpdates validName world.existing world.index objectRefs updates).1.alreadyOut
      update.refname

/-- The update was put to the hook as a command, allowed, told to `post-receive`, and its new
tip passed a connectivity walk of the same push. -/
structure HasVerdict (applied : Applied) (update : RefUpdate) : Prop where
  shown : ∃ command ∈ applied.commands, command.Shows update ∧ command ∈ applied.posted
  allowed : ∃ judgements, world.hook applied.commands = .ok judgements ∧
    Hooks.AllowedBy judgements update.refname
  connected : update.newId ≠ .null →
    ∃ checked ∈ toCheck updates (preScreened validName world.existing objectRefs updates),
      checked.newId = update.newId ∧
        (checkConnectivity world.index objectRefs update.newId).1 = true

def EveryLandedHasVerdict : Prop :=
  ∀ applied, push validName world objectRefs updates = .ok applied →
    ∀ update ∈ applied.landed, HasVerdict validName world objectRefs updates applied update

variable {validName world objectRefs updates}

theorem push_eq_ok {applied : Applied}
    (pushed : push validName world objectRefs updates = .ok applied) :
    ∃ refused commands,
      let ingested := (screenUpdates validName world.existing world.index objectRefs updates).1
      let rejected := fun refname => (refused refname).or (ingested.rejected refname)
      let resolved := resolveRefUpdates validName world updates rejected
      Hooks.preReceive world.hook world.isAncestor updates ingested.alreadyOut =
          .ok (refused, commands) ∧
        applied.commands = commands ∧ applied.landed = resolved.2.1 ∧
        applied.posted = Hooks.postReceive commands fun refname =>
          refname ∈ (resolved.2.2.filter RefUpdateOutcome.isOk).map RefUpdateOutcome.refname := by
  simp only [push, applyRefUpdates] at pushed
  rcases hooked : Hooks.preReceive world.hook world.isAncestor updates
    (screenUpdates validName world.existing world.index objectRefs updates).1.alreadyOut with
    message | ⟨refused, commands⟩
  · rw [hooked] at pushed
    cases pushed
  · rw [hooked] at pushed
    refine ⟨refused, commands, hooked, ?_⟩
    cases pushed
    exact ⟨rfl, rfl, rfl⟩

variable {update : RefUpdate}

theorem connected_of_not_rejected (updateMem : update ∈ updates)
    (notScreened : update.refname ∉ nffRejectedRefs updates world.existing)
    (notRejected : (screenUpdates validName world.existing world.index objectRefs
      updates).1.rejected update.refname = none) (notDelete : update.newId ≠ .null) :
    update ∈ toCheck updates (preScreened validName world.existing objectRefs updates) ∧
      (checkConnectivity world.index objectRefs update.newId).1 = true := by
  simp only [screenUpdates, buildPreRejected] at notRejected
  split_ifs at notRejected with nonCommit funny failed
  have checked : update ∈ toCheck updates
      (preScreened validName world.existing objectRefs updates) := by
    simp only [toCheck, mem_filter, decide_eq_true_eq, preScreened, mem_append]
    exact ⟨updateMem, notDelete, by tauto⟩
  refine ⟨checked, ?_⟩
  by_contra disconnected
  apply failed
  simp only [checkRefUpdateConnectivity, mem_map, mem_filter]
  exact ⟨_, ⟨⟨update, checked, rfl⟩, by simpa using disconnected⟩, rfl⟩

theorem mem_liveUpdates :
    update ∈ liveUpdates validName world objectRefs updates ↔
      update ∈ updates ∧ update.refname ∉ nffRejectedRefs updates world.existing ∧
        (screenUpdates validName world.existing world.index objectRefs updates).1.rejected
          update.refname = none := by
  simp only [liveUpdates, mem_filter, Ingested.alreadyOut, Bool.not_eq_true',
    Bool.or_eq_false_iff, decide_eq_false_iff_not, Option.isSome_eq_false_iff,
    Option.isNone_iff_eq_none]
  rfl

theorem posted_of_landed {rejected : RefMap PushRejection}
    (live : update ∈ liveUpdates validName world objectRefs updates)
    (distinct : ((liveUpdates validName world objectRefs updates).map RefUpdate.refname).Nodup)
    (lands : update ∈ (resolveRefUpdates validName world updates rejected).2.1) :
    update.refname ∈ (((resolveRefUpdates validName world updates rejected).2.2.filter
      RefUpdateOutcome.isOk).map RefUpdateOutcome.refname) := by
  simp only [resolveRefUpdates] at lands ⊢
  have applied := Refs.mem_of_mem_landed lands
  simp only [mem_filter, Option.isNone_iff_eq_none] at applied
  have isLive := mem_liveUpdates.mp live
  -- Both filters work by refname, so the ref is asked for once in what is applied too.
  have once : (updates.filter fun other => (rejected other.refname).isNone).filter
      (fun other => other.refname = update.refname) = [update] := by
    rw [← filter_refname_eq_singleton distinct live, liveUpdates, filter_filter,
      filter_filter]
    apply filter_congr
    intro other _
    by_cases same : other.refname = update.refname
    · have otherLive := (mem_filter.mp live).2
      simp [same, applied.2, otherLive]
    · simp [same]
  have answered : update.refname ∈ (world.refs.updateRefs validName world.numbersCommit
      (updates.filter fun other => (rejected other.refname).isNone)).2.map
        RefUpdateResult.refname := by
    rw [updateRefs_map_refname]
    exact mem_map_of_mem (Refs.mem_of_mem_landed lands)
  have isOk := resultsByRef_of_isOk rejected answered (answers_isOk_of_landed once lands)
  rcases exists_takeOutcomes (resultsByRef rejected _) isLive.1 with
    ⟨outcome, outcomeMem, outcomeSame, outcomeResult⟩
  rw [isOk, Option.getD_some] at outcomeResult
  refine mem_map.mpr ⟨outcome, mem_filter.mpr ⟨outcomeMem, ?_⟩, outcomeSame⟩
  rw [RefUpdateOutcome.isOk, outcomeResult]

theorem hasVerdict_of_live {applied : Applied}
    (pushed : push validName world objectRefs updates = .ok applied)
    (lands : update ∈ applied.landed)
    (live : update ∈ liveUpdates validName world objectRefs updates) :
    HasVerdict validName world objectRefs updates applied update := by
  rcases push_eq_ok pushed with ⟨refused, commands, hooked, commandsEq, landedEq, postedEq⟩
  rcases Hooks.preReceive_spec hooked with ⟨commandsShown, distinct, -, allowed⟩
  rw [landedEq] at lands
  have appliedTo := (mem_filter.mp (Refs.mem_of_mem_landed lands)).2
  have notRefused : refused update.refname = none := by
    simp only [Option.isNone_iff_eq_none, Option.or_eq_none_iff] at appliedTo
    exact appliedTo.1
  have isLive := mem_liveUpdates.mp live
  have shown : Hooks.commandOf world.isAncestor update ∈ commands := by
    rw [commandsShown]
    exact mem_map_of_mem live
  refine ⟨⟨Hooks.commandOf world.isAncestor update, ?_, commandOf_shows _ _, ?_⟩, ?_, ?_⟩
  · rw [commandsEq]
    exact shown
  · rw [postedEq, Hooks.postReceive, mem_filter]
    refine ⟨shown, ?_⟩
    rw [Hooks.commandOf_refname, decide_eq_true_eq]
    exact posted_of_landed live distinct lands
  · rw [commandsEq]
    exact allowed update live notRefused
  · intro notDelete
    rcases connected_of_not_rejected isLive.1 isLive.2.1 isLive.2.2 notDelete with
      ⟨checked, connected⟩
    exact ⟨update, checked, rfl, connected⟩

theorem not_rejected_of_screened (world : PushWorld) {refname : String}
    (screened : refname ∈ nffRejectedRefs updates world.existing)
    (notFunny : refname ∉ refnameRejections validName updates)
    (notNonCommit : refname ∉ nonCommitBranchUpdates updates objectRefs) :
    (screenUpdates validName world.existing world.index objectRefs updates).1.rejected refname =
      none := by
  simp only [screenUpdates, buildPreRejected, if_neg notNonCommit, if_neg notFunny]
  rw [if_neg]
  simp only [checkRefUpdateConnectivity, mem_map, mem_filter, toCheck, preScreened,
    mem_append, decide_eq_true_eq]
  rintro ⟨walk, ⟨⟨update, ⟨-, -, notScreened⟩, rfl⟩, -⟩, rfl⟩
  tauto

theorem not_everyLandedHasVerdict (update : RefUpdate)
    (answers : Hooks.Answers world.hook world.isAncestor
      (liveUpdates validName world objectRefs updates))
    (updateMem : update ∈ updates)
    (screened : update.refname ∈ nffRejectedRefs updates world.existing)
    (notFunny : update.refname ∉ refnameRejections validName updates)
    (notNonCommit : update.refname ∉ nonCommitBranchUpdates updates objectRefs)
    (accepted : world.refs.accepts validName world.numbersCommit update = true) :
    ¬EveryLandedHasVerdict validName world objectRefs updates := by
  intro everyVerdict
  rcases Hooks.preReceive_isOk_iff.mpr answers with ⟨⟨refused, commands⟩, hooked⟩
  rcases Hooks.preReceive_spec hooked with ⟨commandsShown, -, otherwiseFree, -⟩
  have notLive : update.refname ∉
      (liveUpdates validName world objectRefs updates).map RefUpdate.refname := by
    rintro live
    rcases mem_map.mp live with ⟨other, otherMem, same⟩
    exact (mem_liveUpdates.mp otherMem).2.1 (same ▸ screened)
  have notRejected := not_rejected_of_screened world screened notFunny notNonCommit
  have pushed : ∃ applied, push validName world objectRefs updates = .ok applied := by
    simp only [push, applyRefUpdates, hooked]
    exact ⟨_, rfl⟩
  rcases pushed with ⟨applied, pushed⟩
  rcases push_eq_ok pushed with ⟨refused', commands', hooked', commandsEq, landedEq, -⟩
  obtain ⟨rfl, rfl⟩ : refused = refused' ∧ commands = commands' := by
    simpa [hooked] using hooked'
  have reachesStore : update ∈ updates.filter fun other =>
      ((refused other.refname).or ((screenUpdates validName world.existing world.index objectRefs
        updates).1.rejected other.refname)).isNone := by
    simp [updateMem, otherwiseFree _ notLive, notRejected]
  rcases (Refs.exists_landed_iff world.refs _ update.refname).mpr
    ⟨update, reachesStore, rfl, accepted⟩ with ⟨moved, lands, same⟩
  have verdict := everyVerdict applied pushed moved (by rw [landedEq]; exact lands)
  rcases verdict.shown with ⟨command, commandMem, ⟨shows, -⟩, -⟩
  rw [commandsEq, commandsShown] at commandMem
  rcases mem_map.mp commandMem with ⟨other, otherMem, rfl⟩
  exact notLive (mem_map.mpr ⟨other, otherMem, shows.trans same⟩)

/-- Every ref that moves has its own verdict exactly when the hook leaves the push without an
answer, or no update of a screened ref would be accepted by the ref store as it is when the
updates reach it. -/
theorem everyLandedHasVerdict_iff (validName : String → Bool) (world : PushWorld)
    (objectRefs : Pack) (updates : List RefUpdate) :
    EveryLandedHasVerdict validName world objectRefs updates ↔
      (Hooks.Answers world.hook world.isAncestor
          (liveUpdates validName world objectRefs updates) →
        ∀ update ∈ updates, update.refname ∈ nffRejectedRefs updates world.existing →
          update.refname ∉ refnameRejections validName updates →
          update.refname ∉ nonCommitBranchUpdates updates objectRefs →
          world.refs.accepts validName world.numbersCommit update = false) := by
  constructor
  · intro everyVerdict answers update updateMem screened notFunny notNonCommit
    by_contra accepted
    rw [Bool.not_eq_false] at accepted
    exact not_everyLandedHasVerdict _ answers updateMem screened notFunny notNonCommit accepted
      everyVerdict
  · intro refuses applied pushed update lands
    by_cases screened : update.refname ∈ nffRejectedRefs updates world.existing
    · rcases push_eq_ok pushed with ⟨refused, commands, hooked, -, landedEq, -⟩
      rw [landedEq] at lands
      rcases (Refs.exists_landed_iff world.refs _ update.refname).mp ⟨update, lands, rfl⟩ with
        ⟨other, otherMem, same, accepted⟩
      simp only [mem_filter, Option.isNone_iff_eq_none, Option.or_eq_none_iff] at otherMem
      rcases otherMem with ⟨otherMem, -, notRejected⟩
      have otherRefused := refuses (Hooks.preReceive_isOk_iff.mp ⟨_, hooked⟩) other otherMem
        (same ▸ screened)
      simp only [screenUpdates, buildPreRejected] at notRejected
      split_ifs at notRejected with nonCommit funny failed
      rw [otherRefused funny nonCommit] at accepted
      cases accepted
    · have applies : update ∈ liveUpdates validName world objectRefs updates := by
        rcases push_eq_ok pushed with ⟨refused, commands, -, -, landedEq, -⟩
        rw [landedEq] at lands
        have reached := Refs.mem_of_mem_landed lands
        simp only [mem_filter, Option.isNone_iff_eq_none, Option.or_eq_none_iff] at reached
        exact mem_liveUpdates.mpr ⟨reached.1, screened, reached.2.2⟩
      exact hasVerdict_of_live pushed lands applies

end Verdict

/-- A repository whose one branch is at commit 3, with a hook that refuses everything and no
other push anywhere: every step of the push meets the same refs. -/
def protectedWorld : PushWorld where
  existing := fun refname => if refname = "refs/heads/main" then some 3 else none
  index := fun _ => none
  isAncestor := fun _ _ => false
  hook := fun commands => .ok (commands.map fun command => ⟨command.refname, .refuse "protected"⟩)
  numbersCommit := fun oid => oid = 3 ∨ oid = 4
  refs :=
    { branches := fun refname => if refname = "refs/heads/main" then some 3 else none
      others := fun _ => none }

def doubledUpdates : List RefUpdate :=
  [⟨"refs/heads/main", 1, 2⟩, ⟨"refs/heads/main", 3, 4⟩]

/-- The stale update screens the ref for both, so the hook is never asked, and the second one
moves the branch from 3 to 4. -/
theorem not_everyLandedHasVerdict_doubled :
    ¬EveryLandedHasVerdict (fun _ => true) protectedWorld ∅ doubledUpdates := by
  have answers : Hooks.Answers protectedWorld.hook protectedWorld.isAncestor
      (liveUpdates (fun _ => true) protectedWorld ∅ doubledUpdates) := by
    left
    decide
  apply not_everyLandedHasVerdict ⟨"refs/heads/main", 3, 4⟩ answers
  · decide
  · decide
  · decide
  · decide
  · decide

end Enroute
