import Enroute.Metadata.Refs

/-!
# Receive hooks

`preReceive` puts every update still live to the application's hook as a command and collects
one verdict per command; `postReceive` hands back the commands that landed. The hook runs in
another process, so it is a parameter. Verdicts are kept by refname and each command takes its own
out, so a push that asks twice for one live ref finds the second command unjudged and is refused
whole.
-/

namespace Enroute

open List

abbrev RefMap (V : Type) := String → Option V

inductive PushRejection where
  | missingObjects
  | funnyRefname
  | nonCommitObject
  | policy (reason : String)
  | refStore (rejection : RefUpdateRejection)
  | internal
  deriving DecidableEq, Repr

structure RefCommand where
  refname : String
  oldId : Option ObjectId
  newId : Option ObjectId
  force : Bool
  deriving DecidableEq, Repr

inductive Verdict where
  | allow
  | refuse (reason : String)
  deriving DecidableEq, Repr

structure RefJudgement where
  refname : String
  verdict : Verdict
  deriving DecidableEq, Repr

abbrev PreReceiveHook := List RefCommand → Except String (List RefJudgement)

namespace Hooks

def firstFew (refnames : List String) : String :=
  let named := ", ".intercalate (refnames.take 5)
  match refnames.length - 5 with
  | 0 => named
  | rest => named ++ " and " ++ toString rest ++ " more"

def commandOf (isAncestor : ObjectId → ObjectId → Bool) (update : RefUpdate) : RefCommand :=
  let isRealUpdate := update.oldId ≠ .null ∧ update.newId ≠ .null
  let isDelete := update.newId = .null
  let isCreate := ¬isDelete ∧ update.oldId = .null
  { refname := update.refname
    oldId := if isCreate then none else some update.oldId
    newId := if isDelete then none else some update.newId
    force := if isRealUpdate then !isAncestor update.oldId update.newId else false }

abbrev Judged := AList fun _ : String => Verdict

def Judged.take (judged : Judged) (judgement : RefJudgement) : Judged :=
  match judged.lookup judgement.refname with
  | some (.refuse reason) => judged.insert judgement.refname (.refuse reason)
  | _ => judged.insert judgement.refname judgement.verdict

/-- What reading the verdicts by command leaves: the refused refs, the commands nobody
judged, and the verdicts nobody asked for. -/
structure Reading where
  refused : RefMap PushRejection
  unjudged : List String
  judged : Judged

def Reading.step (reading : Reading) (command : RefCommand) : Reading :=
  let remaining := reading.judged.erase command.refname
  match reading.judged.lookup command.refname with
  | some (.refuse reason) =>
    { reading with
      refused := Function.update reading.refused command.refname (some (.policy reason))
      judged := remaining }
  | some .allow => { reading with judged := remaining }
  | none => { reading with unjudged := reading.unjudged ++ [command.refname], judged := remaining }

def unjudgedMessage (commands : List RefCommand) (reading : Reading) : String :=
  let unmatched := reading.judged.keys
  let stray := if unmatched.isEmpty then ""
    else " — it judged " ++ firstFew unmatched ++ ", which this push does not ask for"
  "the pre-receive hook judged " ++ toString (commands.length - reading.unjudged.length) ++
    " of " ++ toString commands.length ++ " commands, and not " ++
    firstFew reading.unjudged ++ stray

/-- Run the hook over every update still live: one rejection per refname it refused, with the
commands it was asked about. -/
def preReceive (hook : PreReceiveHook) (isAncestor : ObjectId → ObjectId → Bool)
    (updates : List RefUpdate) (preScreened : String → Bool) :
    Except String (RefMap PushRejection × List RefCommand) :=
  let live := updates.filter fun update => !preScreened update.refname
  if live.isEmpty then .ok (fun _ => none, [])
  else
    let commands := live.map (commandOf isAncestor)
    match hook commands with
    | .error message => .error message
    | .ok judgements =>
      let judged : Judged := judgements.foldl Judged.take ∅
      let reading := commands.foldl Reading.step
        { refused := fun _ => none, unjudged := [], judged }
      if reading.unjudged.isEmpty then .ok (reading.refused, commands)
      else .error (unjudgedMessage commands reading)

/-- The commands handed to `post-receive`: what was judged, less whatever failed to land. -/
def postReceive (commands : List RefCommand) (landed : String → Bool) : List RefCommand :=
  commands.filter fun command => landed command.refname

/-! ## What the verdicts say -/

def AllowedBy (judgements : List RefJudgement) (refname : String) : Prop :=
  (∃ judgement ∈ judgements, judgement.refname = refname) ∧
    ∀ judgement ∈ judgements, judgement.refname = refname → judgement.verdict = .allow

theorem lookup_take_of_ne (judged : Judged) {judgement : RefJudgement} {refname : String}
    (distinct : refname ≠ judgement.refname) :
    (judged.take judgement).lookup refname = judged.lookup refname := by
  simp only [Judged.take]
  split <;> rw [AList.lookup_insert_ne distinct]

theorem lookup_take_self_eq_allow (judged : Judged) (judgement : RefJudgement) :
    (judged.take judgement).lookup judgement.refname = some .allow ↔
      judgement.verdict = .allow ∧
        (judged.lookup judgement.refname = none ∨
          judged.lookup judgement.refname = some .allow) := by
  simp only [Judged.take]
  split
  next reason refused => simp [AList.lookup_insert, refused]
  next notRefused =>
    rw [AList.lookup_insert]
    constructor
    · intro allowed
      refine ⟨Option.some.inj allowed, ?_⟩
      rcases held : judged.lookup judgement.refname with _ | verdict
      · exact Or.inl rfl
      · cases verdict with
        | allow => exact Or.inr rfl
        | refuse reason => exact absurd held (notRefused reason)
    · rintro ⟨allowed, -⟩
      rw [allowed]

theorem lookup_take_self_isSome (judged : Judged) (judgement : RefJudgement) :
    ((judged.take judgement).lookup judgement.refname).isSome := by
  simp only [Judged.take]
  split <;> simp [AList.lookup_insert]

theorem lookup_judged_isSome_iff (judgements : List RefJudgement) (refname : String) :
    ((judgements.foldl Judged.take ∅).lookup refname).isSome ↔
      ∃ judgement ∈ judgements, judgement.refname = refname := by
  induction judgements using List.reverseRecOn with
  | nil => simp
  | append_singleton judgements judgement ih =>
    rw [foldl_append, foldl_cons, foldl_nil]
    by_cases same : refname = judgement.refname
    · subst same
      refine iff_of_true (lookup_take_self_isSome _ _) ⟨judgement, ?_, rfl⟩
      simp
    · rw [lookup_take_of_ne _ same, ih]
      constructor
      · rintro ⟨earlier, earlierMem, earlierSame⟩
        exact ⟨earlier, mem_append_left _ earlierMem, earlierSame⟩
      · rintro ⟨earlier, earlierMem, earlierSame⟩
        rcases mem_append.mp earlierMem with before | last
        · exact ⟨earlier, before, earlierSame⟩
        · rw [mem_singleton.mp last] at earlierSame
          exact absurd earlierSame.symm same

theorem lookup_judged_eq_allow_iff (judgements : List RefJudgement) (refname : String) :
    (judgements.foldl Judged.take ∅).lookup refname = some .allow ↔
      AllowedBy judgements refname := by
  induction judgements using List.reverseRecOn with
  | nil => simp [AllowedBy]
  | append_singleton judgements judgement ih =>
    rw [foldl_append, foldl_cons, foldl_nil]
    by_cases same : refname = judgement.refname
    · subst same
      rw [lookup_take_self_eq_allow, ih]
      have judgedBefore := lookup_judged_isSome_iff judgements judgement.refname
      constructor
      · rintro ⟨allowed, before⟩
        refine ⟨⟨judgement, by simp, rfl⟩, ?_⟩
        intro other otherMem otherSame
        rcases mem_append.mp otherMem with earlier | last
        · rcases before with missing | allowedBefore
          · rw [missing] at judgedBefore
            exact absurd (judgedBefore.mpr ⟨other, earlier, otherSame⟩) (by simp)
          · exact allowedBefore.2 other earlier otherSame
        · rw [mem_singleton.mp last]
          exact allowed
      · rintro ⟨-, allAllow⟩
        refine ⟨allAllow judgement (by simp) rfl, ?_⟩
        by_cases met : ∃ other ∈ judgements, other.refname = judgement.refname
        · refine Or.inr ⟨met, ?_⟩
          intro other otherMem otherSame
          exact allAllow other (mem_append_left _ otherMem) otherSame
        · left
          rw [← judgedBefore] at met
          simpa using met
    · rw [lookup_take_of_ne _ same, ih]
      have notLast : judgement.refname ≠ refname := Ne.symm same
      simp [AllowedBy, or_and_right, exists_or, or_imp, forall_and, notLast]

/-! ## Reading the verdicts by command -/

@[simp]
theorem step_judged (reading : Reading) (command : RefCommand) :
    (reading.step command).judged = reading.judged.erase command.refname := by
  simp only [Reading.step]
  split <;> rfl

theorem step_unjudged_eq_nil_iff (reading : Reading) (command : RefCommand) :
    (reading.step command).unjudged = [] ↔
      reading.unjudged = [] ∧ (reading.judged.lookup command.refname).isSome := by
  simp only [Reading.step]
  split
  next reason found => simp [found]
  next found => simp [found]
  next missing => simp [missing]

theorem step_refused_of_ne (reading : Reading) {command : RefCommand} {refname : String}
    (distinct : refname ≠ command.refname) :
    (reading.step command).refused refname = reading.refused refname := by
  simp only [Reading.step]
  split <;> simp [distinct]

section

variable (commands : List RefCommand) (reading : Reading)

include commands reading

/-- Every command finds its verdict exactly when the commands name distinct refs and each of
these was judged. -/
theorem unjudged_foldl_eq_nil_iff :
    (commands.foldl Reading.step reading).unjudged = [] ↔
      reading.unjudged = [] ∧ (commands.map RefCommand.refname).Nodup ∧
        ∀ command ∈ commands, (reading.judged.lookup command.refname).isSome := by
  induction commands generalizing reading with
  | nil => simp
  | cons command commands ih =>
    rw [foldl_cons, ih, step_unjudged_eq_nil_iff, step_judged, map_cons,
      nodup_cons]
    constructor
    · rintro ⟨⟨noneBefore, judged⟩, distinct, restJudged⟩
      have fresh : command.refname ∉ commands.map RefCommand.refname := by
        intro repeated
        rcases mem_map.mp repeated with ⟨other, otherMem, same⟩
        have found := restJudged other otherMem
        rw [same, AList.lookup_erase] at found
        cases found
      refine ⟨noneBefore, ⟨fresh, distinct⟩, ?_⟩
      intro other otherMem
      rcases mem_cons.mp otherMem with rfl | later
      · exact judged
      · have found := restJudged other later
        rwa [AList.lookup_erase_ne] at found
        intro same
        exact fresh (same ▸ mem_map_of_mem later)
    · rintro ⟨noneBefore, ⟨fresh, distinct⟩, allJudged⟩
      refine ⟨⟨noneBefore, allJudged command mem_cons_self⟩, distinct, ?_⟩
      intro other otherMem
      have different : other.refname ≠ command.refname := by
        intro same
        exact fresh (same ▸ mem_map_of_mem otherMem)
      rw [AList.lookup_erase_ne different]
      exact allJudged other (mem_cons_of_mem _ otherMem)

theorem refused_foldl_of_notMem {refname : String}
    (absent : refname ∉ commands.map RefCommand.refname) :
    (commands.foldl Reading.step reading).refused refname = reading.refused refname := by
  induction commands generalizing reading with
  | nil => rfl
  | cons command commands ih =>
    rw [map_cons, mem_cons, not_or] at absent
    rw [foldl_cons, ih _ absent.2, step_refused_of_ne _ absent.1]

theorem refused_foldl_of_refuse (distinct : (commands.map RefCommand.refname).Nodup)
    {command : RefCommand} {reason : String} (asked : command ∈ commands)
    (refuses : reading.judged.lookup command.refname = some (.refuse reason)) :
    (commands.foldl Reading.step reading).refused command.refname = some (.policy reason) := by
  induction commands generalizing reading with
  | nil => cases asked
  | cons head commands ih =>
    rw [map_cons, nodup_cons] at distinct
    rw [foldl_cons]
    rcases mem_cons.mp asked with rfl | later
    · rw [refused_foldl_of_notMem _ _ distinct.1]
      simp [Reading.step, refuses]
    · apply ih _ distinct.2 later
      have different : command.refname ≠ head.refname := by
        intro same
        exact distinct.1 (same ▸ mem_map_of_mem later)
      rw [step_judged, AList.lookup_erase_ne different]
      exact refuses

end

/-! ## The specification of `preReceive` -/

@[simp]
theorem commandOf_refname (isAncestor : ObjectId → ObjectId → Bool) (update : RefUpdate) :
    (commandOf isAncestor update).refname = update.refname := rfl

theorem map_refname_map_commandOf (isAncestor : ObjectId → ObjectId → Bool)
    (updates : List RefUpdate) :
    (updates.map (commandOf isAncestor)).map RefCommand.refname =
      updates.map RefUpdate.refname := by
  simp [Function.comp_def]

/-- The hook answers for the live updates: there are none, or it judges every one of them and
no ref is asked for twice. -/
def Answers (hook : PreReceiveHook) (isAncestor : ObjectId → ObjectId → Bool)
    (live : List RefUpdate) : Prop :=
  live = [] ∨ ∃ judgements, hook (live.map (commandOf isAncestor)) = .ok judgements ∧
    (live.map RefUpdate.refname).Nodup ∧
    ∀ update ∈ live, ∃ judgement ∈ judgements, judgement.refname = update.refname

section Spec

variable {hook : PreReceiveHook} {isAncestor : ObjectId → ObjectId → Bool}
  {updates : List RefUpdate} {preScreened : String → Bool}

theorem unjudged_eq_nil_iff (live : List RefUpdate) (judgements : List RefJudgement) :
    ((live.map (commandOf isAncestor)).foldl Reading.step
        { refused := fun _ => none, unjudged := [],
          judged := judgements.foldl Judged.take ∅ }).unjudged = [] ↔
      (live.map RefUpdate.refname).Nodup ∧
        ∀ update ∈ live, ∃ judgement ∈ judgements, judgement.refname = update.refname := by
  rw [unjudged_foldl_eq_nil_iff, map_refname_map_commandOf]
  simp only [true_and, forall_mem_map, commandOf_refname, lookup_judged_isSome_iff]

theorem preReceive_isOk_iff :
    (∃ answered, preReceive hook isAncestor updates preScreened = .ok answered) ↔
      Answers hook isAncestor (updates.filter fun update => !preScreened update.refname) := by
  simp only [preReceive, Answers]
  generalize updates.filter (fun update => !preScreened update.refname) = live
  by_cases none : live = []
  · simp [none]
  · rw [if_neg (by simpa using none)]
    rcases asked : hook (live.map (commandOf isAncestor)) with message | judgements
    · simp [none]
    · simp only [List.isEmpty_iff, unjudged_eq_nil_iff, none, false_or, Except.ok.injEq,
        exists_eq_left']
      split_ifs with complete
      · exact iff_of_true ⟨_, rfl⟩ complete
      · exact iff_of_false (by simp) complete

theorem preReceive_spec {refused : RefMap PushRejection} {commands : List RefCommand}
    (completed : preReceive hook isAncestor updates preScreened = .ok (refused, commands)) :
    let live := updates.filter fun update => !preScreened update.refname
    commands = live.map (commandOf isAncestor) ∧ (live.map RefUpdate.refname).Nodup ∧
      (∀ refname, refname ∉ live.map RefUpdate.refname → refused refname = none) ∧
      ∀ update ∈ live, refused update.refname = none →
        ∃ judgements, hook commands = .ok judgements ∧ AllowedBy judgements update.refname := by
  simp only [preReceive] at completed ⊢
  generalize updates.filter (fun update => !preScreened update.refname) = live at completed ⊢
  by_cases none : live = []
  · subst none
    simp only [isEmpty_nil, if_true, Except.ok.injEq, Prod.mk.injEq] at completed
    rcases completed with ⟨rfl, rfl⟩
    simp
  · rw [if_neg (by simpa using none)] at completed
    rcases asked : hook (live.map (commandOf isAncestor)) with message | judgements
    · rw [asked] at completed
      cases completed
    · simp only [asked, List.isEmpty_iff, unjudged_eq_nil_iff] at completed
      split_ifs at completed with complete
      simp only [Except.ok.injEq, Prod.mk.injEq] at completed
      rcases completed with ⟨rfl, rfl⟩
      have distinct := complete.1
      rw [← map_refname_map_commandOf isAncestor] at distinct
      refine ⟨rfl, complete.1, ?_, ?_⟩
      · intro refname absent
        rw [refused_foldl_of_notMem]
        rwa [map_refname_map_commandOf]
      · intro update updateMem notRefused
        refine ⟨judgements, asked, ?_⟩
        have askedFor := mem_map_of_mem (f := commandOf isAncestor) updateMem
        have judged := (lookup_judged_isSome_iff judgements update.refname).mpr
          (complete.2 update updateMem)
        rcases Option.isSome_iff_exists.mp judged with ⟨verdict, found⟩
        cases verdict with
        | allow => exact (lookup_judged_eq_allow_iff judgements update.refname).mp found
        | refuse reason =>
          have inMap := refused_foldl_of_refuse _
            { refused := fun _ => Option.none, unjudged := [],
              judged := judgements.foldl Judged.take ∅ } distinct askedFor found
          rw [commandOf_refname] at inMap
          rw [inMap] at notRefused
          cases notRefused

end Spec

end Hooks

end Enroute
