import Enroute.Remote.Report

/-!
# Pushing to a remote

Every refspec becomes a step: a command to send, or an outcome known without asking. Three passes
rewrite the steps in place. A command that would discard what the remote holds is refused, an atomic
push with a refusal sends nothing, and what is sent is answered by the report.
-/

namespace Enroute.Remote

open List PktLine

structure RefSpec where
  source : String
  destination : String
  force : Bool
  deriving DecidableEq, Repr

structure PushRequest where
  refs : List RefSpec
  atomic : Bool

/-- What a remote holds, every object it named, and what it can do. -/
structure Advertisement where
  refs : RefMap ObjectId
  tips : List ObjectId
  capabilities : List String

inductive PushStatus where
  | updated
  | deleted
  | upToDate
  | rejected (why : String)
  deriving DecidableEq, Repr

structure RefOutcome where
  destination : String
  oldId : ObjectId
  newId : ObjectId
  status : PushStatus
  deriving DecidableEq, Repr

structure Command where
  refname : String
  old : ObjectId
  new : ObjectId
  force : Bool
  deriving DecidableEq, Repr

def Command.deletes (command : Command) : Bool :=
  command.new = .null

inductive Step where
  | send (command : Command)
  | done (outcome : RefOutcome)
  deriving DecidableEq, Repr

/-! ## Planning -/

def RefSpec.named (spec : RefSpec) : String :=
  if spec.destination = "" then spec.source else spec.destination

def breaksLine (char : Char) : Bool :=
  char = ' ' || char = '\t' || char = '\n' || char = '\x0c' || char = '\r' || char = '\x00'

def destination (spec : RefSpec) : Except Error String :=
  let named := spec.named
  if named = "" then .error (.request "a refspec names no ref")
  else if (stripLead "refs/" named).isNone || named.toList.any breaksLine then
    .error (.request s!"{named} is not a fully qualified refname")
  else .ok named

def Advertisement.value (advertisement : Advertisement) (refname : String) : ObjectId :=
  (advertisement.refs refname).getD .null

def asked (held : RefMap ObjectId) (spec : RefSpec) : Option ObjectId :=
  if spec.source = "" then some .null else held spec.source

def step (spec : RefSpec) (destination : String) (held : RefMap ObjectId)
    (advertisement : Advertisement) : Step :=
  let old := advertisement.value destination
  match asked held spec with
  | none =>
    let source := spec.source
    .done ⟨destination, old, .null, .rejected s!"{source} is not a ref this repository holds"⟩
  | some new =>
    if old = new then .done ⟨destination, old, new, .upToDate⟩
    else .send ⟨destination, old, new, spec.force⟩

def planFrom (held : RefMap ObjectId) (advertisement : Advertisement) :
    List String → List RefSpec → Except Error (List Step)
  | _, [] => .ok []
  | destinations, spec :: specs => do
      let destination ← destination spec
      if destination ∈ destinations then
        .error (.request s!"{destination} is named by more than one refspec")
      else
        let steps ← planFrom held advertisement (destination :: destinations) specs
        .ok (step spec destination held advertisement :: steps)

def plan (specs : List RefSpec) (held : RefMap ObjectId) (advertisement : Advertisement) :
    Except Error (List Step) :=
  planFrom held advertisement [] specs

section Push

variable (isAncestor : ObjectId → ObjectId → Except Error Bool)

def guard : Step → Except Error Step
  | .done outcome => .ok (.done outcome)
  | .send command =>
    if command.force || command.old = .null || command.deletes then .ok (.send command)
    else do
      if ← isAncestor command.old command.new then .ok (.send command)
      else
        let old := toHex command.old
        let new := toHex command.new
        .ok (.done ⟨command.refname, command.old, command.new, .rejected
          (s!"not a fast-forward: the remote holds {old}, which this repository " ++
            s!"cannot show is an ancestor of {new}")⟩)

def fastForwardOnly (steps : List Step) : Except Error (List Step) :=
  steps.mapM (guard isAncestor)

def Step.refused : Step → Option String
  | .done ⟨destination, _, _, .rejected _⟩ => some destination
  | _ => none

def holdBack (steps : List Step) : List Step :=
  match steps.findSome? Step.refused with
  | none => steps
  | some refused => steps.map fun
      | .send command => .done ⟨command.refname, command.old, command.new, .rejected
          s!"not sent: this push lands every ref or none, and {refused} was refused"⟩
      | .done outcome => .done outcome

def Step.command : Step → Option Command
  | .send command => some command
  | .done _ => none

def settled (steps : List Step) : List RefOutcome :=
  steps.filterMap fun
    | .done outcome => some outcome
    | .send _ => none

def statusOf (report : Report) (command : Command) : PushStatus :=
  match report.refs command.refname with
  | some none => if command.deletes then .deleted else .updated
  | some (some why) => .rejected why
  | none => .rejected "the remote did not say what happened to this ref"

def reported (steps : List Step) (report : Report) : List RefOutcome :=
  steps.map fun
    | .done outcome => outcome
    | .send command =>
      ⟨command.refname, command.old, command.new, statusOf report command⟩

def prepare (request : PushRequest) (held : RefMap ObjectId) (advertisement : Advertisement) :
    Except Error (List Step) :=
  if request.refs.isEmpty then .error (.request "a push names no refs")
  else if request.atomic && !advertisement.capabilities.contains "atomic" then
    .error (.unsupported "atomic")
  else if !advertisement.capabilities.contains "report-status" then
    .error (.unsupported "report-status")
  else do
    let steps ← plan request.refs held advertisement
    let steps ← fastForwardOnly isAncestor steps
    .ok (if request.atomic then holdBack steps else steps)

def commandsOf (steps : List Step) : List Command :=
  steps.filterMap Step.command

def capabilities (atomic : Bool) : String :=
  (if atomic then "report-status atomic" else "report-status") ++ " agent=enroute/0.2.0"

/-- The line of a command. The first one carries the capabilities, behind a NUL. -/
def commandLine (capabilities : String) (command : Command) (index : ℕ) : Bytes :=
  let line := utf8 (toHex command.old ++ " " ++ toHex command.new ++ " " ++ command.refname)
  (if index = 0 then line ++ 0 :: utf8 capabilities else line) ++ [10]

def requestHead (encoder : DataEncoder) (commands : List Command) (capabilities : String) :
    Except Error Bytes :=
  (writeBody encoder (commands.zipIdx.map fun (command, index) =>
    commandLine capabilities command index)).mapError fun error =>
      .protocol s!"encoding a command: {error}"

/-- What lies between a push and its remote: framing, and a request answered with bytes. The request
is its head, and the pack of what is wanted without what the remote holds. -/
structure Wire where
  encoder : DataEncoder
  decoder : PrefixDecoder
  lossy : LossyDecoder
  post : Bytes → List ObjectId → List ObjectId → Except Error Bytes

def send (wire : Wire) (commands : List Command) (atomic : Bool) (advertisement : Advertisement) :
    Except Error Report := do
  let head ← requestHead wire.encoder commands (capabilities atomic)
  let wants := (commands.filter fun command => !command.deletes).map Command.new
  let body ← wire.post head wants advertisement.tips
  let report ← (parse wire.decoder wire.lossy body).mapError fun error =>
    .reportUnread error.message
  match report.unpackError with
  | some why => .error (.packRefused why)
  | none => .ok report

def push (wire : Wire) (request : PushRequest) (held : RefMap ObjectId)
    (advertisement : Advertisement) : Except Error (List RefOutcome) := do
  let steps ← prepare isAncestor request held advertisement
  let commands := commandsOf steps
  if commands.isEmpty then .ok (settled steps)
  else
    let report ← send wire commands request.atomic advertisement
    .ok (reported steps report)

end Push

/-! ## What a step says of its refspec -/

def Step.destination : Step → String
  | .send command => command.refname
  | .done outcome => outcome.destination

section Steps

variable (held : RefMap ObjectId) (advertisement : Advertisement)

def RefSpec.UpToDate (spec : RefSpec) : Prop :=
  asked held spec = some (advertisement.value spec.named)

/-- A step made of a spec: a command for what it asks, or an outcome that is no change exactly when
none was asked for and a refusal otherwise. -/
inductive Plans (spec : RefSpec) : Step → Prop where
  | send {command : Command} (refname : command.refname = spec.named)
      (old : command.old = advertisement.value spec.named)
      (new : asked held spec = some command.new) (force : command.force = spec.force)
      (moves : ¬spec.UpToDate held advertisement) : Plans spec (.send command)
  | upToDate {old new : ObjectId} (isUpToDate : spec.UpToDate held advertisement) :
      Plans spec (.done ⟨spec.named, old, new, .upToDate⟩)
  | refused {old new : ObjectId} {why : String} (moves : ¬spec.UpToDate held advertisement) :
      Plans spec (.done ⟨spec.named, old, new, .rejected why⟩)

variable {held advertisement}

theorem destination_eq {spec : RefSpec} {named : String}
    (isNamed : destination spec = .ok named) : named = spec.named := by
  unfold destination at isNamed
  dsimp only at isNamed
  split_ifs at isNamed
  exact (Except.ok.inj isNamed).symm

theorem plans_step (spec : RefSpec) :
    Plans held advertisement spec (step spec spec.named held advertisement) := by
  unfold step
  cases wanted : asked held spec with
  | none => exact .refused (by simp [RefSpec.UpToDate, wanted])
  | some new =>
    dsimp only
    split_ifs with same
    · exact .upToDate (by simp [RefSpec.UpToDate, wanted, same])
    · refine .send rfl rfl wanted rfl ?_
      simp only [RefSpec.UpToDate, wanted, Option.some.injEq]
      exact fun equal => same equal.symm

theorem planFrom_spec {destinations : List String} {specs : List RefSpec} {steps : List Step}
    (planned : planFrom held advertisement destinations specs = .ok steps) :
    List.Forall₂ (Plans held advertisement) specs steps ∧
      (specs.map RefSpec.named).Nodup ∧
      ∀ spec ∈ specs, spec.named ∉ destinations := by
  induction specs generalizing destinations steps with
  | nil =>
    cases planned
    exact ⟨.nil, nodup_nil, fun _ listed => nomatch listed⟩
  | cons spec specs ih =>
    rw [planFrom, Except.bind_eq_ok_iff] at planned
    rcases planned with ⟨named, isNamed, planned⟩
    rw [destination_eq isNamed] at planned
    split_ifs at planned with repeated
    rw [Except.bind_eq_ok_iff] at planned
    rcases planned with ⟨rest, plannedRest, ⟨⟩⟩
    rcases ih plannedRest with ⟨plans, distinct, fresh⟩
    refine ⟨.cons (plans_step spec) plans, ?_, ?_⟩
    · rw [map_cons, nodup_cons]
      refine ⟨?_, distinct⟩
      intro again
      rcases mem_map.mp again with ⟨other, otherMem, same⟩
      exact fresh other otherMem (same ▸ mem_cons_self)
    · rw [forall_mem_cons]
      refine ⟨repeated, fun other otherMem => ?_⟩
      exact fun listed => fresh other otherMem (mem_cons_of_mem _ listed)

theorem Plans.destination {spec : RefSpec} {step : Step}
    (plans : Plans held advertisement spec step) : step.destination = spec.named := by
  cases plans with
  | send refname => exact refname
  | upToDate => rfl
  | refused => rfl

end Steps

section Screen

variable {isAncestor : ObjectId → ObjectId → Except Error Bool} {held : RefMap ObjectId}
  {advertisement : Advertisement}

def Guarded (isAncestor : ObjectId → ObjectId → Except Error Bool) : Step → Prop
  | .done _ => True
  | .send command => command.force = false → command.old ≠ .null → command.new ≠ .null →
      isAncestor command.old command.new = .ok true

theorem guard_spec {spec : RefSpec} {step checked : Step}
    (plans : Plans held advertisement spec step) (isChecked : guard isAncestor step = .ok checked) :
    Plans held advertisement spec checked ∧ Guarded isAncestor checked := by
  cases step with
  | done outcome =>
    cases isChecked
    exact ⟨plans, trivial⟩
  | send command =>
    rw [guard] at isChecked
    split_ifs at isChecked with unguarded
    · cases isChecked
      refine ⟨plans, fun unforced hasOld hasNew => ?_⟩
      simp [unforced, hasOld, hasNew, Command.deletes] at unguarded
    · rw [Except.bind_eq_ok_iff] at isChecked
      rcases isChecked with ⟨ancestor, answered, isChecked⟩
      split_ifs at isChecked with isAnc
      · cases isChecked
        exact ⟨plans, fun _ _ _ => isAnc ▸ answered⟩
      · cases isChecked
        cases plans with
        | send refname _ _ _ moves => exact ⟨refname ▸ .refused moves, trivial⟩

theorem holdBack_spec {specs : List RefSpec} {steps : List Step}
    (good : List.Forall₂
      (fun spec step => Plans held advertisement spec step ∧ Guarded isAncestor step) specs steps) :
    List.Forall₂ (fun spec step => Plans held advertisement spec step ∧ Guarded isAncestor step)
        specs (holdBack steps) ∧
      (commandsOf (holdBack steps) = [] ∨
        ∀ step ∈ holdBack steps, step.refused = none) := by
  unfold holdBack
  split
  · next none_ => exact ⟨good, .inr (List.findSome?_eq_none_iff.mp none_)⟩
  · refine ⟨?_, .inl ?_⟩
    · rw [forall₂_map_right_iff]
      refine good.imp fun spec step ⟨plans, guarded⟩ => ?_
      cases plans with
      | @send command refname _ _ _ moves =>
        refine ⟨?_, trivial⟩
        dsimp only
        rw [refname]
        exact .refused moves
      | upToDate isUpToDate => exact ⟨.upToDate isUpToDate, trivial⟩
      | refused moves => exact ⟨.refused moves, trivial⟩
    · rw [commandsOf, filterMap_map, filterMap_eq_nil_iff]
      intro step _
      cases step <;> rfl

structure Prepared (isAncestor : ObjectId → ObjectId → Except Error Bool) (request : PushRequest)
    (held : RefMap ObjectId) (advertisement : Advertisement) (steps : List Step) : Prop where
  good : List.Forall₂
    (fun spec step => Plans held advertisement spec step ∧ Guarded isAncestor step)
    request.refs steps
  distinct : (request.refs.map RefSpec.named).Nodup
  whole : request.atomic = true →
    commandsOf steps = [] ∨ ∀ step ∈ steps, step.refused = none

theorem prepared_of_prepare {request : PushRequest} {steps : List Step}
    (isPrepared : prepare isAncestor request held advertisement = .ok steps) :
    Prepared isAncestor request held advertisement steps := by
  unfold prepare at isPrepared
  split_ifs at isPrepared
  all_goals
    simp only [Except.bind_eq_ok_iff, fastForwardOnly, Except.mapM_eq_ok_iff] at isPrepared
    rcases isPrepared with ⟨planned, isPlanned, checked, isChecked, ⟨⟩⟩
    rcases planFrom_spec isPlanned with ⟨plans, distinct, -⟩
    have good := Lists.forall₂_trans
      (fun spec step checked (plans : Plans held advertisement spec step)
        (isChecked : guard isAncestor step = .ok checked) => guard_spec plans isChecked)
      plans isChecked
  · rcases holdBack_spec good with ⟨kept, whole⟩
    exact ⟨kept, distinct, fun _ => whole⟩
  · exact ⟨good, distinct, fun atomic => absurd atomic ‹_›⟩

variable {request : PushRequest} {steps : List Step}

theorem Prepared.named (prepared : Prepared isAncestor request held advertisement steps) :
    steps.map Step.destination = request.refs.map RefSpec.named := by
  have good := prepared.good
  clear prepared
  generalize request.refs = specs at good
  induction good with
  | nil => rfl
  | cons head _ ih => rw [map_cons, map_cons, head.1.destination, ih]

variable {command : Command}

theorem mem_commandsOf : command ∈ commandsOf steps ↔ .send command ∈ steps := by
  rw [commandsOf, mem_filterMap]
  constructor
  · rintro ⟨step, stepMem, sends⟩
    cases step with
    | send other => exact Option.some.inj sends ▸ stepMem
    | done outcome => cases sends
  · exact fun listed => ⟨_, listed, rfl⟩

theorem commandsOf_sublist (steps : List Step) :
    List.Sublist ((commandsOf steps).map Command.refname) (steps.map Step.destination) := by
  induction steps with
  | nil => exact .slnil
  | cons step steps ih =>
    cases step with
    | send command => exact ih.cons_cons command.refname
    | done outcome => exact ih.cons outcome.destination

theorem Prepared.step_eq (prepared : Prepared isAncestor request held advertisement steps)
    {step : Step} (stepMem : step ∈ steps) (sent : command ∈ commandsOf steps)
    (same : command.refname = step.destination) : step = .send command := by
  have distinct := prepared.distinct
  rw [← prepared.named] at distinct
  exact inj_on_of_nodup_map distinct stepMem (mem_commandsOf.mp sent) same.symm

theorem Prepared.of_command (prepared : Prepared isAncestor request held advertisement steps)
    (sent : command ∈ commandsOf steps) :
    ∃ spec ∈ request.refs, Plans held advertisement spec (.send command) ∧
      Guarded isAncestor (.send command) := by
  rcases Lists.exists_of_forall₂_right prepared.good (mem_commandsOf.mp sent) with
    ⟨spec, specMem, good⟩
  exact ⟨spec, specMem, good⟩

end Screen

/-! ## What a push sends and what it answers -/

section Result

variable (parents : ObjectId → List ObjectId) (request : PushRequest) (held : RefMap ObjectId)
  (advertisement : Advertisement)

def Descends (new old : ObjectId) : Prop :=
  Relation.ReflTransGen (fun child parent => parent ∈ parents child) new old

/-- Commands that may be sent: each is asked for by a refspec, against the value advertised, no ref
is named twice, history is discarded by force only, and an atomic push sends all it has to. -/
structure SafeToSend (commands : List Command) : Prop where
  askedFor : ∀ command ∈ commands, ∃ spec ∈ request.refs, spec.named = command.refname ∧
    spec.force = command.force ∧ asked held spec = some command.new
  old : ∀ command ∈ commands, command.old = advertisement.value command.refname
  distinct : (commands.map Command.refname).Nodup
  descends : ∀ command ∈ commands, command.force = false → command.old ≠ .null →
    command.new ≠ .null → Descends parents command.new command.old
  whole : request.atomic = true → commands = [] ∨
    ∀ spec ∈ request.refs, ¬spec.UpToDate held advertisement →
      ∃ command ∈ commands, command.refname = spec.named

def Landed (commands : List Command) (report : Report) (refname : String) (deletes : Bool) : Prop :=
  ∃ command ∈ commands, command.refname = refname ∧ command.deletes = deletes ∧
    report.refs refname = some none

/-- The outcome of a refspec. Whatever is none of the three is a refusal. -/
structure Answers (commands : List Command) (report : Report) (spec : RefSpec)
    (outcome : RefOutcome) : Prop where
  destination : outcome.destination = spec.named
  updated : outcome.status = .updated ↔ Landed commands report spec.named false
  deleted : outcome.status = .deleted ↔ Landed commands report spec.named true
  upToDate : outcome.status = .upToDate ↔ spec.UpToDate held advertisement

variable {parents request held advertisement}
variable {isAncestor : ObjectId → ObjectId → Except Error Bool}

variable {steps : List Step}

theorem Prepared.safeToSend (prepared : Prepared isAncestor request held advertisement steps)
    (reaches : ∀ old new answer, isAncestor old new = .ok answer →
      (answer = true ↔ Descends parents new old)) :
    SafeToSend parents request held advertisement (commandsOf steps) where
  askedFor command sent := by
    rcases prepared.of_command sent with ⟨spec, specMem, plans, -⟩
    cases plans with
    | send refname _ new force _ => exact ⟨spec, specMem, refname.symm, force.symm, new⟩
  old command sent := by
    rcases prepared.of_command sent with ⟨spec, -, plans, -⟩
    cases plans with
    | send refname old _ _ _ => rw [old, refname]
  distinct := by
    have distinct := prepared.distinct
    rw [← prepared.named] at distinct
    exact distinct.sublist (commandsOf_sublist steps)
  descends command sent unforced hasOld hasNew := by
    rcases prepared.of_command sent with ⟨-, -, -, guarded⟩
    exact (reaches _ _ true (guarded unforced hasOld hasNew)).mp rfl
  whole atomic := by
    refine (prepared.whole atomic).imp_right fun unrefused spec specMem moves => ?_
    rcases Lists.exists_of_forall₂_left prepared.good specMem with ⟨step, stepMem, plans, -⟩
    cases plans with
    | send refname _ _ _ _ => exact ⟨_, mem_commandsOf.mpr stepMem, refname⟩
    | upToDate isUpToDate => exact absurd isUpToDate moves
    | refused _ => cases unrefused _ stepMem

def outcomeOf (report : Report) : Step → RefOutcome
  | .done outcome => outcome
  | .send command => ⟨command.refname, command.old, command.new, statusOf report command⟩

theorem reported_eq_map (steps : List Step) (report : Report) :
    reported steps report = steps.map (outcomeOf report) := by
  apply map_congr_left
  intro step _
  cases step <;> rfl

theorem settled_eq_map (unsent : commandsOf steps = []) (report : Report) :
    settled steps = steps.map (outcomeOf report) := by
  induction steps with
  | nil => rfl
  | cons step steps ih =>
    cases step with
    | send command => cases unsent
    | done outcome => exact congrArg (outcome :: ·) (ih unsent)

theorem statusOf_spec (report : Report) (command : Command) :
    (statusOf report command = .updated ↔
        command.deletes = false ∧ report.refs command.refname = some none) ∧
      (statusOf report command = .deleted ↔
        command.deletes = true ∧ report.refs command.refname = some none) ∧
      statusOf report command ≠ .upToDate := by
  unfold statusOf
  cases answer : report.refs command.refname with
  | none => simp
  | some refusal =>
    cases refusal with
    | none => cases deletes : command.deletes <;> simp
    | some why => simp

theorem Prepared.answers (prepared : Prepared isAncestor request held advertisement steps)
    (report : Report) :
    List.Forall₂ (Answers held advertisement (commandsOf steps) report) request.refs
      (steps.map (outcomeOf report)) := by
  rw [forall₂_map_right_iff]
  refine (Lists.forall₂_mem_right prepared.good).imp ?_
  rintro spec step ⟨stepMem, plans, -⟩
  -- Any command for the ref is this step's own, so a step already done has none.
  have own : ∀ command ∈ commandsOf steps, command.refname = spec.named →
      step = .send command := by
    intro command sent same
    exact prepared.step_eq stepMem sent (same.trans plans.destination.symm)
  have unsent : (∀ command, step ≠ .send command) → ∀ deletes,
      ¬Landed (commandsOf steps) report spec.named deletes := by
    rintro isDone deletes ⟨other, sent, same, -⟩
    exact isDone other (own other sent same)
  cases plans with
  | @send command refname _ _ _ moves =>
    have status := statusOf_spec report command
    have landed : ∀ deletes, Landed (commandsOf steps) report spec.named deletes ↔
        command.deletes = deletes ∧ report.refs command.refname = some none := by
      intro deletes
      rw [refname]
      constructor
      · rintro ⟨other, sent, same, kind, ok⟩
        cases own other sent same
        exact ⟨kind, ok⟩
      · rintro ⟨kind, ok⟩
        exact ⟨command, mem_commandsOf.mpr stepMem, refname, kind, ok⟩
    refine ⟨refname, status.1.trans (landed false).symm, status.2.1.trans (landed true).symm, ?_⟩
    exact iff_of_false status.2.2 moves
  | upToDate isUpToDate =>
    exact ⟨rfl, iff_of_false nofun (unsent nofun false), iff_of_false nofun (unsent nofun true),
      iff_of_true rfl isUpToDate⟩
  | refused moves =>
    exact ⟨rfl, iff_of_false nofun (unsent nofun false), iff_of_false nofun (unsent nofun true),
      iff_of_false nofun moves⟩

theorem push_eq_ok {wire : Wire} {outcomes : List RefOutcome}
    (pushed : push isAncestor wire request held advertisement = .ok outcomes) :
    ∃ steps report, prepare isAncestor request held advertisement = .ok steps ∧
      (commandsOf steps ≠ [] →
        send wire (commandsOf steps) request.atomic advertisement = .ok report) ∧
      outcomes = steps.map (outcomeOf report) := by
  rw [push, Except.bind_eq_ok_iff] at pushed
  rcases pushed with ⟨steps, isPrepared, pushed⟩
  dsimp only at pushed
  split_ifs at pushed with unsent
  · rw [List.isEmpty_iff] at unsent
    refine ⟨steps, .default, isPrepared, fun some_ => absurd unsent some_, ?_⟩
    rw [← Except.ok.inj pushed, settled_eq_map unsent]
  · rw [Except.bind_eq_ok_iff] at pushed
    rcases pushed with ⟨report, sent, answered⟩
    refine ⟨steps, report, isPrepared, fun _ => sent, ?_⟩
    rw [← Except.ok.inj answered, reported_eq_map]

end Result

/-- A push sends only what may be sent, and answers every refspec in order with what came of it. -/
theorem push_safe (parents : ObjectId → List ObjectId)
    (isAncestor : ObjectId → ObjectId → Except Error Bool)
    (reaches : ∀ old new answer, isAncestor old new = .ok answer →
      (answer = true ↔ Descends parents new old))
    (request : PushRequest) (held : RefMap ObjectId) (advertisement : Advertisement) :
    (∀ steps, prepare isAncestor request held advertisement = .ok steps →
      SafeToSend parents request held advertisement (commandsOf steps)) ∧
    ∀ wire outcomes, push isAncestor wire request held advertisement = .ok outcomes →
      ∃ steps report, prepare isAncestor request held advertisement = .ok steps ∧
        (commandsOf steps ≠ [] →
          send wire (commandsOf steps) request.atomic advertisement = .ok report) ∧
        List.Forall₂ (Answers held advertisement (commandsOf steps) report) request.refs
          outcomes := by
  refine ⟨fun steps isPrepared => (prepared_of_prepare isPrepared).safeToSend reaches, ?_⟩
  intro wire outcomes pushed
  rcases push_eq_ok pushed with ⟨steps, report, isPrepared, sent, rfl⟩
  exact ⟨steps, report, isPrepared, sent, (prepared_of_prepare isPrepared).answers report⟩

/-- A remote one commit behind is sent that commit. -/
theorem push_safe_oneBehind :
    SafeToSend (fun oid => if oid = 2 then [1] else []) ⟨[⟨"refs/heads/main", "", false⟩], true⟩
      (fun refname => if refname = "refs/heads/main" then some 2 else none)
      ⟨fun refname => if refname = "refs/heads/main" then some 1 else none, [1],
        ["report-status", "atomic"]⟩
      [⟨"refs/heads/main", 1, 2, false⟩] := by
  refine (push_safe (fun oid => if oid = 2 then [1] else [])
    (fun old new => .ok (decide (new = old ∨ new = 2 ∧ old = 1))) ?_ _ _ _).1
    [.send ⟨"refs/heads/main", 1, 2, false⟩] rfl
  rintro old new answer ⟨⟩
  rw [decide_eq_true_iff]
  constructor
  · rintro (rfl | ⟨rfl, rfl⟩)
    · exact .refl
    · exact .single (by simp)
  · intro descends
    rcases Relation.ReflTransGen.cases_head descends with same | ⟨parent, isParent, onward⟩
    · exact .inl same
    · by_cases isTwo : new = 2
      · obtain rfl : parent = 1 := by simpa [isTwo] using isParent
        rcases Relation.ReflTransGen.cases_head onward with same | ⟨_, isParent, -⟩
        · exact .inr ⟨isTwo, same.symm⟩
        · simp at isParent
      · simp [isTwo] at isParent

end Enroute.Remote
