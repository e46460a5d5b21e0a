import Mathlib.Tactic
import Mathlib.Logic.Relation

/-!
# Programs of atomic steps

A program takes atomic steps on a shared state and chooses each next step by the answers it has had
so far. In a pool the steps of any number of programs interleave in any order, new programs are
started, and a program may be left where it stands for good.

A `Protocol` says how the state may grow while others run and what a program holds of its own in the
meantime, a *resource* that no step of another program touches. A program that meets its `Spec`
whatever the others do to the state keeps the protocol; a pool of such programs keeps it in every
state it can reach.
-/

namespace Enroute.Atomic

open Relation

/-- A program over a shared state. Each step reads and changes the state at once. -/
inductive Prog (σ : Type) (α : Type) : Type 1 where
  | done (result : α)
  | step {β : Type} (action : σ → β × σ) (next : β → Prog σ α)

namespace Prog

variable {σ α β γ : Type}

def bind : Prog σ α → (α → Prog σ β) → Prog σ β
  | .done result, next => next result
  | .step action rest, next => .step action fun answer => (rest answer).bind next

instance : Monad (Prog σ) where
  pure := .done
  bind := bind

instance : LawfulMonad (Prog σ) := LawfulMonad.mk' (Prog σ)
  (fun program => by
    change program.bind .done = program
    induction program with
    | done result => rfl
    | step action rest ih => exact congrArg (Prog.step action) (funext ih))
  (fun _ _ => rfl)
  (fun program next last => by
    change (program.bind next).bind last = program.bind fun result => (next result).bind last
    induction program with
    | done result => rfl
    | step action rest ih => exact congrArg (Prog.step action) (funext ih))

def read (view : σ → α) : Prog σ α :=
  .step (fun state => (view state, state)) .done

def act (action : σ → α × σ) : Prog σ α :=
  .step action .done

def run : Prog σ α → σ → α × σ
  | .done result, state => (result, state)
  | .step action next, state => (next (action state).1).run (action state).2

@[simp]
theorem run_read (view : σ → α) (state : σ) : (read view).run state = (view state, state) :=
  rfl

@[simp]
theorem run_bind (program : Prog σ α) (next : α → Prog σ β) (state : σ) :
    (program >>= next).run state = (next (program.run state).1).run (program.run state).2 := by
  change (program.bind next).run state = _
  induction program generalizing state with
  | done result => rfl
  | step action rest ih =>
    rw [bind, run, run]
    exact ih _ _

end Prog

/-- How a shared state may change, and what a program can own of it. -/
structure Protocol (σ : Type) where
  /-- What a program can own. -/
  Resource : Type
  /-- Owning nothing. -/
  nothing : Resource
  /-- Two resources that two programs can own at once. -/
  Apart : Resource → Resource → Prop
  apart_symm : ∀ {mine theirs}, Apart mine theirs → Apart theirs mine
  nothing_apart : ∀ theirs, Apart nothing theirs
  /-- A state is sound, and the resource is intact in it. -/
  Good : Resource → σ → Prop
  /-- The second state can come after the first one. -/
  Later : σ → σ → Prop
  later_refl : ∀ state, Later state state
  later_trans : ∀ {first second third}, Later first second → Later second third →
    Later first third

namespace Protocol

variable {σ α β : Type} (protocol : Protocol σ)

/-- A step from one state to another that turns one resource into another and leaves alone
whatever others may own. -/
structure Keeps (mine : protocol.Resource) (before after : σ) (then_ : protocol.Resource) :
    Prop where
  later : protocol.Later before after
  good : protocol.Good then_ after
  frame : ∀ theirs, protocol.Apart mine theirs → protocol.Good theirs before →
    protocol.Apart then_ theirs ∧ protocol.Good theirs after

/-- Every step of the program, taken in whatever state the others have left, keeps the protocol,
and its result satisfies the postcondition. -/
def Spec (post : protocol.Resource → σ → α → Prop) :
    protocol.Resource → σ → Prog σ α → Prop
  | mine, state, .done result => post mine state result
  | mine, state, .step action next => ∀ now, protocol.Later state now → protocol.Good mine now →
      ∃ then_, protocol.Keeps mine now (action now).2 then_ ∧
        Spec post then_ (action now).2 (next (action now).1)

variable {protocol} {mine : protocol.Resource} {state : σ}

theorem Keeps.refl (good : protocol.Good mine state) : protocol.Keeps mine state state mine :=
  ⟨protocol.later_refl state, good, fun _ apart intact => ⟨apart, intact⟩⟩

variable {post : protocol.Resource → σ → α → Prop}

theorem spec_read {view : σ → α}
    (holds : ∀ now, protocol.Later state now → protocol.Good mine now → post mine now (view now)) :
    protocol.Spec post mine state (Prog.read view) :=
  fun now later good => ⟨mine, Keeps.refl good, holds now later good⟩

theorem spec_act {action : σ → α × σ}
    (holds : ∀ now, protocol.Later state now → protocol.Good mine now →
      ∃ then_, protocol.Keeps mine now (action now).2 then_ ∧
        post then_ (action now).2 (action now).1) :
    protocol.Spec post mine state (Prog.act action) :=
  holds

theorem Spec.bind {middle : protocol.Resource → σ → α → Prop}
    {post : protocol.Resource → σ → β → Prop} {program : Prog σ α} {next : α → Prog σ β}
    (first : protocol.Spec middle mine state program)
    (rest : ∀ then_ now result, middle then_ now result → protocol.Spec post then_ now (next result)) :
    protocol.Spec post mine state (program >>= next) := by
  change protocol.Spec post mine state (program.bind next)
  induction program generalizing mine state with
  | done result => exact rest mine state result first
  | step action after ih =>
    intro now later good
    rcases first now later good with ⟨then_, keeps, goesOn⟩
    exact ⟨then_, keeps, ih _ goesOn⟩

theorem Spec.mono {weaker : protocol.Resource → σ → α → Prop} {program : Prog σ α}
    (spec : protocol.Spec post mine state program)
    (weaken : ∀ then_ now result, post then_ now result → weaker then_ now result) :
    protocol.Spec weaker mine state program := by
  induction program generalizing mine state with
  | done result => exact weaken mine state result spec
  | step action after ih =>
    intro now later good
    rcases spec now later good with ⟨then_, keeps, goesOn⟩
    exact ⟨then_, keeps, ih _ goesOn⟩

/-! ### Programs that can fail

What a failing program leaves behind is whatever its steps did: only its answer is an error. -/

variable {ε : Type}

/-- The specification of a program that can fail: its postcondition is about its result when it
has one. -/
def SpecOk (post : protocol.Resource → σ → α → Prop) (mine : protocol.Resource) (state : σ)
    (program : ExceptT ε (Prog σ) α) : Prop :=
  protocol.Spec (fun then_ now answer => ∀ result, answer = .ok result → post then_ now result)
    mine state program.run

theorem specOk_pure {result : α} (holds : post mine state result) :
    protocol.SpecOk post mine state (pure result : ExceptT ε (Prog σ) α) := by
  rintro other ⟨⟩
  exact holds

theorem specOk_check {answer : Except ε α}
    (holds : ∀ result, answer = .ok result → post mine state result) :
    protocol.SpecOk post mine state (ExceptT.mk (pure answer)) :=
  holds

theorem specOk_read {view : σ → Except ε α}
    (holds : ∀ now result, protocol.Later state now → protocol.Good mine now →
      view now = .ok result → post mine now result) : protocol.SpecOk post mine state (ExceptT.mk (Prog.read view)) :=
  spec_read fun now later good result isOk => holds now result later good isOk

theorem specOk_act {action : σ → Except ε α × σ}
    (holds : ∀ now, protocol.Later state now → protocol.Good mine now →
      ∃ then_, protocol.Keeps mine now (action now).2 then_ ∧
        ∀ result, (action now).1 = .ok result → post then_ (action now).2 result) : protocol.SpecOk post mine state (ExceptT.mk (Prog.act action)) :=
  spec_act holds

theorem SpecOk.bind {middle : protocol.Resource → σ → α → Prop}
    {post : protocol.Resource → σ → β → Prop} {program : ExceptT ε (Prog σ) α}
    {next : α → ExceptT ε (Prog σ) β} (first : protocol.SpecOk middle mine state program)
    (rest : ∀ then_ now result, middle then_ now result →
      protocol.SpecOk post then_ now (next result)) :
    protocol.SpecOk post mine state (program >>= next) := by
  refine Spec.bind first ?_
  rintro then_ now (error | result) holds
  · rintro result ⟨⟩
  · exact rest then_ now result (holds result rfl)

theorem SpecOk.mono {weaker : protocol.Resource → σ → α → Prop} {program : ExceptT ε (Prog σ) α}
    (spec : protocol.SpecOk post mine state program)
    (weaken : ∀ then_ now result, post then_ now result → weaker then_ now result) :
    protocol.SpecOk weaker mine state program :=
  Spec.mono spec fun then_ now _ holds result isOk => weaken then_ now result (holds result isOk)

theorem SpecOk.keeps {program : ExceptT ε (Prog σ) α}
    (spec : protocol.SpecOk post mine state program) (convert : α → β) :
    protocol.Spec (fun _ _ _ => True) mine state (convert <$> program : ExceptT ε (Prog σ) β).run := by
  have mapped : protocol.SpecOk (fun _ _ _ => True) mine state (convert <$> program) := by
    rw [map_eq_pure_bind]
    exact spec.bind fun _ _ _ _ => specOk_pure trivial
  exact Spec.mono mapped fun _ _ _ _ => trivial

theorem specOk_foldlM {γ : Type} {items : List γ} {program : β → γ → ExceptT ε (Prog σ) β}
    (each : ∀ item ∈ items, ∀ now sofar, protocol.Later state now → protocol.SpecOk
      (fun then_ after _ => mine = then_ ∧ protocol.Later now after) mine now (program sofar item))
    (start : β) : protocol.SpecOk (fun then_ after _ => mine = then_ ∧ protocol.Later state after)
      mine state (items.foldlM program start) := by
  induction items generalizing state start with
  | nil => exact specOk_pure ⟨rfl, protocol.later_refl _⟩
  | cons item items ih =>
    rw [List.foldlM_cons]
    refine SpecOk.bind (each item List.mem_cons_self state start (protocol.later_refl _)) ?_
    rintro _ now sofar ⟨rfl, later⟩
    refine SpecOk.mono (ih (fun other otherMem after sofar laterStill => ?_) sofar) ?_
    · exact each other (List.mem_cons_of_mem _ otherMem) after sofar
        (protocol.later_trans later laterStill)
    · rintro _ after _ ⟨rfl, laterStill⟩
      exact ⟨rfl, protocol.later_trans later laterStill⟩

theorem specOk_mapM {γ : Type} {items : List γ} {program : γ → ExceptT ε (Prog σ) α}
    {holds : γ → α → Prop}
    (each : ∀ item ∈ items, ∀ now, protocol.Later state now → protocol.SpecOk
      (fun then_ after result => mine = then_ ∧ protocol.Later now after ∧ holds item result)
      mine now (program item)) :
    protocol.SpecOk (fun then_ after results => mine = then_ ∧ protocol.Later state after ∧
      List.Forall₂ holds items results) mine state (items.mapM program) := by
  induction items generalizing state with
  | nil => exact specOk_pure ⟨rfl, protocol.later_refl _, .nil⟩
  | cons item items ih =>
    rw [List.mapM_cons]
    refine SpecOk.bind (each item List.mem_cons_self state (protocol.later_refl _)) ?_
    rintro _ now result ⟨rfl, later, holdsFirst⟩
    refine SpecOk.bind (ih fun other otherMem after laterStill => ?_) ?_
    · exact each other (List.mem_cons_of_mem _ otherMem) after
        (protocol.later_trans later laterStill)
    · rintro _ after results ⟨rfl, laterStill, holdsRest⟩
      exact specOk_pure ⟨rfl, protocol.later_trans later laterStill,
        .cons holdsFirst holdsRest⟩

end Protocol

/-! ## Pools -/

/-- A state and the programs started over it, each with what it was started for. -/
structure Pool (σ : Type) (κ : Type) (α : Type) where
  state : σ
  threads : ℕ → Option (κ × Prog σ α)

namespace Pool

variable {σ κ α : Type}

def idle (state : σ) : Pool σ κ α where
  state
  threads := fun _ => none

inductive Step (body : κ → Prog σ α) (starts : σ → κ → Prop) : Pool σ κ α → Pool σ κ α → Prop where
  | start {pool : Pool σ κ α} (thread : ℕ) (call : κ) (free : pool.threads thread = none)
      (allowed : starts pool.state call) :
      Step body starts pool
        { pool with threads := Function.update pool.threads thread (some (call, body call)) }
  | act {pool : Pool σ κ α} (thread : ℕ) {call : κ} {β : Type} {action : σ → β × σ}
      {next : β → Prog σ α} (running : pool.threads thread = some (call, .step action next)) :
      Step body starts pool
        { state := (action pool.state).2
          threads := Function.update pool.threads thread
            (some (call, next (action pool.state).1)) }

def Reaches (body : κ → Prog σ α) (starts : σ → κ → Prop) : Pool σ κ α → Pool σ κ α → Prop :=
  ReflTransGen (Step body starts)

/-- Every started program is somewhere along its specification and owns what it needs, apart from
what the others own. -/
structure Sound (protocol : Protocol σ) (post : κ → protocol.Resource → σ → α → Prop)
    (pool : Pool σ κ α) (owned : ℕ → protocol.Resource) : Prop where
  good : protocol.Good protocol.nothing pool.state
  intact : ∀ thread, protocol.Good (owned thread) pool.state
  apart : ∀ thread other, thread ≠ other → protocol.Apart (owned thread) (owned other)
  along : ∀ thread call program, pool.threads thread = some (call, program) →
    ∃ since, protocol.Later since pool.state ∧
      protocol.Spec (post call) (owned thread) since program
  unowned : ∀ thread, pool.threads thread = none → owned thread = protocol.nothing

variable {protocol : Protocol σ} {post : κ → protocol.Resource → σ → α → Prop}
  {body : κ → Prog σ α} {starts : σ → κ → Prop}

variable {pool : Pool σ κ α}

theorem Sound.step {after : Pool σ κ α} {owned : ℕ → protocol.Resource}
    (sound : pool.Sound protocol post owned) (taken : Step body starts pool after)
    (meets : ∀ state call, protocol.Good protocol.nothing state → starts state call →
      protocol.Spec (post call) protocol.nothing state (body call)) :
    ∃ owned', after.Sound protocol post owned' ∧ protocol.Later pool.state after.state := by
  cases taken with
  | start thread call free allowed =>
    refine ⟨owned, ⟨sound.good, sound.intact, sound.apart, ?_, ?_⟩, protocol.later_refl _⟩
    · intro other otherCall program running
      dsimp only at running
      by_cases same : other = thread
      · subst same
        rw [Function.update_self] at running
        cases running
        rw [sound.unowned other free]
        exact ⟨pool.state, protocol.later_refl _, meets pool.state call sound.good allowed⟩
      · rw [Function.update_of_ne same] at running
        exact sound.along other otherCall program running
    · intro other stopped
      dsimp only at stopped
      by_cases same : other = thread
      · subst same
        rw [Function.update_self] at stopped
        cases stopped
      · rw [Function.update_of_ne same] at stopped
        exact sound.unowned other stopped
  | @act thread call β action next running =>
    rcases sound.along thread call _ running with ⟨since, later, spec⟩
    rcases spec pool.state later (sound.intact thread) with ⟨then_, keeps, goesOn⟩
    have frame : ∀ other, other ≠ thread → protocol.Apart then_ (owned other) ∧
        protocol.Good (owned other) (action pool.state).2 := fun other different =>
      keeps.frame (owned other) (sound.apart thread other (Ne.symm different))
        (sound.intact other)
    have still : protocol.Good protocol.nothing (action pool.state).2 :=
      (keeps.frame protocol.nothing (protocol.apart_symm (protocol.nothing_apart _))
        sound.good).2
    refine ⟨Function.update owned thread then_, ⟨still, ?_, ?_, ?_, ?_⟩, keeps.later⟩
    · intro other
      by_cases same : other = thread
      · subst same
        rw [Function.update_self]
        exact keeps.good
      · rw [Function.update_of_ne same]
        exact (frame other same).2
    · intro first second different
      by_cases isFirst : first = thread
      · subst isFirst
        rw [Function.update_self, Function.update_of_ne (Ne.symm different)]
        exact (frame second (Ne.symm different)).1
      · rw [Function.update_of_ne isFirst]
        by_cases isSecond : second = thread
        · subst isSecond
          rw [Function.update_self]
          exact protocol.apart_symm (frame first different).1
        · rw [Function.update_of_ne isSecond]
          exact sound.apart first second different
    · intro other otherCall program otherRunning
      dsimp only at otherRunning
      by_cases same : other = thread
      · subst same
        rw [Function.update_self] at otherRunning ⊢
        cases otherRunning
        exact ⟨_, protocol.later_refl _, goesOn⟩
      · rw [Function.update_of_ne same] at otherRunning ⊢
        rcases sound.along other otherCall program otherRunning with ⟨otherSince, before, otherSpec⟩
        exact ⟨otherSince, protocol.later_trans before keeps.later, otherSpec⟩
    · intro other stopped
      dsimp only at stopped
      by_cases same : other = thread
      · subst same
        rw [Function.update_self] at stopped
        cases stopped
      · rw [Function.update_of_ne same] at stopped ⊢
        exact sound.unowned other stopped

theorem Sound.reaches {after : Pool σ κ α} {owned : ℕ → protocol.Resource}
    (sound : pool.Sound protocol post owned) (run : Reaches body starts pool after)
    (meets : ∀ state call, protocol.Good protocol.nothing state → starts state call →
      protocol.Spec (post call) protocol.nothing state (body call)) :
    ∃ owned', after.Sound protocol post owned' ∧ protocol.Later pool.state after.state := by
  induction run with
  | refl => exact ⟨owned, sound, protocol.later_refl _⟩
  | tail _ taken ih =>
    rcases ih with ⟨between, soundBetween, later⟩
    rcases soundBetween.step taken meets with ⟨owned', soundAfter, laterStill⟩
    exact ⟨owned', soundAfter, protocol.later_trans later laterStill⟩

theorem sound_idle {state : σ} (good : protocol.Good protocol.nothing state) :
    (idle state : Pool σ κ α).Sound protocol post fun _ => protocol.nothing where
  good := good
  intact := fun _ => good
  apart := fun _ _ _ => protocol.nothing_apart _
  along := fun _ _ _ running => by cases running
  unowned := fun _ _ => rfl

/-! ## Schedules -/

def launch (body : κ → Prog σ α) (pool : Pool σ κ α) (thread : ℕ) (call : κ) : Pool σ κ α :=
  { pool with threads := Function.update pool.threads thread (some (call, body call)) }

theorem reaches_launch {thread : ℕ} {call : κ} (free : pool.threads thread = none)
    (allowed : starts pool.state call) : Reaches body starts pool (pool.launch body thread call) :=
  .single (.start thread call free allowed)

def advance (pool : Pool σ κ α) (thread : ℕ) : Pool σ κ α :=
  match pool.threads thread with
  | some (call, .step action next) =>
    { state := (action pool.state).2
      threads := Function.update pool.threads thread (some (call, next (action pool.state).1)) }
  | _ => pool

theorem reaches_advance (body : κ → Prog σ α) (starts : σ → κ → Prop) (pool : Pool σ κ α)
    (thread : ℕ) : Reaches body starts pool (pool.advance thread) := by
  rw [advance]
  split
  next call β action next running => exact .single (.act thread running)
  next => exact .refl

theorem reaches_schedule (body : κ → Prog σ α) (starts : σ → κ → Prop) (pool : Pool σ κ α)
    (schedule : List ℕ) : Reaches body starts pool (schedule.foldl advance pool) := by
  induction schedule generalizing pool with
  | nil => exact .refl
  | cons thread schedule ih =>
    exact (reaches_advance body starts pool thread).trans (ih (pool.advance thread))

end Pool

end Enroute.Atomic
