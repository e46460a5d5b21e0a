import Mathlib.Data.Fintype.Card
import Mathlib.Data.List.Nodup
import Mathlib.Logic.Relation
import Mathlib.Tactic

/-!
# Walking along successors

A depth-first walk over nodes with at most one edge out of each. A node is put out once its
successor is, or once the successor is on the walk already and waiting for it would never end. The
walk is a path, so an edge that is left unsatisfied closes a cycle whose other nodes are all on the
walk, each right below its successor.
-/

namespace Enroute.SuccessorWalk

open List Relation

variable {α : Type*}

def Edge (successor : α → Option α) (node target : α) : Prop :=
  successor node = some target

def OnCycle (edge : α → α → Prop) (one other : α) : Prop :=
  TransGen edge one other ∧ TransGen edge other one

variable {one other node first second : α} {order : List α}

theorem OnCycle.symm {edge : α → α → Prop} (onCycle : OnCycle edge one other) :
    OnCycle edge other one :=
  ⟨onCycle.2, onCycle.1⟩

theorem OnCycle.trans {edge : α → α → Prop} {third : α} (onCycle : OnCycle edge one other)
    (onward : OnCycle edge other third) : OnCycle edge one third :=
  ⟨onCycle.1.trans onward.1, onward.2.trans onCycle.2⟩

theorem onCycle_of_edge {successor : α → Option α} {target : α} (edge : Edge successor node target)
    (cyclic : TransGen (Edge successor) node node) : OnCycle (Edge successor) node target := by
  refine ⟨.single edge, ?_⟩
  rcases TransGen.head'_iff.mp cyclic with ⟨next, onward, back⟩
  obtain rfl := Option.some.inj (edge.symm.trans onward)
  rcases reflTransGen_iff_eq_or_transGen.mp back with same | back
  · exact same ▸ cyclic
  · exact back

theorem eq_of_edge_self {successor : α → Option α} (loop : Edge successor node node)
    (leads : TransGen (Edge successor) node other) : other = node := by
  induction leads with
  | single edge => exact Option.some.inj (edge.symm.trans loop)
  | tail _ edge ih =>
    subst ih
    exact Option.some.inj (edge.symm.trans loop)

variable [DecidableEq α]

def Before (order : List α) (first second : α) : Prop :=
  second ∈ order ∧ order.idxOf first < order.idxOf second

instance (order : List α) (first second : α) : Decidable (Before order first second) :=
  inferInstanceAs (Decidable (_ ∧ _))

/-- Targets stand before what points at them, but for one edge of every cycle that has one to
spare. -/
structure TargetsFirst (edge : α → α → Prop) (order : List α) : Prop where
  cyclic : ∀ node target, edge node target → Before order node target →
    OnCycle edge node target
  once : ∀ node, (∃ other, other ≠ node ∧ OnCycle edge node other) →
    ∃! late, OnCycle edge node late ∧ ∃ target, edge late target ∧ Before order late target

theorem Before.mem (before : Before order first second) : first ∈ order :=
  idxOf_lt_length_iff.mp (before.2.trans_le idxOf_le_length)

theorem Before.append (before : Before order first second) (node : α) :
    Before (order ++ [node]) first second := by
  refine ⟨mem_append_left _ before.1, ?_⟩
  rw [idxOf_append_of_mem before.mem, idxOf_append_of_mem before.1]
  exact before.2

theorem before_last (listed : first ∈ order) (isNew : node ∉ order) :
    Before (order ++ [node]) first node := by
  refine ⟨mem_append_right _ (mem_singleton_self node), ?_⟩
  rw [idxOf_append_of_mem listed, idxOf_append_of_notMem isNew]
  exact (idxOf_lt_length_iff.mpr listed).trans_le (Nat.le_add_right _ _)

theorem before_or_before (oneListed : one ∈ order) (otherListed : other ∈ order)
    (distinct : one ≠ other) : Before order one other ∨ Before order other one := by
  rcases Nat.lt_trichotomy (order.idxOf one) (order.idxOf other) with less | same | greater
  · exact .inl ⟨otherListed, less⟩
  · exact absurd ((idxOf_inj oneListed).mp same) distinct
  · exact .inr ⟨oneListed, greater⟩

theorem Before.asymm (before : Before order first second) : ¬Before order second first :=
  fun after => Nat.lt_asymm before.2 after.2

/-! ## The walk -/

inductive Visit where
  | fresh
  | onWalk
  | emitted
  deriving DecidableEq, Repr

structure Walk (α : Type*) where
  /-- The nodes the walk is yet to be started from. -/
  starts : List α
  visits : α → Visit
  /-- The nodes the walk is at, the last one first. -/
  stack : List α
  order : List α

section Steps

variable (successor : α → Option α)

def step (walk : Walk α) : Option (Walk α) :=
  match walk.stack, walk.starts with
  | [], [] => none
  | [], start :: starts =>
    let visits := Function.update walk.visits start .onWalk
    if walk.visits start = .fresh then some ⟨starts, visits, [start], walk.order⟩
    else some ⟨starts, visits, [], walk.order⟩
  | top :: rest, _ =>
    match (successor top).filter fun target => walk.visits target = .fresh with
    | some target =>
      some { walk with
        visits := Function.update walk.visits target .onWalk
        stack := target :: top :: rest }
    | none =>
      some { walk with
        visits := Function.update walk.visits top .emitted
        stack := rest
        order := walk.order ++ [top] }

def run : ℕ → Walk α → Option (List α)
  | 0, _ => none
  | fuel + 1, walk =>
    match step successor walk with
    | none => some walk.order
    | some walk => run fuel walk

def Tame (walk : Walk α) (node : α) : Prop :=
  ∃ target, Edge successor node target ∧ (Before walk.order target node ∨
    node ∈ walk.stack ∧ (target ∈ walk.order ∨ Before walk.stack target node))

/-- A node that was put out before its successor closes a cycle of nodes that are all tame. -/
def Settled (walk : Walk α) (node : α) : Prop :=
  ∀ target, Edge successor node target → Before walk.order target node ∨
    ReflTransGen (Edge successor) target node ∧
      ∀ other, OnCycle (Edge successor) node other → other ≠ node → Tame successor walk other

structure Sound (walk : Walk α) : Prop where
  visited : ∀ node, walk.visits node ≠ .fresh ↔ node ∈ walk.order ∨ node ∈ walk.stack
  nodup : (walk.order ++ walk.stack).Nodup
  covered : ∀ node, node ∈ walk.starts ∨ node ∈ walk.order ∨ node ∈ walk.stack
  path : walk.stack.IsChain fun above below => Edge successor below above
  settled : ∀ node ∈ walk.order, Settled successor walk node

variable {successor} {walk : Walk α}

variable {node top : α} {starts rest : List α}

theorem Settled.mono {later : Walk α} (settled : Settled successor walk node)
    (keeps : ∀ first second, Before walk.order first second → Before later.order first second)
    (tame : ∀ other, Tame successor walk other → Tame successor later other) :
    Settled successor later node := by
  intro target edge
  refine (settled target edge).imp (keeps _ _) fun ⟨closes, others⟩ => ⟨closes, ?_⟩
  exact fun other onCycle differs => tame other (others other onCycle differs)

theorem Sound.start {start : α} (sound : Sound successor walk) (idle : walk.stack = [])
    (isStart : walk.starts = start :: starts) (isFresh : walk.visits start = .fresh) :
    Sound successor ⟨starts, Function.update walk.visits start .onWalk, [start], walk.order⟩ := by
  have unlisted : start ∉ walk.order := fun listed =>
    (sound.visited start).mpr (.inl listed) isFresh
  refine ⟨fun node => ?_, ?_, fun node => ?_, .singleton start, fun node listed => ?_⟩
  · rcases eq_or_ne node start with rfl | differs
    · simp
    · simpa [differs, idle] using sound.visited node
  · have nodup := sound.nodup
    rw [idle, append_nil] at nodup
    refine nodup_append.mpr ⟨nodup, nodup_singleton start, ?_⟩
    intro node listed other last
    rw [mem_singleton.mp last]
    exact fun same => unlisted (same ▸ listed)
  · have covered := sound.covered node
    simp only [isStart, idle, mem_cons, not_mem_nil, or_false] at covered ⊢
    tauto
  · refine (sound.settled node listed).mono (fun _ _ => id) fun other => ?_
    rintro ⟨target, edge, before | ⟨onStack, -⟩⟩
    · exact ⟨target, edge, .inl before⟩
    · rw [idle] at onStack
      cases onStack

theorem Sound.skip {start : α} (sound : Sound successor walk) (idle : walk.stack = [])
    (isStart : walk.starts = start :: starts) (seen : walk.visits start ≠ .fresh) :
    Sound successor ⟨starts, Function.update walk.visits start .onWalk, [], walk.order⟩ := by
  have listed := (sound.visited start).mp seen
  rw [idle] at listed
  refine ⟨fun node => ?_, idle ▸ sound.nodup, fun node => ?_, .nil, fun node listed => ?_⟩
  · rcases eq_or_ne node start with rfl | differs
    · simpa using listed
    · simpa [differs, idle] using sound.visited node
  · have covered := sound.covered node
    simp only [isStart, idle, mem_cons, not_mem_nil, or_false] at covered listed ⊢
    rcases covered with (rfl | later) | put
    · exact .inr listed
    · exact .inl later
    · exact .inr put
  · exact (sound.settled node listed).mono (fun _ _ => id) fun other => idle ▸ id

theorem before_cons {stack : List α} {first second : α} (isNew : node ∉ stack)
    (before : Before stack first second) : Before (node :: stack) first second := by
  have firstNe : node ≠ first := fun same => isNew (same ▸ before.mem)
  have secondNe : node ≠ second := fun same => isNew (same ▸ before.1)
  refine ⟨mem_cons_of_mem _ before.1, ?_⟩
  rw [idxOf_cons_ne _ firstNe, idxOf_cons_ne _ secondNe]
  exact Nat.succ_lt_succ before.2

theorem before_of_cons {stack : List α} {first second : α} (firstNe : node ≠ first)
    (secondNe : node ≠ second) (before : Before (node :: stack) first second) :
    Before stack first second := by
  rcases before with ⟨listed, less⟩
  rw [idxOf_cons_ne _ firstNe, idxOf_cons_ne _ secondNe] at less
  exact ⟨(mem_cons.mp listed).resolve_left secondNe.symm, Nat.lt_of_succ_lt_succ less⟩

theorem Sound.push {target : α} (sound : Sound successor walk) (isTop : walk.stack = top :: rest)
    (edge : Edge successor top target) (isFresh : walk.visits target = .fresh) :
    Sound successor { walk with
      visits := Function.update walk.visits target .onWalk
      stack := target :: top :: rest } := by
  have unlisted : target ∉ walk.order ∧ target ∉ walk.stack := by
    rw [← not_or, ← sound.visited, not_not]
    exact isFresh
  rw [isTop] at unlisted
  refine ⟨fun node => ?_, ?_, fun node => ?_, ?_, fun node listed => ?_⟩
  · rcases eq_or_ne node target with rfl | differs
    · simp
    · simpa [differs, isTop] using sound.visited node
  · have nodup := isTop ▸ sound.nodup
    rw [nodup_middle]
    exact nodup_cons.mpr ⟨by simpa using unlisted, nodup⟩
  · exact (sound.covered node).imp_right (.imp_right fun onStack =>
      mem_cons_of_mem _ (isTop ▸ onStack))
  · exact isChain_cons_cons.mpr ⟨edge, isTop ▸ sound.path⟩
  · refine (sound.settled node listed).mono (fun _ _ => id) fun other => ?_
    rintro ⟨next, onward, before | ⟨onStack, waits⟩⟩
    · exact ⟨next, onward, .inl before⟩
    · rw [isTop] at onStack waits
      exact ⟨next, onward, .inr ⟨mem_cons_of_mem _ onStack,
        waits.imp_right (before_cons unlisted.2)⟩⟩

section

variable (path : (top :: rest).IsChain fun above below => Edge successor below above)
  (nodup : (top :: rest).Nodup)

include path nodup

/-- Everything on the walk leads to its top, and what is below the top is right below its
successor. -/
theorem path_spec :
    (∀ node ∈ top :: rest, ReflTransGen (Edge successor) node top) ∧
      ∀ node ∈ rest, ∃ target, Edge successor node target ∧ Before (top :: rest) target node := by
  induction rest generalizing top with
  | nil =>
    refine ⟨fun node listed => ?_, fun _ listed => nomatch listed⟩
    rw [mem_singleton.mp listed]
  | cons below rest ih =>
    rw [isChain_cons_cons] at path
    have apart := nodup_cons.mp nodup
    rcases ih path.2 apart.2 with ⟨leads, waits⟩
    refine ⟨?_, ?_⟩
    · rw [forall_mem_cons]
      exact ⟨.refl, fun node listed => (leads node listed).tail path.1⟩
    · rw [forall_mem_cons]
      refine ⟨⟨top, path.1, ?_⟩, fun node listed => ?_⟩
      · have differs : top ≠ below := fun same => apart.1 (same ▸ mem_cons_self)
        refine ⟨mem_cons_of_mem _ mem_cons_self, ?_⟩
        rw [idxOf_cons_self, idxOf_cons_ne _ differs]
        exact Nat.succ_pos _
      · rcases waits node listed with ⟨target, edge, before⟩
        exact ⟨target, edge, before_cons apart.1 before⟩

theorem mem_of_onCycle {target : α} (edge : Edge successor top target)
    (onWalk : target ∈ top :: rest) (leads : TransGen (Edge successor) top node) :
    node ∈ top :: rest := by
  have stays : ∀ from_ ∈ top :: rest, ∀ to_, Edge successor from_ to_ → to_ ∈ top :: rest := by
    rw [forall_mem_cons]
    refine ⟨fun to_ onward => ?_, fun from_ listed to_ onward => ?_⟩
    · rwa [← Option.some.inj (edge.symm.trans onward)]
    · rcases (path_spec path nodup).2 from_ listed with ⟨above, isAbove, before⟩
      rw [← Option.some.inj (isAbove.symm.trans onward)]
      exact before.mem
  induction leads with
  | single onward => exact stays _ mem_cons_self _ onward
  | tail _ onward ih => exact stays _ ih _ onward

end

theorem Sound.pop (sound : Sound successor walk) (isTop : walk.stack = top :: rest)
    (waits : ∀ target, Edge successor top target → walk.visits target ≠ .fresh) :
    Sound successor { walk with
      visits := Function.update walk.visits top .emitted
      stack := rest
      order := walk.order ++ [top] } := by
  have nodup := isTop ▸ sound.nodup
  have path := isTop ▸ sound.path
  rw [nodup_append] at nodup
  have unlisted : top ∉ walk.order := fun listed =>
    nodup.2.2 top listed top mem_cons_self rfl
  have below : top ∉ rest := (nodup_cons.mp nodup.2.1).1
  have tame : ∀ other, Tame successor walk other → Tame successor { walk with
      visits := Function.update walk.visits top .emitted
      stack := rest
      order := walk.order ++ [top] } other := by
    rintro other ⟨target, edge, before | ⟨onStack, waiting⟩⟩
    · exact ⟨target, edge, .inl (before.append top)⟩
    · rw [isTop] at onStack waiting
      rcases mem_cons.mp onStack with rfl | onRest
      · refine ⟨target, edge, .inl (before_last (waiting.resolve_right fun before => ?_) unlisted)⟩
        exact absurd before.2 (by simp)
      · refine ⟨target, edge, .inr ⟨onRest, ?_⟩⟩
        rcases waiting with put | before
        · exact .inl (mem_append_left _ put)
        · rcases eq_or_ne top target with rfl | differs
          · exact .inl (mem_append_right _ (mem_singleton_self top))
          · exact .inr (before_of_cons differs (fun same => below (same ▸ onRest)) before)
  refine ⟨fun node => ?_, ?_, fun node => ?_, path.tail, fun node listed => ?_⟩
  · rcases eq_or_ne node top with rfl | differs
    · simp
    · simpa [differs, isTop] using sound.visited node
  · have kept := sound.nodup
    rw [isTop] at kept
    simpa using kept
  · have covered := sound.covered node
    simp only [isTop, mem_cons, mem_append, not_mem_nil, or_false] at covered ⊢
    tauto
  · rcases mem_append.mp listed with earlier | last
    · exact (sound.settled node earlier).mono (fun _ _ before => before.append top) tame
    · rw [mem_singleton.mp last]
      intro target edge
      rcases (sound.visited target).mp (waits target edge) with put | onStack
      · exact .inl (before_last put unlisted)
      · rw [isTop] at onStack
        have spec := path_spec path nodup.2.1
        refine .inr ⟨spec.1 target onStack, fun other onCycle differs => tame other ?_⟩
        -- The cycle runs inside the walk, so the others wait below their successors.
        have listed := mem_of_onCycle path nodup.2.1 edge onStack onCycle.1
        rcases spec.2 other ((mem_cons.mp listed).resolve_left differs) with
          ⟨next, onward, before⟩
        exact ⟨next, onward, .inr (isTop ▸ ⟨listed, .inr before⟩)⟩

theorem Sound.next {later : Walk α} (sound : Sound successor walk)
    (steps : step successor walk = some later) : Sound successor later := by
  rcases walk with ⟨starts, visits, stack, order⟩
  cases stack with
  | nil =>
    cases starts with
    | nil => cases steps
    | cons start starts =>
      simp only [step] at steps
      split_ifs at steps with isFresh
      · exact Option.some.inj steps ▸ sound.start rfl rfl isFresh
      · exact Option.some.inj steps ▸ sound.skip rfl rfl isFresh
  | cons top rest =>
    simp only [step] at steps
    split at steps
    · next target found =>
        rw [Option.filter_eq_some_iff] at found
        exact Option.some.inj steps ▸ sound.push rfl found.1 (of_decide_eq_true found.2)
    · next unfound =>
        refine Option.some.inj steps ▸ sound.pop rfl fun target edge isFresh => ?_
        rw [edge, Option.filter_some, if_pos (decide_eq_true isFresh)] at unfound
        cases unfound

/-! ## Whole runs -/

theorem run_mono {fuel more : ℕ} {order : List α} (ends : run successor fuel walk = some order)
    (enough : fuel ≤ more) : run successor more walk = some order := by
  induction fuel generalizing walk more with
  | zero => cases ends
  | succ fuel ih =>
    rcases more with _ | more
    · omega
    · rw [run] at ends ⊢
      cases steps : step successor walk with
      | none => rwa [steps] at ends
      | some later =>
        rw [steps] at ends
        exact ih ends (by omega)

section Run

variable [Fintype α]

def work (walk : Walk α) : ℕ :=
  walk.starts.length + 2 * (Finset.univ.filter fun node => walk.visits node = .fresh).card +
    walk.stack.length

theorem card_fresh_update (visits : α → Visit) {node : α} {to_ : Visit} (marks : to_ ≠ .fresh) :
    (Finset.univ.filter fun other => Function.update visits node to_ other = .fresh) =
      (Finset.univ.filter fun other => visits other = .fresh).erase node := by
  ext other
  rcases eq_or_ne other node with rfl | differs
  · simp [marks]
  · simp [differs]

theorem work_step {later : Walk α} (steps : step successor walk = some later) :
    work later < work walk := by
  rcases walk with ⟨starts, visits, stack, order⟩
  have fewer : ∀ node, ((Finset.univ.filter fun other => visits other = .fresh).erase node).card ≤
      (Finset.univ.filter fun other => visits other = .fresh).card :=
    fun node => Finset.card_le_card (Finset.erase_subset _ _)
  have fewerFresh : ∀ node, visits node = .fresh →
      ((Finset.univ.filter fun other => visits other = .fresh).erase node).card <
        (Finset.univ.filter fun other => visits other = .fresh).card :=
    fun node isFresh => Finset.card_erase_lt_of_mem (by simpa using isFresh)
  cases stack with
  | nil =>
    cases starts with
    | nil => cases steps
    | cons start starts =>
      simp only [step] at steps
      split_ifs at steps with isFresh <;> cases steps
      · have := fewerFresh start isFresh
        simp only [work, card_fresh_update visits (nofun : Visit.onWalk ≠ .fresh),
          length_cons, length_nil]
        omega
      · have := fewer start
        simp only [work, card_fresh_update visits (nofun : Visit.onWalk ≠ .fresh),
          length_cons, length_nil]
        omega
  | cons top rest =>
    simp only [step] at steps
    split at steps <;> cases steps
    · next target found =>
        rw [Option.filter_eq_some_iff] at found
        have := fewerFresh target (of_decide_eq_true found.2)
        simp only [work, card_fresh_update visits (nofun : Visit.onWalk ≠ .fresh),
          length_cons]
        omega
    · have := fewer top
      simp only [work, card_fresh_update visits (nofun : Visit.emitted ≠ .fresh),
        length_cons]
      omega

theorem exists_run {fuel : ℕ} (sound : Sound successor walk) (enough : work walk < fuel) :
    ∃ last, run successor fuel walk = some last.order ∧ Sound successor last ∧
      step successor last = none := by
  induction fuel generalizing walk with
  | zero => exact absurd enough (Nat.not_lt_zero _)
  | succ fuel ih =>
    rw [run]
    cases steps : step successor walk with
    | none => exact ⟨walk, rfl, sound, steps⟩
    | some later =>
      exact ih (sound.next steps) (by have := work_step steps; omega)

end Run

theorem Sound.all_listed (sound : Sound successor walk) (ended : step successor walk = none) :
    walk.stack = [] ∧ ∀ node, node ∈ walk.order := by
  rcases walk with ⟨starts, visits, stack, order⟩
  cases stack with
  | cons top rest =>
    simp only [step] at ended
    split at ended <;> cases ended
  | nil =>
    cases starts with
    | cons start starts =>
      simp only [step] at ended
      split_ifs at ended
    | nil =>
      refine ⟨rfl, fun node => ?_⟩
      simpa using sound.covered node

theorem Sound.targetsFirst (sound : Sound successor walk) (ended : step successor walk = none) :
    TargetsFirst (Edge successor) walk.order := by
  rcases sound.all_listed ended with ⟨idle, listed⟩
  have tame : ∀ {node target}, Tame successor walk node → Edge successor node target →
      Before walk.order target node := by
    rintro node target ⟨other, edge, before | ⟨onStack, -⟩⟩ same
    · rwa [← Option.some.inj (edge.symm.trans same)]
    · rw [idle] at onStack
      cases onStack
  have late : ∀ {node target}, Edge successor node target → Before walk.order node target →
      ReflTransGen (Edge successor) target node ∧
        ∀ other, OnCycle (Edge successor) node other → other ≠ node → Tame successor walk other :=
    fun {node target} edge before =>
      (sound.settled node (listed node) target edge).resolve_left before.asymm
  refine ⟨fun node target edge before => ?_, fun node ⟨other, differs, onCycle⟩ => ?_⟩
  · exact onCycle_of_edge edge (.head' edge (late edge before).1)
  · -- Were every successor put out first, the positions would fall all around the cycle.
    have exists_late : ∃ late, OnCycle (Edge successor) node late ∧
        ∃ target, Edge successor late target ∧ Before walk.order late target := by
      by_contra allFirst
      push Not at allFirst
      have falls : ∀ {from_ to_}, OnCycle (Edge successor) node from_ →
          Edge successor from_ to_ → walk.order.idxOf to_ < walk.order.idxOf from_ := by
        intro from_ to_ fromCycle edge
        have moves : from_ ≠ to_ := by
          rintro rfl
          have isNode := eq_of_edge_self edge fromCycle.2
          exact differs ((eq_of_edge_self edge (isNode ▸ onCycle.1)).trans isNode.symm)
        exact ((before_or_before (listed from_) (listed to_) moves).resolve_left
          (allFirst from_ fromCycle to_ edge)).2
      have around : ∀ {to_}, TransGen (Edge successor) node to_ →
          OnCycle (Edge successor) node to_ ∧
            walk.order.idxOf to_ < walk.order.idxOf node := by
        intro to_ leads
        have here := onCycle.trans onCycle.symm
        induction leads with
        | single edge => exact ⟨onCycle_of_edge edge here.1, falls here edge⟩
        | tail _ edge ih =>
          refine ⟨ih.1.trans (onCycle_of_edge edge (ih.1.2.trans ih.1.1)), ?_⟩
          exact (falls ih.1 edge).trans ih.2
      exact Nat.lt_irrefl _ (around (onCycle.1.trans onCycle.2)).2
    rcases exists_late with ⟨first, firstCycle, target, edge, before⟩
    refine ⟨first, ⟨firstCycle, target, edge, before⟩, ?_⟩
    rintro second ⟨secondCycle, next, onward, beforeNext⟩
    by_contra apart
    have isTame := (late edge before).2 second (firstCycle.symm.trans secondCycle) apart
    exact (tame isTame onward).asymm beforeNext

theorem exists_order [Fintype α] (successor : α → Option α) (all : ∀ node, node ∈ starts) :
    ∃ order, (∃ enough, ∀ fuel, enough ≤ fuel →
        run successor fuel ⟨starts, fun _ => .fresh, [], []⟩ = some order) ∧
      order.Nodup ∧ (∀ node, node ∈ order) ∧ TargetsFirst (Edge successor) order := by
  have sound : Sound successor ⟨starts, fun _ => .fresh, [], []⟩ :=
    ⟨by simp, nodup_nil, fun node => .inl (all node), .nil, fun _ listed => nomatch listed⟩
  rcases exists_run sound (Nat.lt_succ_self _) with ⟨last, runs, kept, ended⟩
  have nodup := kept.nodup
  rw [(kept.all_listed ended).1, append_nil] at nodup
  exact ⟨last.order, ⟨_, fun fuel enough => run_mono runs enough⟩, nodup,
    (kept.all_listed ended).2, kept.targetsFirst ended⟩

end Steps

/-! ## Nodes under other names -/

section Rename

variable {β : Type*} {name : α → β}

theorem before_map [DecidableEq β] (injective : Function.Injective name) {order : List α}
    {first second : α} :
    Before (order.map name) (name first) (name second) ↔ Before order first second := by
  have position : ∀ node, (order.map name).idxOf (name node) = order.idxOf node := by
    intro node
    induction order with
    | nil => rfl
    | cons head rest ih =>
      have same : (name head == name node) = (head == node) := by
        rw [Bool.eq_iff_iff, beq_iff_eq, beq_iff_eq, injective.eq_iff]
      rw [map_cons, idxOf_cons, idxOf_cons, ih, same]
  rw [Before, Before, position, position, mem_map_of_injective injective]

variable {edge : α → α → Prop} {named : β → β → Prop}
  (edges : ∀ one other, named (name one) (name other) ↔ edge one other)
  (inside : ∀ one other, named one other → one ∈ Set.range name ∧ other ∈ Set.range name)
include edges inside

omit [DecidableEq α] in
theorem exists_of_transGen {one : α} {end_ : β} (leads : TransGen named (name one) end_) :
    ∃ other, name other = end_ ∧ TransGen edge one other := by
  induction leads with
  | single onward =>
    rcases (inside _ _ onward).2 with ⟨other, rfl⟩
    exact ⟨other, rfl, .single ((edges one other).mp onward)⟩
  | tail _ onward ih =>
    rcases ih with ⟨middle, rfl, leads⟩
    rcases (inside _ _ onward).2 with ⟨other, rfl⟩
    exact ⟨other, rfl, leads.tail ((edges middle other).mp onward)⟩

omit [DecidableEq α] in
theorem onCycle_map (injective : Function.Injective name) {one : α} {end_ : β} :
    OnCycle named (name one) end_ ↔ ∃ other, name other = end_ ∧ OnCycle edge one other := by
  have lifts : ∀ {one other}, TransGen edge one other → TransGen named (name one) (name other) :=
    fun leads => TransGen.lift name (fun one other => (edges one other).mpr) _ _ leads
  constructor
  · rintro ⟨leads, back⟩
    rcases exists_of_transGen edges inside leads with ⟨other, rfl, onward⟩
    rcases exists_of_transGen edges inside back with ⟨again, same, backward⟩
    exact ⟨other, rfl, onward, injective same ▸ backward⟩
  · rintro ⟨other, rfl, leads, back⟩
    exact ⟨lifts leads, lifts back⟩

theorem TargetsFirst.map [DecidableEq β] {order : List α} (first : TargetsFirst edge order)
    (injective : Function.Injective name) : TargetsFirst named (order.map name) := by
  refine ⟨fun one other onward before => ?_, fun one ⟨other, differs, onCycle⟩ => ?_⟩
  · rcases inside _ _ onward with ⟨⟨node, rfl⟩, ⟨target, rfl⟩⟩
    rw [onCycle_map edges inside injective]
    exact ⟨target, rfl, first.cyclic node target ((edges node target).mp onward)
      ((before_map injective).mp before)⟩
  · rcases TransGen.head'_iff.mp onCycle.1 with ⟨_, onward, -⟩
    rcases (inside _ _ onward).1 with ⟨node, rfl⟩
    rcases (onCycle_map edges inside injective).mp onCycle with ⟨node', rfl, onCycle'⟩
    have apart : node' ≠ node := fun same => differs (same ▸ rfl)
    rcases first.once node ⟨node', apart, onCycle'⟩ with
      ⟨late, ⟨lateCycle, target, isTarget, before⟩, unique⟩
    refine ⟨name late, ⟨(onCycle_map edges inside injective).mpr ⟨late, rfl, lateCycle⟩,
      name target, (edges late target).mpr isTarget, (before_map injective).mpr before⟩, ?_⟩
    rintro second ⟨secondCycle, next, isNext, beforeNext⟩
    rcases (onCycle_map edges inside injective).mp secondCycle with ⟨second', rfl, onCycle''⟩
    rcases (inside _ _ isNext).2 with ⟨next', rfl⟩
    rw [unique second' ⟨onCycle'', next', (edges second' next').mp isNext,
      (before_map injective).mp beforeNext⟩]

end Rename

end Enroute.SuccessorWalk
