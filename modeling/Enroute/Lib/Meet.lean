import Mathlib.Data.Set.Basic
import Mathlib.Logic.Relation

/-!
# Where two searches meet

Two searches over one relation, each explored down to a frontier of its own. Everything a search
has not met yet lies below a node of its frontier, so once each frontier lies inside what the
other search has met, what is left to explore is below nodes both have met. The topmost nodes
that both roots reach are then the topmost among those both searches have met.
-/

namespace Enroute.Meet

open Relation

variable {α : Type*} {step : α → α → Prop}

/-- A search from a root that has followed every step out of what it met, its frontier apart. -/
structure Explored (step : α → α → Prop) (root : α) (reach frontier : Set α) : Prop where
  root_mem : root ∈ reach
  frontier_subset : frontier ⊆ reach
  sound : ∀ node ∈ reach, ReflTransGen step root node
  closed : ∀ node ∈ reach, node ∉ frontier → ∀ next, step node next → next ∈ reach

variable {root left right node : α} {reach frontier reachLeft frontierLeft reachRight
  frontierRight : Set α}

theorem Explored.mem_or_below (search : Explored step root reach frontier)
    (path : ReflTransGen step root node) :
    node ∈ reach ∨ ∃ waiting ∈ frontier, ReflTransGen step waiting node := by
  induction path with
  | refl => exact Or.inl search.root_mem
  | @tail before node _ last ih =>
    rcases ih with met | ⟨waiting, isWaiting, path⟩
    · by_cases isWaiting : before ∈ frontier
      · exact Or.inr ⟨before, isWaiting, .single last⟩
      · exact Or.inl (search.closed before met isWaiting node last)
    · exact Or.inr ⟨waiting, isWaiting, path.tail last⟩

def Top (step : α → α → Prop) (nodes : Set α) (node : α) : Prop :=
  node ∈ nodes ∧ ∀ above ∈ nodes, ReflTransGen step above node → above = node

theorem top_iff_of_top {nodes : Set α} {taken : α} (isTop : Top step nodes taken) :
    Top step nodes node ↔
      node = taken ∨ Top step (nodes \ {node | ReflTransGen step taken node}) node := by
  constructor
  · rintro ⟨isNode, topmost⟩
    by_cases same : node = taken
    · exact Or.inl same
    · refine Or.inr ⟨⟨isNode, fun reached => same ?_⟩, fun above isAbove => topmost above isAbove.1⟩
      exact (topmost taken isTop.1 reached).symm
  · rintro (rfl | ⟨⟨isNode, missed⟩, topmost⟩)
    · exact isTop
    · refine ⟨isNode, fun above isAbove path => topmost above ⟨isAbove, fun reached => ?_⟩ path⟩
      exact missed (reached.trans path)

theorem exists_met_above (searchLeft : Explored step left reachLeft frontierLeft)
    (searchRight : Explored step right reachRight frontierRight)
    (leftMet : frontierLeft ⊆ reachRight) (rightMet : frontierRight ⊆ reachLeft)
    (fromLeft : ReflTransGen step left node) (fromRight : ReflTransGen step right node) :
    ∃ met ∈ reachLeft ∩ reachRight, ReflTransGen step met node := by
  rcases searchLeft.mem_or_below fromLeft with metLeft | ⟨waiting, isWaiting, path⟩
  · rcases searchRight.mem_or_below fromRight with metRight | ⟨waiting, isWaiting, path⟩
    · exact ⟨node, ⟨metLeft, metRight⟩, .refl⟩
    · exact ⟨waiting, ⟨rightMet isWaiting, searchRight.frontier_subset isWaiting⟩, path⟩
  · exact ⟨waiting, ⟨searchLeft.frontier_subset isWaiting, leftMet isWaiting⟩, path⟩

theorem top_met_iff
    (antisymm : ∀ above below, ReflTransGen step above below → ReflTransGen step below above →
      above = below)
    (searchLeft : Explored step left reachLeft frontierLeft)
    (searchRight : Explored step right reachRight frontierRight)
    (leftMet : frontierLeft ⊆ reachRight) (rightMet : frontierRight ⊆ reachLeft) :
    Top step (reachLeft ∩ reachRight) node ↔
      Top step {node | ReflTransGen step left node ∧ ReflTransGen step right node} node := by
  constructor
  · rintro ⟨⟨metLeft, metRight⟩, topmost⟩
    refine ⟨⟨searchLeft.sound node metLeft, searchRight.sound node metRight⟩, ?_⟩
    rintro above ⟨fromLeft, fromRight⟩ path
    rcases exists_met_above searchLeft searchRight leftMet rightMet fromLeft fromRight with
      ⟨met, isMet, toAbove⟩
    obtain rfl := topmost met isMet (toAbove.trans path)
    exact antisymm above met path toAbove
  · rintro ⟨⟨fromLeft, fromRight⟩, topmost⟩
    have sound : ∀ met ∈ reachLeft ∩ reachRight,
        ReflTransGen step left met ∧ ReflTransGen step right met := fun met isMet =>
      ⟨searchLeft.sound met isMet.1, searchRight.sound met isMet.2⟩
    rcases exists_met_above searchLeft searchRight leftMet rightMet fromLeft fromRight with
      ⟨met, isMet, toNode⟩
    obtain rfl := topmost met (sound met isMet) toNode
    exact ⟨isMet, fun above aboveMet => topmost above (sound above aboveMet)⟩

end Enroute.Meet
