import Mathlib.Tactic
import Mathlib.Data.List.Nodup
import Std.Data.TreeMap

/-!
# Relaxation of depths

A stack of nodes with tentative depths is worked off: a node already held at no greater depth
is skipped, any other is recorded and, where the depth still allows it, its successors are
pushed one deeper. A node may be expanded several times, each time at a smaller depth, so the
rounds are bounded by charging each node its successors once per depth below the limit.
-/

namespace Enroute.Relax

open List

universe v

variable {ε : Type v}

abbrev Depths := Std.TreeMap ℕ ℕ

/-- Work off the stack. Nodes below `floor` or at the depth limit are recorded and not
expanded. -/
def relax (floor limit : ℕ) (next : ℕ → Except ε (List ℕ)) :
    ℕ → List (ℕ × ℕ) → Depths → Except ε Depths
  | 0, _, best => .ok best
  | _ + 1, [], best => .ok best
  | fuel + 1, (node, depth) :: stack, best =>
    if best[node]?.any (· ≤ depth) then relax floor limit next fuel stack best
    else if node < floor || limit ≤ depth then
      relax floor limit next fuel stack (best.insert node depth)
    else
      match next node with
      | .error failure => .error failure
      | .ok successors =>
        relax floor limit next fuel
          ((successors.map fun successor => (successor, depth + 1)).reverse ++ stack)
          (best.insert node depth)

def Within (best : Depths) (node depth : ℕ) : Prop :=
  ∃ held ≤ depth, best[node]? = some held

variable {best : Depths} {depth node : ℕ}

theorem Within.mono {bound : ℕ} (within : Within best node depth) (le : depth ≤ bound) :
    Within best node bound :=
  within.imp fun _ held => ⟨held.1.trans le, held.2⟩

theorem lt_of_not_within {held : ℕ} (improves : ¬Within best node depth)
    (found : best[node]? = some held) : depth < held :=
  not_le.mp fun small => improves ⟨held, small, found⟩

theorem within_insert {other bound : ℕ} (improves : ¬Within best node depth)
    (within : Within best other bound) : Within (best.insert node depth) other bound := by
  rcases within with ⟨held, small, found⟩
  rw [Within, Std.TreeMap.getElem?_insert]
  by_cases same : node = other
  · subst same
    have lower := lt_of_not_within improves found
    exact ⟨depth, by omega, by simp⟩
  · exact ⟨held, small, by simp [same, found]⟩

theorem within_insert_self (best : Depths) (node depth : ℕ) :
    Within (best.insert node depth) node depth :=
  ⟨depth, le_rfl, by simp⟩

theorem any_le_iff : best[node]?.any (· ≤ depth) = true ↔ Within best node depth := by
  rw [Within]
  rcases best[node]? with _ | held <;> simp

def slack (limit : ℕ) (best : Depths) (node : ℕ) : ℕ :=
  min (best[node]?.getD limit) limit

def budget (limit : ℕ) (width : ℕ → ℕ) (domain : List ℕ) (best : Depths) : ℕ :=
  (domain.map fun node => width node * slack limit best node).sum

theorem slack_insert_le (limit : ℕ) (improves : ¬Within best node depth) (other : ℕ) :
    slack limit (best.insert node depth) other ≤ slack limit best other := by
  rw [slack, slack, Std.TreeMap.getElem?_insert]
  by_cases same : node = other
  · subst same
    rcases held : best[node]? with _ | found
    · simp
    · have lower := lt_of_not_within improves held
      simp only [Std.LawfulEqCmp.compare_eq_iff_eq, if_true, Option.getD_some]
      omega
  · simp [same]

theorem slack_insert_lt {limit : ℕ} (improves : ¬Within best node depth) (shallow : depth < limit) :
    slack limit (best.insert node depth) node < slack limit best node := by
  rw [slack, slack, Std.TreeMap.getElem?_insert_self]
  rcases held : best[node]? with _ | found
  · simp only [Option.getD_some, Option.getD_none]
    omega
  · have lower := lt_of_not_within improves held
    simp only [Option.getD_some]
    omega

theorem budget_insert_le (limit : ℕ) (width : ℕ → ℕ) (domain : List ℕ)
    (improves : ¬Within best node depth) :
    budget limit width domain (best.insert node depth) ≤ budget limit width domain best :=
  sum_le_sum fun other _ => Nat.mul_le_mul_left _ (slack_insert_le limit improves other)

theorem budget_insert_lt {limit : ℕ} (width : ℕ → ℕ) {domain : List ℕ}
    (improves : ¬Within best node depth) (shallow : depth < limit) (inside : node ∈ domain) :
    budget limit width domain (best.insert node depth) + width node ≤
      budget limit width domain best := by
  induction domain with
  | nil => cases inside
  | cons head tail ih =>
    simp only [budget, map_cons, sum_cons]
    have restLe := budget_insert_le limit width tail improves
    simp only [budget] at restLe ih
    rcases mem_cons.mp inside with rfl | inTail
    · have cheaper : width node * slack limit (best.insert node depth) node + width node ≤
          width node * slack limit best node := by
        rw [← Nat.mul_succ]
        exact Nat.mul_le_mul_left _ (slack_insert_lt improves shallow)
      omega
    · have headLe := Nat.mul_le_mul_left (width head)
        (slack_insert_le limit improves head)
      have rest := ih inTail
      omega

section Search

variable {floor limit : ℕ} {next : ℕ → Except ε (List ℕ)}

def Pending (floor limit : ℕ) (next : ℕ → Except ε (List ℕ)) (stack : List (ℕ × ℕ))
    (best : Depths) : Prop :=
  ∀ node depth, best[node]? = some depth → floor ≤ node → depth < limit →
    ∃ successors, next node = .ok successors ∧ ∀ successor ∈ successors,
      Within best successor (depth + 1) ∨ ∃ small ≤ depth + 1, (successor, small) ∈ stack

variable {best : Depths} {stack : List (ℕ × ℕ)} {fuel : ℕ}

theorem Pending.insert {newStack : List (ℕ × ℕ)} {node depth : ℕ}
    (pending : Pending floor limit next ((node, depth) :: stack) best)
    (improves : ¬Within best node depth) (keeps : ∀ entry ∈ stack, entry ∈ newStack)
    (expanded : floor ≤ node → depth < limit → ∃ successors, next node = .ok successors ∧
      ∀ successor ∈ successors, (successor, depth + 1) ∈ newStack) :
    Pending floor limit next newStack (best.insert node depth) := by
  intro other otherDepth found above shallow
  rw [Std.TreeMap.getElem?_insert] at found
  by_cases same : node = other
  · subst same
    obtain rfl : depth = otherDepth := by simpa using found
    rcases expanded above shallow with ⟨successors, readable, pushed⟩
    exact ⟨successors, readable, fun successor successorMem =>
      Or.inr ⟨depth + 1, le_rfl, pushed successor successorMem⟩⟩
  · have before : best[other]? = some otherDepth := by simpa [same] using found
    rcases pending other otherDepth before above shallow with ⟨successors, readable, covered⟩
    refine ⟨successors, readable, ?_⟩
    intro successor successorMem
    rcases covered successor successorMem with within | ⟨small, bound, stacked⟩
    · exact Or.inl (within_insert improves within)
    · rcases mem_cons.mp stacked with same | later
      · cases same
        exact Or.inl ((within_insert_self _ _ _).mono bound)
      · exact Or.inr ⟨small, bound, keeps _ later⟩

/-- With enough fuel everything stacked is held in the end, and so is, one deeper, every
successor of a node that was expanded. -/
theorem relax_settled {domain : List ℕ} {width : ℕ → ℕ}
    (covers : ∀ node successors, next node = .ok successors →
      node ∈ domain ∧ successors.length ≤ width node) {result : Depths}
    (enough : stack.length + budget limit width domain best ≤ fuel)
    (pending : Pending floor limit next stack best)
    (relaxed : relax floor limit next fuel stack best = .ok result) :
    (∀ node bound, Within best node bound → Within result node bound) ∧
      (∀ node depth, (node, depth) ∈ stack → Within result node depth) ∧
      Pending floor limit next [] result := by
  induction fuel generalizing stack best with
  | zero =>
    cases stack with
    | cons entry stack => simp at enough
    | nil =>
      cases relaxed
      exact ⟨fun _ _ within => within, fun _ _ stacked => absurd stacked not_mem_nil,
        pending⟩
  | succ fuel ih =>
    rcases stack with _ | ⟨⟨node, depth⟩, stack⟩
    · cases relaxed
      exact ⟨fun _ _ within => within, fun _ _ stacked => absurd stacked not_mem_nil,
        pending⟩
    · rw [relax] at relaxed
      rw [length_cons] at enough
      by_cases held : best[node]?.any (· ≤ depth) = true
      · rw [if_pos held] at relaxed
        rw [any_le_iff] at held
        have pendingRest : Pending floor limit next stack best := by
          intro other otherDepth found above shallow
          rcases pending other otherDepth found above shallow with
            ⟨successors, readable, covered⟩
          refine ⟨successors, readable, fun successor successorMem => ?_⟩
          rcases covered successor successorMem with within | ⟨small, bound, stacked⟩
          · exact Or.inl within
          · rcases mem_cons.mp stacked with same | later
            · cases same
              exact Or.inl (held.mono bound)
            · exact Or.inr ⟨small, bound, later⟩
        rcases ih (by omega) pendingRest relaxed with ⟨keeps, takes, settled⟩
        refine ⟨keeps, ?_, settled⟩
        intro other otherDepth stacked
        rcases mem_cons.mp stacked with same | later
        · cases same
          exact keeps _ _ held
        · exact takes _ _ later
      · rw [if_neg held] at relaxed
        have improves : ¬Within best node depth := fun within => held (any_le_iff.mpr within)
        -- Both ways on, the node is recorded and what was stacked stays stacked.
        have finish : ∀ newStack : List (ℕ × ℕ), (∀ entry ∈ stack, entry ∈ newStack) →
            (∀ other bound, Within (best.insert node depth) other bound →
              Within result other bound) ∧
            (∀ other otherDepth, (other, otherDepth) ∈ newStack →
              Within result other otherDepth) ∧ Pending floor limit next [] result →
            (∀ other bound, Within best other bound → Within result other bound) ∧
            (∀ other otherDepth, (other, otherDepth) ∈ (node, depth) :: stack →
              Within result other otherDepth) ∧ Pending floor limit next [] result := by
          rintro newStack keepsStack ⟨keeps, takes, settled⟩
          refine ⟨fun other bound within => keeps _ _ (within_insert improves within), ?_,
            settled⟩
          intro other otherDepth stacked
          rcases mem_cons.mp stacked with same | later
          · cases same
            exact keeps _ _ (within_insert_self _ _ _)
          · exact takes _ _ (keepsStack _ later)
        by_cases stops : (decide (node < floor) || decide (limit ≤ depth)) = true
        · rw [if_pos stops] at relaxed
          simp only [Bool.or_eq_true, decide_eq_true_eq] at stops
          have cheaper := budget_insert_le limit width domain improves
          apply finish stack (fun _ stacked => stacked)
          refine ih (by omega) (pending.insert improves (fun _ stacked => stacked) ?_) relaxed
          intro above shallow
          omega
        · rw [if_neg stops] at relaxed
          simp only [Bool.or_eq_true, decide_eq_true_eq, not_or, not_lt, not_le] at stops
          rcases readable : next node with failure | successors
          · rw [readable] at relaxed
            cases relaxed
          · rw [readable] at relaxed
            rcases covers node successors readable with ⟨inside, narrow⟩
            have cheaper := budget_insert_lt width improves stops.2 inside
            apply finish _ (fun _ stacked => mem_append_right _ stacked)
            refine ih ?_ (pending.insert improves
              (fun _ stacked => mem_append_right _ stacked) ?_) relaxed
            · rw [length_append, length_reverse, length_map]
              omega
            · intro _ _
              refine ⟨successors, readable, ?_⟩
              intro successor successorMem
              simp [successorMem]

theorem relax_invariant (holds : ℕ → ℕ → Prop)
    (passes : ∀ node depth successors, holds node depth → floor ≤ node → depth < limit →
      next node = .ok successors → ∀ successor ∈ successors, holds successor (depth + 1))
    {result : Depths}
    (stacked : ∀ node depth, (node, depth) ∈ stack → holds node depth)
    (recorded : ∀ node depth, best[node]? = some depth → holds node depth)
    (relaxed : relax floor limit next fuel stack best = .ok result) :
    ∀ node depth, result[node]? = some depth → holds node depth := by
  induction fuel generalizing stack best with
  | zero =>
    cases relaxed
    exact recorded
  | succ fuel ih =>
    rcases stack with _ | ⟨⟨node, depth⟩, stack⟩
    · cases relaxed
      exact recorded
    · have headHolds := stacked node depth mem_cons_self
      have stackHolds : ∀ other otherDepth, (other, otherDepth) ∈ stack →
          holds other otherDepth := fun _ _ later => stacked _ _ (mem_cons_of_mem _ later)
      have insertHolds : ∀ other otherDepth, (best.insert node depth)[other]? =
          some otherDepth → holds other otherDepth := by
        intro other otherDepth found
        rw [Std.TreeMap.getElem?_insert] at found
        by_cases same : node = other
        · subst same
          obtain rfl : depth = otherDepth := by simpa using found
          exact headHolds
        · exact recorded other otherDepth (by simpa [same] using found)
      rw [relax] at relaxed
      split at relaxed
      · exact ih stackHolds recorded relaxed
      · split at relaxed
        · exact ih stackHolds insertHolds relaxed
        next stops =>
          simp only [Bool.or_eq_true, decide_eq_true_eq, not_or, not_lt, not_le] at stops
          split at relaxed
          · cases relaxed
          next successors readable =>
            refine ih ?_ insertHolds relaxed
            intro other otherDepth member
            rcases mem_append.mp member with pushed | later
            · simp only [mem_reverse, mem_map, Prod.mk.injEq] at pushed
              rcases pushed with ⟨successor, successorMem, rfl, rfl⟩
              exact passes node depth successors headHolds stops.1 stops.2 readable _
                successorMem
            · exact stackHolds _ _ later

theorem relax_isOk {readable : ℕ → Prop}
    (closed : ∀ node, readable node → ∃ successors, next node = .ok successors ∧
      ∀ successor ∈ successors, readable successor) (stacked : ∀ entry ∈ stack, readable entry.1) :
    ∃ result, relax floor limit next fuel stack best = .ok result := by
  induction fuel generalizing stack best with
  | zero => exact ⟨best, rfl⟩
  | succ fuel ih =>
    rcases stack with _ | ⟨⟨node, depth⟩, stack⟩
    · exact ⟨best, rfl⟩
    · have stackReadable : ∀ entry ∈ stack, readable entry.1 :=
        fun entry later => stacked entry (mem_cons_of_mem _ later)
      rw [relax]
      split
      · exact ih stackReadable
      · split
        · exact ih stackReadable
        · rcases closed node (stacked _ mem_cons_self) with ⟨successors, readNode, good⟩
          rw [readNode]
          apply ih
          intro entry member
          rcases mem_append.mp member with pushed | later
          · simp only [mem_reverse, mem_map] at pushed
            rcases pushed with ⟨successor, successorMem, rfl⟩
            exact good successor successorMem
          · exact stackReadable entry later

end Search

end Enroute.Relax
