import Mathlib.Tactic
import Mathlib.Data.List.Nodup
import Mathlib.Data.List.Perm.Basic
import Mathlib.Logic.Relation

/-!
# Worklist searches

A search that pops an item, skips it when it was met before and otherwise queues its successors,
under any discipline that keeps the items. Every round takes one item off the queue and pays for the
items it queues out of a budget, namely the successors of items not met yet, so the queue length
plus the budget bounds the rounds.

`visitE` is the search whose successor function may fail; it agrees with `visit` when it does
not fail, and fails only at an item the search reaches.
-/

namespace Enroute.Worklist

open List

universe u v

variable {α : Type u}

structure Discipline (α : Type u) where
  push : List α → List α → List α
  push_perm : ∀ queue items, (push queue items).Perm (queue ++ items)

def fifo : Discipline α where
  push queue items := queue ++ items
  push_perm _ _ := List.Perm.refl _

def lifo : Discipline α where
  push queue items := items.reverse ++ queue
  push_perm queue items :=
    (List.Perm.append_right queue items.reverse_perm).trans perm_append_comm

theorem mem_push {order : Discipline α} {queue items : List α} {item : α} :
    item ∈ order.push queue items ↔ item ∈ queue ∨ item ∈ items := by
  rw [(order.push_perm queue items).mem_iff, mem_append]

theorem length_push (order : Discipline α) (queue items : List α) :
    (order.push queue items).length = queue.length + items.length := by
  rw [(order.push_perm queue items).length_eq, length_append]

variable [DecidableEq α]

/-- Pop an item, skip it when visited, otherwise visit it and queue its successors. -/
def visit (order : Discipline α) (next : α → List α) : ℕ → List α → List α → List α
  | 0, _, visited => visited
  | _ + 1, [], visited => visited
  | fuel + 1, item :: queue, visited =>
    if item ∈ visited then visit order next fuel queue visited
    else visit order next fuel (order.push queue (next item)) (item :: visited)

def budget (next : α → List α) (domain visited : List α) : ℕ :=
  ((domain.filter (· ∉ visited)).map fun item => (next item).length).sum

theorem budget_nil (next : α → List α) (domain : List α) :
    budget next domain [] = (domain.map fun item => (next item).length).sum := by
  simp [budget]

theorem budget_cons_of_notMem (next : α → List α) {domain : List α} {item : α}
    (visited : List α) (outside : item ∉ domain) :
    budget next domain (item :: visited) = budget next domain visited := by
  have sameFilter : domain.filter (· ∉ item :: visited) = domain.filter (· ∉ visited) := by
    apply filter_congr
    intro other otherMem
    have distinct : other ≠ item := by
      rintro rfl
      exact outside otherMem
    simp [distinct]
  rw [budget, sameFilter, budget]

theorem budget_cons_of_mem (next : α → List α) {domain : List α} {item : α} {visited : List α}
    (distinct : domain.Nodup) (inside : item ∈ domain) (fresh : item ∉ visited) :
    budget next domain (item :: visited) + (next item).length = budget next domain visited := by
  induction domain with
  | nil => cases inside
  | cons head tail ih =>
    rcases nodup_cons.mp distinct with ⟨headFresh, tailDistinct⟩
    rcases mem_cons.mp inside with rfl | inTail
    · have rest := budget_cons_of_notMem next visited headFresh
      simp only [budget] at rest ⊢
      simp only [filter_cons, mem_cons, true_or, not_true_eq_false, decide_false,
        Bool.false_eq_true, if_false, fresh, not_false_eq_true, decide_true, if_true,
        map_cons, sum_cons]
      simp only [mem_cons] at rest
      omega
    · have rest := ih tailDistinct inTail
      have headNe : head ≠ item := by
        rintro rfl
        exact headFresh inTail
      simp only [budget] at rest ⊢
      by_cases seen : head ∈ visited
      · simpa [filter_cons, headNe, seen] using rest
      · simp only [filter_cons, mem_cons, headNe, seen, or_false, not_false_eq_true,
          decide_true, if_true, map_cons, sum_cons]
        simp only [mem_cons] at rest
        omega

theorem budget_le_sum (next : α → List α) (domain : List α) (bound : α → ℕ)
    (bounded : ∀ item, (next item).length ≤ bound item) :
    budget next domain [] ≤ (domain.map bound).sum := by
  rw [budget_nil]
  exact sum_le_sum fun item _ => bounded item

section Reachability

variable {order : Discipline α} {next : α → List α} {domain : List α}

theorem mem_visit_sound {fuel : ℕ} {queue visited : List α} {item : α}
    (met : item ∈ visit order next fuel queue visited) :
    item ∈ visited ∨
      ∃ start ∈ queue, Relation.ReflTransGen (fun a b => b ∈ next a) start item := by
  induction fuel generalizing queue visited with
  | zero => exact Or.inl met
  | succ fuel ih =>
    cases queue with
    | nil => exact Or.inl met
    | cons head queue =>
      rw [visit] at met
      split at met
      · rcases ih met with before | ⟨start, startMem, path⟩
        · exact Or.inl before
        · exact Or.inr ⟨start, mem_cons_of_mem _ startMem, path⟩
      · rcases ih met with before | ⟨start, startMem, path⟩
        · rcases mem_cons.mp before with rfl | earlier
          · exact Or.inr ⟨item, mem_cons_self, .refl⟩
          · exact Or.inl earlier
        · rcases mem_push.mp startMem with queued | successor
          · exact Or.inr ⟨start, mem_cons_of_mem _ queued, path⟩
          · exact Or.inr ⟨head, mem_cons_self, .head successor path⟩

theorem visit_closed (order : Discipline α) (distinct : domain.Nodup)
    (outside : ∀ item, item ∉ domain → next item = []) {fuel : ℕ} (queue visited : List α)
    (enough : queue.length + budget next domain visited ≤ fuel)
    (pending : ∀ item ∈ visited, ∀ successor ∈ next item,
      successor ∈ visited ∨ successor ∈ queue) :
    (∀ item ∈ visited, item ∈ visit order next fuel queue visited) ∧
      (∀ item ∈ queue, item ∈ visit order next fuel queue visited) ∧
      ∀ item ∈ visit order next fuel queue visited, ∀ successor ∈ next item,
        successor ∈ visit order next fuel queue visited := by
  induction fuel generalizing queue visited with
  | zero =>
    obtain rfl : queue = [] := by
      cases queue with
      | nil => rfl
      | cons head queue => simp at enough
    refine ⟨fun item itemMem => itemMem, fun item itemMem => ?_, ?_⟩
    · cases itemMem
    · intro item itemMem successor successorMem
      exact (pending item itemMem successor successorMem).resolve_right not_mem_nil
  | succ fuel ih =>
    cases queue with
    | nil =>
      refine ⟨fun item itemMem => itemMem, fun item itemMem => ?_, ?_⟩
      · cases itemMem
      · intro item itemMem successor successorMem
        exact (pending item itemMem successor successorMem).resolve_right not_mem_nil
    | cons head queue =>
      rw [visit]
      split
      next seen =>
        have shorter : queue.length + budget next domain visited ≤ fuel := by
          rw [length_cons] at enough
          omega
        have pendingRest : ∀ item ∈ visited, ∀ successor ∈ next item,
            successor ∈ visited ∨ successor ∈ queue := by
          intro item itemMem successor successorMem
          rcases pending item itemMem successor successorMem with before | queued
          · exact Or.inl before
          · rcases mem_cons.mp queued with rfl | later
            · exact Or.inl seen
            · exact Or.inr later
        rcases ih _ _ shorter pendingRest with ⟨keeps, takes, closed⟩
        refine ⟨keeps, ?_, closed⟩
        intro item itemMem
        rcases mem_cons.mp itemMem with rfl | later
        · exact keeps _ seen
        · exact takes _ later
      next fresh =>
        have paid : budget next domain (head :: visited) + (next head).length =
            budget next domain visited := by
          by_cases inside : head ∈ domain
          · exact budget_cons_of_mem next distinct inside fresh
          · rw [budget_cons_of_notMem next visited inside, outside head inside]
            rfl
        have shorter : (order.push queue (next head)).length +
            budget next domain (head :: visited) ≤ fuel := by
          rw [length_cons] at enough
          rw [length_push]
          omega
        have pendingRest : ∀ item ∈ head :: visited, ∀ successor ∈ next item,
            successor ∈ head :: visited ∨ successor ∈ order.push queue (next head) := by
          intro item itemMem successor successorMem
          rcases mem_cons.mp itemMem with rfl | earlier
          · exact Or.inr (mem_push.mpr (Or.inr successorMem))
          · rcases pending item earlier successor successorMem with before | queued
            · exact Or.inl (mem_cons_of_mem _ before)
            · rcases mem_cons.mp queued with rfl | later
              · exact Or.inl mem_cons_self
              · exact Or.inr (mem_push.mpr (Or.inl later))
        rcases ih _ _ shorter pendingRest with ⟨keeps, takes, closed⟩
        refine ⟨fun item itemMem => keeps _ (mem_cons_of_mem _ itemMem), ?_, closed⟩
        intro item itemMem
        rcases mem_cons.mp itemMem with rfl | later
        · exact keeps _ mem_cons_self
        · exact takes _ (mem_push.mpr (Or.inl later))

theorem mem_visit_iff (distinct : domain.Nodup) (outside : ∀ item, item ∉ domain → next item = [])
    {fuel : ℕ} {starts : List α} (item : α)
    (enough : starts.length + budget next domain [] ≤ fuel) :
    item ∈ visit order next fuel starts [] ↔
      ∃ start ∈ starts, Relation.ReflTransGen (fun a b => b ∈ next a) start item := by
  constructor
  · intro met
    exact (mem_visit_sound met).resolve_left not_mem_nil
  · rintro ⟨start, startMem, path⟩
    have searched := visit_closed order distinct outside starts [] enough (by simp)
    rcases searched with ⟨-, takes, closed⟩
    induction path with
    | refl => exact takes start startMem
    | tail _ successor ih => exact closed _ ih _ successor

end Reachability

/-! ## Searches that may fail -/

section Fallible

variable {ε : Type v}

def visitE (order : Discipline α) (next : α → Except ε (List α)) :
    ℕ → List α → List α → Except ε (List α)
  | 0, _, visited => .ok visited
  | _ + 1, [], visited => .ok visited
  | fuel + 1, item :: queue, visited =>
    if item ∈ visited then visitE order next fuel queue visited
    else
      match next item with
      | .ok items => visitE order next fuel (order.push queue items) (item :: visited)
      | .error failure => .error failure

def total (next : α → Except ε (List α)) (item : α) : List α :=
  match next item with
  | .ok items => items
  | .error _ => []

variable {order : Discipline α} {next : α → Except ε (List α)}

/-- A search that does not fail is the search over what can be read, and everything it
visited could be read. -/
theorem visitE_eq_ok {fuel : ℕ} {queue visited result : List α}
    (succeeded : visitE order next fuel queue visited = .ok result) :
    result = visit order (total next) fuel queue visited ∧
      ∀ item ∈ result, item ∉ visited → ∃ items, next item = .ok items := by
  induction fuel generalizing queue visited with
  | zero =>
    cases succeeded
    exact ⟨rfl, fun item met fresh => absurd met fresh⟩
  | succ fuel ih =>
    cases queue with
    | nil =>
      cases succeeded
      exact ⟨rfl, fun item met fresh => absurd met fresh⟩
    | cons head queue =>
      rw [visitE] at succeeded
      rw [visit]
      split at succeeded
      next seen =>
        rw [if_pos seen]
        exact ih succeeded
      next unseen =>
        rw [if_neg unseen]
        rcases readable : next head with failure | items
        · rw [readable] at succeeded
          cases succeeded
        · rw [readable] at succeeded
          rcases ih succeeded with ⟨resultEq, covered⟩
          have successors : total next head = items := by
            rw [total, readable]
          refine ⟨by rw [successors]; exact resultEq, ?_⟩
          intro item met fresh
          by_cases same : item = head
          · exact ⟨items, same ▸ readable⟩
          · exact covered item met (by simp [same, fresh])

theorem visitE_isOk {fuel : ℕ} {queue visited : List α} {readable : α → Prop}
    (queued : ∀ item ∈ queue, readable item)
    (closed : ∀ item, readable item → ∃ items, next item = .ok items ∧
      ∀ successor ∈ items, readable successor) :
    ∃ result, visitE order next fuel queue visited = .ok result := by
  induction fuel generalizing queue visited with
  | zero => exact ⟨visited, rfl⟩
  | succ fuel ih =>
    cases queue with
    | nil => exact ⟨visited, rfl⟩
    | cons head queue =>
      rw [visitE]
      split
      next => exact ih fun item itemMem => queued item (mem_cons_of_mem _ itemMem)
      next =>
        rcases closed head (queued head mem_cons_self) with ⟨items, readHead, good⟩
        rw [readHead]
        apply ih
        intro item itemMem
        rcases mem_push.mp itemMem with earlier | successor
        · exact queued item (mem_cons_of_mem _ earlier)
        · exact good item successor

theorem mem_visitE_iff {domain starts result : List α} {fuel : ℕ} (distinct : domain.Nodup)
    (outside : ∀ item, item ∉ domain → total next item = [])
    (enough : starts.length + budget (total next) domain [] ≤ fuel)
    (succeeded : visitE order next fuel starts [] = .ok result) (item : α) :
    item ∈ result ↔
      ∃ start ∈ starts, Relation.ReflTransGen (fun a b => b ∈ total next a) start item := by
  rw [(visitE_eq_ok succeeded).1]
  exact mem_visit_iff distinct outside item enough

end Fallible

end Enroute.Worklist
