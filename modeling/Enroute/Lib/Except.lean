import Mathlib.Tactic
import Mathlib.Data.List.Forall2

/-!
# Peeling computations that may fail

A bind succeeds exactly when both halves do, and a list is mapped successfully exactly when
every element is.
-/

namespace Enroute.Except

open List

universe u v w

variable {ε : Type u} {α : Type v} {β : Type v}

@[simp]
theorem ok_bind {value : α} {rest : α → Except ε β} : (.ok value >>= rest) = rest value :=
  rfl

theorem bind_eq_ok_iff {first : Except ε α} {rest : α → Except ε β} {result : β} :
    (first >>= rest) = .ok result ↔ ∃ value, first = .ok value ∧ rest value = .ok result := by
  cases first with
  | error failure => exact ⟨fun bound => (nomatch bound), fun ⟨_, impossible, _⟩ => nomatch impossible⟩
  | ok value =>
    constructor
    · intro bound
      exact ⟨value, rfl, bound⟩
    · rintro ⟨_, ⟨⟩, bound⟩
      exact bound

variable {result : α} {results : List α} {γ : Type w}

theorem pure_eq_ok_iff {value : α} : (pure value : Except ε α) = .ok result ↔ value = result :=
  ⟨fun same => Except.ok.inj same, fun same => same ▸ rfl⟩

theorem mapM_eq_ok_iff {convert : γ → Except ε α} {items : List γ} :
    items.mapM convert = .ok results ↔
      List.Forall₂ (fun item result => convert item = .ok result) items results := by
  induction items generalizing results with
  | nil =>
    rw [mapM_nil, pure_eq_ok_iff]
    constructor
    · rintro rfl
      exact .nil
    · rintro ⟨⟩
      rfl
  | cons item items ih =>
    rw [mapM_cons, bind_eq_ok_iff]
    constructor
    · rintro ⟨first, converted, rest⟩
      rw [bind_eq_ok_iff] at rest
      rcases rest with ⟨others, convertedRest, built⟩
      rw [pure_eq_ok_iff] at built
      subst built
      exact .cons converted (ih.mp convertedRest)
    · rintro ⟨⟩
      next first others converted convertedRest =>
        refine ⟨first, converted, ?_⟩
        rw [bind_eq_ok_iff]
        exact ⟨others, ih.mpr convertedRest, rfl⟩

theorem mem_of_mapM {convert : γ → Except ε α} {items : List γ}
    (mapped : items.mapM convert = .ok results) :
    result ∈ results ↔ ∃ item ∈ items, convert item = .ok result := by
  rw [mapM_eq_ok_iff] at mapped
  induction mapped with
  | nil => simp
  | @cons item first items others converted _ ih =>
    rw [mem_cons, ih, exists_mem_cons_iff]
    apply or_congr_left
    rw [converted, Except.ok.injEq, eq_comm]

theorem exists_of_mapM {convert : γ → Except ε α} {items : List γ}
    (mapped : items.mapM convert = .ok results) {item : γ} (itemMem : item ∈ items) :
    ∃ result ∈ results, convert item = .ok result := by
  rw [mapM_eq_ok_iff] at mapped
  induction mapped with
  | nil => cases itemMem
  | @cons head first items others converted _ ih =>
    rcases mem_cons.mp itemMem with rfl | later
    · exact ⟨first, mem_cons_self, converted⟩
    · rcases ih later with ⟨result, resultMem, convertedItem⟩
      exact ⟨result, mem_cons_of_mem _ resultMem, convertedItem⟩

theorem map_eq_of_mapM {δ : Type*} {convert : γ → Except ε α} {items : List γ} {before : γ → δ}
    {after : α → δ}
    (keeps : ∀ item ∈ items, ∀ result, convert item = .ok result → after result = before item)
    (mapped : items.mapM convert = .ok results) : results.map after = items.map before := by
  rw [mapM_eq_ok_iff] at mapped
  induction mapped with
  | nil => rfl
  | cons converted _ ih =>
    rw [forall_mem_cons] at keeps
    rw [map_cons, map_cons, ih keeps.2, keeps.1 _ converted]

theorem sum_le_of_mapM {convert : γ → Except ε α} {items : List γ} {before : γ → ℕ} {after : α → ℕ}
    (lowers : ∀ item ∈ items, ∀ result, convert item = .ok result → after result ≤ before item)
    (mapped : items.mapM convert = .ok results) :
    (results.map after).sum ≤ (items.map before).sum := by
  rw [mapM_eq_ok_iff] at mapped
  induction mapped with
  | nil => exact le_rfl
  | cons converted _ ih =>
    rw [forall_mem_cons] at lowers
    rw [map_cons, map_cons, sum_cons, sum_cons]
    exact Nat.add_le_add (lowers.1 _ converted) (ih lowers.2)

theorem getElem?_of_mapM {convert : γ → Except ε α} {items : List γ}
    (mapped : items.mapM convert = .ok results) {position : ℕ}
    (found : results[position]? = some result) :
    ∃ item, items[position]? = some item ∧ convert item = .ok result := by
  rw [mapM_eq_ok_iff] at mapped
  induction mapped generalizing position with
  | nil => cases found
  | @cons item first items others converted _ ih =>
    cases position with
    | zero =>
      cases found
      exact ⟨item, rfl, converted⟩
    | succ position => exact ih found

theorem mapM_window {convert : γ → Except ε α} {items : List γ}
    (mapped : items.mapM convert = .ok results) (from_ count : ℕ) :
    ((items.drop from_).take count).mapM convert = .ok ((results.drop from_).take count) := by
  rw [mapM_eq_ok_iff] at mapped ⊢
  exact forall₂_take count (forall₂_drop from_ mapped)

theorem mapM_congr {convert other : γ → Except ε α} {items : List γ}
    (same : ∀ item ∈ items, convert item = other item) : items.mapM convert = items.mapM other := by
  induction items with
  | nil => rfl
  | cons item items ih =>
    rw [forall_mem_cons] at same
    rw [mapM_cons, mapM_cons, same.1, ih same.2]

theorem mapM_flatMap {δ : Type w} {convert : δ → Except ε α} (pieces : γ → List δ) (items : List γ) :
    (do return (← items.mapM fun item => (pieces item).mapM convert).flatten) =
      (items.flatMap pieces).mapM convert := by
  induction items with
  | nil => rfl
  | cons item items ih =>
    rw [flatMap_cons, mapM_append, ← ih, mapM_cons]
    cases (pieces item).mapM convert with
    | error failure => rfl
    | ok first =>
      cases items.mapM fun item => (pieces item).mapM convert with
      | error failure => rfl
      | ok rest => rfl

theorem mapM_isOk {convert : γ → Except ε α} {items : List γ}
    (each : ∀ item ∈ items, ∃ result, convert item = .ok result) :
    ∃ results, items.mapM convert = .ok results := by
  induction items with
  | nil => exact ⟨[], rfl⟩
  | cons item items ih =>
    rcases each item mem_cons_self with ⟨first, converted⟩
    rcases ih fun other otherMem => each other (mem_cons_of_mem _ otherMem) with
      ⟨others, convertedRest⟩
    refine ⟨first :: others, ?_⟩
    rw [mapM_eq_ok_iff] at convertedRest ⊢
    exact .cons converted convertedRest

/-! ## Computations that may also not end

Nothing stands for one that is still under way when its fuel runs out. -/

def done {ε α : Type} (result : Except ε α) : ExceptT ε Option α :=
  ExceptT.mk (some result)

theorem done_eq_ok_iff {ε α : Type} {answer : Except ε α} {result : α} :
    done answer = some (.ok result) ↔ answer = .ok result :=
  Option.some_inj

theorem run_bind_eq_ok_iff {ε α β : Type} {first : ExceptT ε Option α}
    {rest : α → ExceptT ε Option β} {result : β} :
    (first >>= rest) = some (.ok result) ↔
      ∃ value, first = some (.ok value) ∧ rest value = some (.ok result) := by
  rcases first with _ | failure | value
  · exact ⟨fun bound => (nomatch bound), fun ⟨_, impossible, _⟩ => nomatch impossible⟩
  · exact ⟨fun bound => (nomatch bound), fun ⟨_, impossible, _⟩ => nomatch impossible⟩
  · constructor
    · intro bound
      exact ⟨value, rfl, bound⟩
    · rintro ⟨_, ⟨⟩, bound⟩
      exact bound

end Enroute.Except
