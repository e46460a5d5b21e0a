import Mathlib.Tactic
import Mathlib.Data.Finset.Card
import Mathlib.Data.List.Perm.Basic

/-!
# Merged streams

Several sources, each delivering its items in order, are merged in any order of arrival. A
consumer that passes on the first item of each key passes on one item for each key that any
source delivers, whatever the order was.
-/

namespace Enroute.Stream

open List

universe u v

variable {α : Type u} {β : Type v}

/-- A list is an order in which the items of some sources can arrive: each item is the next one
of some source. -/
inductive Interleaved : List (List α) → List α → Prop where
  | done {sources : List (List α)} (exhausted : ∀ source ∈ sources, source = []) :
      Interleaved sources []
  | next {before after : List (List α)} {item : α} {rest arrived : List α}
      (later : Interleaved (before ++ rest :: after) arrived) :
      Interleaved (before ++ (item :: rest) :: after) (item :: arrived)

theorem Interleaved.perm {sources : List (List α)} {arrived : List α}
    (merged : Interleaved sources arrived) : arrived.Perm sources.flatten := by
  induction merged with
  | done exhausted =>
    rw [flatten_eq_nil_iff.mpr exhausted]
  | @next before after item rest arrived later ih =>
    have swapped : (item :: (before ++ rest :: after).flatten).Perm
        (before ++ (item :: rest) :: after).flatten := by
      simp only [flatten_append, flatten_cons, cons_append]
      exact perm_middle.symm
    exact (ih.cons item).trans swapped

theorem Interleaved.flatten (sources : List (List α)) : Interleaved sources sources.flatten := by
  have inTurn : ∀ done : List (List α), (∀ source ∈ done, source = []) →
      Interleaved (done ++ sources) sources.flatten := by
    induction sources with
    | nil =>
      intro done exhausted
      rw [append_nil]
      exact .done exhausted
    | cons source sources ih =>
      intro done exhausted
      induction source with
      | nil =>
        rw [flatten_cons, nil_append, append_cons]
        refine ih (done ++ [[]]) fun other listed => ?_
        rcases mem_append.mp listed with before | last
        · exact exhausted other before
        · exact mem_singleton.mp last
      | cons item rest later => exact .next later
  exact inTurn [] fun _ listed => absurd listed not_mem_nil

variable [DecidableEq β]

def keepFirst (key : α → β) : List β → List α → List α
  | _, [] => []
  | seen, item :: items =>
    if key item ∈ seen then keepFirst key seen items
    else item :: keepFirst key (key item :: seen) items

variable {key : α → β}

theorem mem_map_keepFirst {seen : List β} {items : List α} {name : β} :
    name ∈ (keepFirst key seen items).map key ↔ name ∉ seen ∧ name ∈ items.map key := by
  induction items generalizing seen with
  | nil => simp [keepFirst]
  | cons item items ih =>
    rw [keepFirst]
    split
    next known =>
      rw [ih, map_cons, mem_cons]
      constructor
      · rintro ⟨fresh, listed⟩
        exact ⟨fresh, Or.inr listed⟩
      · rintro ⟨fresh, rfl | listed⟩
        · exact absurd known fresh
        · exact ⟨fresh, listed⟩
    next unknown =>
      rw [map_cons, mem_cons, ih, map_cons, mem_cons, mem_cons, not_or]
      constructor
      · rintro (rfl | ⟨⟨-, fresh⟩, listed⟩)
        · exact ⟨unknown, Or.inl rfl⟩
        · exact ⟨fresh, Or.inr listed⟩
      · rintro ⟨fresh, rfl | listed⟩
        · exact Or.inl rfl
        · by_cases same : name = key item
          · exact Or.inl same
          · exact Or.inr ⟨⟨same, fresh⟩, listed⟩

theorem keepFirst_nodup (seen : List β) (items : List α) :
    ((keepFirst key seen items).map key).Nodup := by
  induction items generalizing seen with
  | nil => exact nodup_nil
  | cons item items ih =>
    rw [keepFirst]
    split
    next => exact ih seen
    next =>
      rw [map_cons, nodup_cons]
      refine ⟨fun again => ?_, ih _⟩
      exact (mem_map_keepFirst.mp again).1 mem_cons_self

theorem length_keepFirst (items : List α) :
    (keepFirst key [] items).length = (items.map key).toFinset.card := by
  rw [← length_map (f := key), ← toFinset_card_of_nodup (keepFirst_nodup [] items)]
  congr 1
  ext name
  simp only [mem_toFinset]
  rw [mem_map_keepFirst]
  simp

omit [DecidableEq β] in
theorem nodup_map_filterMap {γ : Type*} {find : α → Option β} {keyOf : β → γ} {nameOf : α → γ}
    {names : List α} (nodup : (names.map nameOf).Nodup)
    (keyed : ∀ name found, find name = some found → keyOf found = nameOf name) :
    ((names.filterMap find).map keyOf).Nodup := by
  have sub : ((names.filterMap find).map keyOf).Sublist (names.map nameOf) := by
    clear nodup
    induction names with
    | nil => exact .slnil
    | cons name names ih =>
      rw [map_cons]
      cases isFound : find name with
      | none =>
        rw [filterMap_cons_none isFound]
        exact ih.cons _
      | some found =>
        rw [filterMap_cons_some isFound, map_cons, keyed name found isFound]
        exact ih.cons_cons _
  exact nodup.sublist sub

end Enroute.Stream
