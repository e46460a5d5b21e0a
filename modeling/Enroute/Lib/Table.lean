import Mathlib.Tactic
import Mathlib.Data.List.AList

/-!
# Tables filled in one go

Entering a list of entries into a table: what each key holds afterwards. Entries either replace
what was there or are joined with it; of a join that keeps one of its two sides the table never
holds anything but what was entered, and nothing below it in the order the join goes by.
-/

namespace Enroute.Table

open List

variable {ι κ V : Type} [DecidableEq κ]

def enter (key : ι → κ) (value : ι → V) (entries : List ι) (table : AList fun _ : κ => V) :
    AList fun _ : κ => V :=
  entries.foldl (fun held entry => held.insert (key entry) (value entry)) table

variable {key : ι → κ} {value : ι → V} {entries : List ι} {table : AList fun _ : κ => V}

theorem lookup_enter_of_notMem {wanted : κ} (outside : wanted ∉ entries.map key) :
    (enter key value entries table).lookup wanted = table.lookup wanted := by
  induction entries generalizing table with
  | nil => rfl
  | cons entry entries ih =>
    rw [map_cons, mem_cons, not_or] at outside
    rw [enter, foldl_cons, ← enter, ih outside.2, AList.lookup_insert_ne outside.1]

theorem mem_enter_of_mem {wanted : κ} (listed : wanted ∈ entries.map key) :
    wanted ∈ enter key value entries table := by
  induction entries generalizing table with
  | nil => cases listed
  | cons entry entries ih =>
    rw [enter, foldl_cons, ← enter]
    by_cases later : wanted ∈ entries.map key
    · exact ih later
    · cases (mem_cons.mp listed).resolve_right later
      rw [← AList.lookup_isSome, lookup_enter_of_notMem later, AList.lookup_insert]
      rfl

theorem lookup_enter_eq_some {wanted : κ} {found : V}
    (held : (enter key value entries table).lookup wanted = some found) :
    (∃ entry ∈ entries, key entry = wanted ∧ value entry = found) ∨
      table.lookup wanted = some found := by
  induction entries generalizing table with
  | nil => exact Or.inr held
  | cons entry entries ih =>
    rw [enter, foldl_cons, ← enter] at held
    rcases ih held with ⟨other, listed, same, isFound⟩ | before
    · exact Or.inl ⟨other, mem_cons_of_mem _ listed, same, isFound⟩
    · by_cases isKey : wanted = key entry
      · subst isKey
        rw [AList.lookup_insert, Option.some.injEq] at before
        exact Or.inl ⟨entry, mem_cons_self, rfl, before⟩
      · exact Or.inr (AList.lookup_insert_ne isKey ▸ before)

theorem lookup_enter_of_mem (distinct : (entries.map key).Nodup) {entry : ι}
    (listed : entry ∈ entries) :
    (enter key value entries table).lookup (key entry) = some (value entry) := by
  induction entries generalizing table with
  | nil => cases listed
  | cons first entries ih =>
    rw [map_cons, nodup_cons] at distinct
    rw [enter, foldl_cons, ← enter]
    rcases mem_cons.mp listed with rfl | later
    · rw [lookup_enter_of_notMem distinct.1, AList.lookup_insert]
    · exact ih distinct.2 later

theorem lookup_enter (distinct : (entries.map key).Nodup) {wanted : κ} {found : V} :
    (enter key value entries table).lookup wanted = some found ↔
      (∃ entry ∈ entries, key entry = wanted ∧ value entry = found) ∨
        (wanted ∉ entries.map key ∧ table.lookup wanted = some found) := by
  by_cases listed : wanted ∈ entries.map key
  · rcases mem_map.mp listed with ⟨entry, entryMem, rfl⟩
    rw [lookup_enter_of_mem distinct entryMem, Option.some.injEq]
    constructor
    · rintro rfl
      exact Or.inl ⟨entry, entryMem, rfl, rfl⟩
    · rintro (⟨other, otherMem, sameKey, rfl⟩ | ⟨outside, -⟩)
      · rw [inj_on_of_nodup_map distinct otherMem entryMem sameKey]
      · exact absurd listed outside
  · rw [lookup_enter_of_notMem listed]
    refine ⟨fun held => Or.inr ⟨listed, held⟩, ?_⟩
    rintro (⟨entry, entryMem, rfl, -⟩ | ⟨-, held⟩)
    · exact absurd (mem_map_of_mem entryMem) listed
    · exact held

end Enroute.Table
