import Mathlib.Tactic

/-!
# A cache bounded by weight

Entries stand in the order they were last used, the latest first. What is put goes to the front, and
while the entries together weigh more than the budget the one at the back is dropped. The total is
counted along, not summed up again, so that it is the sum of the weights is part of what a cache is.
-/

namespace Enroute

open List

/-- A cache with each key once, the weight of its entries counted, and that within the budget. -/
structure Lru (κ ν : Type) (weight : ν → ℕ) (budget : ℕ) where
  entries : List (κ × ν)
  total : ℕ
  distinct : (entries.map Prod.fst).Nodup
  isTotal : total = (entries.map fun entry => weight entry.2).sum
  within : total ≤ budget

namespace Lru

variable {κ ν : Type} {weight : ν → ℕ} {budget : ℕ}

def empty : Lru κ ν weight budget :=
  ⟨[], 0, nodup_nil, rfl, Nat.zero_le _⟩

/-- Drop entries from the front of a list that has the least recently used first, until the budget
is kept. -/
def evict (weight : ν → ℕ) (budget : ℕ) : List (κ × ν) → ℕ → List (κ × ν) × ℕ
  | [], total => ([], total)
  | oldest :: entries, total =>
    if budget < total then evict weight budget entries (total - weight oldest.2)
    else (oldest :: entries, total)

theorem evict_suffix (entries : List (κ × ν)) (total : ℕ) :
    (evict weight budget entries total).1 <:+ entries := by
  induction entries generalizing total with
  | nil => exact suffix_rfl
  | cons oldest entries ih =>
    rw [evict]
    split_ifs with heavy
    · exact (ih _).trans (suffix_cons _ _)
    · exact suffix_rfl

theorem evict_total (entries : List (κ × ν)) :
    (evict weight budget entries (entries.map fun entry => weight entry.2).sum).2 =
        ((evict weight budget entries (entries.map fun entry => weight entry.2).sum).1.map
          fun entry => weight entry.2).sum ∧
      (evict weight budget entries (entries.map fun entry => weight entry.2).sum).2 ≤ budget := by
  induction entries with
  | nil => exact ⟨rfl, Nat.zero_le _⟩
  | cons oldest entries ih =>
    rw [evict]
    split_ifs with heavy
    · rwa [map_cons, sum_cons, Nat.add_sub_cancel_left]
    · exact ⟨rfl, Nat.le_of_not_lt heavy⟩

variable [DecidableEq κ]

def find (cache : Lru κ ν weight budget) (key : κ) : Option ν :=
  (cache.entries.find? fun entry => entry.1 = key).map Prod.snd

def without (entries : List (κ × ν)) (key : κ) : List (κ × ν) :=
  entries.filter fun entry => entry.1 ≠ key

theorem nodup_cons_without {entries : List (κ × ν)} (distinct : (entries.map Prod.fst).Nodup)
    (key : κ) (value : ν) : (((key, value) :: without entries key).map Prod.fst).Nodup := by
  rw [map_cons, nodup_cons]
  refine ⟨fun again => ?_, distinct.sublist (filter_sublist.map _)⟩
  rcases mem_map.mp again with ⟨entry, listed, isKey⟩
  rw [without, mem_filter, decide_eq_true_eq] at listed
  exact listed.2 isKey

theorem sum_without {entries : List (κ × ν)} (distinct : (entries.map Prod.fst).Nodup) (key : κ) :
    ((without entries key).map fun entry => weight entry.2).sum =
      (entries.map fun entry => weight entry.2).sum -
        (((entries.find? fun entry => entry.1 = key).map fun entry => weight entry.2).getD 0) := by
  induction entries with
  | nil => rfl
  | cons first entries ih =>
    rw [map_cons, nodup_cons] at distinct
    by_cases same : first.1 = key
    · have others : without entries key = entries := by
        refine filter_eq_self.mpr fun entry listed => decide_eq_true fun isKey => ?_
        exact distinct.1 (same.trans isKey.symm ▸ mem_map_of_mem listed)
      rw [without, filter_cons_of_neg (by simpa using same), ← without, others,
        List.find?_cons_of_pos (by simpa using same)]
      simp
    · rw [without, filter_cons_of_pos (by simpa using same), ← without,
        List.find?_cons_of_neg (by simpa using same), map_cons, sum_cons,
        ih distinct.2, map_cons, sum_cons]
      have le : (((entries.find? fun entry => entry.1 = key).map
          fun entry => weight entry.2).getD 0) ≤ (entries.map fun entry => weight entry.2).sum := by
        cases found : entries.find? fun entry => entry.1 = key with
        | none => exact Nat.zero_le _
        | some entry =>
          exact single_le_sum (fun _ _ => Nat.zero_le _) _
            (mem_map_of_mem (mem_of_find?_eq_some found))
      omega

def get (cache : Lru κ ν weight budget) (key : κ) : Option ν × Lru κ ν weight budget :=
  match found : cache.entries.find? fun entry => entry.1 = key with
  | none => (none, cache)
  | some entry =>
    (some entry.2,
      { cache with
        entries := (key, entry.2) :: without cache.entries key
        distinct := nodup_cons_without cache.distinct key entry.2
        isTotal := by
          have listed : weight entry.2 ∈ cache.entries.map fun entry => weight entry.2 :=
            mem_map_of_mem (mem_of_find?_eq_some found)
          have le := single_le_sum (fun _ _ => Nat.zero_le _) _ listed
          rw [map_cons, sum_cons, sum_without cache.distinct key, found,
            cache.isTotal]
          simp only [Option.map_some, Option.getD_some]
          omega })

/-- Put a value, in the place of an older one under the key, and keep the budget. -/
def put (cache : Lru κ ν weight budget) (key : κ) (value : ν) : Lru κ ν weight budget :=
  let old := ((cache.entries.find? fun entry => entry.1 = key).map fun entry => weight entry.2).getD 0
  let entries := (key, value) :: without cache.entries key
  let total := cache.total - old + weight value
  have isTotal : total = (entries.reverse.map fun entry => weight entry.2).sum := by
    rw [map_reverse, sum_reverse, map_cons, sum_cons,
      sum_without cache.distinct key, ← cache.isTotal]
    exact Nat.add_comm _ _
  let kept := evict weight budget entries.reverse total
  { entries := kept.1.reverse
    total := kept.2
    distinct := by
      have sub : (kept.1.reverse).Sublist entries :=
        reverse_reverse entries ▸ (evict_suffix _ _).sublist.reverse
      exact (nodup_cons_without cache.distinct key value).sublist (sub.map _)
    isTotal := by
      rw [map_reverse, sum_reverse]
      simp only [kept, isTotal]
      exact (evict_total entries.reverse).1
    within := by
      simp only [kept, isTotal]
      exact (evict_total entries.reverse).2 }

variable {cache : Lru κ ν weight budget} {key other : κ} {value : ν}

theorem find_empty : (empty : Lru κ ν weight budget).find key = none :=
  rfl

theorem find?_without (entries : List (κ × ν)) (different : other ≠ key) :
    (without entries key).find? (fun entry => entry.1 = other) =
      entries.find? fun entry => entry.1 = other := by
  rw [without, List.find?_filter]
  congr 1
  funext entry
  by_cases isOther : entry.1 = other
  · simp [isOther, different]
  · simp [isOther]

@[simp]
theorem get_fst : (cache.get key).1 = cache.find key := by
  rw [get, find]
  split
  next missing => exact (congrArg (Option.map Prod.snd) missing).symm
  next entry found => exact (congrArg (Option.map Prod.snd) found).symm

@[simp]
theorem find_get : (cache.get key).2.find other = cache.find other := by
  rw [get]
  split
  next => rfl
  next entry found =>
    rw [find, find]
    by_cases same : other = key
    · subst same
      simp [found]
    · rw [List.find?_cons_of_neg (by simpa using Ne.symm same), find?_without _ same]

theorem find_put {found : ν} (isFound : (cache.put key value).find other = some found) :
    other = key ∧ found = value ∨ cache.find other = some found := by
  rw [find, Option.map_eq_some_iff] at isFound
  rcases isFound with ⟨entry, isEntry, rfl⟩
  -- What the budget leaves is the front of the list, so the first of a key there is the first.
  have leads : (cache.put key value).entries <+: (key, value) :: without cache.entries key := by
    refine reverse_suffix.mp ?_
    rw [put, reverse_reverse]
    exact evict_suffix _ _
  rcases leads with ⟨rest, isWhole⟩
  have whole : ((key, value) :: without cache.entries key).find? (fun entry => entry.1 = other) =
      some entry := by
    rw [← isWhole, List.find?_append, isEntry, Option.some_or]
  by_cases same : other = key
  · subst same
    rw [List.find?_cons_of_pos (by simp), Option.some.injEq] at whole
    exact Or.inl ⟨rfl, by rw [← whole]⟩
  · rw [List.find?_cons_of_neg (by simpa using Ne.symm same), find?_without _ same] at whole
    exact Or.inr (by rw [find, whole, Option.map_some])

end Lru

end Enroute
