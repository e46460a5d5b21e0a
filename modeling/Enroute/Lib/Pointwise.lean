import Enroute.Lib.Join

/-!
# Joins that act key by key

Values that are looked up by keys, joined so that each key ends with what the two sides hold there,
merged. What a collection composes to is then known key by key: the merge of what the values hold,
in any order, whatever holds nothing left out. Sizes are bounded together, as a join may do this
only while what is joined stays small enough.
-/

namespace Enroute.Join

open List

variable {S K V α : Type*}

def merged (merge : V → V → V) (values : List (Option V)) : Option V :=
  values.foldl (Option.merge merge) none

section Merged

variable {merge : V → V → V} {items others : List α} {value : α → Option V}

theorem merged_eq_of_perm [Std.Associative merge] [Std.Commutative merge]
    (perm : items.Perm others) : merged merge (items.map value) = merged merge (others.map value) :=
  (perm.map value).foldl_op_eq

theorem merged_filter {keep : α → Bool}
    (absent : ∀ item ∈ items, keep item = false → value item = none) :
    merged merge ((items.filter keep).map value) = merged merge (items.map value) := by
  rw [merged, merged]
  generalize (none : Option V) = start
  induction items generalizing start with
  | nil => rfl
  | cons item items ih =>
    have rest := ih fun other otherMem => absent other (mem_cons_of_mem _ otherMem)
    cases kept : keep item with
    | true =>
      rw [filter_cons_of_pos kept, map_cons, map_cons, foldl_cons,
        foldl_cons, rest]
    | false =>
      rw [filter_cons_of_neg (by simp [kept]), map_cons, foldl_cons,
        absent item mem_cons_self kept, Option.merge_none_right, rest]

theorem merged_concat (values : List (Option V)) (last : Option V) :
    merged merge (values ++ [last]) = Option.merge merge (merged merge values) last := by
  rw [merged, foldl_append]
  rfl

theorem merged_append [Std.Associative merge] (values others : List (Option V)) :
    merged merge (values ++ others) =
      Option.merge merge (merged merge values) (merged merge others) := by
  induction others using List.reverseRecOn with
  | nil => simp [merged]
  | append_singleton others last ih =>
    rw [← append_assoc, merged_concat, ih, merged_concat]
    exact Std.Associative.assoc _ _ _

theorem foldl_merge_some [Std.IdempotentOp merge] {values : List (Option V)} {held : V}
    (alike : ∀ value ∈ values, value = none ∨ value = some held) :
    values.foldl (Option.merge merge) (some held) = some held := by
  induction values with
  | nil => rfl
  | cons value values ih =>
    rw [forall_mem_cons] at alike
    have same : Option.merge merge (some held) value = some held := by
      rcases alike.1 with rfl | rfl
      · exact Option.merge_none_right
      · exact congrArg some (Std.IdempotentOp.idempotent held)
    rw [foldl_cons, same]
    exact ih alike.2

theorem merged_eq_some [Std.IdempotentOp merge] {values : List (Option V)} {held : V}
    (alike : ∀ value ∈ values, value = none ∨ value = some held) (there : some held ∈ values) :
    merged merge values = some held := by
  induction values with
  | nil => cases there
  | cons value values ih =>
    rw [forall_mem_cons] at alike
    rw [merged, foldl_cons, Option.merge_none_left]
    rcases alike.1 with rfl | rfl
    · exact ih alike.2 ((mem_cons.mp there).resolve_left (by simp))
    · exact foldl_merge_some alike.2

end Merged

variable [Join S]

/-- A join of good values merges what they hold at each key, as long as their sizes together stay
within the limit. -/
structure Pointwise (lookup : S → K → Option V) (merge : V → V → V) (good : S → Prop) (size : S → ℕ)
    (limit : ℕ) : Prop where
  lookup_join : ∀ {left right : S}, good left → good right → size left + size right ≤ limit →
    ∀ key, lookup (join left right) key = Option.merge merge (lookup left key) (lookup right key)
  good_join : ∀ {left right : S}, good left → good right → size left + size right ≤ limit →
    good (join left right)
  size_join : ∀ {left right : S}, good left → good right → size left + size right ≤ limit →
    size (join left right) ≤ size left + size right

variable {lookup : S → K → Option V} {merge : V → V → V} {good : S → Prop} {size : S → ℕ}
  {limit : ℕ}

theorem Pointwise.lookup_foldl (pointwise : Pointwise lookup merge good size limit)
    {values : List S} {first : S} (goodFirst : good first) (allGood : ∀ value ∈ values, good value)
    (small : size first + (values.map size).sum ≤ limit) (key : K) :
    good (values.foldl join first) ∧ lookup (values.foldl join first) key =
      (values.map (lookup · key)).foldl (Option.merge merge) (lookup first key) := by
  induction values generalizing first with
  | nil => exact ⟨goodFirst, rfl⟩
  | cons value values ih =>
    rw [forall_mem_cons] at allGood
    rw [map_cons, sum_cons] at small
    have smallPair : size first + size value ≤ limit := by omega
    have shrinks := pointwise.size_join goodFirst allGood.1 smallPair
    have rest := ih (pointwise.good_join goodFirst allGood.1 smallPair) allGood.2 (by omega)
    rwa [pointwise.lookup_join goodFirst allGood.1 smallPair] at rest

theorem Pointwise.lookup_compose (pointwise : Pointwise lookup merge good size limit)
    {values : List S} (allGood : ∀ value ∈ values, good value)
    (small : (values.map size).sum ≤ limit) (key : K) :
    (compose values).bind (lookup · key) = merged merge (values.map (lookup · key)) := by
  cases values with
  | nil => rfl
  | cons first values =>
    rw [forall_mem_cons] at allGood
    rw [merged, map_cons, foldl_cons, Option.merge_none_left, compose, Option.bind_some]
    exact (pointwise.lookup_foldl allGood.1 allGood.2 (by simpa using small) key).2

/-- Some values after any of them were joined, one after another, with any others. -/
inductive Merges : List S → List S → Prop
  | same (values : List S) : Merges values values
  | merge {values chosen rest after : List S} {made : S} : values.Perm (chosen ++ rest) →
      compose chosen = some made → Merges (made :: rest) after → Merges values after

theorem Pointwise.lookup_merges [Std.Associative merge] [Std.Commutative merge]
    (pointwise : Pointwise lookup merge (fun _ => True) (fun _ => 0) 0) {values after : List S}
    (merges : Merges values after) (key : K) :
    (compose after).bind (lookup · key) = (compose values).bind (lookup · key) := by
  have composed : ∀ values : List S, (compose values).bind (lookup · key) =
      merged merge (values.map (lookup · key)) :=
    fun values => pointwise.lookup_compose (fun _ _ => trivial) (by simp) key
  induction merges with
  | same values => rfl
  | @merge values chosen rest after made perm isMade _ ih =>
    have together : merged merge (chosen.map (lookup · key)) = lookup made key := by
      rw [← composed, isMade, Option.bind_some]
    have alone : merged merge [lookup made key] = lookup made key := Option.merge_none_left
    rw [ih, composed, composed, merged_eq_of_perm perm, map_append, merged_append, together,
      map_cons, ← singleton_append, merged_append, alone]

/-- A join that acts key by key is lawful among good values that their lookups tell apart, when the
merge is. -/
theorem Pointwise.lawfulOn [Std.Associative merge] [Std.Commutative merge]
    (pointwise : Pointwise lookup merge good (fun _ => 0) 0)
    (ext : ∀ {left right : S}, good left → good right →
      (∀ key, lookup left key = lookup right key) → left = right)
    (idem : ∀ {held : S} {key : K} {value : V}, good held → lookup held key = some value →
      merge value value = value) : LawfulOn good := by
  have lookups : ∀ {left right : S}, good left → good right → ∀ key,
      lookup (join left right) key = Option.merge merge (lookup left key) (lookup right key) :=
    fun goodLeft goodRight => pointwise.lookup_join goodLeft goodRight le_rfl
  have closed : ∀ {left right : S}, good left → good right → good (join left right) :=
    fun goodLeft goodRight => pointwise.good_join goodLeft goodRight le_rfl
  refine ⟨closed, ?_, ?_, ?_⟩
  · intro a b c goodA goodB goodC
    refine ext (closed (closed goodA goodB) goodC) (closed goodA (closed goodB goodC)) fun key => ?_
    rw [lookups (closed goodA goodB) goodC, lookups goodA goodB, lookups goodA (closed goodB goodC),
      lookups goodB goodC]
    exact Std.Associative.assoc _ _ _
  · intro a b goodA goodB
    refine ext (closed goodA goodB) (closed goodB goodA) fun key => ?_
    rw [lookups goodA goodB, lookups goodB goodA]
    exact Std.Commutative.comm _ _
  · intro a goodA
    refine ext (closed goodA goodA) goodA fun key => ?_
    rw [lookups goodA goodA]
    cases found : lookup a key with
    | none => rfl
    | some value => rw [Option.merge_some_some, idem goodA found]

end Enroute.Join
