import Mathlib.Order.Lattice
import Mathlib.Tactic

/-!
# Composing values by a join

Many values compose by joining them one after the other, and no values compose to nothing. A lawful
join, one that is associative, commutative and idempotent, orders its values by absorption, and what
values compose to is then their least upper bound, whatever order or grouping they were met in.
-/

namespace Enroute

open List

class Join (S : Type*) where
  join : S → S → S

namespace Join

variable {S : Type*} [Join S]

structure Laws (S : Type*) [Join S] : Prop where
  assoc : ∀ a b c : S, join (join a b) c = join a (join b c)
  comm : ∀ a b : S, join a b = join b a
  idem : ∀ a : S, join a a = a

def compose : List S → Option S
  | [] => none
  | first :: values => some (values.foldl join first)

def Covers (whole : Option S) (value : S) : Prop :=
  ∃ held, whole = some held ∧ join held value = held

variable {value held : S} {values others : List S} {whole : Option S}

theorem compose_eq_none_iff : compose values = none ↔ values = [] := by
  cases values <;> simp [compose]

namespace Laws

abbrev lattice (laws : Laws S) : SemilatticeSup S :=
  @SemilatticeSup.mk' S ⟨join⟩ laws.comm laws.assoc laws.idem

theorem covers_some_iff (laws : Laws S) : Covers (some held) value ↔ laws.lattice.le value held := by
  let _ := laws.lattice
  have absorbs : value ≤ held ↔ join value held = held := sup_eq_right.symm
  rw [absorbs, laws.comm]
  simp [Covers]

theorem foldl_join_le_iff (laws : Laws S) {first bound : S} :
    laws.lattice.le (values.foldl join first) bound ↔
      laws.lattice.le first bound ∧ ∀ value ∈ values, laws.lattice.le value bound := by
  let _ := laws.lattice
  induction values generalizing first with
  | nil => simp
  | cons value values ih =>
    have joined : join first value ≤ bound ↔ first ≤ bound ∧ value ≤ bound := sup_le_iff
    refine (@ih (join first value)).trans ?_
    rw [forall_mem_cons, ← and_assoc]
    exact and_congr_left' joined

theorem covers_compose_iff (laws : Laws S) (composed : compose values = some held) :
    Covers whole held ↔ ∀ value ∈ values, Covers whole value := by
  cases values with
  | nil => cases composed
  | cons first values =>
    cases composed
    rcases whole with _ | bound
    · have never : ∀ value : S, ¬Covers none value := by
        rintro value ⟨_, impossible, -⟩
        cases impossible
      exact iff_of_false (never _) fun all => never first (all first mem_cons_self)
    · simp only [laws.covers_some_iff, forall_mem_cons]
      exact laws.foldl_join_le_iff

theorem covers_compose (laws : Laws S) (listed : value ∈ values) :
    Covers (compose values) value := by
  cases composed : compose values with
  | none =>
    rw [compose_eq_none_iff.mp composed] at listed
    cases listed
  | some held =>
    refine (laws.covers_compose_iff composed).mp ?_ value listed
    exact ⟨held, rfl, laws.idem held⟩

theorem compose_eq_of_covers_iff (laws : Laws S)
    (same : ∀ whole, (∀ value ∈ values, Covers whole value) ↔ ∀ value ∈ others, Covers whole value) :
    compose values = compose others := by
  have all : ∀ values : List S, ∀ value ∈ values, Covers (compose values) value :=
    fun values value listed => laws.covers_compose listed
  cases composed : compose values with
  | none =>
    have none := (same none).mp (composed ▸ all values)
    cases others with
    | nil => rfl
    | cons first others =>
      rcases none first mem_cons_self with ⟨_, impossible, -⟩
      cases impossible
  | some held =>
    cases composedOthers : compose others with
    | none =>
      have none := (same none).mpr (composedOthers ▸ all others)
      cases values with
      | nil => cases composed
      | cons first values =>
        rcases none first mem_cons_self with ⟨_, impossible, -⟩
        cases impossible
    | some other =>
      let _ := laws.lattice
      have below : held ≤ other := laws.covers_some_iff.mp
        ((laws.covers_compose_iff composed).mpr
          ((same _).mpr (composedOthers ▸ all others)))
      have above : other ≤ held := laws.covers_some_iff.mp
        ((laws.covers_compose_iff composedOthers).mpr ((same _).mp (composed ▸ all values)))
      rw [le_antisymm below above]

end Laws

/-! ### Laws among some of the values -/

/-- Laws that hold among the good values, which joining does not leave. -/
structure LawfulOn (good : S → Prop) : Prop where
  closed : ∀ {a b : S}, good a → good b → good (join a b)
  assoc : ∀ {a b c : S}, good a → good b → good c → join (join a b) c = join a (join b c)
  comm : ∀ {a b : S}, good a → good b → join a b = join b a
  idem : ∀ {a : S}, good a → join a a = a

namespace LawfulOn

variable {good : S → Prop}

abbrev onGood (lawful : LawfulOn good) : Join { value : S // good value } :=
  ⟨fun a b => ⟨join a.1 b.1, lawful.closed a.2 b.2⟩⟩

theorem laws (lawful : LawfulOn good) : @Laws { value : S // good value } lawful.onGood :=
  @Laws.mk _ lawful.onGood
    (fun a b c => Subtype.ext (lawful.assoc a.2 b.2 c.2))
    (fun a b => Subtype.ext (lawful.comm a.2 b.2))
    (fun a => Subtype.ext (lawful.idem a.2))

theorem map_val_compose (lawful : LawfulOn good) (values : List { value : S // good value }) :
    (@compose _ lawful.onGood values).map Subtype.val = compose (values.map Subtype.val) := by
  let _ := lawful.onGood
  cases values with
  | nil => rfl
  | cons first values =>
    rw [compose, map_cons, compose, Option.map_some, Option.some.injEq]
    induction values generalizing first with
    | nil => rfl
    | cons value values ih => exact ih _

theorem compose_eq (lawful : LawfulOn good) (allGood : ∀ value ∈ values, good value)
    (same : ∀ value, value ∈ values ↔ value ∈ others) : compose values = compose others := by
  have othersGood : ∀ value ∈ others, good value := fun value listed =>
    allGood value ((same value).mpr listed)
  lift values to List { value : S // good value } using allGood
  lift others to List { value : S // good value } using othersGood
  have sameOnGood : ∀ value, value ∈ values ↔ value ∈ others := by
    intro value
    have here := same value.1
    rwa [mem_map_of_injective Subtype.val_injective,
      mem_map_of_injective Subtype.val_injective] at here
  rw [← lawful.map_val_compose, ← lawful.map_val_compose]
  congr 1
  refine @Laws.compose_eq_of_covers_iff _ lawful.onGood _ _ lawful.laws fun whole => ?_
  exact forall_congr' fun value => imp_congr_left (sameOnGood value)

theorem compose_groups (lawful : LawfulOn good) {groups : List (List S)}
    (allGood : ∀ group ∈ groups, ∀ value ∈ group, good value) :
    compose (groups.filterMap compose) = compose groups.flatten := by
  let _ := lawful.onGood
  lift groups to List (List { value : S // good value }) using allGood
  have each : (groups.map (List.map Subtype.val)).filterMap compose =
      (groups.filterMap compose).map Subtype.val := by
    rw [filterMap_map, map_filterMap]
    exact filterMap_congr fun group _ => (lawful.map_val_compose group).symm
  rw [each, ← map_flatten, ← lawful.map_val_compose, ← lawful.map_val_compose]
  congr 1
  refine lawful.laws.compose_eq_of_covers_iff fun whole => ?_
  simp only [mem_filterMap, mem_flatten]
  constructor
  · rintro covered value ⟨group, listed, inGroup⟩
    cases composed : compose group with
    | none =>
      rw [compose_eq_none_iff.mp composed] at inGroup
      cases inGroup
    | some held =>
      exact (lawful.laws.covers_compose_iff composed).mp (covered held ⟨group, listed, composed⟩)
        value inGroup
  · rintro covered held ⟨group, listed, composed⟩
    exact (lawful.laws.covers_compose_iff composed).mpr fun value inGroup =>
      covered value ⟨group, listed, inGroup⟩

end LawfulOn

/-- A join that is a semilattice on collections within some limits: the laws hold, and what a
collection composes to does not depend on order, repetition or grouping. -/
structure Semilattice (within : List S → Prop) : Prop where
  assoc : ∀ a b c : S, within [a, b, c] → join (join a b) c = join a (join b c)
  comm : ∀ a b : S, within [a, b] → join a b = join b a
  idem : ∀ a : S, within [a] → join a a = a
  composed : ∀ values others : List S, within values →
    (∀ value, value ∈ values ↔ value ∈ others) → compose values = compose others
  grouped : ∀ groups : List (List S), within groups.flatten →
    compose (groups.filterMap compose) = compose groups.flatten

theorem Semilattice.of_lawfulOn {within : List S → Prop}
    (lawful : ∀ values, within values →
      ∃ good : S → Prop, LawfulOn good ∧ ∀ value ∈ values, good value) :
    Semilattice within where
  assoc a b c limited := by
    rcases lawful _ limited with ⟨good, lawful, allGood⟩
    exact lawful.assoc (allGood a (by simp)) (allGood b (by simp)) (allGood c (by simp))
  comm a b limited := by
    rcases lawful _ limited with ⟨good, lawful, allGood⟩
    exact lawful.comm (allGood a (by simp)) (allGood b (by simp))
  idem a limited := by
    rcases lawful _ limited with ⟨good, lawful, allGood⟩
    exact lawful.idem (allGood a (by simp))
  composed values others limited same := by
    rcases lawful _ limited with ⟨good, lawful, allGood⟩
    exact lawful.compose_eq allGood same
  grouped groups limited := by
    rcases lawful _ limited with ⟨good, lawful, allGood⟩
    refine lawful.compose_groups fun group listed value inGroup => ?_
    exact allGood value (mem_flatten.mpr ⟨group, listed, inGroup⟩)

end Join

end Enroute
