import Mathlib.Tactic
import Mathlib.Logic.Relation

/-!
# Descending relations cut at a floor

A walk over a relation whose steps go down in `ℕ` can be done in bands: everything reachable at
or above a floor is reached by steps taken above it, and every path to something below the
floor passes through a first node below it, which the band hands to the next one.
-/

namespace Enroute.Descent

open Relation

def Above (step : ℕ → ℕ → Prop) (floor : ℕ) (source target : ℕ) : Prop :=
  floor ≤ source ∧ step source target

variable {step : ℕ → ℕ → Prop} {floor source target : ℕ}

theorem above_path (path : ReflTransGen (Above step floor) source target) :
    ReflTransGen step source target :=
  ReflTransGen.mono (fun _ _ taken => taken.2) _ _ path

section Descending

variable (descends : ∀ source target, step source target → target < source)

include descends

theorem le_of_path (path : ReflTransGen step source target) : target ≤ source := by
  induction path with
  | refl => exact le_rfl
  | tail _ last ih => exact (descends _ _ last).le.trans ih

theorem above_of_path (path : ReflTransGen step source target) (ends : floor ≤ target) :
    ReflTransGen (Above step floor) source target := by
  induction path with
  | refl => exact .refl
  | tail _ last ih =>
    have before := ends.trans (descends _ _ last).le
    exact (ih before).tail ⟨before, last⟩

theorem exists_crossing (path : ReflTransGen step source target) (starts : floor ≤ source)
    (ends : target < floor) :
    ∃ crossing < floor, ReflTransGen (Above step floor) source crossing ∧
      ReflTransGen step crossing target := by
  induction path with
  | refl => omega
  | @tail before target _ last ih =>
    by_cases above : floor ≤ before
    · refine ⟨target, ends, ?_, .refl⟩
      exact (above_of_path descends ‹_› above).tail ⟨above, last⟩
    · rcases ih (by omega) with ⟨crossing, crossingBelow, down, rest⟩
      exact ⟨crossing, crossingBelow, down, rest.tail last⟩

end Descending

end Enroute.Descent
