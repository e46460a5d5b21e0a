import Mathlib.Tactic
import Mathlib.Logic.Relation

/-!
# Walking off a stack

A walk pops the top of a stack, pushes what stands behind it and goes on until the stack is empty.
Nothing is remembered, so what is reached along several ways is popped as often. The walk ends if
whatever is pushed is of a lower level than what it is pushed for.
-/

namespace Enroute.Unstack

open List

variable {φ : Type} {push : φ → List φ} {fuel : ℕ} {stack popped : List φ}

/-- The frames popped, in order; nothing if the fuel runs out first. The head of a list of frames is
the top of the stack. -/
def popAll (push : φ → List φ) : ℕ → List φ → Option (List φ)
  | _, [] => some []
  | 0, _ :: _ => none
  | fuel + 1, frame :: stack => (popAll push fuel (push frame ++ stack)).map (frame :: ·)

theorem popAll_cons (frame : φ) :
    popAll push (fuel + 1) (frame :: stack) =
      (popAll push fuel (push frame ++ stack)).map (frame :: ·) :=
  rfl

theorem popAll_of_le {more : ℕ} (popsAll : popAll push fuel stack = some popped)
    (le : fuel ≤ more) : popAll push more stack = some popped := by
  induction fuel generalizing stack popped more with
  | zero =>
    cases stack with
    | nil => cases more <;> exact popsAll
    | cons frame stack => cases popsAll
  | succ fuel ih =>
    cases stack with
    | nil => cases more <;> exact popsAll
    | cons frame stack =>
      cases more with
      | zero => omega
      | succ more =>
        rw [popAll_cons, Option.map_eq_some_iff] at popsAll
        rcases popsAll with ⟨rest, popsRest, rfl⟩
        rw [popAll_cons, ih popsRest (by omega), Option.map_some]

def Ends (push : φ → List φ) (stack : List φ) : Prop :=
  ∃ fuel popped, popAll push fuel stack = some popped

theorem exists_popAll (level : ℕ → φ → Prop) (lowest : ∀ frame, level 0 frame → push frame = [])
    (lower : ∀ height frame, level (height + 1) frame → ∀ pushed ∈ push frame, level height pushed)
    (height : ℕ) (starts : ∀ frame ∈ stack, level height frame) :
    ∃ fuel popped, popAll push fuel stack = some popped := by
  have onTop : ∀ top : List φ, (∀ frame ∈ top, ∀ rest, Ends push rest →
      Ends push (push frame ++ rest)) → ∀ below, Ends push below → Ends push (top ++ below) := by
    intro top pushes below ends
    induction top with
    | nil => exact ends
    | cons frame top ih =>
      rcases forall_mem_cons.mp pushes with ⟨here, later⟩
      rcases here _ (ih later) with ⟨fuel, popped, popsAll⟩
      refine ⟨fuel + 1, frame :: popped, ?_⟩
      rw [cons_append, popAll_cons, popsAll, Option.map_some]
  have pushes : ∀ height frame, level height frame → ∀ rest, Ends push rest →
      Ends push (push frame ++ rest) := by
    intro height
    induction height with
    | zero =>
      intro frame isLowest rest ends
      rwa [lowest frame isLowest]
    | succ height ih =>
      exact fun frame isLevel => onTop _ fun pushed isPushed =>
        ih pushed (lower height frame isLevel pushed isPushed)
  have whole := onTop stack (fun frame listed => pushes height frame (starts frame listed)) []
    ⟨0, [], rfl⟩
  rwa [append_nil] at whole

theorem popAll_induction {motive : List φ → List φ → Prop} (nil : motive [] [])
    (cons : ∀ frame stack rest, motive (push frame ++ stack) rest →
      motive (frame :: stack) (frame :: rest))
    (popsAll : popAll push fuel stack = some popped) : motive stack popped := by
  induction fuel generalizing stack popped with
  | zero =>
    cases stack with
    | nil =>
      cases popsAll
      exact nil
    | cons frame stack => cases popsAll
  | succ fuel ih =>
    cases stack with
    | nil =>
      cases popsAll
      exact nil
    | cons frame stack =>
      rw [popAll_cons, Option.map_eq_some_iff] at popsAll
      rcases popsAll with ⟨rest, popsRest, rfl⟩
      exact cons frame stack rest (ih popsRest)

section

variable (popsAll : popAll push fuel stack = some popped)

include popsAll

theorem popAll_closed :
    (∀ frame ∈ stack, frame ∈ popped) ∧
      ∀ frame ∈ popped, ∀ pushed ∈ push frame, pushed ∈ popped := by
  refine popAll_induction (motive := fun stack popped => (∀ frame ∈ stack, frame ∈ popped) ∧
    ∀ frame ∈ popped, ∀ pushed ∈ push frame, pushed ∈ popped) (by simp) ?_ popsAll
  rintro top stack rest ⟨stacked, ih⟩
  refine ⟨?_, ?_⟩
  · intro frame listed
    rcases mem_cons.mp listed with rfl | below
    · exact mem_cons_self
    · exact mem_cons_of_mem _ (stacked frame (mem_append_right _ below))
  · intro frame listed pushed isPushed
    rcases mem_cons.mp listed with rfl | later
    · exact mem_cons_of_mem _ (stacked pushed (mem_append_left _ isPushed))
    · exact mem_cons_of_mem _ (ih frame later pushed isPushed)

theorem popAll_invariant {holds : φ → Prop} (starts : ∀ frame ∈ stack, holds frame)
    (pushes : ∀ frame, holds frame → ∀ pushed ∈ push frame, holds pushed) :
    ∀ frame ∈ popped, holds frame := by
  revert starts
  refine popAll_induction (motive := fun stack popped => (∀ frame ∈ stack, holds frame) →
    ∀ frame ∈ popped, holds frame) (by simp) ?_ popsAll
  intro top stack rest ih starts frame listed
  have top_ := starts top mem_cons_self
  rcases mem_cons.mp listed with rfl | later
  · exact top_
  · refine ih ?_ frame later
    intro other isOther
    rcases mem_append.mp isOther with pushed | below
    · exact pushes top top_ other pushed
    · exact starts other (mem_cons_of_mem _ below)

theorem popAll_congr {other : φ → List φ} (same : ∀ frame ∈ popped, other frame = push frame) :
    popAll other fuel stack = some popped := by
  induction fuel generalizing stack popped with
  | zero => cases stack <;> exact popsAll
  | succ fuel ih =>
    cases stack with
    | nil => exact popsAll
    | cons frame stack =>
      rw [popAll_cons, Option.map_eq_some_iff] at popsAll
      rcases popsAll with ⟨rest, popsRest, rfl⟩
      rcases forall_mem_cons.mp same with ⟨sameHere, sameLater⟩
      rw [popAll_cons, sameHere, ih popsRest sameLater, Option.map_some]

/-- Pushing nothing for some of the frames pops some of the frames, in the same order. -/
theorem popAll_sublist {other : φ → List φ} {more : ℕ} {all : List φ}
    (whole : popAll other more stack = some all)
    (fewer : ∀ frame, push frame = other frame ∨ push frame = []) : popped.Sublist all := by
  suffices general : ∀ {fuel part popped}, part.Sublist stack →
      popAll push fuel part = some popped → popped.Sublist all from
    general (List.Sublist.refl stack) popsAll
  refine popAll_induction (motive := fun stack all => ∀ {fuel part popped}, part.Sublist stack →
    popAll push fuel part = some popped → popped.Sublist all) ?_ ?_ whole
  · intro fuel part popped isPart popsPart
    rw [sublist_nil.mp isPart, popAll, Option.some.injEq] at popsPart
    rw [← popsPart]
  · intro frame stack rest ih fuel part popped isPart popsPart
    cases isPart with
    | cons _ below =>
      exact (ih (below.trans (sublist_append_right _ _)) popsPart).cons frame
    | cons_cons _ below =>
      cases fuel with
      | zero => cases popsPart
      | succ fuel =>
        rw [popAll_cons, Option.map_eq_some_iff] at popsPart
        rcases popsPart with ⟨later, popsLater, rfl⟩
        refine (ih (.append ?_ below) popsLater).cons_cons frame
        rcases fewer frame with same | nothing
        · rw [same]
        · rw [nothing]
          exact nil_sublist _

end

section Addresses

variable {α : Type} {address : φ → List α}

def Apart (address : φ → List α) (first second : φ) : Prop :=
  ¬address first <+: address second ∧ ¬address second <+: address first

/-- If whatever is pushed for a frame stands right under it, each at an address of its own, then no
address is popped twice. -/
theorem popAll_nodup (holds : φ → Prop) (popsAll : popAll push fuel stack = some popped)
    (pushes : ∀ frame, holds frame → ∀ pushed ∈ push frame, holds pushed)
    (under : ∀ frame, holds frame → ∀ pushed ∈ push frame,
      ∃ step, address pushed = address frame ++ [step])
    (distinct : ∀ frame, holds frame → ((push frame).map address).Nodup)
    (starts : ∀ frame ∈ stack, holds frame) (apart : stack.Pairwise (Apart address)) :
    (popped.map address).Nodup := by
  -- Along the walk, whatever is popped stands under a frame of the stack.
  suffices both : (popped.map address).Nodup ∧
      ∀ frame ∈ popped, ∃ top ∈ stack, address top <+: address frame from both.1
  revert starts apart
  refine popAll_induction (motive := fun stack popped => (∀ frame ∈ stack, holds frame) →
    stack.Pairwise (Apart address) → (popped.map address).Nodup ∧
      ∀ frame ∈ popped, ∃ top ∈ stack, address top <+: address frame) (by simp) ?_ popsAll
  intro top stack rest ih starts apart
  rcases forall_mem_cons.mp starts with ⟨topHolds, stackHolds⟩
  rcases pairwise_cons.mp apart with ⟨topApart, stackApart⟩
  have below : ∀ pushed ∈ push top, address top <+: address pushed := by
    intro pushed isPushed
    rcases under top topHolds pushed isPushed with ⟨step, isUnder⟩
    exact isUnder ▸ prefix_append _ _
  have nextHolds : ∀ frame ∈ push top ++ stack, holds frame := by
    intro frame listed
    rcases mem_append.mp listed with isPushed | inStack
    · exact pushes top topHolds frame isPushed
    · exact stackHolds frame inStack
  have nextApart : (push top ++ stack).Pairwise (Apart address) := by
    refine pairwise_append.mpr ⟨?_, stackApart, fun pushed isPushed other inStack => ?_⟩
    · refine List.Pairwise.imp_of_mem ?_ (pairwise_map.mp (distinct top topHolds))
      intro first second isFirst isSecond different
      rcases under top topHolds first isFirst with ⟨step, firstUnder⟩
      rcases under top topHolds second isSecond with ⟨other, secondUnder⟩
      have sameLength : (address first).length = (address second).length := by
        rw [firstUnder, secondUnder, length_append, length_append]
        rfl
      exact ⟨fun leads => different (leads.eq_of_length sameLength),
        fun leads => different (leads.eq_of_length sameLength.symm).symm⟩
    · have apartTop := topApart other inStack
      refine ⟨fun leads => apartTop.1 ((below pushed isPushed).trans leads), fun leads => ?_⟩
      rcases prefix_or_prefix_of_prefix leads (below pushed isPushed) with otherFirst | topFirst
      · exact apartTop.2 otherFirst
      · exact apartTop.1 topFirst
  rcases ih nextHolds nextApart with ⟨nodup, placed⟩
  refine ⟨?_, ?_⟩
  · rw [map_cons, nodup_cons]
    refine ⟨fun again => ?_, nodup⟩
    rcases mem_map.mp again with ⟨frame, listed, sameAddress⟩
    rcases placed frame listed with ⟨start, isStart, leads⟩
    rw [sameAddress] at leads
    rcases mem_append.mp isStart with isPushed | inStack
    · rcases under top topHolds start isPushed with ⟨step, isUnder⟩
      have longer := leads.length_le
      rw [isUnder, length_append, length_singleton] at longer
      omega
    · exact (topApart start inStack).2 leads
  · intro frame listed
    rcases mem_cons.mp listed with rfl | later
    · exact ⟨frame, mem_cons_self, prefix_rfl⟩
    · rcases placed frame later with ⟨start, isStart, leads⟩
      rcases mem_append.mp isStart with isPushed | inStack
      · exact ⟨top, mem_cons_self, (below start isPushed).trans leads⟩
      · exact ⟨start, mem_cons_of_mem _ inStack, leads⟩

end Addresses

end Enroute.Unstack
