import Enroute.Lib.Fields
import Enroute.Lib.Lists

/-!
# Items placed one after another

Items that each say where they stand and how long they are, with no gap between them. Written down
in that order, every item is found where it says it stands.
-/

namespace Enroute.Placed

open List

variable {α : Type*} {at_ len : α → ℕ} {start : ℕ} {items front back : List α}

def extent (len : α → ℕ) (items : List α) : ℕ :=
  (items.map len).sum

def PlacedFrom (at_ len : α → ℕ) : ℕ → List α → Prop
  | _, [] => True
  | start, item :: items => at_ item = start ∧ PlacedFrom at_ len (start + len item) items

@[simp]
theorem extent_nil : extent len [] = 0 :=
  rfl

@[simp]
theorem extent_cons (item : α) : extent len (item :: items) = len item + extent len items := by
  rw [extent, map_cons, sum_cons, extent]

@[simp]
theorem extent_append : extent len (front ++ back) = extent len front + extent len back := by
  rw [extent, map_append, sum_append, extent, extent]

theorem placedFrom_append :
    PlacedFrom at_ len start (front ++ back) ↔
      PlacedFrom at_ len start front ∧ PlacedFrom at_ len (start + extent len front) back := by
  induction front generalizing start with
  | nil => simp [PlacedFrom]
  | cons item front ih =>
    rw [cons_append, PlacedFrom, PlacedFrom, ih, extent_cons, Nat.add_assoc, and_assoc]

theorem PlacedFrom.at_eq {item : α} (placed : PlacedFrom at_ len start (front ++ item :: back)) :
    at_ item = start + extent len front :=
  (placedFrom_append.mp placed).2.1

theorem PlacedFrom.end_le {item : α} (placed : PlacedFrom at_ len start items)
    (listed : item ∈ items) : at_ item + len item ≤ start + extent len items := by
  rcases append_of_mem listed with ⟨front, back, rfl⟩
  rw [placed.at_eq, extent_append, extent_cons]
  omega

theorem placedFrom_map {β : Type*} (convert : β → α) (items : List β) :
    PlacedFrom at_ len start (items.map convert) ↔ PlacedFrom (fun item => at_ (convert item))
      (fun item => len (convert item)) start items := by
  induction items generalizing start with
  | nil => rfl
  | cons item items ih => rw [map_cons, PlacedFrom, PlacedFrom, ih]

theorem extent_map {β : Type*} (convert : β → α) (items : List β) :
    extent len (items.map convert) = extent (fun item => len (convert item)) items := by
  rw [extent, map_map, extent]
  rfl

theorem PlacedFrom.congr {other : α → ℕ} (same : ∀ item ∈ items, len item = other item)
    (placed : PlacedFrom at_ len start items) : PlacedFrom at_ other start items := by
  induction items generalizing start with
  | nil => trivial
  | cons item items ih =>
    rcases forall_mem_cons.mp same with ⟨sameHere, sameLater⟩
    exact ⟨placed.1, ih sameLater (sameHere ▸ placed.2)⟩

theorem extent_congr {other : α → ℕ} (same : ∀ item ∈ items, len item = other item) :
    extent len items = extent other items := by
  rw [extent, extent, map_congr_left same]

section Pairs

variable {β : Type*} {related other : α → β → Prop} {left : List α} {right : List β}

theorem forall₂_imp_of_mem (implies : ∀ a ∈ left, ∀ b ∈ right, related a b → other a b)
    (pairs : List.Forall₂ related left right) : List.Forall₂ other left right := by
  induction pairs with
  | nil => exact .nil
  | cons isRelated _ ih =>
    refine .cons (implies _ mem_cons_self _ mem_cons_self isRelated) (ih ?_)
    exact fun a isLeft b isRight => implies a (mem_cons_of_mem _ isLeft) b
      (mem_cons_of_mem _ isRight)

theorem exists_left (pairs : List.Forall₂ related left right) {b : β} (listed : b ∈ right) :
    ∃ a ∈ left, related a b :=
  Lists.exists_of_forall₂_right pairs listed

theorem map_eq_of_forall₂ {γ : Type*} {first : α → γ} {second : β → γ}
    (same : ∀ a b, related a b → first a = second b) (pairs : List.Forall₂ related left right) :
    left.map first = right.map second := by
  induction pairs with
  | nil => rfl
  | cons isRelated _ ih => rw [map_cons, map_cons, ih, same _ _ isRelated]

theorem exists_map_eq {holds : β → Prop} {convert : β → α}
    (each : ∀ a ∈ left, ∃ b, convert b = a ∧ holds b) :
    ∃ right : List β, right.map convert = left ∧ ∀ b ∈ right, holds b := by
  induction left with
  | nil => exact ⟨[], rfl, fun _ listed => nomatch listed⟩
  | cons a left ih =>
    rcases forall_mem_cons.mp each with ⟨⟨b, isItem, holdsHere⟩, eachLater⟩
    rcases ih eachLater with ⟨right, isMap, holdsLater⟩
    exact ⟨b :: right, by rw [map_cons, isItem, isMap],
      forall_mem_cons.mpr ⟨holdsHere, holdsLater⟩⟩

end Pairs

section Bytes

variable {bytes : α → List UInt8} {lead rest : List UInt8}

theorem length_flatMap (sized : ∀ item ∈ items, (bytes item).length = len item) :
    (items.flatMap bytes).length = extent len items := by
  induction items with
  | nil => rfl
  | cons item items ih =>
    rcases forall_mem_cons.mp sized with ⟨here, later⟩
    rw [flatMap_cons, length_append, ih later, here, extent_cons]

theorem PlacedFrom.slice {item : α} (placed : PlacedFrom at_ len lead.length items)
    (sized : ∀ item ∈ items, (bytes item).length = len item) (listed : item ∈ items) :
    Fields.slice (lead ++ (items.flatMap bytes ++ rest)) (at_ item) (len item) =
      some (bytes item) := by
  rcases append_of_mem listed with ⟨front, back, rfl⟩
  have sizedFront : ∀ item ∈ front, (bytes item).length = len item :=
    fun item isFront => sized item (mem_append_left _ isFront)
  have whole := Fields.slice_all (bytes item)
  rw [placed.at_eq, ← length_flatMap sizedFront, flatMap_append, flatMap_cons,
    append_assoc, Fields.slice_append_right]
  have after := @Fields.slice_append_right (front.flatMap bytes)
    ((bytes item ++ back.flatMap bytes) ++ rest) 0 (len item)
  rw [Nat.add_zero] at after
  rw [after, append_assoc, ← sized item listed, Fields.slice_append_left (by omega), whole]

end Bytes

end Enroute.Placed
