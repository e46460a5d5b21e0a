import Mathlib.Tactic
import Mathlib.Data.List.Destutter

/-!
# Cutting lists

Dropping repeats, cutting a list into pieces of one size, and cutting it at the places where an item
ends a line. A list that arrives
in pieces has the same lines however it was cut: what is unfinished is all that has to be kept.
-/

namespace Enroute.Lists

open List

universe u

variable {α : Type u} [DecidableEq α]

theorem mem_destutter_ne {items : List α} {item : α} :
    item ∈ items.destutter (· ≠ ·) ↔ item ∈ items := by
  refine ⟨fun listed => (destutter_sublist _ _).subset listed, ?_⟩
  cases items with
  | nil => exact id
  | cons first rest =>
    rw [destutter_cons']
    induction rest generalizing first with
    | nil => exact id
    | cons second rest ih =>
      intro listed
      rw [List.destutter']
      split_ifs with differs
      · rcases mem_cons.mp listed with rfl | later
        · exact mem_cons_self
        · exact mem_cons_of_mem _ (ih second later)
      · rw [not_ne_iff] at differs
        subst differs
        exact ih first (mem_cons.mp listed |>.elim (· ▸ mem_cons_self) id)

section Lines

variable (ending : α)

def finished : List α → List α → List (List α)
  | _, [] => []
  | line, item :: items =>
    if item = ending then line :: finished [] items else finished (line ++ [item]) items

def unfinished : List α → List α → List α
  | line, [] => line
  | line, item :: items =>
    if item = ending then unfinished [] items else unfinished (line ++ [item]) items

variable {ending}

theorem finished_append (line items more : List α) :
    finished ending line (items ++ more) =
      finished ending line items ++ finished ending (unfinished ending line items) more := by
  induction items generalizing line with
  | nil => rfl
  | cons item items ih =>
    by_cases ends : item = ending
    · simp only [cons_append, finished, unfinished, if_pos ends, ih]
    · simp only [cons_append, finished, unfinished, if_neg ends, ih]

theorem unfinished_append (line items more : List α) :
    unfinished ending line (items ++ more) =
      unfinished ending (unfinished ending line items) more := by
  induction items generalizing line with
  | nil => rfl
  | cons item items ih =>
    by_cases ends : item = ending
    · simp only [cons_append, unfinished, if_pos ends, ih]
    · simp only [cons_append, unfinished, if_neg ends, ih]

theorem finished_of_notMem (line : List α) {items : List α} (open_ : ending ∉ items) :
    finished ending line items = [] ∧ unfinished ending line items = line ++ items := by
  induction items generalizing line with
  | nil => simp [finished, unfinished]
  | cons item items ih =>
    rw [mem_cons, not_or] at open_
    rcases ih (line ++ [item]) open_.2 with ⟨noneEnds, rest⟩
    have goesOn : ¬item = ending := fun same => open_.1 same.symm
    simp only [finished, unfinished, if_neg goesOn, noneEnds, rest, true_and]
    rw [append_assoc, singleton_append]

theorem finished_line {line : List α} (open_ : ending ∉ line) (items : List α) :
    finished ending [] (line ++ ending :: items) = line :: finished ending [] items ∧
      unfinished ending [] (line ++ ending :: items) = unfinished ending [] items := by
  rcases finished_of_notMem [] open_ with ⟨noneEnds, rest⟩
  rw [finished_append, unfinished_append, noneEnds, rest]
  simp only [nil_append, finished, unfinished, if_true, and_self]

theorem finished_of_findIdx? {items : List α} {at_ : ℕ}
    (found : items.findIdx? (· == ending) = some at_) :
    finished ending [] items = items.take at_ :: finished ending [] (items.drop (at_ + 1)) ∧
      unfinished ending [] items = unfinished ending [] (items.drop (at_ + 1)) := by
  rcases List.findIdx?_eq_some_iff_getElem.mp found with ⟨inside, isEnding, before⟩
  have open_ : ending ∉ items.take at_ := by
    intro listed
    rcases mem_take_iff_getElem.mp listed with ⟨position, less, same⟩
    exact before position (by omega) (beq_iff_eq.mpr same)
  have cut : items = items.take at_ ++ ending :: items.drop (at_ + 1) := by
    rw [← beq_iff_eq.mp isEnding, ← drop_eq_getElem_cons inside, take_append_drop]
  have line := finished_line open_ (items.drop (at_ + 1))
  rwa [← cut] at line

theorem notMem_unfinished {line : List α} (items : List α) (open_ : ending ∉ line) :
    ending ∉ unfinished ending line items := by
  induction items generalizing line with
  | nil => exact open_
  | cons item items ih =>
    by_cases ends : item = ending
    · simp only [unfinished, if_pos ends]
      exact ih not_mem_nil
    · simp only [unfinished, if_neg ends]
      refine ih fun listed => ?_
      rcases mem_append.mp listed with before | last
      · exact open_ before
      · exact ends (mem_singleton.mp last).symm

end Lines

theorem count_intercalate (ending : α) {lines : List (List α)} (some_ : lines ≠ []) :
    ([ending].intercalate lines).count ending + 1 =
      lines.length + (lines.map (List.count ending)).sum := by
  induction lines with
  | nil => exact absurd rfl some_
  | cons line lines ih =>
    cases lines with
    | nil => simp [Nat.add_comm]
    | cons next lines =>
      have onward := ih (cons_ne_nil _ _)
      rw [intercalate_cons_cons, count_append, count_append,
        count_singleton_self, map_cons, sum_cons, length_cons]
      omega

theorem intercalate_inj {ending : α} {lines others : List (List α)}
    (asMany : lines.length = others.length) (open_ : ∀ line ∈ lines, ending ∉ line)
    (same : [ending].intercalate lines = [ending].intercalate others) : lines = others := by
  rcases eq_or_ne lines [] with rfl | some_
  · exact (length_eq_zero_iff.mp asMany.symm).symm
  · have someToo : others ≠ [] := by
      rw [← length_pos_iff] at some_ ⊢
      omega
    have counts := count_intercalate ending some_
    have countsToo := count_intercalate ending someToo
    have none_ : (lines.map (List.count ending)).sum = 0 := by
      rw [sum_eq_zero_iff, forall_mem_map]
      exact fun line listed => count_eq_zero.mpr (open_ line listed)
    have noneToo : (others.map (List.count ending)).sum = 0 := by
      rw [same] at counts
      omega
    rw [sum_eq_zero_iff, forall_mem_map] at noneToo
    rw [← splitOn_intercalate ending open_ some_, same, splitOn_intercalate ending
      (fun line listed => count_eq_zero.mp (noneToo line listed)) someToo]

theorem forall₂_trans {β γ δ : Type*} {first : β → γ → Prop} {second : γ → δ → Prop}
    {both : β → δ → Prop} (compose : ∀ a b c, first a b → second b c → both a c) {as : List β}
    {bs : List γ} {cs : List δ} (left : List.Forall₂ first as bs)
    (right : List.Forall₂ second bs cs) : List.Forall₂ both as cs := by
  induction left generalizing cs with
  | nil =>
    cases right
    exact .nil
  | cons related _ ih =>
    cases right with
    | cons onward rest => exact .cons (compose _ _ _ related onward) (ih rest)

theorem exists_of_forall₂_left {β γ : Type*} {related : β → γ → Prop} {as : List β} {bs : List γ}
    (all : List.Forall₂ related as bs) {a : β} (listed : a ∈ as) : ∃ b ∈ bs, related a b := by
  induction all with
  | nil => cases listed
  | @cons head other _ others first _ ih =>
    rcases mem_cons.mp listed with rfl | later
    · exact ⟨other, mem_cons_self, first⟩
    · rcases ih later with ⟨b, bMem, found⟩
      exact ⟨b, mem_cons_of_mem _ bMem, found⟩

theorem exists_of_forall₂_right {β γ : Type*} {related : β → γ → Prop} {as : List β} {bs : List γ}
    (all : List.Forall₂ related as bs) {b : γ} (listed : b ∈ bs) : ∃ a ∈ as, related a b :=
  exists_of_forall₂_left all.flip listed

theorem forall₂_mem_right {β γ : Type*} {related : β → γ → Prop} {as : List β} {bs : List γ}
    (all : List.Forall₂ related as bs) :
    List.Forall₂ (fun a b => b ∈ bs ∧ related a b) as bs := by
  induction all with
  | nil => exact .nil
  | cons first _ ih =>
    refine .cons ⟨mem_cons_self, first⟩ (ih.imp fun a b found => ?_)
    exact ⟨mem_cons_of_mem _ found.1, found.2⟩

/-- The front of a part of a sorted list starts the list if whatever the part leaves out comes behind
that front. -/
theorem prefix_iff_of_sorted {β : Type u} {before : β → β → Prop}
    (asymm : ∀ first second, before first second → ¬before second first)
    {all part front : List β} (allSorted : all.Pairwise before) (partSorted : part.Pairwise before)
    (isPart : part ⊆ all) (isFront : front <+: part) :
    front <+: all ↔ ∀ item ∈ all, item ∉ part → ∀ told ∈ front, before told item := by
  constructor
  · rintro ⟨rest, rfl⟩ item listed leftOut told isTold
    rcases mem_append.mp listed with early | late
    · exact absurd (isFront.subset early) leftOut
    · exact (pairwise_append.mp allSorted).2.2 told isTold item late
  · intro behind
    have irrefl : ∀ {item}, ¬before item item := fun both => asymm _ _ both both
    induction all generalizing part front with
    | nil =>
      rw [eq_nil_of_subset_nil isPart] at isFront
      exact isFront
    | cons first all ih =>
      cases front with
      | nil => exact nil_prefix
      | cons told front =>
        rcases isFront with ⟨rest, rfl⟩
        rw [cons_append, pairwise_cons] at partSorted
        rw [pairwise_cons] at allSorted
        have same : told = first := by
          by_contra different
          have later := (mem_cons.mp (isPart mem_cons_self)).resolve_left different
          refine asymm _ _ (allSorted.1 told later) ?_
          by_cases inPart : first ∈ told :: front ++ rest
          · exact partSorted.1 first
              ((mem_cons.mp inPart).resolve_left (Ne.symm different))
          · exact behind first mem_cons_self inPart told mem_cons_self
        subst same
        refine (prefix_cons_inj told).mpr (ih allSorted.2 partSorted.2 ?_
          (prefix_append _ _) fun item listed leftOut other isOther => ?_)
        · intro item listed
          refine (mem_cons.mp (isPart (mem_cons_of_mem _ listed))).resolve_left ?_
          rintro rfl
          exact irrefl (partSorted.1 item listed)
        · refine behind item (mem_cons_of_mem _ listed) (fun inPart => ?_) other
            (mem_cons_of_mem _ isOther)
          rcases mem_cons.mp inPart with rfl | later
          · exact irrefl (allSorted.1 item listed)
          · exact leftOut later

section Chunks

variable {β : Type u}

def chunksWithin (size : ℕ) : ℕ → List β → List (List β)
  | 0, _ => []
  | _, [] => []
  | fuel + 1, item :: items =>
    (item :: items).take size :: chunksWithin size fuel ((item :: items).drop size)

def chunks (size : ℕ) (items : List β) : List (List β) :=
  chunksWithin size items.length items

variable {size : ℕ} (positive : 0 < size)
include positive

theorem flatten_chunksWithin {fuel : ℕ} {items : List β} (enough : items.length ≤ fuel) :
    (chunksWithin size fuel items).flatten = items := by
  induction fuel generalizing items with
  | zero => rw [length_eq_zero_iff.mp (Nat.le_zero.mp enough)]; rfl
  | succ fuel ih =>
    cases items with
    | nil => rfl
    | cons item items =>
      have shorter : ((item :: items).drop size).length ≤ fuel := by
        rw [length_drop]
        omega
      rw [chunksWithin, flatten_cons, ih shorter, take_append_drop]

theorem flatten_chunks (items : List β) : (chunks size items).flatten = items :=
  flatten_chunksWithin positive le_rfl

theorem length_chunksWithin {fuel : ℕ} {items chunk : List β}
    (cut : chunk ∈ chunksWithin size fuel items) : 0 < chunk.length ∧ chunk.length ≤ size := by
  induction fuel generalizing items with
  | zero => cases cut
  | succ fuel ih =>
    cases items with
    | nil => cases cut
    | cons item items =>
      rcases mem_cons.mp cut with rfl | later
      · rw [length_take, length_cons]
        omega
      · exact ih later

omit positive in
theorem length_of_mem_dropLast {fuel : ℕ} {items chunk : List β}
    (cut : chunk ∈ (chunksWithin size fuel items).dropLast) : chunk.length = size := by
  induction fuel generalizing items with
  | zero => cases cut
  | succ fuel ih =>
    cases items with
    | nil => cases cut
    | cons item items =>
      rw [chunksWithin] at cut
      cases isRest : chunksWithin size fuel ((item :: items).drop size) with
      | nil =>
        rw [isRest] at cut
        cases cut
      | cons next rest =>
        rw [isRest, dropLast_cons_cons, ← isRest] at cut
        rcases mem_cons.mp cut with rfl | later
        · rw [length_take, Nat.min_eq_left]
          refine Nat.le_of_not_lt fun short => ?_
          rw [drop_of_length_le short.le] at isRest
          cases fuel <;> cases isRest
        · exact ih later

end Chunks

end Enroute.Lists
