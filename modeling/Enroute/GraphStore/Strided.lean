import Enroute.Lattice.Frame

/-!
# A slot per number

What both tiers of the commit index are underneath: commits are numbered in order, so a lookup can
be arithmetic rather than a search. Both ends are always occupied, a hole being a number that has
nothing. Joining keeps the greater node where both sides have one.
-/

namespace Enroute.Stored

open Enroute.Lattice List

/-- One node per number from the first, and a hole where a number has none. -/
structure Strided (N : Type) where
  /-- The number the first slot is for. -/
  first : ℕ
  slots : List (Option N)
  deriving DecidableEq, Repr

def rposition {α : Type} (passes : α → Bool) : List α → Option ℕ
  | [] => none
  | element :: elements =>
    match rposition passes elements with
    | some position => some (position + 1)
    | none => if passes element then some 0 else none

theorem rposition_eq_none_iff {α : Type} {passes : α → Bool} {elements : List α} :
    rposition passes elements = none ↔ ∀ element ∈ elements, passes element = false := by
  induction elements with
  | nil => simp [rposition]
  | cons element elements ih =>
    rw [rposition, forall_mem_cons, ← ih]
    cases rposition passes elements <;> simp

theorem rposition_map {α β : Type} (passes : β → Bool) (convert : α → β) (elements : List α) :
    rposition passes (elements.map convert) = rposition (passes ∘ convert) elements := by
  induction elements with
  | nil => rfl
  | cons element elements ih => simp only [map_cons, rposition, ih, Function.comp_apply]

theorem le_rposition {α : Type} {passes : α → Bool} {elements : List α} {position last : ℕ}
    (isLast : rposition passes elements = some last) {element : α}
    (found : elements[position]? = some element) (passed : passes element = true) :
    position ≤ last := by
  induction elements generalizing position last with
  | nil => cases isLast
  | cons head elements ih =>
    cases position with
    | zero => exact Nat.zero_le _
    | succ position =>
      rw [List.getElem?_cons_succ] at found
      rw [rposition] at isLast
      cases rest : rposition passes elements with
      | none =>
        have failed := rposition_eq_none_iff.mp rest element (List.mem_of_getElem? found)
        rw [passed] at failed
        cases failed
      | some later =>
        rw [rest] at isLast
        cases isLast
        exact Nat.succ_le_succ (ih rest found)

namespace Strided

variable {N : Type}

def empty : Strided N :=
  ⟨0, []⟩

def get (strided : Strided N) (seq : ℕ) : Option N :=
  if seq < strided.first then none else strided.slots[seq - strided.first]?.join

def last (strided : Strided N) : Option ℕ :=
  (rposition Option.isSome strided.slots).map (strided.first + ·)

def range (strided : Strided N) : Option KeyRange :=
  strided.last.bind (KeyRange.new strided.first)

def trimmed (first : ℕ) (slots : List (Option N)) : Strided N :=
  match slots.findIdx? Option.isSome with
  | none => empty
  | some lowest =>
    let highest := (rposition Option.isSome slots).getD lowest
    ⟨first + lowest, (slots.take (highest + 1)).drop lowest⟩

variable {first seq : ℕ} {slots : List (Option N)} {strided : Strided N} {node : N}

theorem get_add (first position : ℕ) (slots : List (Option N)) :
    get ⟨first, slots⟩ (first + position) = slots[position]?.join := by
  simp [get]

theorem get_below (below : seq < first) : get ⟨first, slots⟩ seq = none :=
  if_pos below

theorem get_eq_none_of_holes (holes : ∀ slot ∈ slots, slot.isSome = false) :
    get ⟨first, slots⟩ seq = none := by
  by_cases below : seq < first
  · exact get_below below
  · rw [get, if_neg below]
    cases found : slots[seq - first]? with
    | none => rfl
    | some slot => simpa using holes slot (List.mem_of_getElem? found)

theorem bounds_of_get (found : strided.get seq = some node) :
    strided.first ≤ seq ∧ seq < strided.first + strided.slots.length := by
  rw [get] at found
  split_ifs at found with below
  rw [Option.join_eq_some_iff] at found
  rcases List.getElem?_eq_some_iff.mp found with ⟨inside, -⟩
  omega

theorem exists_get_of_mem (held : some node ∈ strided.slots) :
    ∃ seq, strided.get seq = some node := by
  rcases List.getElem?_of_mem held with ⟨position, found⟩
  refine ⟨strided.first + position, ?_⟩
  rw [get_add, found]
  rfl

theorem le_last_of_get (found : strided.get seq = some node) :
    ∃ last, strided.last = some last ∧ strided.first ≤ seq ∧ seq ≤ last := by
  rw [get] at found
  split_ifs at found with below
  rw [Option.join_eq_some_iff] at found
  cases isLast : rposition Option.isSome strided.slots with
  | none =>
    have hole := rposition_eq_none_iff.mp isLast _ (List.mem_of_getElem? found)
    cases hole
  | some position =>
    have bound := le_rposition isLast found rfl
    exact ⟨strided.first + position, by rw [last, isLast]; rfl, by omega, by omega⟩

theorem get_eq_none_of_last (noLast : strided.last = none) : strided.get seq = none := by
  by_contra found
  rcases Option.ne_none_iff_exists'.mp found with ⟨node, isNode⟩
  rcases le_last_of_get isNode with ⟨last, isLast, -⟩
  rw [noLast] at isLast
  cases isLast

theorem contains_of_get {range : KeyRange} (covered : strided.range = some range)
    (found : strided.get seq = some node) : range.contains seq = true := by
  rcases le_last_of_get found with ⟨last, isLast, above, below⟩
  rw [Strided.range, isLast, Option.bind_some, KeyRange.new_eq_some_iff] at covered
  rw [KeyRange.contains_iff, covered.1, covered.2]
  exact ⟨above, below⟩

@[simp]
theorem get_trimmed (first : ℕ) (slots : List (Option N)) (seq : ℕ) :
    (trimmed first slots).get seq = get ⟨first, slots⟩ seq := by
  rw [trimmed]
  cases isLowest : slots.findIdx? Option.isSome with
  | none =>
    rw [get_eq_none_of_holes (List.findIdx?_eq_none_iff.mp isLowest)]
    exact get_eq_none_of_holes (forall_mem_nil _)
  | some lowest =>
    rcases List.findIdx?_eq_some_iff_getElem.mp isLowest with ⟨inside, lowestSome, lowerHoles⟩
    simp only
    by_cases below : seq < first + lowest
    · rw [get_below below]
      symm
      by_cases outside : seq < first
      · exact get_below outside
      · rw [get, if_neg outside]
        have hole := lowerHoles (seq - first) (by omega)
        rw [List.getElem?_eq_getElem (by simp only; omega)]
        simpa using hole
    · rcases Nat.le.dest (not_lt.mp below) with ⟨position, rfl⟩
      rw [get_add, Nat.add_assoc, get_add, List.getElem?_drop, List.getElem?_take]
      split_ifs with taken
      · rfl
      -- Beyond the highest node there are holes alone.
      · cases found : slots[lowest + position]? with
        | none => rfl
        | some slot =>
          cases slot with
          | none => rfl
          | some node =>
            cases isLast : rposition Option.isSome slots with
            | none => cases rposition_eq_none_iff.mp isLast _ (List.mem_of_getElem? found)
            | some highest =>
              have bound := le_rposition isLast found rfl
              rw [isLast, Option.getD_some] at taken
              omega

/-! ### Windows -/

def window (strided : Strided N) (from_ upto : ℕ) : Strided N :=
  ⟨strided.first + from_, (strided.slots.drop from_).take (upto - from_)⟩

theorem get_window {from_ upto : ℕ} (strided : Strided N) (seq : ℕ) :
    (strided.window from_ upto).get seq =
      if strided.first + from_ ≤ seq ∧ seq < strided.first + upto then strided.get seq else none := by
  rw [window]
  by_cases below : seq < strided.first + from_
  · rw [get_below below, if_neg (by omega)]
  · rcases Nat.le.dest (not_lt.mp below) with ⟨position, rfl⟩
    have here := get_add strided.first (from_ + position) strided.slots
    rw [get_add, Nat.add_assoc, here, List.getElem?_take, List.getElem?_drop]
    by_cases inside : position < upto - from_
    · rw [if_pos inside, if_pos (by omega)]
    · rw [if_neg inside, if_neg (by omega)]
      rfl

section Sliced

variable {header : Header} {range : KeyRange} {from_ upto : ℕ}

section

variable (isFirst : header.first = strided.first) (isCount : header.records = strided.slots.length)
  (nameable : header.first + (header.records - 1) ≤ max64)

include isFirst isCount nameable

theorem sliced_of_get (wanted : range.contains seq = true) (found : strided.get seq = some node) :
    ∃ from_ upto, header.sliceOf range = some (from_, upto) ∧
      strided.first + from_ ≤ seq ∧ seq < strided.first + upto := by
  have bounds := bounds_of_get found
  rw [← isFirst, ← isCount] at bounds
  rcases mem_sliceOf nameable wanted bounds.1 bounds.2 with ⟨from_, upto, isWindow, above, below⟩
  exact ⟨from_, upto, isWindow, by omega, by omega⟩

theorem get_window_of_sliced (sliced : header.sliceOf range = some (from_, upto))
    (wanted : range.contains seq = true) :
    (strided.window from_ upto).get seq = strided.get seq := by
  rw [get_window]
  split_ifs with inside
  · rfl
  · by_contra found
    rcases Option.ne_none_iff_exists'.mp (Ne.symm found) with ⟨node, isNode⟩
    rcases sliced_of_get isFirst isCount nameable wanted isNode with ⟨lower, upper, isWindow, within⟩
    rw [sliced, Option.some.injEq, Prod.mk.injEq] at isWindow
    rcases isWindow with ⟨rfl, rfl⟩
    exact inside within

theorem get_of_not_sliced (apart : header.sliceOf range = none) (wanted : range.contains seq = true) :
    strided.get seq = none := by
  by_contra found
  rcases Option.ne_none_iff_exists'.mp found with ⟨node, isNode⟩
  rcases sliced_of_get isFirst isCount nameable wanted isNode with ⟨lower, upper, isWindow, -⟩
  rw [apart] at isWindow
  cases isWindow

end

end Sliced

section Ordered

variable [LinearOrder N]

def keepGreater (node : N) : Option N → Option N
  | none => some node
  | some held => if held < node then some node else some held

def absorb (first : ℕ) : ℕ → List (Option N) → List (Option N) → List (Option N)
  | _, [], slots => slots
  | from_, none :: taken, slots => absorb first (from_ + 1) taken slots
  | from_, some node :: taken, slots =>
    absorb first (from_ + 1) taken (slots.modify (from_ - first) (keepGreater node))

def joined (strided other : Strided N) : Strided N :=
  match other.last, strided.last with
  | none, _ => strided
  | some _, none => other
  | some theirs, some mine =>
    let first := min strided.first other.first
    let holes := List.replicate (max mine theirs - first + 1) none
    trimmed first
      (absorb first other.first other.slots (absorb first strided.first strided.slots holes))

theorem keepGreater_eq_merge (node : N) (slot : Option N) :
    keepGreater node slot = Option.merge max slot (some node) := by
  cases slot with
  | none => rfl
  | some held =>
    rw [keepGreater, Option.merge_some_some]
    split_ifs with less
    · rw [max_eq_right less.le]
    · rw [max_eq_left (not_lt.mp less)]

theorem getElem?_absorb {first from_ : ℕ} (below : first ≤ from_) (taken slots : List (Option N))
    (position : ℕ) :
    (absorb first from_ taken slots)[position]? =
      slots[position]?.map (Option.merge max · (get ⟨from_, taken⟩ (first + position))) := by
  induction taken generalizing from_ slots with
  | nil =>
    rw [get_eq_none_of_holes (forall_mem_nil _)]
    simp [absorb]
  | cons slot taken ih =>
    -- One position is where the head goes; all others see the rest only.
    have here : first + position = from_ → get ⟨from_, slot :: taken⟩ (first + position) = slot ∧
        get ⟨from_ + 1, taken⟩ (first + position) = none := by
      intro same
      rw [same]
      exact ⟨by simpa using get_add from_ 0 (slot :: taken), get_below (Nat.lt_succ_self _)⟩
    have elsewhere : first + position ≠ from_ → get ⟨from_, slot :: taken⟩ (first + position) =
        get ⟨from_ + 1, taken⟩ (first + position) := by
      intro different
      rcases lt_or_gt_of_ne different with less | more
      · rw [get_below less, get_below (by omega)]
      · rcases Nat.le.dest more with ⟨further, isFurther⟩
        rw [← isFurther, get_add, Nat.succ_eq_add_one, Nat.add_assoc, get_add, Nat.add_comm 1,
          List.getElem?_cons_succ]
    cases slot with
    | none =>
      rw [absorb, ih (by omega)]
      by_cases same : first + position = from_
      · rw [(here same).1, (here same).2]
      · rw [elsewhere same]
    | some node =>
      rw [absorb, ih (by omega), List.getElem?_modify]
      simp only [keepGreater_eq_merge, Option.map_eq_map, Option.map_map]
      congr 1
      funext held
      by_cases same : first + position = from_
      · rw [Function.comp_apply, if_pos (by omega), (here same).1, (here same).2,
          Option.merge_none_right]
      · rw [Function.comp_apply, if_neg (by omega), elsewhere same]

theorem eq_or_eq_of_merge_max {left right : Option N}
    (kept : Option.merge max left right = some node) : left = some node ∨ right = some node := by
  cases left with
  | none =>
    rw [Option.merge_none_left] at kept
    exact Or.inr kept
  | some first =>
    cases right with
    | none => exact Or.inl kept
    | some second =>
      rw [Option.merge_some_some, Option.some.injEq] at kept
      rcases max_choice first second with isFirst | isSecond
      · exact Or.inl (by rw [← kept, isFirst])
      · exact Or.inr (by rw [← kept, isSecond])

theorem get_joined (strided other : Strided N) (seq : ℕ) :
    (strided.joined other).get seq = Option.merge max (strided.get seq) (other.get seq) := by
  rw [joined]
  cases theirLast : other.last with
  | none => rw [get_eq_none_of_last theirLast, Option.merge_none_right]
  | some theirs =>
    cases myLast : strided.last with
    | none => rw [get_eq_none_of_last myLast, Option.merge_none_left]
    | some mine =>
      simp only [get_trimmed]
      by_cases below : seq < min strided.first other.first
      · rw [get_below below, get, get, if_pos (by omega), if_pos (by omega)]
        rfl
      · rcases Nat.le.dest (not_lt.mp below) with ⟨position, isSeq⟩
        rw [← isSeq, get_add, getElem?_absorb (min_le_right _ _),
          getElem?_absorb (min_le_left _ _), List.getElem?_replicate]
        split_ifs with inside
        · simp
        -- Past both last numbers neither side holds anything.
        · have past : ∀ {side : Strided N} {last : ℕ}, side.last = some last →
              last ≤ max mine theirs →
              side.get (min strided.first other.first + position) = none := by
            intro side last isLast bounded
            by_contra found
            rcases Option.ne_none_iff_exists'.mp found with ⟨node, isNode⟩
            rcases le_last_of_get isNode with ⟨same, isSame, -, within⟩
            rw [isLast, Option.some.injEq] at isSame
            omega
          rw [past myLast (le_max_left _ _), past theirLast (le_max_right _ _)]
          rfl

end Ordered

/-! ### What the nodes add up to -/

section Total

variable (cost : N → ℕ)

def total (slots : List (Option N)) : ℕ :=
  (slots.map fun slot => slot.elim 0 cost).sum

variable {cost}

theorem total_sublist {fewer : List (Option N)} (sublist : fewer.Sublist slots) :
    total cost fewer ≤ total cost slots :=
  (sublist.map _).sum_le_sum fun _ _ => Nat.zero_le _

theorem total_append (slots others : List (Option N)) :
    total cost (slots ++ others) = total cost slots + total cost others := by
  simp [total]

theorem total_holes (holes : ∀ slot ∈ slots, slot.isSome = false) : total cost slots = 0 := by
  refine sum_eq_zero fun value valueMem => ?_
  rcases mem_map.mp valueMem with ⟨slot, slotMem, rfl⟩
  have hole := holes slot slotMem
  cases slot with
  | none => rfl
  | some node => cases hole

theorem total_trimmed (first : ℕ) (slots : List (Option N)) :
    total cost (trimmed first slots).slots = total cost slots := by
  rw [trimmed]
  cases isLowest : slots.findIdx? Option.isSome with
  | none =>
    rw [total_holes (List.findIdx?_eq_none_iff.mp isLowest)]
    rfl
  | some lowest =>
    rcases List.findIdx?_eq_some_iff_getElem.mp isLowest with ⟨inside, lowestSome, lowerHoles⟩
    cases isLast : rposition Option.isSome slots with
    | none =>
      have hole := rposition_eq_none_iff.mp isLast _ (getElem_mem inside)
      rw [lowestSome] at hole
      cases hole
    | some highest =>
      simp only [Option.getD_some]
      have upper : total cost (slots.drop (highest + 1)) = 0 := by
        refine total_holes fun slot slotMem => ?_
        rcases List.getElem?_of_mem slotMem with ⟨position, found⟩
        rw [List.getElem?_drop] at found
        by_contra isSome
        have bound := le_rposition isLast found (Bool.eq_true_of_not_eq_false isSome)
        omega
      have lower : total cost ((slots.take (highest + 1)).take lowest) = 0 := by
        refine total_holes fun slot slotMem => ?_
        rcases List.getElem?_of_mem slotMem with ⟨position, found⟩
        rw [List.getElem?_take, List.getElem?_take] at found
        split_ifs at found with below taken
        rcases List.getElem?_eq_some_iff.mp found with ⟨_, rfl⟩
        simpa using lowerHoles position below
      have whole := @total_append N cost (slots.take (highest + 1)) (slots.drop (highest + 1))
      have part := @total_append N cost ((slots.take (highest + 1)).take lowest)
        ((slots.take (highest + 1)).drop lowest)
      rw [take_append_drop] at whole part
      omega

variable [LinearOrder N]

theorem total_modify_le (slots : List (Option N)) (position : ℕ) (node : N) :
    total cost (slots.modify position (keepGreater node)) ≤ total cost slots + cost node := by
  induction slots generalizing position with
  | nil => cases position <;> simp [total]
  | cons slot slots ih =>
    cases position with
    | zero =>
      cases slot with
      | none => simp [total, keepGreater, Nat.add_comm]
      | some held =>
        simp only [modify_zero_cons, keepGreater, total, map_cons, sum_cons]
        split_ifs <;> simp only [Option.elim_some] <;> omega
    | succ position =>
      have rest := ih position
      simp only [total, modify_succ_cons, map_cons, sum_cons] at rest ⊢
      omega

theorem total_absorb_le (first from_ : ℕ) (taken slots : List (Option N)) :
    total cost (absorb first from_ taken slots) ≤ total cost slots + total cost taken := by
  induction taken generalizing from_ slots with
  | nil => exact Nat.le_add_right _ _
  | cons slot taken ih =>
    cases slot with
    | none =>
      refine (ih (from_ + 1) slots).trans_eq ?_
      simp [total]
    | some node =>
      refine (ih (from_ + 1) _).trans ?_
      have step := @total_modify_le N cost _ slots (from_ - first) node
      have split : total cost (some node :: taken) = cost node + total cost taken := by
        simp [total]
      rw [split]
      omega

theorem total_joined_le (strided other : Strided N) :
    total cost (strided.joined other).slots ≤ total cost strided.slots + total cost other.slots := by
  rw [joined]
  cases other.last with
  | none => exact Nat.le_add_right _ _
  | some theirs =>
    cases strided.last with
    | none => exact Nat.le_add_left _ _
    | some mine =>
      refine (total_trimmed _ _).trans_le ((total_absorb_le _ _ _ _).trans ?_)
      refine Nat.add_le_add_right ((total_absorb_le _ _ _ _).trans ?_) _
      simp [total]

end Total

end Strided

end Enroute.Stored
