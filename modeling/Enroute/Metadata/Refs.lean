import Enroute.Core.Object

/-!
# The ref store

Every update is a compare-and-set: it names the value it expects and is refused when the table holds
another one. Updates of one call are applied in order under one lock, each against what the earlier
ones left. Whether an update is accepted depends on the held value of its own ref only, so a ref
moves in a call exactly when one of its updates would be accepted at the start of it.

Whether a name is well formed beyond git's own prefix rules is decided by a library; the
answer is the parameter `validName`.
-/

namespace Enroute

open List

/-- One ref update a push asks for; a null id stands for an absent ref. -/
structure RefUpdate where
  refname : String
  oldId : ObjectId
  newId : ObjectId
  deriving DecidableEq, Repr

inductive RefUpdateRejection where
  | nonFastForward
  | unknownCommit
  | alreadyExists
  | invalidRefname
  deriving DecidableEq, Repr

structure RefUpdateResult where
  refname : String
  result : Except RefUpdateRejection Unit

def RefUpdateResult.isOk (answer : RefUpdateResult) : Bool :=
  match answer.result with
  | .ok _ => true
  | .error _ => false

def okResult (refname : String) : RefUpdateResult :=
  { refname, result := .ok () }

def rejectResult (refname : String) (rejection : RefUpdateRejection) : RefUpdateResult :=
  { refname, result := .error rejection }

def isBranchRefname (refname : String) : Bool :=
  "refs/heads/".toList.isPrefixOf refname.toList

def isFunnyRefname (validName : String → Bool) (refname : String) (isDelete : Bool) : Bool :=
  if "refs/".toList.isPrefixOf refname.toList then
    let rest := refname.toList.drop "refs/".toList.length
    if !isDelete && !rest.contains '/' then true
    else !validName refname
  else true

/-- What a row of the ref store is: a name under `refs/` for an object that is there. -/
def IsRefRow (refname : String) (oid : ObjectId) : Prop :=
  "refs/".toList.isPrefixOf refname.toList = true ∧ oid ≠ .null

structure Refs where
  branches : String → Option ObjectId
  others : String → Option ObjectId

namespace Refs

def table (refs : Refs) (branch : Bool) : String → Option ObjectId :=
  if branch then refs.branches else refs.others

def held (refs : Refs) (refname : String) : Option ObjectId :=
  refs.table (isBranchRefname refname) refname

def set (refs : Refs) (refname : String) (value : Option ObjectId) : Refs :=
  if isBranchRefname refname then
    { refs with branches := Function.update refs.branches refname value }
  else { refs with others := Function.update refs.others refname value }

def read (refs : Refs) (refname : String) : Option ObjectId :=
  refs.branches refname <|> refs.others refname

@[simp]
theorem held_set_self (refs : Refs) (refname : String) (value : Option ObjectId) :
    (refs.set refname value).held refname = value := by
  simp only [set, held, table]
  split <;> simp

@[simp]
theorem held_set_of_ne (refs : Refs) {refname other : String} (value : Option ObjectId)
    (distinct : other ≠ refname) : (refs.set refname value).held other = refs.held other := by
  simp only [set, held, table]
  split <;> split <;> simp [distinct]

end Refs

section Store

variable (validName : String → Bool) (numbersCommit : ObjectId → Bool)

namespace Refs

def delete (refs : Refs) (update : RefUpdate) : Refs × RefUpdateResult :=
  if update.oldId = .null then (refs.set update.refname none, okResult update.refname)
  else if refs.held update.refname = some update.oldId then
    (refs.set update.refname none, okResult update.refname)
  else (refs, rejectResult update.refname .nonFastForward)

def write (refs : Refs) (update : RefUpdate) : Refs × RefUpdateResult :=
  let numbered := !isBranchRefname update.refname || numbersCommit update.newId
  let creating := update.oldId = .null
  let held := refs.held update.refname
  if ¬creating ∧ held ≠ some update.oldId then
    (refs, rejectResult update.refname .nonFastForward)
  else if numbered = false then (refs, rejectResult update.refname .unknownCommit)
  else if creating ∧ held.isSome then (refs, rejectResult update.refname .alreadyExists)
  else (refs.set update.refname (some update.newId), okResult update.refname)

def apply (refs : Refs) (update : RefUpdate) : Refs × RefUpdateResult :=
  if isFunnyRefname validName update.refname (update.newId = .null) then
    (refs, rejectResult update.refname .invalidRefname)
  else if update.newId = .null then refs.delete update
  else refs.write numbersCommit update

def accepts (refs : Refs) (update : RefUpdate) : Bool :=
  (refs.apply validName numbersCommit update).2.isOk

def updateRefs (refs : Refs) : List RefUpdate → Refs × List RefUpdateResult
  | [] => (refs, [])
  | update :: updates =>
    let applied := refs.apply validName numbersCommit update
    let rest := applied.1.updateRefs updates
    (rest.1, applied.2 :: rest.2)

def landed (refs : Refs) (updates : List RefUpdate) : List RefUpdate :=
  ((updates.zip (refs.updateRefs validName numbersCommit updates).2).filter
    fun answered => answered.2.isOk).map Prod.fst

variable {validName numbersCommit}

@[simp]
theorem apply_refname (refs : Refs) (update : RefUpdate) :
    (refs.apply validName numbersCommit update).2.refname = update.refname := by
  simp only [apply, delete, write]
  split_ifs <;> rfl

variable {refs : Refs} {update : RefUpdate}

theorem apply_of_not_accepts (refused : refs.accepts validName numbersCommit update = false) :
    (refs.apply validName numbersCommit update).1 = refs := by
  simp only [accepts, apply, delete, write] at refused ⊢
  split_ifs at refused ⊢ <;> first | rfl | simp [RefUpdateResult.isOk, okResult] at refused

theorem held_apply_of_ne (refs : Refs) (update : RefUpdate) {other : String}
    (distinct : other ≠ update.refname) :
    (refs.apply validName numbersCommit update).1.held other = refs.held other := by
  simp only [apply, delete, write]
  split_ifs <;> simp [distinct]

theorem accepts_congr {other : Refs} (agree : refs.held update.refname = other.held update.refname) :
    refs.accepts validName numbersCommit update =
      other.accepts validName numbersCommit update := by
  simp only [accepts, apply, delete, write, agree]
  split_ifs <;> rfl

theorem landed_cons (refs : Refs) (update : RefUpdate) (updates : List RefUpdate) :
    refs.landed validName numbersCommit (update :: updates) =
      if refs.accepts validName numbersCommit update then
        update :: (refs.apply validName numbersCommit update).1.landed validName numbersCommit
          updates
      else (refs.apply validName numbersCommit update).1.landed validName numbersCommit
          updates := by
  simp only [landed, updateRefs, accepts, zip_cons_cons, filter_cons]
  by_cases accepted : (refs.apply validName numbersCommit update).2.isOk = true
  · simp [accepted]
  · simp [accepted]

theorem mem_of_mem_landed {updates : List RefUpdate}
    (lands : update ∈ refs.landed validName numbersCommit updates) : update ∈ updates := by
  simp only [landed, mem_map, mem_filter] at lands
  rcases lands with ⟨answered, ⟨paired, -⟩, rfl⟩
  exact (of_mem_zip paired).1

theorem exists_landed_iff (refs : Refs) (updates : List RefUpdate) (refname : String) :
    (∃ update ∈ refs.landed validName numbersCommit updates, update.refname = refname) ↔
      ∃ update ∈ updates, update.refname = refname ∧
        refs.accepts validName numbersCommit update = true := by
  induction updates generalizing refs with
  | nil => simp [landed]
  | cons head updates ih =>
    rw [landed_cons]
    by_cases moves : head.refname = refname ∧ refs.accepts validName numbersCommit head = true
    · rcases moves with ⟨same, accepted⟩
      refine iff_of_true ?_ ⟨head, mem_cons_self, same, accepted⟩
      rw [if_pos accepted]
      exact ⟨head, mem_cons_self, same⟩
    · -- The head leaves this ref alone, so the rest of the call starts from the same value.
      have stable : (refs.apply validName numbersCommit head).1.held refname =
          refs.held refname := by
        by_cases same : head.refname = refname
        · have refused : refs.accepts validName numbersCommit head = false := by
            simpa [same] using moves
          rw [apply_of_not_accepts refused]
        · exact held_apply_of_ne refs head (Ne.symm same)
      have rest : (∃ update ∈ updates, update.refname = refname ∧
          (refs.apply validName numbersCommit head).1.accepts validName numbersCommit update =
            true) ↔
          ∃ update ∈ updates, update.refname = refname ∧
            refs.accepts validName numbersCommit update = true := by
        apply exists_congr
        intro update
        apply and_congr_right
        intro _
        apply and_congr_right
        rintro rfl
        rw [accepts_congr stable]
      have step := (ih (refs.apply validName numbersCommit head).1).trans rest
      constructor
      · rintro ⟨update, lands, same⟩
        have landsLater : update ∈ (refs.apply validName numbersCommit head).1.landed
            validName numbersCommit updates := by
          split_ifs at lands with accepted
          · rcases mem_cons.mp lands with rfl | later
            · exact absurd ⟨same, accepted⟩ moves
            · exact later
          · exact lands
        rcases step.mp ⟨update, landsLater, same⟩ with ⟨other, otherMem, otherSame, accepted⟩
        exact ⟨other, mem_cons_of_mem _ otherMem, otherSame, accepted⟩
      · rintro ⟨update, updateMem, same, accepted⟩
        have updateLater : update ∈ updates := by
          rcases mem_cons.mp updateMem with rfl | later
          · exact absurd ⟨same, accepted⟩ moves
          · exact later
        rcases step.mpr ⟨update, updateLater, same, accepted⟩ with ⟨other, lands, otherSame⟩
        refine ⟨other, ?_, otherSame⟩
        split_ifs
        · exact mem_cons_of_mem _ lands
        · exact lands

def present (oid : ObjectId) : Option ObjectId :=
  if oid = .null then none else some oid

/-- An update that may land on what its ref holds. Only a deletion may be asked for without knowing
that. -/
def Lands (validName : String → Bool) (numbersCommit : ObjectId → Bool) (held : Option ObjectId)
    (update : RefUpdate) : Prop :=
  isFunnyRefname validName update.refname (update.newId = .null) = false ∧
    (held = present update.oldId ∨ update.oldId = .null ∧ update.newId = .null) ∧
    (update.newId ≠ .null → isBranchRefname update.refname = true →
      numbersCommit update.newId = true)

theorem accepts_iff : refs.accepts validName numbersCommit update = true ↔
    Lands validName numbersCommit (refs.held update.refname) update := by
  simp only [Lands, accepts, apply, delete, write, present]
  by_cases creating : update.oldId = .null <;> split_ifs <;>
    simp_all [RefUpdateResult.isOk, rejectResult, okResult, Option.isSome_iff_ne_none]

theorem held_of_accepts (accepted : refs.accepts validName numbersCommit update = true) :
    (refs.apply validName numbersCommit update).1.held update.refname = present update.newId := by
  simp only [accepts, apply, delete, write, present] at accepted ⊢
  split_ifs at accepted ⊢ <;> simp_all [RefUpdateResult.isOk, rejectResult]

/-- A value that answered updates take from one to another: exactly those that may land on what is
held land. -/
def Register (validName : String → Bool) (numbersCommit : ObjectId → Bool) :
    Option ObjectId → List (RefUpdate × RefUpdateResult) → Option ObjectId → Prop
  | held, [], last => last = held
  | held, (update, answer) :: answered, last =>
    (answer.isOk = true ↔ Lands validName numbersCommit held update) ∧
      Register validName numbersCommit (if answer.isOk then present update.newId else held) answered
        last

/-- Every ref is a register of its own, whatever updates of other refs come between its own: no
update is lost, and none is refused that may land. -/
theorem updateRefs_register (refs : Refs) (updates : List RefUpdate) (refname : String) :
    Register validName numbersCommit (refs.held refname)
      ((updates.zip (refs.updateRefs validName numbersCommit updates).2).filter
        (·.1.refname = refname))
      ((refs.updateRefs validName numbersCommit updates).1.held refname) := by
  induction updates generalizing refs with
  | nil => exact rfl
  | cons update updates ih =>
    have later := ih (refs.apply validName numbersCommit update).1
    rw [updateRefs, zip_cons_cons]
    by_cases same : update.refname = refname
    · subst same
      rw [filter_cons_of_pos (by simp)]
      refine ⟨accepts_iff, ?_⟩
      split_ifs with accepted
      · exact held_of_accepts accepted ▸ later
      · have stays := apply_of_not_accepts (eq_false_of_ne_true accepted)
        exact congrArg (Refs.held · update.refname) stays ▸ later
    · rw [filter_cons_of_neg (by simpa using same)]
      exact held_apply_of_ne refs update (Ne.symm same) ▸ later

end Refs

end Store

end Enroute
