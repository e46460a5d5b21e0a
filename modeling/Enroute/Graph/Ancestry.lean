import Enroute.Core.TopoStable
import Enroute.Lib.Except
import Enroute.Lib.Table

/-!
# Whether one commit of a push can read another's pack

Along the topological order of a push every commit gets the set of what it reaches, as bits: the
positions of the push's own commits, and behind them one bit for each boundary, a parent the push
names but did not send. A parent's set is inherited while it is held; it is dropped once the last
child has been built, or under pressure, and a dropped set only loses proofs. What a boundary
reaches is not known here: it is answered by whoever asks for the proofs.
-/

namespace Enroute

open List Relation

def maxLiveAncestorBits : ℕ := 16 * 1024 * 1024

/-- One thing to prove: that the pack of `home` is readable from the pack of `target`. -/
structure Query where
  target : ObjectId
  home : ObjectId
  deriving DecidableEq, Repr

structure Ancestry where
  proven : Finset (ObjectId × ObjectId)

def Ancestry.holds (ancestry : Ancestry) (query : Query) : Bool :=
  query.target = query.home || (query.target, query.home) ∈ ancestry.proven

/-- The parents a push names but did not send, and the queried homes each one reaches. -/
structure Boundaries where
  oids : List ObjectId
  reachable : List (Finset ObjectId)

namespace Boundaries

/-- Mark that a commit reaches a parent the push did not send; one left unanswered has no bit. -/
def reached (boundaries : Boundaries) (commits : ℕ) (closure : Finset ℕ) (parent : ObjectId) :
    Finset ℕ :=
  match boundaries.oids.findIdx? (· = parent) with
  | some bit => if bit < 2 ^ 32 then insert (saturate32 (commits + bit)) closure else closure
  | none => closure

def reachesOlder (boundaries : Boundaries) (commits : ℕ) (closure : Finset ℕ) (home : ObjectId) :
    Bool :=
  boundaries.reachable.zipIdx.any fun answer =>
    (answer.2 < 2 ^ 32 && saturate32 (commits + answer.2) ∈ closure) && home ∈ answer.1

end Boundaries

structure Closures where
  live : AList fun _ : ℕ => Finset ℕ
  /-- How many bits they have together. -/
  resident : ℕ
  /-- The order they were kept in. -/
  oldest : List ℕ

namespace Closures

def inherit (closures : Closures) (closure : Finset ℕ) (parentAt : ℕ) : Finset ℕ :=
  insert parentAt (closure ∪ (closures.live.lookup parentAt).getD ∅)

def dropOne (closures : Closures) (at_ : ℕ) : Closures :=
  match closures.live.lookup at_ with
  | none => closures
  | some dropped =>
    { closures with
      live := closures.live.erase at_
      resident := closures.resident - dropped.card }

def retire (held : Closures × List ℕ) (parentAt : ℕ) : Closures × List ℕ :=
  match held.2[parentAt]? with
  | none => held
  | some left =>
    (if left - 1 = 0 then held.1.dropOne parentAt else held.1, held.2.set parentAt (left - 1))

/-- Drop what has been held longest until the bits are no more than the ceiling. -/
def evict (ceiling : ℕ) : List ℕ → Closures → Closures
  | [], closures => { closures with oldest := [] }
  | at_ :: oldest, closures =>
    if closures.resident ≤ ceiling then { closures with oldest := at_ :: oldest }
    else evict ceiling oldest (closures.dropOne at_)

def add (closures : Closures) (at_ : ℕ) (closure : Finset ℕ) : Closures where
  live := closures.live.insert at_ closure
  resident := closures.resident + closure.card
  oldest := closures.oldest ++ [at_]

end Closures

structure Eviction where
  relieve : Closures → Closures
  drops : ∀ closures at_ closure, (relieve closures).live.lookup at_ = some closure →
    closures.live.lookup at_ = some closure

structure Push where
  order : List ObjectId
  parentsOf : ParentMap
  indexOf : ObjectHashMap ℕ

structure Proving where
  closures : Closures
  childrenLeft : List ℕ
  proven : Finset (ObjectId × ObjectId)

namespace Push

def new (parentsOf : ParentMap) : Except String Push := do
  let order ← parentsOf.topoOrder
  return {
    order
    parentsOf
    indexOf := Table.enter Prod.fst Prod.snd (order.zipIdx.filter fun entry => entry.2 < 2 ^ 32) ∅ }

def parents (push : Push) : List ObjectId :=
  push.order.flatMap push.parentsOf.parents

def boundaries (push : Push) (max : ℕ) : List ObjectId :=
  ((push.parents.filter fun parent => parent ∉ push.parentsOf).eraseDups).take max

def childrenLeft (push : Push) : List ℕ :=
  (push.parents.filterMap push.indexOf.lookup).foldl (fun counts at_ => counts.modify at_ (· + 1))
    (List.replicate push.order.length 0)

/-- What a commit reaches: its ancestors in the push, and a bit for each boundary. -/
def closureOf (push : Push) (commit : ObjectId) (closures : Closures) (boundaries : Boundaries)
    (commits : ℕ) : Finset ℕ :=
  (push.parentsOf.parents commit).foldl (fun closure parent =>
    match push.indexOf.lookup parent with
    | some parentAt => closures.inherit closure parentAt
    | none => boundaries.reached commits closure parent) ∅

def proves (push : Push) (boundaries : Boundaries) (commits : ℕ) (closure : Finset ℕ)
    (home : ObjectId) : Bool :=
  match push.indexOf.lookup home with
  | some homeAt => homeAt ∈ closure
  | none => boundaries.reachesOlder commits closure home

/-- Build the set of one commit, answer the queries aimed at it and drop what is done with. -/
def step (push : Push) (eviction : Eviction) (boundaries : Boundaries) (queries : List Query)
    (state : Proving) (entry : ObjectId × ℕ) : Proving :=
  let commits := saturate32 push.order.length
  let closure := push.closureOf entry.1 state.closures boundaries commits
  let homes := ((queries.filter fun query => query.target = entry.1).map Query.home).filter
    (push.proves boundaries commits closure)
  let inPush := (push.parentsOf.parents entry.1).filterMap push.indexOf.lookup
  let (closures, childrenLeft) := inPush.foldl Closures.retire (state.closures, state.childrenLeft)
  let at_ := saturate32 entry.2
  { closures :=
      if (childrenLeft[at_]?).any (0 < ·) then eviction.relieve (closures.add at_ closure)
      else closures
    childrenLeft
    proven := state.proven ∪ (homes.map fun home => (entry.1, home)).toFinset }

def start (push : Push) : Proving :=
  ⟨⟨∅, 0, []⟩, push.childrenLeft, ∅⟩

/-- Build the sets in order, answering the queries on the way, whatever pressure drops. -/
def proveWith (push : Push) (eviction : Eviction) (boundaries : Boundaries)
    (queries : List Query) : Ancestry :=
  ⟨(push.order.zipIdx.foldl (push.step eviction boundaries queries) push.start).proven⟩

end Push

/-! ## What is held -/

namespace Closures

variable {closures : Closures} {at_ other : ℕ} {closure : Finset ℕ}

theorem lookup_dropOne_of_ne (differs : other ≠ at_) :
    (closures.dropOne at_).live.lookup other = closures.live.lookup other := by
  rw [dropOne]
  split
  next => rfl
  next => exact AList.lookup_erase_ne differs

theorem lookup_of_dropOne (held : (closures.dropOne at_).live.lookup other = some closure) :
    closures.live.lookup other = some closure := by
  rw [dropOne] at held
  split at held
  next => exact held
  next =>
    by_cases same : other = at_
    · rw [same, AList.lookup_erase] at held
      cases held
    · rwa [AList.lookup_erase_ne same] at held

theorem lookup_of_evict {ceiling : ℕ} {oldest : List ℕ}
    (held : (evict ceiling oldest closures).live.lookup other = some closure) :
    closures.live.lookup other = some closure := by
  induction oldest generalizing closures with
  | nil => exact held
  | cons at_ oldest ih =>
    rw [evict] at held
    split at held
    next => exact held
    next => exact lookup_of_dropOne (ih held)

/-- Noting children as built: what is held after was held before, the counts go down by as much,
and whatever still waits for a child is still held. -/
theorem retireAll {ats : List ℕ} {held : Closures × List ℕ} :
    (∀ {at_ closure}, (ats.foldl retire held).1.live.lookup at_ = some closure →
      held.1.live.lookup at_ = some closure) ∧
    (∀ at_, (ats.foldl retire held).2[at_]? = held.2[at_]?.map (· - ats.count at_)) ∧
    ∀ at_ left, (ats.foldl retire held).2[at_]? = some left → 0 < left →
      (ats.foldl retire held).1.live.lookup at_ = held.1.live.lookup at_ := by
  induction ats generalizing held with
  | nil => exact ⟨id, fun at_ => by simp, fun _ _ _ _ => rfl⟩
  | cons first ats ih =>
    rw [foldl_cons]
    rcases @ih (retire held first) with ⟨kept, counts, waiting⟩
    rcases noted : held.2[first]? with _ | left
    · have same : retire held first = held := by rw [retire, noted]
      rw [same] at kept counts waiting ⊢
      refine ⟨kept, fun at_ => ?_, waiting⟩
      rw [counts]
      by_cases isFirst : at_ = first
      · rw [isFirst, noted]
        rfl
      · rw [count_cons_of_ne (Ne.symm isFirst)]
    · have now : retire held first = (if left - 1 = 0 then held.1.dropOne first else held.1,
          held.2.set first (left - 1)) := by rw [retire, noted]
      rw [now] at kept counts waiting ⊢
      dsimp only at kept counts waiting ⊢
      have within : first < held.2.length := (List.getElem?_eq_some_iff.mp noted).1
      have after : ∀ at_, (held.2.set first (left - 1))[at_]?.map (· - ats.count at_) =
          held.2[at_]?.map (· - (first :: ats).count at_) := by
        intro at_
        by_cases isFirst : at_ = first
        · subst isFirst
          rw [List.getElem?_set_self within, noted, Option.map_some, Option.map_some,
            count_cons_self]
          congr 1
          omega
        · rw [List.getElem?_set_ne (Ne.symm isFirst), count_cons_of_ne (Ne.symm isFirst)]
      refine ⟨fun found => ?_, fun at_ => (counts at_).trans (after at_), ?_⟩
      · have before := kept found
        split at before
        · exact lookup_of_dropOne before
        · exact before
      · intro at_ still found positive
        rw [waiting at_ still found positive]
        split
        next gone =>
          refine lookup_dropOne_of_ne fun isFirst => ?_
          rw [isFirst, counts, List.getElem?_set_self within, Option.map_some,
            Option.some.injEq] at found
          omega
        next => rfl

end Closures

namespace Eviction

def none : Eviction :=
  ⟨id, fun _ _ _ held => held⟩

/-- What is held longest goes first, until the bits are no more than the ceiling. -/
def pressure : Eviction where
  relieve closures := Closures.evict maxLiveAncestorBits closures.oldest closures
  drops _ _ _ held := Closures.lookup_of_evict held

end Eviction

namespace Push

def prove (push : Push) (boundaries : Boundaries) (queries : List Query) : Ancestry :=
  push.proveWith .pressure boundaries queries

variable {parentsOf : ParentMap} {push : Push}

/-- An ordered push: each commit is listed once and after its parents, and found by its position. -/
structure Ordered (push : Push) : Prop where
  listed : ∀ oid, oid ∈ push.order ↔ oid ∈ push.parentsOf
  first : push.parentsOf.ParentsFirst [] push.order
  index : ∀ oid at_, push.indexOf.lookup oid = some at_ ↔
    push.order[at_]? = some oid ∧ at_ < 2 ^ 32

theorem new_eq_ok (isNew : Push.new parentsOf = .ok push) :
    push.parentsOf = parentsOf ∧ push.Ordered := by
  simp only [Push.new, Except.bind_eq_ok_iff, Except.pure_eq_ok_iff] at isNew
  rcases isNew with ⟨order, ordered, rfl⟩
  rcases ParentMap.topoOrder_eq_ok ordered with ⟨listsAll, first⟩
  refine ⟨rfl, fun oid => listsAll.mem_iff, first, fun oid at_ => ?_⟩
  have distinct : ((order.zipIdx.filter fun entry => entry.2 < 2 ^ 32).map Prod.fst).Nodup := by
    refine first.nodup.1.sublist ?_
    exact (filter_sublist.map Prod.fst).trans (by rw [zipIdx_map_fst])
  rw [Table.lookup_enter distinct]
  constructor
  · rintro (⟨⟨_, _⟩, entered, rfl, rfl⟩ | ⟨-, absent⟩)
    · rw [mem_filter, mk_mem_zipIdx_iff_getElem?, decide_eq_true_eq] at entered
      exact entered
    · cases absent
  · rintro ⟨found, small⟩
    refine Or.inl ⟨(oid, at_), ?_, rfl, rfl⟩
    rw [mem_filter, mk_mem_zipIdx_iff_getElem?, decide_eq_true_eq]
    exact ⟨found, small⟩

/-! ## What a set means -/

def Names (push : Push) (child parent : ObjectId) : Prop :=
  parent ∈ push.parentsOf.parents child

/-- A commit of the push reaches another one, or a boundary, through commits of the push. -/
def Reaches (push : Push) : ObjectId → ObjectId → Prop :=
  TransGen push.Names

def Denotes (push : Push) (boundaries : Boundaries) (bit : ℕ) (oid : ObjectId) : Prop :=
  (push.order ++ boundaries.oids)[bit]? = some oid

structure Fits (push : Push) (boundaries : Boundaries) : Prop where
  bits : push.order.length + boundaries.oids.length ≤ 2 ^ 32
  outside : ∀ oid ∈ boundaries.oids, oid ∉ push.parentsOf
  parallel : boundaries.reachable.length ≤ boundaries.oids.length

variable {boundaries : Boundaries}

variable {bit at_ max : ℕ} {oid home target : ObjectId} {closures : Closures}
  {answers : ObjectId → Finset ObjectId}

theorem Fits.boundary_bit (fits : push.Fits boundaries) (within : bit < boundaries.oids.length) :
    saturate32 (saturate32 push.order.length + bit) = push.order.length + bit := by
  have bits := fits.bits
  simp only [saturate32]
  omega

theorem Fits.position (fits : push.Fits boundaries) (within : at_ < push.order.length) :
    saturate32 at_ = at_ := by
  have bits := fits.bits
  simp only [saturate32]
  omega

theorem denotes_position (found : push.order[at_]? = some oid) :
    push.Denotes boundaries at_ oid := by
  rw [Denotes, List.getElem?_append_left (List.getElem?_eq_some_iff.mp found).1, found]

theorem denotes_boundary (found : boundaries.oids[bit]? = some oid) :
    push.Denotes boundaries (push.order.length + bit) oid := by
  rw [Denotes, List.getElem?_append_right (Nat.le_add_right _ _), Nat.add_sub_cancel_left, found]

theorem Ordered.lookup_eq_some (ordered : push.Ordered) (fits : push.Fits boundaries) :
    push.indexOf.lookup oid = some at_ ↔ push.order[at_]? = some oid := by
  rw [ordered.index, and_iff_left_iff_imp]
  intro found
  have within := (List.getElem?_eq_some_iff.mp found).1
  have bits := fits.bits
  omega

theorem Ordered.lookup_eq_none (ordered : push.Ordered) (fits : push.Fits boundaries) :
    push.indexOf.lookup oid = none ↔ oid ∉ push.parentsOf := by
  rw [← ordered.listed, mem_iff_getElem?, Option.eq_none_iff_forall_ne_some, not_exists]
  exact forall_congr' fun at_ => not_congr (ordered.lookup_eq_some fits)

def gain (push : Push) (closures : Closures) (boundaries : Boundaries) (commits : ℕ)
    (parent : ObjectId) : Finset ℕ :=
  match push.indexOf.lookup parent with
  | some parentAt => insert parentAt ((closures.live.lookup parentAt).getD ∅)
  | none => boundaries.reached commits ∅ parent

theorem mem_closureOf {commit : ObjectId} {commits : ℕ} :
    bit ∈ push.closureOf commit closures boundaries commits ↔
      ∃ parent ∈ push.parentsOf.parents commit,
        bit ∈ push.gain closures boundaries commits parent := by
  have grows : ∀ (closure : Finset ℕ) (parents : List ObjectId), bit ∈ parents.foldl
      (fun closure parent => match push.indexOf.lookup parent with
        | some parentAt => closures.inherit closure parentAt
        | none => boundaries.reached commits closure parent) closure ↔
      bit ∈ closure ∨ ∃ parent ∈ parents, bit ∈ push.gain closures boundaries commits parent := by
    intro closure parents
    induction parents generalizing closure with
    | nil => simp
    | cons parent parents ih =>
      have adds : bit ∈ (match push.indexOf.lookup parent with
          | some parentAt => closures.inherit closure parentAt
          | none => boundaries.reached commits closure parent) ↔
          bit ∈ closure ∨ bit ∈ push.gain closures boundaries commits parent := by
        rw [gain]
        split
        next => simp [Closures.inherit, or_left_comm]
        next =>
          simp only [Boundaries.reached]
          split
          · split_ifs <;> simp [or_comm]
          · simp
      rw [foldl_cons, ih, adds, exists_mem_cons_iff, or_assoc]
  rw [closureOf, grows]
  simp

/-! ## Only what is reached is proven -/

def SoundFor (push : Push) (boundaries : Boundaries) (closure : Finset ℕ) (commit : ObjectId) :
    Prop :=
  ∀ bit ∈ closure, ∃ oid, push.Denotes boundaries bit oid ∧ push.Reaches commit oid

def SoundHeld (push : Push) (boundaries : Boundaries) (closures : Closures) : Prop :=
  ∀ at_ closure oid, closures.live.lookup at_ = some closure → push.order[at_]? = some oid →
    push.SoundFor boundaries closure oid

theorem soundFor_closureOf (ordered : push.Ordered) (fits : push.Fits boundaries)
    (held : push.SoundHeld boundaries closures) (commit : ObjectId) :
    push.SoundFor boundaries
      (push.closureOf commit closures boundaries (saturate32 push.order.length)) commit := by
  intro bit bitMem
  rcases mem_closureOf.mp bitMem with ⟨parent, named, gained⟩
  have edge : push.Reaches commit parent := TransGen.single named
  rw [gain] at gained
  split at gained
  next parentAt isAt =>
    have found := (ordered.lookup_eq_some fits).mp isAt
    rcases Finset.mem_insert.mp gained with rfl | inherited
    · exact ⟨parent, denotes_position found, edge⟩
    · rcases live : closures.live.lookup parentAt with _ | closure
      · simp [live] at inherited
      · rw [live] at inherited
        rcases held parentAt closure parent live found bit inherited with ⟨oid, denotes, further⟩
        exact ⟨oid, denotes, edge.trans further⟩
  next =>
    simp only [Boundaries.reached] at gained
    split at gained
    next index isIndex =>
      split_ifs at gained
      · have bound := (List.findIdx?_eq_some_iff_getElem.mp isIndex).1
        have isParent := (List.findIdx?_eq_some_iff_getElem.mp isIndex).2.1
        rw [decide_eq_true_eq] at isParent
        rw [Finset.mem_insert, fits.boundary_bit bound] at gained
        have isBit := gained.resolve_right (Finset.notMem_empty bit)
        refine ⟨parent, isBit ▸ denotes_boundary ?_, edge⟩
        rw [List.getElem?_eq_getElem bound, isParent]
      · cases gained
    next => cases gained

/-- How a query is proven: its home is reached in the push, or an answer to a boundary that is
reached has it. -/
def Proven (push : Push) (boundaries : Boundaries) (target home : ObjectId) : Prop :=
  (home ∈ push.parentsOf ∧ push.Reaches target home) ∨
    (home ∉ push.parentsOf ∧ ∃ (bit : ℕ) (boundary : ObjectId) (answer : Finset ObjectId),
      boundaries.oids[bit]? = some boundary ∧ boundaries.reachable[bit]? = some answer ∧
        push.Reaches target boundary ∧ home ∈ answer)

theorem proven_of_proves (ordered : push.Ordered) (fits : push.Fits boundaries) {closure : Finset ℕ}
    {commit : ObjectId} (sound : push.SoundFor boundaries closure commit)
    (proves : push.proves boundaries (saturate32 push.order.length) closure home = true) :
    push.Proven boundaries commit home := by
  rw [Push.proves] at proves
  split at proves
  next homeAt isAt =>
    have found := (ordered.lookup_eq_some fits).mp isAt
    rcases sound homeAt (of_decide_eq_true proves) with ⟨oid, denotes, reaches⟩
    have isHome : push.Denotes boundaries homeAt home := denotes_position found
    cases denotes.symm.trans isHome
    exact Or.inl ⟨(ordered.listed home).mp (List.mem_of_getElem? found), reaches⟩
  next isNone =>
    refine Or.inr ⟨(ordered.lookup_eq_none fits).mp isNone, ?_⟩
    rcases any_eq_true.mp proves with ⟨⟨answer, bit⟩, answered, marked⟩
    rw [mk_mem_zipIdx_iff_getElem?] at answered
    simp only [Bool.and_eq_true, decide_eq_true_eq] at marked
    have within := (List.getElem?_eq_some_iff.mp answered).1.trans_le fits.parallel
    rw [fits.boundary_bit within] at marked
    rcases sound _ marked.1.2 with ⟨oid, denotes, reaches⟩
    have isBoundary := List.getElem?_eq_getElem within
    cases denotes.symm.trans (denotes_boundary isBoundary)
    exact ⟨bit, _, answer, isBoundary, answered, reaches, marked.2⟩

variable {queries : List Query} {eviction : Eviction} {state : Proving} {commit : ObjectId}
  {at_ : ℕ}

/-- The sets held and the counts left once the parents of a commit are noted as served. -/
def retired (push : Push) (state : Proving) (commit : ObjectId) : Closures × List ℕ :=
  ((push.parentsOf.parents commit).filterMap push.indexOf.lookup).foldl Closures.retire
    (state.closures, state.childrenLeft)

def built (push : Push) (boundaries : Boundaries) (state : Proving) (commit : ObjectId) :
    Finset ℕ :=
  push.closureOf commit state.closures boundaries (saturate32 push.order.length)

theorem step_closures : (push.step eviction boundaries queries state (commit, at_)).closures =
    if ((push.retired state commit).2[saturate32 at_]?).any (0 < ·) then
      eviction.relieve ((push.retired state commit).1.add (saturate32 at_)
        (push.built boundaries state commit))
    else (push.retired state commit).1 := rfl

theorem mem_step_proven :
    (target, home) ∈ (push.step eviction boundaries queries state (commit, at_)).proven ↔
      (target, home) ∈ state.proven ∨ (target = commit ∧ ⟨commit, home⟩ ∈ queries ∧
        push.proves boundaries (saturate32 push.order.length) (push.built boundaries state commit)
          home = true) := by
  simp only [step, Finset.mem_union, mem_toFinset, mem_map, mem_filter,
    Prod.mk.injEq, decide_eq_true_eq, built]
  refine or_congr_right ⟨?_, ?_⟩
  · rintro ⟨_, ⟨⟨⟨_, _⟩, ⟨asked, rfl⟩, rfl⟩, proves⟩, rfl, rfl⟩
    exact ⟨rfl, asked, proves⟩
  · rintro ⟨rfl, asked, proves⟩
    exact ⟨home, ⟨⟨_, ⟨asked, rfl⟩, rfl⟩, proves⟩, rfl, rfl⟩

structure Sound (push : Push) (boundaries : Boundaries) (state : Proving) : Prop where
  held : push.SoundHeld boundaries state.closures
  proven : ∀ target home, (target, home) ∈ state.proven → push.Proven boundaries target home

section

variable (ordered : push.Ordered) (fits : push.Fits boundaries)

include ordered fits

theorem Sound.step (sound : push.Sound boundaries state) (isCommit : push.order[at_]? = some commit) :
    push.Sound boundaries (push.step eviction boundaries queries state (commit, at_)) := by
  have builtSound := soundFor_closureOf ordered fits sound.held commit
  have position := fits.position (List.getElem?_eq_some_iff.mp isCommit).1
  have retiredSound : push.SoundHeld boundaries (push.retired state commit).1 :=
    fun slot closure oid live found => sound.held slot closure oid (Closures.retireAll.1 live) found
  refine ⟨?_, fun target home reported => ?_⟩
  · rw [step_closures]
    split
    next =>
      intro slot closure oid live found
      have added := eviction.drops _ _ _ live
      rw [Closures.add, position] at added
      by_cases isNew : slot = at_
      · subst isNew
        rw [AList.lookup_insert, Option.some.injEq] at added
        rw [isCommit, Option.some.injEq] at found
        subst added found
        exact builtSound
      · rw [AList.lookup_insert_ne isNew] at added
        exact retiredSound slot closure oid added found
    next => exact retiredSound
  · rcases mem_step_proven.mp reported with before | ⟨rfl, -, proves⟩
    · exact sound.proven target home before
    · exact proven_of_proves ordered fits builtSound proves

theorem Sound.run {entries : List (ObjectId × ℕ)} (sound : push.Sound boundaries state)
    (positions : ∀ entry ∈ entries, push.order[entry.2]? = some entry.1) :
    push.Sound boundaries (entries.foldl (push.step eviction boundaries queries) state) := by
  induction entries generalizing state with
  | nil => exact sound
  | cons entry entries ih =>
    rw [forall_mem_cons] at positions
    exact ih (sound.step ordered fits positions.1) positions.2

theorem proveWith_sound (eviction : Eviction) (queries : List Query)
    (reported : (target, home) ∈ (push.proveWith eviction boundaries queries).proven) :
    push.Proven boundaries target home := by
  have starts : push.Sound boundaries push.start := by
    refine ⟨fun _ _ _ live => ?_, fun _ _ listed => ?_⟩
    · cases live
    · cases listed
  have positions : ∀ entry ∈ push.order.zipIdx, push.order[entry.2]? = some entry.1 :=
    fun _ => mem_zipIdx_iff_getElem?.mp
  exact (starts.run ordered fits positions).proven target home reported

end

/-! ## Without pressure everything that is reached is proven -/

def CompleteFor (push : Push) (boundaries : Boundaries) (closure : Finset ℕ) (commit : ObjectId) :
    Prop :=
  ∀ oid, push.Reaches commit oid → (∀ at_, push.order[at_]? = some oid → at_ ∈ closure) ∧
    ∀ bit, boundaries.oids.findIdx? (· = oid) = some bit → push.order.length + bit ∈ closure

/-- What holds between two commits when nothing was dropped early: each count is that of the child
edges still to come, and a commit with one is held, with everything it reaches. -/
structure Complete (push : Push) (boundaries : Boundaries) (queries : List Query)
    (done rest : List ObjectId) (state : Proving) : Prop where
  counts : ∀ (at_ : ℕ) (oid : ObjectId), push.order[at_]? = some oid →
    state.childrenLeft[at_]? = some ((rest.flatMap push.parentsOf.parents).count oid)
  held : ∀ (at_ : ℕ) (oid : ObjectId), at_ < done.length → push.order[at_]? = some oid →
    oid ∈ rest.flatMap push.parentsOf.parents →
      ∃ closure, state.closures.live.lookup at_ = some closure ∧
        push.CompleteFor boundaries closure oid
  proven : ∀ query ∈ queries, query.target ∈ done →
    push.Proven boundaries query.target query.home →
      (query.target, query.home) ∈ state.proven

theorem Ordered.count_filterMap (ordered : push.Ordered) (fits : push.Fits boundaries)
    (found : push.order[at_]? = some oid) (parents : List ObjectId) :
    (parents.filterMap push.indexOf.lookup).count at_ = parents.count oid := by
  have isAt := (ordered.lookup_eq_some fits).mpr found
  induction parents with
  | nil => rfl
  | cons parent parents ih =>
    rw [filterMap_cons]
    by_cases same : parent = oid
    · subst same
      rw [isAt, count_cons_self, count_cons_self, ih]
    · rw [count_cons_of_ne same]
      rcases other : push.indexOf.lookup parent with _ | parentAt
      · exact ih
      · have elsewhere : parentAt ≠ at_ := by
          rintro rfl
          have parentFound := (ordered.lookup_eq_some fits).mp other
          rw [found, Option.some.injEq] at parentFound
          exact same parentFound.symm
        rw [count_cons_of_ne elsewhere, ih]

theorem getElem?_foldl_modify (ats counts : List ℕ) (slot : ℕ) :
    (ats.foldl (fun counts at_ => counts.modify at_ (· + 1)) counts)[slot]? =
      counts[slot]?.map (· + ats.count slot) := by
  induction ats generalizing counts with
  | nil => simp
  | cons at_ ats ih =>
    rw [foldl_cons, ih, List.getElem?_modify, count_cons]
    rcases counts[slot]? with _ | count
    · rfl
    · by_cases same : at_ = slot
      · simp [same]
        omega
      · simp [same]

section

variable (ordered : push.Ordered) (fits : push.Fits boundaries)

include ordered fits

theorem complete_start (queries : List Query) :
    push.Complete boundaries queries [] push.order push.start where
  counts at_ oid found := by
    have within := (List.getElem?_eq_some_iff.mp found).1
    rw [start, childrenLeft, getElem?_foldl_modify, ordered.count_filterMap fits found,
      List.getElem?_replicate_of_lt within, Option.map_some, Nat.zero_add, parents]
  held at_ oid before := absurd before (Nat.not_lt_zero at_)
  proven query _ before := absurd before not_mem_nil

theorem completeFor_closureOf
    (held : ∀ parent ∈ push.parentsOf.parents commit, ∀ parentAt, push.order[parentAt]? = some
      parent → ∃ closure, closures.live.lookup parentAt = some closure ∧ push.CompleteFor boundaries
      closure parent) :
    push.CompleteFor boundaries
      (push.closureOf commit closures boundaries (saturate32 push.order.length)) commit := by
  intro oid reaches
  rcases TransGen.head'_iff.mp reaches with ⟨parent, named, further⟩
  rcases reflTransGen_iff_eq_or_transGen.mp further with rfl | further
  -- the parent itself has a bit of its own
  · refine ⟨fun slot found => mem_closureOf.mpr ⟨oid, named, ?_⟩,
      fun bit isBit => mem_closureOf.mpr ⟨oid, named, ?_⟩⟩
    · rw [gain, (ordered.lookup_eq_some fits).mpr found]
      exact Finset.mem_insert_self _ _
    · rcases List.findIdx?_eq_some_iff_getElem.mp isBit with ⟨within, isParent, -⟩
      rw [decide_eq_true_eq] at isParent
      have bits := fits.bits
      have outside := fits.outside oid (isParent ▸ getElem_mem within)
      rw [gain, (ordered.lookup_eq_none fits).mpr outside]
      simp only [Boundaries.reached, isBit]
      rw [if_pos (by omega), fits.boundary_bit within]
      exact Finset.mem_insert_self _ _
  -- what the parent reaches is in its set, which is held
  · have inPush : parent ∈ push.order := by
      rcases TransGen.head'_iff.mp further with ⟨grandparent, namedThere, -⟩
      rw [ordered.listed]
      by_contra outside
      rw [Names, ParentMap.parents, AList.lookup_eq_none.mpr outside] at namedThere
      exact not_mem_nil namedThere
    rcases mem_iff_getElem?.mp inPush with ⟨parentAt, found⟩
    rcases held parent named parentAt found with ⟨closure, live, complete⟩
    have inherits : ∀ bit ∈ closure, bit ∈ push.closureOf commit closures boundaries
        (saturate32 push.order.length) := by
      intro bit bitMem
      refine mem_closureOf.mpr ⟨parent, named, ?_⟩
      rw [gain, (ordered.lookup_eq_some fits).mpr found]
      dsimp only
      rw [live]
      exact Finset.mem_insert_of_mem bitMem
    exact ⟨fun slot there => inherits slot ((complete oid further).1 slot there),
      fun bit isBit => inherits _ ((complete oid further).2 bit isBit)⟩

theorem proves_of_proven (parallel : boundaries.reachable = boundaries.oids.map answers)
    {closure : Finset ℕ} (complete : push.CompleteFor boundaries closure commit)
    (proven : push.Proven boundaries commit home) :
    push.proves boundaries (saturate32 push.order.length) closure home = true := by
  rw [Push.proves]
  rcases proven with ⟨inPush, reaches⟩ | ⟨outside, bit, boundary, answer, isBoundary, answered,
    reaches, isHome⟩
  · rcases mem_iff_getElem?.mp ((ordered.listed home).mpr inPush) with ⟨homeAt, found⟩
    rw [(ordered.lookup_eq_some fits).mpr found]
    exact decide_eq_true ((complete home reaches).1 homeAt found)
  · rw [(ordered.lookup_eq_none fits).mpr outside]
    -- a boundary has the same answer at each place it is listed, and its bit is that of the first
    have listed := List.mem_of_getElem? isBoundary
    rcases index : boundaries.oids.findIdx? (· = boundary) with _ | first
    · exact absurd rfl (of_decide_eq_false (List.findIdx?_eq_none_iff.mp index boundary listed))
    rcases List.findIdx?_eq_some_iff_getElem.mp index with ⟨within, isThere, -⟩
    have firstAnswer : boundaries.reachable[first]? = some answer := by
      rw [parallel, List.getElem?_map, isBoundary, Option.map_some, Option.some.injEq] at answered
      rw [parallel, List.getElem?_map, List.getElem?_eq_getElem within, of_decide_eq_true isThere,
        Option.map_some, answered]
    have bits := fits.bits
    refine any_eq_true.mpr
      ⟨(answer, first), mk_mem_zipIdx_iff_getElem?.mpr firstAnswer, ?_⟩
    simp only [Bool.and_eq_true, decide_eq_true_eq]
    rw [fits.boundary_bit within]
    exact ⟨⟨by omega, (complete boundary reaches).2 first index⟩, isHome⟩

theorem Complete.step (parallel : boundaries.reachable = boundaries.oids.map answers)
    {done rest : List ObjectId} (isOrder : push.order = done ++ commit :: rest)
    (complete : push.Complete boundaries queries done (commit :: rest) state) :
    push.Complete boundaries queries (done ++ [commit]) rest
      (push.step .none boundaries queries state (commit, done.length)) := by
  have isCommit : push.order[done.length]? = some commit := by rw [isOrder]; simp
  have position := fits.position (List.getElem?_eq_some_iff.mp isCommit).1
  -- a parent in the push came before, and waits for this child at least
  have builtComplete : push.CompleteFor boundaries (push.built boundaries state commit) commit := by
    refine completeFor_closureOf ordered fits fun parent named parentAt found => ?_
    refine complete.held parentAt parent ?_ found ?_
    · have inPush := (ordered.listed parent).mp (List.mem_of_getElem? found)
      have first := ordered.first
      rw [isOrder] at first
      have before := (first.before named inPush).resolve_left not_mem_nil
      rcases mem_iff_getElem?.mp before with ⟨slot, there⟩
      have within := (List.getElem?_eq_some_iff.mp there).1
      have same : push.order[slot]? = some parent := by
        rw [isOrder, List.getElem?_append_left within, there]
      have isAt := (ordered.lookup_eq_some fits).mpr found
      rw [(ordered.lookup_eq_some fits).mpr same, Option.some.injEq] at isAt
      rwa [← isAt]
    · exact mem_flatMap.mpr ⟨commit, mem_cons_self, named⟩
  have counts : ∀ (slot : ℕ) (oid : ObjectId), push.order[slot]? = some oid →
      (push.retired state commit).2[slot]? =
        some ((rest.flatMap push.parentsOf.parents).count oid) := by
    intro slot oid found
    rw [retired, (Closures.retireAll).2.1, complete.counts slot oid found, Option.map_some,
      ordered.count_filterMap fits found, flatMap_cons, count_append,
      Nat.add_sub_cancel_left]
  refine ⟨counts, ?_, ?_⟩
  · intro slot oid before found waits
    have waiting := count_pos_iff.mpr waits
    rw [step_closures, position]
    have atSlot := counts slot oid found
    by_cases isNew : slot = done.length
    · subst isNew
      rw [isCommit, Option.some.injEq] at found
      subst found
      rw [atSlot, if_pos (by simpa using waits)]
      exact ⟨_, AList.lookup_insert _, builtComplete⟩
    · have earlier : slot < done.length := by
        rw [length_append, length_singleton] at before
        omega
      rcases complete.held slot oid earlier found
        (by rw [flatMap_cons]; exact mem_append_right _ waits) with
        ⟨closure, live, isComplete⟩
      have still : (push.retired state commit).1.live.lookup slot = some closure := by
        rw [← live]
        exact Closures.retireAll.2.2 slot _ atSlot waiting
      refine ⟨closure, ?_, isComplete⟩
      split
      next => exact (AList.lookup_insert_ne isNew).trans still
      next => exact still
  · intro query asked isDone proven
    rw [mem_step_proven]
    rcases mem_append.mp isDone with before | isCurrent
    · exact Or.inl (complete.proven query asked before proven)
    · have isTarget := mem_singleton.mp isCurrent
      rw [isTarget] at proven
      refine Or.inr ⟨isTarget, ?_, proves_of_proven ordered fits parallel builtComplete proven⟩
      rw [← isTarget]
      exact asked

theorem Complete.run (parallel : boundaries.reachable = boundaries.oids.map answers)
    {done rest : List ObjectId} (isOrder : push.order = done ++ rest)
    (complete : push.Complete boundaries queries done rest state) :
    push.Complete boundaries queries push.order []
      ((rest.zipIdx done.length).foldl (push.step .none boundaries queries) state) := by
  induction rest generalizing done state with
  | nil =>
    rw [append_nil] at isOrder
    exact isOrder ▸ complete
  | cons commit rest ih =>
    have next := complete.step ordered fits parallel isOrder
    rw [zipIdx_cons, foldl_cons]
    have isOrderNext : push.order = (done ++ [commit]) ++ rest := by
      rw [isOrder, append_assoc, singleton_append]
    have later := ih isOrderNext next
    rwa [length_append, length_singleton] at later

theorem proveWith_none (parallel : boundaries.reachable = boundaries.oids.map answers)
    {query : Query} (asked : query ∈ queries) (inPush : query.target ∈ push.parentsOf) :
    (query.target, query.home) ∈ (push.proveWith .none boundaries queries).proven ↔
      push.Proven boundaries query.target query.home := by
  refine ⟨proveWith_sound ordered fits .none queries, fun proven => ?_⟩
  have ends := (complete_start ordered fits queries).run ordered fits parallel rfl
  exact ends.proven query asked ((ordered.listed _).mpr inPush) proven

end

def NothingEvicted (push : Push) (eviction : Eviction) (boundaries : Boundaries)
    (queries : List Query) : List (ObjectId × ℕ) → Proving → Prop
  | [], _ => True
  | entry :: entries, state =>
    push.step eviction boundaries queries state entry =
        push.step .none boundaries queries state entry ∧
      push.NothingEvicted eviction boundaries queries entries
        (push.step eviction boundaries queries state entry)

theorem foldl_step_of_nothingEvicted {entries : List (ObjectId × ℕ)}
    (kept : push.NothingEvicted eviction boundaries queries entries state) :
    entries.foldl (push.step eviction boundaries queries) state =
      entries.foldl (push.step .none boundaries queries) state := by
  induction entries generalizing state with
  | nil => rfl
  | cons entry entries ih =>
    rw [foldl_cons, foldl_cons, ← kept.1]
    exact ih kept.2

/-! ## Proofs against the full history -/

def answered (push : Push) (max : ℕ) (answer : ObjectId → Finset ObjectId) : Boundaries :=
  ⟨push.boundaries max, (push.boundaries max).map answer⟩

theorem mem_boundaries {boundary : ObjectId} (listed : boundary ∈ push.boundaries max) :
    boundary ∉ push.parentsOf := by
  have named := mem_eraseDups.mp (mem_of_mem_take listed)
  exact of_decide_eq_true (mem_filter.mp named).2

theorem fits_answered {answer : ObjectId → Finset ObjectId}
    (bits : push.order.length + (push.boundaries max).length ≤ 2 ^ 32) :
    push.Fits (push.answered max answer) where
  bits := bits
  outside _ := mem_boundaries
  parallel := (length_map _).le

theorem proven_answered_iff {answer : ObjectId → Finset ObjectId} :
    push.Proven (push.answered max answer) target home ↔
      (home ∈ push.parentsOf ∧ push.Reaches target home) ∨
        (home ∉ push.parentsOf ∧ ∃ boundary ∈ push.boundaries max,
          push.Reaches target boundary ∧ home ∈ answer boundary) := by
  refine or_congr_right (and_congr_right fun _ => ⟨?_, ?_⟩)
  · rintro ⟨bit, boundary, _, isBoundary, answered, reaches, isHome⟩
    simp only [Push.answered] at isBoundary answered
    rw [List.getElem?_map, isBoundary] at answered
    cases answered
    exact ⟨boundary, List.mem_of_getElem? isBoundary, reaches, isHome⟩
  · rintro ⟨boundary, listed, reaches, isHome⟩
    rcases mem_iff_getElem?.mp listed with ⟨bit, isBoundary⟩
    refine ⟨bit, boundary, answer boundary, isBoundary, ?_, reaches, isHome⟩
    simp only [Push.answered]
    rw [List.getElem?_map, isBoundary, Option.map_some]

end Push

def AncestorIn (history : ObjectId → List ObjectId) (home target : ObjectId) : Prop :=
  ReflTransGen (fun child parent => parent ∈ history child) target home

namespace Push

variable {history : ObjectId → List ObjectId}

def Extends (history : ObjectId → List ObjectId) (push : Push) : Prop :=
  ∀ oid ∈ push.parentsOf, history oid = push.parentsOf.parents oid

theorem ancestorIn_of_reaches (extends_ : Extends history push) {target oid : ObjectId}
    (reaches : push.Reaches target oid) : AncestorIn history oid target := by
  have edge : ∀ {child parent}, push.Names child parent → parent ∈ history child := by
    intro child parent named
    have inPush : child ∈ push.parentsOf := by
      by_contra outside
      rw [Names, ParentMap.parents, AList.lookup_eq_none.mpr outside] at named
      exact not_mem_nil named
    rwa [extends_ child inPush]
  induction reaches with
  | single named => exact ReflTransGen.single (edge named)
  | tail _ named ih => exact ih.tail (edge named)

theorem exists_boundary (extends_ : Extends history push) {target home : ObjectId}
    (inPush : target ∈ push.parentsOf) (outside : home ∉ push.parentsOf)
    (path : AncestorIn history home target) :
    ∃ commit ∈ push.parentsOf, ∃ boundary ∈ push.parentsOf.parents commit,
      boundary ∉ push.parentsOf ∧ push.Reaches target boundary ∧
        AncestorIn history home boundary := by
  induction path using ReflTransGen.head_induction_on with
  | refl => exact absurd inPush outside
  | @head child parent named rest ih =>
    rw [extends_ child inPush] at named
    by_cases parentIn : parent ∈ push.parentsOf
    · rcases ih parentIn with ⟨commit, commitIn, boundary, isParent, isOutside, reaches, further⟩
      exact ⟨commit, commitIn, boundary, isParent, isOutside, TransGen.head named reaches,
        further⟩
    · exact ⟨child, inPush, parent, named, parentIn, TransGen.single named, rest⟩

/-- Whatever pressure drops, a query reported as proven has its home among the ancestors of its
target, when the boundaries are answered with nothing but ancestors. When every boundary is answered
exactly and nothing is dropped, a query is proven exactly if it is true and its home, when it is in
the push, is reached through commits of the push. -/
theorem proveWith_exact {parentsOf : ParentMap} {push : Push}
    (isPush : Push.new parentsOf = .ok push) (history : ObjectId → List ObjectId)
    (extends_ : Extends history push) (max : ℕ)
    (bits : push.order.length + (push.boundaries max).length ≤ 2 ^ 32)
    (answer : ObjectId → Finset ObjectId) (eviction : Eviction) (queries : List Query) :
    ((∀ boundary ∈ push.boundaries max, ∀ home ∈ answer boundary,
        AncestorIn history home boundary) →
      ∀ query, (push.proveWith eviction (push.answered max answer) queries).holds query = true →
        AncestorIn history query.home query.target) ∧
    ((∀ commit ∈ parentsOf, ∀ parent ∈ parentsOf.parents commit, parent ∉ parentsOf →
        parent ∈ push.boundaries max) →
      (∀ boundary ∈ push.boundaries max, ∀ query ∈ queries, query.home ∉ parentsOf →
        (query.home ∈ answer boundary ↔ AncestorIn history query.home boundary)) →
      push.NothingEvicted eviction (push.answered max answer) queries push.order.zipIdx push.start →
      ∀ query ∈ queries, query.target ∈ parentsOf →
        ((push.proveWith eviction (push.answered max answer) queries).holds query = true ↔
          AncestorIn history query.home query.target ∧
            (query.home ∈ parentsOf → query.home ≠ query.target →
              push.Reaches query.target query.home))) := by
  rcases new_eq_ok isPush with ⟨rfl, ordered⟩
  have fits : push.Fits (push.answered max answer) := fits_answered bits
  refine ⟨fun sound query reported => ?_, fun all exactly kept query asked inPush => ?_⟩
  · rw [Ancestry.holds, Bool.or_eq_true, decide_eq_true_eq, decide_eq_true_eq] at reported
    rcases reported with same | listed
    · exact same ▸ .refl
    · rcases proven_answered_iff.mp (proveWith_sound ordered fits eviction queries listed) with
        ⟨-, reaches⟩ | ⟨-, boundary, isBoundary, reaches, isHome⟩
      · exact ancestorIn_of_reaches extends_ reaches
      · exact (ancestorIn_of_reaches extends_ reaches).trans (sound boundary isBoundary _ isHome)
  · have isExact := proveWith_none ordered fits rfl asked inPush
    rw [Ancestry.holds, Bool.or_eq_true, decide_eq_true_eq, decide_eq_true_eq, proveWith,
      foldl_step_of_nothingEvicted kept]
    change _ ∨ _ ∈ (push.proveWith .none (push.answered max answer) queries).proven ↔ _
    rw [isExact, proven_answered_iff]
    constructor
    · rintro (same | ⟨-, reaches⟩ | ⟨outside, boundary, isBoundary, reaches, isHome⟩)
      · exact ⟨same ▸ .refl, fun _ differs => absurd same.symm differs⟩
      · exact ⟨ancestorIn_of_reaches extends_ reaches, fun _ _ => reaches⟩
      · have further := (exactly boundary isBoundary query asked outside).mp isHome
        exact ⟨(ancestorIn_of_reaches extends_ reaches).trans further,
          fun inside => absurd inside outside⟩
    · rintro ⟨path, inside⟩
      by_cases same : query.target = query.home
      · exact Or.inl same
      by_cases homeIn : query.home ∈ push.parentsOf
      · exact Or.inr (Or.inl ⟨homeIn, inside homeIn (Ne.symm same)⟩)
      · rcases exists_boundary extends_ inPush homeIn path with
          ⟨commit, commitIn, boundary, isParent, isOutside, reaches, further⟩
        have isBoundary := all commit commitIn boundary isParent isOutside
        exact Or.inr (Or.inr ⟨homeIn, boundary, isBoundary, reaches,
          (exactly boundary isBoundary query asked homeIn).mpr further⟩)

def twoCommits : Push where
  order := [2, 3]
  parentsOf := [⟨2, [1]⟩, ⟨3, [2, 2]⟩].toAList
  indexOf := [⟨3, 1⟩, ⟨2, 0⟩].toAList

def twoCommitsHistory (oid : ObjectId) : List ObjectId :=
  if oid = 3 then [2, 2] else if oid = 2 then [1] else if oid = 1 then [9] else []

/-- The second of two commits is proven to read the first and what their boundary is told to
reach. -/
theorem proveWith_exact_twoCommits :
    Push.new twoCommits.parentsOf = .ok twoCommits ∧
      (twoCommits.prove (twoCommits.answered 8 fun _ => {9}) [⟨3, 9⟩, ⟨3, 2⟩]).holds ⟨3, 9⟩ = true ∧
        AncestorIn twoCommitsHistory 9 3 := by
  have isPush : Push.new twoCommits.parentsOf = .ok twoCommits := by rfl
  have extends_ : Extends twoCommitsHistory twoCommits := by
    intro oid inside
    have cases : oid = 2 ∨ oid = 3 := by
      have listed := AList.mem_keys.mp inside
      simpa [twoCommits, AList.keys, List.toAList, List.keys, List.dedupKeys] using listed
    rcases cases with rfl | rfl <;> rfl
  have exactly := proveWith_exact isPush twoCommitsHistory extends_ 8 (by decide) (fun _ => {9})
    .pressure [⟨3, 9⟩, ⟨3, 2⟩]
  have proven : (twoCommits.prove (twoCommits.answered 8 fun _ => {9})
      [⟨3, 9⟩, ⟨3, 2⟩]).holds ⟨3, 9⟩ = true := by
    decide +kernel
  refine ⟨isPush, proven, exactly.1 ?_ ⟨3, 9⟩ proven⟩
  intro boundary isBoundary home isHome
  have isOne : boundary = 1 := by
    have listed : twoCommits.boundaries 8 = [1] := by decide +kernel
    rw [listed] at isBoundary
    exact mem_singleton.mp isBoundary
  cases Finset.mem_singleton.mp isHome
  rw [isOne]
  exact ReflTransGen.single mem_cons_self

/-- A commit on top of a stored one, sent with an ancestor of it that is stored already. -/
def resent : Push where
  order := [3, 10]
  parentsOf := [⟨10, [5]⟩, ⟨3, []⟩].toAList
  indexOf := [⟨10, 1⟩, ⟨3, 0⟩].toAList

def resentHistory (oid : ObjectId) : List ObjectId :=
  if oid = 10 then [5] else if oid = 5 then [3] else []

/-- A home that is sent again is looked for among the commits of the push only, and missed behind
the boundary. -/
theorem prove_misses_resent :
    Push.new resent.parentsOf = .ok resent ∧ Extends resentHistory resent ∧
      resent.boundaries 8 = [5] ∧
      (∀ home, home ∈ ({5, 3} : Finset ObjectId) ↔ AncestorIn resentHistory home 5) ∧
      resent.NothingEvicted .pressure (resent.answered 8 fun _ => {5, 3}) [⟨10, 3⟩]
        resent.order.zipIdx resent.start ∧
      10 ∈ resent.parentsOf ∧ AncestorIn resentHistory 3 10 ∧
      (resent.prove (resent.answered 8 fun _ => {5, 3}) [⟨10, 3⟩]).holds ⟨10, 3⟩ = false := by
  have toFive : AncestorIn resentHistory 5 10 := ReflTransGen.single mem_cons_self
  have toThree : AncestorIn resentHistory 3 5 := ReflTransGen.single mem_cons_self
  refine ⟨rfl, ?_, by decide +kernel, fun home => ⟨?_, ?_⟩, ⟨rfl, rfl, trivial⟩, by decide,
    toFive.trans toThree, by decide +kernel⟩
  · intro oid inside
    have cases : oid = 10 ∨ oid = 3 := by
      have listed := AList.mem_keys.mp inside
      simpa [resent, AList.keys, List.toAList, List.keys, List.dedupKeys] using listed
    rcases cases with rfl | rfl <;> rfl
  · intro listed
    rcases Finset.mem_insert.mp listed with rfl | isThree
    · exact .refl
    · cases Finset.mem_singleton.mp isThree
      exact toThree
  · intro path
    induction path with
    | refl => decide
    | @tail middle home _ named ih =>
      rcases Finset.mem_insert.mp ih with rfl | isThree
      · cases mem_singleton.mp named
        decide
      · cases Finset.mem_singleton.mp isThree
        cases named

end Push

end Enroute
