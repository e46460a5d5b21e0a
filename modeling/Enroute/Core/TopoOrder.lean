import Enroute.Core.Object

/-!
# Ordering a batch of commits

`topoOrder` puts every commit of a batch after its parents in the batch. A commit is ready once
as many of its parents have been put out as it has parents in the batch, so the count kept for a
commit is always that of the parents still to come, and it falls to zero exactly once.
-/

namespace Enroute

abbrev ParentMap := ObjectHashMap (List ObjectId)

namespace ParentMap

variable {commits : ParentMap}

def parents (commits : ParentMap) (oid : ObjectId) : List ObjectId :=
  (commits.lookup oid).getD []

def inDegree (commits : ParentMap) (oid : ObjectId) : ℕ :=
  (commits.parents oid).countP fun parent => parent ∈ commits

def revDeps (commits : ParentMap) (parent : ObjectId) : List ObjectId :=
  commits.entries.flatMap fun entry => (entry.2.filter (· = parent)).map fun _ => entry.1

def release : (ObjectId → ℕ) → List ObjectId → (ObjectId → ℕ) × List ObjectId
  | degrees, [] => (degrees, [])
  | degrees, dep :: deps =>
    let left := degrees dep - 1
    let (degrees, ready) := release (Function.update degrees dep left) deps
    (degrees, if left = 0 then dep :: ready else ready)

def drain (commits : ParentMap) : ℕ → (ObjectId → ℕ) → List ObjectId → List ObjectId
  | 0, _, _ => []
  | _ + 1, _, [] => []
  | fuel + 1, degrees, oid :: queue =>
    let (degrees, ready) := release degrees (commits.revDeps oid)
    oid :: drain commits fuel degrees (queue ++ ready.insertionSort (· ≤ ·))

def topoOrder (commits : ParentMap) : Except String (List ObjectId) :=
  let ready := (commits.keys.filter fun oid => commits.inDegree oid = 0).insertionSort (· ≤ ·)
  let order := commits.drain (commits.keys.length + 1) commits.inDegree ready
  if order.length ≠ commits.keys.length then
    .error "commit graph: cycle detected in pushed commits"
  else .ok order

theorem release_degrees (degrees : ObjectId → ℕ) (deps : List ObjectId) (oid : ObjectId) :
    (release degrees deps).1 oid = degrees oid - deps.count oid := by
  induction deps generalizing degrees with
  | nil => simp [release]
  | cons dep deps ih =>
    rw [release, ih, List.count_cons]
    by_cases same : oid = dep
    · subst same
      simp only [Function.update_self, beq_self_eq_true, if_true]
      omega
    · simp only [Function.update_of_ne same, beq_iff_eq, Ne.symm same, if_false, add_zero]

variable {degrees : ObjectId → ℕ} {oid : ObjectId} {done : List ObjectId}

theorem release_ready {deps : List ObjectId} (enough : ∀ oid, deps.count oid ≤ degrees oid) :
    (release degrees deps).2.Nodup ∧ ∀ oid, oid ∈ (release degrees deps).2 ↔
      oid ∈ deps ∧ degrees oid = deps.count oid := by
  induction deps generalizing degrees with
  | nil => simp [release]
  | cons dep deps ih =>
    have fewer : ∀ oid, deps.count oid ≤ Function.update degrees dep (degrees dep - 1) oid := by
      intro oid
      have bound := enough oid
      rw [List.count_cons] at bound
      by_cases same : oid = dep
      · subst same
        simp only [Function.update_self, beq_self_eq_true, if_true] at bound ⊢
        omega
      · simp only [Function.update_of_ne same, beq_iff_eq, Ne.symm same, if_false] at bound ⊢
        exact bound
    rcases ih fewer with ⟨distinct, ready⟩
    have headBound := enough dep
    rw [List.count_cons_self] at headBound
    have others : ∀ oid, oid ≠ dep → (oid ∈ (release (Function.update degrees dep
        (degrees dep - 1)) deps).2 ↔ oid ∈ dep :: deps ∧ degrees oid = (dep :: deps).count oid) := by
      intro oid different
      rw [ready, Function.update_of_ne different, List.count_cons_of_ne (Ne.symm different),
        List.mem_cons]
      simp only [different, false_or]
    by_cases last : degrees dep - 1 = 0
    · have gone : dep ∉ deps := by
        intro again
        have more := List.count_pos_iff.mpr again
        omega
      simp only [release, last, if_true]
      rw [last] at distinct ready others
      refine ⟨List.nodup_cons.mpr ⟨fun again => gone ((ready dep).mp again).1, distinct⟩, ?_⟩
      intro oid
      by_cases same : oid = dep
      · subst same
        have none_ : deps.count oid = 0 := List.count_eq_zero.mpr gone
        simp only [List.mem_cons, true_or, true_and, List.count_cons_self, true_iff]
        omega
      · rw [List.mem_cons, ← others oid same]
        simp only [same, false_or]
    · simp only [release, last, if_false]
      refine ⟨distinct, fun oid => ?_⟩
      by_cases same : oid = dep
      · subst same
        rw [ready, Function.update_self, List.mem_cons, List.count_cons_self]
        constructor
        · rintro ⟨-, left⟩
          exact ⟨Or.inl rfl, by omega⟩
        · rintro ⟨-, left⟩
          refine ⟨?_, by omega⟩
          by_contra gone
          have none_ : deps.count oid = 0 := List.count_eq_zero.mpr gone
          omega
      · exact others oid same

theorem count_revDeps (commits : ParentMap) (parent oid : ObjectId) :
    (commits.revDeps parent).count oid = (commits.parents oid).count parent := by
  rcases commits with ⟨entries, distinct⟩
  simp only [revDeps, parents, AList.lookup]
  induction entries with
  | nil => rfl
  | cons entry entries ih =>
    rcases entry with ⟨key, named⟩
    rw [List.nodupKeys_cons] at distinct
    rw [List.flatMap_cons, List.count_append, ih distinct.2, List.map_const', List.count_replicate]
    by_cases same : key = oid
    · subst same
      have elsewhere : entries.dlookup key = none :=
        List.dlookup_eq_none.mpr fun again => distinct.1 again
      rw [List.dlookup_cons_eq, elsewhere]
      simp only [List.count_eq_length_filter, beq_self_eq_true, if_true, Option.getD_some,
        Option.getD_none, List.filter_nil, List.length_nil, add_zero, beq_eq_decide]
    · rw [List.dlookup_cons_ne _ _ (Ne.symm same)]
      simp [same]

/-- Every listed commit is of the batch, is new, and has its parents in the batch before it. -/
def ParentsFirst (commits : ParentMap) : List ObjectId → List ObjectId → Prop
  | _, [] => True
  | done, oid :: order => oid ∈ commits ∧ oid ∉ done ∧
      (∀ parent ∈ commits.parents oid, parent ∈ commits → parent ∈ done) ∧
      ParentsFirst commits (oid :: done) order

/-- The counts are those of the parents still to come, and the queue holds commits without. -/
structure Draining (commits : ParentMap) (done : List ObjectId) (degrees : ObjectId → ℕ)
    (queue : List ObjectId) : Prop where
  counts : ∀ oid, degrees oid =
    (commits.parents oid).countP fun parent => parent ∈ commits ∧ parent ∉ done
  ready : ∀ oid ∈ queue, oid ∈ commits ∧ oid ∉ done ∧ degrees oid = 0
  settled : ∀ oid ∈ done, degrees oid = 0
  distinct : queue.Nodup

theorem mem_of_mem_revDeps {parent : ObjectId} (named : oid ∈ commits.revDeps parent) :
    oid ∈ commits := by
  rcases List.mem_flatMap.mp named with ⟨entry, entryMem, listed⟩
  rcases List.mem_map.mp listed with ⟨-, -, rfl⟩
  exact List.mem_map_of_mem entryMem

theorem Draining.next {queue : List ObjectId} (inv : Draining commits done degrees (oid :: queue)) :
    Draining commits (oid :: done) (release degrees (commits.revDeps oid)).1
      (queue ++ (release degrees (commits.revDeps oid)).2.insertionSort (· ≤ ·)) := by
  have isNew := (inv.ready oid List.mem_cons_self).2.1
  have inBatch := (inv.ready oid List.mem_cons_self).1
  -- the parents still to come are the one put out now and those to come after it
  have splits : ∀ other, degrees other = (commits.parents other).count oid +
      (commits.parents other).countP fun parent => parent ∈ commits ∧ parent ∉ oid :: done := by
    intro other
    rw [inv.counts]
    induction commits.parents other with
    | nil => rfl
    | cons parent parents ih =>
      rw [List.countP_cons, List.countP_cons, List.count_cons, ih]
      by_cases same : parent = oid
      · subst same
        simp [inBatch, isNew]
        omega
      · simp [same]
        omega
  have enough : ∀ other, (commits.revDeps oid).count other ≤ degrees other := by
    intro other
    rw [count_revDeps, splits]
    omega
  have counts : ∀ other, (release degrees (commits.revDeps oid)).1 other =
      (commits.parents other).countP fun parent => parent ∈ commits ∧ parent ∉ oid :: done := by
    intro other
    rw [release_degrees, count_revDeps, splits]
    omega
  rcases release_ready enough with ⟨distinct, becomesReady⟩
  have unsettled : ∀ other, other ∈ (release degrees (commits.revDeps oid)).2 →
      degrees other ≠ 0 := by
    intro other isReady zero
    rcases (becomesReady other).mp isReady with ⟨named, left⟩
    have some_ := List.count_pos_iff.mpr named
    omega
  refine ⟨counts, ?_, ?_, ?_⟩
  · intro other queued
    rw [List.mem_append, List.mem_insertionSort] at queued
    rcases queued with waiting | isReady
    · rcases inv.ready other (List.mem_cons_of_mem _ waiting) with ⟨inside, fresh, zero⟩
      refine ⟨inside, ?_, by rw [release_degrees]; omega⟩
      rintro (_ | ⟨_, before⟩)
      · exact (List.nodup_cons.mp inv.distinct).1 waiting
      · exact fresh before
    · rcases (becomesReady other).mp isReady with ⟨named, left⟩
      refine ⟨mem_of_mem_revDeps named, ?_, by rw [release_degrees]; omega⟩
      rintro (_ | ⟨_, before⟩)
      · exact unsettled oid isReady (inv.ready oid List.mem_cons_self).2.2
      · exact unsettled other isReady (inv.settled other before)
  · intro other before
    rw [release_degrees]
    rcases List.mem_cons.mp before with rfl | earlier
    · rw [(inv.ready other List.mem_cons_self).2.2, Nat.zero_sub]
    · rw [inv.settled other earlier, Nat.zero_sub]
  · refine List.nodup_append.mpr ⟨(List.nodup_cons.mp inv.distinct).2,
      (List.perm_insertionSort _ _).nodup_iff.mpr distinct, ?_⟩
    rintro other waiting _ isReady rfl
    rw [List.mem_insertionSort] at isReady
    exact unsettled other isReady (inv.ready other (List.mem_cons_of_mem _ waiting)).2.2

theorem parentsFirst_drain {fuel : ℕ} {queue : List ObjectId}
    (inv : Draining commits done degrees queue) :
    ParentsFirst commits done (commits.drain fuel degrees queue) := by
  induction fuel generalizing done degrees queue with
  | zero => trivial
  | succ fuel ih =>
    cases queue with
    | nil => trivial
    | cons oid queue =>
      rcases inv.ready oid List.mem_cons_self with ⟨inside, fresh, zero⟩
      refine ⟨inside, fresh, fun parent named inBatch => ?_, ih inv.next⟩
      rw [inv.counts, List.countP_eq_zero] at zero
      by_contra later
      exact zero parent named (by simp [inBatch, later])

theorem ParentsFirst.nodup {order : List ObjectId} (first : ParentsFirst commits done order) :
    order.Nodup ∧ (∀ oid ∈ order, oid ∈ commits) ∧ ∀ oid ∈ order, oid ∉ done := by
  induction order generalizing done with
  | nil => simp
  | cons oid order ih =>
    rcases first with ⟨inside, fresh, -, rest⟩
    rcases ih rest with ⟨distinct, batch, later⟩
    refine ⟨List.nodup_cons.mpr ⟨fun again => later oid again List.mem_cons_self, distinct⟩,
      ?_, ?_⟩
    · rintro other (_ | ⟨_, listed⟩)
      · exact inside
      · exact batch other listed
    · rintro other (_ | ⟨_, listed⟩)
      · exact fresh
      · exact fun before => later other listed (List.mem_cons_of_mem _ before)

theorem ParentsFirst.before {before after : List ObjectId} {parent : ObjectId}
    (first : ParentsFirst commits done (before ++ oid :: after))
    (named : parent ∈ commits.parents oid) (inBatch : parent ∈ commits) :
    parent ∈ done ∨ parent ∈ before := by
  induction before generalizing done with
  | nil => exact Or.inl (first.2.2.1 parent named inBatch)
  | cons head before ih =>
    rcases ih first.2.2.2 with earlier | listed
    · rcases List.mem_cons.mp earlier with rfl | isDone
      · exact Or.inr List.mem_cons_self
      · exact Or.inl isDone
    · exact Or.inr (List.mem_cons_of_mem _ listed)

theorem topoOrder_eq_ok {order : List ObjectId} (ordered : commits.topoOrder = .ok order) :
    order.Perm commits.keys ∧ ParentsFirst commits [] order := by
  simp only [topoOrder] at ordered
  split at ordered
  next => cases ordered
  next sameLength =>
    cases ordered
    have starts : Draining commits [] commits.inDegree
        ((commits.keys.filter fun oid => commits.inDegree oid = 0).insertionSort (· ≤ ·)) := by
      refine ⟨fun oid => by simp [inDegree], ?_, by simp, ?_⟩
      · intro oid queued
        rw [List.mem_insertionSort, List.mem_filter] at queued
        exact ⟨AList.mem_keys.mpr queued.1, List.not_mem_nil, by simpa using queued.2⟩
      · exact (List.perm_insertionSort _ _).nodup_iff.mpr (commits.keys_nodup.filter _)
    have first : ParentsFirst commits [] (commits.drain (commits.keys.length + 1) _ _) :=
      parentsFirst_drain starts
    rcases first.nodup with ⟨distinct, inside, -⟩
    refine ⟨?_, first⟩
    refine List.Subperm.perm_of_length_le ?_ (not_ne_iff.mp sameLength).ge
    exact List.subperm_of_subset distinct inside

end ParentMap

end Enroute
