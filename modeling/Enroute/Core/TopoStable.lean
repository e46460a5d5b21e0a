import Enroute.Core.TopoOrder
import Mathlib.Order.WellFounded

/-!
# What the order of a batch depends on

A batch is ordered exactly when no commit of it is its own ancestor in the batch: what is left when
nothing is ready any more has a parent that is left too. The order is the same however the map is
iterated, since every group of commits that become ready together is sorted. A part of the batch
that holds the parents of what it holds is ordered as it stands in the order of the whole: commits
outside it release none of its commits, so its queue is the part of the whole queue that is in it.
-/

namespace Enroute.ParentMap

open List Relation

variable {commits part : ParentMap}

def ParentIn (commits : ParentMap) (oid parent : ObjectId) : Prop :=
  parent ∈ commits.parents oid ∧ parent ∈ commits

def Acyclic (commits : ParentMap) : Prop :=
  ∀ oid, ¬TransGen commits.ParentIn oid oid

/-! ## When nothing is ready -/

def left (commits : ParentMap) (done : List ObjectId) : ℕ :=
  (commits.keys.filter fun oid => oid ∉ done).length

variable {done queue : List ObjectId} {oid : ObjectId} {degrees : ObjectId → ℕ}

theorem left_cons (inside : oid ∈ commits) (fresh : oid ∉ done) :
    commits.left (oid :: done) + 1 = commits.left done := by
  have splits : ∀ keys : List ObjectId, keys.Nodup → oid ∈ keys →
      (keys.filter fun key => key ∉ oid :: done).length + 1 =
        (keys.filter fun key => key ∉ done).length := by
    intro keys distinct listed
    have erased : (keys.filter fun key => key ∉ oid :: done) =
        (keys.filter fun key => key ∉ done).erase oid := by
      rw [(distinct.filter _).erase_eq_filter, filter_filter]
      refine filter_congr fun key _ => ?_
      by_cases same : key = oid <;> simp [same]
    have member : oid ∈ keys.filter fun key => key ∉ done :=
      mem_filter.mpr ⟨listed, decide_eq_true fresh⟩
    rw [erased, length_erase_of_mem member]
    have positive := length_pos_of_mem member
    omega
  exact splits commits.keys commits.keys_nodup (AList.mem_keys.mp inside)

def AllQueued (commits : ParentMap) (done : List ObjectId) (degrees : ObjectId → ℕ)
    (queue : List ObjectId) : Prop :=
  ∀ oid ∈ commits, oid ∉ done → degrees oid = 0 → oid ∈ queue

theorem Draining.enough (inv : Draining commits done degrees (oid :: queue)) (other : ObjectId) :
    (commits.revDeps oid).count other ≤ degrees other := by
  have isNew := (inv.ready oid mem_cons_self).2.1
  have inBatch := (inv.ready oid mem_cons_self).1
  rw [count_revDeps, inv.counts, count_eq_countP]
  refine countP_mono_left fun parent _ same => ?_
  rw [beq_iff_eq] at same
  subst same
  simp [inBatch, isNew]

theorem AllQueued.next (inv : Draining commits done degrees (oid :: queue))
    (queued : AllQueued commits done degrees (oid :: queue)) :
    AllQueued commits (oid :: done) (release degrees (commits.revDeps oid)).1
      (queue ++ (release degrees (commits.revDeps oid)).2.insertionSort (· ≤ ·)) := by
  intro other inside fresh zero
  rw [mem_cons, not_or] at fresh
  rw [release_degrees] at zero
  rw [mem_append, mem_insertionSort, (release_ready inv.enough).2]
  by_cases already : degrees other = 0
  · exact Or.inl ((mem_cons.mp (queued other inside fresh.2 already)).resolve_left fresh.1)
  · have bound := inv.enough other
    refine Or.inr ⟨count_pos_iff.mp (by omega), by omega⟩

theorem stuck_of_drain {fuel : ℕ} (inv : Draining commits done degrees queue)
    (queued : AllQueued commits done degrees queue) (enough : commits.left done < fuel)
    (inside : oid ∈ commits) (fresh : oid ∉ done) (missed : oid ∉ commits.drain fuel degrees queue) :
    ∃ parent, commits.ParentIn oid parent ∧ parent ∉ done ∧
      parent ∉ commits.drain fuel degrees queue := by
  induction fuel generalizing done queue degrees with
  | zero => omega
  | succ fuel ih =>
    cases queue with
    | nil =>
      have waits : degrees oid ≠ 0 := fun zero => by cases queued oid inside fresh zero
      rw [inv.counts, ne_eq, countP_eq_zero] at waits
      push Not at waits
      rcases waits with ⟨parent, named, stillToCome⟩
      simp only [decide_eq_true_eq] at stillToCome
      exact ⟨parent, ⟨named, stillToCome.1⟩, stillToCome.2, not_mem_nil⟩
    | cons first queue =>
      rcases inv.ready first mem_cons_self with ⟨firstInside, firstFresh, -⟩
      have fewer := left_cons firstInside firstFresh
      rw [drain, mem_cons, not_or] at missed
      rcases ih inv.next (queued.next inv) (by omega)
        (fun listed => (mem_cons.mp listed).elim missed.1 fresh) missed.2 with
        ⟨parent, isParent, notDone, notLater⟩
      rw [mem_cons, not_or] at notDone
      refine ⟨parent, isParent, notDone.2, ?_⟩
      rw [drain, mem_cons, not_or]
      exact ⟨notDone.1, notLater⟩

/-! ## The whole drain -/

def firstReady (commits : ParentMap) : List ObjectId :=
  (commits.keys.filter fun oid => commits.inDegree oid = 0).insertionSort (· ≤ ·)

def drained (commits : ParentMap) : List ObjectId :=
  commits.drain (commits.keys.length + 1) commits.inDegree commits.firstReady

theorem topoOrder_eq_drained (commits : ParentMap) : commits.topoOrder =
    if commits.drained.length ≠ commits.keys.length then
      .error "commit graph: cycle detected in pushed commits"
    else .ok commits.drained := rfl

theorem mem_firstReady : oid ∈ commits.firstReady ↔ oid ∈ commits ∧ commits.inDegree oid = 0 := by
  rw [firstReady, mem_insertionSort, mem_filter, decide_eq_true_eq, ← AList.mem_keys]

theorem nodup_firstReady (commits : ParentMap) : commits.firstReady.Nodup :=
  (perm_insertionSort _ _).nodup_iff.mpr (commits.keys_nodup.filter _)

theorem draining_start (commits : ParentMap) :
    Draining commits [] commits.inDegree commits.firstReady where
  counts oid := by simp [inDegree]
  ready oid queued := ⟨(mem_firstReady.mp queued).1, not_mem_nil, (mem_firstReady.mp queued).2⟩
  settled := by simp
  distinct := nodup_firstReady commits

theorem allQueued_start (commits : ParentMap) :
    AllQueued commits [] commits.inDegree commits.firstReady :=
  fun _ inside _ zero => mem_firstReady.mpr ⟨inside, zero⟩

theorem left_nil (commits : ParentMap) : commits.left [] = commits.keys.length := by
  simp [left]

theorem parentsFirst_drained (commits : ParentMap) : ParentsFirst commits [] commits.drained :=
  parentsFirst_drain (draining_start commits)

theorem ParentsFirst.idxOf_lt {order : List ObjectId} {parent : ObjectId}
    (first : ParentsFirst commits [] order) (listed : oid ∈ order)
    (isParent : commits.ParentIn oid parent) :
    parent ∈ order ∧ order.idxOf parent < order.idxOf oid := by
  rcases append_of_mem listed with ⟨before, after, rfl⟩
  have earlier := (first.before isParent.1 isParent.2).resolve_left not_mem_nil
  have distinct := first.nodup.1
  have absent : oid ∉ before := fun again =>
    (nodup_append.mp distinct).2.2 oid again oid mem_cons_self rfl
  refine ⟨mem_append_left _ earlier, ?_⟩
  rw [idxOf_append_of_mem earlier, idxOf_append_of_notMem absent, idxOf_cons_self]
  exact Nat.lt_add_right _ (idxOf_lt_length_of_mem earlier)

theorem mem_of_parentIn {parent : ObjectId} (isParent : commits.ParentIn oid parent) :
    oid ∈ commits := by
  by_contra outside
  have none_ : commits.lookup oid = none := AList.lookup_eq_none.mpr outside
  have named := isParent.1
  rw [parents, none_] at named
  exact not_mem_nil named

theorem acyclic_of_drained (all : ∀ oid ∈ commits, oid ∈ commits.drained) : commits.Acyclic := by
  have descends : ∀ {oid parent}, TransGen commits.ParentIn oid parent →
      commits.drained.idxOf parent < commits.drained.idxOf oid := by
    intro oid parent path
    have edge : ∀ {oid parent}, commits.ParentIn oid parent →
        commits.drained.idxOf parent < commits.drained.idxOf oid := fun isParent =>
      ((parentsFirst_drained commits).idxOf_lt (all _ (mem_of_parentIn isParent)) isParent).2
    induction path with
    | single isParent => exact edge isParent
    | tail _ isParent ih => exact (edge isParent).trans ih
  exact fun oid path => Nat.lt_irrefl _ (descends path)

theorem mem_drained_of_acyclic (acyclic : commits.Acyclic) (inside : oid ∈ commits) :
    oid ∈ commits.drained := by
  -- on the finitely many commits of the batch the ancestor relation is well founded
  let Older (parent oid : {oid // oid ∈ commits.keys.toFinset}) : Prop :=
    TransGen commits.ParentIn oid.1 parent.1
  have : IsTrans _ Older := ⟨fun _ _ _ first second => second.trans first⟩
  have : Std.Irrefl Older := ⟨fun oid => acyclic oid.1⟩
  have grounded : WellFounded Older := Finite.wellFounded_of_trans_of_irrefl _
  by_contra missed
  let missing : Set {oid // oid ∈ commits.keys.toFinset} := {oid | oid.1 ∉ commits.drained}
  have member : ∀ {oid}, oid ∈ commits → oid ∈ commits.keys.toFinset := fun inside =>
    mem_toFinset.mpr (AList.mem_keys.mp inside)
  rcases grounded.has_min missing ⟨⟨oid, member inside⟩, missed⟩ with ⟨oldest, isMissing, isOldest⟩
  have oldestIn : oldest.1 ∈ commits := AList.mem_keys.mpr (mem_toFinset.mp oldest.2)
  rcases stuck_of_drain (draining_start commits) (allQueued_start commits)
    (by rw [left_nil]; omega) oldestIn not_mem_nil isMissing with
    ⟨parent, isParent, -, parentMissing⟩
  exact isOldest ⟨parent, member isParent.2⟩ parentMissing (TransGen.single isParent)

theorem length_drained_iff :
    commits.drained.length = commits.keys.length ↔ commits.Acyclic := by
  rcases (parentsFirst_drained commits).nodup with ⟨distinct, inside, -⟩
  have within : commits.drained.Subperm commits.keys := subperm_of_subset distinct inside
  constructor
  · intro sameLength
    have all := within.perm_of_length_le sameLength.ge
    exact acyclic_of_drained fun oid held => all.mem_iff.mpr (AList.mem_keys.mp held)
  · intro acyclic
    refine le_antisymm within.length_le (commits.keys_nodup.subperm ?_).length_le
    exact fun oid held => mem_drained_of_acyclic acyclic (AList.mem_keys.mpr held)

theorem topoOrder_ok_iff :
    (∃ order, commits.topoOrder = .ok order) ↔ commits.Acyclic := by
  rw [← length_drained_iff, topoOrder_eq_drained]
  split_ifs with differs
  · simp [differs]
  · simp [not_ne_iff.mp differs]

/-! ## A part of a batch -/

/-- Some commits of a batch, with the parents in the batch of each. -/
structure PartOf (part commits : ParentMap) : Prop where
  within : ∀ oid parents, part.lookup oid = some parents → commits.lookup oid = some parents
  closed : ∀ oid ∈ part, ∀ parent, commits.ParentIn oid parent → parent ∈ part

namespace PartOf

variable {oid : ObjectId}

theorem lookup_eq (isPart : part.PartOf commits) (inside : oid ∈ part) :
    commits.lookup oid = part.lookup oid := by
  rcases Option.isSome_iff_exists.mp (AList.lookup_isSome.mpr inside) with ⟨parents, found⟩
  rw [found, isPart.within oid parents found]

theorem mem (isPart : part.PartOf commits) (inside : oid ∈ part) : oid ∈ commits := by
  rw [← AList.lookup_isSome, isPart.lookup_eq inside]
  exact AList.lookup_isSome.mpr inside

theorem parents_eq (isPart : part.PartOf commits) (inside : oid ∈ part) :
    part.parents oid = commits.parents oid := by
  rw [parents, parents, isPart.lookup_eq inside]

theorem inDegree_eq (isPart : part.PartOf commits) (inside : oid ∈ part) :
    part.inDegree oid = commits.inDegree oid := by
  rw [inDegree, inDegree, isPart.parents_eq inside]
  refine countP_congr fun parent named => ?_
  simp only [decide_eq_true_eq]
  exact ⟨isPart.mem, fun inBatch => isPart.closed oid inside parent ⟨named, inBatch⟩⟩

theorem count_revDeps_eq (isPart : part.PartOf commits) {other : ObjectId} (otherIn : other ∈ part) :
    (part.revDeps oid).count other = (commits.revDeps oid).count other := by
  rw [count_revDeps, count_revDeps, isPart.parents_eq otherIn]

theorem count_revDeps_eq_zero (isPart : part.PartOf commits) {other : ObjectId}
    (oidIn : oid ∈ commits) (outside : oid ∉ part) (otherIn : other ∈ part) :
    (commits.revDeps oid).count other = 0 := by
  rw [count_revDeps, count_eq_zero]
  exact fun named => outside (isPart.closed other otherIn oid ⟨named, oidIn⟩)

end PartOf

theorem filter_insertionSort_eq {group inPart : List ObjectId} (distinct : group.Nodup)
    (partDistinct : inPart.Nodup) (agree : ∀ oid, oid ∈ inPart ↔ oid ∈ group ∧ oid ∈ part) :
    (group.insertionSort (· ≤ ·)).filter (· ∈ part) = inPart.insertionSort (· ≤ ·) := by
  have sorted := (pairwise_insertionSort (· ≤ ·) group).filter fun oid => decide (oid ∈ part)
  refine List.Perm.eq_of_pairwise' sorted (pairwise_insertionSort (· ≤ ·) inPart) ?_
  have sortedDistinct := (perm_insertionSort (· ≤ ·) group).nodup_iff.mpr distinct
  have partSortedDistinct := (perm_insertionSort (· ≤ ·) inPart).nodup_iff.mpr partDistinct
  refine (perm_ext_iff_of_nodup (sortedDistinct.filter _) partSortedDistinct).mpr fun oid => ?_
  rw [mem_filter, mem_insertionSort, mem_insertionSort, decide_eq_true_eq, agree]

theorem left_cons_of_notMem (outside : oid ∉ commits) :
    commits.left (oid :: done) = commits.left done := by
  rw [left, left]
  congr 1
  refine filter_congr fun key listed => ?_
  have differs : key ≠ oid := fun same => outside (AList.mem_keys.mpr (same ▸ listed))
  simp [differs]

section Release

variable {oid : ObjectId} {degrees partDegrees : ObjectId → ℕ}

theorem PartOf.enough (isPart : part.PartOf commits)
    (bound : ∀ other, (commits.revDeps oid).count other ≤ degrees other)
    (agree : ∀ other ∈ part, partDegrees other = degrees other) (other : ObjectId) :
    (part.revDeps oid).count other ≤ partDegrees other := by
  by_cases otherIn : other ∈ part
  · rw [isPart.count_revDeps_eq otherIn, agree other otherIn]
    exact bound other
  · rw [count_eq_zero.mpr fun named => otherIn (mem_of_mem_revDeps named)]
    exact Nat.zero_le _

theorem PartOf.ready_eq (isPart : part.PartOf commits)
    (bound : ∀ other, (commits.revDeps oid).count other ≤ degrees other)
    (agree : ∀ other ∈ part, partDegrees other = degrees other) :
    ((release degrees (commits.revDeps oid)).2.insertionSort (· ≤ ·)).filter (· ∈ part) =
      (release partDegrees (part.revDeps oid)).2.insertionSort (· ≤ ·) := by
  rcases release_ready bound with ⟨distinct, becomesReady⟩
  rcases release_ready (isPart.enough bound agree) with ⟨partDistinct, partReady⟩
  refine filter_insertionSort_eq distinct partDistinct fun other => ?_
  rw [partReady, becomesReady]
  by_cases otherIn : other ∈ part
  · rw [← count_pos_iff, ← count_pos_iff, isPart.count_revDeps_eq otherIn,
      agree other otherIn]
    simp only [otherIn, and_true]
  · simp only [otherIn, and_false, iff_false, not_and]
    exact fun named => absurd (mem_of_mem_revDeps named) otherIn

end Release

theorem filter_drain (isPart : part.PartOf commits) {fuel partFuel : ℕ} {partDegrees : ObjectId → ℕ}
    (inv : Draining commits done degrees queue)
    (agree : ∀ oid ∈ part, partDegrees oid = degrees oid) (enough : commits.left done < fuel)
    (partEnough : part.left done < partFuel) :
    (commits.drain fuel degrees queue).filter (· ∈ part) =
      part.drain partFuel partDegrees (queue.filter (· ∈ part)) := by
  induction fuel generalizing partFuel done queue degrees partDegrees with
  | zero => omega
  | succ fuel ih =>
    cases queue with
    | nil => cases partFuel <;> rfl
    | cons oid queue =>
      rcases inv.ready oid mem_cons_self with ⟨inside, fresh, -⟩
      have fewer := left_cons inside fresh
      rw [drain]
      by_cases inPart : oid ∈ part
      · have partFewer := left_cons inPart fresh
        obtain ⟨partFuel, rfl⟩ : ∃ fuel, partFuel = fuel + 1 := ⟨partFuel - 1, by omega⟩
        rw [filter_cons_of_pos (by simpa), filter_cons_of_pos (by simpa), drain]
        have stillAgree : ∀ other ∈ part, (release partDegrees (part.revDeps oid)).1 other =
            (release degrees (commits.revDeps oid)).1 other := by
          intro other otherIn
          rw [release_degrees, release_degrees, isPart.count_revDeps_eq otherIn,
            agree other otherIn]
        have partLeft : part.left (oid :: done) < partFuel := by omega
        rw [ih inv.next stillAgree (by omega) partLeft, filter_append,
          isPart.ready_eq inv.enough agree]
      · have noneReady : (((release degrees (commits.revDeps oid)).2.insertionSort
            (· ≤ ·)).filter (· ∈ part)) = [] := by
          refine filter_eq_nil_iff.mpr fun other isReady otherIn => ?_
          rw [mem_insertionSort, (release_ready inv.enough).2] at isReady
          have zero := isPart.count_revDeps_eq_zero inside inPart (of_decide_eq_true otherIn)
          exact count_eq_zero.mp zero isReady.1
        have stillAgree : ∀ other ∈ part, partDegrees other =
            (release degrees (commits.revDeps oid)).1 other := by
          intro other otherIn
          rw [release_degrees, isPart.count_revDeps_eq_zero inside inPart otherIn,
            Nat.sub_zero, agree other otherIn]
        rw [filter_cons_of_neg (by simpa), filter_cons_of_neg (by simpa),
          ih inv.next stillAgree (by omega) ((left_cons_of_notMem inPart).trans_lt partEnough),
          filter_append, noneReady, append_nil]

theorem drained_part (isPart : part.PartOf commits) :
    part.drained = commits.drained.filter (· ∈ part) := by
  have starts : commits.firstReady.filter (· ∈ part) = part.firstReady := by
    refine filter_insertionSort_eq (commits.keys_nodup.filter _) (part.keys_nodup.filter _)
      fun oid => ?_
    simp only [mem_filter, ← AList.mem_keys, decide_eq_true_eq]
    constructor
    · rintro ⟨inside, zero⟩
      exact ⟨⟨isPart.mem inside, isPart.inDegree_eq inside ▸ zero⟩, inside⟩
    · rintro ⟨⟨-, zero⟩, inside⟩
      exact ⟨inside, (isPart.inDegree_eq inside).trans zero⟩
  rw [drained, drained, filter_drain isPart (draining_start commits)
    (fun oid inside => isPart.inDegree_eq inside) (by rw [left_nil]; omega)
    (by rw [left_nil]; exact Nat.lt_succ_self _), starts]

theorem drained_of_topoOrder {order : List ObjectId} (ordered : commits.topoOrder = .ok order) :
    commits.drained.length = commits.keys.length ∧ order = commits.drained := by
  rw [topoOrder_eq_drained] at ordered
  split_ifs at ordered with differs
  exact ⟨not_ne_iff.mp differs, (Except.ok.inj ordered).symm⟩

theorem PartOf.acyclic (isPart : part.PartOf commits) (acyclic : commits.Acyclic) :
    part.Acyclic := by
  intro oid path
  refine acyclic oid (TransGen.mono (fun child parent isParent => ?_) oid oid path)
  refine ⟨?_, isPart.mem isParent.2⟩
  rw [← isPart.parents_eq (mem_of_parentIn isParent)]
  exact isParent.1

theorem topoOrder_congr {other : ParentMap} (same : ∀ oid, other.lookup oid = commits.lookup oid) :
    other.topoOrder = commits.topoOrder := by
  have inBoth : ∀ oid, oid ∈ other ↔ oid ∈ commits := fun oid => by
    rw [← AList.lookup_isSome, same, AList.lookup_isSome]
  have isPart : other.PartOf commits :=
    ⟨fun oid parents found => same oid ▸ found,
      fun _ _ parent isParent => (inBoth parent).mpr isParent.2⟩
  have keys : other.keys.Perm commits.keys :=
    (perm_ext_iff_of_nodup other.keys_nodup commits.keys_nodup).mpr inBoth
  have drained : other.drained = commits.drained := by
    rw [drained_part isPart, filter_eq_self]
    intro oid listed
    exact decide_eq_true ((inBoth oid).mpr ((parentsFirst_drained commits).nodup.2.1 oid listed))
  rw [topoOrder_eq_drained, topoOrder_eq_drained, drained, keys.length_eq]

/-- A batch is ordered exactly when it has no cycle. The order lists each commit once and after its
parents in the batch, is the same for every listing of the batch, and orders every part that holds
its own parents as that part is ordered alone. -/
theorem topoOrder_exact (commits : ParentMap) :
    ((∃ order, commits.topoOrder = .ok order) ↔ commits.Acyclic) ∧
      (∀ other : ParentMap, (∀ oid, other.lookup oid = commits.lookup oid) →
        other.topoOrder = commits.topoOrder) ∧
      ∀ order, commits.topoOrder = .ok order →
        order.Perm commits.keys ∧
        (∀ before oid after, order = before ++ oid :: after →
          ∀ parent, commits.ParentIn oid parent → parent ∈ before) ∧
        ∀ part : ParentMap, part.PartOf commits →
          part.topoOrder = .ok (order.filter (· ∈ part)) := by
  refine ⟨topoOrder_ok_iff, fun other same => topoOrder_congr same, fun order ordered => ?_⟩
  rcases topoOrder_eq_ok ordered with ⟨listsAll, first⟩
  refine ⟨listsAll, ?_, fun part isPart => ?_⟩
  · rintro before oid after rfl parent isParent
    exact (first.before isParent.1 isParent.2).resolve_left not_mem_nil
  · rcases drained_of_topoOrder ordered with ⟨sameLength, rfl⟩
    have partLength := length_drained_iff.mpr (isPart.acyclic (length_drained_iff.mp sameLength))
    rw [topoOrder_eq_drained, if_neg (not_ne_iff.mpr partLength), drained_part isPart]

end Enroute.ParentMap
