import Enroute.GraphStore.Walk
import Enroute.Lib.Meet

/-!
# Merge bases

The best common ancestors of two commits: those no other common ancestor descends from. Each side
is walked down in bands, and the walk stops once each frontier lies inside what the other side
reached, long before either history is exhausted. What is common so far is then thinned, newest
first: taking a commit strikes out what it reaches.
-/

namespace Enroute

open List Relation

/-- One side of a merge-base walk: what is still to be expanded, and what is reached. -/
structure MergeSide where
  frontier : Finset ℕ
  reach : Finset ℕ

namespace CommitIndex

/-- Expand one side down to the floor; a frontier wholly below it is left alone. -/
def mergeBaseSide (index : CommitIndex) (floor : ℕ) (side : MergeSide) :
    Except String MergeSide :=
  if ∀ seq ∈ side.frontier, seq < floor then .ok side
  else do
    let (visited, below) ← index.expandAncestors (side.frontier.sort (· ≤ ·)) floor
    return { frontier := below, reach := side.reach ∪ visited ∪ below }

def mergeBand (index : CommitIndex) (floor : ℕ) (left right : MergeSide) :
    Except String (MergeSide × MergeSide) := do
  let left ← index.mergeBaseSide floor left
  let right ← index.mergeBaseSide floor right
  return (left, right)

def mergeRounds (index : CommitIndex) (maxCommits : ℕ) :
    ℕ → BandPolicy → MergeSide → MergeSide → Except String (MergeSide × MergeSide × Bool)
  | 0, _, left, right => .ok (left, right, false)
  | rounds + 1, policy, left, right =>
    match (left.frontier ∪ right.frontier).max with
    | none => .ok (left, right, false)
    | some ceil => do
        let (left, right) ← index.mergeBand (ceil - (policy.width - 1)) left right
        -- Whatever is left to explore is common, and so dominated.
        if left.frontier ⊆ right.reach ∧ right.frontier ⊆ left.reach then
          return (left, right, false)
        else if maxCommits < left.reach.card + right.reach.card then
          return (left, right, true)
        else index.mergeRounds maxCommits rounds policy.grow left right

def maximal (index : CommitIndex) : List ℕ → Finset ℕ → Except String (List ℕ)
  | [], _ => .ok []
  | seq :: common, candidates =>
    if seq ∈ candidates then
      let left := candidates.erase seq
      match left.min with
      | none => .ok [seq]
      | some floor => do
          let (visited, _) ← index.expandAncestors [seq] floor
          let bases ← index.maximal common (left \ visited)
          return seq :: bases
    else index.maximal common candidates

/-- The best common ancestors of two commits, and whether the walk stopped at its budget. -/
def bandedMergeBases (index : CommitIndex) (a b : ℕ) (policy : BandPolicy) (maxCommits : ℕ) :
    Except String (List ℕ × Bool) :=
  if a = b then .ok ([a], false)
  else do
    let (left, right, exhausted) ← index.mergeRounds maxCommits (max a b + 1) policy
      ⟨{a}, {a}⟩ ⟨{b}, {b}⟩
    let common := left.reach ∩ right.reach
    let bases ← index.maximal (common.sort (· ≥ ·)) common
    return (bases, exhausted)

def IsAncestor (index : CommitIndex) (ancestor descendant : ℕ) : Prop :=
  ReflTransGen index.HasParent descendant ancestor

def IsMergeBase (index : CommitIndex) (a b seq : ℕ) : Prop :=
  (index.IsAncestor seq a ∧ index.IsAncestor seq b) ∧
    ∀ other, index.IsAncestor other a → index.IsAncestor other b → index.IsAncestor seq other →
      other = seq

variable {index : CommitIndex}

theorem IsAncestor.le (monotone : index.SeqMonotone) {ancestor descendant : ℕ}
    (isAncestor : index.IsAncestor ancestor descendant) : ancestor ≤ descendant :=
  Descent.le_of_path monotone isAncestor

theorem IsAncestor.antisymm (monotone : index.SeqMonotone) {one other : ℕ}
    (above : index.IsAncestor one other) (below : index.IsAncestor other one) : one = other :=
  le_antisymm (above.le monotone) (below.le monotone)

theorem IsAncestor.mem_keys (closed : index.ParentClosed) {ancestor descendant : ℕ}
    (known : descendant ∈ index.keys) (isAncestor : index.IsAncestor ancestor descendant) :
    ancestor ∈ index.keys := by
  rcases isAncestor.cases_tail with rfl | ⟨child, -, isParent⟩
  · exact known
  · exact closed child ancestor isParent

/-! ## One side -/

/-- What a side keeps: it has followed every parent of what it reached, its frontier apart. -/
def Searched (index : CommitIndex) (root : ℕ) (side : MergeSide) : Prop :=
  Meet.Explored index.HasParent root side.reach side.frontier

theorem searched_start (index : CommitIndex) (root : ℕ) :
    index.Searched root ⟨{root}, {root}⟩ where
  root_mem := by simp
  frontier_subset := by simp
  sound := fun node isRoot => by
    obtain rfl : node = root := by simpa using isRoot
    exact .refl
  closed := fun node isRoot notWaiting => absurd isRoot notWaiting

variable {floor maxCommits rounds a seq : ℕ} {next side left right : MergeSide}
  {policy : BandPolicy} {candidates : Finset ℕ}

theorem mergeBaseSide_cases (stepped : index.mergeBaseSide floor side = .ok next) :
    ((∀ seq ∈ side.frontier, seq < floor) ∧ next = side) ∨
      ∃ visited below, index.expandAncestors (side.frontier.sort (· ≤ ·)) floor =
        .ok (visited, below) ∧ next = ⟨below, side.reach ∪ visited ∪ below⟩ := by
  rw [mergeBaseSide] at stepped
  split at stepped
  next allBelow =>
    cases stepped
    exact Or.inl ⟨allBelow, rfl⟩
  next =>
    rw [Except.bind_eq_ok_iff] at stepped
    rcases stepped with ⟨⟨visited, below⟩, expanded, built⟩
    cases built
    exact Or.inr ⟨visited, below, expanded, rfl⟩

theorem mergeBaseSide_below (stepped : index.mergeBaseSide floor side = .ok next) :
    ∀ seq ∈ next.frontier, seq < floor := by
  rcases mergeBaseSide_cases stepped with ⟨allBelow, rfl⟩ | ⟨visited, below, expanded, rfl⟩
  · exact allBelow
  · exact fun seq seqMem => ((expandAncestors_exact expanded seq).2.mp seqMem).1

theorem Searched.step {root : ℕ} (search : index.Searched root side)
    (stepped : index.mergeBaseSide floor side = .ok next) : index.Searched root next := by
  rcases mergeBaseSide_cases stepped with ⟨-, rfl⟩ | ⟨visited, below, expanded, rfl⟩
  · exact search
  -- Everything reached from the frontier lands in `visited` or `below`.
  have lands : ∀ seq, (seq ∈ visited ∨ seq ∈ below) ↔ ∃ seed ∈ side.frontier,
      ReflTransGen (Descent.Above index.HasParent floor) seed seq := by
    intro seq
    rw [(expandAncestors_exact expanded seq).1, (expandAncestors_exact expanded seq).2,
      ← or_and_right]
    simp only [Finset.mem_sort, and_iff_right (le_or_gt floor seq)]
  have follows : ∀ seq, (seq ∈ visited ∨ seq ∈ below) → seq ∉ below →
      ∀ parent, index.HasParent seq parent → parent ∈ visited ∨ parent ∈ below := by
    intro seq met notBelow parent isParent
    rcases (lands seq).mp met with ⟨seed, seedMem, path⟩
    have above : floor ≤ seq :=
      ((expandAncestors_exact expanded seq).1.mp (met.resolve_right notBelow)).1
    exact (lands parent).mpr ⟨seed, seedMem, path.tail ⟨above, isParent⟩⟩
  refine ⟨?_, ?_, ?_, ?_⟩
  · have rootMem : root ∈ side.reach := search.root_mem
    simp [rootMem]
  · intro seq seqMem
    have waits : seq ∈ below := seqMem
    simp [waits]
  · intro seq seqMem
    have cases : seq ∈ side.reach ∨ seq ∈ visited ∨ seq ∈ below := by
      simpa [or_assoc] using seqMem
    rcases cases with before | met
    · exact search.sound seq before
    · rcases (lands seq).mp met with ⟨seed, seedMem, path⟩
      exact (search.sound seed (search.frontier_subset seedMem)).trans (Descent.above_path path)
  · intro seq seqMem notWaiting parent isParent
    have cases : seq ∈ side.reach ∨ seq ∈ visited ∨ seq ∈ below := by
      simpa [or_assoc] using seqMem
    have kept : parent ∈ side.reach ∨ parent ∈ visited ∨ parent ∈ below := by
      rcases cases with before | met
      · by_cases wasWaiting : seq ∈ side.frontier
        · have seeded := (lands seq).mpr ⟨seq, wasWaiting, .refl⟩
          exact Or.inr (follows seq seeded notWaiting parent isParent)
        · exact Or.inl (search.closed seq before wasWaiting parent isParent)
      · exact Or.inr (follows seq met notWaiting parent isParent)
    simpa [or_assoc] using kept

theorem mergeBaseSide_isOk (closed : index.ParentClosed)
    (known : ∀ seq ∈ side.frontier, seq ∈ index.keys) (floor : ℕ) :
    ∃ next, index.mergeBaseSide floor side = .ok next ∧
      ∀ seq ∈ next.frontier, seq ∈ index.keys := by
  rw [mergeBaseSide]
  split
  next => exact ⟨side, rfl, known⟩
  next =>
    have seeded : ∀ seq ∈ side.frontier.sort (· ≤ ·), seq ∈ index.keys := fun seq seqMem =>
      known seq ((Finset.mem_sort _).mp seqMem)
    rcases expandAncestors_isOk closed seeded floor with ⟨⟨visited, below⟩, expanded⟩
    rw [expanded]
    refine ⟨_, rfl, fun seq seqMem => ?_⟩
    rcases (expandAncestors_exact expanded seq).2.mp seqMem with ⟨-, seed, seedMem, path⟩
    rcases path.cases_tail with rfl | ⟨before, -, last⟩
    · exact seeded seq seedMem
    · exact closed before seq last.2

/-! ## The rounds -/

theorem mergeBand_eq_ok_iff {nextLeft nextRight : MergeSide} :
    index.mergeBand floor left right = .ok (nextLeft, nextRight) ↔
      index.mergeBaseSide floor left = .ok nextLeft ∧
        index.mergeBaseSide floor right = .ok nextRight := by
  simp only [mergeBand, Except.bind_eq_ok_iff, Except.pure_eq_ok_iff, Prod.mk.injEq]
  constructor
  · rintro ⟨_, steppedLeft, _, steppedRight, rfl, rfl⟩
    exact ⟨steppedLeft, steppedRight⟩
  · rintro ⟨steppedLeft, steppedRight⟩
    exact ⟨_, steppedLeft, _, steppedRight, rfl, rfl⟩

theorem mergeBand_below {nextLeft nextRight : MergeSide}
    (banded : index.mergeBand floor left right = .ok (nextLeft, nextRight)) :
    (∀ seq ∈ nextLeft.frontier, seq < floor) ∧ ∀ seq ∈ nextRight.frontier, seq < floor :=
  ⟨mergeBaseSide_below (mergeBand_eq_ok_iff.mp banded).1,
    mergeBaseSide_below (mergeBand_eq_ok_iff.mp banded).2⟩

theorem mergeRounds_done (top : (left.frontier ∪ right.frontier).max = none) :
    index.mergeRounds maxCommits rounds policy left right = .ok (left, right, false) := by
  cases rounds with
  | zero => rfl
  | succ rounds => rw [mergeRounds, top]

theorem frontiers_eq_empty (top : (left.frontier ∪ right.frontier).max = none) :
    left.frontier = ∅ ∧ right.frontier = ∅ := by
  rw [← Finset.union_eq_empty]
  exact Finset.max_eq_bot.mp top

theorem ceil_lt {ceil bound : ℕ} (top : (left.frontier ∪ right.frontier).max = some ceil)
    (leftBelow : ∀ seq ∈ left.frontier, seq < bound)
    (rightBelow : ∀ seq ∈ right.frontier, seq < bound) : ceil < bound := by
  rcases Finset.mem_union.mp (Finset.mem_of_max top) with inLeft | inRight
  · exact leftBelow ceil inLeft
  · exact rightBelow ceil inRight

/-- The rounds explore both sides, and stop short of their budget only once each frontier lies
inside what the other side reached. -/
theorem mergeRounds_searched {b : ℕ} {lastLeft lastRight : MergeSide} {exhausted : Bool}
    (searchLeft : index.Searched a left) (searchRight : index.Searched b right)
    (leftBelow : ∀ seq ∈ left.frontier, seq < rounds)
    (rightBelow : ∀ seq ∈ right.frontier, seq < rounds)
    (walked : index.mergeRounds maxCommits rounds policy left right =
      .ok (lastLeft, lastRight, exhausted)) :
    index.Searched a lastLeft ∧ index.Searched b lastRight ∧ (exhausted = false →
      lastLeft.frontier ⊆ lastRight.reach ∧ lastRight.frontier ⊆ lastLeft.reach) := by
  induction rounds generalizing policy left right with
  | zero =>
    cases walked
    exact ⟨searchLeft, searchRight, fun _ =>
      ⟨fun seq seqMem => absurd (leftBelow seq seqMem) (Nat.not_lt_zero seq),
        fun seq seqMem => absurd (rightBelow seq seqMem) (Nat.not_lt_zero seq)⟩⟩
  | succ rounds ih =>
    rcases top : (left.frontier ∪ right.frontier).max with _ | ceil
    · rw [mergeRounds_done top] at walked
      cases walked
      rcases frontiers_eq_empty top with ⟨noLeft, noRight⟩
      exact ⟨searchLeft, searchRight, fun _ => by simp [noLeft, noRight]⟩
    · rw [mergeRounds, top] at walked
      rw [Except.bind_eq_ok_iff] at walked
      rcases walked with ⟨⟨nextLeft, nextRight⟩, banded, walked⟩
      rcases mergeBand_eq_ok_iff.mp banded with ⟨steppedLeft, steppedRight⟩
      have leftNext := searchLeft.step steppedLeft
      have rightNext := searchRight.step steppedRight
      dsimp only at walked
      split at walked
      next common =>
        cases walked
        exact ⟨leftNext, rightNext, fun _ => common⟩
      next =>
        split at walked
        next =>
          cases walked
          exact ⟨leftNext, rightNext, fun inBudget => by cases inBudget⟩
        next =>
          have isBelow := ceil_lt top leftBelow rightBelow
          rcases mergeBand_below banded with ⟨leftUnder, rightUnder⟩
          exact ih leftNext rightNext (fun seq seqMem => by have := leftUnder seq seqMem; omega)
            (fun seq seqMem => by have := rightUnder seq seqMem; omega) walked

section

variable (leftBelow : ∀ seq ∈ left.frontier, seq < rounds)
  (rightBelow : ∀ seq ∈ right.frontier, seq < rounds)

include leftBelow rightBelow

theorem mergeRounds_of_le {more : ℕ} (enough : rounds ≤ more) :
    index.mergeRounds maxCommits more policy left right =
      index.mergeRounds maxCommits rounds policy left right := by
  induction rounds generalizing more policy left right with
  | zero =>
    rcases top : (left.frontier ∪ right.frontier).max with _ | ceil
    · rw [mergeRounds_done top, mergeRounds_done top]
    · exact absurd (ceil_lt top leftBelow rightBelow) (Nat.not_lt_zero ceil)
  | succ rounds ih =>
    rcases top : (left.frontier ∪ right.frontier).max with _ | ceil
    · rw [mergeRounds_done top, mergeRounds_done top]
    · have isBelow := ceil_lt top leftBelow rightBelow
      rcases Nat.exists_eq_add_of_le' (Nat.one_le_of_lt enough) with ⟨more, rfl⟩
      rw [mergeRounds, mergeRounds, top]
      cases banded : index.mergeBand (ceil - (policy.width - 1)) left right with
      | error message =>
        simp only [banded]
        rfl
      | ok round =>
        rcases mergeBand_below banded with ⟨leftUnder, rightUnder⟩
        have again := @ih round.1 round.2 policy.grow
          (fun seq seqMem => by have := leftUnder seq seqMem; omega)
          (fun seq seqMem => by have := rightUnder seq seqMem; omega) more (by omega)
        simp only [banded, Except.ok_bind, again]

end

theorem mergeRounds_isOk (closed : index.ParentClosed)
    (leftKnown : ∀ seq ∈ left.frontier, seq ∈ index.keys)
    (rightKnown : ∀ seq ∈ right.frontier, seq ∈ index.keys) :
    ∃ result, index.mergeRounds maxCommits rounds policy left right = .ok result := by
  induction rounds generalizing policy left right with
  | zero => exact ⟨_, rfl⟩
  | succ rounds ih =>
    rcases top : (left.frontier ∪ right.frontier).max with _ | ceil
    · exact ⟨_, mergeRounds_done top⟩
    · rcases mergeBaseSide_isOk closed leftKnown (ceil - (policy.width - 1)) with
        ⟨nextLeft, steppedLeft, nextLeftKnown⟩
      rcases mergeBaseSide_isOk closed rightKnown (ceil - (policy.width - 1)) with
        ⟨nextRight, steppedRight, nextRightKnown⟩
      rw [mergeRounds, top]
      simp only [mergeBand_eq_ok_iff.mpr ⟨steppedLeft, steppedRight⟩, Except.ok_bind]
      split
      next => exact ⟨_, rfl⟩
      next =>
        split
        next => exact ⟨_, rfl⟩
        next => exact ih nextLeftKnown nextRightKnown

/-! ## Thinning what is common -/

theorem mem_visited_iff (monotone : index.SeqMonotone) {taken : ℕ} {left visited : Finset ℕ}
    {below : Finset ℕ} (lowest : left.min = some floor)
    (expanded : index.expandAncestors [taken] floor = .ok (visited, below)) (candidate : seq ∈ left) :
    seq ∈ visited ↔ ReflTransGen index.HasParent taken seq := by
  have above : floor ≤ seq := Finset.min_le_of_eq candidate lowest
  rw [(expandAncestors_exact expanded seq).1, and_iff_right above]
  constructor
  · rintro ⟨seed, seedMem, path⟩
    cases mem_singleton.mp seedMem
    exact Descent.above_path path
  · exact fun path => ⟨taken, mem_singleton_self taken,
      Descent.above_of_path monotone path above⟩

theorem coe_sdiff_visited (monotone : index.SeqMonotone) {taken : ℕ} {visited below : Finset ℕ}
    (lowest : (candidates.erase taken).min = some floor)
    (expanded : index.expandAncestors [taken] floor = .ok (visited, below)) :
    ((candidates.erase taken \ visited : Finset ℕ) : Set ℕ) =
      ↑candidates \ {seq | ReflTransGen index.HasParent taken seq} := by
  ext seq
  simp only [Finset.coe_sdiff, Set.mem_sdiff, Finset.mem_coe, Set.mem_ofPred_eq]
  constructor
  · rintro ⟨isLeft, notVisited⟩
    exact ⟨Finset.mem_of_mem_erase isLeft,
      fun path => notVisited ((mem_visited_iff monotone lowest expanded isLeft).mpr path)⟩
  · rintro ⟨isOther, notReached⟩
    have isLeft : seq ∈ candidates.erase taken := by
      refine Finset.mem_erase.mpr ⟨?_, isOther⟩
      rintro rfl
      exact notReached .refl
    exact ⟨isLeft, fun visit =>
      notReached ((mem_visited_iff monotone lowest expanded isLeft).mp visit)⟩

theorem maximal_exact (monotone : index.SeqMonotone) {common : List ℕ} {bases : List ℕ}
    (descending : common.Pairwise (· > ·)) (listed : ∀ seq ∈ candidates, seq ∈ common)
    (thinned : index.maximal common candidates = .ok bases) :
    bases.Sublist common ∧ ∀ seq, seq ∈ bases ↔ Meet.Top index.HasParent candidates seq := by
  induction common generalizing candidates bases with
  | nil =>
    cases thinned
    exact ⟨.slnil, fun seq => iff_of_false not_mem_nil
      fun isTop => absurd (listed seq isTop.1) not_mem_nil⟩
  | cons taken common ih =>
    rcases pairwise_cons.mp descending with ⟨newest, descendingRest⟩
    rw [maximal] at thinned
    split at thinned
    next isCandidate =>
      -- The newest candidate is topmost: whatever reaches it is at least as new.
      have isTop : Meet.Top index.HasParent candidates taken := by
        refine ⟨isCandidate, fun above isAbove path => ?_⟩
        have older : taken ≤ above := Descent.le_of_path monotone path
        rcases mem_cons.mp (listed above isAbove) with same | later
        · exact same
        · exact absurd (newest above later) (by omega)
      have rest : ∀ seq ∈ candidates.erase taken, seq ∈ common := by
        intro seq seqMem
        rcases Finset.mem_erase.mp seqMem with ⟨different, isOther⟩
        exact (mem_cons.mp (listed seq isOther)).resolve_left different
      rcases lowest : (candidates.erase taken).min with _ | floor
      · simp only [lowest] at thinned
        cases thinned
        have alone : candidates.erase taken = ∅ := Finset.min_eq_top.mp lowest
        refine ⟨by simp, fun seq => ?_⟩
        rw [mem_singleton, Meet.top_iff_of_top isTop]
        refine (or_iff_left ?_).symm
        rintro ⟨⟨isOther, missed⟩, -⟩
        have different : seq ≠ taken := by
          rintro rfl
          exact missed .refl
        have others := Finset.mem_erase.mpr ⟨different, Finset.mem_coe.mp isOther⟩
        rw [alone] at others
        exact absurd others (Finset.notMem_empty seq)
      · simp only [lowest, Except.bind_eq_ok_iff, Except.pure_eq_ok_iff] at thinned
        rcases thinned with ⟨⟨visited, below⟩, expanded, others, thinnedRest, rfl⟩
        rcases ih descendingRest (fun seq seqMem => rest seq (Finset.mem_sdiff.mp seqMem).1)
          thinnedRest with ⟨sublist, exactly⟩
        refine ⟨sublist.cons_cons taken, fun seq => ?_⟩
        rw [mem_cons, exactly, coe_sdiff_visited monotone lowest expanded,
          ← Meet.top_iff_of_top isTop]
    next notCandidate =>
      have rest : ∀ seq ∈ candidates, seq ∈ common := by
        intro seq seqMem
        refine (mem_cons.mp (listed seq seqMem)).resolve_left ?_
        rintro rfl
        exact notCandidate seqMem
      rcases ih descendingRest rest thinned with ⟨sublist, exactly⟩
      exact ⟨sublist.cons taken, exactly⟩

theorem maximal_isOk (closed : index.ParentClosed) {common : List ℕ}
    (known : ∀ seq ∈ candidates, seq ∈ index.keys) :
    ∃ bases, index.maximal common candidates = .ok bases := by
  induction common generalizing candidates with
  | nil => exact ⟨[], rfl⟩
  | cons taken common ih =>
    rw [maximal]
    split
    next isCandidate =>
      rcases lowest : (candidates.erase taken).min with _ | floor
      · simp only [lowest]
        exact ⟨[taken], rfl⟩
      · have seeded : ∀ seed ∈ [taken], seed ∈ index.keys := fun seed seedMem => by
          cases mem_singleton.mp seedMem
          exact known taken isCandidate
        rcases expandAncestors_isOk closed seeded floor with ⟨⟨visited, below⟩, expanded⟩
        rcases @ih (candidates.erase taken \ visited) fun seq seqMem =>
          known seq (Finset.mem_of_mem_erase (Finset.mem_sdiff.mp seqMem).1) with
          ⟨bases, thinned⟩
        simp only [lowest, expanded, Except.ok_bind, thinned]
        exact ⟨_, rfl⟩
    next => exact ih known

/-! ## The merge bases -/

theorem isMergeBase_self (monotone : index.SeqMonotone) : index.IsMergeBase a a seq ↔ seq = a := by
  constructor
  · rintro ⟨⟨isAncestor, -⟩, topmost⟩
    exact (topmost a .refl .refl isAncestor).symm
  · rintro rfl
    exact ⟨⟨.refl, .refl⟩, fun other below _ above => below.antisymm monotone above⟩

theorem isMergeBase_iff_top {b : ℕ} : index.IsMergeBase a b seq ↔
    Meet.Top index.HasParent {seq | ReflTransGen index.HasParent a seq ∧
      ReflTransGen index.HasParent b seq} seq :=
  and_congr_right' ⟨fun topmost above isAbove => topmost above isAbove.1 isAbove.2,
    fun topmost other fromA fromB => topmost other ⟨fromA, fromB⟩⟩

theorem frontier_start {property : ℕ → Prop} {root : ℕ} (holds : property root) :
    ∀ seq ∈ (⟨{root}, {root}⟩ : MergeSide).frontier, property seq := by
  intro seq isStart
  cases Finset.mem_singleton.mp isStart
  exact holds

/-- The walk for merge bases ends, succeeds on a closed index, lists common ancestors newest first
and each once, and lists exactly the best ones unless it stopped at its budget. -/
theorem bandedMergeBases_exact (index : CommitIndex) (a b : ℕ) (policy : BandPolicy)
    (maxCommits : ℕ) (monotone : index.SeqMonotone) :
    (∀ more, max a b + 1 ≤ more →
      index.mergeRounds maxCommits more policy ⟨{a}, {a}⟩ ⟨{b}, {b}⟩ =
        index.mergeRounds maxCommits (max a b + 1) policy ⟨{a}, {a}⟩ ⟨{b}, {b}⟩) ∧
    (index.ParentClosed → a ∈ index.keys → b ∈ index.keys →
      ∃ result, index.bandedMergeBases a b policy maxCommits = .ok result) ∧
    ∀ bases exhausted, index.bandedMergeBases a b policy maxCommits = .ok (bases, exhausted) →
      bases.Pairwise (· > ·) ∧
      (exhausted = false → ∀ seq, seq ∈ bases ↔ index.IsMergeBase a b seq) ∧
      ∀ seq ∈ bases, index.IsAncestor seq a ∧ index.IsAncestor seq b := by
  have aBelow : a < max a b + 1 := Nat.lt_succ_of_le (le_max_left a b)
  have bBelow : b < max a b + 1 := Nat.lt_succ_of_le (le_max_right a b)
  refine ⟨fun more => mergeRounds_of_le (frontier_start aBelow)
    (frontier_start bBelow), ?_, ?_⟩
  · intro closed knownA knownB
    rw [bandedMergeBases]
    split
    next => exact ⟨_, rfl⟩
    next =>
      have walks : ∃ result, index.mergeRounds maxCommits (max a b + 1) policy ⟨{a}, {a}⟩
          ⟨{b}, {b}⟩ = .ok result :=
        mergeRounds_isOk closed (frontier_start knownA) (frontier_start knownB)
      rcases walks with ⟨⟨left, right, exhausted⟩, rounds⟩
      have searchLeft := (mergeRounds_searched (index.searched_start a) (index.searched_start b)
        (frontier_start aBelow) (frontier_start bBelow) rounds).1
      have commonKnown : ∀ seq ∈ left.reach ∩ right.reach, seq ∈ index.keys := fun seq seqMem =>
        IsAncestor.mem_keys closed knownA
          (searchLeft.sound seq (Finset.mem_inter.mp seqMem).1)
      rcases @maximal_isOk index _ closed ((left.reach ∩ right.reach).sort (· ≥ ·)) commonKnown with
        ⟨bases, thinned⟩
      simp only [rounds, Except.ok_bind, thinned]
      exact ⟨_, rfl⟩
  · intro bases exhausted walked
    rw [bandedMergeBases] at walked
    split at walked
    next same =>
      cases walked
      subst same
      refine ⟨pairwise_singleton _ _, fun _ seq => ?_, fun seq seqMem => ?_⟩
      · rw [mem_singleton, isMergeBase_self monotone]
      · cases mem_singleton.mp seqMem
        exact ⟨.refl, .refl⟩
    next =>
      simp only [Except.bind_eq_ok_iff, Except.pure_eq_ok_iff, Prod.mk.injEq] at walked
      rcases walked with ⟨⟨left, right, stopped⟩, rounds, found, thinned, rfl, rfl⟩
      rcases mergeRounds_searched (index.searched_start a) (index.searched_start b)
        (frontier_start aBelow) (frontier_start bBelow) rounds with
        ⟨searchLeft, searchRight, met⟩
      have descending := (left.reach ∩ right.reach).sortedGT_sort.pairwise
      rcases maximal_exact monotone descending (fun seq => (Finset.mem_sort _).mpr) thinned with
        ⟨sublist, exactly⟩
      rw [Finset.coe_inter] at exactly
      refine ⟨descending.sublist sublist, fun inBudget seq => ?_, fun seq seqMem => ?_⟩
      · rcases met inBudget with ⟨leftMet, rightMet⟩
        rw [exactly, isMergeBase_iff_top]
        exact Meet.top_met_iff (fun _ _ below above => IsAncestor.antisymm monotone above below)
          searchLeft searchRight leftMet rightMet
      · rcases ((exactly seq).mp seqMem).1 with ⟨inLeft, inRight⟩
        exact ⟨searchLeft.sound seq inLeft, searchRight.sound seq inRight⟩

def crissCross : CommitIndex :=
  [⟨0, ⟨[], 0⟩⟩, ⟨1, ⟨[0], 1⟩⟩, ⟨2, ⟨[0], 2⟩⟩, ⟨3, ⟨[1, 2], 3⟩⟩, ⟨4, ⟨[2, 1], 4⟩⟩].toAList

/-- Two branches that have each merged the other have two merge bases. -/
theorem bandedMergeBases_exact_crissCross :
    crissCross.bandedMergeBases 3 4 (.new 8 (by decide)) 100 = .ok ([2, 1], false) ∧
      crissCross.IsMergeBase 3 4 2 ∧ crissCross.IsMergeBase 3 4 1 ∧
        ¬crissCross.IsMergeBase 3 4 0 := by
  have monotone : crissCross.SeqMonotone := seqMonotone_of_entries (by decide)
  have left : crissCross.mergeBaseSide 0 ⟨{3}, {3}⟩ = .ok ⟨∅, {0, 1, 2, 3}⟩ := by
    have expanded : crissCross.expandAncestors [3] 0 = .ok ([1, 0, 2, 3].toFinset, ∅) := rfl
    have reached : ({3} ∪ [1, 0, 2, 3].toFinset ∪ ∅ : Finset ℕ) = {0, 1, 2, 3} := by decide
    rw [mergeBaseSide, if_neg (by decide), Finset.sort_singleton, expanded, Except.ok_bind,
      ← reached]
    rfl
  have right : crissCross.mergeBaseSide 0 ⟨{4}, {4}⟩ = .ok ⟨∅, {0, 1, 2, 4}⟩ := by
    have expanded : crissCross.expandAncestors [4] 0 = .ok ([2, 0, 1, 4].toFinset, ∅) := rfl
    have reached : ({4} ∪ [2, 0, 1, 4].toFinset ∪ ∅ : Finset ℕ) = {0, 1, 2, 4} := by decide
    rw [mergeBaseSide, if_neg (by decide), Finset.sort_singleton, expanded, Except.ok_bind,
      ← reached]
    rfl
  have rounds : crissCross.mergeRounds 100 5 (.new 8 (by decide)) ⟨{3}, {3}⟩ ⟨{4}, {4}⟩ =
      .ok (⟨∅, {0, 1, 2, 3}⟩, ⟨∅, {0, 1, 2, 4}⟩, false) := by
    have banded := mergeBand_eq_ok_iff.mpr ⟨left, right⟩
    rw [mergeRounds]
    change (crissCross.mergeBand 0 ⟨{3}, {3}⟩ ⟨{4}, {4}⟩ >>= _) = _
    rw [banded]
    rfl
  have common : (({0, 1, 2, 3} ∩ {0, 1, 2, 4} : Finset ℕ)).sort (· ≥ ·) = [2, 1, 0] := by
    have listed : ({0, 1, 2, 3} ∩ {0, 1, 2, 4} : Finset ℕ) = [2, 1, 0].toFinset := by decide
    rw [listed]
    exact (toFinset_sort (· ≥ ·) (by decide)).mpr (by decide)
  have thinned : crissCross.maximal [2, 1, 0] ({0, 1, 2, 3} ∩ {0, 1, 2, 4}) = .ok [2, 1] := by
    decide +kernel
  have walked : crissCross.bandedMergeBases 3 4 (.new 8 (by decide)) 100 = .ok ([2, 1], false) := by
    rw [bandedMergeBases, if_neg (by decide)]
    change (crissCross.mergeRounds 100 5 (.new 8 (by decide)) ⟨{3}, {3}⟩ ⟨{4}, {4}⟩ >>= _) = _
    rw [rounds]
    simp only [Except.ok_bind, common, thinned]
    rfl
  have exactly := ((bandedMergeBases_exact crissCross 3 4 (.new 8 (by decide)) 100 monotone).2.2
    _ _ walked).2.1 rfl
  refine ⟨walked, (exactly 2).mp (by decide), (exactly 1).mp (by decide), fun isBase => ?_⟩
  exact absurd ((exactly 0).mpr isBase) (by decide)

end CommitIndex

end Enroute
