import Enroute.GraphStore.DepthWalk

/-!
# What a fetch cut at a depth sends

The answer to a fetch cut at a depth, said without any walk: the commits at most that many parents
away from a want, less those the client has below its own boundary. With haves a second walk makes
it, seeded anew with the parents of every unshallowed commit, so a shortest path from a want is
followed either from the want or from where it last left a commit the client had shallow.
-/

namespace Enroute

open List Relation

/-- The fewest parents a commit is away from a want, a want itself counting as one. -/
def CommitIndex.MinDepth (index : CommitIndex) (wants : List ℕ) (depth seq : ℕ) : Prop :=
  index.AtDepth wants depth seq ∧ ∀ other, index.AtDepth wants other seq → depth ≤ other

theorem CommitIndex.AtDepth.exists_minDepth {index : CommitIndex} {wants : List ℕ} {depth seq : ℕ}
    (atDepth : index.AtDepth wants depth seq) :
    ∃ least ≤ depth, index.MinDepth wants least seq := by
  classical
  have some : ∃ depth, index.AtDepth wants depth seq := ⟨depth, atDepth⟩
  exact ⟨Nat.find some, Nat.find_min' some atDepth, Nat.find_spec some,
    fun other atOther => Nat.find_min' some atOther⟩

theorem CommitIndex.not_atDepth_nil {index : CommitIndex} {depth seq : ℕ} :
    ¬index.AtDepth [] depth seq := by
  intro atDepth
  induction atDepth with
  | want wanted => cases wanted
  | parent _ _ ih => exact ih

namespace RepoGraph

variable {graph : RepoGraph} {wants : List ℕ} {limit : ℕ} {collect : Bool}
  {classified : DepthClassified}

section

variable (walk : graph.Classified wants limit collect classified)

include walk

theorem Classified.minDepth {seq : ℕ} {sent : SentCommit}
    (found : classified.sent.lookup seq = some sent) :
    graph.index.MinDepth wants sent.depth seq ∧ sent.depth ≤ limit := by
  rcases walk.sent seq sent found with ⟨atDepth, within⟩
  refine ⟨⟨atDepth, fun other atOther => ?_⟩, within⟩
  by_cases inside : other ≤ limit
  · rcases walk.sent_of_atDepth atOther inside with ⟨again, atAgain, small⟩
    cases found.symm.trans atAgain
    exact small
  · omega

theorem Classified.lookup_of_minDepth {depth seq : ℕ} (least : graph.index.MinDepth wants depth seq)
    (within : depth ≤ limit) :
    ∃ sent, classified.sent.lookup seq = some sent ∧ sent.depth = depth := by
  rcases walk.sent_of_atDepth least.1 within with ⟨sent, found, small⟩
  have atLeast := least.2 sent.depth (walk.sent seq sent found).1
  exact ⟨sent, found, by omega⟩

theorem Classified.mem_sent_iff {seq : ℕ} :
    seq ∈ classified.sent ↔ ∃ depth ≤ limit, graph.index.MinDepth wants depth seq := by
  rw [← AList.lookup_isSome, Option.isSome_iff_exists]
  constructor
  · rintro ⟨sent, found⟩
    exact ⟨sent.depth, (walk.minDepth found).2, (walk.minDepth found).1⟩
  · rintro ⟨depth, within, least⟩
    rcases walk.lookup_of_minDepth least within with ⟨sent, found, -⟩
    exact ⟨sent, found⟩

theorem Classified.mem_sent_of_parent {seq parent : ℕ} {sent : SentCommit}
    (found : classified.sent.lookup seq = some sent) (inner : sent.depth ≠ limit)
    (isParent : parent ∈ graph.index.parents seq) : parent ∈ classified.sent := by
  rcases walk.sent seq sent found with ⟨atDepth, within⟩
  rcases walk.sent_of_atDepth (atDepth.parent isParent) (by omega) with ⟨parentSent, atParent, -⟩
  rw [← AList.lookup_isSome, atParent]
  rfl

end

/-! ## The second walk -/

section SecondWalk

variable {clientShallow : List ℕ}

section

variable (walk : graph.Classified wants limit collect classified)

include walk

theorem mem_unshallowedParents_iff {parent : ℕ} :
    parent ∈ unshallowedParents classified clientShallow limit ↔
      ∃ seq ∈ classified.unshallowedSeqs clientShallow limit,
        parent ∈ graph.index.parents seq := by
  rw [unshallowedParents, mem_flatMap]
  constructor
  · rintro ⟨sent, listed, isParent⟩
    rcases mem_filterMap.mp listed with ⟨seq, isUnshallowed, found⟩
    rw [(walk.recorded seq sent found).2.1] at isParent
    exact ⟨seq, isUnshallowed, isParent⟩
  · rintro ⟨seq, isUnshallowed, isParent⟩
    exact mem_flatMap.mp (mem_unshallowedParents walk isUnshallowed isParent)

theorem mem_sent_of_reachable (positive : 0 < limit) {seq : ℕ}
    (reachable : graph.index.Reachable (wants ++ unshallowedParents classified clientShallow limit)
      (classified.boundarySeqs limit ++ clientShallow) seq) : seq ∈ classified.sent := by
  rcases reachable with ⟨seed, seedMem, path⟩
  induction path with
  | refl =>
    rcases mem_append.mp seedMem with isWant | isParent
    · rcases walk.sent_of_atDepth (.want isWant) positive with ⟨sent, found, -⟩
      rw [← AList.lookup_isSome, found]
      rfl
    · rcases (mem_unshallowedParents_iff walk).mp isParent with ⟨child, isUnshallowed, inParents⟩
      rcases (mem_unshallowedSeqs.mp isUnshallowed).2 with ⟨sent, found, inner⟩
      exact walk.mem_sent_of_parent found inner inParents
  | tail _ step ih =>
    rcases Option.isSome_iff_exists.mp (AList.lookup_isSome.mpr ih) with ⟨sent, found⟩
    refine walk.mem_sent_of_parent found (fun onBoundary => step.1 ?_) step.2
    exact mem_append_left _ (mem_boundarySeqs.mpr ⟨sent, found, onBoundary⟩)

theorem reachable_of_atDepth {depth seq : ℕ} (atDepth : graph.index.AtDepth wants depth seq)
    (within : depth ≤ limit) :
    graph.index.Reachable (wants ++ unshallowedParents classified clientShallow limit)
      (classified.boundarySeqs limit ++ clientShallow) seq := by
  induction atDepth with
  | want wanted => exact ⟨_, mem_append_left _ wanted, .refl⟩
  | @parent depth seq parent child isParent ih =>
    rcases walk.sent_of_atDepth child (by omega) with ⟨sent, found, small⟩
    by_cases isShallow : seq ∈ clientShallow
    · have isUnshallowed : seq ∈ classified.unshallowedSeqs clientShallow limit :=
        mem_unshallowedSeqs.mpr ⟨isShallow, sent, found, by omega⟩
      exact ⟨parent, mem_append_right _
        ((mem_unshallowedParents_iff walk).mpr ⟨seq, isUnshallowed, isParent⟩), .refl⟩
    · refine (ih (by omega)).tail (.single ⟨fun blocked => ?_, isParent⟩)
      rcases mem_append.mp blocked with onBoundary | shallow
      · rcases mem_boundarySeqs.mp onBoundary with ⟨again, atAgain, isLimit⟩
        cases found.symm.trans atAgain
        omega
      · exact isShallow shallow

theorem reachable_iff_mem_sent (positive : 0 < limit) {seq : ℕ} :
    graph.index.Reachable (wants ++ unshallowedParents classified clientShallow limit)
      (classified.boundarySeqs limit ++ clientShallow) seq ↔ seq ∈ classified.sent := by
  refine ⟨mem_sent_of_reachable walk positive, fun isSent => ?_⟩
  rcases walk.mem_sent_iff.mp isSent with ⟨depth, within, least⟩
  exact reachable_of_atDepth walk least.1 within

end

end SecondWalk

/-! ## The rounds end -/

theorem depthBand_below {width ceil : ℕ} {frontier next : SeqMap ℕ}
    {result : DepthClassified} (top : frontier.keys.getLast? = some ceil)
    (banded : graph.depthBand width limit collect frontier classified = .ok (next, result)) :
    ∀ seq ∈ next, seq < ceil := by
  rcases (depthBand_eq_ok_iff top).mp banded with ⟨band, expanded, -, rfl⟩
  rcases CommitIndex.expandDepth_settled expanded with ⟨best, settled, -⟩
  intro seq seqMem
  rcases SeqMap.exists_getElem? seqMem with ⟨depth, found⟩
  have below : seq < ceil - (width - 1) := by
    rcases getElem?_nextDepths found with ⟨below, -⟩ | met
    · exact below
    · rw [settled.below] at met
      by_contra notBelow
      simp [notBelow] at met
  omega

theorem depthRounds_of_le {rounds more : ℕ} {policy : BandPolicy} {frontier : SeqMap ℕ}
    (below : ∀ seq ∈ frontier, seq < rounds) (enough : rounds ≤ more) :
    graph.depthRounds limit collect more policy frontier classified =
      graph.depthRounds limit collect rounds policy frontier classified := by
  induction rounds generalizing more policy frontier classified with
  | zero =>
    cases more with
    | zero => rfl
    | succ more =>
      rw [depthRounds, depthRounds, if_pos]
      rw [Std.TreeMap.isEmpty_iff_forall_not_mem]
      exact fun seq seqMem => absurd (below seq seqMem) (Nat.not_lt_zero seq)
  | succ rounds ih =>
    rcases Nat.exists_eq_add_of_le' (Nat.one_le_of_lt enough) with ⟨more, rfl⟩
    rw [depthRounds, depthRounds]
    split
    next => rfl
    next notEmpty =>
      rcases exists_top notEmpty with ⟨ceil, top⟩
      cases banded : graph.depthBand policy.width limit collect frontier classified with
      | error message => rfl
      | ok round =>
        have ceilLt := below ceil (mem_of_getLast?_keys top)
        have under := depthBand_below top banded
        exact ih (fun seq seqMem => by have := under seq seqMem; omega) (by omega)

theorem depthClassify_stops (wants : List ℕ) (limit : ℕ) (collect : Bool) (policy : BandPolicy) :
    ∃ rounds, ∀ more, rounds ≤ more →
      graph.depthRounds limit collect more policy
        (wants.foldl (fun frontier seq => lowerTo frontier seq 1) ∅) { sent := ∅, needed := ∅ } =
      graph.depthClassify wants limit collect policy :=
  ⟨_, fun _ enough => depthRounds_of_le (fun _ => lt_of_mem_frontier) enough⟩

/-! ## The answer -/

def Names (graph : RepoGraph) (seqs : List ℕ) (oids : List ObjectId) : Prop :=
  List.Forall₂ (fun seq oid => graph.oidOf seq = some oid) seqs oids

theorem Classified.names (walk : graph.Classified wants limit collect classified)
    {seqs : List ℕ} (sent : ∀ seq ∈ seqs, seq ∈ classified.sent) : graph.Names seqs
      (seqs.filterMap fun seq => (classified.sent.lookup seq).map SentCommit.oid) := by
  induction seqs with
  | nil => exact .nil
  | cons seq seqs ih =>
    rcases Option.isSome_iff_exists.mp (AList.lookup_isSome.mpr (sent seq mem_cons_self))
      with ⟨commit, found⟩
    rw [filterMap_cons, found]
    exact .cons (walk.recorded seq commit found).1
      (ih fun other otherMem => sent other (mem_cons_of_mem _ otherMem))

theorem nodup_boundarySeqs (classified : DepthClassified) (depth : ℕ) :
    (classified.boundarySeqs depth).Nodup :=
  (filter_sublist.map Sigma.fst).nodup classified.sent.nodupKeys

section CutAt

variable {seeds : WalkSeeds} {depth : ℕ} {walked : ShallowCommits}

section

variable (cut : graph.CutAt seeds depth classified walked)

include cut

/-- With and without haves the answer lists the same commits: those within the depth that the
client does not have. -/
theorem CutAt.needed_exact :
    ∃ seqs, seqs.Nodup ∧ graph.Lists seqs walked.needed ∧ ∀ seq, seq ∈ seqs ↔
      (∃ least ≤ depth, graph.index.MinDepth seeds.wants least seq) ∧
        ¬graph.index.Reachable seeds.haves seeds.shallow seq := by
  cases fast : seeds.haves.isEmpty with
  | true =>
    rcases cut.walk.built with ⟨order, distinct, members, pushed⟩
    refine ⟨order, distinct, lists_of_pushCommits ?_, fun seq => ?_⟩
    · rw [cut.fast fast]
      exact pushed fast
    · rw [members, cut.walk.mem_sent_iff]
      refine (and_iff_left ?_).symm
      rintro ⟨seed, seedMem, -⟩
      rw [List.isEmpty_iff.mp fast] at seedMem
      cases seedMem
  | false =>
    rcases cut.painted fast with ⟨seqs, distinct, pushed, exactly⟩
    refine ⟨seqs, distinct, lists_of_pushCommits pushed, fun seq => ?_⟩
    rw [exactly, reachable_iff_mem_sent cut.walk cut.positive, cut.walk.mem_sent_iff]

theorem CutAt.shallow_exact :
    ∃ seqs, seqs.Nodup ∧ graph.Names seqs walked.shallow ∧ ∀ seq, seq ∈ seqs ↔
      graph.index.MinDepth seeds.wants depth seq ∧ seq ∉ seeds.shallow := by
  refine ⟨(classified.boundarySeqs depth).filter fun seq => seq ∉ seeds.shallow,
    (nodup_boundarySeqs classified depth).filter _, ?_, fun seq => ?_⟩
  · rw [cut.shallow]
    refine cut.walk.names fun seq seqMem => ?_
    rcases mem_boundarySeqs.mp (mem_of_mem_filter seqMem) with ⟨sent, found, -⟩
    rw [← AList.lookup_isSome, found]
    rfl
  · rw [mem_filter, mem_boundarySeqs, decide_eq_true_eq]
    refine and_congr_left' ⟨?_, fun least => cut.walk.lookup_of_minDepth least le_rfl⟩
    rintro ⟨sent, found, rfl⟩
    exact (cut.walk.minDepth found).1

theorem CutAt.unshallow_exact :
    ∃ seqs, graph.Names seqs walked.unshallow ∧ ∀ seq, seq ∈ seqs ↔
      seq ∈ seeds.shallow ∧ ∃ least < depth, graph.index.MinDepth seeds.wants least seq := by
  refine ⟨classified.unshallowedSeqs seeds.shallow depth, ?_, fun seq => ?_⟩
  · rw [cut.unshallow]
    refine cut.walk.names fun seq seqMem => ?_
    rcases (mem_unshallowedSeqs.mp seqMem).2 with ⟨sent, found, -⟩
    rw [← AList.lookup_isSome, found]
    rfl
  · rw [mem_unshallowedSeqs]
    refine and_congr_right' ⟨?_, ?_⟩
    · rintro ⟨sent, found, inner⟩
      rcases cut.walk.minDepth found with ⟨least, within⟩
      exact ⟨sent.depth, by omega, least⟩
    · rintro ⟨depth, inner, least⟩
      rcases cut.walk.lookup_of_minDepth least (by omega) with ⟨sent, found, rfl⟩
      exact ⟨sent, found, by omega⟩

end

end CutAt

/-- A fetch cut at a depth ends, succeeds from seeds of a recorded history, and answers with what
the client lacks inside the cut, with the new boundary and with the client's shallow commits that
are no longer on it. -/
theorem neededCommitsShallow_exact (graph : RepoGraph) (seeds : WalkSeeds) (depth : ℕ)
    (policy : BandPolicy) (monotone : graph.index.SeqMonotone) (positive : 0 < depth) :
    (∃ rounds, ∀ more, rounds ≤ more →
      graph.depthRounds depth seeds.haves.isEmpty more policy
        (seeds.wants.foldl (fun frontier seq => lowerTo frontier seq 1) ∅)
        { sent := ∅, needed := ∅ } =
      graph.depthClassify seeds.wants depth seeds.haves.isEmpty policy) ∧
    (graph.Recorded →
      (∀ seq, seq ∈ seeds.wants ∨ seq ∈ seeds.haves → seq ∈ graph.index.keys) →
      ∃ walked, graph.neededCommitsShallow seeds depth policy = .ok walked) ∧
    ∀ walked, graph.neededCommitsShallow seeds depth policy = .ok walked →
      (∃ seqs, seqs.Nodup ∧ graph.Lists seqs walked.needed ∧ ∀ seq, seq ∈ seqs ↔
        (∃ least ≤ depth, graph.index.MinDepth seeds.wants least seq) ∧
          ¬graph.index.Reachable seeds.haves seeds.shallow seq) ∧
      (∃ seqs, seqs.Nodup ∧ graph.Names seqs walked.shallow ∧ ∀ seq, seq ∈ seqs ↔
        graph.index.MinDepth seeds.wants depth seq ∧ seq ∉ seeds.shallow) ∧
      ∃ seqs, graph.Names seqs walked.unshallow ∧ ∀ seq, seq ∈ seqs ↔
        seq ∈ seeds.shallow ∧ ∃ least < depth, graph.index.MinDepth seeds.wants least seq := by
  refine ⟨depthClassify_stops seeds.wants depth seeds.haves.isEmpty policy,
    fun recorded known => neededCommitsShallow_isOk recorded known positive policy,
    fun walked walk => ?_⟩
  rcases neededCommitsShallow_eq_ok monotone walk with noWants | ⟨classified, cut⟩
  · have noDepth : ∀ {depth seq}, ¬graph.index.MinDepth seeds.wants depth seq :=
      fun least => CommitIndex.not_atDepth_nil (noWants ▸ least.1)
    rw [neededCommitsShallow, if_neg (Nat.ne_of_gt positive), if_pos (by simp [noWants])] at walk
    cases walk
    refine ⟨⟨[], nodup_nil, .nil, fun seq => iff_of_false not_mem_nil ?_⟩,
      ⟨[], nodup_nil, .nil, fun seq => iff_of_false not_mem_nil ?_⟩,
      [], .nil, fun seq => iff_of_false not_mem_nil ?_⟩
    · rintro ⟨⟨least, -, isLeast⟩, -⟩
      exact noDepth isLeast
    · rintro ⟨isLeast, -⟩
      exact noDepth isLeast
    · rintro ⟨-, least, -, isLeast⟩
      exact noDepth isLeast
  · exact ⟨cut.needed_exact, cut.shallow_exact, cut.unshallow_exact⟩

end RepoGraph

/-- A client that has one side of the merge alone, shallow there, and deepens to three commits is
sent the merge, the other side and what lies below the side it has. -/
theorem neededCommitsShallow_exact_diamond : ∃ walked seqs,
    diamond.neededCommitsShallow ⟨[3], [2], [2]⟩ 3 (.new 1 (by decide)) = .ok walked ∧
      diamond.Lists seqs walked.needed ∧ 3 ∈ seqs ∧ 0 ∈ seqs ∧ 2 ∉ seqs := by
  rcases diamond.neededCommitsShallow_exact ⟨[3], [2], [2]⟩ 3 (.new 1 (by decide))
    recorded_diamond.monotone (by decide) with ⟨-, succeeds, exactly⟩
  have known : ∀ seq, seq ∈ [3] ∨ seq ∈ [2] → seq ∈ diamond.index.keys := by
    rintro seq (isWant | isHave)
    · cases mem_singleton.mp isWant
      decide
    · cases mem_singleton.mp isHave
      decide
  rcases succeeds recorded_diamond known with ⟨walked, walk⟩
  rcases (exactly walked walk).1 with ⟨seqs, -, lists, members⟩
  have onlyItself : ∀ seq, diamond.index.Reachable [2] [2] seq → seq = 2 := by
    rintro seq ⟨seed, seedMem, path⟩
    cases mem_singleton.mp seedMem
    rcases path.cases_head with same | ⟨_, step, -⟩
    · exact same.symm
    · exact absurd (mem_singleton_self 2) step.1
  have merge : diamond.index.AtDepth [3] 1 3 := .want (mem_singleton_self 3)
  have base : diamond.index.AtDepth [3] 3 0 :=
    (merge.parent (by decide : 1 ∈ diamond.index.parents 3)).parent (by decide)
  have within : ∀ {depth seq}, depth ≤ 3 → diamond.index.AtDepth [3] depth seq →
      ∃ least ≤ 3, diamond.index.MinDepth [3] least seq := by
    intro depth seq small atDepth
    rcases atDepth.exists_minDepth with ⟨least, isLess, isLeast⟩
    exact ⟨least, isLess.trans small, isLeast⟩
  refine ⟨walked, seqs, walk, lists, ?_, ?_, ?_⟩
  · exact (members 3).mpr ⟨within (by decide) merge,
      fun held => absurd (onlyItself 3 held) (by decide)⟩
  · exact (members 0).mpr ⟨within le_rfl base, fun held => absurd (onlyItself 0 held) (by decide)⟩
  · exact fun sent => ((members 2).mp sent).2 ⟨2, mem_singleton_self 2, .refl⟩

end Enroute
