import Enroute.Proto.Walk

/-!
# After a fetch the client's graph is closed

A pack stores what its commit's tree adds to the tree of its first parent. So a commit can be
checked out when its tree is held already, when its boundary snapshot is sent, or when its pack
is sent and its first parent can be checked out. The commits a fetch is about are closed under
that: below a commit the client does not hold and that is not on the new boundary, the parents
are among them too.
-/

namespace Enroute

open List Relation

/-- A repository a fetch is answered from: the history is recorded, each pack holds what its
commit's tree adds to that of the first parent, and what is in a tree has an oid. -/
structure Served (graph : RepoGraph) (objects : RepoObjects) : Prop where
  recorded : graph.Recorded
  diffed : ∀ seq entry pack, graph.index.lookup seq = some entry → graph.packs seq = some pack →
    ∀ object, objects.InTree entry.rootTree object → pack.holds.contains object = true ∨
      ∃ parent parentEntry, entry.parents.head? = some parent ∧
        graph.index.lookup parent = some parentEntry ∧
        objects.InTree parentEntry.rootTree object
  named : ∀ seq entry, graph.index.lookup seq = some entry →
    ∀ object, objects.InTree entry.rootTree object → ∃ oid, objects.oidOfSeq object = some oid

def TreeWithin (graph : RepoGraph) (objects : RepoObjects) (held : Set ObjectId) (seq : ℕ) : Prop :=
  ∀ entry, graph.index.lookup seq = some entry → ∀ object, objects.InTree entry.rootTree object →
    ∃ oid ∈ held, objects.oidOfSeq object = some oid

def WholeWithin (graph : RepoGraph) (objects : RepoObjects) (held : Set ObjectId) (seq : ℕ) :
    Prop :=
  (∃ oid ∈ held, graph.oidOf seq = some oid) ∧ TreeWithin graph objects held seq

/-- The client has what it says it has: from each have and each of its shallow commits on, every
commit with its whole tree, down to where its own history is cut. -/
def ClientHolds (graph : RepoGraph) (objects : RepoObjects) (haves clientShallow : List ObjectId)
    (held : Set ObjectId) : Prop :=
  ∀ seq, graph.index.Reachable (graph.resolve (haves ++ clientShallow))
    (graph.resolve clientShallow) seq → WholeWithin graph objects held seq

namespace ShallowNeeded

def sends (walked : ShallowNeeded) (objects : RepoObjects) : Set ObjectId :=
  {oid | (∃ commit ∈ walked.needed.commits, commit.oid = oid) ∨
    (∃ object, walked.needed.contains object = true ∧ objects.oidOfSeq object = some oid) ∨
    ∃ found, (oid, found) ∈ walked.backfill}

def boundary (walked : ShallowNeeded) (clientShallow : List ObjectId) : Set ObjectId :=
  {oid | (oid ∈ clientShallow ∧ oid ∉ walked.unshallow) ∨ oid ∈ walked.shallow}

def Continues (walked : ShallowNeeded) (graph : RepoGraph) (clientShallow : List ObjectId)
    (source target : ℕ) : Prop :=
  (∀ oid, graph.oidOf source = some oid → oid ∉ walked.boundary clientShallow) ∧
    target ∈ graph.index.parents source

def Visible (walked : ShallowNeeded) (graph : RepoGraph) (wants clientShallow : List ObjectId)
    (seq : ℕ) : Prop :=
  ∃ want ∈ graph.resolve wants, ReflTransGen (walked.Continues graph clientShallow) want seq

end ShallowNeeded

section Covering

variable {graph : RepoGraph} {objects : RepoObjects} {held : Set ObjectId}

theorem TreeWithin.mono {larger : Set ObjectId} {seq : ℕ}
    (within : TreeWithin graph objects held seq) (grows : held ⊆ larger) : TreeWithin graph objects larger seq := by
  intro entry found object inTree
  rcases within entry found object inTree with ⟨oid, isHeld, named⟩
  exact ⟨oid, grows isHeld, named⟩

def PackWithin (graph : RepoGraph) (objects : RepoObjects) (held : Set ObjectId) (seq : ℕ) : Prop :=
  ∀ pack, graph.packs seq = some pack → ∀ object, pack.holds.contains object = true →
    ∀ oid, objects.oidOfSeq object = some oid → oid ∈ held

/-- Commits whose trees are held, or whose packs are while their parents are among them again,
all have their trees held. The induction is on the number of the commit. -/
theorem treeWithin_of_covered (served : Served graph objects) {among : ℕ → Prop}
    (covered : ∀ seq, among seq → TreeWithin graph objects held seq ∨
      PackWithin graph objects held seq ∧ ∀ parent ∈ graph.index.parents seq, among parent)
    (seq : ℕ) (isAmong : among seq) : TreeWithin graph objects held seq := by
  induction seq using Nat.strong_induction_on with
  | _ seq ih =>
    rcases covered seq isAmong with whole | ⟨packWithin, parentsAmong⟩
    · exact whole
    intro entry found object inTree
    have isRecorded : seq ∈ graph.index.keys := AList.lookup_isSome.mp (by rw [found]; rfl)
    rcases served.recorded.packed seq isRecorded with ⟨pack, packed⟩
    rcases served.diffed seq entry pack found packed object inTree with
      stored | ⟨parent, parentEntry, isFirst, parentFound, inParent⟩
    · rcases served.named seq entry found object inTree with ⟨oid, named⟩
      exact ⟨oid, packWithin pack packed object stored oid named, named⟩
    · have isParent : parent ∈ graph.index.parents seq := by
        rw [CommitIndex.parents, found]
        exact mem_of_mem_head? isFirst
      exact ih parent (served.recorded.monotone seq parent isParent)
        (parentsAmong parent isParent) parentEntry parentFound object inParent

theorem packWithin_of_pushed (objects : RepoObjects) {seqs : List ℕ} {walked : ShallowNeeded}
    (pushed : seqs.foldlM graph.pushCommit ∅ = .ok walked.needed) {seq : ℕ} (listed : seq ∈ seqs) :
    PackWithin graph objects (walked.sends objects) seq ∧
      ∃ oid ∈ walked.sends objects, graph.oidOf seq = some oid := by
  rcases RepoGraph.pushCommits_eq_ok pushed with ⟨⟨added, appended, paired⟩, contains⟩
  constructor
  · intro pack packed object stored oid named
    exact Or.inr (Or.inl ⟨object, (contains object).mpr (Or.inr ⟨seq, listed, pack, packed, stored⟩),
      named⟩)
  · rcases forall₂_iff_get.mp paired with ⟨sameLength, each⟩
    rcases mem_iff_get.mp listed with ⟨at_, rfl⟩
    rcases each at_ at_.isLt (sameLength ▸ at_.isLt) with ⟨pack, oid, -, named, entry⟩
    refine ⟨oid, Or.inl ⟨added.get ⟨at_, sameLength ▸ at_.isLt⟩, ?_, ?_⟩, named⟩
    · rw [appended]
      exact mem_append_right _ (get_mem _ _)
    · rw [entry]
      rfl

end Covering

section Fetched

variable {graph : RepoGraph} {objects : RepoObjects} {wants haves clientShallow : List ObjectId}
  {held : Set ObjectId} {walked : ShallowNeeded}

theorem ClientHolds.of_have (client : ClientHolds graph objects haves clientShallow held) {seq : ℕ}
    (reachable : graph.index.Reachable (graph.resolve haves) (graph.resolve clientShallow) seq) :
    WholeWithin graph objects held seq := by
  rcases reachable with ⟨start, isHave, path⟩
  rcases RepoGraph.mem_resolve.mp isHave with ⟨oid, listed, numbered⟩
  refine client seq ⟨start, RepoGraph.mem_resolve.mpr ⟨oid, ?_, numbered⟩, path⟩
  exact mem_append_left _ listed

theorem ClientHolds.of_shallow (client : ClientHolds graph objects haves clientShallow held)
    {seq : ℕ} (isShallow : seq ∈ graph.resolve clientShallow) :
    WholeWithin graph objects held seq := by
  rcases RepoGraph.mem_resolve.mp isShallow with ⟨oid, listed, numbered⟩
  refine client seq ⟨seq, RepoGraph.mem_resolve.mpr ⟨oid, ?_, numbered⟩, .refl⟩
  exact mem_append_right _ listed

/-- What a paint walk blocked at the boundary and at the client's shallow commits reaches is
whole afterwards, given the snapshots of the boundary. -/
theorem wholeWithin_of_paint (served : Served graph objects)
    (client : ClientHolds graph objects haves clientShallow held) {seeds cut : List ℕ}
    (built : graph.BuiltFrom seeds (graph.resolve haves) (cut ++ graph.resolve clientShallow)
      (graph.resolve clientShallow) walked.needed)
    (snapshots : ∀ seq ∈ cut, TreeWithin graph objects (walked.sends objects) seq) {seq : ℕ}
    (reached : graph.index.Reachable seeds (cut ++ graph.resolve clientShallow) seq) :
    WholeWithin graph objects (held ∪ walked.sends objects) seq := by
  rcases built with ⟨seqs, -, pushed, listed⟩
  constructor
  · by_cases common : graph.index.Reachable (graph.resolve haves) (graph.resolve clientShallow) seq
    · rcases (client.of_have common).1 with ⟨oid, isHeld, named⟩
      exact ⟨oid, Or.inl isHeld, named⟩
    · rcases (packWithin_of_pushed objects pushed ((listed seq).mpr ⟨reached, common⟩)).2 with
        ⟨oid, isSent, named⟩
      exact ⟨oid, Or.inr isSent, named⟩
  · have covered : ∀ other, graph.index.Reachable seeds (cut ++ graph.resolve clientShallow) other →
        TreeWithin graph objects (held ∪ walked.sends objects) other ∨
          PackWithin graph objects (held ∪ walked.sends objects) other ∧
            ∀ parent ∈ graph.index.parents other,
              graph.index.Reachable seeds (cut ++ graph.resolve clientShallow) parent := by
      intro other otherReached
      by_cases common :
          graph.index.Reachable (graph.resolve haves) (graph.resolve clientShallow) other
      · exact Or.inl ((client.of_have common).2.mono Set.subset_union_left)
      by_cases blocked : other ∈ cut ++ graph.resolve clientShallow
      · left
        rcases mem_append.mp blocked with isCut | isShallow
        · exact (snapshots other isCut).mono Set.subset_union_right
        · exact (client.of_shallow isShallow).2.mono Set.subset_union_left
      · right
        have isSent := packWithin_of_pushed objects pushed
          ((listed other).mpr ⟨otherReached, common⟩)
        refine ⟨fun pack found object stored oid named => Or.inr ?_, fun parent isParent => ?_⟩
        · exact isSent.1 pack found object stored oid named
        · exact otherReached.tail (.single ⟨blocked, isParent⟩)
    exact treeWithin_of_covered served covered seq reached

theorem unshallow_of_continues (recorded : graph.Recorded) {source target : ℕ}
    (continues : walked.Continues graph clientShallow source target)
    (isShallow : source ∈ graph.resolve clientShallow) :
    ∃ oid ∈ walked.unshallow, graph.oidOf source = some oid := by
  rcases RepoGraph.mem_resolve.mp isShallow with ⟨oid, listed, numbered⟩
  have named := (recorded.numbered oid source).mp numbered
  refine ⟨oid, ?_, named⟩
  by_contra kept
  exact continues.1 oid named (Or.inl ⟨listed, kept⟩)

theorem wholeWithin_of_plain (served : Served graph objects)
    (client : ClientHolds graph objects haves clientShallow held)
    (planned : graph.needed objects wants haves clientShallow none = .ok walked) {seq : ℕ}
    (visible : walked.Visible graph wants clientShallow seq) :
    WholeWithin graph objects (held ∪ walked.sends objects) seq := by
  simp only [RepoGraph.needed, Except.bind_eq_ok_iff, Except.pure_eq_ok_iff] at planned
  rcases planned with ⟨needed, walk, rfl⟩
  rcases visible with ⟨want, isWant, path⟩
  have someWant : (graph.resolve wants).isEmpty = false := by
    cases resolved : graph.resolve wants with
    | nil =>
      rw [resolved] at isWant
      cases isWant
    | cons => rfl
  have someOid : wants.isEmpty = false := by
    rcases RepoGraph.mem_resolve.mp isWant with ⟨oid, listed, -⟩
    cases wants with
    | nil => cases listed
    | cons => rfl
  simp only [RepoGraph.plain, RepoGraph.neededCommits, RepoGraph.resolveSeeds, someWant, someOid,
    Bool.false_eq_true, if_false] at walk
  have built : graph.BuiltFrom (graph.resolve wants) (graph.resolve haves)
      ([] ++ graph.resolve clientShallow) (graph.resolve clientShallow) needed :=
    RepoGraph.bandedPaintWalk_builtFrom served.recorded.monotone
      (fun seq isBlocked => isBlocked) walk
  refine wholeWithin_of_paint served client built (fun _ isCut => by cases isCut)
    ⟨want, isWant, ?_⟩
  refine ReflTransGen.mono (fun source target continues => ⟨fun blocked => ?_, continues.2⟩) _ _ path
  rcases unshallow_of_continues served.recorded continues blocked with ⟨oid, listed, -⟩
  cases listed

section Deepened

variable {depth : ℕ} {classified : RepoGraph.DepthClassified} {commits : RepoGraph.ShallowCommits}

structure Deepened (graph : RepoGraph) (objects : RepoObjects) (commits : RepoGraph.ShallowCommits)
    (walked : ShallowNeeded) : Prop where
  needed : walked.needed = commits.needed
  shallow : walked.shallow = commits.shallow
  unshallow : walked.unshallow = commits.unshallow
  backfilled : ∀ root ∈ commits.boundaryRoots, ∀ object, objects.InTree root object →
    walked.needed.contains object = false → ∀ oid, objects.oidOfSeq object = some oid →
      ∃ found, (oid, found) ∈ walked.backfill

theorem shallow_eq_ok
    (planned : graph.shallow objects wants haves clientShallow depth = .ok walked) :
    ∃ commits, graph.neededCommitsShallow (graph.resolveSeeds wants haves clientShallow) depth
      .production = .ok commits ∧ Deepened graph objects commits walked := by
  rw [RepoGraph.shallow] at planned
  split at planned
  next => cases planned
  next =>
    simp only [Except.bind_eq_ok_iff, Except.pure_eq_ok_iff] at planned
    rcases planned with ⟨commits, walk, rfl⟩
    refine ⟨commits, walk, rfl, rfl, rfl, ?_⟩
    intro root isRoot object inTree unneeded oid named
    have someRoot : commits.boundaryRoots.isEmpty = false := by
      cases roots : commits.boundaryRoots with
      | nil =>
        rw [roots] at isRoot
        cases isRoot
      | cons => rfl
    have inClosure := (objects.treeClosure_contains commits.boundaryRoots object).mpr
      ⟨root, isRoot, inTree⟩
    simp only [someRoot, Bool.false_eq_true, if_false]
    cases object with
    | tree seq =>
      refine ⟨_, mem_backfillOf.mpr ⟨.tree, seq, Or.inl ⟨rfl, ?_, ?_⟩, named, rfl⟩⟩
      · simpa using inClosure
      · simpa using unneeded
    | blob seq =>
      refine ⟨_, mem_backfillOf.mpr ⟨.blob, seq, Or.inr ⟨rfl, ?_, ?_⟩, named, rfl⟩⟩
      · simpa using inClosure
      · simpa using unneeded
    | tag seq => cases inTree

theorem treeWithin_of_boundary (served : Served graph objects) {seeds : WalkSeeds}
    (cut : graph.CutAt seeds depth classified commits)
    (deepened : Deepened graph objects commits walked) {seq : ℕ}
    (isBoundary : seq ∈ classified.boundarySeqs depth) :
    TreeWithin graph objects (walked.sends objects) seq := by
  intro entry found object inTree
  rcases served.named seq entry found object inTree with ⟨oid, named⟩
  refine ⟨oid, ?_, named⟩
  by_cases covered : walked.needed.contains object = true
  · exact Or.inr (Or.inl ⟨object, covered, named⟩)
  · exact Or.inr (Or.inr (deepened.backfilled entry.rootTree (cut.mem_roots isBoundary found) object
      inTree (Bool.eq_false_of_not_eq_true covered) oid named))

section

variable (recorded : graph.Recorded)
  (cut : graph.CutAt (graph.resolveSeeds wants haves clientShallow) depth classified commits)
  (deepened : Deepened graph objects commits walked)

include recorded cut deepened

theorem mem_unshallowedSeqs_of_continues {source target : ℕ}
    (continues : walked.Continues graph clientShallow source target)
    (isShallow : source ∈ graph.resolve clientShallow) :
    source ∈ classified.unshallowedSeqs (graph.resolve clientShallow) depth := by
  rcases unshallow_of_continues recorded continues isShallow with ⟨oid, listed, named⟩
  rw [deepened.unshallow] at listed
  rcases cut.of_mem_unshallow listed with ⟨seq, isUnshallowed, sameOid⟩
  obtain rfl : seq = source := Option.some.inj
    (((recorded.numbered oid seq).mpr sameOid).symm.trans ((recorded.numbered oid source).mpr named))
  exact isUnshallowed

theorem notMem_boundarySeqs_of_continues {source target : ℕ}
    (continues : walked.Continues graph clientShallow source target) :
    source ∉ classified.boundarySeqs depth := by
  intro isBoundary
  by_cases isShallow : source ∈ graph.resolve clientShallow
  · have isUnshallowed :=
      mem_unshallowedSeqs_of_continues recorded cut deepened continues isShallow
    rcases (RepoGraph.mem_unshallowedSeqs.mp isUnshallowed).2 with ⟨sent, found, notLast⟩
    rcases RepoGraph.mem_boundarySeqs.mp isBoundary with ⟨other, atOther, last⟩
    obtain rfl : other = sent := Option.some.inj (atOther.symm.trans found)
    exact notLast last
  · rcases cut.mem_shallow isBoundary isShallow with ⟨oid, listed, named⟩
    exact continues.1 oid named (Or.inr (deepened.shallow ▸ listed))

end

theorem wholeWithin_of_fast (served : Served graph objects)
    (cut : graph.CutAt (graph.resolveSeeds wants haves clientShallow) depth classified commits)
    (deepened : Deepened graph objects commits walked)
    (fast : (graph.resolve haves).isEmpty = true) {seq : ℕ}
    (visible : walked.Visible graph wants clientShallow seq) :
    WholeWithin graph objects (walked.sends objects) seq := by
  rcases cut.walk.built with ⟨order, -, ordered, pushed⟩
  have sent : order.foldlM graph.pushCommit ∅ = .ok walked.needed := by
    rw [deepened.needed, cut.fast fast]
    exact pushed fast
  have parentsSent : ∀ seq ∈ classified.sent, seq ∉ classified.boundarySeqs depth →
      ∀ parent ∈ graph.index.parents seq, parent ∈ classified.sent := by
    intro seq isSent notLast parent isParent
    rcases Option.isSome_iff_exists.mp (AList.lookup_isSome.mpr isSent) with ⟨commit, found⟩
    have shallower : commit.depth < depth :=
      lt_of_le_of_ne (cut.walk.sent seq commit found).2 fun last =>
        notLast (RepoGraph.mem_boundarySeqs.mpr ⟨commit, found, last⟩)
    rcases cut.walk.sent_of_atDepth ((cut.walk.sent seq commit found).1.parent isParent)
      shallower with ⟨parentCommit, atParent, -⟩
    exact AList.lookup_isSome.mp (by rw [atParent]; rfl)
  have covered : ∀ seq, seq ∈ classified.sent →
      TreeWithin graph objects (walked.sends objects) seq ∨
        PackWithin graph objects (walked.sends objects) seq ∧
          ∀ parent ∈ graph.index.parents seq, parent ∈ classified.sent := by
    intro seq isSent
    by_cases last : seq ∈ classified.boundarySeqs depth
    · exact Or.inl (treeWithin_of_boundary served cut deepened last)
    · exact Or.inr ⟨(packWithin_of_pushed objects sent ((ordered seq).mpr isSent)).1,
        parentsSent seq isSent last⟩
  have visibleSent : seq ∈ classified.sent := by
    rcases visible with ⟨want, isWant, path⟩
    induction path with
    | refl =>
      rcases cut.walk.sent_of_atDepth (.want isWant) cut.positive with ⟨commit, found, -⟩
      exact AList.lookup_isSome.mp (by rw [found]; rfl)
    | tail _ continues ih =>
      exact parentsSent _ ih
        (notMem_boundarySeqs_of_continues served.recorded cut deepened continues) _ continues.2
  exact ⟨(packWithin_of_pushed objects sent ((ordered seq).mpr visibleSent)).2,
    treeWithin_of_covered served covered seq visibleSent⟩

/-- With haves the visible commits are those the paint walk reaches, since it is seeded with the
parents of the commits that are unshallowed. -/
theorem reachable_of_visible (recorded : graph.Recorded)
    (cut : graph.CutAt (graph.resolveSeeds wants haves clientShallow) depth classified commits)
    (deepened : Deepened graph objects commits walked) {seq : ℕ}
    (visible : walked.Visible graph wants clientShallow seq) :
    graph.index.Reachable (graph.resolve wants ++
        RepoGraph.unshallowedParents classified (graph.resolve clientShallow) depth)
      (classified.boundarySeqs depth ++ graph.resolve clientShallow) seq := by
  rcases visible with ⟨want, isWant, path⟩
  induction path with
  | refl => exact ⟨want, mem_append_left _ isWant, .refl⟩
  | @tail source target _ continues ih =>
    have notLast := notMem_boundarySeqs_of_continues recorded cut deepened continues
    by_cases isShallow : source ∈ graph.resolve clientShallow
    · have isUnshallowed :=
        mem_unshallowedSeqs_of_continues recorded cut deepened continues isShallow
      exact ⟨target, mem_append_right _
        (RepoGraph.mem_unshallowedParents cut.walk isUnshallowed continues.2), .refl⟩
    · refine ih.tail (.single ⟨fun blocked => ?_, continues.2⟩)
      exact (mem_append.mp blocked).elim notLast isShallow

theorem wholeWithin_of_deepened (served : Served graph objects)
    (client : ClientHolds graph objects haves clientShallow held)
    (planned : graph.shallow objects wants haves clientShallow depth = .ok walked) {seq : ℕ}
    (visible : walked.Visible graph wants clientShallow seq) :
    WholeWithin graph objects (held ∪ walked.sends objects) seq := by
  rcases shallow_eq_ok planned with ⟨commits, walk, deepened⟩
  rcases RepoGraph.neededCommitsShallow_eq_ok served.recorded.monotone walk with
    noWants | ⟨classified, cut⟩
  · rcases visible with ⟨want, isWant, -⟩
    have impossible : want ∈ ([] : List ℕ) := noWants ▸ isWant
    cases impossible
  cases fast : (graph.resolve haves).isEmpty with
  | true =>
    rcases wholeWithin_of_fast served cut deepened fast visible with ⟨⟨oid, isSent, named⟩, tree⟩
    exact ⟨⟨oid, Or.inr isSent, named⟩, tree.mono Set.subset_union_right⟩
  | false =>
    have built := cut.painted fast
    rw [← deepened.needed] at built
    exact wholeWithin_of_paint served client built
      (fun seq isBoundary => treeWithin_of_boundary served cut deepened isBoundary)
      (reachable_of_visible served.recorded cut deepened visible)

end Deepened

theorem needed_isOk (recorded : graph.Recorded)
    (known : ∀ seq ∈ graph.resolve (wants ++ haves), seq ∈ graph.index.keys) {deepen : Option ℕ}
    (inRange : ∀ depth ∈ deepen, 0 < depth ∧ depth < 2 ^ 63) :
    ∃ walked, graph.needed objects wants haves clientShallow deepen = .ok walked := by
  have seeded : ∀ seq, seq ∈ graph.resolve wants ∨ seq ∈ graph.resolve haves →
      seq ∈ graph.index.keys := by
    rintro seq (isSeed | isSeed)
    all_goals
      rcases RepoGraph.mem_resolve.mp isSeed with ⟨oid, listed, numbered⟩
      refine known seq (RepoGraph.mem_resolve.mpr ⟨oid, ?_, numbered⟩)
      simp [listed]
  cases deepen with
  | none =>
    have paints : ∃ needed, graph.plain wants haves clientShallow = .ok needed := by
      rw [RepoGraph.plain, RepoGraph.neededCommits]
      split
      next => exact ⟨_, rfl⟩
      next =>
        split
        next => exact ⟨_, rfl⟩
        next => exact RepoGraph.bandedPaintWalk_isOk recorded seeded .production
    rcases paints with ⟨needed, painted⟩
    rw [RepoGraph.needed, painted]
    exact ⟨_, rfl⟩
  | some depth =>
    rcases inRange depth rfl with ⟨positive, fits⟩
    have walks : ∃ commits, graph.neededCommitsShallow
        (graph.resolveSeeds wants haves clientShallow) depth .production = .ok commits :=
      RepoGraph.neededCommitsShallow_isOk recorded seeded positive .production
    rcases walks with ⟨commits, walk⟩
    rw [RepoGraph.needed, RepoGraph.shallow, if_neg (not_le.mpr fits), walk]
    exact ⟨_, rfl⟩

/-- Whatever a fetch answers, the objects it sends and those the client held contain every
commit the client then sees from its wants, with its whole tree. And a fetch whose wants and
haves are recorded is answered. -/
theorem needed_closes_client (served : Served graph objects) (deepen : Option ℕ)
    (client : ClientHolds graph objects haves clientShallow held) :
    (∀ walked, graph.needed objects wants haves clientShallow deepen = .ok walked →
        ∀ seq, walked.Visible graph wants clientShallow seq →
          WholeWithin graph objects (held ∪ walked.sends objects) seq) ∧
      ((∀ seq ∈ graph.resolve (wants ++ haves), seq ∈ graph.index.keys) →
        (∀ depth ∈ deepen, 0 < depth ∧ depth < 2 ^ 63) →
          ∃ walked, graph.needed objects wants haves clientShallow deepen = .ok walked) := by
  refine ⟨fun walked planned seq visible => ?_,
    fun known inRange => needed_isOk served.recorded known inRange⟩
  cases deepen with
  | none => exact wholeWithin_of_plain served client planned visible
  | some depth => exact wholeWithin_of_deepened served client planned visible

end Fetched

def twoCommits : RepoGraph where
  index := [⟨0, ⟨[], 0⟩⟩, ⟨1, ⟨[0], 1⟩⟩].toAList
  packs := fun seq => if seq < 2 then some ⟨1, 2, ⟨seq, 0, 9⟩, {seq}, {seq}⟩ else none
  seqOf := fun oid => if oid = 100 then some 0 else if oid = 101 then some 1 else none
  oidOf := fun seq => if seq = 0 then some 100 else if seq = 1 then some 101 else none

def twoTrees : RepoObjects where
  trees := [⟨0, .listing ⟨∅, {0}⟩⟩, ⟨1, .listing ⟨∅, {0, 1}⟩⟩].toAList
  blobs := ∅
  identities := fun _ => none
  oidOf := fun kind seq => match kind with
    | .tree => some (200 + seq)
    | .blob => some (300 + seq)
    | _ => none

theorem lookup_twoCommits {seq : ℕ} {entry : CommitEntry}
    (found : twoCommits.index.lookup seq = some entry) :
    (seq = 0 ∧ entry = ⟨[], 0⟩) ∨ (seq = 1 ∧ entry = ⟨[0], 1⟩) := by
  have isKey : seq ∈ twoCommits.index.keys := AList.lookup_isSome.mp (by rw [found]; rfl)
  have cases_ : seq = 0 ∨ seq = 1 := by
    have keys : twoCommits.index.keys = [0, 1] := by decide
    simpa [keys] using isKey
  rcases cases_ with rfl | rfl
  · exact Or.inl ⟨rfl, (Option.some.inj found).symm⟩
  · exact Or.inr ⟨rfl, (Option.some.inj found).symm⟩

theorem parents_twoCommits {seq parent : ℕ}
    (isParent : parent ∈ CommitIndex.parents twoCommits.index seq) : seq = 1 ∧ parent = 0 := by
  rw [CommitIndex.parents] at isParent
  split at isParent
  next entry found =>
    rcases lookup_twoCommits found with ⟨rfl, rfl⟩ | ⟨rfl, rfl⟩
    · cases isParent
    · exact ⟨rfl, by simpa using isParent⟩
  next => cases isParent

theorem childrenOf_twoTrees (seq : ℕ) : twoTrees.childrenOf seq =
    if seq = 0 then ⟨∅, {0}⟩ else if seq = 1 then ⟨∅, {0, 1}⟩ else ∅ := by
  by_cases first : seq = 0
  · subst first
    rfl
  by_cases second : seq = 1
  · subst second
    rfl
  have missing : twoTrees.trees.lookup seq = none := by
    refine AList.lookup_eq_none.mpr fun isKey => ?_
    have keys : twoTrees.trees.keys = [0, 1] := by decide
    have listed : seq ∈ twoTrees.trees.keys := isKey
    simp [keys, first, second] at listed
  rw [RepoObjects.childrenOf, ObjectIndex.get, missing, if_neg first, if_neg second]
  rfl

theorem inTree_twoTrees {root : ℕ} {object : ObjectSeq} (inTree : twoTrees.InTree root object) :
    object = .tree root ∨ (twoTrees.childrenOf root).contains object = true := by
  have flat : ∀ tree, ReflTransGen twoTrees.Lists root tree → tree = root := by
    intro tree path
    rcases path.cases_tail with same | ⟨parent, -, listed⟩
    · exact same
    · rw [RepoObjects.Lists, childrenOf_twoTrees] at listed
      split_ifs at listed <;> exact absurd listed (Finset.notMem_empty tree)
  cases object with
  | tree seq => exact Or.inl (by rw [flat seq inTree])
  | blob seq =>
    rcases inTree with ⟨tree, path, listed⟩
    rw [flat tree path] at listed
    exact Or.inr (ObjectSeqs.contains_blob.mpr listed)
  | tag seq => cases inTree

theorem served_twoCommits : Served twoCommits twoTrees := by
  refine ⟨⟨?_, ?_, ?_, ?_, ?_⟩, ?_, ?_⟩
  · intro seq parent isParent
    rcases parents_twoCommits isParent with ⟨rfl, rfl⟩
    decide
  · intro seq parent isParent
    rcases parents_twoCommits isParent with ⟨rfl, rfl⟩
    decide
  · intro seq isKey
    rcases Option.isSome_iff_exists.mp (AList.lookup_isSome.mpr isKey) with ⟨entry, found⟩
    rcases lookup_twoCommits found with ⟨rfl, -⟩ | ⟨rfl, -⟩ <;> exact ⟨_, rfl⟩
  · intro seq isKey
    rcases Option.isSome_iff_exists.mp (AList.lookup_isSome.mpr isKey) with ⟨entry, found⟩
    rcases lookup_twoCommits found with ⟨rfl, -⟩ | ⟨rfl, -⟩ <;> exact ⟨_, rfl⟩
  · intro oid seq
    simp only [twoCommits]
    constructor
    · intro numbered
      split_ifs at numbered with first second
      · simp [first, ← Option.some.inj numbered]
      · simp [second, ← Option.some.inj numbered]
    · intro named
      split_ifs at named with first second
      · simp [first, ← Option.some.inj named]
      · simp [second, ← Option.some.inj named]
  · intro seq entry pack found packed object inTree
    rcases lookup_twoCommits found with ⟨rfl, rfl⟩ | ⟨rfl, rfl⟩
    · left
      cases packed
      rcases inTree_twoTrees inTree with rfl | listed
      · decide
      · rw [childrenOf_twoTrees] at listed
        cases object <;> simp_all [PackFacts.holds, ObjectSeqs.contains]
    · cases packed
      rcases inTree_twoTrees inTree with rfl | listed
      · exact Or.inl (by decide)
      · rw [childrenOf_twoTrees] at listed
        cases object with
        | tree seq => simp at listed
        | blob seq =>
          have which : seq = 0 ∨ seq = 1 := by simpa using listed
          rcases which with rfl | rfl
          · exact Or.inr ⟨0, _, rfl, rfl, 0, .refl, by decide⟩
          · exact Or.inl (by decide)
        | tag seq => cases listed
  · intro seq entry found object inTree
    cases object with
    | tree seq => exact ⟨_, rfl⟩
    | blob seq => exact ⟨_, rfl⟩
    | tag seq => cases inTree

/-- What a client shallow at the second commit holds: that commit, its tree and both blobs. -/
def shallowClient : Set ObjectId :=
  {101, 201, 300, 301}

theorem holds_shallowClient : ClientHolds twoCommits twoTrees [101] [101] shallowClient := by
  rintro seq ⟨start, isStart, path⟩
  have resolved : twoCommits.resolve ([101] ++ [101]) = [1] := by decide
  have blocked : twoCommits.resolve [101] = [1] := by decide
  rw [resolved, mem_singleton] at isStart
  subst isStart
  obtain rfl : seq = 1 := by
    rcases path.cases_head with same | ⟨next, step, -⟩
    · exact same.symm
    · exact absurd (blocked ▸ mem_singleton_self 1) step.1
  refine ⟨⟨101, by simp [shallowClient], rfl⟩, ?_⟩
  intro entry found object inTree
  rcases lookup_twoCommits found with ⟨impossible, -⟩ | ⟨-, rfl⟩
  · cases impossible
  rcases inTree_twoTrees inTree with rfl | listed
  · exact ⟨201, by simp [shallowClient], rfl⟩
  · rw [childrenOf_twoTrees] at listed
    cases object with
    | tree seq => simp at listed
    | blob seq =>
      have which : seq = 0 ∨ seq = 1 := by simpa using listed
      rcases which with rfl | rfl
      · exact ⟨300, by simp [shallowClient], rfl⟩
      · exact ⟨301, by simp [shallowClient], rfl⟩
    | tag seq => cases listed

/-- Deepened to two commits, that client is unshallowed and holds the first commit whole. -/
theorem needed_closes_shallowClient : ∃ walked,
    twoCommits.needed twoTrees [101] [101] [101] (some 2) = .ok walked ∧
      walked.Visible twoCommits [101] [101] 0 ∧
      WholeWithin twoCommits twoTrees (shallowClient ∪ walked.sends twoTrees) 0 := by
  have closes := @needed_closes_client twoCommits twoTrees [101] [101] [101] shallowClient
    served_twoCommits (some 2) holds_shallowClient
  rcases closes.2 (by decide) (by simp) with ⟨walked, planned⟩
  have cuts : (twoCommits.needed twoTrees [101] [101] [101] (some 2)).map
      (fun walked => (walked.shallow, walked.unshallow)) = .ok ([100], [101]) := by
    decide +kernel
  rw [planned] at cuts
  have lines : walked.shallow = [100] ∧ walked.unshallow = [101] := by
    injection cuts with same
    exact Prod.mk.inj same
  have visible : walked.Visible twoCommits [101] [101] 0 := by
    refine ⟨1, by decide, .single ⟨?_, by decide⟩⟩
    rintro oid named (⟨-, kept⟩ | cut)
    · rw [lines.2] at kept
      cases named
      exact kept (mem_singleton_self 101)
    · rw [lines.1] at cut
      cases named
      simp at cut
  exact ⟨walked, planned, visible, closes.1 walked planned 0 visible⟩

end Enroute
