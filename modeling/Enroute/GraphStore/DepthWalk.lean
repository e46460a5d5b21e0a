import Enroute.GraphStore.PaintWalk

/-!
# The depth walk is exact

The abstract walk counts parents from the wants: a want is at depth one, and a parent of a
commit at some depth is one deeper. The banded walk sends exactly the commits that have a depth
within the limit, each with the least depth it has. The invariant of its rounds is local: a
want, and one deeper each parent of a commit already sent, is either sent or, below the
bound of the rounds done so far, waiting on the frontier.
-/

namespace Enroute

open List Relation

/-- A commit is this many parents away from a want, a want itself counting as one. -/
inductive CommitIndex.AtDepth (index : CommitIndex) (wants : List ℕ) : ℕ → ℕ → Prop where
  | want {seq : ℕ} (wanted : seq ∈ wants) : AtDepth index wants 1 seq
  | parent {depth seq parent : ℕ} (child : AtDepth index wants depth seq)
      (isParent : parent ∈ index.parents seq) : AtDepth index wants (depth + 1) parent

/-! ## Lowering the depths of a frontier -/

open Relax (Within)

variable {frontier : SeqMap ℕ} {seq : ℕ}

theorem within_lowerTo {depth other bound : ℕ} :
    Within (RepoGraph.lowerTo frontier seq depth) other bound ↔
      Within frontier other bound ∨ seq = other ∧ depth ≤ bound := by
  simp only [Within, RepoGraph.lowerTo, Std.TreeMap.getElem?_alter]
  by_cases same : seq = other
  · subst same
    rcases frontier[seq]? with _ | held
    · simp
    · simp
  · have different : ¬compare seq other = .eq := by simpa using same
    simp [different, same]

theorem within_foldl_lowerTo {entries : List (ℕ × ℕ)} {bound : ℕ} :
    Within (entries.foldl (fun frontier entry => RepoGraph.lowerTo frontier entry.1 entry.2)
        frontier) seq bound ↔
      Within frontier seq bound ∨ ∃ depth ≤ bound, (seq, depth) ∈ entries := by
  induction entries generalizing frontier with
  | nil => simp
  | cons entry entries ih =>
    rcases entry with ⟨at_, depth⟩
    rw [foldl_cons, ih, within_lowerTo]
    simp only [Prod.mk.injEq, mem_cons]
    constructor
    · rintro ((before | ⟨rfl, small⟩) | ⟨later, small, entryMem⟩)
      · exact Or.inl before
      · exact Or.inr ⟨depth, small, Or.inl ⟨rfl, rfl⟩⟩
      · exact Or.inr ⟨later, small, Or.inr entryMem⟩
    · rintro (before | ⟨later, small, ⟨rfl, rfl⟩ | entryMem⟩)
      · exact Or.inl (Or.inl before)
      · exact Or.inl (Or.inr ⟨rfl, small⟩)
      · exact Or.inr ⟨later, small, entryMem⟩

theorem getElem?_foldl_lowerTo {entries : List (ℕ × ℕ)} {depth : ℕ}
    (found : (entries.foldl (fun frontier entry => RepoGraph.lowerTo frontier entry.1 entry.2)
      frontier)[seq]? = some depth) : frontier[seq]? = some depth ∨ (seq, depth) ∈ entries := by
  induction entries generalizing frontier with
  | nil => exact Or.inl found
  | cons entry entries ih =>
    rcases entry with ⟨at_, lowered⟩
    rcases ih found with before | later
    · simp only [RepoGraph.lowerTo, Std.TreeMap.getElem?_alter] at before
      by_cases same : at_ = seq
      · subst same
        rcases held : frontier[at_]? with _ | old
        · simp [held] at before
          simp [before]
        · simp only [held, Std.LawfulEqCmp.compare_eq_iff_eq, if_true, Option.map_some,
            Option.getD_some, Option.some.injEq] at before
          rcases min_choice old lowered with isOld | isLowered
          · left
            rw [← before, isOld]
          · right
            rw [← before, isLowered]
            exact mem_cons_self
      · have different : ¬compare at_ seq = .eq := by simpa using same
        left
        simpa [different] using before
    · exact Or.inr (mem_cons_of_mem _ later)

namespace RepoGraph

variable {graph : RepoGraph} {wants : List ℕ} {limit : ℕ} {collect : Bool}

/-- What is sent is what the walk reached, under the oid and the parents the graph holds. -/
structure SentCommit.OfReached (graph : RepoGraph) (one : CommitIndex.ReachedCommit)
    (sent : SentCommit) : Prop where
  oid : graph.oidOf one.seq = some sent.oid
  parents : sent.parentSeqs = graph.index.parents one.seq
  depth : sent.depth = one.depth
  root : sent.rootTreeSeq = one.rootTree

variable {classified result : DepthClassified} {depth seq bound : ℕ} {frontier : SeqMap ℕ}
  {policy : BandPolicy}

theorem classifyCommit_eq_ok {next : DepthClassified} {one : CommitIndex.ReachedCommit}
    (classify : graph.classifyCommit collect classified one = .ok next) :
    ∃ sent, SentCommit.OfReached graph one sent ∧
      next.sent = classified.sent.insert one.seq sent ∧
      (collect = true → graph.pushCommit classified.needed one.seq = .ok next.needed) := by
  rw [classifyCommit] at classify
  split at classify
  next => cases classify
  next oid named =>
    cases collect with
    | false =>
      cases classify
      exact ⟨_, ⟨named, rfl, rfl, rfl⟩, rfl, fun impossible => by cases impossible⟩
    | true =>
      simp only [if_true] at classify
      split at classify
      next => cases classify
      next pack packed =>
        cases classify
        refine ⟨_, ⟨named, rfl, rfl, rfl⟩, rfl, fun _ => ?_⟩
        rw [pushCommit, packed, named]

theorem classifyCommits_eq_ok {reached : List CommitIndex.ReachedCommit}
    (distinct : (reached.map CommitIndex.ReachedCommit.seq).Nodup)
    (classify : reached.foldlM (graph.classifyCommit collect) classified = .ok result) :
    (∀ seq, seq ∉ reached.map CommitIndex.ReachedCommit.seq →
        result.sent.lookup seq = classified.sent.lookup seq) ∧
      (∀ one ∈ reached, ∃ sent, result.sent.lookup one.seq = some sent ∧
        SentCommit.OfReached graph one sent) ∧
      (collect = true → (reached.map CommitIndex.ReachedCommit.seq).foldlM graph.pushCommit
        classified.needed = .ok result.needed) := by
  induction reached generalizing classified with
  | nil =>
    cases classify
    refine ⟨fun _ _ => rfl, ?_, fun _ => rfl⟩
    intro one oneMem
    cases oneMem
  | cons one reached ih =>
    rw [foldlM_cons, Except.bind_eq_ok_iff] at classify
    rcases classify with ⟨next, first, rest⟩
    rw [map_cons, nodup_cons] at distinct
    rcases classifyCommit_eq_ok first with ⟨sent, ofReached, inserted, pushed⟩
    rcases ih distinct.2 rest with ⟨others, later, pushes⟩
    refine ⟨?_, ?_, ?_⟩
    · intro seq outside
      rw [map_cons, mem_cons, not_or] at outside
      rw [others seq outside.2, inserted, AList.lookup_insert_ne outside.1]
    · intro other otherMem
      rcases mem_cons.mp otherMem with rfl | laterMem
      · refine ⟨sent, ?_, ofReached⟩
        rw [others other.seq distinct.1, inserted, AList.lookup_insert]
      · exact later other laterMem
    · intro collects
      rw [map_cons, foldlM_cons, pushed collects]
      exact pushes collects

/-- A commit is sent at no more than this depth, or waits on the frontier at no more. -/
def Held (frontier : SeqMap ℕ) (classified : DepthClassified) (seq depth : ℕ) : Prop :=
  (∃ sent, classified.sent.lookup seq = some sent ∧ sent.depth ≤ depth) ∨
    Within frontier seq depth

structure DepthInv (graph : RepoGraph) (wants : List ℕ) (limit : ℕ) (collect : Bool) (bound : ℕ)
    (frontier : SeqMap ℕ) (classified : DepthClassified) : Prop where
  below : ∀ seq ∈ frontier, seq < bound
  waiting : ∀ seq depth, frontier[seq]? = some depth →
    graph.index.AtDepth wants depth seq ∧ depth ≤ limit
  sent : ∀ seq sent, classified.sent.lookup seq = some sent →
    graph.index.AtDepth wants sent.depth seq ∧ sent.depth ≤ limit
  above : ∀ seq ∈ classified.sent, bound ≤ seq
  recorded : ∀ seq sent, classified.sent.lookup seq = some sent →
    graph.oidOf seq = some sent.oid ∧ sent.parentSeqs = graph.index.parents seq ∧
      ∃ entry, graph.index.lookup seq = some entry ∧ sent.rootTreeSeq = entry.rootTree
  wanted : ∀ seq ∈ wants, Held frontier classified seq 1
  closed : ∀ seq sent, classified.sent.lookup seq = some sent → sent.depth < limit →
    ∀ parent ∈ graph.index.parents seq, Held frontier classified parent (sent.depth + 1)
  built : ∃ order : List ℕ, order.Nodup ∧ (∀ seq, seq ∈ order ↔ seq ∈ classified.sent) ∧
    (collect = true → order.foldlM graph.pushCommit ∅ = .ok classified.needed)

/-- The frontier after a round: what was below the band already and what the band met there. -/
def nextDepths (frontier : SeqMap ℕ) (floor : ℕ) (below : SeqMap ℕ) : SeqMap ℕ :=
  below.toList.foldl (fun frontier entry => lowerTo frontier entry.1 entry.2)
    (frontier.filter fun seq _ => seq < floor)

theorem within_nextDepths {below : SeqMap ℕ} {floor : ℕ} :
    Within (nextDepths frontier floor below) seq depth ↔
      (seq < floor ∧ Within frontier seq depth) ∨ Within below seq depth := by
  rw [nextDepths, within_foldl_lowerTo]
  apply or_congr
  · simp only [Within, SeqMap.getElem?_filter_below]
    by_cases isBelow : seq < floor <;> simp [isBelow]
  · simp only [Within, Std.TreeMap.mem_toList_iff_getElem?_eq_some]

theorem getElem?_nextDepths {below : SeqMap ℕ} {floor : ℕ}
    (found : (nextDepths frontier floor below)[seq]? = some depth) :
    (seq < floor ∧ frontier[seq]? = some depth) ∨ below[seq]? = some depth := by
  rcases getElem?_foldl_lowerTo found with stays | entryMem
  · rw [SeqMap.getElem?_filter_below] at stays
    by_cases isBelow : seq < floor
    · exact Or.inl ⟨isBelow, by simpa [isBelow] using stays⟩
    · simp [isBelow] at stays
  · exact Or.inr (Std.TreeMap.mem_toList_iff_getElem?_eq_some.mp entryMem)

section Round

variable {bound floor : ℕ} {frontier best : SeqMap ℕ} {classified result : DepthClassified}
  {band : CommitIndex.DepthBand}

theorem DepthInv.best_sound (monotone : graph.index.SeqMonotone)
    (inv : graph.DepthInv wants limit collect bound frontier classified) {rounds : ℕ}
    (relaxed : Relax.relax floor limit (graph.index.parentsOrError floor) rounds
      (frontier.toList.filter fun entry => floor ≤ entry.1).reverse ∅ = .ok best) :
    ∀ seq depth, best[seq]? = some depth →
      seq < bound ∧ graph.index.AtDepth wants depth seq ∧ depth ≤ limit := by
  refine Relax.relax_invariant (fun seq depth => seq < bound ∧
    graph.index.AtDepth wants depth seq ∧ depth ≤ limit) ?_ ?_ ?_ relaxed
  · rintro seq depth parents ⟨isBelow, atDepth, -⟩ - shallow readable parent parentMem
    rcases CommitIndex.parentsOrError_eq_ok_iff.mp readable with ⟨-, rfl⟩
    exact ⟨(monotone seq parent parentMem).trans isBelow, atDepth.parent parentMem, shallow⟩
  · intro seq depth seeded
    rw [mem_reverse, mem_filter, Std.TreeMap.mem_toList_iff_getElem?_eq_some] at seeded
    have known : seq ∈ frontier :=
      SeqMap.mem_of_getElem? seeded.1
    exact ⟨inv.below seq known, inv.waiting seq depth seeded.1⟩
  · intro seq depth found
    simp at found

structure Banded (graph : RepoGraph) (limit : ℕ) (collect : Bool) (floor : ℕ)
    (frontier best : SeqMap ℕ) (band : CommitIndex.DepthBand)
    (classified result : DepthClassified) : Prop where
  settled : band.Settled graph.index (frontier.toList.filter fun entry => floor ≤ entry.1) floor
    limit best
  classify : band.reached.foldlM (graph.classifyCommit collect) classified = .ok result

theorem Banded.distinct (banded : graph.Banded limit collect floor frontier best band classified
    result) : (band.reached.map CommitIndex.ReachedCommit.seq).Nodup :=
  banded.settled.ascending.imp Nat.ne_of_lt

variable {seq : ℕ}

section

variable (banded : graph.Banded limit collect floor frontier best band classified result)

include banded

theorem Banded.held_of_within {depth : ℕ} (within : Within best seq depth) :
    Held (nextDepths frontier floor band.below) result seq depth := by
  rcases within with ⟨found, small, atBest⟩
  by_cases isBelow : seq < floor
  · right
    rw [within_nextDepths]
    exact Or.inr ⟨found, small, by rw [banded.settled.below, if_pos isBelow, atBest]⟩
  · left
    rcases banded.settled.covered seq found (not_lt.mp isBelow) atBest with
      ⟨one, oneMem, rfl, rfl⟩
    rcases (classifyCommits_eq_ok banded.distinct banded.classify).2.1 one oneMem with
      ⟨sent, atSent, ofReached⟩
    exact ⟨sent, atSent, ofReached.depth ▸ small⟩

theorem Banded.held_of_held (inv : graph.DepthInv wants limit collect bound frontier classified)
    (bestBelow : ∀ seq depth, best[seq]? = some depth → seq < bound) {depth : ℕ}
    (held : Held frontier classified seq depth) :
    Held (nextDepths frontier floor band.below) result seq depth := by
  rcases held with ⟨sent, atSent, small⟩ | ⟨found, small, atFrontier⟩
  · have outside : seq ∉ band.reached.map CommitIndex.ReachedCommit.seq := by
      intro listed
      rcases mem_map.mp listed with ⟨one, oneMem, rfl⟩
      have isBelow := bestBelow _ _ ((banded.settled.reached one).mp oneMem).2.1
      have isAbove := inv.above one.seq (AList.lookup_isSome.mp (by rw [atSent]; rfl))
      omega
    refine Or.inl ⟨sent, ?_, small⟩
    rw [(classifyCommits_eq_ok banded.distinct banded.classify).1 seq outside, atSent]
  · by_cases isBelow : seq < floor
    · exact Or.inr (within_nextDepths.mpr (Or.inl ⟨isBelow, found, small, atFrontier⟩))
    · have seeded : (seq, found) ∈ frontier.toList.filter fun entry => floor ≤ entry.1 := by
        rw [mem_filter, Std.TreeMap.mem_toList_iff_getElem?_eq_some, decide_eq_true_eq]
        exact ⟨atFrontier, not_lt.mp isBelow⟩
      rcases banded.settled.seeded seq found seeded with ⟨least, smaller, atBest⟩
      exact banded.held_of_within ⟨least, smaller.trans small, atBest⟩

theorem Banded.lookup_cases {sent : SentCommit} (atSent : result.sent.lookup seq = some sent) :
    classified.sent.lookup seq = some sent ∨ floor ≤ seq ∧ best[seq]? = some sent.depth ∧
      graph.oidOf seq = some sent.oid ∧ sent.parentSeqs = graph.index.parents seq ∧
      ∃ entry, graph.index.lookup seq = some entry ∧ sent.rootTreeSeq = entry.rootTree := by
  rcases classifyCommits_eq_ok banded.distinct banded.classify with ⟨others, reached, -⟩
  by_cases listed : seq ∈ band.reached.map CommitIndex.ReachedCommit.seq
  · right
    rcases mem_map.mp listed with ⟨one, oneMem, rfl⟩
    rcases reached one oneMem with ⟨held, atHeld, ofReached⟩
    obtain rfl : held = sent := Option.some.inj (atHeld.symm.trans atSent)
    rcases (banded.settled.reached one).mp oneMem with ⟨isAbove, atBest, known⟩
    rw [ofReached.depth, ofReached.root]
    exact ⟨isAbove, atBest, ofReached.oid, ofReached.parents, known⟩
  · left
    rw [← others seq listed, atSent]

theorem Banded.built (inv : graph.DepthInv wants limit collect bound frontier classified)
    (bestBelow : ∀ seq depth, best[seq]? = some depth → seq < bound) :
    ∃ order : List ℕ, order.Nodup ∧ (∀ seq, seq ∈ order ↔ seq ∈ result.sent) ∧
      (collect = true → order.foldlM graph.pushCommit ∅ = .ok result.needed) := by
  rcases classifyCommits_eq_ok banded.distinct banded.classify with ⟨others, reached, pushes⟩
  rcases inv.built with ⟨order, distinct, ordered, pushed⟩
  refine ⟨order ++ band.reached.map CommitIndex.ReachedCommit.seq, ?_, ?_, ?_⟩
  · refine nodup_append.mpr ⟨distinct, banded.distinct, ?_⟩
    rintro seq before _ now rfl
    rcases mem_map.mp now with ⟨one, oneMem, rfl⟩
    have isBelow := bestBelow _ _ ((banded.settled.reached one).mp oneMem).2.1
    have isAbove := inv.above one.seq ((ordered one.seq).mp before)
    omega
  · intro seq
    rw [mem_append, ordered, ← AList.lookup_isSome, ← AList.lookup_isSome]
    by_cases listed : seq ∈ band.reached.map CommitIndex.ReachedCommit.seq
    · rcases mem_map.mp listed with ⟨one, oneMem, rfl⟩
      rcases reached one oneMem with ⟨sent, atSent, -⟩
      simp [listed, atSent]
    · simp [listed, others seq listed]
  · intro collects
    rw [foldlM_append, pushed collects]
    exact pushes collects

end

theorem DepthInv.round (inv : graph.DepthInv wants limit collect bound frontier classified)
    (floorLe : floor ≤ bound)
    (banded : graph.Banded limit collect floor frontier best band classified result)
    (bestSound : ∀ seq depth, best[seq]? = some depth →
      seq < bound ∧ graph.index.AtDepth wants depth seq ∧ depth ≤ limit) :
    graph.DepthInv wants limit collect floor (nextDepths frontier floor band.below) result := by
  have bestBelow := fun seq depth found => (bestSound seq depth found).1
  have waits : ∀ seq depth, (nextDepths frontier floor band.below)[seq]? = some depth →
      seq < floor ∧ graph.index.AtDepth wants depth seq ∧ depth ≤ limit := by
    intro seq depth found
    rcases getElem?_nextDepths found with ⟨isBelow, before⟩ | met
    · exact ⟨isBelow, inv.waiting seq depth before⟩
    · rw [banded.settled.below] at met
      by_cases isBelow : seq < floor
      · rw [if_pos isBelow] at met
        exact ⟨isBelow, (bestSound seq depth met).2⟩
      · rw [if_neg isBelow] at met
        cases met
  refine ⟨?_, ?_, ?_, ?_, ?_, ?_, ?_, ?_⟩
  · intro seq seqMem
    rcases SeqMap.exists_getElem? seqMem with
      ⟨depth, found⟩
    exact (waits seq depth found).1
  · exact fun seq depth found => (waits seq depth found).2
  · intro seq sent atSent
    rcases banded.lookup_cases atSent with before | ⟨-, atBest, -⟩
    · exact inv.sent seq sent before
    · exact (bestSound seq sent.depth atBest).2
  · intro seq seqMem
    rcases Option.isSome_iff_exists.mp (AList.lookup_isSome.mpr seqMem) with ⟨sent, atSent⟩
    rcases banded.lookup_cases atSent with before | ⟨isAbove, -⟩
    · exact floorLe.trans (inv.above seq (AList.lookup_isSome.mp (by rw [before]; rfl)))
    · exact isAbove
  · intro seq sent atSent
    rcases banded.lookup_cases atSent with before | ⟨-, -, known⟩
    · exact inv.recorded seq sent before
    · exact known
  · exact fun seq isWanted => banded.held_of_held inv bestBelow (inv.wanted seq isWanted)
  · intro seq sent atSent shallow parent parentMem
    rcases banded.lookup_cases atSent with before | ⟨isAbove, atBest, -⟩
    · exact banded.held_of_held inv bestBelow (inv.closed seq sent before shallow parent parentMem)
    · exact banded.held_of_within
        (banded.settled.closed seq sent.depth atBest isAbove shallow parent parentMem)
  · exact banded.built inv bestBelow

end Round

theorem depthBand_eq_ok_iff {width ceil : ℕ} {next : SeqMap ℕ}
    (top : frontier.keys.getLast? = some ceil) :
    graph.depthBand width limit collect frontier classified = .ok (next, result) ↔
      ∃ band, graph.index.expandDepth
          (frontier.toList.filter fun entry => ceil - (width - 1) ≤ entry.1)
          (ceil - (width - 1)) limit = .ok band ∧
        band.reached.foldlM (graph.classifyCommit collect) classified = .ok result ∧
        next = nextDepths frontier (ceil - (width - 1)) band.below := by
  simp only [depthBand, top, Except.bind_eq_ok_iff, Except.pure_eq_ok_iff, Prod.mk.injEq]
  constructor
  · rintro ⟨band, expanded, _, classify, rfl, rfl⟩
    exact ⟨band, expanded, classify, rfl⟩
  · rintro ⟨band, expanded, classify, rfl⟩
    exact ⟨band, expanded, _, classify, rfl, rfl⟩

/-- What a finished depth walk has classified: the invariant with nothing left to wait for. -/
def Classified (graph : RepoGraph) (wants : List ℕ) (limit : ℕ) (collect : Bool)
    (classified : DepthClassified) : Prop :=
  graph.DepthInv wants limit collect 0 ∅ classified

theorem DepthInv.classified_of_isEmpty
    (inv : graph.DepthInv wants limit collect bound frontier classified)
    (empty : ∀ seq : ℕ, frontier[seq]? = none) :
    graph.Classified wants limit collect classified := by
  have settled : ∀ {seq depth}, Held frontier classified seq depth →
      Held ∅ classified seq depth := by
    rintro seq depth (sent | ⟨found, -, atFrontier⟩)
    · exact Or.inl sent
    · rw [empty] at atFrontier
      cases atFrontier
  refine ⟨?_, ?_, inv.sent, fun _ _ => Nat.zero_le _, inv.recorded, ?_, ?_, inv.built⟩
  · intro seq seqMem
    simp at seqMem
  · intro seq depth found
    simp at found
  · exact fun seq isWanted => settled (inv.wanted seq isWanted)
  · exact fun seq sent atSent shallow parent parentMem =>
      settled (inv.closed seq sent atSent shallow parent parentMem)

theorem depthRounds_classified (monotone : graph.index.SeqMonotone) {rounds : ℕ}
    (inv : graph.DepthInv wants limit collect bound frontier classified) (enough : bound ≤ rounds)
    (walked : graph.depthRounds limit collect rounds policy frontier classified = .ok result) :
    graph.Classified wants limit collect result := by
  induction rounds generalizing bound policy frontier classified with
  | zero =>
    cases walked
    refine inv.classified_of_isEmpty fun seq => ?_
    by_contra found
    have waits := inv.below seq
      (Std.TreeMap.mem_iff_isSome_getElem?.mpr (Option.isSome_iff_ne_none.mpr found))
    omega
  | succ rounds ih =>
    rw [depthRounds] at walked
    split at walked
    next empty =>
      cases walked
      exact inv.classified_of_isEmpty fun seq => Std.TreeMap.getElem?_of_isEmpty empty
    next notEmpty =>
      rw [Except.bind_eq_ok_iff] at walked
      rcases walked with ⟨⟨next, between⟩, bandOk, rest⟩
      rcases exists_top notEmpty with ⟨ceil, top⟩
      rcases (depthBand_eq_ok_iff top).mp bandOk with ⟨band, expanded, classify, rfl⟩
      rcases CommitIndex.expandDepth_settled expanded with ⟨best, settled, bandRounds, relaxed⟩
      have ceilLt := inv.below ceil (mem_of_getLast?_keys top)
      have step := inv.round (by omega) ⟨settled, classify⟩ (inv.best_sound monotone relaxed)
      exact ih step (by omega) rest

theorem depthInv_start (positive : 0 < limit)
    (starts : frontier = wants.foldl (fun frontier seq => lowerTo frontier seq 1) ∅)
    (below : ∀ seq ∈ frontier, seq < bound) :
    graph.DepthInv wants limit collect bound frontier { sent := ∅, needed := ∅ } := by
  have listed : frontier = (wants.map (·, 1)).foldl
      (fun frontier entry => lowerTo frontier entry.1 entry.2) ∅ := by
    rw [starts, foldl_map]
  have unsent : ∀ {seq sent}, (∅ : AList fun _ : ℕ => SentCommit).lookup seq ≠ some sent := by
    intro seq sent found
    rw [AList.lookup_empty] at found
    cases found
  refine ⟨below, ?_, fun _ _ found => absurd found unsent, ?_, fun _ _ found => absurd found unsent,
    ?_, fun _ _ found => absurd found unsent, [], nodup_nil, ?_, fun _ => rfl⟩
  · intro seq depth found
    rw [listed] at found
    rcases getElem?_foldl_lowerTo found with before | entryMem
    · simp at before
    · rcases mem_map.mp entryMem with ⟨want, wantMem, same⟩
      cases same
      exact ⟨.want wantMem, positive⟩
  · intro seq seqMem
    cases seqMem
  · intro seq isWanted
    right
    rw [listed, within_foldl_lowerTo]
    exact Or.inr ⟨1, le_rfl, mem_map.mpr ⟨seq, isWanted, rfl⟩⟩
  · exact fun seq => Iff.rfl

theorem depthClassify_classified (monotone : graph.index.SeqMonotone) (positive : 0 < limit)
    (walked : graph.depthClassify wants limit collect policy = .ok classified) :
    graph.Classified wants limit collect classified := by
  rw [depthClassify] at walked
  exact depthRounds_classified monotone
    (depthInv_start positive rfl fun _ => lt_of_mem_frontier) le_rfl walked

theorem Classified.sent_of_atDepth (walked : graph.Classified wants limit collect classified)
    (atDepth : graph.index.AtDepth wants depth seq) (within : depth ≤ limit) :
    ∃ sent, classified.sent.lookup seq = some sent ∧ sent.depth ≤ depth := by
  have settled : ∀ {seq depth}, Held ∅ classified seq depth →
      ∃ sent, classified.sent.lookup seq = some sent ∧ sent.depth ≤ depth := by
    rintro seq depth (sent | ⟨found, -, atFrontier⟩)
    · exact sent
    · simp at atFrontier
  induction atDepth with
  | want wanted => exact settled (walked.wanted _ wanted)
  | parent child isParent ih =>
    rcases ih (by omega) with ⟨sent, atSent, small⟩
    rcases settled (walked.closed _ sent atSent (by omega) _ isParent) with
      ⟨parentSent, atParent, parentSmall⟩
    exact ⟨parentSent, atParent, by omega⟩

/-! ## The commit side of a fetch cut at a depth -/

/-- The commits a deepened walk is seeded with besides the wants: the parents of the
unshallowed ones. -/
def unshallowedParents (classified : DepthClassified) (clientShallow : List ℕ) (depth : ℕ) :
    List ℕ :=
  ((classified.unshallowedSeqs clientShallow depth).filterMap classified.sent.lookup).flatMap
    SentCommit.parentSeqs

/-- How the answer to a fetch cut at a depth follows from the classified commits. -/
structure CutAt (graph : RepoGraph) (seeds : WalkSeeds) (depth : ℕ)
    (classified : DepthClassified) (walked : ShallowCommits) : Prop where
  positive : 0 < depth
  walk : graph.Classified seeds.wants depth seeds.haves.isEmpty classified
  shallow : walked.shallow = ((classified.boundarySeqs depth).filter
    fun seq => seq ∉ seeds.shallow).filterMap
      fun seq => (classified.sent.lookup seq).map SentCommit.oid
  unshallow : walked.unshallow = (classified.unshallowedSeqs seeds.shallow depth).filterMap
    fun seq => (classified.sent.lookup seq).map SentCommit.oid
  roots : walked.boundaryRoots = ((classified.boundarySeqs depth).filterMap
    classified.sent.lookup).map SentCommit.rootTreeSeq
  fast : seeds.haves.isEmpty = true → walked.needed = classified.needed
  painted : seeds.haves.isEmpty = false → graph.BuiltFrom
    (seeds.wants ++ unshallowedParents classified seeds.shallow depth) seeds.haves
    (classified.boundarySeqs depth ++ seeds.shallow) seeds.shallow walked.needed

theorem neededCommitsShallow_eq_ok (monotone : graph.index.SeqMonotone) {seeds : WalkSeeds}
    {walked : ShallowCommits} (walk : graph.neededCommitsShallow seeds depth policy = .ok walked) :
    seeds.wants = [] ∨ ∃ classified, graph.CutAt seeds depth classified walked := by
  rw [neededCommitsShallow] at walk
  split at walk
  next => cases walk
  next positive =>
    split at walk
    next noWants => exact Or.inl (List.isEmpty_iff.mp noWants)
    next =>
      right
      rw [Except.bind_eq_ok_iff] at walk
      rcases walk with ⟨classified, classify, rest⟩
      have classed := depthClassify_classified monotone (Nat.pos_of_ne_zero positive) classify
      refine ⟨classified, ?_⟩
      cases fast : seeds.haves.isEmpty with
      | true =>
        simp only [fast, if_true] at rest
        cases rest
        exact ⟨Nat.pos_of_ne_zero positive, fast ▸ classed, rfl, rfl, rfl, fun _ => rfl,
          fun slow => by simp [fast] at slow⟩
      | false =>
        simp only [fast, Bool.false_eq_true, if_false, Except.bind_eq_ok_iff] at rest
        rcases rest with ⟨needed, paint, built⟩
        cases built
        refine ⟨Nat.pos_of_ne_zero positive, fast ▸ classed, rfl, rfl, rfl,
          fun isFast => by simp [fast] at isFast, fun _ => ?_⟩
        exact bandedPaintWalk_builtFrom monotone
          (fun seq isBlocked => mem_append_right _ isBlocked) paint

section CutAt

variable {seeds : WalkSeeds} {depth : ℕ} {classified : DepthClassified} {walked : ShallowCommits}

variable {seq : ℕ}

theorem mem_boundarySeqs : seq ∈ classified.boundarySeqs depth ↔
    ∃ sent, classified.sent.lookup seq = some sent ∧ sent.depth = depth := by
  simp only [DepthClassified.boundarySeqs, mem_map, mem_filter, decide_eq_true_eq]
  constructor
  · rintro ⟨⟨other, sent⟩, ⟨entryMem, atDepth⟩, rfl⟩
    exact ⟨sent, AList.mem_lookup_iff.mpr entryMem, atDepth⟩
  · rintro ⟨sent, found, atDepth⟩
    exact ⟨⟨seq, sent⟩, ⟨AList.mem_lookup_iff.mp found, atDepth⟩, rfl⟩

theorem mem_unshallowedSeqs {clientShallow : List ℕ} :
    seq ∈ classified.unshallowedSeqs clientShallow depth ↔ seq ∈ clientShallow ∧
      ∃ sent, classified.sent.lookup seq = some sent ∧ sent.depth ≠ depth := by
  simp only [DepthClassified.unshallowedSeqs, mem_filter, Option.any_eq_true,
    decide_eq_true_eq]

section

variable (cut : graph.CutAt seeds depth classified walked)

include cut

theorem CutAt.mem_shallow (isBoundary : seq ∈ classified.boundarySeqs depth)
    (isNew : seq ∉ seeds.shallow) : ∃ oid ∈ walked.shallow, graph.oidOf seq = some oid := by
  rcases mem_boundarySeqs.mp isBoundary with ⟨sent, found, -⟩
  refine ⟨sent.oid, ?_, (cut.walk.recorded seq sent found).1⟩
  rw [cut.shallow, mem_filterMap]
  refine ⟨seq, mem_filter.mpr ⟨isBoundary, by simpa using isNew⟩, ?_⟩
  rw [found]
  rfl

theorem CutAt.of_mem_unshallow {oid : ObjectId} (listed : oid ∈ walked.unshallow) :
    ∃ seq ∈ classified.unshallowedSeqs seeds.shallow depth, graph.oidOf seq = some oid := by
  rw [cut.unshallow, mem_filterMap] at listed
  rcases listed with ⟨seq, isUnshallowed, named⟩
  rcases Option.map_eq_some_iff.mp named with ⟨sent, found, rfl⟩
  exact ⟨seq, isUnshallowed, (cut.walk.recorded seq sent found).1⟩

theorem CutAt.mem_roots (isBoundary : seq ∈ classified.boundarySeqs depth) {entry : CommitEntry}
    (found : graph.index.lookup seq = some entry) : entry.rootTree ∈ walked.boundaryRoots := by
  rcases mem_boundarySeqs.mp isBoundary with ⟨sent, atSent, -⟩
  rcases (cut.walk.recorded seq sent atSent).2.2 with ⟨other, atOther, root⟩
  obtain rfl : other = entry := Option.some.inj (atOther.symm.trans found)
  rw [cut.roots, ← root]
  exact mem_map_of_mem (mem_filterMap.mpr ⟨seq, isBoundary, atSent⟩)

end

theorem mem_unshallowedParents (walk : graph.Classified wants depth collect classified)
    {clientShallow : List ℕ} {parent : ℕ}
    (isUnshallowed : seq ∈ classified.unshallowedSeqs clientShallow depth)
    (isParent : parent ∈ graph.index.parents seq) :
    parent ∈ unshallowedParents classified clientShallow depth := by
  rcases (mem_unshallowedSeqs.mp isUnshallowed).2 with ⟨sent, found, -⟩
  refine mem_flatMap.mpr ⟨sent, mem_filterMap.mpr ⟨seq, isUnshallowed, found⟩, ?_⟩
  rw [(walk.recorded seq sent found).2.1]
  exact isParent

end CutAt

/-! ## A recorded history is walked without error -/

theorem expandDepth_isOk {index : CommitIndex} (closed : index.ParentClosed) (limit : ℕ)
    {seeds : List (ℕ × ℕ)} (seeded : ∀ seed ∈ seeds, seed.1 ∈ index.keys) (floor : ℕ) :
    ∃ band, index.expandDepth seeds floor limit = .ok band ∧
      ∀ seq ∈ band.below, seq ∈ index.keys := by
  have readable : ∀ seq, seq ∈ index.keys → ∃ parents, index.parentsOrError floor seq =
      .ok parents ∧ ∀ parent ∈ parents, parent ∈ index.keys := fun seq known =>
    ⟨_, CommitIndex.parentsOrError_eq_ok_iff.mpr ⟨known, rfl⟩, closed seq⟩
  have relaxes : ∃ best, Relax.relax floor limit (index.parentsOrError floor)
      (seeds.length + (index.keys.map fun seq => (index.parents seq).length * limit).sum)
      seeds.reverse ∅ = .ok best :=
    Relax.relax_isOk readable fun entry entryMem => seeded entry (mem_reverse.mp entryMem)
  rcases relaxes with ⟨best, relaxed⟩
  have bestKnown : ∀ seq depth, best[seq]? = some depth → seq ∈ index.keys := by
    refine Relax.relax_invariant (fun seq _ => seq ∈ index.keys) ?_ ?_ ?_ relaxed
    · intro seq depth parents _ _ _ readParents parent parentMem
      rcases CommitIndex.parentsOrError_eq_ok_iff.mp readParents with ⟨-, rfl⟩
      exact closed seq parent parentMem
    · exact fun seq depth entryMem => seeded (seq, depth) (mem_reverse.mp entryMem)
    · intro seq depth found
      simp at found
  have reaches : ∃ reached, (best.toList.filter fun found => floor ≤ found.1).mapM
      (index.reachedAt floor) = .ok reached := by
    refine Except.mapM_isOk fun found foundMem => ?_
    rw [mem_filter, Std.TreeMap.mem_toList_iff_getElem?_eq_some] at foundMem
    rcases Option.isSome_iff_exists.mp
      (AList.lookup_isSome.mpr (bestKnown found.1 found.2 foundMem.1)) with ⟨entry, atEntry⟩
    exact ⟨{ seq := found.1, depth := found.2, rootTree := entry.rootTree },
      CommitIndex.reachedAt_eq_ok_iff.mpr ⟨rfl, entry, atEntry, rfl⟩⟩
  rcases reaches with ⟨reached, mapped⟩
  refine ⟨{ reached, below := best.filter fun seq _ => seq < floor }, ?_, ?_⟩
  · rw [CommitIndex.expandDepth, relaxed]
    simp only [Except.bind_eq_ok_iff, Except.pure_eq_ok_iff]
    exact ⟨best, rfl, reached, mapped, rfl⟩
  · intro seq seqMem
    have held := (Std.TreeMap.mem_filter.mp seqMem).1
    rcases SeqMap.exists_getElem? held with
      ⟨depth, found⟩
    exact bestKnown seq depth found

theorem classifyCommits_isOk (recorded : graph.Recorded)
    {reached : List CommitIndex.ReachedCommit}
    (known : ∀ one ∈ reached, one.seq ∈ graph.index.keys) (classified : DepthClassified) :
    ∃ result, reached.foldlM (graph.classifyCommit collect) classified = .ok result := by
  induction reached generalizing classified with
  | nil => exact ⟨classified, rfl⟩
  | cons one reached ih =>
    have isKnown := known one mem_cons_self
    rcases recorded.packed one.seq isKnown with ⟨pack, packed⟩
    rcases recorded.named one.seq isKnown with ⟨oid, named⟩
    have later := ih fun other otherMem => known other (mem_cons_of_mem _ otherMem)
    rw [foldlM_cons, classifyCommit, named]
    cases collect with
    | false => exact later _
    | true =>
      simp only [if_true, packed]
      exact later _

theorem depthRounds_isOk (recorded : graph.Recorded) {rounds : ℕ}
    (known : ∀ seq ∈ frontier, seq ∈ graph.index.keys) (classified : DepthClassified) :
    ∃ result, graph.depthRounds limit collect rounds policy frontier classified = .ok result := by
  induction rounds generalizing policy frontier classified with
  | zero => exact ⟨classified, rfl⟩
  | succ rounds ih =>
    rw [depthRounds]
    split
    next => exact ⟨classified, rfl⟩
    next notEmpty =>
      rcases exists_top notEmpty with ⟨ceil, top⟩
      have seeded : ∀ seed ∈ frontier.toList.filter fun entry =>
          ceil - (policy.width - 1) ≤ entry.1, seed.1 ∈ graph.index.keys := by
        rintro ⟨seq, depth⟩ seedMem
        rw [mem_filter, Std.TreeMap.mem_toList_iff_getElem?_eq_some] at seedMem
        exact known seq (SeqMap.mem_of_getElem? seedMem.1)
      rcases expandDepth_isOk recorded.closed limit seeded
        (ceil - (policy.width - 1)) with ⟨band, expanded, belowKnown⟩
      rcases CommitIndex.expandDepth_settled expanded with ⟨best, settled, -⟩
      have reachedKnown : ∀ one ∈ band.reached, one.seq ∈ graph.index.keys := by
        intro one oneMem
        rcases ((settled.reached one).mp oneMem).2.2 with ⟨entry, atEntry, -⟩
        exact AList.lookup_isSome.mp (by rw [atEntry]; rfl)
      rcases classifyCommits_isOk recorded reachedKnown classified with ⟨result, classify⟩
      rw [(depthBand_eq_ok_iff top).mpr ⟨band, expanded, classify, rfl⟩]
      refine ih (fun seq seqMem => ?_) result
      rcases SeqMap.exists_getElem? seqMem with
        ⟨depth, found⟩
      rcases getElem?_nextDepths found with ⟨-, before⟩ | met
      · exact known seq (SeqMap.mem_of_getElem? before)
      · exact belowKnown seq (SeqMap.mem_of_getElem? met)

theorem depthClassify_isOk (recorded : graph.Recorded)
    (known : ∀ seq ∈ wants, seq ∈ graph.index.keys) (policy : BandPolicy) :
    ∃ classified, graph.depthClassify wants limit collect policy = .ok classified := by
  rw [depthClassify]
  refine depthRounds_isOk recorded (fun seq seqMem => ?_) _
  have listed : wants.foldl (fun frontier seq => lowerTo frontier seq 1) ∅ =
      (wants.map (·, 1)).foldl (fun frontier entry => lowerTo frontier entry.1 entry.2) ∅ := by
    rw [foldl_map]
  rw [listed] at seqMem
  rcases SeqMap.exists_getElem? seqMem with
    ⟨depth, found⟩
  rcases getElem?_foldl_lowerTo found with before | entryMem
  · simp at before
  · rcases mem_map.mp entryMem with ⟨want, wantMem, same⟩
    cases same
    exact known seq wantMem

theorem neededCommitsShallow_isOk (recorded : graph.Recorded) {seeds : WalkSeeds}
    (known : ∀ seq, seq ∈ seeds.wants ∨ seq ∈ seeds.haves → seq ∈ graph.index.keys)
    (positive : 0 < depth) (policy : BandPolicy) :
    ∃ walked, graph.neededCommitsShallow seeds depth policy = .ok walked := by
  rw [neededCommitsShallow, if_neg (Nat.ne_of_gt positive)]
  split
  next => exact ⟨_, rfl⟩
  next =>
    have classifies : ∃ classified, graph.depthClassify seeds.wants depth seeds.haves.isEmpty
        policy = .ok classified :=
      depthClassify_isOk recorded (fun seq isWant => known seq (Or.inl isWant)) policy
    rcases classifies with ⟨classified, classify⟩
    have classed := depthClassify_classified recorded.monotone positive classify
    simp only [classify, Except.bind_eq_ok_iff]
    cases fast : seeds.haves.isEmpty with
    | true => exact ⟨_, classified, rfl, rfl⟩
    | false =>
      have seeded : ∀ seq, seq ∈ seeds.wants ++
          unshallowedParents classified seeds.shallow depth ∨ seq ∈ seeds.haves →
          seq ∈ graph.index.keys := by
        rintro seq (isSeed | isHave)
        · rcases mem_append.mp isSeed with isWant | isParent
          · exact known seq (Or.inl isWant)
          · rcases mem_flatMap.mp isParent with ⟨sent, listed, parentMem⟩
            rcases mem_filterMap.mp listed with ⟨child, -, found⟩
            rw [(classed.recorded child sent found).2.1] at parentMem
            exact recorded.closed child seq parentMem
        · exact known seq (Or.inr isHave)
      have paints : ∃ needed, graph.bandedPaintWalk
          (seeds.wants ++ unshallowedParents classified seeds.shallow depth) seeds.haves
          (classified.boundarySeqs depth ++ seeds.shallow) seeds.shallow policy = .ok needed :=
        bandedPaintWalk_isOk recorded seeded policy
      rcases paints with ⟨needed, painted⟩
      simp only [Except.bind_eq_ok_iff, Bool.false_eq_true, if_false]
      exact ⟨_, classified, rfl, needed, painted, rfl⟩

end RepoGraph

end Enroute
