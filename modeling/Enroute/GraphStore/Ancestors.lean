import Enroute.GraphStore.MergeBases
import Enroute.Lib.Table

/-!
# Ancestor questions

Three questions about the history of one commit: whether it holds a given commit, which of some
candidates it holds, and the page of first parents it starts with. Each reads the graph one band at
a time and never sees the commits outside the band. Numbers grow along the history, so a band read
from its highest commit down to its floor holds everything a walk expands in it, and what the walk
leaves below the floor is where the rest of the history begins.
-/

namespace Enroute

open List Relation

namespace CommitIndex

def between (index : CommitIndex) (floor ceil : ℕ) : CommitIndex where
  entries := index.entries.filter fun entry => floor ≤ entry.1 ∧ entry.1 ≤ ceil
  nodupKeys := List.NodupKeys.sublist filter_sublist index.nodupKeys

end CommitIndex

/-- A numbered history: parents are recorded below their children, every recorded commit has its
oid, and commits and numbers correspond one to one. -/
structure RepoGraph.Numbered (graph : RepoGraph) : Prop where
  monotone : graph.index.SeqMonotone
  closed : graph.index.ParentClosed
  named : ∀ seq ∈ graph.index.keys, ∃ oid, graph.oidOf seq = some oid
  numbered : ∀ oid seq, graph.seqOf oid = some seq ↔ graph.oidOf seq = some oid

def ceiling (seeds : List ℕ) (floor : ℕ) : ℕ :=
  max (seeds.max?.getD floor) floor

def missing (seq : ℕ) : String :=
  "the commit graph does not hold commit " ++ toString seq

def pageBand : ℕ := 4096

/-- Follow first parents while the band still holds them. Answers where it stopped: a parent below
the band, or nothing for a root or a full page. -/
def follow (index : CommitIndex) (floor limit : ℕ) :
    ℕ → Option ℕ → List ℕ → ExceptT String Option (Option ℕ × List ℕ)
  | _, none, page => pure (none, page)
  | 0, some _, _ => ExceptT.mk none
  | steps + 1, some seq, page =>
    if seq < floor then pure (some seq, page)
    else if limit ≤ page.length then pure (none, page)
    else
      match index.lookup seq with
      | none => Except.done (.error (missing seq))
      | some entry => follow index floor limit steps entry.parents.head? (page ++ [seq])

namespace RepoGraph

/-- Everything the seeds reach down to the floor, and what they reached below it, over one read of
the band. -/
def expandAncestorBand (graph : RepoGraph) (seeds : List ℕ) (floor : ℕ) :
    Except String (Finset ℕ × Finset ℕ) :=
  (graph.index.between floor (ceiling seeds floor)).expandAncestors seeds floor

def ancestorRounds (graph : RepoGraph) (ancestor : ℕ) :
    ℕ → BandPolicy → Finset ℕ → ExceptT String Option Bool
  | 0, _, _ => ExceptT.mk none
  | rounds + 1, policy, frontier =>
    match frontier.max with
    | none => pure false
    | some ceil => do
        let floor := max (ceil - (policy.width - 1)) ancestor
        let (visited, below) ←
          Except.done (graph.expandAncestorBand (frontier.sort (· ≤ ·)) floor)
        if ancestor ∈ visited then pure true
        -- The floor was not held up by the width: this round searched down to the target.
        else if floor ≤ ancestor then pure false
        else graph.ancestorRounds ancestor rounds policy.grow below

def bandedIsAncestor (graph : RepoGraph) (ancestor descendant : ℕ) (policy : BandPolicy) :
    ExceptT String Option Bool :=
  if ancestor = descendant then pure true
  else if descendant < ancestor then pure false
  else graph.ancestorRounds ancestor (descendant + 1) policy {descendant}

def wanted (graph : RepoGraph) (candidates : List ObjectId) : AList fun _ : ℕ => ObjectId :=
  Table.enter Prod.fst Prod.snd
    (candidates.filterMap fun oid => (graph.seqOf oid).map fun seq => (seq, oid)) ∅

/-- Which of the candidates the history of the seed reaches, down to so many numbers below it. -/
def ancestorsAmong (graph : RepoGraph) (seed : ObjectId) (candidates : List ObjectId)
    (maxCommits : ℕ) : Except String (Finset ObjectId) :=
  if candidates = [] then .ok ∅
  else
    match graph.seqOf seed, (graph.wanted candidates).keys.min? with
    | none, _ => .ok ∅
    | some _, none => .ok ∅
    | some seedSeq, some lowest => do
        let floor := max lowest (seedSeq - maxCommits)
        let (visited, below) ← (graph.index.between floor seedSeq).expandAncestors [seedSeq] floor
        let met := (visited ∪ below).sort (· ≤ ·)
        return (met.filterMap (graph.wanted candidates).lookup).toFinset

def pageRounds (graph : RepoGraph) (limit : ℕ) :
    ℕ → Option ℕ → List ℕ → ExceptT String Option (List ℕ)
  | _, none, page => pure page
  | 0, some _, _ => ExceptT.mk none
  | rounds + 1, some seq, page =>
    if limit ≤ page.length then pure page
    else do
      let floor := seq - pageBand
      let (at_, page) ←
        follow (graph.index.between floor seq) floor limit (seq + 1) (some seq) page
      graph.pageRounds limit rounds at_ page

def firstParentPage (graph : RepoGraph) (tip : ObjectId) (limit : ℕ) :
    ExceptT String Option (List ObjectId) :=
  if limit = 0 then pure []
  else
    match graph.seqOf tip with
    | none => pure []
    | some tip => do
        let page ← graph.pageRounds limit (tip + 1) (some tip) []
        Except.done (page.mapM fun seq => (graph.oidOf seq).elim (.error (unnamed seq)) .ok)

end RepoGraph

/-! ## One band -/

namespace CommitIndex

variable {index : CommitIndex} {floor ceil : ℕ}

variable {seq : ℕ}

section

variable (above : floor ≤ seq) (under : seq ≤ ceil)

include above under

theorem lookup_between : (index.between floor ceil).lookup seq = index.lookup seq := by
  refine Option.ext fun entry => ?_
  rw [← Option.mem_def, ← Option.mem_def, AList.mem_lookup_iff, AList.mem_lookup_iff, between]
  simp [above, under]

theorem parents_between : (index.between floor ceil).parents seq = index.parents seq := by
  rw [parents, parents, lookup_between above under]

theorem mem_keys_between (inside : seq ∈ index.keys) : seq ∈ (index.between floor ceil).keys := by
  rw [← AList.mem_keys, ← AList.lookup_isSome] at inside ⊢
  rwa [lookup_between above under]

end

theorem above_between_iff (monotone : index.SeqMonotone) {seed : ℕ} (under : seed ≤ ceil) :
    ReflTransGen (Descent.Above (index.between floor ceil).HasParent floor) seed seq ↔
      ReflTransGen (Descent.Above index.HasParent floor) seed seq := by
  have sameParents : ∀ {child parent}, child ≤ ceil → (Descent.Above
      (index.between floor ceil).HasParent floor child parent ↔
        Descent.Above index.HasParent floor child parent) := by
    intro child parent childUnder
    refine and_congr_right fun above => ?_
    rw [HasParent, HasParent, parents_between above childUnder]
  constructor
  · intro path
    induction path with
    | refl => exact .refl
    | tail _ last ih =>
      have passed := Descent.le_of_path monotone (Descent.above_path ih)
      exact ih.tail ((sameParents (passed.trans under)).mp last)
  · intro path
    induction path with
    | refl => exact .refl
    | tail before last ih =>
      have passed := Descent.le_of_path monotone (Descent.above_path before)
      exact ih.tail ((sameParents (passed.trans under)).mpr last)

theorem expandAncestors_between_exact (monotone : index.SeqMonotone) {seeds : List ℕ}
    (under : ∀ seed ∈ seeds, seed ≤ ceil) {visited below : Finset ℕ}
    (expanded : (index.between floor ceil).expandAncestors seeds floor = .ok (visited, below))
    (seq : ℕ) :
    (seq ∈ visited ↔ floor ≤ seq ∧
      ∃ seed ∈ seeds, ReflTransGen (Descent.Above index.HasParent floor) seed seq) ∧
    (seq ∈ below ↔ seq < floor ∧
      ∃ seed ∈ seeds, ReflTransGen (Descent.Above index.HasParent floor) seed seq) := by
  have samePaths : (∃ seed ∈ seeds, ReflTransGen (Descent.Above
      (index.between floor ceil).HasParent floor) seed seq) ↔
        ∃ seed ∈ seeds, ReflTransGen (Descent.Above index.HasParent floor) seed seq :=
    exists_congr fun seed => and_congr_right fun seedMem =>
      above_between_iff monotone (under seed seedMem)
  rw [← samePaths]
  exact expandAncestors_exact expanded seq

theorem expandAncestors_between_isOk (monotone : index.SeqMonotone) (closed : index.ParentClosed)
    {seeds : List ℕ} (known : ∀ seed ∈ seeds, seed ∈ index.keys)
    (under : ∀ seed ∈ seeds, seed ≤ ceil) :
    ∃ split, (index.between floor ceil).expandAncestors seeds floor = .ok split := by
  have seeded : ∀ seed ∈ seeds, seed ∈ index.keys ∧ seed ≤ ceil := fun seed seedMem =>
    ⟨known seed seedMem, under seed seedMem⟩
  refine expandAncestors_isOk_of seeded ?_
  rintro seq ⟨inside, seqUnder⟩ above
  refine ⟨mem_keys_between above seqUnder inside, fun parent isParent => ?_⟩
  rw [parents_between above seqUnder] at isParent
  exact ⟨closed seq parent isParent, (monotone seq parent isParent).le.trans seqUnder⟩

theorem mem_keys_of_above (closed : index.ParentClosed) {seed : ℕ} (known : seed ∈ index.keys)
    (path : ReflTransGen (Descent.Above index.HasParent floor) seed seq) : seq ∈ index.keys :=
  IsAncestor.mem_keys closed known (Descent.above_path path)

end CommitIndex

theorem le_ceiling {seeds : List ℕ} {floor seed : ℕ} (seedMem : seed ∈ seeds) :
    seed ≤ ceiling seeds floor := by
  have bounded := le_max?_getD_of_mem (k := floor) seedMem
  exact le_max_of_le_left bounded

/-! ## The walk for an ancestor -/

namespace RepoGraph

variable {graph : RepoGraph}

theorem exists_below_iff {index : CommitIndex} (monotone : index.SeqMonotone) {ancestor floor : ℕ}
    (short : ancestor < floor) {seeds below : Finset ℕ}
    (exactly : ∀ seq, seq ∈ below ↔ seq < floor ∧
      ∃ seed ∈ seeds, ReflTransGen (Descent.Above index.HasParent floor) seed seq) :
    (∃ seed ∈ below, index.IsAncestor ancestor seed) ↔
      ∃ seed ∈ seeds, index.IsAncestor ancestor seed := by
  constructor
  · rintro ⟨crossing, crossingMem, rest⟩
    rcases (exactly crossing).mp crossingMem with ⟨-, seed, seedMem, down⟩
    exact ⟨seed, seedMem, (Descent.above_path down).trans rest⟩
  · rintro ⟨seed, seedMem, path⟩
    by_cases starts : floor ≤ seed
    · rcases Descent.exists_crossing monotone path starts short with ⟨crossing, under, down, rest⟩
      exact ⟨crossing, (exactly crossing).mpr ⟨under, seed, seedMem, down⟩, rest⟩
    · exact ⟨seed, (exactly seed).mpr ⟨not_le.mp starts, seed, seedMem, .refl⟩, path⟩

theorem ancestorRounds_exact (monotone : graph.index.SeqMonotone)
    (closed : graph.index.ParentClosed) {ancestor rounds : ℕ} {policy : BandPolicy}
    {frontier : Finset ℕ} (known : ∀ seq ∈ frontier, seq ∈ graph.index.keys) (some_ : 0 < rounds)
    (enough : ∀ seq ∈ frontier, seq < rounds) :
    ∃ answer, graph.ancestorRounds ancestor rounds policy frontier = some (.ok answer) ∧
      (answer = true ↔ ∃ seed ∈ frontier, graph.index.IsAncestor ancestor seed) := by
  induction rounds generalizing policy frontier with
  | zero => omega
  | succ rounds ih =>
    rw [ancestorRounds]
    rcases top : frontier.max with _ | ceil
    · refine ⟨false, rfl, ?_⟩
      simp [Finset.max_eq_bot.mp top]
    · have isTop : ceil ∈ frontier := Finset.mem_of_max top
      have topEnough := enough ceil isTop
      have width := policy.current_pos
      dsimp only
      generalize isFloor : max (ceil - (policy.width - 1)) ancestor = floor
      have seeded : ∀ seed ∈ frontier.sort (· ≤ ·), seed ∈ graph.index.keys := fun seed seedMem =>
        known seed ((Finset.mem_sort _).mp seedMem)
      have split : ∃ split, graph.expandAncestorBand (frontier.sort (· ≤ ·)) floor = .ok split :=
        CommitIndex.expandAncestors_between_isOk monotone closed seeded fun _ => le_ceiling
      rcases split with ⟨⟨visited, below⟩, expanded⟩
      have exactly := CommitIndex.expandAncestors_between_exact monotone
        (fun _ => le_ceiling) expanded
      simp only [Finset.mem_sort] at exactly
      rw [expanded]
      change ∃ answer, (if ancestor ∈ visited then pure true else if floor ≤ ancestor then
        pure false else graph.ancestorRounds ancestor rounds policy.grow below :
          ExceptT String Option Bool) = _ ∧ _
      split_ifs with met reaches
      · refine ⟨true, rfl, iff_of_true rfl ?_⟩
        rcases ((exactly ancestor).1.mp met).2 with ⟨seed, seedMem, path⟩
        exact ⟨seed, seedMem, Descent.above_path path⟩
      · refine ⟨false, rfl, iff_of_false Bool.false_ne_true ?_⟩
        rintro ⟨seed, seedMem, path⟩
        exact met ((exactly ancestor).1.mpr
          ⟨reaches, seed, seedMem, Descent.above_of_path monotone path reaches⟩)
      · have low : floor ≤ ceil := by omega
        have stillKnown : ∀ seq ∈ below, seq ∈ graph.index.keys := by
          intro seq seqMem
          rcases (exactly seq).2.mp seqMem with ⟨-, seed, seedMem, path⟩
          exact CommitIndex.mem_keys_of_above closed (known seed seedMem) path
        have lower : ∀ seq ∈ below, seq < rounds := fun seq seqMem => by
          have under := ((exactly seq).2.mp seqMem).1
          omega
        rcases ih stillKnown (by omega) lower with ⟨answer, answered, isExact⟩
        exact ⟨answer, answered, isExact.trans
          (exists_below_iff monotone (not_le.mp reaches) fun seq => (exactly seq).2)⟩

theorem bandedIsAncestor_exact (monotone : graph.index.SeqMonotone)
    (closed : graph.index.ParentClosed) (policy : BandPolicy) (ancestor : ℕ) {descendant : ℕ}
    (known : descendant ∈ graph.index.keys) :
    ∃ answer, graph.bandedIsAncestor ancestor descendant policy = some (.ok answer) ∧
      (answer = true ↔ graph.index.IsAncestor ancestor descendant) := by
  rw [bandedIsAncestor]
  split_ifs with same above
  · exact ⟨true, rfl, iff_of_true rfl (same ▸ .refl)⟩
  · refine ⟨false, rfl, iff_of_false Bool.false_ne_true fun isAncestor => ?_⟩
    exact absurd (isAncestor.le monotone) (not_le.mpr above)
  · have starts : ∀ {property : ℕ → Prop}, property descendant →
        ∀ seq ∈ ({descendant} : Finset ℕ), property seq := fun holds seq seqMem =>
      Finset.mem_singleton.mp seqMem ▸ holds
    rcases ancestorRounds_exact monotone closed (starts known) (Nat.succ_pos descendant)
      (starts (Nat.lt_succ_self _)) with ⟨answer, answered, isExact⟩
    refine ⟨answer, answered, isExact.trans ?_⟩
    simp only [Finset.mem_singleton, exists_eq_left]

/-! ## Ancestors among candidates -/

variable {candidates : List ObjectId} {oid : ObjectId}

theorem mem_of_wanted {seq : ℕ} (found : (graph.wanted candidates).lookup seq = some oid) :
    oid ∈ candidates ∧ graph.seqOf oid = some seq := by
  rcases Table.lookup_enter_eq_some found with ⟨⟨_, _⟩, listed, rfl, rfl⟩ | absent
  · rcases mem_filterMap.mp listed with ⟨candidate, inCandidates, numbered⟩
    rcases Option.map_eq_some_iff.mp numbered with ⟨number, isNumber, same⟩
    cases same
    exact ⟨inCandidates, isNumber⟩
  · cases absent

theorem wanted_of_mem
    (numbered : ∀ oid seq, graph.seqOf oid = some seq ↔ graph.oidOf seq = some oid) {seq : ℕ}
    (listed : oid ∈ candidates) (isNumber : graph.seqOf oid = some seq) :
    (graph.wanted candidates).lookup seq = some oid := by
  have entered : seq ∈ graph.wanted candidates := by
    refine Table.mem_enter_of_mem (mem_map.mpr ⟨(seq, oid), ?_, rfl⟩)
    exact mem_filterMap.mpr ⟨oid, listed, by rw [isNumber]; rfl⟩
  rcases Option.isSome_iff_exists.mp (AList.lookup_isSome.mpr entered) with ⟨held, found⟩
  have heldNumber := (numbered held seq).mp (mem_of_wanted found).2
  rw [(numbered oid seq).mp isNumber, Option.some.injEq] at heldNumber
  rw [found, heldNumber]

theorem ancestorsAmong_sound (monotone : graph.index.SeqMonotone) {seed : ObjectId} {maxCommits : ℕ}
    {found : Finset ObjectId}
    (searched : graph.ancestorsAmong seed candidates maxCommits = .ok found)
    (oidFound : oid ∈ found) : oid ∈ candidates ∧ ∃ seedSeq seq, graph.seqOf seed = some seedSeq ∧
      graph.seqOf oid = some seq ∧ graph.index.IsAncestor seq seedSeq := by
  rw [ancestorsAmong] at searched
  split_ifs at searched with empty
  · cases searched
    cases oidFound
  split at searched
  · cases searched
    cases oidFound
  · cases searched
    cases oidFound
  next seedSeq lowest isSeed _ =>
    rcases Except.bind_eq_ok_iff.mp searched with ⟨⟨visited, below⟩, expanded, built⟩
    cases built
    have alone : ∀ one ∈ [seedSeq], one ≤ seedSeq := by simp
    have exactly := CommitIndex.expandAncestors_between_exact monotone alone expanded
    simp only [mem_singleton, exists_eq_left] at exactly
    rcases mem_filterMap.mp (mem_toFinset.mp oidFound) with ⟨seq, met, isWanted⟩
    rcases mem_of_wanted isWanted with ⟨listed, isNumber⟩
    rw [Finset.mem_sort, Finset.mem_union, (exactly seq).1, (exactly seq).2, ← or_and_right] at met
    exact ⟨listed, seedSeq, seq, isSeed, isNumber, Descent.above_path met.2⟩

theorem ancestorsAmong_exact (history : graph.Numbered) {seed : ObjectId} {seedSeq : ℕ}
    (isSeed : graph.seqOf seed = some seedSeq) (known : seedSeq ∈ graph.index.keys)
    (candidates : List ObjectId) (maxCommits : ℕ) :
    ∃ found, graph.ancestorsAmong seed candidates maxCommits = .ok found ∧
      (∀ oid ∈ found, oid ∈ candidates ∧
        ∃ seq, graph.seqOf oid = some seq ∧ graph.index.IsAncestor seq seedSeq) ∧
      ∀ oid ∈ candidates, ∀ seq, graph.seqOf oid = some seq → seedSeq ≤ seq + maxCommits →
        graph.index.IsAncestor seq seedSeq → oid ∈ found := by
  have numberedIn : ∀ {oid seq}, oid ∈ candidates → graph.seqOf oid = some seq →
      seq ∈ (graph.wanted candidates).keys := by
    intro oid seq listed isNumber
    have found := wanted_of_mem history.numbered listed isNumber
    exact AList.mem_keys.mp (AList.lookup_isSome.mp (Option.isSome_of_eq_some found))
  have sound : ∀ found, graph.ancestorsAmong seed candidates maxCommits = .ok found →
      ∀ oid ∈ found, oid ∈ candidates ∧
        ∃ seq, graph.seqOf oid = some seq ∧ graph.index.IsAncestor seq seedSeq := by
    intro found searched oid oidFound
    rcases ancestorsAmong_sound history.monotone searched oidFound with
      ⟨listed, _, seq, isStart, isNumber, path⟩
    cases isSeed.symm.trans isStart
    exact ⟨listed, seq, isNumber, path⟩
  suffices completes : ∃ found, graph.ancestorsAmong seed candidates maxCommits = .ok found ∧
      ∀ oid ∈ candidates, ∀ seq, graph.seqOf oid = some seq → seedSeq ≤ seq + maxCommits →
        graph.index.IsAncestor seq seedSeq → oid ∈ found by
    rcases completes with ⟨found, searched, complete⟩
    exact ⟨found, searched, sound found searched, complete⟩
  rw [ancestorsAmong]
  split_ifs with empty
  · exact ⟨∅, rfl, by simp [empty]⟩
  · rw [isSeed]
    rcases lowestFound : (graph.wanted candidates).keys.min? with _ | lowest
    · refine ⟨∅, rfl, fun oid listed seq isNumber => ?_⟩
      have entered := numberedIn listed isNumber
      rw [List.min?_eq_none_iff.mp lowestFound] at entered
      exact absurd entered not_mem_nil
    · dsimp only
      generalize isFloor : max lowest (seedSeq - maxCommits) = floor
      have alone : ∀ one ∈ [seedSeq], one ≤ seedSeq := by simp
      have split : ∃ split, (graph.index.between floor seedSeq).expandAncestors [seedSeq] floor =
          .ok split := CommitIndex.expandAncestors_between_isOk history.monotone history.closed
        (by simpa using known) alone
      rcases split with ⟨⟨visited, below⟩, expanded⟩
      have exactly := CommitIndex.expandAncestors_between_exact history.monotone alone expanded
      simp only [mem_singleton, exists_eq_left] at exactly
      rw [expanded, Except.ok_bind]
      refine ⟨_, rfl, fun oid listed seq isNumber near path => ?_⟩
      have notLower := (List.min?_eq_some_iff.mp lowestFound).2 seq (numberedIn listed isNumber)
      have above : floor ≤ seq := by omega
      refine mem_toFinset.mpr (mem_filterMap.mpr
        ⟨seq, ?_, wanted_of_mem history.numbered listed isNumber⟩)
      rw [Finset.mem_sort, Finset.mem_union, (exactly seq).1]
      exact Or.inl ⟨above, Descent.above_of_path history.monotone path above⟩

end RepoGraph

/-! ## A page of first parents -/

inductive FirstParents (index : CommitIndex) : Option ℕ → List ℕ → Prop where
  | nil : FirstParents index none []
  | cons {seq : ℕ} {chain : List ℕ} (rest : FirstParents index (index.parents seq).head? chain) :
      FirstParents index (some seq) (seq :: chain)

variable {index : CommitIndex}

theorem exists_firstParents (monotone : index.SeqMonotone) (seq : ℕ) :
    ∃ chain, FirstParents index (some seq) chain := by
  induction seq using Nat.strong_induction_on with
  | _ seq ih =>
    rcases first : (index.parents seq).head? with _ | parent
    · exact ⟨[seq], .cons (first ▸ .nil)⟩
    · rcases ih parent (monotone seq parent (mem_of_head? first)) with ⟨chain, isChain⟩
      exact ⟨seq :: chain, .cons (first ▸ isChain)⟩

theorem FirstParents.mem_keys (closed : index.ParentClosed) {at_ : Option ℕ} {chain : List ℕ}
    (isChain : FirstParents index at_ chain) (known : ∀ seq ∈ at_, seq ∈ index.keys) :
    ∀ seq ∈ chain, seq ∈ index.keys := by
  induction isChain with
  | nil => simp
  | @cons seq chain _ ih =>
    rw [forall_mem_cons]
    exact ⟨known seq rfl, ih fun parent first =>
      closed seq parent (mem_of_head? (Option.mem_def.mp first))⟩

/-- A band followed down: the page and what is still to follow make up what they did before, and
what is still to follow starts below the band. -/
theorem follow_exact (monotone : index.SeqMonotone) (closed : index.ParentClosed)
    (floor ceil limit : ℕ) {steps : ℕ} {at_ : Option ℕ} {chain page : List ℕ}
    (isChain : FirstParents index at_ chain) (room : page.length ≤ limit)
    (known : ∀ seq ∈ at_, seq ∈ index.keys) (under : ∀ seq ∈ at_, seq ≤ ceil)
    (enough : ∀ seq ∈ at_, seq < steps) :
    ∃ stopped filled rest, follow (index.between floor ceil) floor limit steps at_ page =
        some (.ok (stopped, filled)) ∧ FirstParents index stopped rest ∧
      filled.length ≤ limit ∧ (filled ++ rest).take limit = (page ++ chain).take limit ∧
      ∀ seq ∈ stopped, seq < floor ∧ seq ∈ index.keys := by
  induction isChain generalizing page steps with
  | nil => exact ⟨none, page, [], by cases steps <;> rfl, .nil, room, rfl, by simp⟩
  | @cons seq chain later ih =>
    have inside := known seq rfl
    obtain ⟨steps, rfl⟩ : ∃ fewer, steps = fewer + 1 :=
      ⟨steps - 1, by have := enough seq rfl; omega⟩
    rw [follow]
    split_ifs with below full
    · refine ⟨some seq, page, seq :: chain, rfl, .cons later, room, rfl, ?_⟩
      rintro _ ⟨⟩
      exact ⟨below, inside⟩
    · refine ⟨none, page, [], rfl, .nil, room, ?_, by simp⟩
      rw [append_nil, take_append_of_le_length full]
    · rw [← AList.mem_keys, ← AList.lookup_isSome] at inside
      rcases Option.isSome_iff_exists.mp inside with ⟨entry, found⟩
      have parents : index.parents seq = entry.parents := by rw [CommitIndex.parents, found]
      rw [CommitIndex.lookup_between (not_lt.mp below) (under seq rfl), found]
      dsimp only
      rw [← parents]
      have down : ∀ parent ∈ (index.parents seq).head?, parent ∈ index.keys ∧ parent < seq :=
        fun parent first => by
          have isParent := mem_of_head? (Option.mem_def.mp first)
          exact ⟨closed seq parent isParent, monotone seq parent isParent⟩
      have longer : (page ++ [seq]).length ≤ limit := by
        rw [length_append, length_singleton]
        omega
      rcases ih longer (fun parent first => (down parent first).1)
        (fun parent first => (down parent first).2.le.trans (under seq rfl))
        (fun parent first => (down parent first).2.trans_le (Nat.lt_succ_iff.mp (enough seq rfl)))
        with ⟨stopped, filled, rest, followed, isRest, fits, same, isBelow⟩
      refine ⟨stopped, filled, rest, followed, isRest, fits, ?_, isBelow⟩
      rw [same, append_assoc, singleton_append]

namespace RepoGraph

variable {graph : RepoGraph}

theorem pageRounds_exact (monotone : graph.index.SeqMonotone) (closed : graph.index.ParentClosed)
    (limit : ℕ) {rounds : ℕ} {at_ : Option ℕ} {chain page : List ℕ}
    (isChain : FirstParents graph.index at_ chain) (room : page.length ≤ limit)
    (known : ∀ seq ∈ at_, seq ∈ graph.index.keys) (enough : ∀ seq ∈ at_, seq < rounds) :
    graph.pageRounds limit rounds at_ page = some (.ok ((page ++ chain).take limit)) := by
  induction rounds generalizing at_ chain page with
  | zero =>
    cases isChain with
    | nil => rw [pageRounds, append_nil, take_of_length_le room]; rfl
    | @cons seq => exact absurd (enough seq rfl) (Nat.not_lt_zero _)
  | succ rounds ih =>
    rcases at_ with _ | seq
    · cases isChain
      rw [pageRounds, append_nil, take_of_length_le room]
      rfl
    · rw [pageRounds]
      split_ifs with full
      · rw [take_append_of_le_length full, take_of_length_le room]
        rfl
      · have enoughSteps : ∀ next ∈ some seq, next < seq + 1 := by
          rintro _ ⟨⟩
          exact Nat.lt_succ_self seq
        rcases follow_exact monotone closed (seq - pageBand) seq limit isChain room known
          (fun next isNext => Nat.lt_succ_iff.mp (enoughSteps next isNext)) enoughSteps with
          ⟨stopped, filled, rest, followed, isRest, fits, same, isBelow⟩
        rw [Except.run_bind_eq_ok_iff]
        refine ⟨(stopped, filled), followed, ?_⟩
        dsimp only
        rw [ih isRest fits (fun next stops => (isBelow next stops).2), same]
        intro next stops
        have lower := (isBelow next stops).1
        have top := enough seq rfl
        omega

theorem firstParentPage_exact (history : graph.Numbered) {tip : ObjectId} {tipSeq : ℕ}
    (isTip : graph.seqOf tip = some tipSeq) (known : tipSeq ∈ graph.index.keys) (limit : ℕ)
    {chain : List ℕ} (isChain : FirstParents graph.index (some tipSeq) chain) :
    ∃ page, graph.firstParentPage tip limit = some (.ok page) ∧
      page.map some = (chain.take limit).map graph.oidOf := by
  rw [firstParentPage]
  split_ifs with none_
  · exact ⟨[], rfl, by rw [none_]; rfl⟩
  · have isTipKnown : ∀ seq ∈ some tipSeq, seq ∈ graph.index.keys := by
      rintro _ ⟨⟩
      exact known
    have enough : ∀ seq ∈ some tipSeq, seq < tipSeq + 1 := by
      rintro _ ⟨⟩
      exact Nat.lt_succ_self tipSeq
    have filled : graph.pageRounds limit (tipSeq + 1) (some tipSeq) [] =
        some (.ok (chain.take limit)) :=
      pageRounds_exact history.monotone history.closed limit isChain (Nat.zero_le _) isTipKnown
        enough
    have convert : ∀ {seq oid}, (graph.oidOf seq).elim (.error (unnamed seq)) .ok =
        (.ok oid : Except String ObjectId) → some oid = graph.oidOf seq := by
      intro seq oid converted
      rcases found : graph.oidOf seq with _ | held
      · rw [found] at converted
        cases converted
      · rw [found] at converted
        cases converted
        rfl
    have named : ∃ oids, (chain.take limit).mapM (fun seq => (graph.oidOf seq).elim
        (.error (unnamed seq)) .ok) = (.ok oids : Except String (List ObjectId)) := by
      refine Except.mapM_isOk fun seq seqMem => ?_
      rcases history.named seq (isChain.mem_keys history.closed isTipKnown seq
        (mem_of_mem_take seqMem)) with ⟨oid, found⟩
      exact ⟨oid, by rw [found]; rfl⟩
    rcases named with ⟨oids, mapped⟩
    rw [isTip]
    refine ⟨oids, Except.run_bind_eq_ok_iff.mpr ⟨_, filled, ?_⟩, ?_⟩
    · rw [Except.done_eq_ok_iff, mapped]
    · exact Except.map_eq_of_mapM (fun _ _ _ converted => convert converted) mapped

/-- On a numbered history, whatever the bands: the walk for an ancestor answers whether the commit
is the other one or reachable from it. The search among candidates finds only ancestors of the seed,
and all of them among the candidates numbered no further below it than the cap. A page is the first
so many commits of the chain of first parents. -/
theorem ancestorQuestions_exact (graph : RepoGraph) (history : graph.Numbered) :
    (∀ (policy : BandPolicy) (ancestor descendant : ℕ), descendant ∈ graph.index.keys →
      ∃ answer, graph.bandedIsAncestor ancestor descendant policy = some (.ok answer) ∧
        (answer = true ↔ graph.index.IsAncestor ancestor descendant)) ∧
    (∀ (seed : ObjectId) (seedSeq : ℕ) (candidates : List ObjectId) (maxCommits : ℕ),
      graph.seqOf seed = some seedSeq → seedSeq ∈ graph.index.keys →
      ∃ found, graph.ancestorsAmong seed candidates maxCommits = .ok found ∧
        (∀ oid ∈ found, oid ∈ candidates ∧
          ∃ seq, graph.seqOf oid = some seq ∧ graph.index.IsAncestor seq seedSeq) ∧
        ∀ oid ∈ candidates, ∀ seq, graph.seqOf oid = some seq → seedSeq ≤ seq + maxCommits →
          graph.index.IsAncestor seq seedSeq → oid ∈ found) ∧
    ∀ (tip : ObjectId) (tipSeq limit : ℕ), graph.seqOf tip = some tipSeq →
      tipSeq ∈ graph.index.keys → ∃ chain, FirstParents graph.index (some tipSeq) chain ∧
        ∃ page, graph.firstParentPage tip limit = some (.ok page) ∧
          page.map some = (chain.take limit).map graph.oidOf := by
  refine ⟨?_, ?_, ?_⟩
  · intro policy ancestor descendant known
    exact bandedIsAncestor_exact history.monotone history.closed policy ancestor known
  · intro seed seedSeq candidates maxCommits isSeed known
    exact ancestorsAmong_exact history isSeed known candidates maxCommits
  · intro tip tipSeq limit isTip known
    rcases exists_firstParents history.monotone tipSeq with ⟨chain, isChain⟩
    exact ⟨chain, isChain, firstParentPage_exact history isTip known limit isChain⟩

/-- Two branches that have each merged the other, each commit named by its number. -/
def crissCrossNamed : RepoGraph where
  index := CommitIndex.crissCross
  packs := fun _ => none
  seqOf := fun oid => if oid < 5 then some oid else none
  oidOf := fun seq => if seq < 5 then some seq else none

theorem crissCrossNamed_numbered : crissCrossNamed.Numbered := by
  refine ⟨CommitIndex.seqMonotone_of_entries (by decide),
    CommitIndex.parentClosed_of_entries (by decide), fun seq inside => ?_, fun oid seq => ?_⟩
  · have small : ∀ held ∈ crissCrossNamed.index.keys, held < 5 := by decide
    exact ⟨seq, if_pos (small seq inside)⟩
  · simp only [crissCrossNamed]
    grind

/-- The page of two from the second merge is the merge and the branch it was made on. -/
theorem ancestorQuestions_exact_crissCross :
    crissCrossNamed.firstParentPage 4 2 = some (.ok [4, 2]) ∧
      ∃ chain, FirstParents crissCrossNamed.index (some 4) chain ∧
        [4, 2].map some = (chain.take 2).map crissCrossNamed.oidOf := by
  have filled : crissCrossNamed.firstParentPage 4 2 = some (.ok [4, 2]) := by
    rfl
  rcases (ancestorQuestions_exact crissCrossNamed crissCrossNamed_numbered).2.2 4 4 2 rfl
    (by decide) with ⟨chain, isChain, page, isPage, named⟩
  rw [filled] at isPage
  cases isPage
  exact ⟨filled, chain, isChain, named⟩

end RepoGraph

end Enroute
