import Enroute.GraphStore.Bands

/-!
# Fetch-negotiation commit walks

A walk runs the band rounds from the highest frontier commit downwards, in bands that grow.
Numbers grow along the history, so once a band is done its paint and its depths are final. The
paint walk stops as soon as no frontier commit carries the want flag alone; the depth walk
stops when its frontier is empty.
-/

namespace Enroute

open Relation

structure BandPolicy where
  current : ℕ
  max : ℕ
  current_pos : 0 < current
  max_pos : 0 < max

namespace BandPolicy

def initialWidth : ℕ := 1024

def growth : ℕ := 8

def new (maxWidth : ℕ) (positive : 0 < maxWidth) : BandPolicy where
  current := min initialWidth maxWidth
  max := maxWidth
  current_pos := lt_min (by decide) positive
  max_pos := positive

def production : BandPolicy :=
  new 100000 (by decide)

def width (policy : BandPolicy) : ℕ :=
  policy.current

def grow (policy : BandPolicy) : BandPolicy where
  current := min (policy.current * growth) policy.max
  max := policy.max
  current_pos := lt_min (Nat.mul_pos policy.current_pos (by decide)) policy.max_pos
  max_pos := policy.max_pos

end BandPolicy

structure WalkSeeds where
  wants : List ℕ
  haves : List ℕ
  shallow : List ℕ

/-- One commit a fetch must send, with what is needed to read its pack. -/
structure NeededCommit where
  oid : ObjectId
  segment : SegmentLocation
  /-- Objects in the pack: the commit, its trees and its blobs. -/
  packObjectCount : ℕ
  /-- The commit and its trees, which come first. -/
  packTreeCount : ℕ
  blobOffset : ℕ
  deriving DecidableEq, Repr

/-- The commits a fetch must send, with the union of what their packs store. -/
structure NeededCommits where
  commits : List NeededCommit
  trees : Finset ℕ
  blobs : Finset ℕ

def NeededCommit.ofPack (oid : ObjectId) (pack : PackFacts) : NeededCommit where
  oid := oid
  segment := pack.segment
  packObjectCount := saturate32 (1 + pack.trees.card + pack.blobs.card)
  packTreeCount := saturate32 (1 + pack.trees.card)
  blobOffset := pack.blobOffset

namespace NeededCommits

instance : EmptyCollection NeededCommits := ⟨⟨[], ∅, ∅⟩⟩

def contains (needed : NeededCommits) : ObjectSeq → Bool
  | .tree seq => seq ∈ needed.trees
  | .blob seq => seq ∈ needed.blobs
  | .tag _ => false

variable {needed : NeededCommits} {seq : ℕ}

@[simp]
theorem contains_tree : needed.contains (.tree seq) = true ↔ seq ∈ needed.trees :=
  decide_eq_true_iff

@[simp]
theorem contains_blob : needed.contains (.blob seq) = true ↔ seq ∈ needed.blobs :=
  decide_eq_true_iff

@[simp]
theorem not_contains_tree : needed.contains (.tree seq) = false ↔ seq ∉ needed.trees :=
  decide_eq_false_iff_not

@[simp]
theorem not_contains_blob : needed.contains (.blob seq) = false ↔ seq ∉ needed.blobs :=
  decide_eq_false_iff_not

def objectCount (needed : NeededCommits) (keepTrees keepBlobs : Bool) : ℕ :=
  needed.commits.length + (if keepTrees then needed.trees.card else 0) +
    (if keepBlobs then needed.blobs.card else 0)

def push (needed : NeededCommits) (oid : ObjectId) (pack : PackFacts) : NeededCommits where
  commits := needed.commits ++ [NeededCommit.ofPack oid pack]
  trees := needed.trees ∪ pack.trees
  blobs := needed.blobs ∪ pack.blobs

end NeededCommits

def unnamed (seq : ℕ) : String :=
  "commit " ++ toString seq ++ " is in the commit graph but has no oid recorded"

def unpacked (seq : ℕ) : String :=
  "commit " ++ toString seq ++ " is in the commit graph but has no pack recorded"

namespace RepoGraph

def pushCommit (graph : RepoGraph) (needed : NeededCommits) (seq : ℕ) :
    Except String NeededCommits :=
  match graph.packs seq, graph.oidOf seq with
  | none, _ => .error (unpacked seq)
  | some _, none => .error (unnamed seq)
  | some pack, some oid => .ok (needed.push oid pack)

theorem pushCommit_eq_ok_iff {graph : RepoGraph} {needed result : NeededCommits} {seq : ℕ} :
    graph.pushCommit needed seq = .ok result ↔ ∃ pack oid, graph.packs seq = some pack ∧
      graph.oidOf seq = some oid ∧ result = needed.push oid pack := by
  rw [pushCommit]
  rcases packed : graph.packs seq with _ | pack <;> rcases named : graph.oidOf seq with _ | oid <;>
    simp [eq_comm]

theorem pushCommits_eq_ok {graph : RepoGraph} {seqs : List ℕ} {needed result : NeededCommits}
    (pushed : seqs.foldlM graph.pushCommit needed = .ok result) :
    (∃ added, result.commits = needed.commits ++ added ∧
        List.Forall₂ (fun seq commit => ∃ pack oid, graph.packs seq = some pack ∧
          graph.oidOf seq = some oid ∧ commit = NeededCommit.ofPack oid pack) seqs added) ∧
      ∀ object, result.contains object = true ↔ needed.contains object = true ∨
        ∃ seq ∈ seqs, ∃ pack, graph.packs seq = some pack ∧ pack.holds.contains object = true := by
  induction seqs generalizing needed with
  | nil =>
    cases pushed
    exact ⟨⟨[], by simp, .nil⟩, by simp⟩
  | cons seq seqs ih =>
    rw [List.foldlM_cons, Except.bind_eq_ok_iff] at pushed
    rcases pushed with ⟨next, first, rest⟩
    rcases pushCommit_eq_ok_iff.mp first with ⟨pack, oid, packed, named, rfl⟩
    rcases ih rest with ⟨⟨added, listed, matched⟩, contains⟩
    refine ⟨⟨NeededCommit.ofPack oid pack :: added, ?_, .cons ⟨pack, oid, packed, named, rfl⟩
      matched⟩, ?_⟩
    · rw [listed, NeededCommits.push, List.append_assoc]
      rfl
    · intro object
      have pushedContains : (needed.push oid pack).contains object = true ↔
          needed.contains object = true ∨ pack.holds.contains object = true := by
        cases object with
        | tree seq => simp [NeededCommits.push, PackFacts.holds]
        | blob seq => simp [NeededCommits.push, PackFacts.holds]
        | tag seq => simp [NeededCommits.contains, ObjectSeqs.contains]
      rw [contains, pushedContains, List.exists_mem_cons_iff, packed, or_assoc]
      simp

/-- One round of the paint walk: expand the topmost `bandWidth` numbers of the frontier. -/
def paintBand (graph : RepoGraph) (bandWidth : ℕ) (wantBlock haveBlock : List ℕ)
    (frontier : SeqMap Flags) (needed : NeededCommits) :
    Except String (SeqMap Flags × NeededCommits) :=
  match frontier.keys.getLast? with
  | none => .ok (frontier, needed)
  | some ceil => do
      let floor := ceil - (bandWidth - 1)
      -- A have-reachable commit is common: it keeps painting `have` only.
      let seeds := (frontier.toList.filter fun entry => floor ≤ entry.1).map fun entry =>
        (entry.1, if entry.2.fromHave then Flags.flagHave else Flags.flagWant)
      let band ← graph.index.expandPaint { seeds, floor, wantBlock, haveBlock }
      let needed ← band.finalized.foldlM graph.pushCommit needed
      let remaining := frontier.filter fun seq _ => seq < floor
      return (band.below.toList.foldl (fun frontier entry => paintAt frontier entry.1 entry.2)
        remaining, needed)

/-- The rounds of the paint walk, while a frontier commit carries the want flag alone. -/
def paintRounds (graph : RepoGraph) (wantBlock haveBlock : List ℕ) :
    ℕ → BandPolicy → SeqMap Flags → NeededCommits → Except String NeededCommits
  | 0, _, _, needed => .ok needed
  | rounds + 1, policy, frontier, needed =>
    if frontier.toList.any fun entry => entry.2 = .flagWant then do
      let (frontier, needed) ←
        graph.paintBand policy.width wantBlock haveBlock frontier needed
      graph.paintRounds wantBlock haveBlock rounds policy.grow frontier needed
    else .ok needed

def paintFrontier (wantSeqs haveSeqs : List ℕ) : SeqMap Flags :=
  haveSeqs.foldl (fun frontier seq => paintAt frontier seq .flagHave)
    (wantSeqs.foldl (fun frontier seq => paintAt frontier seq .flagWant) ∅)

def bandedPaintWalk (graph : RepoGraph) (wantSeqs haveSeqs wantBlock haveBlock : List ℕ)
    (policy : BandPolicy) : Except String NeededCommits :=
  let frontier := paintFrontier wantSeqs haveSeqs
  let rounds := match frontier.keys.getLast? with
    | some ceil => ceil + 1
    | none => 0
  graph.paintRounds wantBlock haveBlock rounds policy frontier ∅

/-- Every commit reachable from the want seeds but not from the have seeds; the client's
shallow commits count as parentless for both. -/
def neededCommits (graph : RepoGraph) (seeds : WalkSeeds) (policy : BandPolicy) :
    Except String NeededCommits :=
  if seeds.wants.isEmpty then .ok ∅
  else graph.bandedPaintWalk seeds.wants seeds.haves seeds.shallow seeds.shallow policy

structure SentCommit where
  oid : ObjectId
  parentSeqs : List ℕ
  depth : ℕ
  rootTreeSeq : ℕ

/-- Every commit within the depth limit, and the same as a needed set when packs were read. -/
structure DepthClassified where
  sent : AList fun _ : ℕ => SentCommit
  needed : NeededCommits

def classifyCommit (graph : RepoGraph) (collectBitmaps : Bool) (classified : DepthClassified)
    (one : CommitIndex.ReachedCommit) : Except String DepthClassified :=
  match graph.oidOf one.seq with
  | none => .error (unnamed one.seq)
  | some oid =>
    let sent := classified.sent.insert one.seq
      { oid, parentSeqs := graph.index.parents one.seq, depth := one.depth
        rootTreeSeq := one.rootTree }
    if collectBitmaps then
      match graph.packs one.seq with
      | none => .error (unpacked one.seq)
      | some pack => .ok { sent, needed := classified.needed.push oid pack }
    else .ok { sent, needed := classified.needed }

def lowerTo (frontier : SeqMap ℕ) (seq depth : ℕ) : SeqMap ℕ :=
  frontier.alter seq fun held => some ((held.map (min · depth)).getD depth)

/-- One round of the depth walk: expand the topmost `bandWidth` numbers of the frontier. -/
def depthBand (graph : RepoGraph) (bandWidth depthLimit : ℕ) (collectBitmaps : Bool)
    (frontier : SeqMap ℕ) (classified : DepthClassified) :
    Except String (SeqMap ℕ × DepthClassified) :=
  match frontier.keys.getLast? with
  | none => .ok (frontier, classified)
  | some ceil => do
      let floor := ceil - (bandWidth - 1)
      let seeds := frontier.toList.filter fun entry => floor ≤ entry.1
      let band ← graph.index.expandDepth seeds floor depthLimit
      let classified ← band.reached.foldlM (graph.classifyCommit collectBitmaps) classified
      let remaining := frontier.filter fun seq _ => seq < floor
      return (band.below.toList.foldl (fun frontier entry => lowerTo frontier entry.1 entry.2)
        remaining, classified)

def depthRounds (graph : RepoGraph) (depthLimit : ℕ) (collectBitmaps : Bool) :
    ℕ → BandPolicy → SeqMap ℕ → DepthClassified → Except String DepthClassified
  | 0, _, _, classified => .ok classified
  | rounds + 1, policy, frontier, classified =>
    if frontier.isEmpty then .ok classified
    else do
      let (frontier, classified) ←
        graph.depthBand policy.width depthLimit collectBitmaps frontier classified
      graph.depthRounds depthLimit collectBitmaps rounds policy.grow frontier classified

def depthClassify (graph : RepoGraph) (wantSeqs : List ℕ) (depthLimit : ℕ)
    (collectBitmaps : Bool) (policy : BandPolicy) : Except String DepthClassified :=
  let frontier := wantSeqs.foldl (fun frontier seq => lowerTo frontier seq 1) ∅
  let rounds := match frontier.keys.getLast? with
    | some ceil => ceil + 1
    | none => 0
  graph.depthRounds depthLimit collectBitmaps rounds policy frontier
    { sent := ∅, needed := ∅ }

structure ShallowCommits where
  needed : NeededCommits
  /-- New boundary commits, for the response's `shallow` lines. -/
  shallow : List ObjectId
  /-- Client-shallow commits whose parents are sent, for its `unshallow` lines. -/
  unshallow : List ObjectId
  /-- The root trees of the boundary commits. -/
  boundaryRoots : List ℕ

namespace DepthClassified

def boundarySeqs (classified : DepthClassified) (depth : ℕ) : List ℕ :=
  (classified.sent.entries.filter fun entry => entry.2.depth = depth).map Sigma.fst

def unshallowedSeqs (classified : DepthClassified) (clientShallow : List ℕ) (depth : ℕ) :
    List ℕ :=
  clientShallow.filter fun seq => (classified.sent.lookup seq).any fun sent => sent.depth ≠ depth

end DepthClassified

/-- The commit side of a fetch cut at a depth: classify by depth, then derive what is needed. -/
def neededCommitsShallow (graph : RepoGraph) (seeds : WalkSeeds) (depth : ℕ)
    (policy : BandPolicy) : Except String ShallowCommits :=
  if depth = 0 then .error "deepen depth must be positive"
  else if seeds.wants.isEmpty then
    .ok { needed := ∅, shallow := [], unshallow := [], boundaryRoots := [] }
  else do
    let fastPath := seeds.haves.isEmpty
    let classified ← graph.depthClassify seeds.wants depth fastPath policy
    let boundarySeqs := classified.boundarySeqs depth
    let sentOid := fun seq => (classified.sent.lookup seq).map SentCommit.oid
    let shallow := (boundarySeqs.filter fun seq => seq ∉ seeds.shallow).filterMap sentOid
    let unshallowedSeqs := classified.unshallowedSeqs seeds.shallow depth
    let unshallow := unshallowedSeqs.filterMap sentOid
    let needed ← if fastPath then .ok classified.needed
      else
        let wantSeqs := seeds.wants ++
          (unshallowedSeqs.filterMap classified.sent.lookup).flatMap SentCommit.parentSeqs
        graph.bandedPaintWalk wantSeqs seeds.haves (boundarySeqs ++ seeds.shallow) seeds.shallow
          policy
    let boundaryRoots := (boundarySeqs.filterMap classified.sent.lookup).map
      SentCommit.rootTreeSeq
    return { needed, shallow, unshallow, boundaryRoots }

end RepoGraph

end Enroute
