import Enroute.Objects.Index
import Enroute.Lib.Worklist

/-!
# What a reader asks of the object index

Trees and blobs are shelved apart, each in its own number space, and a delta base is always
numbered on the shelf of the entry that names it. A tree closure is read level by level from
the tree shelf alone. It holds the roots, every tree below them and every blob those list; the
rounds end because each one that goes on has met a tree it had not met before.
-/

namespace Enroute

open List Relation

/-- What the identity table says about an object: its kind, and its number in that kind. -/
structure Identity where
  kind : Kind
  seq : ℕ
  deriving DecidableEq, Repr

inductive Shelf where
  | trees
  | blobs
  deriving DecidableEq, Repr

namespace Shelf

def forKind : Kind → Option Shelf
  | .tree => some .trees
  | .blob => some .blobs
  | .commit => none
  | .tag => none

def kind : Shelf → Kind
  | .trees => .tree
  | .blobs => .blob

def shelved (seqs : List ObjectSeq) : Shelf → List ℕ
  | .trees => seqs.filterMap fun seq => match seq with
      | .tree number => some number
      | _ => none
  | .blobs => seqs.filterMap fun seq => match seq with
      | .blob number => some number
      | _ => none

end Shelf

def Identity.numbered (identity : Identity) : Option ObjectSeq :=
  match identity.kind with
  | .tree => some (.tree identity.seq)
  | .blob => some (.blob identity.seq)
  | .tag => some (.tag identity.seq)
  | .commit => none

/-- The object index of one repository and the identity table it shares. -/
structure RepoObjects where
  trees : ObjectIndex
  blobs : ObjectIndex
  identities : ObjectId → Option Identity
  oidOf : Kind → ℕ → Option ObjectId

namespace RepoObjects

def shelf (objects : RepoObjects) : Shelf → ObjectIndex
  | .trees => objects.trees
  | .blobs => objects.blobs

def oidOfSeq (objects : RepoObjects) : ObjectSeq → Option ObjectId
  | .tree seq => objects.oidOf .tree seq
  | .blob seq => objects.oidOf .blob seq
  | .tag seq => objects.oidOf .tag seq

def identify (objects : RepoObjects) (oid : ObjectId) : Option Identity :=
  (objects.identities oid).filter fun identity => identity.kind ≠ .commit

def introducing (objects : RepoObjects) (identity : Identity) : Option Location :=
  (Shelf.forKind identity.kind).bind fun shelf =>
    ((objects.shelf shelf).get identity.seq).introducing

def resolved (objects : RepoObjects) (kind : Kind) (location : Location) :
    CommitPackLocation where
  image := {
    packSha := location.packOid
    offset := location.offset
    entryLen := location.entryLen
    base := location.baseSeq.bind (objects.oidOf kind) }
  segment := location.segment

def assemble (objects : RepoObjects) (identity : Identity) : ObjectMeta where
  kind := identity.kind
  location := (objects.introducing identity).map (objects.resolved identity.kind)
  objectSeq := identity.numbered

def locationsBySeq (objects : RepoObjects) (seqs : List ObjectSeq) :
    List (ObjectId × ObjectMeta) :=
  [Shelf.trees, Shelf.blobs].flatMap fun shelf =>
    (shelf.shelved seqs).filterMap fun seq =>
      (objects.oidOf shelf.kind seq).map fun oid =>
        (oid, objects.assemble { kind := shelf.kind, seq })

theorem shelved_nodup {seqs : List ObjectSeq} (distinct : seqs.Nodup) (shelf : Shelf) :
    (shelf.shelved seqs).Nodup := by
  cases shelf with
  | trees =>
    refine distinct.filterMap fun seq other number isSeq isOther => ?_
    cases seq <;> cases isSeq
    cases other <;> cases isOther
    rfl
  | blobs =>
    refine distinct.filterMap fun seq other number isSeq isOther => ?_
    cases seq <;> cases isSeq
    cases other <;> cases isOther
    rfl

theorem locationsBySeq_oids (objects : RepoObjects) (seqs : List ObjectSeq) :
    (objects.locationsBySeq seqs).map Prod.fst =
      (Shelf.trees.shelved seqs).filterMap (objects.oidOf .tree) ++
        (Shelf.blobs.shelved seqs).filterMap (objects.oidOf .blob) := by
  simp only [locationsBySeq, flatMap_cons, flatMap_nil, append_nil,
    map_append, map_filterMap, Option.map_map, Function.comp_def, Option.map_id',
    Shelf.kind]

def firstPack (objects : RepoObjects) (oid : ObjectId) : Option ℕ :=
  (objects.identify oid).bind fun identity =>
    (objects.introducing identity).map Location.packSeq

def chainFrom (index : ObjectIndex) : ℕ → Option ℕ → List Location
  | 0, _ => []
  | _ + 1, none => []
  | hops + 1, some seq =>
    match (index.get seq).introducing with
    | none => []
    | some location => location :: chainFrom index hops location.baseSeq

/-- Every entry rebuilding an object costs, innermost last. The walk goes on while it has no
more than `maxHops` entries. -/
def chain (objects : RepoObjects) (oid : ObjectId) (maxHops : ℕ) : List Location :=
  match objects.identify oid with
  | none => []
  | some identity =>
    match Shelf.forKind identity.kind with
    | none => []
    | some shelf => chainFrom (objects.shelf shelf) (maxHops + 1) (some identity.seq)

/-- How many deltas rebuilding an object costs today; nothing for an object not stored. -/
def chainDepth (objects : RepoObjects) (oid : ObjectId) (maxHops : ℕ) : Option ℕ :=
  match objects.chain oid maxHops with
  | [] => none
  | _ :: deltas => some deltas.length

theorem chainFrom_take (index : ObjectIndex) (hops more : ℕ) (start : Option ℕ) :
    chainFrom index (min hops more) start = (chainFrom index more start).take hops := by
  induction more generalizing hops start with
  | zero => simp [chainFrom]
  | succ more ih =>
    cases hops with
    | zero => simp [chainFrom]
    | succ hops =>
      rw [Nat.succ_min_succ]
      cases start with
      | none => simp [chainFrom]
      | some seq =>
        simp only [chainFrom]
        split
        · rfl
        · rw [ih, take_succ_cons]

/-- A walk down a chain that is cut short counts as many deltas as it was allowed to, or all of
them. -/
theorem chainDepth_min (objects : RepoObjects) (oid : ObjectId) (hops maxHops : ℕ) :
    objects.chainDepth oid (min hops maxHops) = (objects.chainDepth oid maxHops).map (min hops) := by
  have cut : objects.chain oid (min hops maxHops) = (objects.chain oid maxHops).take (hops + 1) := by
    simp only [chain]
    split
    · rfl
    · split
      · rfl
      · rw [← Nat.add_min_add_right, chainFrom_take]
  rw [chainDepth, chainDepth, cut]
  rcases objects.chain oid maxHops with _ | ⟨first, deltas⟩
  · rfl
  · simp

def childrenOf (objects : RepoObjects) (seq : ℕ) : ObjectSeqs :=
  (objects.trees.get seq).children

/-- Take in the entries of one tree: subtrees not seen before go on the frontier. -/
def takeChildren (state : ObjectSeqs × List ℕ) (children : ObjectSeqs) : ObjectSeqs × List ℕ :=
  (state.1.absorb children, state.2 ++ (children.trees \ state.1.trees).sort (· ≤ ·))

def closureRounds (objects : RepoObjects) : ℕ → ObjectSeqs → List ℕ → ObjectSeqs
  | 0, seen, _ => seen
  | rounds + 1, seen, frontier =>
    if frontier.isEmpty then seen
    else
      let (seen, frontier) := (frontier.map objects.childrenOf).foldl takeChildren (seen, [])
      objects.closureRounds rounds seen frontier

def listedTrees (objects : RepoObjects) : Finset ℕ :=
  objects.trees.keys.toFinset.biUnion fun seq => (objects.childrenOf seq).trees

def treeClosure (objects : RepoObjects) (roots : List ℕ) : ObjectSeqs :=
  objects.closureRounds (objects.listedTrees.card + 1) { trees := roots.toFinset, blobs := ∅ } roots

/-! ## The closure is exact -/

def Lists (objects : RepoObjects) (parent child : ℕ) : Prop :=
  child ∈ (objects.childrenOf parent).trees

def InTree (objects : RepoObjects) (root : ℕ) : ObjectSeq → Prop
  | .tree seq => ReflTransGen objects.Lists root seq
  | .blob seq => ∃ tree, ReflTransGen objects.Lists root tree ∧
      seq ∈ (objects.childrenOf tree).blobs
  | .tag _ => False

theorem foldl_takeChildren (batch : List ObjectSeqs) (seen : ObjectSeqs) (frontier : List ℕ) :
    (∀ seq, (batch.foldl takeChildren (seen, frontier)).1.contains seq = true ↔
        seen.contains seq = true ∨ ∃ children ∈ batch, children.contains seq = true) ∧
      ∀ tree, tree ∈ (batch.foldl takeChildren (seen, frontier)).2 ↔
        tree ∈ frontier ∨ tree ∉ seen.trees ∧ ∃ children ∈ batch, tree ∈ children.trees := by
  induction batch generalizing seen frontier with
  | nil => simp
  | cons children batch ih =>
    have absorbed : ∀ seq, (seen.absorb children).contains seq = true ↔
        seen.contains seq = true ∨ children.contains seq = true := by
      intro seq
      cases seq <;> simp [ObjectSeqs.contains, ObjectSeqs.absorb]
    rcases ih (seen.absorb children)
      (frontier ++ (children.trees \ seen.trees).sort (· ≤ ·)) with ⟨contains, waiting⟩
    refine ⟨fun seq => ?_, fun tree => ?_⟩
    · rw [foldl_cons, takeChildren, contains, absorbed, or_assoc,
        exists_mem_cons_iff]
    · rw [foldl_cons, takeChildren, waiting, exists_mem_cons_iff]
      simp only [mem_append, Finset.mem_sort, Finset.mem_sdiff, ObjectSeqs.absorb,
        Finset.mem_union]
      tauto

structure ClosureInv (objects : RepoObjects) (roots : List ℕ) (seen : ObjectSeqs)
    (frontier : List ℕ) : Prop where
  sound : ∀ seq, seen.contains seq = true → ∃ root ∈ roots, objects.InTree root seq
  rooted : ∀ root ∈ roots, root ∈ seen.trees
  met : ∀ tree ∈ frontier, tree ∈ seen.trees
  closed : ∀ tree ∈ seen.trees, tree ∉ frontier → ∀ seq,
    (objects.childrenOf tree).contains seq = true → seen.contains seq = true

variable {objects : RepoObjects} {roots : List ℕ}

theorem InTree.child {root tree : ℕ} {seq : ObjectSeq} (inTree : objects.InTree root (.tree tree))
    (listed : (objects.childrenOf tree).contains seq = true) : objects.InTree root seq := by
  cases seq with
  | tree seq => exact ReflTransGen.tail inTree (ObjectSeqs.contains_tree.mp listed)
  | blob seq => exact ⟨tree, inTree, ObjectSeqs.contains_blob.mp listed⟩
  | tag seq => cases listed

theorem ClosureInv.round {seen : ObjectSeqs} {frontier : List ℕ}
    (inv : objects.ClosureInv roots seen frontier) :
    objects.ClosureInv roots
      ((frontier.map objects.childrenOf).foldl takeChildren (seen, [])).1
      ((frontier.map objects.childrenOf).foldl takeChildren (seen, [])).2 := by
  rcases foldl_takeChildren (frontier.map objects.childrenOf) seen [] with ⟨contains, waiting⟩
  simp only [mem_map, exists_exists_and_eq_and, not_mem_nil, false_or] at contains waiting
  have treeContains : ∀ tree, tree ∈
      ((frontier.map objects.childrenOf).foldl takeChildren (seen, [])).1.trees ↔
        tree ∈ seen.trees ∨ ∃ parent ∈ frontier, tree ∈ (objects.childrenOf parent).trees := by
    intro tree
    simpa using contains (.tree tree)
  refine ⟨?_, ?_, ?_, ?_⟩
  · intro seq found
    rcases (contains seq).mp found with before | ⟨parent, parentMem, listed⟩
    · exact inv.sound seq before
    · rcases inv.sound (.tree parent) (ObjectSeqs.contains_tree.mpr (inv.met parent parentMem))
        with ⟨root, rootMem, inTree⟩
      exact ⟨root, rootMem, inTree.child listed⟩
  · exact fun root rootMem => (treeContains root).mpr (Or.inl (inv.rooted root rootMem))
  · exact fun tree treeMem => (treeContains tree).mpr (Or.inr ((waiting tree).mp treeMem).2)
  · intro tree treeMem notWaiting seq listed
    rw [contains]
    by_cases before : tree ∈ seen.trees
    · by_cases expanded : tree ∈ frontier
      · exact Or.inr ⟨tree, expanded, listed⟩
      · exact Or.inl (inv.closed tree before expanded seq listed)
    · have fresh := ((treeContains tree).mp treeMem).resolve_left before
      exact absurd ((waiting tree).mpr ⟨before, fresh⟩) notWaiting

theorem mem_listedTrees {parent child : ℕ} (listed : objects.Lists parent child) :
    child ∈ objects.listedTrees := by
  refine Finset.mem_biUnion.mpr ⟨parent, ?_, listed⟩
  rw [mem_toFinset]
  by_contra outside
  have missing : objects.trees.lookup parent = none := AList.lookup_eq_none.mpr outside
  rw [Lists, childrenOf, ObjectIndex.get, missing] at listed
  exact absurd listed (Finset.notMem_empty child)

theorem closureRounds_closed {rounds : ℕ} {seen : ObjectSeqs} {frontier : List ℕ}
    (inv : objects.ClosureInv roots seen frontier)
    (enough : frontier ≠ [] → (objects.listedTrees \ seen.trees).card < rounds) :
    objects.ClosureInv roots (objects.closureRounds rounds seen frontier) [] := by
  induction rounds generalizing seen frontier with
  | zero =>
    obtain rfl : frontier = [] := by
      by_contra more
      exact absurd (enough more) (Nat.not_lt_zero _)
    exact inv
  | succ rounds ih =>
    rw [closureRounds]
    split
    next done =>
      rw [List.isEmpty_iff] at done
      subst done
      exact inv
    next more =>
      refine ih inv.round fun goesOn => ?_
      have step := enough (by simpa using more)
      rcases foldl_takeChildren (frontier.map objects.childrenOf) seen [] with ⟨contains, waiting⟩
      rcases exists_mem_of_ne_nil _ goesOn with ⟨tree, treeMem⟩
      rcases (waiting tree).mp treeMem with impossible | ⟨unmet, children, childrenMem, listed⟩
      · cases impossible
      rcases mem_map.mp childrenMem with ⟨parent, -, rfl⟩
      have isListed : tree ∈ objects.listedTrees := mem_listedTrees listed
      have fewer : (objects.listedTrees \
          ((frontier.map objects.childrenOf).foldl takeChildren (seen, [])).1.trees).card <
          (objects.listedTrees \ seen.trees).card := by
        refine Finset.card_lt_card (Finset.ssubset_iff_of_subset ?_ |>.mpr ⟨tree, ?_, ?_⟩)
        · refine Finset.sdiff_subset_sdiff le_rfl fun held heldMem => ?_
          exact ObjectSeqs.contains_tree.mp ((contains (.tree held)).mpr
            (Or.inl (ObjectSeqs.contains_tree.mpr heldMem)))
        · exact Finset.mem_sdiff.mpr ⟨isListed, unmet⟩
        · have met := inv.round.met tree treeMem
          exact fun outside => (Finset.mem_sdiff.mp outside).2 met
      omega

theorem treeClosure_contains (objects : RepoObjects) (roots : List ℕ) (seq : ObjectSeq) :
    (objects.treeClosure roots).contains seq = true ↔ ∃ root ∈ roots, objects.InTree root seq := by
  have starts : objects.ClosureInv roots { trees := roots.toFinset, blobs := ∅ } roots := by
    refine ⟨?_, fun root rootMem => mem_toFinset.mpr rootMem,
      fun tree treeMem => mem_toFinset.mpr treeMem, ?_⟩
    · intro seq found
      cases seq with
      | tree seq =>
        exact ⟨seq, mem_toFinset.mp (ObjectSeqs.contains_tree.mp found), .refl⟩
      | blob seq => exact absurd (ObjectSeqs.contains_blob.mp found) (Finset.notMem_empty seq)
      | tag seq => cases found
    · exact fun tree treeMem notWaiting => absurd (mem_toFinset.mp treeMem) notWaiting
  have ends : objects.ClosureInv roots (objects.treeClosure roots) [] :=
    closureRounds_closed starts fun _ =>
      Nat.lt_succ_of_le (Finset.card_le_card Finset.sdiff_subset)
  refine ⟨ends.sound seq, ?_⟩
  rintro ⟨root, rootMem, inTree⟩
  have treeMet : ∀ tree, ReflTransGen objects.Lists root tree →
      tree ∈ (objects.treeClosure roots).trees := by
    intro tree path
    induction path with
    | refl => exact ends.rooted root rootMem
    | @tail parent child _ listed ih =>
      exact ObjectSeqs.contains_tree.mp (ends.closed parent ih not_mem_nil (.tree child)
        (ObjectSeqs.contains_tree.mpr listed))
  cases seq with
  | tree seq => exact ObjectSeqs.contains_tree.mpr (treeMet seq inTree)
  | blob seq =>
    rcases inTree with ⟨tree, path, listed⟩
    exact ends.closed tree (treeMet tree path) not_mem_nil (.blob seq)
      (ObjectSeqs.contains_blob.mpr listed)
  | tag seq => cases inTree

end RepoObjects

end Enroute
