import Enroute.GraphStore.Index
import Enroute.Lib.Worklist
import Enroute.Lib.Descent
import Enroute.Lib.Except
import Enroute.Lib.Relax

/-!
# The band walks

One round of each walk, in commit numbers and nothing else. A round expands its seeds down to
a floor: what it meets below the floor is reported and not expanded, and the next round takes
it from there. A commit the round has to expand and the index does not hold is an error.
-/

namespace Enroute

open List Relation

/-- The paint a commit carries: reachable from a want, reachable from a have. -/
structure Flags where
  fromWant : Bool
  fromHave : Bool
  deriving DecidableEq, Repr

namespace Flags

def flagWant : Flags := ⟨true, false⟩

def flagHave : Flags := ⟨false, true⟩

def none : Flags := ⟨false, false⟩

def or (left right : Flags) : Flags :=
  ⟨left.fromWant || right.fromWant, left.fromHave || right.fromHave⟩

end Flags

def notCovered (seq floor : ℕ) : String :=
  "the commit index does not hold commit " ++ toString seq ++ ", inside a band floored at " ++
    toString floor

abbrev SeqMap (V : Type) := Std.TreeMap ℕ V

variable {V : Type} {painted : SeqMap Flags}

theorem SeqMap.keys_ascending (held : SeqMap V) : held.keys.Pairwise (· < ·) := by
  simpa only [Nat.compare_eq_lt] using Std.TreeMap.ordered_keys (t := held)

theorem SeqMap.filter_ascending (held : SeqMap V) (keep : ℕ × V → Bool) :
    ((held.toList.filter keep).map Prod.fst).Pairwise (· < ·) := by
  refine held.keys_ascending.sublist ?_
  rw [← Std.TreeMap.map_fst_toList_eq_keys]
  exact filter_sublist.map Prod.fst

theorem SeqMap.mem_of_getElem? {held : SeqMap V} {seq : ℕ} {value : V}
    (found : held[seq]? = some value) : seq ∈ held :=
  Std.TreeMap.mem_iff_isSome_getElem?.mpr (by rw [found]; rfl)

theorem SeqMap.exists_getElem? {held : SeqMap V} {seq : ℕ} (seqMem : seq ∈ held) :
    ∃ value, held[seq]? = some value :=
  Option.isSome_iff_exists.mp (Std.TreeMap.mem_iff_isSome_getElem?.mp seqMem)

theorem SeqMap.getElem?_filter_below (held : SeqMap V) (floor seq : ℕ) :
    (held.filter fun seq _ => decide (seq < floor))[seq]? =
      if seq < floor then held[seq]? else none := by
  rw [Std.TreeMap.getElem?_filter']
  by_cases isBelow : seq < floor
  · rcases held[seq]? with _ | value <;> simp [isBelow]
  · simp [isBelow]

def paintAt (painted : SeqMap Flags) (seq : ℕ) (flags : Flags) : SeqMap Flags :=
  painted.alter seq fun held => some ((held.getD .none).or flags)

/-- One paint walk's seeds and the commits each colour may not expand from. -/
structure Paint where
  seeds : List (ℕ × Flags)
  floor : ℕ
  wantBlock : List ℕ
  haveBlock : List ℕ

namespace Paint

def seedsFlagged (paint : Paint) (colour : Flags) : List ℕ :=
  (paint.seeds.filter fun seed => seed.2 = colour).map Prod.fst

/-- Whether a colour may not be carried past a commit; both flags at once are never blocked. -/
def blocks (paint : Paint) (colour : Flags) (seq : ℕ) : Bool :=
  if colour = .flagWant then seq ∈ paint.wantBlock
  else if colour = .flagHave then seq ∈ paint.haveBlock
  else false

def colours (paint : Paint) : List Flags :=
  [⟨false, false⟩, ⟨true, false⟩, ⟨false, true⟩, ⟨true, true⟩].filter fun colour =>
    colour ∈ paint.seeds.map Prod.snd

/-- Where a colour travels from a commit. Want-paint stops short of a have seed. -/
def next (paint : Paint) (index : CommitIndex) (colour : Flags) (seq : ℕ) :
    Except String (List ℕ) :=
  if seq < paint.floor || paint.blocks colour seq then .ok []
  else
    match index.lookup seq with
    | none => .error (notCovered seq paint.floor)
    | some entry => .ok (entry.parents.filter fun parent =>
      !(colour = .flagWant && parent ∈ paint.seedsFlagged .flagHave))

end Paint

namespace CommitIndex

def walkBound (index : CommitIndex) (starts : ℕ) : ℕ :=
  starts + (index.keys.map fun seq => (index.parents seq).length).sum

def paintColour (index : CommitIndex) (paint : Paint) (painted : SeqMap Flags)
    (colour : Flags) : Except String (SeqMap Flags) :=
  let stack := paint.seedsFlagged colour
  match Worklist.visitE Worklist.lifo (paint.next index colour) (index.walkBound stack.length)
    stack [] with
  | .error message => .error message
  | .ok reached => .ok (reached.foldl (fun painted seq => paintAt painted seq colour) painted)

/-- One round of a paint walk: the commits finalized at or above the floor, ascending, and the
paint found below it. -/
structure PaintBand where
  finalized : List ℕ
  below : SeqMap Flags

def expandPaint (index : CommitIndex) (paint : Paint) : Except String PaintBand := do
  let painted ← paint.colours.foldlM (index.paintColour paint) ∅
  return {
    finalized := (painted.toList.filter fun entry =>
      decide (paint.floor ≤ entry.1) && entry.2 = .flagWant).map Prod.fst
    below := painted.filter fun seq _ => seq < paint.floor }

end CommitIndex

namespace CommitIndex

structure ReachedCommit where
  seq : ℕ
  /-- Its pooled minimum depth from any want. -/
  depth : ℕ
  rootTree : ℕ
  deriving DecidableEq, Repr

/-- One round of a depth walk: the commits at or above the floor, ascending, and the depths
found below it. -/
structure DepthBand where
  reached : List ReachedCommit
  below : SeqMap ℕ

def mustGet (index : CommitIndex) (seq floor : ℕ) : Except String CommitEntry :=
  match index.lookup seq with
  | some entry => .ok entry
  | none => .error (notCovered seq floor)

def parentsOrError (index : CommitIndex) (floor seq : ℕ) : Except String (List ℕ) := do
  let entry ← index.mustGet seq floor
  return entry.parents

def reachedAt (index : CommitIndex) (floor : ℕ) (found : ℕ × ℕ) : Except String ReachedCommit := do
  let entry ← index.mustGet found.1 floor
  return { seq := found.1, depth := found.2, rootTree := entry.rootTree }

def ancestorsFrom (index : CommitIndex) (floor seq : ℕ) : Except String (List ℕ) :=
  if seq < floor then .ok [] else index.parentsOrError floor seq

def expandAncestors (index : CommitIndex) (seeds : List ℕ) (floor : ℕ) :
    Except String (Finset ℕ × Finset ℕ) := do
  let seen ← Worklist.visitE Worklist.lifo (index.ancestorsFrom floor)
    (index.walkBound seeds.length) seeds.reverse []
  return ((seen.filter (floor ≤ ·)).toFinset, (seen.filter (· < floor)).toFinset)

/-- Record every commit within `depthLimit` of the seeds with its minimum depth, down to the
floor. -/
def expandDepth (index : CommitIndex) (seeds : List (ℕ × ℕ)) (floor depthLimit : ℕ) :
    Except String DepthBand := do
  let rounds := seeds.length +
    (index.keys.map fun seq => (index.parents seq).length * depthLimit).sum
  let best ← Relax.relax floor depthLimit (index.parentsOrError floor) rounds seeds.reverse ∅
  let reached ← (best.toList.filter fun found => floor ≤ found.1).mapM (index.reachedAt floor)
  return { reached, below := best.filter fun seq _ => seq < floor }

end CommitIndex

/-! ## What one colour reaches -/

def flagAt (flag : Flags → Bool) (painted : SeqMap Flags) (seq : ℕ) : Bool :=
  flag (painted[seq]?.getD .none)

def Flagged (painted : SeqMap Flags) : Prop :=
  ∀ seq ∈ painted, flagAt Flags.fromWant painted seq = true ∨
    flagAt Flags.fromHave painted seq = true

theorem Flagged.paintAt (flagged : Flagged painted) (seq : ℕ) {flags : Flags}
    (carries : flags.fromWant = true ∨ flags.fromHave = true) :
    Flagged (paintAt painted seq flags) := by
  intro other otherMem
  simp only [Enroute.paintAt, Std.TreeMap.mem_alter] at otherMem
  simp only [flagAt, Enroute.paintAt, Std.TreeMap.getElem?_alter]
  by_cases same : seq = other
  · rcases carries with isWant | isHave
    · simp [same, Flags.or, isWant]
    · simp [same, Flags.or, isHave]
  · have different : ¬compare seq other = .eq := by simpa using same
    simp only [if_neg different] at otherMem ⊢
    exact flagged other otherMem

theorem Flagged.foldl_paintAt {Entry : Type} (entries : List Entry) (seqOf : Entry → ℕ)
    (flagsOf : Entry → Flags)
    (carry : ∀ entry ∈ entries, (flagsOf entry).fromWant = true ∨ (flagsOf entry).fromHave = true)
    (flagged : Flagged painted) :
    Flagged (entries.foldl
      (fun painted entry => Enroute.paintAt painted (seqOf entry) (flagsOf entry)) painted) := by
  induction entries generalizing painted with
  | nil => exact flagged
  | cons entry entries ih =>
    rw [foldl_cons]
    exact ih (fun later laterMem => carry later (mem_cons_of_mem _ laterMem))
      (flagged.paintAt _ (carry entry mem_cons_self))

theorem getElem?_foldl_paintAt (reached : List ℕ) (painted : SeqMap Flags) (colour : Flags)
    (seq : ℕ) :
    (reached.foldl (fun painted seq => paintAt painted seq colour) painted)[seq]?.getD .none =
      if seq ∈ reached then (painted[seq]?.getD .none).or colour
      else painted[seq]?.getD .none := by
  induction reached generalizing painted with
  | nil => simp
  | cons head reached ih =>
    rw [foldl_cons, ih, paintAt, Std.TreeMap.getElem?_alter]
    by_cases same : head = seq
    · subst same
      by_cases again : head ∈ reached
      · simp [again, Flags.or]
      · simp [again]
    · have different : compare head seq ≠ .eq := by
        simpa using same
      by_cases later : seq ∈ reached
      · simp [later, different]
      · simp [later, different, Ne.symm same]

namespace Paint

variable {paint : Paint} {index : CommitIndex} {colour : Flags}

def Travels (paint : Paint) (index : CommitIndex) (colour : Flags) (source target : ℕ) : Prop :=
  paint.floor ≤ source ∧ paint.blocks colour source = false ∧ target ∈ index.parents source ∧
    ¬(colour = .flagWant ∧ target ∈ paint.seedsFlagged .flagHave)

def Reached (paint : Paint) (index : CommitIndex) (colour : Flags) (seq : ℕ) : Prop :=
  ∃ seed ∈ paint.seedsFlagged colour, ReflTransGen (paint.Travels index colour) seed seq

theorem mem_total_next {source target : ℕ} :
    target ∈ Worklist.total (paint.next index colour) source ↔
      paint.Travels index colour source target := by
  by_cases stops : source < paint.floor || paint.blocks colour source
  · have stays : ¬(paint.floor ≤ source ∧ paint.blocks colour source = false) := by
      simp only [Bool.or_eq_true, decide_eq_true_eq] at stops
      rintro ⟨above, free⟩
      rcases stops with below | blocked
      · omega
      · rw [free] at blocked
        cases blocked
    simp only [Worklist.total, next, if_pos stops, not_mem_nil, Travels, false_iff]
    tauto
  · have goes : paint.floor ≤ source ∧ paint.blocks colour source = false := by
      simpa using stops
    rcases held : index.lookup source with _ | entry
    · simp only [Worklist.total, next, if_neg stops, held]
      simp [Travels, CommitIndex.parents, held]
    · simp only [Worklist.total, next, if_neg stops, held]
      simp only [Travels, CommitIndex.parents, held, goes, mem_filter, true_and]
      apply and_congr_right
      intro _
      simp [imp_iff_not_or]

theorem length_total_next_le (paint : Paint) (index : CommitIndex) (colour : Flags) (seq : ℕ) :
    (Worklist.total (paint.next index colour) seq).length ≤ (index.parents seq).length := by
  simp only [Worklist.total, next]
  split_ifs
  · simp
  · rcases held : index.lookup seq with _ | entry
    · simp
    · simpa [CommitIndex.parents, held] using List.length_filter_le _ entry.parents

theorem total_next_of_notMem {seq : ℕ} (outside : seq ∉ index.keys) :
    Worklist.total (paint.next index colour) seq = [] := by
  have missing : index.lookup seq = none := AList.lookup_eq_none.mpr outside
  have noParents : (index.parents seq).length = 0 := by
    simp [CommitIndex.parents, missing]
  have short := length_total_next_le paint index colour seq
  exact eq_nil_of_length_eq_zero (by omega)

variable {painted result : SeqMap Flags}

theorem getD_paintColour (walked : index.paintColour paint painted colour = .ok result) (seq : ℕ) :
    (paint.Reached index colour seq ∧
        result[seq]?.getD .none = (painted[seq]?.getD .none).or colour) ∨
      (¬paint.Reached index colour seq ∧
        result[seq]?.getD .none = painted[seq]?.getD .none) := by
  simp only [CommitIndex.paintColour] at walked
  split at walked
  · cases walked
  next reached searched =>
    have enough : (paint.seedsFlagged colour).length +
        Worklist.budget (Worklist.total (paint.next index colour)) index.keys [] ≤
          index.walkBound (paint.seedsFlagged colour).length := by
      have bounded := Worklist.budget_le_sum (Worklist.total (paint.next index colour)) index.keys
        (fun seq => (index.parents seq).length) (length_total_next_le paint index colour)
      rw [CommitIndex.walkBound]
      omega
    have met := Worklist.mem_visitE_iff index.keys_nodup (fun _ => total_next_of_notMem) enough
      searched seq
    simp only [mem_total_next] at met
    cases walked
    rw [getElem?_foldl_paintAt]
    by_cases isReached : seq ∈ reached
    · exact Or.inl ⟨met.mp isReached, if_pos isReached⟩
    · exact Or.inr ⟨fun other => isReached (met.mpr other), if_neg isReached⟩

theorem flagAt_paintColours {flag : Flags → Bool}
    (additive : ∀ left right, flag (left.or right) = (flag left || flag right))
    {colours : List Flags} (walked : colours.foldlM (index.paintColour paint) painted = .ok result)
    (seq : ℕ) :
    flagAt flag result seq = true ↔ flagAt flag painted seq = true ∨
      ∃ colour ∈ colours, flag colour = true ∧ paint.Reached index colour seq := by
  induction colours generalizing painted with
  | nil =>
    cases walked
    simp
  | cons colour colours ih =>
    rw [foldlM_cons] at walked
    rcases first : index.paintColour paint painted colour with message | next
    · rw [first] at walked
      cases walked
    · rw [first] at walked
      rw [ih walked, exists_mem_cons_iff, ← or_assoc]
      apply or_congr_left
      rcases getD_paintColour first seq with ⟨reached, paints⟩ | ⟨missed, same⟩
      · simp [flagAt, paints, additive, reached]
      · simp [flagAt, same, missed]

/-- Every seed carries one flag and not both, as the rounds of a walk pass them. -/
def SingleFlags (paint : Paint) : Prop :=
  ∀ seed ∈ paint.seeds, seed.2 = .flagWant ∨ seed.2 = .flagHave

theorem carries_of_mem_colours (single : paint.SingleFlags) (colourMem : colour ∈ paint.colours) :
    colour.fromWant = true ∨ colour.fromHave = true := by
  simp only [colours, mem_filter, decide_eq_true_eq, mem_map] at colourMem
  rcases colourMem with ⟨-, seed, seedMem, rfl⟩
  rcases single seed seedMem with isWant | isHave
  · simp [isWant, Flags.flagWant]
  · simp [isHave, Flags.flagHave]

theorem flagged_paintColours {colours : List Flags}
    (carry : ∀ colour ∈ colours, colour.fromWant = true ∨ colour.fromHave = true)
    (flagged : Flagged painted)
    (walked : colours.foldlM (index.paintColour paint) painted = .ok result) : Flagged result := by
  induction colours generalizing painted with
  | nil =>
    cases walked
    exact flagged
  | cons colour colours ih =>
    rw [foldlM_cons, Except.bind_eq_ok_iff] at walked
    rcases walked with ⟨next, first, rest⟩
    refine ih (fun later laterMem => carry later (mem_cons_of_mem _ laterMem)) ?_ rest
    simp only [CommitIndex.paintColour] at first
    split at first
    · cases first
    next reached searched =>
      cases first
      exact flagged.foldl_paintAt reached id (fun _ => colour)
        fun _ _ => carry colour mem_cons_self

theorem exists_colour_iff (single : paint.SingleFlags) {flag : Flags → Bool} (only : Flags)
    (picks : ∀ colour, colour = .flagWant ∨ colour = .flagHave →
      (flag colour = true ↔ colour = only)) (seq : ℕ) :
    (∃ colour ∈ paint.colours, flag colour = true ∧ paint.Reached index colour seq) ↔
      paint.Reached index only seq := by
  constructor
  · rintro ⟨colour, colourMem, flagged, reached⟩
    rcases reached with ⟨seed, seedMem, path⟩
    simp only [seedsFlagged, mem_map, mem_filter, decide_eq_true_eq] at seedMem
    rcases seedMem with ⟨marked, ⟨markedMem, rfl⟩, rfl⟩
    have same := (picks marked.2 (single marked markedMem)).mp flagged
    refine ⟨marked.1, ?_, same ▸ path⟩
    simp only [seedsFlagged, mem_map, mem_filter, decide_eq_true_eq]
    exact ⟨marked, ⟨markedMem, same⟩, rfl⟩
  · rintro ⟨seed, seedMem, path⟩
    have seeded := seedMem
    simp only [seedsFlagged, mem_map, mem_filter, decide_eq_true_eq] at seeded
    rcases seeded with ⟨marked, ⟨markedMem, rfl⟩, rfl⟩
    have valid := single marked markedMem
    refine ⟨marked.2, ?_, (picks _ valid).mpr rfl, marked.1, seedMem, path⟩
    simp only [colours, mem_filter, decide_eq_true_eq]
    refine ⟨?_, mem_map_of_mem markedMem⟩
    rcases valid with isWant | isHave
    · simp [isWant, Flags.flagWant]
    · simp [isHave, Flags.flagHave]

end Paint

structure PaintBand.Exact (band : CommitIndex.PaintBand) (paint : Paint) (index : CommitIndex) :
    Prop where
  ascending : band.finalized.Pairwise (· < ·)
  finalized : ∀ seq, seq ∈ band.finalized ↔ paint.floor ≤ seq ∧
    paint.Reached index .flagWant seq ∧ ¬paint.Reached index .flagHave seq
  belowWant : ∀ seq, flagAt Flags.fromWant band.below seq = true ↔
    seq < paint.floor ∧ paint.Reached index .flagWant seq
  belowHave : ∀ seq, flagAt Flags.fromHave band.below seq = true ↔
    seq < paint.floor ∧ paint.Reached index .flagHave seq
  belowFloor : ∀ seq ∈ band.below, seq < paint.floor
  flagged : Flagged band.below

theorem getD_filter_below (painted : SeqMap Flags) (floor seq : ℕ) :
    ((painted.filter fun seq _ => decide (seq < floor))[seq]?).getD .none =
      if seq < floor then painted[seq]?.getD .none else .none := by
  rw [SeqMap.getElem?_filter_below]
  split <;> rfl

theorem Flagged.filter_below (flagged : Flagged painted) (floor : ℕ) :
    Flagged (painted.filter fun seq _ => decide (seq < floor)) := by
  intro seq seqMem
  rcases Std.TreeMap.mem_filter.mp seqMem with ⟨held, below⟩
  have isBelow : seq < floor := by simpa using below
  simp only [flagAt, getD_filter_below, if_pos isBelow]
  exact flagged seq held

theorem getElem?_eq_flagWant_iff (painted : SeqMap Flags) (seq : ℕ) :
    painted[seq]? = some .flagWant ↔
      flagAt Flags.fromWant painted seq = true ∧ ¬flagAt Flags.fromHave painted seq = true := by
  simp only [flagAt]
  rcases painted[seq]? with _ | ⟨fromWant, fromHave⟩
  · simp [Flags.none]
  · simp [Flags.flagWant]

namespace CommitIndex

variable {index : CommitIndex} {paint : Paint}

theorem expandPaint_exact {band : PaintBand} (single : paint.SingleFlags)
    (expanded : index.expandPaint paint = .ok band) : PaintBand.Exact band paint index := by
  simp only [expandPaint] at expanded
  rcases walked : paint.colours.foldlM (index.paintColour paint) ∅ with message | painted
  · rw [walked] at expanded
    cases expanded
  · rw [walked] at expanded
    have reachedWant : ∀ seq, flagAt Flags.fromWant painted seq = true ↔
        paint.Reached index .flagWant seq := by
      intro seq
      rw [Paint.flagAt_paintColours (fun _ _ => rfl) walked,
        Paint.exists_colour_iff single .flagWant]
      · simp [flagAt, Flags.none]
      · rintro colour (rfl | rfl) <;> decide
    have reachedHave : ∀ seq, flagAt Flags.fromHave painted seq = true ↔
        paint.Reached index .flagHave seq := by
      intro seq
      rw [Paint.flagAt_paintColours (fun _ _ => rfl) walked,
        Paint.exists_colour_iff single .flagHave]
      · simp [flagAt, Flags.none]
      · rintro colour (rfl | rfl) <;> decide
    cases expanded
    refine ⟨?_, ?_, ?_, ?_, ?_, ?_⟩
    · exact SeqMap.filter_ascending painted _
    · intro seq
      rw [← reachedWant, ← reachedHave, ← getElem?_eq_flagWant_iff,
        ← Std.TreeMap.mem_toList_iff_getElem?_eq_some]
      simp only [mem_map, mem_filter, Bool.and_eq_true, decide_eq_true_eq]
      constructor
      · rintro ⟨⟨met, flags⟩, ⟨entryMem, above, rfl⟩, rfl⟩
        exact ⟨above, entryMem⟩
      · rintro ⟨above, entryMem⟩
        exact ⟨(seq, .flagWant), ⟨entryMem, above, rfl⟩, rfl⟩
    · intro seq
      rw [flagAt, getD_filter_below, ← reachedWant]
      split <;> simp_all [flagAt, Flags.none]
    · intro seq
      rw [flagAt, getD_filter_below, ← reachedHave]
      split <;> simp_all [flagAt, Flags.none]
    · intro seq seqMem
      rcases Std.TreeMap.mem_filter.mp seqMem with ⟨held, below⟩
      simpa using below
    · have allFlagged : Flagged painted :=
        Paint.flagged_paintColours (fun _ => Paint.carries_of_mem_colours single)
          (fun seq seqMem => by simp at seqMem) walked
      exact allFlagged.filter_below paint.floor

/-! ## What one round of a depth walk finds -/

variable {floor : ℕ} {seeds : List ℕ}

theorem parentsOrError_eq_ok_iff {seq : ℕ} {parents : List ℕ} :
    index.parentsOrError floor seq = .ok parents ↔
      seq ∈ index.keys ∧ index.parents seq = parents := by
  simp only [parentsOrError, mustGet, CommitIndex.parents]
  rcases held : index.lookup seq with _ | entry
  · have outside : seq ∉ index.keys := AList.lookup_eq_none.mp held
    refine iff_of_false ?_ fun known => outside known.1
    intro impossible
    cases impossible
  · have inside : seq ∈ index.keys := AList.lookup_isSome.mp (by rw [held]; rfl)
    simp only [inside, true_and]
    exact Except.pure_eq_ok_iff

theorem reachedAt_eq_ok_iff {found : ℕ × ℕ} {commit : ReachedCommit} :
    index.reachedAt floor found = .ok commit ↔
      (commit.seq, commit.depth) = found ∧
        ∃ entry, index.lookup commit.seq = some entry ∧ commit.rootTree = entry.rootTree := by
  rcases found with ⟨seq, depth⟩
  rcases commit with ⟨commitSeq, commitDepth, commitRoot⟩
  simp only [reachedAt, mustGet]
  rcases held : index.lookup seq with _ | entry
  · refine iff_of_false (fun impossible => by cases impossible) ?_
    rintro ⟨same, entry, found, -⟩
    obtain ⟨rfl, rfl⟩ := Prod.mk.inj same
    rw [held] at found
    cases found
  · rw [Except.bind_eq_ok_iff]
    constructor
    · rintro ⟨_, ⟨⟩, built⟩
      cases built
      exact ⟨rfl, entry, held, rfl⟩
    · rintro ⟨same, other, found, root⟩
      obtain ⟨rfl, rfl⟩ := Prod.mk.inj same
      obtain rfl : entry = other := Option.some.inj (held.symm.trans found)
      refine ⟨entry, rfl, ?_⟩
      rw [Except.pure_eq_ok_iff, root]

structure DepthBand.Settled (band : DepthBand) (index : CommitIndex) (seeds : List (ℕ × ℕ))
    (floor limit : ℕ) (best : SeqMap ℕ) : Prop where
  ascending : (band.reached.map ReachedCommit.seq).Pairwise (· < ·)
  reached : ∀ commit : ReachedCommit, commit ∈ band.reached ↔
    floor ≤ commit.seq ∧ best[commit.seq]? = some commit.depth ∧
      ∃ entry, index.lookup commit.seq = some entry ∧ commit.rootTree = entry.rootTree
  covered : ∀ seq depth, floor ≤ seq → best[seq]? = some depth →
    ∃ commit ∈ band.reached, commit.seq = seq ∧ commit.depth = depth
  below : ∀ seq, band.below[seq]? = if seq < floor then best[seq]? else none
  seeded : ∀ seq depth, (seq, depth) ∈ seeds → Relax.Within best seq depth
  closed : ∀ seq depth, best[seq]? = some depth → floor ≤ seq → depth < limit →
    ∀ parent ∈ index.parents seq, Relax.Within best parent (depth + 1)

theorem expandDepth_settled {seeds : List (ℕ × ℕ)} {limit : ℕ} {band : DepthBand}
    (expanded : index.expandDepth seeds floor limit = .ok band) :
    ∃ best, band.Settled index seeds floor limit best ∧
      ∃ rounds, Relax.relax floor limit (index.parentsOrError floor) rounds seeds.reverse ∅ =
        .ok best := by
  simp only [expandDepth, Except.bind_eq_ok_iff, Except.pure_eq_ok_iff] at expanded
  rcases expanded with ⟨best, relaxed, reached, mapped, rfl⟩
  refine ⟨best, ?_, _, relaxed⟩
  have covers : ∀ seq parents, index.parentsOrError floor seq = .ok parents →
      seq ∈ index.keys ∧ parents.length ≤ (index.parents seq).length := by
    intro seq parents readable
    rcases parentsOrError_eq_ok_iff.mp readable with ⟨inside, rfl⟩
    exact ⟨inside, le_rfl⟩
  have noneYet : Relax.Pending floor limit (index.parentsOrError floor) seeds.reverse ∅ := by
    intro seq depth found
    simp at found
  have enough : seeds.reverse.length + Relax.budget limit (fun seq => (index.parents seq).length)
      index.keys ∅ ≤ seeds.length +
        (index.keys.map fun seq => (index.parents seq).length * limit).sum := by
    simp [Relax.budget, Relax.slack]
  rcases Relax.relax_settled covers enough noneYet relaxed with ⟨-, takes, settled⟩
  refine ⟨?_, ?_, ?_, ?_, ?_, ?_⟩
  · have sameSeqs : reached.map ReachedCommit.seq =
        (best.toList.filter fun found => floor ≤ found.1).map Prod.fst :=
      Except.map_eq_of_mapM (fun found _ commit converted => by
        rw [← (reachedAt_eq_ok_iff.mp converted).1]) mapped
    rw [sameSeqs]
    exact SeqMap.filter_ascending best _
  · intro commit
    rw [Except.mem_of_mapM mapped]
    simp only [reachedAt_eq_ok_iff, mem_filter, decide_eq_true_eq]
    constructor
    · rintro ⟨_, ⟨found, above⟩, rfl, known⟩
      exact ⟨above, Std.TreeMap.mem_toList_iff_getElem?_eq_some.mp found, known⟩
    · rintro ⟨above, found, known⟩
      exact ⟨_, ⟨Std.TreeMap.mem_toList_iff_getElem?_eq_some.mpr found, above⟩, rfl, known⟩
  · intro seq depth above found
    have listed : (seq, depth) ∈ best.toList.filter fun found => floor ≤ found.1 := by
      simp only [mem_filter, decide_eq_true_eq]
      exact ⟨Std.TreeMap.mem_toList_iff_getElem?_eq_some.mpr found, above⟩
    rcases Except.exists_of_mapM mapped listed with ⟨commit, commitMem, converted⟩
    have same := Prod.mk.inj (reachedAt_eq_ok_iff.mp converted).1
    exact ⟨commit, commitMem, same.1, same.2⟩
  · exact SeqMap.getElem?_filter_below best floor
  · intro seq depth seeded
    exact takes seq depth (mem_reverse.mpr seeded)
  · intro seq depth found above shallow parent parentMem
    rcases settled seq depth found above shallow with ⟨parents, readable, held⟩
    rcases parentsOrError_eq_ok_iff.mp readable with ⟨-, rfl⟩
    refine (held parent parentMem).resolve_right ?_
    rintro ⟨_, _, ⟨⟩⟩

/-! ## What an ancestor walk reaches -/

def HasParent (index : CommitIndex) (child parent : ℕ) : Prop :=
  parent ∈ index.parents child

theorem mem_total_ancestorsFrom {source target : ℕ} :
    target ∈ Worklist.total (index.ancestorsFrom floor) source ↔
      Descent.Above index.HasParent floor source target := by
  by_cases below : source < floor
  · have notAbove : ¬floor ≤ source := by omega
    simp [Worklist.total, ancestorsFrom, below, Descent.Above, notAbove]
  · have above : floor ≤ source := by omega
    rcases readable : index.parentsOrError floor source with message | parents
    · have outside : source ∉ index.keys := fun inside => by
        rw [parentsOrError_eq_ok_iff.mpr ⟨inside, rfl⟩] at readable
        cases readable
      have missing : index.lookup source = none := AList.lookup_eq_none.mpr outside
      simp [Worklist.total, ancestorsFrom, below, readable, Descent.Above, HasParent,
        CommitIndex.parents, missing]
    · rcases parentsOrError_eq_ok_iff.mp readable with ⟨-, rfl⟩
      simp [Worklist.total, ancestorsFrom, below, readable, Descent.Above, HasParent, above]

theorem length_total_ancestorsFrom_le (index : CommitIndex) (floor seq : ℕ) :
    (Worklist.total (index.ancestorsFrom floor) seq).length ≤ (index.parents seq).length := by
  simp only [Worklist.total, ancestorsFrom]
  split_ifs
  · simp
  · rcases readable : index.parentsOrError floor seq with message | parents
    · simp
    · rcases parentsOrError_eq_ok_iff.mp readable with ⟨-, rfl⟩
      exact le_rfl

/-- An ancestor walk visits what is reachable by steps taken at or above the floor, and reports
the rest of it apart. -/
theorem expandAncestors_exact {visited below : Finset ℕ}
    (expanded : index.expandAncestors seeds floor = .ok (visited, below)) (seq : ℕ) :
    (seq ∈ visited ↔ floor ≤ seq ∧
      ∃ seed ∈ seeds, ReflTransGen (Descent.Above index.HasParent floor) seed seq) ∧
    (seq ∈ below ↔ seq < floor ∧
      ∃ seed ∈ seeds, ReflTransGen (Descent.Above index.HasParent floor) seed seq) := by
  simp only [expandAncestors, Except.bind_eq_ok_iff, Except.pure_eq_ok_iff, Prod.mk.injEq]
    at expanded
  rcases expanded with ⟨seen, searched, rfl, rfl⟩
  have outside : ∀ seq, seq ∉ index.keys → Worklist.total (index.ancestorsFrom floor) seq = [] := by
    intro seq outside
    have missing : index.lookup seq = none := AList.lookup_eq_none.mpr outside
    have short := length_total_ancestorsFrom_le index floor seq
    simp only [CommitIndex.parents, missing, length_nil] at short
    exact eq_nil_of_length_eq_zero (by omega)
  have enough : seeds.reverse.length +
      Worklist.budget (Worklist.total (index.ancestorsFrom floor)) index.keys [] ≤
        index.walkBound seeds.length := by
    have bounded := Worklist.budget_le_sum (Worklist.total (index.ancestorsFrom floor)) index.keys
      (fun seq => (index.parents seq).length) (length_total_ancestorsFrom_le index floor)
    rw [walkBound, length_reverse]
    omega
  have met := Worklist.mem_visitE_iff index.keys_nodup outside enough searched seq
  simp only [mem_total_ancestorsFrom, mem_reverse] at met
  constructor
  · rw [mem_toFinset, mem_filter, met, decide_eq_true_eq, and_comm]
  · rw [mem_toFinset, mem_filter, met, decide_eq_true_eq, and_comm]

theorem expandAncestors_isOk_of {meets : ℕ → Prop} (seeded : ∀ seed ∈ seeds, meets seed)
    (known : ∀ seq, meets seq → floor ≤ seq → seq ∈ index.keys ∧
      ∀ parent ∈ index.parents seq, meets parent) : ∃ split, index.expandAncestors seeds floor = .ok split := by
  have readable : ∀ seq, meets seq → ∃ parents, index.ancestorsFrom floor seq =
      .ok parents ∧ ∀ parent ∈ parents, meets parent := by
    intro seq met
    rw [ancestorsFrom]
    split
    next => exact ⟨[], rfl, fun parent parentMem => by cases parentMem⟩
    next above =>
      rcases known seq met (not_lt.mp above) with ⟨inside, meetsParents⟩
      exact ⟨_, parentsOrError_eq_ok_iff.mpr ⟨inside, rfl⟩, meetsParents⟩
  have searches : ∃ seen, Worklist.visitE Worklist.lifo (index.ancestorsFrom floor)
      (index.walkBound seeds.length) seeds.reverse [] = .ok seen :=
    Worklist.visitE_isOk (fun seed seedMem => seeded seed (mem_reverse.mp seedMem)) readable
  rcases searches with ⟨seen, searched⟩
  rw [expandAncestors, searched]
  exact ⟨_, rfl⟩

theorem expandAncestors_isOk (closed : index.ParentClosed)
    (seeded : ∀ seed ∈ seeds, seed ∈ index.keys) (floor : ℕ) :
    ∃ split, index.expandAncestors seeds floor = .ok split :=
  expandAncestors_isOk_of seeded fun seq inside _ => ⟨inside, closed seq⟩

end CommitIndex

end Enroute
