import Enroute.GraphStore.Walk

/-!
# The paint walk is exact

The banded paint walk keeps exactly the commits that are reachable from a want and not from a have.
The invariant of its rounds says that whatever is still to be found below the current bound is
reachable from the frontier under the same paint, and that everything at or above the bound is
decided. Want-paint may be cut short at a have seed without loss: where have-paint is blocked,
want-paint is blocked too, so all that lies beyond is have-reachable.
-/

namespace Enroute

open List Relation

namespace CommitIndex

def Descends (index : CommitIndex) (block : List ℕ) (source target : ℕ) : Prop :=
  source ∉ block ∧ target ∈ index.parents source

/-- The commits reachable from the seeds when the blocked ones count as parentless. -/
def Reachable (index : CommitIndex) (seeds block : List ℕ) (seq : ℕ) : Prop :=
  ∃ seed ∈ seeds, ReflTransGen (index.Descends block) seed seq

variable {index : CommitIndex}

theorem Descends.lt (monotone : index.SeqMonotone) (block : List ℕ) (source target : ℕ)
    (step : index.Descends block source target) : target < source :=
  monotone source target step.2

theorem Reachable.tail {seeds block : List ℕ} {source target : ℕ}
    (reachable : index.Reachable seeds block source)
    (path : ReflTransGen (index.Descends block) source target) :
    index.Reachable seeds block target := by
  rcases reachable with ⟨seed, seedMem, before⟩
  exact ⟨seed, seedMem, before.trans path⟩

end CommitIndex

theorem flagAt_foldl_paintAt {flag : Flags → Bool}
    (additive : ∀ left right, flag (left.or right) = (flag left || flag right))
    (entries : List (ℕ × Flags)) (painted : SeqMap Flags) (seq : ℕ) :
    flagAt flag (entries.foldl (fun painted entry => paintAt painted entry.1 entry.2) painted)
        seq = true ↔
      flagAt flag painted seq = true ∨ ∃ flags, (seq, flags) ∈ entries ∧ flag flags = true := by
  induction entries generalizing painted with
  | nil => simp
  | cons entry entries ih =>
    rcases entry with ⟨at_, flags⟩
    rw [foldl_cons, ih]
    simp only [flagAt, paintAt, Std.TreeMap.getElem?_alter]
    by_cases same : at_ = seq
    · subst same
      simp only [Std.LawfulEqCmp.compare_eq_iff_eq, if_true, Option.getD_some, additive,
        Bool.or_eq_true, mem_cons, Prod.mk.injEq, true_and]
      constructor
      · rintro ((before | here) | ⟨other, later, flagged⟩)
        · exact Or.inl before
        · exact Or.inr ⟨flags, Or.inl rfl, here⟩
        · exact Or.inr ⟨other, Or.inr later, flagged⟩
      · rintro (before | ⟨other, rfl | later, flagged⟩)
        · exact Or.inl (Or.inl before)
        · exact Or.inl (Or.inr flagged)
        · exact Or.inr ⟨other, later, flagged⟩
    · have different : ¬compare at_ seq = .eq := by simpa using same
      simp [different, Ne.symm same]

theorem mem_foldl_paintAt (entries : List (ℕ × Flags)) (painted : SeqMap Flags) (seq : ℕ) :
    seq ∈ entries.foldl (fun painted entry => paintAt painted entry.1 entry.2) painted ↔
      seq ∈ painted ∨ seq ∈ entries.map Prod.fst := by
  induction entries generalizing painted with
  | nil => simp
  | cons entry entries ih =>
    rw [foldl_cons, ih, paintAt, Std.TreeMap.mem_alter]
    by_cases same : entry.1 = seq
    · simp [same]
    · simp [same, Ne.symm same]

theorem flagAt_eq_true_iff {flag : Flags → Bool} (unset : flag .none = false)
    (painted : SeqMap Flags) (seq : ℕ) :
    flagAt flag painted seq = true ↔ ∃ flags, painted[seq]? = some flags ∧ flag flags = true := by
  simp only [flagAt]
  rcases painted[seq]? with _ | flags
  · simp [unset]
  · simp

/-- What the rounds of a paint walk keep. Everything at or above the bound is decided, and
what is left below it hangs off the frontier under the same paint. -/
structure PaintInv (index : CommitIndex) (wants haves wantBlock haveBlock : List ℕ) (bound : ℕ)
    (frontier : SeqMap Flags) (decided : List ℕ) : Prop where
  below : ∀ seq ∈ frontier, seq < bound
  flagged : Flagged frontier
  wantSound : ∀ seq, flagAt Flags.fromWant frontier seq = true →
    index.Reachable wants wantBlock seq
  haveSound : ∀ seq, flagAt Flags.fromHave frontier seq = true →
    index.Reachable haves haveBlock seq
  wantComplete : ∀ seq < bound, index.Reachable wants wantBlock seq →
    ¬index.Reachable haves haveBlock seq → ∃ start, flagAt Flags.fromWant frontier start = true ∧
      ReflTransGen (index.Descends wantBlock) start seq
  haveComplete : ∀ seq < bound, index.Reachable haves haveBlock seq →
    ∃ start, flagAt Flags.fromHave frontier start = true ∧
      ReflTransGen (index.Descends haveBlock) start seq
  decided_iff : ∀ seq, seq ∈ decided ↔ bound ≤ seq ∧ index.Reachable wants wantBlock seq ∧
    ¬index.Reachable haves haveBlock seq
  nodup : decided.Nodup

section Round

variable {index : CommitIndex} {wants haves wantBlock haveBlock : List ℕ} {bound floor : ℕ}
  {frontier : SeqMap Flags} {decided : List ℕ}

def roundPaint (frontier : SeqMap Flags) (floor : ℕ) (wantBlock haveBlock : List ℕ) : Paint where
  seeds := (frontier.toList.filter fun entry => floor ≤ entry.1).map fun entry =>
    (entry.1, if entry.2.fromHave then Flags.flagHave else Flags.flagWant)
  floor := floor
  wantBlock := wantBlock
  haveBlock := haveBlock

theorem roundPaint_singleFlags : (roundPaint frontier floor wantBlock haveBlock).SingleFlags := by
  intro seed seedMem
  simp only [roundPaint, mem_map, mem_filter] at seedMem
  rcases seedMem with ⟨entry, -, rfl⟩
  by_cases common : entry.2.fromHave = true
  · simp [common]
  · simp [common]

theorem mem_seedsFlagged_have (seq : ℕ) :
    seq ∈ (roundPaint frontier floor wantBlock haveBlock).seedsFlagged .flagHave ↔
      floor ≤ seq ∧ flagAt Flags.fromHave frontier seq = true := by
  rw [flagAt_eq_true_iff rfl]
  simp only [Paint.seedsFlagged, roundPaint, mem_map, mem_filter, decide_eq_true_eq]
  constructor
  · rintro ⟨seed, ⟨⟨⟨at_, flags⟩, ⟨entryMem, above⟩, rfl⟩, isHave⟩, rfl⟩
    rw [Std.TreeMap.mem_toList_iff_getElem?_eq_some] at entryMem
    refine ⟨above, flags, entryMem, ?_⟩
    by_contra notCommon
    simp [notCommon, Flags.flagHave, Flags.flagWant] at isHave
  · rintro ⟨above, flags, found, common⟩
    rw [← Std.TreeMap.mem_toList_iff_getElem?_eq_some] at found
    exact ⟨(seq, .flagHave), ⟨⟨(seq, flags), ⟨found, above⟩, by simp [common]⟩, rfl⟩, rfl⟩

theorem mem_seedsFlagged_want (flagged : Flagged frontier) (seq : ℕ) :
    seq ∈ (roundPaint frontier floor wantBlock haveBlock).seedsFlagged .flagWant ↔
      floor ≤ seq ∧ flagAt Flags.fromWant frontier seq = true ∧
        ¬flagAt Flags.fromHave frontier seq = true := by
  rw [← getElem?_eq_flagWant_iff]
  simp only [Paint.seedsFlagged, roundPaint, mem_map, mem_filter, decide_eq_true_eq]
  constructor
  · rintro ⟨seed, ⟨⟨⟨at_, flags⟩, ⟨entryMem, above⟩, rfl⟩, isWant⟩, rfl⟩
    rw [Std.TreeMap.mem_toList_iff_getElem?_eq_some] at entryMem
    refine ⟨above, entryMem.trans ?_⟩
    rcases flags with ⟨fromWant, fromHave⟩
    have painted := flagged at_ (SeqMap.mem_of_getElem? entryMem)
    simp only [flagAt, entryMem, Option.getD_some] at painted
    cases fromHave
    · simp only [Bool.false_eq_true, or_false] at painted
      rw [painted]
      rfl
    · simp [Flags.flagHave, Flags.flagWant] at isWant
  · rintro ⟨above, found⟩
    rw [← Std.TreeMap.mem_toList_iff_getElem?_eq_some] at found
    exact ⟨(seq, .flagWant), ⟨⟨(seq, .flagWant), ⟨found, above⟩, rfl⟩, rfl⟩, rfl⟩

theorem travels_have_iff (source target : ℕ) :
    (roundPaint frontier floor wantBlock haveBlock).Travels index .flagHave source target ↔
      Descent.Above (index.Descends haveBlock) floor source target := by
  have blocked : (roundPaint frontier floor wantBlock haveBlock).blocks .flagHave source = false ↔
      source ∉ haveBlock := decide_eq_false_iff_not
  constructor
  · rintro ⟨above, free, parentMem, -⟩
    exact ⟨above, blocked.mp free, parentMem⟩
  · rintro ⟨above, free, parentMem⟩
    exact ⟨above, blocked.mpr free, parentMem, fun stops => by cases stops.1⟩

theorem travels_want_iff (source target : ℕ) :
    (roundPaint frontier floor wantBlock haveBlock).Travels index .flagWant source target ↔
      Descent.Above (index.Descends wantBlock) floor source target ∧
        ¬(floor ≤ target ∧ flagAt Flags.fromHave frontier target = true) := by
  have blocked : (roundPaint frontier floor wantBlock haveBlock).blocks .flagWant source = false ↔
      source ∉ wantBlock := decide_eq_false_iff_not
  constructor
  · rintro ⟨above, free, parentMem, goesOn⟩
    refine ⟨⟨above, blocked.mp free, parentMem⟩, fun seeded => goesOn ⟨rfl, ?_⟩⟩
    exact (mem_seedsFlagged_have target).mpr seeded
  · rintro ⟨⟨above, free, parentMem⟩, goesOn⟩
    refine ⟨above, blocked.mpr free, parentMem, fun stops => goesOn ?_⟩
    exact (mem_seedsFlagged_have target).mp stops.2

theorem reachable_of_descends (blocks : ∀ seq ∈ haveBlock, seq ∈ wantBlock) {source target : ℕ}
    (reachable : index.Reachable haves haveBlock source)
    (path : ReflTransGen (index.Descends wantBlock) source target) :
    index.Reachable haves haveBlock target := by
  apply reachable.tail
  exact ReflTransGen.mono (fun _ _ step => ⟨fun blocked => step.1 (blocks _ blocked), step.2⟩)
    _ _ path

theorem reachedHave_of_above {start seq : ℕ} (above : floor ≤ start)
    (flagged : flagAt Flags.fromHave frontier start = true)
    (path : ReflTransGen (Descent.Above (index.Descends haveBlock) floor) start seq) :
    (roundPaint frontier floor wantBlock haveBlock).Reached index .flagHave seq := by
  refine ⟨start, (mem_seedsFlagged_have start).mpr ⟨above, flagged⟩, ?_⟩
  exact ReflTransGen.mono (fun _ _ step => (travels_have_iff _ _).mpr step) _ _ path

section Exact

variable (monotone : index.SeqMonotone) (blocks : ∀ seq ∈ haveBlock, seq ∈ wantBlock)
  (inv : PaintInv index wants haves wantBlock haveBlock bound frontier decided)

include inv

variable {seq : ℕ}

theorem reachedHave_sound
    (reached : (roundPaint frontier floor wantBlock haveBlock).Reached index .flagHave seq) :
    index.Reachable haves haveBlock seq := by
  rcases reached with ⟨seed, seedMem, path⟩
  rcases (mem_seedsFlagged_have seed).mp seedMem with ⟨-, flagged⟩
  apply (inv.haveSound seed flagged).tail
  exact ReflTransGen.mono (fun _ _ step => ((travels_have_iff _ _).mp step).2) _ _ path

theorem reachedWant_sound
    (reached : (roundPaint frontier floor wantBlock haveBlock).Reached index .flagWant seq) :
    index.Reachable wants wantBlock seq := by
  rcases reached with ⟨seed, seedMem, path⟩
  rcases (mem_seedsFlagged_want inv.flagged seed).mp seedMem with ⟨-, flagged, -⟩
  apply (inv.wantSound seed flagged).tail
  exact ReflTransGen.mono (fun _ _ step => ((travels_want_iff _ _).mp step).1.2) _ _ path

include blocks

theorem reachedWant_of_above {start : ℕ} (above : floor ≤ start)
    (flagged : flagAt Flags.fromWant frontier start = true)
    (path : ReflTransGen (Descent.Above (index.Descends wantBlock) floor) start seq)
    (unheld : ¬index.Reachable haves haveBlock seq) :
    (roundPaint frontier floor wantBlock haveBlock).Reached index .flagWant seq := by
  have startUnheld : ¬index.Reachable haves haveBlock start := fun held =>
    unheld (reachable_of_descends blocks held (Descent.above_path path))
  refine ⟨start, (mem_seedsFlagged_want inv.flagged start).mpr
    ⟨above, flagged, fun common => startUnheld (inv.haveSound start common)⟩, ?_⟩
  clear startUnheld
  induction path with
  | refl => exact .refl
  | @tail before target _ last ih =>
    have beforeUnheld : ¬index.Reachable haves haveBlock before := fun held =>
      unheld (reachable_of_descends blocks held (.single last.2))
    refine (ih beforeUnheld).tail ((travels_want_iff _ _).mpr ⟨last, ?_⟩)
    rintro ⟨-, common⟩
    exact unheld (inv.haveSound target common)

omit blocks

include monotone

theorem reachedHave_iff (above : floor ≤ seq) (below : seq < bound) :
    (roundPaint frontier floor wantBlock haveBlock).Reached index .flagHave seq ↔
      index.Reachable haves haveBlock seq := by
  refine ⟨reachedHave_sound inv, ?_⟩
  intro held
  rcases inv.haveComplete seq below held with ⟨start, flagged, path⟩
  have descends := CommitIndex.Descends.lt monotone haveBlock
  exact reachedHave_of_above (above.trans (Descent.le_of_path descends path)) flagged
    (Descent.above_of_path descends path above)

theorem reachedWant_lt
    (reached : (roundPaint frontier floor wantBlock haveBlock).Reached index .flagWant seq) :
    seq < bound := by
  rcases reached with ⟨seed, seedMem, path⟩
  rcases (mem_seedsFlagged_want inv.flagged seed).mp seedMem with ⟨-, flagged, -⟩
  have held : seed ∈ frontier := by
    rcases (flagAt_eq_true_iff rfl frontier seed).mp flagged with ⟨flags, found, -⟩
    exact SeqMap.mem_of_getElem? found
  have stepsDown : seq ≤ seed := Descent.le_of_path (CommitIndex.Descends.lt monotone wantBlock)
    (ReflTransGen.mono (fun _ _ step => ((travels_want_iff _ _).mp step).1.2) _ _ path)
  exact lt_of_le_of_lt stepsDown (inv.below seed held)

include blocks

theorem finalized_iff {band : CommitIndex.PaintBand}
    (exact_ : PaintBand.Exact band (roundPaint frontier floor wantBlock haveBlock) index)
    (seq : ℕ) :
    seq ∈ band.finalized ↔ (floor ≤ seq ∧ seq < bound) ∧ index.Reachable wants wantBlock seq ∧
      ¬index.Reachable haves haveBlock seq := by
  rw [exact_.finalized]
  constructor
  · rintro ⟨above, wanted, unheld⟩
    have below := reachedWant_lt monotone inv wanted
    exact ⟨⟨above, below⟩, reachedWant_sound inv wanted,
      fun held => unheld ((reachedHave_iff monotone inv above below).mpr held)⟩
  · rintro ⟨⟨above, below⟩, wanted, unheld⟩
    rcases inv.wantComplete seq below wanted unheld with ⟨start, flagged, path⟩
    have descends := CommitIndex.Descends.lt monotone wantBlock
    refine ⟨above, ?_, fun held => unheld (reachedHave_sound inv held)⟩
    exact reachedWant_of_above blocks inv (above.trans (Descent.le_of_path descends path)) flagged
      (Descent.above_of_path descends path above) unheld

end Exact

/-- The frontier after a round: what was below the band already and what the band met there. -/
def nextFrontier (frontier : SeqMap Flags) (floor : ℕ) (below : SeqMap Flags) : SeqMap Flags :=
  below.toList.foldl (fun frontier entry => paintAt frontier entry.1 entry.2)
    (frontier.filter fun seq _ => seq < floor)

theorem flagAt_nextFrontier {flag : Flags → Bool}
    (additive : ∀ left right, flag (left.or right) = (flag left || flag right))
    (unset : flag .none = false) (below : SeqMap Flags) (seq : ℕ) :
    flagAt flag (nextFrontier frontier floor below) seq = true ↔
      (seq < floor ∧ flagAt flag frontier seq = true) ∨ flagAt flag below seq = true := by
  rw [nextFrontier, flagAt_foldl_paintAt additive]
  apply or_congr
  · rw [flagAt, getD_filter_below]
    by_cases isBelow : seq < floor
    · simp [isBelow, flagAt]
    · simp [isBelow, unset]
  · rw [flagAt_eq_true_iff unset]
    simp only [Std.TreeMap.mem_toList_iff_getElem?_eq_some]

theorem mem_nextFrontier {below : SeqMap Flags} {seq : ℕ} :
    seq ∈ nextFrontier frontier floor below ↔ (seq ∈ frontier ∧ seq < floor) ∨ seq ∈ below := by
  rw [nextFrontier, mem_foldl_paintAt, Std.TreeMap.mem_filter,
    Std.TreeMap.map_fst_toList_eq_keys, Std.TreeMap.mem_keys]
  simp

theorem Flagged.nextFrontier (flagged : Flagged frontier) {below : SeqMap Flags}
    (belowFlagged : Flagged below) : Flagged (nextFrontier frontier floor below) := by
  refine Flagged.foldl_paintAt _ Prod.fst Prod.snd ?_ (flagged.filter_below floor)
  rintro ⟨seq, flags⟩ entryMem
  have found := Std.TreeMap.mem_toList_iff_getElem?_eq_some.mp entryMem
  have carries := belowFlagged seq (SeqMap.mem_of_getElem? found)
  simpa only [flagAt, found, Option.getD_some] using carries

theorem PaintInv.round (monotone : index.SeqMonotone)
    (blocks : ∀ seq ∈ haveBlock, seq ∈ wantBlock)
    (inv : PaintInv index wants haves wantBlock haveBlock bound frontier decided)
    (floorLe : floor ≤ bound) {band : CommitIndex.PaintBand}
    (exact_ : PaintBand.Exact band (roundPaint frontier floor wantBlock haveBlock) index) :
    PaintInv index wants haves wantBlock haveBlock floor
      (nextFrontier frontier floor band.below) (decided ++ band.finalized) := by
  have finalized := finalized_iff monotone blocks inv exact_
  have nextWant : ∀ seq, flagAt Flags.fromWant (nextFrontier frontier floor band.below) seq = true ↔
      (seq < floor ∧ flagAt Flags.fromWant frontier seq = true) ∨ seq < floor ∧
        (roundPaint frontier floor wantBlock haveBlock).Reached index .flagWant seq := by
    intro seq
    rw [flagAt_nextFrontier (fun _ _ => rfl) rfl, exact_.belowWant]
    rfl
  have nextHave : ∀ seq, flagAt Flags.fromHave (nextFrontier frontier floor band.below) seq = true ↔
      (seq < floor ∧ flagAt Flags.fromHave frontier seq = true) ∨ seq < floor ∧
        (roundPaint frontier floor wantBlock haveBlock).Reached index .flagHave seq := by
    intro seq
    rw [flagAt_nextFrontier (fun _ _ => rfl) rfl, exact_.belowHave]
    rfl
  refine ⟨?_, ?_, ?_, ?_, ?_, ?_, ?_, ?_⟩
  · intro seq seqMem
    exact (mem_nextFrontier.mp seqMem).elim (fun stays => stays.2) (exact_.belowFloor seq)
  · exact inv.flagged.nextFrontier exact_.flagged
  · intro seq flagged
    rcases (nextWant seq).mp flagged with ⟨-, before⟩ | ⟨-, reached⟩
    · exact inv.wantSound seq before
    · exact reachedWant_sound inv reached
  · intro seq flagged
    rcases (nextHave seq).mp flagged with ⟨-, before⟩ | ⟨-, reached⟩
    · exact inv.haveSound seq before
    · exact reachedHave_sound inv reached
  · intro seq isBelow wanted unheld
    rcases inv.wantComplete seq (isBelow.trans_le floorLe) wanted unheld with
      ⟨start, flagged, path⟩
    simp only [nextWant]
    by_cases startBelow : start < floor
    · exact ⟨start, Or.inl ⟨startBelow, flagged⟩, path⟩
    · rcases Descent.exists_crossing (CommitIndex.Descends.lt monotone wantBlock) path
        (not_lt.mp startBelow) isBelow with ⟨crossing, crossingBelow, down, rest⟩
      have crossingUnheld : ¬index.Reachable haves haveBlock crossing := fun held =>
        unheld (reachable_of_descends blocks held rest)
      refine ⟨crossing, Or.inr ⟨crossingBelow, ?_⟩, rest⟩
      exact reachedWant_of_above blocks inv (not_lt.mp startBelow) flagged down crossingUnheld
  · intro seq isBelow held
    rcases inv.haveComplete seq (isBelow.trans_le floorLe) held with ⟨start, flagged, path⟩
    simp only [nextHave]
    by_cases startBelow : start < floor
    · exact ⟨start, Or.inl ⟨startBelow, flagged⟩, path⟩
    · rcases Descent.exists_crossing (CommitIndex.Descends.lt monotone haveBlock) path
        (not_lt.mp startBelow) isBelow with ⟨crossing, crossingBelow, down, rest⟩
      refine ⟨crossing, Or.inr ⟨crossingBelow, ?_⟩, rest⟩
      exact reachedHave_of_above (not_lt.mp startBelow) flagged down
  · intro seq
    rw [mem_append, inv.decided_iff, finalized]
    constructor
    · rintro (⟨above, needed⟩ | ⟨⟨above, -⟩, needed⟩)
      · exact ⟨floorLe.trans above, needed⟩
      · exact ⟨above, needed⟩
    · rintro ⟨above, needed⟩
      rcases Nat.lt_or_ge seq bound with isUnder | isOver
      · exact Or.inr ⟨⟨above, isUnder⟩, needed⟩
      · exact Or.inl ⟨isOver, needed⟩
  · refine nodup_append.mpr ⟨inv.nodup, exact_.ascending.imp Nat.ne_of_lt, ?_⟩
    rintro seq before _ now rfl
    have isOver := ((inv.decided_iff seq).mp before).1
    have isUnder := ((finalized seq).mp now).1.2
    omega

end Round

section Top

variable {V : Type} {frontier : SeqMap V}

theorem lt_of_mem_frontier {seq : ℕ} (seqMem : seq ∈ frontier) :
    seq < match frontier.keys.getLast? with
      | some ceil => ceil + 1
      | none => 0 := by
  have ordered := SeqMap.keys_ascending frontier
  rw [← Std.TreeMap.mem_keys] at seqMem
  rcases top : frontier.keys.getLast? with _ | ceil
  · rw [List.getLast?_eq_none_iff.mp top] at seqMem
    cases seqMem
  · rcases List.getLast?_eq_some_iff.mp top with ⟨before, split⟩
    rw [split, pairwise_append] at ordered
    rw [split, mem_append, mem_singleton] at seqMem
    rcases seqMem with earlier | same
    · exact Nat.lt_succ_of_lt (ordered.2.2 seq earlier ceil mem_cons_self)
    · exact Nat.lt_succ_of_le same.le

theorem mem_of_getLast?_keys {ceil : ℕ} (top : frontier.keys.getLast? = some ceil) :
    ceil ∈ frontier :=
  Std.TreeMap.mem_keys.mp (mem_of_getLast? top)

theorem exists_top (notEmpty : ¬frontier.isEmpty = true) :
    ∃ ceil, frontier.keys.getLast? = some ceil := by
  rcases top : frontier.keys.getLast? with _ | ceil
  · rw [List.getLast?_eq_none_iff, ← List.isEmpty_iff, Std.TreeMap.isEmpty_keys] at top
    exact absurd top notEmpty
  · exact ⟨ceil, rfl⟩

end Top

namespace RepoGraph

variable {graph : RepoGraph} {wants haves wantBlock haveBlock : List ℕ}

variable {ceil width bound seq rounds : ℕ} {frontier : SeqMap Flags} {needed result : NeededCommits}
  {policy : BandPolicy} {index : CommitIndex} {paint : Paint} {seqs : List ℕ}

theorem paintBand_eq_ok_iff {next : SeqMap Flags} (top : frontier.keys.getLast? = some ceil) :
    graph.paintBand width wantBlock haveBlock frontier needed = .ok (next, result) ↔
      ∃ band, graph.index.expandPaint
          (roundPaint frontier (ceil - (width - 1)) wantBlock haveBlock) = .ok band ∧
        band.finalized.foldlM graph.pushCommit needed = .ok result ∧
        next = nextFrontier frontier (ceil - (width - 1)) band.below := by
  simp only [paintBand, top, Except.bind_eq_ok_iff, Except.pure_eq_ok_iff, Prod.mk.injEq]
  constructor
  · rintro ⟨band, expanded, _, pushed, rfl, rfl⟩
    exact ⟨band, expanded, pushed, rfl⟩
  · rintro ⟨band, expanded, pushed, rfl⟩
    exact ⟨band, expanded, _, pushed, rfl, rfl⟩

theorem decided_of_no_want {decided : List ℕ} (blocks : ∀ seq ∈ haveBlock, seq ∈ wantBlock)
    (inv : PaintInv graph.index wants haves wantBlock haveBlock bound frontier decided)
    (done : ∀ seq : ℕ, frontier[seq]? ≠ some .flagWant) (seq : ℕ) :
    seq ∈ decided ↔ graph.index.Reachable wants wantBlock seq ∧
      ¬graph.index.Reachable haves haveBlock seq := by
  rw [inv.decided_iff]
  refine and_iff_right_of_imp ?_
  rintro ⟨wanted, unheld⟩
  by_contra isBelow
  rcases inv.wantComplete seq (not_le.mp isBelow) wanted unheld with ⟨start, flagged, path⟩
  apply done start
  rw [getElem?_eq_flagWant_iff]
  exact ⟨flagged, fun common =>
    unheld (reachable_of_descends blocks (inv.haveSound start common) path)⟩

/-- The commits a needed set was built from: those reachable from a want and from no have, each
once. -/
def BuiltFrom (graph : RepoGraph) (wants haves wantBlock haveBlock : List ℕ)
    (needed : NeededCommits) : Prop :=
  ∃ seqs : List ℕ, seqs.Nodup ∧ seqs.foldlM graph.pushCommit ∅ = .ok needed ∧
    ∀ seq, seq ∈ seqs ↔ graph.index.Reachable wants wantBlock seq ∧
      ¬graph.index.Reachable haves haveBlock seq

theorem any_flagWant_iff (frontier : SeqMap Flags) :
    (frontier.toList.any fun entry => entry.2 = .flagWant) = true ↔
      ∃ seq : ℕ, frontier[seq]? = some .flagWant := by
  simp only [any_eq_true, decide_eq_true_eq]
  constructor
  · rintro ⟨⟨seq, flags⟩, entryMem, rfl⟩
    exact ⟨seq, Std.TreeMap.mem_toList_iff_getElem?_eq_some.mp entryMem⟩
  · rintro ⟨seq, found⟩
    exact ⟨(seq, .flagWant), Std.TreeMap.mem_toList_iff_getElem?_eq_some.mpr found, rfl⟩

theorem exists_top_of_any
    (more : (frontier.toList.any fun entry => entry.2 = .flagWant) = true) :
    ∃ ceil, frontier.keys.getLast? = some ceil := by
  rcases (any_flagWant_iff frontier).mp more with ⟨seq, found⟩
  refine exists_top fun empty => ?_
  rw [Std.TreeMap.getElem?_of_isEmpty empty] at found
  cases found

theorem paintRounds_builtFrom (monotone : graph.index.SeqMonotone)
    (blocks : ∀ seq ∈ haveBlock, seq ∈ wantBlock) {decided : List ℕ}
    (inv : PaintInv graph.index wants haves wantBlock haveBlock bound frontier decided)
    (enough : bound ≤ rounds) (pushed : decided.foldlM graph.pushCommit ∅ = .ok needed)
    (walked : graph.paintRounds wantBlock haveBlock rounds policy frontier needed = .ok result) :
    graph.BuiltFrom wants haves wantBlock haveBlock result := by
  induction rounds generalizing bound policy frontier decided needed with
  | zero =>
    cases walked
    obtain rfl : bound = 0 := by omega
    exact ⟨decided, inv.nodup, pushed, by simpa using inv.decided_iff⟩
  | succ rounds ih =>
    rw [paintRounds] at walked
    split at walked
    next more =>
      rcases exists_top_of_any more with ⟨ceil, top⟩
      rw [Except.bind_eq_ok_iff] at walked
      rcases walked with ⟨⟨next, between⟩, banded, rest⟩
      rcases (paintBand_eq_ok_iff top).mp banded with ⟨band, expanded, pushedBand, rfl⟩
      have ceilLt := inv.below ceil (mem_of_getLast?_keys top)
      have step := inv.round monotone blocks (by omega)
        (CommitIndex.expandPaint_exact roundPaint_singleFlags expanded)
      refine ih step (by omega) ?_ rest
      rw [foldlM_append, pushed]
      exact pushedBand
    next noMore =>
      cases walked
      refine ⟨decided, inv.nodup, pushed, decided_of_no_want blocks inv ?_⟩
      intro seq found
      exact noMore ((any_flagWant_iff frontier).mpr ⟨seq, found⟩)

theorem paintInv_paintFrontier (monotone : index.SeqMonotone)
    (below : ∀ seq ∈ paintFrontier wants haves, seq < bound) :
    PaintInv index wants haves wantBlock haveBlock bound (paintFrontier wants haves) [] := by
  have flagsAt : ∀ seq, (flagAt Flags.fromWant (paintFrontier wants haves) seq = true ↔
      seq ∈ wants) ∧ (flagAt Flags.fromHave (paintFrontier wants haves) seq = true ↔
        seq ∈ haves) := by
    intro seq
    simp only [paintFrontier, flagAt, getElem?_foldl_paintAt]
    by_cases isWant : seq ∈ wants <;> by_cases isHave : seq ∈ haves <;>
      simp [isWant, isHave, Flags.or, Flags.none, Flags.flagWant, Flags.flagHave]
  have noneAbove : ∀ seeds block seq, (∀ seed ∈ seeds, seed < bound) →
      index.Reachable seeds block seq → seq < bound := by
    rintro seeds block seq seedsBelow ⟨seed, seedMem, path⟩
    exact lt_of_le_of_lt (Descent.le_of_path (CommitIndex.Descends.lt monotone block) path)
      (seedsBelow seed seedMem)
  have held : ∀ flag : Flags → Bool, flag .none = false → ∀ seq,
      flagAt flag (paintFrontier wants haves) seq = true → seq < bound := by
    intro flag unset seq flagged
    rcases (flagAt_eq_true_iff unset _ seq).mp flagged with ⟨flags, found, -⟩
    exact below seq (SeqMap.mem_of_getElem? found)
  refine ⟨below, ?_, ?_, ?_, ?_, ?_, ?_, nodup_nil⟩
  · have noneYet : Flagged (∅ : SeqMap Flags) := fun seq seqMem => by simp at seqMem
    exact (noneYet.foldl_paintAt wants id (fun _ => .flagWant) fun _ _ => Or.inl rfl).foldl_paintAt
      haves id (fun _ => .flagHave) fun _ _ => Or.inr rfl
  · intro seq flagged
    exact ⟨seq, (flagsAt seq).1.mp flagged, .refl⟩
  · intro seq flagged
    exact ⟨seq, (flagsAt seq).2.mp flagged, .refl⟩
  · rintro seq - ⟨seed, seedMem, path⟩ -
    exact ⟨seed, (flagsAt seed).1.mpr seedMem, path⟩
  · rintro seq - ⟨seed, seedMem, path⟩
    exact ⟨seed, (flagsAt seed).2.mpr seedMem, path⟩
  · intro seq
    refine iff_of_false not_mem_nil ?_
    rintro ⟨above, wanted, -⟩
    have under := noneAbove wants wantBlock seq
      (fun seed seedMem => held Flags.fromWant rfl seed ((flagsAt seed).1.mpr seedMem)) wanted
    omega

theorem bandedPaintWalk_builtFrom (monotone : graph.index.SeqMonotone)
    (blocks : ∀ seq ∈ haveBlock, seq ∈ wantBlock)
    (walked : graph.bandedPaintWalk wants haves wantBlock haveBlock policy = .ok needed) :
    graph.BuiltFrom wants haves wantBlock haveBlock needed := by
  rw [bandedPaintWalk] at walked
  exact paintRounds_builtFrom monotone blocks
    (paintInv_paintFrontier monotone fun _ => lt_of_mem_frontier) le_rfl rfl walked

/-! ## A recorded history is walked without error -/

section

variable (closed : index.ParentClosed) (seeded : ∀ seed ∈ paint.seeds, seed.1 ∈ index.keys)

include closed seeded

theorem reached_mem_keys {colour : Flags} (reached : paint.Reached index colour seq) :
    seq ∈ index.keys := by
  rcases reached with ⟨seed, seedMem, path⟩
  rcases path.cases_tail with rfl | ⟨before, -, step⟩
  · simp only [Paint.seedsFlagged, mem_map, mem_filter] at seedMem
    rcases seedMem with ⟨marked, ⟨markedMem, -⟩, rfl⟩
    exact seeded marked markedMem
  · exact closed before seq step.2.2.1

theorem paintColour_isOk (painted : SeqMap Flags) (colour : Flags) :
    ∃ result, index.paintColour paint painted colour = .ok result := by
  have readable : ∀ seq, seq ∈ index.keys → ∃ items, paint.next index colour seq = .ok items ∧
      ∀ parent ∈ items, parent ∈ index.keys := by
    intro seq recorded
    rw [Paint.next]
    split
    next => exact ⟨[], rfl, fun parent parentMem => by cases parentMem⟩
    next =>
      rcases Option.isSome_iff_exists.mp (AList.lookup_isSome.mpr recorded) with ⟨entry, found⟩
      rw [found]
      refine ⟨_, rfl, fun parent parentMem => closed seq parent ?_⟩
      rw [CommitIndex.parents, found]
      exact mem_of_mem_filter parentMem
  have queued : ∀ seq ∈ paint.seedsFlagged colour, seq ∈ index.keys := fun seq seqMem =>
    reached_mem_keys closed seeded ⟨seq, seqMem, .refl⟩
  have searches : ∃ reached, Worklist.visitE Worklist.lifo (paint.next index colour)
      (index.walkBound (paint.seedsFlagged colour).length) (paint.seedsFlagged colour) [] =
        .ok reached :=
    Worklist.visitE_isOk queued readable
  rcases searches with ⟨reached, searched⟩
  simp only [CommitIndex.paintColour, searched]
  exact ⟨_, rfl⟩

theorem expandPaint_isOk : ∃ band, index.expandPaint paint = .ok band := by
  have walks : ∀ (colours : List Flags) (painted : SeqMap Flags),
      ∃ result, colours.foldlM (index.paintColour paint) painted = .ok result := by
    intro colours
    induction colours with
    | nil => exact fun painted => ⟨painted, rfl⟩
    | cons colour colours ih =>
      intro painted
      rcases paintColour_isOk closed seeded painted colour with ⟨next, first⟩
      rw [foldlM_cons, first]
      exact ih next
  rcases walks paint.colours ∅ with ⟨painted, walked⟩
  rw [CommitIndex.expandPaint, walked]
  exact ⟨_, rfl⟩

end

theorem pushCommits_isOk (recorded : graph.Recorded) (known : ∀ seq ∈ seqs, seq ∈ graph.index.keys)
    (needed : NeededCommits) : ∃ result, seqs.foldlM graph.pushCommit needed = .ok result := by
  induction seqs generalizing needed with
  | nil => exact ⟨needed, rfl⟩
  | cons seq seqs ih =>
    have isKnown := known seq mem_cons_self
    rcases recorded.packed seq isKnown with ⟨pack, packed⟩
    rcases recorded.named seq isKnown with ⟨oid, named⟩
    rw [foldlM_cons, pushCommit, packed, named]
    exact ih (fun later laterMem => known later (mem_cons_of_mem _ laterMem)) _

theorem paintBand_isOk (recorded : graph.Recorded) (top : frontier.keys.getLast? = some ceil)
    (known : ∀ seq ∈ frontier, seq ∈ graph.index.keys) (needed : NeededCommits) :
    ∃ next result, graph.paintBand width wantBlock haveBlock frontier needed = .ok (next, result) ∧
      ∀ seq ∈ next, seq ∈ graph.index.keys := by
  have seeded : ∀ seed ∈ (roundPaint frontier (ceil - (width - 1)) wantBlock haveBlock).seeds,
      seed.1 ∈ graph.index.keys := by
    intro seed seedMem
    simp only [roundPaint, mem_map, mem_filter] at seedMem
    rcases seedMem with ⟨⟨seq, flags⟩, ⟨entryMem, -⟩, rfl⟩
    have found := Std.TreeMap.mem_toList_iff_getElem?_eq_some.mp entryMem
    exact known seq (SeqMap.mem_of_getElem? found)
  rcases expandPaint_isOk recorded.closed seeded with ⟨band, expanded⟩
  have bandExact := CommitIndex.expandPaint_exact roundPaint_singleFlags expanded
  have finalizedKnown : ∀ seq ∈ band.finalized, seq ∈ graph.index.keys := fun seq seqMem =>
    reached_mem_keys recorded.closed seeded ((bandExact.finalized seq).mp seqMem).2.1
  rcases pushCommits_isOk recorded finalizedKnown needed with ⟨result, pushed⟩
  refine ⟨_, result, (paintBand_eq_ok_iff top).mpr ⟨band, expanded, pushed, rfl⟩, ?_⟩
  intro seq seqMem
  rcases mem_nextFrontier.mp seqMem with ⟨stays, -⟩ | found
  · exact known seq stays
  · rcases bandExact.flagged seq found with isWant | isHave
    · exact reached_mem_keys recorded.closed seeded ((bandExact.belowWant seq).mp isWant).2
    · exact reached_mem_keys recorded.closed seeded ((bandExact.belowHave seq).mp isHave).2

theorem paintRounds_isOk (recorded : graph.Recorded)
    (known : ∀ seq ∈ frontier, seq ∈ graph.index.keys) (needed : NeededCommits) :
    ∃ result, graph.paintRounds wantBlock haveBlock rounds policy frontier needed = .ok result := by
  induction rounds generalizing policy frontier needed with
  | zero => exact ⟨needed, rfl⟩
  | succ rounds ih =>
    rw [paintRounds]
    split
    next more =>
      rcases exists_top_of_any more with ⟨ceil, top⟩
      rcases paintBand_isOk recorded top known needed with ⟨next, result, banded, nextKnown⟩
      rw [banded]
      exact ih nextKnown result
    next => exact ⟨needed, rfl⟩

theorem mem_paintFrontier (seqMem : seq ∈ paintFrontier wants haves) :
    seq ∈ wants ∨ seq ∈ haves := by
  have listed : paintFrontier wants haves =
      (wants.map (·, Flags.flagWant) ++ haves.map (·, Flags.flagHave)).foldl
        (fun painted entry => paintAt painted entry.1 entry.2) ∅ := by
    rw [foldl_append, foldl_map, foldl_map]
    rfl
  rw [listed, mem_foldl_paintAt] at seqMem
  simpa using seqMem

theorem bandedPaintWalk_isOk (recorded : graph.Recorded)
    (known : ∀ seq, seq ∈ wants ∨ seq ∈ haves → seq ∈ graph.index.keys) (policy : BandPolicy) :
    ∃ needed, graph.bandedPaintWalk wants haves wantBlock haveBlock policy = .ok needed := by
  rw [bandedPaintWalk]
  exact paintRounds_isOk recorded (fun seq seqMem => known seq (mem_paintFrontier seqMem)) ∅

/-! ## The walk ends, and ends with the same commits under every schedule -/

theorem paintBand_below {next : SeqMap Flags} (top : frontier.keys.getLast? = some ceil)
    (banded : graph.paintBand width wantBlock haveBlock frontier needed = .ok (next, result)) :
    ∀ seq ∈ next, seq < ceil := by
  rcases (paintBand_eq_ok_iff top).mp banded with ⟨band, expanded, -, rfl⟩
  have bandExact := CommitIndex.expandPaint_exact roundPaint_singleFlags expanded
  intro seq seqMem
  rcases mem_nextFrontier.mp seqMem with ⟨-, below⟩ | found
  · omega
  · have below : seq < ceil - (width - 1) := bandExact.belowFloor seq found
    omega

theorem paintRounds_of_le {more : ℕ} (below : ∀ seq ∈ frontier, seq < rounds)
    (enough : rounds ≤ more) :
    graph.paintRounds wantBlock haveBlock more policy frontier needed =
      graph.paintRounds wantBlock haveBlock rounds policy frontier needed := by
  induction rounds generalizing more policy frontier needed with
  | zero =>
    cases more with
    | zero => rfl
    | succ more =>
      rw [paintRounds, paintRounds, if_neg]
      intro more
      rcases (any_flagWant_iff frontier).mp more with ⟨seq, found⟩
      exact absurd (below seq (SeqMap.mem_of_getElem? found)) (Nat.not_lt_zero seq)
  | succ rounds ih =>
    rcases Nat.exists_eq_add_of_le' (Nat.one_le_of_lt enough) with ⟨more, rfl⟩
    rw [paintRounds, paintRounds]
    split
    next more =>
      rcases exists_top_of_any more with ⟨ceil, top⟩
      cases banded : graph.paintBand policy.width wantBlock haveBlock frontier needed with
      | error message => rfl
      | ok round =>
        have ceilLt := below ceil (mem_of_getLast?_keys top)
        have under := paintBand_below top banded
        exact ih (fun seq seqMem => by have := under seq seqMem; omega) (by omega)
    next => rfl

theorem bandedPaintWalk_stops (wants haves wantBlock haveBlock : List ℕ) (policy : BandPolicy) :
    ∃ rounds, ∀ more, rounds ≤ more →
      graph.paintRounds wantBlock haveBlock more policy (paintFrontier wants haves) ∅ =
        graph.bandedPaintWalk wants haves wantBlock haveBlock policy :=
  ⟨_, fun _ enough => paintRounds_of_le (fun _ => lt_of_mem_frontier) enough⟩

def Lists (graph : RepoGraph) (seqs : List ℕ) (needed : NeededCommits) : Prop :=
  List.Forall₂ (fun seq commit => ∃ pack oid, graph.packs seq = some pack ∧
    graph.oidOf seq = some oid ∧ commit = NeededCommit.ofPack oid pack) seqs needed.commits

theorem lists_of_pushCommits (pushed : seqs.foldlM graph.pushCommit ∅ = .ok needed) :
    graph.Lists seqs needed := by
  rcases (pushCommits_eq_ok pushed).1 with ⟨added, isAdded, matched⟩
  have same : needed.commits = added := isAdded
  rwa [Lists, same]

theorem Lists.perm {others : List ℕ} {other : NeededCommits} (lists : graph.Lists seqs needed)
    (listsOther : graph.Lists others other) (same : seqs.Perm others) :
    needed.commits.Perm other.commits := by
  have commitsOf : ∀ {seqs : List ℕ} {commits : List NeededCommit},
      List.Forall₂ (fun seq commit => ∃ pack oid, graph.packs seq = some pack ∧
        graph.oidOf seq = some oid ∧ commit = NeededCommit.ofPack oid pack) seqs commits →
      commits = seqs.filterMap fun seq => (graph.packs seq).bind fun pack =>
        (graph.oidOf seq).map fun oid => NeededCommit.ofPack oid pack := by
    intro seqs commits matched
    induction matched with
    | nil => rfl
    | cons found _ ih =>
      rcases found with ⟨pack, oid, packed, named, rfl⟩
      rw [filterMap_cons, packed, Option.bind_some, named, Option.map_some, ← ih]
  rw [commitsOf lists, commitsOf listsOther]
  exact same.filterMap _

/-- The banded paint walk ends, succeeds from seeds of a recorded history, and keeps exactly the
commits reachable from a want and from no have, each once and whatever the schedule. -/
theorem bandedPaintWalk_exact (graph : RepoGraph) (wants haves wantBlock haveBlock : List ℕ)
    (policy : BandPolicy) (monotone : graph.index.SeqMonotone)
    (blocks : ∀ seq ∈ haveBlock, seq ∈ wantBlock) :
    (∃ rounds, ∀ more, rounds ≤ more →
      graph.paintRounds wantBlock haveBlock more policy (paintFrontier wants haves) ∅ =
        graph.bandedPaintWalk wants haves wantBlock haveBlock policy) ∧
    (graph.Recorded → (∀ seq, seq ∈ wants ∨ seq ∈ haves → seq ∈ graph.index.keys) →
      ∃ needed, graph.bandedPaintWalk wants haves wantBlock haveBlock policy = .ok needed) ∧
    ∀ needed, graph.bandedPaintWalk wants haves wantBlock haveBlock policy = .ok needed →
      (∃ seqs, seqs.Nodup ∧ graph.Lists seqs needed ∧ ∀ seq, seq ∈ seqs ↔
        graph.index.Reachable wants wantBlock seq ∧ ¬graph.index.Reachable haves haveBlock seq) ∧
      ∀ schedule other,
        graph.bandedPaintWalk wants haves wantBlock haveBlock schedule = .ok other →
        needed.commits.Perm other.commits := by
  refine ⟨bandedPaintWalk_stops wants haves wantBlock haveBlock policy,
    fun recorded known => bandedPaintWalk_isOk recorded known policy, fun needed walked => ?_⟩
  rcases bandedPaintWalk_builtFrom monotone blocks walked with ⟨seqs, distinct, pushed, exactly⟩
  refine ⟨⟨seqs, distinct, lists_of_pushCommits pushed, exactly⟩, fun schedule other again => ?_⟩
  rcases bandedPaintWalk_builtFrom monotone blocks again with
    ⟨others, distinctOthers, pushedOthers, exactlyOthers⟩
  refine (lists_of_pushCommits pushed).perm (lists_of_pushCommits pushedOthers) ?_
  exact (perm_ext_iff_of_nodup distinct distinctOthers).mpr fun seq =>
    (exactly seq).trans (exactlyOthers seq).symm

end RepoGraph

def diamond : RepoGraph where
  index := [⟨0, ⟨[], 0⟩⟩, ⟨1, ⟨[0], 1⟩⟩, ⟨2, ⟨[0], 2⟩⟩, ⟨3, ⟨[1, 2], 3⟩⟩].toAList
  packs := fun seq => some ⟨1, 13, ⟨0, 20 * seq, 20⟩, {seq}, ∅⟩
  seqOf := fun oid => if 100 ≤ oid then some (oid - 100) else none
  oidOf := fun seq => some (100 + seq)

theorem recorded_diamond : diamond.Recorded where
  monotone := CommitIndex.seqMonotone_of_entries (by decide)
  closed := CommitIndex.parentClosed_of_entries (by decide)
  packed := fun _ _ => ⟨_, rfl⟩
  named := fun _ _ => ⟨_, rfl⟩
  numbered := fun oid seq => by
    simp only [diamond, Option.some.injEq]
    split_ifs with named
    · rw [Option.some.injEq]
      constructor
      · rintro rfl
        exact Nat.add_sub_cancel' named
      · rintro rfl
        exact Nat.add_sub_cancel_left 100 seq
    · refine iff_of_false nofun ?_
      rintro rfl
      exact named (Nat.le_add_right 100 seq)

/-- A client that has one side of the merge is sent the merge and the other side. -/
theorem bandedPaintWalk_exact_diamond : ∃ needed seqs,
    diamond.bandedPaintWalk [3] [1] [] [] (.new 1 (by decide)) = .ok needed ∧
      diamond.Lists seqs needed ∧ 3 ∈ seqs ∧ 2 ∈ seqs ∧ 1 ∉ seqs ∧ 0 ∉ seqs := by
  rcases diamond.bandedPaintWalk_exact [3] [1] [] [] (.new 1 (by decide))
    recorded_diamond.monotone (fun _ blocked => blocked) with ⟨-, succeeds, exactly⟩
  have known : ∀ seq, seq ∈ [3] ∨ seq ∈ [1] → seq ∈ diamond.index.keys := by
    rintro seq (isWant | isHave)
    · cases mem_singleton.mp isWant
      decide
    · cases mem_singleton.mp isHave
      decide
  rcases succeeds recorded_diamond known with ⟨needed, walked⟩
  rcases (exactly needed walked).1 with ⟨seqs, -, lists, members⟩
  have fromMerge : ∀ seq ∈ [1, 2], diamond.index.Descends [] 3 seq := fun seq isParent =>
    ⟨not_mem_nil, isParent⟩
  have atMost : ∀ seq, diamond.index.Reachable [1] [] seq → seq ≤ 1 := by
    rintro seq ⟨seed, seedMem, path⟩
    cases mem_singleton.mp seedMem
    exact Descent.le_of_path (CommitIndex.Descends.lt recorded_diamond.monotone []) path
  have sideHeld : diamond.index.Reachable [1] [] 1 := ⟨1, mem_singleton_self 1, .refl⟩
  have baseHeld : diamond.index.Reachable [1] [] 0 :=
    ⟨1, mem_singleton_self 1, .single ⟨not_mem_nil, by decide⟩⟩
  refine ⟨needed, seqs, walked, lists, ?_, ?_, ?_, ?_⟩
  · exact (members 3).mpr ⟨⟨3, mem_singleton_self 3, .refl⟩,
      fun held => absurd (atMost 3 held) (by decide)⟩
  · exact (members 2).mpr ⟨⟨3, mem_singleton_self 3, .single (fromMerge 2 (by decide))⟩,
      fun held => absurd (atMost 2 held) (by decide)⟩
  · exact fun sent => ((members 1).mp sent).2 sideHeld
  · exact fun sent => ((members 0).mp sent).2 baseHeld

end Enroute
