import Enroute.Lattice.Plan
import Mathlib.Data.List.Sort

/-!
# What a plan merges

The merges of a plan are runs of one tier each, within the bounds of the policy, and no placement is
in two of them. A tier that is due leaves at most its last placement out. The bound on bytes is kept
on a sum that saturates, so the largest bound there is bounds nothing.
-/

namespace Enroute.Lattice

open List

variable {placements : List Placement} {policy : Policy}

/-! ## Runs of one tier -/

def sizeAt (placements : List Placement) (index : ℕ) : ℕ :=
  placements[index]?.elim 0 Placement.bytes

/-- A run one merge may take, as far as it is filled: within the limits, with its size summed up. -/
structure RunWithin (placements : List Placement) (policy : Policy) (run : List ℕ) (bytes : ℕ) :
    Prop where
  few : run.length ≤ max policy.maxInputs 2
  summed : bytes = min (run.map (sizeAt placements)).sum max64
  small : run.length ≤ 2 ∨ bytes ≤ policy.maxInputBytes

theorem runWithin_nil : RunWithin placements policy [] 0 where
  few := Nat.zero_le _
  summed := by simp
  small := Or.inl (Nat.zero_le _)

variable {run indices : List ℕ} {tier : Tier}

theorem RunWithin.push {bytes index : ℕ} (within : RunWithin placements policy run bytes)
    (room : ¬(max policy.maxInputs 2 ≤ run.length ∨ 2 ≤ run.length ∧
      policy.maxInputBytes < saturatingAdd bytes (sizeAt placements index))) :
    RunWithin placements policy (run ++ [index])
      (saturatingAdd bytes (sizeAt placements index)) where
  few := by
    rw [length_append, length_singleton]
    omega
  summed := by
    rw [map_append, sum_append, within.summed, saturatingAdd]
    simp only [map_singleton, sum_singleton]
    omega
  small := by
    rw [length_append, length_singleton]
    omega

theorem runWithin_singleton (index : ℕ) :
    RunWithin placements policy [index] (saturatingAdd 0 (sizeAt placements index)) :=
  runWithin_nil.push (by rw [length_nil]; omega)

theorem runsFrom_spec (indices : List ℕ) {bytes : ℕ}
    (within : RunWithin placements policy run bytes) :
    (∃ rest : List ℕ, (runsFrom placements policy indices run bytes).flatten ++ rest =
        run ++ indices ∧ rest.length ≤ 1) ∧
      ∀ taken ∈ runsFrom placements policy indices run bytes, 2 ≤ taken.length ∧
        ∃ size, RunWithin placements policy taken size := by
  induction indices generalizing run bytes with
  | nil =>
    rw [runsFrom]
    split_ifs with two
    · refine ⟨⟨[], by simp, by simp⟩, ?_⟩
      rw [forall_mem_singleton]
      exact ⟨two, bytes, within⟩
    · exact ⟨⟨run, by simp, by omega⟩, nofun⟩
  | cons index indices ih =>
    rw [runsFrom, ← sizeAt]
    split_ifs with full
    · have two : 2 ≤ run.length := by omega
      rcases ih (runWithin_singleton index) with ⟨⟨rest, isRest, few⟩, each⟩
      refine ⟨⟨rest, ?_, few⟩, forall_mem_cons.mpr ⟨⟨two, bytes, within⟩, each⟩⟩
      rw [flatten_cons, append_assoc]
      exact congrArg (run ++ ·) isRest
    · rcases ih (within.push full) with ⟨⟨rest, isRest, few⟩, each⟩
      refine ⟨⟨rest, ?_, few⟩, each⟩
      rw [isRest, append_assoc, singleton_append]

theorem runs_spec (indices : List ℕ) (placements : List Placement) (policy : Policy) :
    (∃ rest : List ℕ, (runs indices placements policy).flatten ++ rest = indices ∧
        rest.length ≤ 1) ∧
      ∀ taken ∈ runs indices placements policy, 2 ≤ taken.length ∧
        ∃ size, RunWithin placements policy taken size :=
  runsFrom_spec indices runWithin_nil

/-! ## Hulls -/

structure IsHull (range : KeyRange) (ranges : List KeyRange) : Prop where
  covers : ∀ part ∈ ranges, range.first ≤ part.first ∧ part.last ≤ range.last
  first : ∃ part ∈ ranges, range.first = part.first
  last : ∃ part ∈ ranges, range.last = part.last

theorem isHull_foldl (first : KeyRange) (ranges : List KeyRange) :
    IsHull (ranges.foldl KeyRange.hull first) (first :: ranges) := by
  induction ranges using List.reverseRecOn with
  | nil => exact ⟨by simp, ⟨first, by simp⟩, ⟨first, by simp⟩⟩
  | append_singleton ranges range ih =>
    rw [foldl_concat]
    rcases ih with ⟨covers, ⟨low, isLow, lowest⟩, ⟨high, isHigh, highest⟩⟩
    rw [← cons_append]
    refine ⟨fun part listed => ?_, ?_, ?_⟩
    · simp only [KeyRange.hull]
      rcases mem_append.mp listed with before | last
      · have := covers part before
        omega
      · rw [mem_singleton.mp last]
        omega
    · simp only [KeyRange.hull]
      rcases min_choice (ranges.foldl KeyRange.hull first).first range.first with same | same
      · exact ⟨low, mem_append_left _ isLow, same.trans lowest⟩
      · exact ⟨range, by simp, same⟩
    · simp only [KeyRange.hull]
      rcases max_choice (ranges.foldl KeyRange.hull first).last range.last with same | same
      · exact ⟨high, mem_append_left _ isHigh, same.trans highest⟩
      · exact ⟨range, by simp, same⟩

def placedAt (placements : List Placement) (indices : List ℕ) : List Placement :=
  indices.filterMap (placements[·]?)

theorem hull_spec (some_ : placedAt placements run ≠ []) :
    ∃ range, hull run placements = some range ∧
      IsHull range ((placedAt placements run).map Placement.range) := by
  rw [hull, ← placedAt]
  rcases exists_cons_of_ne_nil some_ with ⟨placement, placed, isPlaced⟩
  rw [isPlaced, map_cons]
  exact ⟨_, rfl, isHull_foldl _ _⟩

/-! ## Tiers -/

theorem getElem?_foldl_alter (entries : List (Placement × ℕ)) (held : Std.TreeMap Tier (List ℕ))
    (tier : Tier) :
    ((entries.foldl (fun held entry => held.alter entry.1.tier fun indices =>
        some (indices.getD [] ++ [entry.2])) held)[tier]?).getD [] =
      held[tier]?.getD [] ++ (entries.filter fun entry => entry.1.tier = tier).map Prod.snd := by
  induction entries generalizing held with
  | nil => simp
  | cons entry entries ih =>
    rw [foldl_cons, ih, Std.TreeMap.getElem?_alter]
    by_cases same : entry.1.tier = tier
    · subst same
      simp
    · have apart : compare entry.1.tier tier ≠ .eq := mt compare_eq_iff_eq.mp same
      simp [same, apart]

theorem getElem?_byTier (placements : List Placement) (tier : Tier) :
    (byTier placements)[tier]?.getD [] =
      (placements.zipIdx.filter fun entry => entry.1.tier = tier).map Prod.snd := by
  rw [byTier]
  simpa using getElem?_foldl_alter placements.zipIdx ∅ tier

theorem of_mem_byTier (listed : (tier, indices) ∈ (byTier placements).toList) :
    indices.Nodup ∧ ∀ index, index ∈ indices ↔
      ∃ placement, placements[index]? = some placement ∧ placement.tier = tier := by
  have isList := Std.TreeMap.mem_toList_iff_getElem?_eq_some.mp listed
  have all := getElem?_byTier placements tier
  rw [isList, Option.getD_some] at all
  subst all
  refine ⟨?_, fun index => ?_⟩
  · refine List.Nodup.sublist (filter_sublist.map _) ?_
    rw [zipIdx_map_snd]
    exact nodup_range'
  · constructor
    · intro isIndex
      rcases mem_map.mp isIndex with ⟨⟨placement, index⟩, kept, rfl⟩
      rcases mem_filter.mp kept with ⟨isAt, isTier⟩
      exact ⟨placement, mk_mem_zipIdx_iff_getElem?.mp isAt, of_decide_eq_true isTier⟩
    · rintro ⟨placement, isAt, isTier⟩
      exact mem_map.mpr ⟨(placement, index), mem_filter.mpr
        ⟨mk_mem_zipIdx_iff_getElem?.mpr isAt, decide_eq_true isTier⟩, rfl⟩

theorem length_of_mem_byTier (listed : (tier, indices) ∈ (byTier placements).toList) :
    indices.length = placements.countP (fun placement => placement.tier = tier) := by
  have all := getElem?_byTier placements tier
  rw [Std.TreeMap.mem_toList_iff_getElem?_eq_some.mp listed, Option.getD_some] at all
  rw [all, length_map, ← countP_eq_length_filter]
  nth_rewrite 2 [← zipIdx_map_fst 0 placements]
  rw [countP_map]
  rfl

theorem exists_mem_byTier {index : ℕ} {placement : Placement}
    (isAt : placements[index]? = some placement) :
    ∃ indices, (placement.tier, indices) ∈ (byTier placements).toList := by
  have all := getElem?_byTier placements placement.tier
  have listed : index ∈ (placements.zipIdx.filter fun entry =>
      entry.1.tier = placement.tier).map Prod.snd :=
    mem_map.mpr ⟨(placement, index), mem_filter.mpr
      ⟨mk_mem_zipIdx_iff_getElem?.mpr isAt, decide_eq_true rfl⟩, rfl⟩
  cases isList : (byTier placements)[placement.tier]? with
  | some indices => exact ⟨indices, Std.TreeMap.mem_toList_iff_getElem?_eq_some.mpr isList⟩
  | none =>
    rw [isList, Option.getD_none] at all
    rw [← all] at listed
    cases listed

def inKeyOrder (placements : List Placement) (indices : List ℕ) : List ℕ :=
  indices.insertionSort fun left right => keyBefore placements left right = true

instance : Std.Total fun left right => keyBefore placements left right = true :=
  ⟨fun left right => by
    unfold keyBefore
    cases placements[left]? <;> cases placements[right]? <;> simp [Placement.before]
    omega⟩

instance : IsTrans ℕ fun left right => keyBefore placements left right = true :=
  ⟨fun left middle right => by
    unfold keyBefore
    cases placements[left]? <;> cases placements[middle]? <;> cases placements[right]? <;>
      simp [Placement.before]
    omega⟩

theorem placedAt_ne_nil (two : 2 ≤ run.length)
    (inside : ∀ index ∈ run, ∃ placement, placements[index]? = some placement) :
    placedAt placements run ≠ [] := by
  rcases exists_mem_of_length_pos (show 0 < run.length by omega) with ⟨index, listed⟩
  rcases inside index listed with ⟨placement, isAt⟩
  exact ne_nil_of_mem (mem_filterMap.mpr ⟨index, listed, isAt⟩)

theorem tierMerges_spec (policy : Policy) (pressured : Bool)
    (listed : (tier, indices) ∈ (byTier placements).toList) :
    (tierMerges placements policy pressured tier indices).map Merge.inputs =
        (if policy.fanout ≤ indices.length ∨ pressured = true ∧ 2 ≤ indices.length then
          runs (inKeyOrder placements indices) placements policy else []) ∧
      ∀ merge ∈ tierMerges placements policy pressured tier indices, merge.tier = tier.next ∧
        hull merge.inputs placements = some merge.range := by
  have sameLength : (inKeyOrder placements indices).length = indices.length :=
    length_insertionSort _ _
  have inside : ∀ index ∈ indices, ∃ placement, placements[index]? = some placement :=
    fun index isIndex => (((of_mem_byTier listed).2 index).mp isIndex).imp fun _ => And.left
  have hulls : ∀ run ∈ runs (inKeyOrder placements indices) placements policy,
      ∃ range, hull run placements = some range := by
    intro run isRun
    rcases runs_spec (inKeyOrder placements indices) placements policy with
      ⟨⟨rest, isRest, -⟩, each⟩
    have listed : ∀ index ∈ run, index ∈ inKeyOrder placements indices := fun index inRun =>
      isRest ▸ mem_append_left rest (mem_flatten_of_mem isRun inRun)
    rcases hull_spec (placedAt_ne_nil (each run isRun).1 fun index inRun =>
      inside index ((perm_insertionSort _ _).mem_iff.mp (listed index inRun))) with
      ⟨range, isHull, -⟩
    exact ⟨range, isHull⟩
  rw [tierMerges, ← inKeyOrder]
  simp only [sameLength]
  split_ifs with due
  · refine ⟨?_, fun merge listed => ?_⟩
    · rw [map_filterMap]
      refine (filterMap_congr fun run isRun => ?_).trans filterMap_some
      rcases hulls run isRun with ⟨range, isHull⟩
      rw [isHull]
      rfl
    · rcases mem_filterMap.mp listed with ⟨run, -, isMerge⟩
      rcases Option.map_eq_some_iff.mp isMerge with ⟨range, isHull, rfl⟩
      exact ⟨rfl, isHull⟩
  · exact ⟨rfl, nofun⟩

theorem plan_eq (placements : List Placement) (policy : Policy) :
    ∃ pressure : Tier → Bool, plan placements policy = (byTier placements).toList.flatMap
      fun entry => tierMerges placements policy (pressure entry.1) entry.1 entry.2 := by
  have each (entries : List (Tier × List ℕ))
      (distinct : entries.Pairwise fun entry later => entry.1 ≠ later.1) (start : Bool)
      (planned : List Merge) : ∃ pressure : Tier → Bool,
      (entries.foldl (fun planned entry =>
        let merges := tierMerges placements policy planned.1 entry.1 entry.2
        (planned.1 && merges.isEmpty, planned.2 ++ merges)) (start, planned)).2 =
      planned ++ entries.flatMap
        fun entry => tierMerges placements policy (pressure entry.1) entry.1 entry.2 := by
    induction entries generalizing start planned with
    | nil => exact ⟨fun _ => false, by simp⟩
    | cons entry entries ih =>
      rcases pairwise_cons.mp distinct with ⟨apart, distinct⟩
      rcases ih distinct _ _ with ⟨pressure, isPlanned⟩
      refine ⟨Function.update pressure entry.1 start, ?_⟩
      rw [foldl_cons, isPlanned, flatMap_cons, Function.update_self, append_assoc]
      refine congrArg (fun rest => planned ++ (_ ++ rest))
        (flatMap_congr fun later listed => ?_)
      rw [Function.update_of_ne (apart later listed).symm]
  rcases each (byTier placements).toList (Std.TreeMap.distinct_keys_toList.imp
    fun apart same => apart (compare_eq_iff_eq.mpr same)) _ [] with ⟨pressure, isPlan⟩
  exact ⟨pressure, by rw [plan, isPlan, nil_append]⟩

/-! ## The plan -/

/-- A merge that keeps to the policy: of one tier, in key order, within the bounds. -/
structure SoundMerge (placements : List Placement) (policy : Policy) (merge : Merge) : Prop where
  atLeast : 2 ≤ merge.inputs.length
  atMost : merge.inputs.length ≤ max policy.maxInputs 2
  oneTier : ∃ tier : Tier, merge.tier = tier.next ∧ ∀ index ∈ merge.inputs,
    ∃ placement, placements[index]? = some placement ∧ placement.tier = tier
  keyOrder : merge.inputs.Pairwise fun left right => keyBefore placements left right = true
  isHull : IsHull merge.range ((placedAt placements merge.inputs).map Placement.range)
  bytes : merge.inputs.length = 2 ∨ max64 ≤ policy.maxInputBytes ∨
    ((placedAt placements merge.inputs).map Placement.bytes).sum ≤ policy.maxInputBytes

theorem sum_sizeAt (placements : List Placement) (run : List ℕ) :
    (run.map (sizeAt placements)).sum = ((placedAt placements run).map Placement.bytes).sum := by
  induction run with
  | nil => rfl
  | cons index run ih =>
    rw [map_cons, sum_cons, ih, sizeAt, placedAt, placedAt]
    cases isAt : placements[index]? with
    | none => simp [filterMap_cons_none isAt]
    | some placement => simp [filterMap_cons_some isAt]

theorem sublist_runs (indices : List ℕ) (placements : List Placement) (policy : Policy) :
    (runs indices placements policy).flatten.Sublist indices := by
  rcases runs_spec indices placements policy with ⟨⟨rest, isRest, -⟩, -⟩
  have front := sublist_append_left (runs indices placements policy).flatten rest
  rwa [isRest] at front

theorem soundMerge_of_mem {pressured : Bool} {merge : Merge}
    (listed : (tier, indices) ∈ (byTier placements).toList)
    (isMerge : merge ∈ tierMerges placements policy pressured tier indices) :
    SoundMerge placements policy merge := by
  rcases tierMerges_spec policy pressured listed with ⟨isRuns, each⟩
  rcases each merge isMerge with ⟨isTier, isHull⟩
  have isRun : merge.inputs ∈ runs (inKeyOrder placements indices) placements policy := by
    have inputs := mem_map_of_mem (f := Merge.inputs) isMerge
    rw [isRuns] at inputs
    split_ifs at inputs with due
    · exact inputs
    · cases inputs
  rcases (runs_spec _ placements policy).2 _ isRun with ⟨two, size, few, summed, small⟩
  have sublist : merge.inputs.Sublist (inKeyOrder placements indices) :=
    (sublist_flatten_of_mem isRun).trans (sublist_runs _ _ _)
  have ofTier : ∀ index ∈ merge.inputs,
      ∃ placement, placements[index]? = some placement ∧ placement.tier = tier := fun index inRun =>
    ((of_mem_byTier listed).2 index).mp
      ((perm_insertionSort _ _).mem_iff.mp (sublist.subset inRun))
  refine ⟨two, few, ⟨tier, isTier, ofTier⟩,
    (pairwise_insertionSort _ _).sublist sublist, ?_, ?_⟩
  · rcases hull_spec (placedAt_ne_nil two fun index inRun => (ofTier index inRun).imp
      fun _ => And.left) with ⟨range, isRange, hulls⟩
    rw [isHull] at isRange
    cases isRange
    exact hulls
  · rw [sum_sizeAt] at summed
    omega

theorem flatMap_tierMerges (policy : Policy) (pressured : Bool)
    (listed : (tier, indices) ∈ (byTier placements).toList) :
    ((tierMerges placements policy pressured tier indices).flatMap Merge.inputs).Nodup ∧
      (tierMerges placements policy pressured tier indices).flatMap Merge.inputs ⊆ indices := by
  have perm : (inKeyOrder placements indices).Perm indices := perm_insertionSort _ _
  rw [flatMap_def, (tierMerges_spec policy pressured listed).1]
  split_ifs
  · have sublist := sublist_runs (inKeyOrder placements indices) placements policy
    exact ⟨(perm.nodup_iff.mpr (of_mem_byTier listed).1).sublist sublist,
      fun index isIndex => perm.mem_iff.mp (sublist.subset isIndex)⟩
  · exact ⟨.nil, nofun⟩

theorem flatMap_tierMerges_due (policy : Policy) (pressured : Bool)
    (listed : (tier, indices) ∈ (byTier placements).toList)
    (enough : max policy.fanout 2 ≤ indices.length) :
    ∃ rest : List ℕ, ((tierMerges placements policy pressured tier indices).flatMap Merge.inputs ++
      rest).Perm indices ∧ rest.length ≤ 1 := by
  have perm : (inKeyOrder placements indices).Perm indices := perm_insertionSort _ _
  rw [flatMap_def, (tierMerges_spec policy pressured listed).1, if_pos (by omega)]
  rcases (runs_spec (inKeyOrder placements indices) placements policy).1 with ⟨rest, isRest, few⟩
  refine ⟨rest, ?_, few⟩
  rw [isRest]
  exact perm

/-- What a plan merges. Every placement is in one merge at most, every merge keeps to the policy,
and a tier of as many placements as the fanout asks for is merged but for at most one of them. -/
theorem plan_partitions (placements : List Placement) (policy : Policy) :
    ((plan placements policy).flatMap Merge.inputs).Nodup ∧
    (∀ merge ∈ plan placements policy, SoundMerge placements policy merge) ∧
    ∀ tier, max policy.fanout 2 ≤ placements.countP (fun placement => placement.tier = tier) →
      (∃ merge ∈ plan placements policy, ∃ index ∈ merge.inputs,
        placements[index]?.map Placement.tier = some tier) ∧
      ∀ left right, placements[left]?.map Placement.tier = some tier →
        placements[right]?.map Placement.tier = some tier →
        left ∉ (plan placements policy).flatMap Merge.inputs →
        right ∉ (plan placements policy).flatMap Merge.inputs → left = right := by
  rcases plan_eq placements policy with ⟨pressure, isPlan⟩
  rw [isPlan]
  refine ⟨?_, fun merge listed => ?_, fun tier enough => ?_⟩
  · rw [flatMap_assoc, nodup_flatMap]
    refine ⟨fun entry listed => (flatMap_tierMerges policy _ listed).1, ?_⟩
    refine Std.TreeMap.distinct_keys_toList.imp_of_mem fun isEntry isOther apart => ?_
    intro index inEntry inOther
    rcases ((of_mem_byTier isEntry).2 index).mp ((flatMap_tierMerges policy _ isEntry).2 inEntry)
      with ⟨placement, isAt, isTier⟩
    rcases ((of_mem_byTier isOther).2 index).mp ((flatMap_tierMerges policy _ isOther).2 inOther)
      with ⟨same, isSame, isOtherTier⟩
    rw [isAt] at isSame
    cases isSame
    exact apart (compare_eq_iff_eq.mpr (isTier.symm.trans isOtherTier))
  · rcases mem_flatMap.mp listed with ⟨entry, isEntry, isMerge⟩
    exact soundMerge_of_mem isEntry isMerge
  · have some_ : 0 < placements.countP (fun placement => placement.tier = tier) := by omega
    rcases countP_pos_iff.mp some_ with ⟨placement, isPlacement, isTier⟩
    rcases mem_iff_getElem?.mp isPlacement with ⟨place, isAt⟩
    have same := of_decide_eq_true isTier
    subst same
    rcases exists_mem_byTier isAt with ⟨indices, listed⟩
    have count := length_of_mem_byTier listed
    rcases flatMap_tierMerges_due policy (pressure placement.tier) listed (by omega) with
      ⟨rest, perm, few⟩
    have merged : ∀ index, placements[index]?.map Placement.tier = some placement.tier →
        index ∉ ((byTier placements).toList.flatMap fun entry =>
          tierMerges placements policy (pressure entry.1) entry.1 entry.2).flatMap Merge.inputs →
        index ∈ rest := by
      intro index ofTier unmerged
      have isIndex := perm.mem_iff.mpr (((of_mem_byTier listed).2 index).mpr
        (Option.map_eq_some_iff.mp ofTier))
      refine (mem_append.mp isIndex).resolve_left fun inTier => unmerged ?_
      rw [flatMap_assoc]
      exact mem_flatMap.mpr ⟨_, listed, inTier⟩
    refine ⟨?_, fun left right isLeft isRight leftOut rightOut => ?_⟩
    · have total := perm.length_eq
      rw [length_append] at total
      rcases exists_mem_of_length_pos (show 0 < ((tierMerges placements policy
        (pressure placement.tier) placement.tier indices).flatMap Merge.inputs).length by omega)
        with ⟨index, isIndex⟩
      rcases mem_flatMap.mp isIndex with ⟨merge, isMerge, inMerge⟩
      refine ⟨merge, mem_flatMap.mpr ⟨_, listed, isMerge⟩, index, inMerge, ?_⟩
      rw [Option.map_eq_some_iff]
      exact ((of_mem_byTier listed).2 index).mp (perm.mem_iff.mp (mem_append_left _ isIndex))
    · have leftRest := merged left isLeft leftOut
      have rightRest := merged right isRight rightOut
      rcases rest with _ | ⟨only, _ | ⟨second, more⟩⟩
      · cases leftRest
      · rw [mem_singleton.mp leftRest, mem_singleton.mp rightRest]
      · simp at few

/-- Three placements whose sizes add up to more than the largest bound there is: the sum saturates
at the bound, and one merge takes all three. -/
theorem plan_unbounded_bytes :
    let placed (key : ℕ) (isKey : key ≤ max64) : Placement :=
      ⟨⟨key, key, le_rfl, isKey⟩, 0, 2 ^ 63, .bucket⟩
    let placements := [placed 1 (by decide), placed 2 (by decide), placed 3 (by decide)]
    (plan placements ⟨3, 3, max64, 0, 0⟩).map Merge.inputs = [[0, 1, 2]] ∧
      max64 < (placements.map Placement.bytes).sum := by
  decide +kernel

end Enroute.Lattice
