import Enroute.Packfile.EncodeDelta

/-!
# What is encoded as a delta is rebuilt from it

Each part of the encoder emits instructions that produce one stretch of the target: inserts the
literal bytes they carry, copies the range of the base they name. The scan keeps that what it has
written produces the target up to the pending bytes, from one position to the next and so to the
end.
-/

namespace Enroute

open Fields List Varint

namespace Delta

variable {base target : Bytes}

/-! ## Inserts -/

theorem produces_insert (base : Bytes) {chunk : Bytes} (nonempty : chunk ≠ [])
    (short : chunk.length ≤ maxInsert) :
    Produces base (UInt8.ofNat chunk.length :: chunk) chunk := by
  have positive : 0 < chunk.length := length_pos_iff.mpr nonempty
  rw [maxInsert] at short
  have count : (UInt8.ofNat chunk.length).toNat = chunk.length := by
    rw [UInt8.toNat_ofNat']
    omega
  -- The length is one of the commands 1 to 127: no copy flag, and not the reserved command.
  have commands : ∀ length < 128, 0 < length →
      UInt8.ofNat length &&& 0x80 = 0 ∧ UInt8.ofNat length ≠ 0 := by decide
  have command := commands chunk.length (by omega) positive
  apply produces_of_applyInstruction
  intro rest out room
  have whole : byteRange (chunk ++ rest) 0 chunk.length = some chunk := by
    rw [byteRange_of_le (Nat.zero_le _) (by simp), drop_zero, Nat.sub_zero, take_left]
  rw [applyInstruction, if_neg (not_not.mpr command.1), if_neg command.2, count, whole]
  simp only [writeAll_of_le room, Except.ok_bind, drop_left]

variable {fuel offset size pos pending : ℕ}

theorem produces_pushLiteralFrom (base : Bytes) {data : Bytes} (enough : data.length ≤ fuel) :
    Produces base (pushLiteralFrom fuel data) data := by
  induction fuel generalizing data with
  | zero =>
    rw [length_eq_zero_iff.mp (Nat.le_zero.mp enough)]
    exact produces_nil base
  | succ fuel ih =>
    rw [pushLiteralFrom]
    split_ifs with empty
    · rw [empty]
      exact produces_nil base
    · have positive : 0 < data.length := length_pos_iff.mpr empty
      have chunkProduces : Produces base
          (UInt8.ofNat (data.take maxInsert).length :: data.take maxInsert)
          (data.take maxInsert) := by
        apply produces_insert
        · simp [maxInsert, empty]
        · exact length_take_le _ _
      have restShort : (data.drop maxInsert).length ≤ fuel := by
        rw [length_drop, maxInsert]
        omega
      have together := chunkProduces.append (ih restShort)
      rwa [take_append_drop] at together

theorem produces_pushLiteral (base data : Bytes) : Produces base (pushLiteral data) data :=
  produces_pushLiteralFrom base le_rfl

/-! ## Copies -/

def flag (byte : UInt8) (bit : ℕ) : UInt8 :=
  bif byte == 0 then 0 else 1 <<< UInt8.ofNat bit

def spelled (bytes : Bytes) : Bytes :=
  bytes.filter (· ≠ 0)

theorem packBytes_nil (bit : ℕ) (packed : UInt8 × Bytes) : packBytes bit [] packed = packed :=
  rfl

theorem packBytes_cons (bit : ℕ) (byte : UInt8) (bytes : Bytes) (cmd : UInt8) (payload : Bytes) :
    packBytes bit (byte :: bytes) (cmd, payload) =
      packBytes (bit + 1) bytes (cmd ||| flag byte bit, payload ++ spelled [byte]) := by
  rw [packBytes]
  by_cases zero : byte = 0
  · simp [zero, flag, spelled]
  · simp [zero, flag, spelled, beq_false_of_ne zero]

theorem packBytes_snd (bit : ℕ) (bytes : Bytes) (packed : UInt8 × Bytes) :
    (packBytes bit bytes packed).2 = packed.2 ++ spelled bytes := by
  induction bytes generalizing bit packed with
  | nil => simp [packBytes, spelled]
  | cons byte bytes ih =>
    rw [packBytes_cons, ih, append_assoc]
    simp [spelled, ← filter_append]

def Flags (cmd : UInt8) (fields : List (UInt8 × ℕ)) (bytes : Bytes) : Prop :=
  List.Forall₂ (fun field byte => (cmd &&& field.1 == 0) = (byte == 0)) fields bytes

def placed : List (UInt8 × ℕ) → Bytes → ℕ → ℕ
  | (_, shift) :: fields, byte :: bytes, value =>
    placed fields bytes (value ||| byte.toNat <<< shift)
  | _, _, value => value

theorem readBytes_spelled {cmd : UInt8} {fields : List (UInt8 × ℕ)} {bytes : Bytes}
    (flags : Flags cmd fields bytes) (rest : Bytes) (value : ℕ) :
    readBytes cmd fields (spelled bytes ++ rest) value =
      .ok (placed fields bytes value, rest) := by
  induction flags generalizing value with
  | nil => rfl
  | @cons field byte fields bytes headFlag flags ih =>
    rcases field with ⟨mask, shift⟩
    rw [Bool.eq_iff_iff, beq_iff_eq, beq_iff_eq] at headFlag
    by_cases zero : byte = 0
    · have skipped : spelled (byte :: bytes) = spelled bytes := by
        simp [spelled, zero]
      unfold readBytes
      rw [if_pos (headFlag.mpr zero), skipped, ih, placed, zero]
      simp
    · have kept : spelled (byte :: bytes) = byte :: spelled bytes := by
        simp [spelled, zero]
      unfold readBytes
      rw [if_neg (fun unset => zero (headFlag.mp unset)), kept, cons_append]
      simp only [ih, placed]

def InPlace : ℕ → List (UInt8 × ℕ) → Prop
  | _, [] => True
  | at_, (_, shift) :: fields => shift = 8 * at_ ∧ InPlace (at_ + 1) fields

theorem placed_eq_ofLe {at_ : ℕ} {fields : List (UInt8 × ℕ)} {bytes : Bytes} {value : ℕ}
    (inPlace : InPlace at_ fields) (sameLength : fields.length = bytes.length)
    (below : value < 2 ^ (8 * at_)) :
    placed fields bytes value = value + ofLe bytes * 2 ^ (8 * at_) := by
  induction fields generalizing at_ bytes value with
  | nil =>
    rw [length_nil, eq_comm, length_eq_zero_iff] at sameLength
    rw [sameLength, placed, ofLe, zero_mul, add_zero]
    simp
  | cons field fields ih =>
    rcases field with ⟨mask, shift⟩
    cases bytes with
    | nil => cases sameLength
    | cons byte bytes =>
      rcases inPlace with ⟨rfl, inPlace⟩
      have small : byte.toNat * 2 ^ (8 * at_) ≤ 255 * 2 ^ (8 * at_) :=
        Nat.mul_le_mul_right _ (Nat.le_of_lt_succ byte.toNat_lt)
      have wider : 2 ^ (8 * (at_ + 1)) = 256 * 2 ^ (8 * at_) := by
        rw [Nat.mul_succ, pow_add, Nat.mul_comm]
        rfl
      rw [placed, or_shift_eq below, ih inPlace (Nat.succ.inj sameLength) (by omega), ofLe,
        wider]
      ring

theorem placed_offset (fits : offset < 2 ^ 32) :
    placed offsetFields (toLe 4 offset) 0 = offset := by
  have value : placed offsetFields (toLe 4 offset) 0 = 0 + ofLe (toLe 4 offset) * 2 ^ (8 * 0) :=
    placed_eq_ofLe (by simp [InPlace, offsetFields]) (by simp [offsetFields]) (by simp)
  simpa [ofLe_toLe (show offset < 256 ^ 4 by omega)] using value

theorem placed_size (fits : size < 2 ^ 24) : placed sizeFields (toLe 3 size) 0 = size := by
  have value : placed sizeFields (toLe 3 size) 0 = 0 + ofLe (toLe 3 size) * 2 ^ (8 * 0) :=
    placed_eq_ofLe (by simp [InPlace, sizeFields]) (by simp [sizeFields]) (by simp)
  simpa [ofLe_toLe (show size < 256 ^ 3 by omega)] using value

theorem flags_of_bytes (b0 b1 b2 b3 b4 b5 b6 : UInt8) :
    let cmd := 0x80 ||| flag b0 0 ||| flag b1 1 ||| flag b2 2 ||| flag b3 3 ||| flag b4 4 |||
      flag b5 5 ||| flag b6 6
    cmd &&& 0x80 ≠ 0 ∧ Flags cmd offsetFields [b0, b1, b2, b3] ∧
      Flags cmd sizeFields [b4, b5, b6] := by
  simp only [Flags, offsetFields, sizeFields, forall₂_cons, List.Forall₂.nil, and_true, flag]
  generalize (b0 == 0) = z0, (b1 == 0) = z1, (b2 == 0) = z2, (b3 == 0) = z3, (b4 == 0) = z4,
    (b5 == 0) = z5, (b6 == 0) = z6
  revert z0 z1 z2 z3 z4 z5 z6
  decide

def packCopy (offset size : ℕ) : UInt8 × Bytes :=
  packBytes 4 (toLe 3 size) (packBytes 0 (toLe 4 offset) (0x80, []))

theorem flags_packCopy (offset size : ℕ) :
    (packCopy offset size).1 &&& 0x80 ≠ 0 ∧
      Flags (packCopy offset size).1 offsetFields (toLe 4 offset) ∧
      Flags (packCopy offset size).1 sizeFields (toLe 3 size) := by
  simp only [packCopy, toLe, packBytes_cons, packBytes_nil, zero_add, Nat.reduceAdd]
  exact flags_of_bytes _ _ _ _ _ _ _

theorem packCopy_snd (offset size : ℕ) :
    (packCopy offset size).2 = spelled (toLe 4 offset) ++ spelled (toLe 3 size) := by
  rw [packCopy, packBytes_snd, packBytes_snd, nil_append]

theorem copyRange_of_le {out : Filling} (positive : 0 < size) (inside : offset + size ≤ base.length)
    (room : ((base.drop offset).take size).length ≤ out.room) :
    copyRange base offset size out =
      .ok ⟨out.written ++ (base.drop offset).take size,
        out.room - ((base.drop offset).take size).length⟩ := by
  rw [copyRange]
  simp only [if_neg (Nat.ne_of_gt positive)]
  rw [byteRange_of_le (Nat.le_add_right _ _) inside, Nat.add_sub_cancel_left]
  exact writeAll_of_le room

theorem produces_pushCopyInstruction (positive : 0 < size) (sizeFits : size ≤ maxCopy)
    (offsetFits : offset < 2 ^ 32) (inside : offset + size ≤ base.length) :
    Produces base (pushCopyInstruction offset size) ((base.drop offset).take size) := by
  rw [maxCopy] at sizeFits
  rcases flags_packCopy offset size with ⟨isCopy, offsetFlags, sizeFlags⟩
  change Produces base ((packCopy offset size).1 :: (packCopy offset size).2) _
  apply produces_of_applyInstruction
  intro rest out room
  rw [applyInstruction, if_pos isCopy, packCopy_snd, append_assoc,
    readBytes_spelled offsetFlags, placed_offset offsetFits]
  simp only [Except.ok_bind, readBytes_spelled sizeFlags,
    placed_size (show size < 2 ^ 24 by omega), copyRange_of_le positive inside room]

theorem produces_pushCopyFrom {baseOffset len : ℕ} (inside : baseOffset + len ≤ base.length)
    (offsetFits : base.length < 2 ^ 32) {done : ℕ} (enough : len - done ≤ fuel) :
    ∃ copies, pushCopyFrom baseOffset len fuel done = .ok copies ∧
      Produces base copies ((base.drop (baseOffset + done)).take (len - done)) := by
  induction fuel generalizing done with
  | zero =>
    refine ⟨[], rfl, ?_⟩
    rw [Nat.le_zero.mp enough, take_zero]
    exact produces_nil base
  | succ fuel ih =>
    rw [pushCopyFrom]
    split_ifs with more outside
    · omega
    · have taken : 0 < min (len - done) maxCopy := by
        rw [maxCopy]
        omega
      have takenLe : min (len - done) maxCopy ≤ len - done := min_le_left _ _
      have copyInside : baseOffset + done + min (len - done) maxCopy ≤ base.length := by omega
      have copy := produces_pushCopyInstruction taken (min_le_right _ _)
        (Nat.not_le.mp outside) copyInside
      generalize min (len - done) maxCopy = take at taken takenLe copy ⊢
      have fewer : len - (done + take) ≤ fuel := by omega
      rcases ih fewer with ⟨rest, pushed, restProduces⟩
      refine ⟨pushCopyInstruction (baseOffset + done) take ++ rest, ?_, ?_⟩
      · simp only [pushed, Except.ok_bind]
      · have whole : (base.drop (baseOffset + done)).take (len - done) =
            (base.drop (baseOffset + done)).take take ++
              (base.drop (baseOffset + (done + take))).take (len - (done + take)) := by
          rw [show len - done = take + (len - (done + take)) by omega, take_add,
            drop_drop, Nat.add_assoc]
        rw [whole]
        exact copy.append restProduces
    · refine ⟨[], rfl, ?_⟩
      rw [show len - done = 0 by omega, take_zero]
      exact produces_nil base

theorem produces_pushCopy {baseOffset len : ℕ} (inside : baseOffset + len ≤ base.length)
    (offsetFits : base.length < 2 ^ 32) :
    ∃ copies, pushCopy baseOffset len = .ok copies ∧
      Produces base copies ((base.drop baseOffset).take len) :=
  produces_pushCopyFrom inside offsetFits le_rfl

/-! ## Matches -/

theorem take_commonPrefix (a b : Bytes) :
    a.take (commonPrefix a b) = b.take (commonPrefix a b) := by
  induction a generalizing b with
  | nil => simp [commonPrefix]
  | cons x a ih =>
    cases b with
    | nil => simp [commonPrefix]
    | cons y b =>
      by_cases same : x = y
      · have step : commonPrefix (x :: a) (y :: b) = commonPrefix a b + 1 := by
          simp [commonPrefix, same]
        rw [step, take_succ_cons, take_succ_cons, ih, same]
      · have stop : commonPrefix (x :: a) (y :: b) = 0 := by
          simp [commonPrefix, same]
        rw [stop, take_zero, take_zero]

theorem commonPrefix_le (a b : Bytes) :
    commonPrefix a b ≤ a.length ∧ commonPrefix a b ≤ b.length := by
  have short : commonPrefix a b ≤ (a.zip b).length := (takeWhile_sublist _).length_le
  rw [length_zip] at short
  exact ⟨short.trans (min_le_left _ _), short.trans (min_le_right _ _)⟩

theorem commonSuffix_eq (a b : Bytes) :
    commonSuffix a b = commonPrefix a.reverse b.reverse :=
  rfl

theorem commonSuffix_le (a b : Bytes) :
    commonSuffix a b ≤ a.length ∧ commonSuffix a b ≤ b.length := by
  have short := commonPrefix_le a.reverse b.reverse
  rwa [length_reverse, length_reverse] at short

theorem drop_commonSuffix (a b : Bytes) :
    a.drop (a.length - commonSuffix a b) = b.drop (b.length - commonSuffix a b) := by
  have same := take_commonPrefix a.reverse b.reverse
  rw [← commonSuffix_eq, take_reverse, take_reverse] at same
  exact reverse_injective same

/-- What the encoder relies on in a match: it lies in the pending bytes and ahead, it moves the
scan on, and the base has the same bytes. -/
structure Match.Fits (found : Match) (base target : Bytes) (pos pending : ℕ) : Prop where
  notEmitted : pending ≤ found.start
  advances : pos < found.start + found.len
  inTarget : found.start + found.len ≤ target.length
  inBase : found.baseOffset + found.len ≤ base.length
  same : (base.drop found.baseOffset).take found.len = (target.drop found.start).take found.len

theorem take_drop_across {backward forward : ℕ} (reachBase : backward ≤ offset)
    (reachTarget : backward ≤ pos)
    (behind : (base.drop (offset - backward)).take backward =
      (target.drop (pos - backward)).take backward) (ahead : (base.drop offset).take forward = (target.drop pos).take forward) :
    (base.drop (offset - backward)).take (backward + forward) =
      (target.drop (pos - backward)).take (backward + forward) := by
  rw [take_add, take_add, drop_drop, drop_drop, Nat.sub_add_cancel reachBase,
    Nat.sub_add_cancel reachTarget, behind, ahead]

theorem fits_tryBlock (offset : ℕ) {best : Option Match} (scanned : pending ≤ pos)
    (inside : pos ≤ target.length) (bestFits : ∀ found ∈ best, found.Fits base target pos pending) :
    ∀ found ∈ tryBlock base (target.drop pos) ((target.drop pending).take (pos - pending)) pos
      offset best, found.Fits base target pos pending := by
  rw [tryBlock]
  by_cases reach : offset ≤ base.length
  · -- The block lies in the base, so both comparisons are with its bytes.
    rw [byteRange_of_le reach le_rfl, byteRange_of_le (Nat.zero_le _) reach]
    simp only [Option.map_some, Option.getD_some, drop_zero, Nat.sub_zero]
    rw [take_of_length_le (l := base.drop offset) (by simp)]
    have forwardLe := commonPrefix_le (base.drop offset) (target.drop pos)
    have forwardSame := take_commonPrefix (base.drop offset) (target.drop pos)
    have backwardLe := commonSuffix_le (base.take offset)
      ((target.drop pending).take (pos - pending))
    have backwardSame := drop_commonSuffix (base.take offset)
      ((target.drop pending).take (pos - pending))
    generalize commonPrefix (base.drop offset) (target.drop pos) = forward at *
    generalize commonSuffix (base.take offset) ((target.drop pending).take (pos - pending)) =
      backward at *
    simp only [length_drop, length_take] at forwardLe backwardLe backwardSame
    split_ifs with taken
    · rintro found ⟨⟩
      have behind : (base.drop (offset - backward)).take backward =
          (target.drop (pos - backward)).take backward := by
        rw [drop_take, drop_take, drop_drop] at backwardSame
        rw [show min offset base.length = offset by omega,
          show min (pos - pending) (target.length - pending) = pos - pending by omega]
          at backwardSame
        rwa [show offset - (offset - backward) = backward by omega,
          show pos - pending - (pos - pending - backward) = backward by omega,
          show pending + (pos - pending - backward) = pos - backward by omega] at backwardSame
      refine ⟨by simp only; omega, by simp only; omega, by simp only; omega, by simp only; omega, ?_⟩
      simp only [Nat.add_comm forward backward]
      exact take_drop_across (by omega) (by omega) behind forwardSame
    · exact bestFits
  · have outside : byteRange base offset base.length = none := if_neg fun inside => reach inside.1
    simp only [outside, Option.map_none, Option.getD_none, lt_irrefl, false_and, if_false]
    exact bestFits

theorem fits_walkChain (scanned : pending ≤ pos) (inside : pos ≤ target.length) (next : List ℕ)
    {candidates candidate : ℕ} {best : Option Match}
    (bestFits : ∀ found ∈ best, found.Fits base target pos pending) :
    ∀ found ∈ walkChain base (target.drop pos) ((target.drop pending).take (pos - pending)) next
      pos candidates candidate best, found.Fits base target pos pending := by
  induction candidates generalizing candidate best with
  | zero => exact bestFits
  | succ candidates ih =>
    have tried := fits_tryBlock (candidate * block) scanned inside bestFits
    rw [walkChain]
    cases next[candidate]? with
    | none => simp
    | some candidate =>
      simp only
      split_ifs
      · exact tried
      · exact ih tried

theorem fits_bestMatch {index : BlockIndex} {hash : UInt32} {found : Match}
    (scanned : pending ≤ pos) (inside : pos ≤ target.length)
    (matched : bestMatch index base target pos pending hash = some found) :
    found.Fits base target pos pending := by
  rw [bestMatch, byteRange_of_le inside le_rfl, byteRange_of_le scanned inside,
    take_of_length_le (l := target.drop pos) (by simp)] at matched
  simp only [Option.bind_eq_bind, Option.bind_some, Option.bind_eq_some_iff] at matched
  rcases matched with ⟨candidate, -, walked⟩
  exact fits_walkChain scanned inside index.next (by simp) found walked

/-! ## The scan -/

/-- What holds at every position of the scan: what is written produces the target up to the
pending bytes. -/
structure Scanned (base target : Bytes) (scan : Scan) : Prop where
  scanned : scan.pending ≤ scan.pos
  inside : scan.pos ≤ target.length
  written : ∃ instructions,
    scan.out = writeVarint base.length ++ (writeVarint target.length ++ instructions) ∧
      Produces base instructions (target.take scan.pending)

theorem Scanned.step {scan : Scan} (index : BlockIndex) (offsetFits : base.length < 2 ^ 32)
    (held : Scanned base target scan) (more : scan.pos < target.length) :
    ∃ next, scanStep index base target scan = .ok next ∧ Scanned base target next ∧
      scan.pos < next.pos := by
  rcases held with ⟨scanned, inside, instructions, out, produces⟩
  rw [scanStep]
  generalize found : (if scan.pos + block ≤ target.length then
    bestMatch index base target scan.pos scan.pending scan.hash else none) = result
  cases result with
  | none =>
    refine ⟨_, rfl, ⟨?_, ?_, instructions, out, produces⟩, Nat.lt_succ_self _⟩
    · exact scanned.trans (Nat.le_succ _)
    · exact more
  | some result =>
    have matched : bestMatch index base target scan.pos scan.pending scan.hash =
        some result := by
      split_ifs at found
      exact found
    rcases fits_bestMatch scanned inside matched with
      ⟨notEmitted, advances, inTarget, inBase, same⟩
    rcases produces_pushCopy inBase offsetFits with ⟨copies, pushed, copyProduces⟩
    simp only [byteRange_of_le notEmitted (show result.start ≤ target.length by omega), pushed,
      Except.ok_bind]
    refine ⟨_, rfl, ⟨le_rfl, inTarget, ?_⟩, advances⟩
    refine ⟨instructions ++ pushLiteral ((target.drop scan.pending).take
      (result.start - scan.pending)) ++ copies, ?_, ?_⟩
    · simp only [out, append_assoc]
    · have covered : target.take (result.start + result.len) =
          target.take scan.pending ++
            (target.drop scan.pending).take (result.start - scan.pending) ++
            (target.drop result.start).take result.len := by
        rw [← take_add, Nat.add_sub_cancel' notEmitted, ← take_add]
      simp only [covered, ← same]
      exact (produces.append (produces_pushLiteral base _)).append copyProduces

theorem exists_scanLoop {scan : Scan} (index : BlockIndex) (offsetFits : base.length < 2 ^ 32)
    (held : Scanned base target scan) (enough : target.length - scan.pos ≤ fuel) :
    ∃ done, scanLoop index base target fuel scan = .ok done ∧ Scanned base target done := by
  induction fuel generalizing scan with
  | zero =>
    refine ⟨scan, ?_, held⟩
    rw [scanLoop, if_neg (by omega)]
  | succ fuel ih =>
    rw [scanLoop]
    split_ifs with more
    · rcases held.step index offsetFits more with ⟨next, stepped, nextHeld, advances⟩
      rw [stepped, Except.ok_bind]
      exact ih nextHeld (by omega)
    · exact ⟨scan, rfl, held⟩

end Delta

open Delta in
/-- A delta can be encoded for every pair of objects up to the size limit, and rebuilds the
target from the base. -/
theorem applyDelta_encodeDelta {base target : Bytes} (baseSmall : base.length ≤ maxObjectBytes)
    (targetSmall : target.length ≤ maxObjectBytes) :
    ∃ delta, encodeDelta base target = .ok delta ∧ applyDelta base delta = .ok target := by
  have offsetFits : base.length < 2 ^ 32 := by
    rw [maxObjectBytes] at baseSmall
    omega
  have start : Scanned base target
      { pending := 0, pos := 0, hash := hashAt target 0
        out := writeVarint base.length ++ writeVarint target.length } :=
    ⟨le_rfl, Nat.zero_le _, [], by simp, produces_nil base⟩
  rcases exists_scanLoop (BlockIndex.build base) offsetFits start le_rfl with
    ⟨done, scanned, held⟩
  rcases held with ⟨pendingLe, inside, instructions, out, produces⟩
  have tail : byteRange target done.pending target.length = some (target.drop done.pending) := by
    rw [byteRange_of_le (by omega) le_rfl, take_of_length_le (by simp)]
  refine ⟨done.out ++ pushLiteral (target.drop done.pending), ?_, ?_⟩
  · rw [encodeDelta, if_neg (by omega)]
    simp only [Nat.sub_zero] at scanned
    simp only [scanned, Except.ok_bind, tail]
  · have whole := produces.append (produces_pushLiteral base (target.drop done.pending))
    rw [take_append_drop] at whole
    rw [out, append_assoc, append_assoc]
    exact applyDelta_of_produces baseSmall targetSmall whole

/-- A text with a byte put in front of it. -/
theorem applyDelta_encodeDelta_lead :
    (List.replicate 20 7 : Bytes).length ≤ maxObjectBytes ∧
      (8 :: List.replicate 20 7 : Bytes).length ≤ maxObjectBytes ∧
      ∃ delta, encodeDelta (List.replicate 20 7) (8 :: List.replicate 20 7) = .ok delta ∧
        applyDelta (List.replicate 20 7) delta = .ok (8 :: List.replicate 20 7) :=
  ⟨by decide, by decide, applyDelta_encodeDelta (by decide) (by decide)⟩

-- One insert of one byte, then one copy of twenty bytes from the start of the base.
example : encodeDelta (List.replicate 20 7) (8 :: List.replicate 20 7) =
    .ok [20, 21, 1, 8, 0x90, 20] := by decide +kernel

end Enroute
