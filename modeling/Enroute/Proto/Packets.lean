import Enroute.Lib.Except
import Enroute.Proto.Advertisement

/-!
# Reading pkt-lines

`packets` hands out the lines of a body one by one until it is read to its end or a line is not
what its length claims. Reading the four digits of a length belongs to `gix-packetline` and decoding
text that need not be UTF-8 to the standard library, so `PrefixDecoder` and `LossyDecoder` carry
these functions with what is known of them.
-/

namespace Enroute

open List

namespace PktLine

inductive Packet where
  | data (payload : Bytes)
  | flush
  | delimiter
  | responseEnd
  deriving DecidableEq, Repr

/-- What four bytes announce: a line without a payload, or the size of one. -/
inductive PacketLineOrWantedSize where
  | line (packet : Packet)
  | wanted (size : ℕ)

def maxWanted : ℕ := 65531

structure PrefixDecoder where
  hexPrefix : Bytes → Except String PacketLineOrWantedSize
  reads_flush : hexPrefix flush = .ok (.line .flush)
  reads_wanted : ∀ size, 0 < size → size ≤ maxWanted →
    hexPrefix (lengthPrefix (4 + size)) = .ok (.wanted size)

def hexValue (byte : UInt8) : Option ℕ :=
  if 48 ≤ byte ∧ byte ≤ 57 then some (byte.toNat - 48)
  else if 97 ≤ byte ∧ byte ≤ 102 then some (byte.toNat - 87)
  else if 65 ≤ byte ∧ byte ≤ 70 then some (byte.toNat - 55)
  else none

theorem hexValue_hexDigit {digit : ℕ} (small : digit < 16) :
    hexValue (hexDigit digit) = some digit := by
  interval_cases digit <;> decide

def hexLength (digits : Bytes) : Option ℕ := do
  let values ← digits.mapM hexValue
  some (values.foldl (fun length value => 16 * length + value) 0)

theorem hexLength_lengthPrefix {total : ℕ} (small : total < 65536) :
    hexLength (lengthPrefix total) = some total := by
  have digit : ∀ count, hexValue (hexDigit (count % 16)) = some (count % 16) :=
    fun count => hexValue_hexDigit (Nat.mod_lt count (by decide))
  simp only [hexLength, lengthPrefix, mapM_cons, mapM_nil, digit, Option.pure_def,
    Option.bind_eq_bind, Option.bind_some, foldl_cons, foldl_nil, Option.some.injEq]
  omega

def referencePrefixDecoder : PrefixDecoder where
  hexPrefix digits :=
    match hexLength digits with
    | none => .error "not hexadecimal"
    | some 0 => .ok (.line .flush)
    | some 1 => .ok (.line .delimiter)
    | some 2 => .ok (.line .responseEnd)
    | some (length + 3) =>
      if length < 2 then .error "invalid length" else .ok (.wanted (length - 1))
  reads_flush := rfl
  reads_wanted size nonempty short := by
    have total : 4 + size = (size + 1) + 3 := by omega
    rw [hexLength_lengthPrefix (by unfold maxWanted at short; omega), total]
    simp only
    rw [if_neg (by omega), Nat.add_sub_cancel]

structure ExactDataEncoder extends DataEncoder where
  refuses : ∀ payload, payload.length = 0 ∨ maxDataPayload < payload.length →
    ∃ message, dataToWrite payload = .error message

def exactReferenceEncoder : ExactDataEncoder where
  toDataEncoder := referenceDataEncoder
  refuses payload outside := by
    rcases outside with empty | long
    · exact ⟨_, if_pos empty⟩
    · have nonempty : payload.length ≠ 0 := by omega
      exact ⟨"payload too long", (if_neg nonempty).trans (if_pos long)⟩

def writeBody (encoder : DataEncoder) (payloads : List Bytes) : Except String Bytes := do
  let lines ← payloads.mapM encoder.dataToWrite
  .ok (lines.flatten ++ flush)

def Fits (payload : Bytes) : Prop :=
  0 < payload.length ∧ payload.length ≤ maxDataPayload

theorem dataToWrite_eq_ok_iff (encoder : ExactDataEncoder) (payload line : Bytes) :
    encoder.dataToWrite payload = .ok line ↔ Fits payload ∧ line = dataLine payload := by
  by_cases fits : Fits payload
  · rw [encoder.writes payload fits.1 fits.2, Except.ok.injEq, eq_comm]
    simp [fits]
  · rcases encoder.refuses payload (by unfold Fits at fits; omega) with ⟨message, refused⟩
    simp [refused, fits]

theorem writeBody_eq_ok_iff (encoder : ExactDataEncoder) (payloads : List Bytes) (body : Bytes) :
    writeBody encoder.toDataEncoder payloads = .ok body ↔
      (∀ payload ∈ payloads, Fits payload) ∧
        body = (payloads.map dataLine).flatten ++ flush := by
  simp only [writeBody, Except.bind_eq_ok_iff, Except.mapM_eq_ok_iff, dataToWrite_eq_ok_iff]
  constructor
  · rintro ⟨lines, written, ⟨⟩⟩
    induction written with
    | nil => simp
    | cons first _ ih =>
      rw [forall_mem_cons, map_cons, first.2]
      refine ⟨⟨first.1, ih.1⟩, ?_⟩
      rw [flatten_cons, append_assoc, ih.2, flatten_cons, append_assoc]
  · rintro ⟨fit, rfl⟩
    refine ⟨payloads.map dataLine, ?_, rfl⟩
    rw [forall₂_map_right_iff, forall₂_same]
    intro payload payloadMem
    exact ⟨fit payload payloadMem, rfl⟩

/-- `String::from_utf8_lossy`, which gives back every text that was one. -/
structure LossyDecoder where
  fromUtf8Lossy : Bytes → String
  reads_text : ∀ text, fromUtf8Lossy (utf8 text) = text

theorem fromUTF8?_utf8 (text : String) :
    String.fromUTF8? ⟨(utf8 text).toArray⟩ = some text := by
  have valid : (⟨(utf8 text).toArray⟩ : ByteArray) = text.toByteArray := rfl
  rw [valid, String.fromUTF8?, dif_pos text.isValidUTF8]
  rfl

def referenceLossyDecoder : LossyDecoder where
  fromUtf8Lossy bytes := (String.fromUTF8? ⟨bytes.toArray⟩).getD "\uFFFD"
  reads_text text := by rw [fromUTF8?_utf8, Option.getD_some]

theorem utf8_injective {left right : String} (same : utf8 left = utf8 right) : left = right := by
  have texts := congrArg referenceLossyDecoder.fromUtf8Lossy same
  rwa [referenceLossyDecoder.reads_text, referenceLossyDecoder.reads_text] at texts

section Read

variable (decoder : PrefixDecoder)

def next (rest : Bytes) : Option (Except String Packet × Bytes) :=
  if rest = [] then none
  else if rest.length < 4 then some (.error "truncated pkt-line", [])
  else
    let tail := rest.drop 4
    match decoder.hexPrefix (rest.take 4) with
    | .ok (.line (.data _)) => some (.ok .responseEnd, tail)
    | .ok (.line packet) => some (.ok packet, tail)
    | .ok (.wanted size) =>
      if tail.length < size then some (.error "truncated pkt-line data", [])
      else some (.ok (.data (tail.take size)), tail.drop size)
    | .error error => some (.error s!"invalid pkt-line: {error}", [])

def packetsWithin : ℕ → Bytes → List (Except String Packet)
  | 0, _ => []
  | fuel + 1, rest =>
    match next decoder rest with
    | none => []
    | some (packet, rest) => packet :: packetsWithin fuel rest

def packets (body : Bytes) : List (Except String Packet) :=
  packetsWithin decoder body.length body

theorem next_shorter {rest left : Bytes} {packet : Except String Packet}
    (read : next decoder rest = some (packet, left)) : left.length < rest.length := by
  unfold next at read
  split_ifs at read with empty short
  · cases read
    exact length_pos_iff.mpr empty
  · have positive : 0 < rest.length := length_pos_iff.mpr empty
    dsimp only at read
    split at read <;> try split_ifs at read
    all_goals
      cases read
      simp only [length_drop, length_nil]
      omega

theorem packetsWithin_eq {fuel : ℕ} {body : Bytes} (enough : body.length ≤ fuel) :
    packetsWithin decoder fuel body = packets decoder body := by
  induction fuel using Nat.strong_induction_on generalizing body with
  | _ fuel ih =>
    cases fuel with
    | zero => rw [packets, Nat.le_zero.mp enough]
    | succ fuel =>
      cases size : body.length with
      | zero =>
        simp [packets, packetsWithin, next, length_eq_zero_iff.mp size]
      | succ below =>
        rw [packets, size, packetsWithin, packetsWithin]
        cases read : next decoder body with
        | none => rfl
        | some found =>
          have shorter := next_shorter decoder read
          simp only
          rw [ih fuel (by omega) (by omega), ih below (by omega) (by omega)]

theorem packets_of_next {body rest : Bytes} {packet : Except String Packet}
    (read : next decoder body = some (packet, rest)) :
    packets decoder body = packet :: packets decoder rest := by
  have shorter := next_shorter decoder read
  rw [← packetsWithin_eq decoder (Nat.le_succ body.length), packetsWithin, read]
  simp only
  rw [packetsWithin_eq decoder shorter.le]

@[simp]
theorem packets_nil : packets decoder [] = [] :=
  rfl

@[simp]
theorem packets_flush (rest : Bytes) :
    packets decoder (flush ++ rest) = .ok .flush :: packets decoder rest := by
  apply packets_of_next
  have reads := decoder.reads_flush
  simp only [flush] at reads
  simp [next, flush, reads]

theorem packets_dataLine {payload : Bytes} (nonempty : 0 < payload.length)
    (short : payload.length ≤ maxWanted) (rest : Bytes) :
    packets decoder (dataLine payload ++ rest) =
      .ok (.data payload) :: packets decoder rest := by
  apply packets_of_next
  have reads := decoder.reads_wanted payload.length nonempty short
  simp only [lengthPrefix] at reads
  simp [next, dataLine, lengthPrefix, reads]

theorem packets_lines {payloads : List Bytes}
    (fit : ∀ payload ∈ payloads, 0 < payload.length ∧ payload.length ≤ maxWanted) :
    packets decoder ((payloads.map dataLine).flatten ++ flush) =
      payloads.map (fun payload => .ok (.data payload)) ++ [.ok .flush] := by
  induction payloads with
  | nil => simpa using packets_flush decoder []
  | cons payload payloads ih =>
    rcases fit payload mem_cons_self with ⟨nonempty, short⟩
    rw [map_cons, flatten_cons, append_assoc,
      packets_dataLine decoder nonempty short,
      ih fun other otherMem => fit other (mem_cons_of_mem _ otherMem)]
    rfl

end Read

def LossyDecoder.text (lossy : LossyDecoder) (line : Bytes) : String :=
  lossy.fromUtf8Lossy (trimLf line)

theorem utf8_append (left right : String) : utf8 (left ++ right) = utf8 left ++ utf8 right := by
  simp [utf8]

theorem length_utf8_replicate (count : ℕ) :
    (utf8 (String.ofList (List.replicate count 'a'))).length = count := by
  induction count with
  | zero => rfl
  | succ count ih =>
    have letter : utf8 (String.ofList ['a']) = [97] := by decide
    rw [replicate_succ, ← singleton_append, String.ofList_append, utf8_append, letter,
      length_append, ih, length_singleton, Nat.add_comm]

theorem LossyDecoder.text_utf8 (lossy : LossyDecoder) (sent : String) :
    lossy.text (utf8 (sent ++ "\n")) = sent := by
  have newline : utf8 "\n" = [10] := by decide
  rw [text, utf8_append, newline, trimLf, if_pos List.getLast?_concat, dropLast_concat,
    lossy.reads_text]

end PktLine

end Enroute
