import Enroute.Proto.PktLine

/-!
# The pack writer

`PackWriter` hashes whatever is written, coalesces it into frames and closes the stream with the
digest of everything hashed. The channel is the list of items sent so far, which is what a receiver
that never hangs up sees, and the running SHA-1 the bytes fed to it.

Every chunk but the last has at most `maxSideband` bytes. The last one appends the digest to
whatever the buffer still holds, so whether it fits one frame depends on the bytes left there;
`residue` computes that count from the lengths of the calls alone.
-/

namespace Enroute

open List PktLine

def maxSideband : ℕ := 65515

/-- The SHA-1 function, of which only the length of its digest is known. -/
structure Sha1 where
  /-- The digest of everything fed to the hasher. -/
  digest : Bytes → Bytes
  /-- A digest has twenty bytes. -/
  length_digest : ∀ bytes, (digest bytes).length = 20

inductive Framing where
  | sideband
  | raw
  deriving DecidableEq, Repr

abbrev SidebandTx := List Bytes

/-- Send one sideband frame, copying the payload into a single contiguous pkt-line. -/
def sendFrameCopy (encoder : BandEncoder) (channel : Channel) (payload : Bytes)
    (tx : SidebandTx) : Except String SidebandTx :=
  match band encoder channel payload with
  | .ok frame => .ok (tx ++ [frame])
  | .error message => .error ("sideband framing: " ++ message)

def sendClose (tx : SidebandTx) : SidebandTx :=
  tx ++ [flush]

def hexNibble (nibble : ℕ) : UInt8 :=
  let digit := UInt8.ofNat (nibble % 16)
  if digit ≤ 9 then 48 + digit else 97 + (digit - 10)

def sideband1Prefix (payloadLen : ℕ) : Bytes :=
  let total := 4 + 1 + payloadLen
  [hexNibble (total >>> 12), hexNibble (total >>> 8), hexNibble (total >>> 4), hexNibble total, 1]

def sendFrameZeroCopy (payload : Bytes) (tx : SidebandTx) : SidebandTx :=
  tx ++ [ sideband1Prefix payload.length] ++ [payload]

structure PackWriter where
  /-- Everything fed to the running SHA-1. -/
  hasher : Bytes
  /-- Bytes written and not yet sent. -/
  buf : Bytes
  /-- The channel. -/
  tx : SidebandTx
  /-- How chunks leave. -/
  framing : Framing

namespace PackWriter

def new (tx : SidebandTx) (framing : Framing) : PackWriter :=
  { hasher := [], buf := [], tx, framing }

def sendChunk (encoder : BandEncoder) (framing : Framing) (payload : Bytes) (tx : SidebandTx) :
    Except String SidebandTx :=
  match framing with
  | .sideband => sendFrameCopy encoder .data payload tx
  | .raw => .ok (tx ++ [payload])

def flushFullFrames (encoder : BandEncoder) (writer : PackWriter) : Except String PackWriter :=
  if maxSideband ≤ writer.buf.length then
    match sendChunk encoder writer.framing (writer.buf.take maxSideband) writer.tx with
    | .ok tx => flushFullFrames encoder { writer with buf := writer.buf.drop maxSideband, tx }
    | .error message => .error message
  else .ok writer
termination_by writer.buf.length
decreasing_by
  simp only [length_drop]
  simp only [maxSideband] at *
  omega

def flush (encoder : BandEncoder) (writer : PackWriter) : Except String PackWriter :=
  if writer.buf.isEmpty then .ok writer
  else do
    let tx ← sendChunk encoder writer.framing writer.buf writer.tx
    return { writer with buf := [], tx }

def write (encoder : BandEncoder) (writer : PackWriter) (data : Bytes) :
    Except String PackWriter :=
  flushFullFrames encoder
    { writer with hasher := writer.hasher ++ data, buf := writer.buf ++ data }

def sendOwnedFrame (framing : Framing) (chunk : Bytes) (tx : SidebandTx) : SidebandTx :=
  match framing with
  | .sideband => sendFrameZeroCopy chunk tx
  | .raw => tx ++ [chunk]

/-- The loop of `writeBytes`: full frames leave the owned payload, and what is shorter than
one frame is returned. -/
def sendOwned (framing : Framing) (data : Bytes) (tx : SidebandTx) : SidebandTx × Bytes :=
  if maxSideband ≤ data.length then
    sendOwned framing (data.drop maxSideband)
      (sendOwnedFrame framing (data.take maxSideband) tx)
  else (tx, data)
termination_by data.length
decreasing_by
  simp only [length_drop]
  simp only [maxSideband] at *
  omega

/-- Hash and send an owned payload, past the buffer when it fills a frame of its own. -/
def writeBytes (encoder : BandEncoder) (writer : PackWriter) (data : Bytes) :
    Except String PackWriter :=
  let hashed := { writer with hasher := writer.hasher ++ data }
  if data.length < maxSideband then
    flushFullFrames encoder { hashed with buf := hashed.buf ++ data }
  else do
    let flushed ← flush encoder hashed
    let (tx, rest) := sendOwned flushed.framing data flushed.tx
    return { flushed with buf := flushed.buf ++ rest, tx }

/-- Append the digest, flush the final chunk and close the stream. The result is everything
that went down the channel. -/
def finish (encoder : BandEncoder) (sha1 : Sha1) (writer : PackWriter) :
    Except String SidebandTx := do
  let tx ← sendChunk encoder writer.framing (writer.buf ++ sha1.digest writer.hasher) writer.tx
  match writer.framing with
  | .sideband => return sendClose tx
  | .raw => return tx

inductive Call where
  | write (data : Bytes)
  | writeBytes (data : Bytes)

def Call.data : Call → Bytes
  | .write data => data
  | .writeBytes data => data

def perform (encoder : BandEncoder) (writer : PackWriter) : Call → Except String PackWriter
  | .write data => writer.write encoder data
  | .writeBytes data => writer.writeBytes encoder data

def deliver (encoder : BandEncoder) (sha1 : Sha1) (framing : Framing) (calls : List Call) :
    Except String SidebandTx := do
  let writer ← calls.foldlM (perform encoder) (new [] framing)
  writer.finish encoder sha1

def written (calls : List Call) : Bytes :=
  (calls.map Call.data).flatten

/-! ## What the channel carries -/

/-- The items sent carry `payloads`: in sideband framing as that many data frames, each within
the bounds of a frame, and raw as their bytes. -/
def Carries : Framing → SidebandTx → List Bytes → Prop
  | .raw, tx, payloads => tx.flatten = payloads.flatten
  | .sideband, tx, payloads =>
    tx.flatten = (payloads.map (bandFrame .data)).flatten ∧
      ∀ payload ∈ payloads, 0 < payload.length ∧ payload.length ≤ maxSideband

theorem carries_nil (framing : Framing) : Carries framing [] [] := by
  cases framing <;> simp [Carries]

theorem hexNibble_eq_hexDigit (nibble : ℕ) : hexNibble nibble = hexDigit (nibble % 16) := by
  have inRange : nibble % 16 < 16 := Nat.mod_lt _ (by decide)
  simp only [hexNibble]
  generalize nibble % 16 = digit at inRange
  interval_cases digit <;> rfl

theorem sideband1Prefix_append (payload : Bytes) :
    sideband1Prefix payload.length ++ payload = bandFrame .data payload := by
  simp only [sideband1Prefix, bandFrame, lengthPrefix, hexNibble_eq_hexDigit, Channel.byte,
    Nat.shiftRight_eq_div_pow, cons_append, nil_append]

variable {chunk bytes hashed : Bytes} {payloads : List Bytes} {tx : SidebandTx}
  {writer : PackWriter}

theorem carries_sendFrameZeroCopy (carried : Carries .sideband tx payloads)
    (nonempty : 0 < chunk.length) (fits : chunk.length ≤ maxSideband) :
    Carries .sideband (sendFrameZeroCopy chunk tx) (payloads ++ [chunk]) := by
  rcases carried with ⟨frames, bounds⟩
  refine ⟨?_, ?_⟩
  · simp [sendFrameZeroCopy, frames, ← sideband1Prefix_append]
  · intro payload payloadMem
    rcases mem_append.mp payloadMem with earlier | last
    · exact bounds payload earlier
    · rw [mem_singleton.mp last]
      exact ⟨nonempty, fits⟩

theorem carries_append_raw (chunk : Bytes) (carried : Carries .raw tx payloads) :
    Carries .raw (tx ++ [chunk]) (payloads ++ [chunk]) := by
  simp only [Carries] at carried ⊢
  simp [carried]

theorem carries_sendOwnedFrame {framing : Framing} (carried : Carries framing tx payloads)
    (nonempty : 0 < chunk.length) (fits : chunk.length ≤ maxSideband) :
    Carries framing (sendOwnedFrame framing chunk tx) (payloads ++ [chunk]) := by
  cases framing with
  | sideband => exact carries_sendFrameZeroCopy carried nonempty fits
  | raw => exact carries_append_raw chunk carried

theorem sendChunk_ok (encoder : BandEncoder) {framing : Framing}
    (carried : Carries framing tx payloads) (nonempty : 0 < chunk.length)
    (fits : chunk.length ≤ maxSideband) :
    ∃ sent, sendChunk encoder framing chunk tx = .ok sent ∧
      Carries framing sent (payloads ++ [chunk]) := by
  cases framing with
  | raw => exact ⟨tx ++ [chunk], rfl, carries_append_raw chunk carried⟩
  | sideband =>
    have framed : band encoder .data chunk = .ok (bandFrame .data chunk) :=
      encoder.writes .data chunk nonempty fits
    refine ⟨tx ++ [bandFrame .data chunk], ?_, ?_⟩
    · simp only [sendChunk, sendFrameCopy, framed]
    · have copied := carries_sendFrameZeroCopy carried nonempty fits
      refine ⟨?_, copied.2⟩
      simp [carried.1]

theorem sendChunk_error (encoder : BandEncoder) (tx : SidebandTx)
    (long : maxSideband < chunk.length) :
    ∃ message, sendChunk encoder .sideband chunk tx = .error message := by
  rcases encoder.refuses .data chunk (Or.inr long) with ⟨message, refused⟩
  refine ⟨"sideband framing: " ++ message, ?_⟩
  simp only [sendChunk, sendFrameCopy, band, refused]

/-! ## The state of a writer between calls -/

/-- The writer has hashed `hashed`, and each of `bytes` is either in a payload already sent or
still in the buffer. Between calls the two are the same. -/
structure Holds (writer : PackWriter) (hashed bytes : Bytes) : Prop where
  hasher_eq : writer.hasher = hashed
  carried : ∃ payloads, Carries writer.framing writer.tx payloads ∧
    payloads.flatten ++ writer.buf = bytes

theorem holds_new (framing : Framing) : Holds (new [] framing) [] [] :=
  { hasher_eq := rfl, carried := ⟨[], carries_nil framing, rfl⟩ }

theorem Holds.sendHead {rest : Bytes} (encoder : BandEncoder) (held : writer.Holds hashed bytes)
    (split : writer.buf = chunk ++ rest) (nonempty : 0 < chunk.length)
    (fits : chunk.length ≤ maxSideband) :
    ∃ tx, sendChunk encoder writer.framing chunk writer.tx = .ok tx ∧
      Holds { writer with buf := rest, tx } hashed bytes := by
  rcases held.carried with ⟨payloads, carried, accounted⟩
  rcases sendChunk_ok encoder carried nonempty fits with ⟨tx, sent, carriedMore⟩
  refine ⟨tx, sent, held.hasher_eq, payloads ++ [chunk], carriedMore, ?_⟩
  rw [← accounted, split]
  simp

theorem Holds.hash (held : writer.Holds hashed bytes) (data : Bytes) :
    Holds { writer with hasher := writer.hasher ++ data } (hashed ++ data) bytes :=
  { hasher_eq := by rw [held.hasher_eq], carried := held.carried }

theorem Holds.append (held : writer.Holds hashed bytes) (data : Bytes) :
    Holds { writer with buf := writer.buf ++ data } hashed (bytes ++ data) := by
  rcases held.carried with ⟨payloads, carried, accounted⟩
  refine ⟨held.hasher_eq, payloads, carried, ?_⟩
  rw [← accounted, append_assoc]

theorem flushFullFrames_ok (encoder : BandEncoder) (held : writer.Holds hashed bytes) :
    ∃ flushed, flushFullFrames encoder writer = .ok flushed ∧ flushed.Holds hashed bytes ∧
      flushed.framing = writer.framing ∧
      flushed.buf.length = writer.buf.length % maxSideband := by
  -- The induction follows the loop: each round takes one frame off the buffer.
  induction writer using flushFullFrames.induct encoder with
  | case1 writer full tx sent ih =>
    have headLength : (writer.buf.take maxSideband).length = maxSideband := by
      rw [length_take]
      omega
    rcases held.sendHead encoder (take_append_drop maxSideband writer.buf).symm
      (by rw [headLength]; decide) headLength.le with ⟨sentTx, sentEq, heldRest⟩
    obtain rfl : tx = sentTx := by
      rw [sent] at sentEq
      exact Except.ok.inj sentEq
    rcases ih heldRest with ⟨flushed, run, heldAfter, sameFraming, leftover⟩
    refine ⟨flushed, ?_, heldAfter, sameFraming, ?_⟩
    · rw [flushFullFrames, if_pos full, sent]
      exact run
    · rw [leftover, length_drop, ← Nat.mod_eq_sub_mod full]
  | case2 writer full message failed =>
    have headLength : (writer.buf.take maxSideband).length = maxSideband := by
      rw [length_take]
      omega
    rcases held.sendHead encoder (take_append_drop maxSideband writer.buf).symm
      (by rw [headLength]; decide) headLength.le with ⟨sentTx, sentEq, -⟩
    rw [failed] at sentEq
    cases sentEq
  | case3 writer notFull =>
    refine ⟨writer, ?_, held, rfl, ?_⟩
    · rw [flushFullFrames, if_neg notFull]
    · rw [Nat.mod_eq_of_lt (by omega)]

theorem flush_ok (encoder : BandEncoder) (held : writer.Holds hashed bytes)
    (short : writer.buf.length < maxSideband) :
    ∃ flushed, flush encoder writer = .ok flushed ∧ flushed.Holds hashed bytes ∧
      flushed.framing = writer.framing ∧ flushed.buf = [] := by
  by_cases empty : writer.buf = []
  · refine ⟨writer, ?_, held, rfl, empty⟩
    simp [flush, empty]
  · have nonempty : 0 < writer.buf.length := length_pos_iff.mpr empty
    rcases held.sendHead encoder (append_nil writer.buf).symm nonempty short.le with
      ⟨tx, sent, heldAfter⟩
    refine ⟨{ writer with buf := [], tx }, ?_, heldAfter, rfl, rfl⟩
    simp only [flush, List.isEmpty_iff, empty, if_false, sent]
    rfl

theorem sendOwned_spec (framing : Framing) (data : Bytes) (tx : SidebandTx)
    (payloads : List Bytes) (carried : Carries framing tx payloads) :
    ∃ more, Carries framing (sendOwned framing data tx).1 (payloads ++ more) ∧
      more.flatten ++ (sendOwned framing data tx).2 = data ∧
      (sendOwned framing data tx).2.length = data.length % maxSideband := by
  induction data, tx using sendOwned.induct framing generalizing payloads with
  | case1 data tx full ih =>
    have headLength : (data.take maxSideband).length = maxSideband := by
      rw [length_take]
      omega
    have carriedHead := carries_sendOwnedFrame carried
      (by rw [headLength]; decide) headLength.le
    rcases ih _ carriedHead with ⟨more, carriedMore, accounted, leftover⟩
    rw [sendOwned, if_pos full]
    refine ⟨data.take maxSideband :: more, ?_, ?_, ?_⟩
    · simpa using carriedMore
    · rw [flatten_cons, append_assoc, accounted, take_append_drop]
    · rw [leftover, length_drop, ← Nat.mod_eq_sub_mod full]
  | case2 data tx notFull =>
    rw [sendOwned, if_neg notFull]
    refine ⟨[], by simpa using carried, rfl, ?_⟩
    rw [Nat.mod_eq_of_lt (by omega)]

/-! ## One call, every call -/

def residueAfter (buffered : ℕ) : Call → ℕ
  | .write data => (buffered + data.length) % maxSideband
  | .writeBytes data =>
    if data.length < maxSideband then (buffered + data.length) % maxSideband
    else data.length % maxSideband

/-- The bytes left in the buffer when a sequence of calls is over, from their lengths alone. -/
def residue (calls : List Call) : ℕ :=
  calls.foldl residueAfter 0

theorem write_ok (encoder : BandEncoder) (data : Bytes) (held : writer.Holds bytes bytes) :
    ∃ after, write encoder writer data = .ok after ∧
      after.Holds (bytes ++ data) (bytes ++ data) ∧ after.framing = writer.framing ∧
      after.buf.length = (writer.buf.length + data.length) % maxSideband := by
  rcases flushFullFrames_ok encoder ((held.hash data).append data) with
    ⟨after, run, heldAfter, sameFraming, leftover⟩
  refine ⟨after, run, heldAfter, sameFraming, ?_⟩
  rw [leftover, length_append]

theorem writeBytes_long_ok (encoder : BandEncoder) {data : Bytes} (held : writer.Holds bytes bytes)
    (short : writer.buf.length < maxSideband) (long : ¬data.length < maxSideband) :
    ∃ after, writeBytes encoder writer data = .ok after ∧
      after.Holds (bytes ++ data) (bytes ++ data) ∧ after.framing = writer.framing ∧
      after.buf.length = data.length % maxSideband := by
  rcases flush_ok encoder (held.hash data) short with
    ⟨flushed, flushRun, heldFlushed, sameFraming, empty⟩
  rcases heldFlushed.carried with ⟨payloads, carried, accounted⟩
  rcases sendOwned_spec flushed.framing data flushed.tx payloads carried with
    ⟨more, carriedMore, accountedMore, leftover⟩
  refine ⟨{ flushed with
      buf := flushed.buf ++ (sendOwned flushed.framing data flushed.tx).2
      tx := (sendOwned flushed.framing data flushed.tx).1 }, ?_, ?_, sameFraming, ?_⟩
  · simp only [writeBytes, if_neg long, flushRun]
    rfl
  · refine ⟨heldFlushed.hasher_eq, payloads ++ more, carriedMore, ?_⟩
    rw [empty, append_nil] at accounted
    rw [empty, nil_append, flatten_append, append_assoc, accountedMore, accounted]
  · rw [empty, nil_append, leftover]

theorem perform_ok (encoder : BandEncoder) (call : Call) (held : writer.Holds bytes bytes)
    (short : writer.buf.length < maxSideband) :
    ∃ after, perform encoder writer call = .ok after ∧
      after.Holds (bytes ++ call.data) (bytes ++ call.data) ∧ after.framing = writer.framing ∧
      after.buf.length = residueAfter writer.buf.length call := by
  cases call with
  | write data => exact write_ok encoder data held
  | writeBytes data =>
    by_cases fits : data.length < maxSideband
    · have coalesced := write_ok encoder data held
      simpa only [perform, writeBytes, write, Call.data, residueAfter, if_pos fits] using coalesced
    · have owned := writeBytes_long_ok encoder held short fits
      simpa only [perform, Call.data, residueAfter, if_neg fits] using owned

theorem residueAfter_lt (buffered : ℕ) (call : Call) :
    residueAfter buffered call < maxSideband := by
  have positive : 0 < maxSideband := by decide
  cases call with
  | write data => exact Nat.mod_lt _ positive
  | writeBytes data =>
    simp only [residueAfter]
    split <;> exact Nat.mod_lt _ positive

theorem foldlM_perform_ok (encoder : BandEncoder) (calls : List Call)
    (held : writer.Holds bytes bytes) (short : writer.buf.length < maxSideband) :
    ∃ after, calls.foldlM (perform encoder) writer = .ok after ∧
      after.Holds (bytes ++ written calls) (bytes ++ written calls) ∧
      after.framing = writer.framing ∧
      after.buf.length = calls.foldl residueAfter writer.buf.length ∧
      after.buf.length < maxSideband := by
  induction calls generalizing writer bytes with
  | nil =>
    refine ⟨writer, rfl, ?_, rfl, rfl, short⟩
    simpa [written] using held
  | cons call calls ih =>
    rcases perform_ok encoder call held short with
      ⟨next, performed, heldNext, framingNext, residueNext⟩
    have shortNext : next.buf.length < maxSideband := by
      rw [residueNext]
      exact residueAfter_lt _ _
    rcases ih heldNext shortNext with ⟨after, run, heldAfter, framingAfter, residueEq, shortAfter⟩
    refine ⟨after, ?_, ?_, framingAfter.trans framingNext, ?_, shortAfter⟩
    · rw [foldlM_cons, performed]
      exact run
    · simpa [written] using heldAfter
    · rw [residueEq, residueNext, foldl_cons]

/-! ## Delivery of the whole pack -/

/-- The calls deliver their pack: no call fails, and what went down the channel is the written
bytes followed by their digest. In sideband framing it went as data frames of one to
`maxSideband` payload bytes each, closed by one flush-pkt. -/
def Delivers (encoder : BandEncoder) (sha1 : Sha1) (framing : Framing) (calls : List Call) :
    Prop :=
  ∃ items, deliver encoder sha1 framing calls = .ok items ∧
    match framing with
    | .raw => items.flatten = written calls ++ sha1.digest (written calls)
    | .sideband =>
      ∃ payloads, items.flatten = dataStream payloads ∧
        (∀ payload ∈ payloads, 0 < payload.length ∧ payload.length ≤ maxSideband) ∧
        payloads.flatten = written calls ++ sha1.digest (written calls)

section

variable (encoder : BandEncoder) (sha1 : Sha1)

include encoder sha1

theorem deliver_eq_finish (framing : Framing) (calls : List Call) :
    ∃ writer : PackWriter, deliver encoder sha1 framing calls = writer.finish encoder sha1 ∧
      writer.Holds (written calls) (written calls) ∧ writer.framing = framing ∧
      writer.buf.length = residue calls := by
  have empty : (new [] framing).buf.length < maxSideband := by
    simp [new, maxSideband]
  rcases foldlM_perform_ok encoder calls (holds_new framing) empty with
    ⟨writer, run, held, sameFraming, leftover, -⟩
  refine ⟨writer, ?_, by simpa using held, sameFraming, leftover⟩
  rw [deliver, run]
  rfl

theorem delivers_raw (calls : List Call) : Delivers encoder sha1 .raw calls := by
  rcases deliver_eq_finish encoder sha1 .raw calls with ⟨writer, delivered, held, isRaw, -⟩
  rcases held.carried with ⟨payloads, carried, accounted⟩
  rw [isRaw] at carried
  refine ⟨writer.tx ++ [writer.buf ++ sha1.digest writer.hasher], ?_, ?_⟩
  · rw [delivered, finish, isRaw]
    rfl
  · simp only [Carries] at carried
    simp only [flatten_append, flatten_singleton]
    rw [carried, ← append_assoc, accounted, held.hasher_eq]

theorem delivers_sideband (calls : List Call) (fits : residue calls + 20 ≤ maxSideband) :
    Delivers encoder sha1 .sideband calls := by
  rcases deliver_eq_finish encoder sha1 .sideband calls with
    ⟨writer, delivered, held, isSideband, leftover⟩
  rcases held.carried with ⟨payloads, carried, accounted⟩
  have lastLength : (writer.buf ++ sha1.digest writer.hasher).length = residue calls + 20 := by
    rw [length_append, leftover, sha1.length_digest]
  rw [isSideband] at carried
  rcases sendChunk_ok encoder carried (by rw [lastLength]; omega) (by rw [lastLength]; exact fits)
    with ⟨tx, sent, frames, bounds⟩
  refine ⟨sendClose tx, ?_, payloads ++ [writer.buf ++ sha1.digest writer.hasher], ?_, bounds, ?_⟩
  · rw [delivered, finish, isSideband, sent]
    rfl
  · rw [sendClose, dataStream, flatten_append, frames, flatten_singleton]
  · rw [flatten_append, flatten_singleton, ← append_assoc, accounted,
      held.hasher_eq]

theorem not_delivers_sideband (calls : List Call) (overflows : maxSideband < residue calls + 20) :
    ¬Delivers encoder sha1 .sideband calls := by
  rintro ⟨items, finished, -⟩
  rcases deliver_eq_finish encoder sha1 .sideband calls with
    ⟨writer, delivered, -, isSideband, leftover⟩
  have long : maxSideband < (writer.buf ++ sha1.digest writer.hasher).length := by
    rw [length_append, leftover, sha1.length_digest]
    exact overflows
  rcases sendChunk_error encoder writer.tx long with ⟨message, refused⟩
  rw [delivered, finish, isSideband, refused] at finished
  cases finished

end

/-- The pack writer delivers a pack exactly when it is raw or the bytes its calls leave in the
buffer leave room for the digest in the last frame. -/
theorem delivers_iff_digest_fits (encoder : BandEncoder) (sha1 : Sha1) (framing : Framing)
    (calls : List Call) :
    Delivers encoder sha1 framing calls ↔
      framing = .raw ∨ residue calls + 20 ≤ maxSideband := by
  constructor
  · intro delivers
    cases framing with
    | raw => exact Or.inl rfl
    | sideband =>
      right
      by_contra overflows
      exact not_delivers_sideband encoder sha1 calls (by omega) delivers
  · rintro (rfl | fits)
    · exact delivers_raw encoder sha1 calls
    · cases framing with
      | raw => exact delivers_raw encoder sha1 calls
      | sideband => exact delivers_sideband encoder sha1 calls fits

def zeroSha1 : Sha1 where
  digest _ := List.replicate 20 0
  length_digest _ := length_replicate

/-- One write of 65514 bytes: they stay in the buffer, and with the digest the last chunk has
65534 bytes, which no frame carries. -/
theorem not_delivers_one_byte_short_of_a_frame :
    ¬Delivers referenceEncoder zeroSha1 .sideband [.write (List.replicate 65514 0)] := by
  apply not_delivers_sideband
  have leftover : residue [.write (List.replicate 65514 0)] = 65514 := by
    simp only [residue, foldl_cons, foldl_nil, residueAfter, length_replicate]
    rfl
  rw [leftover]
  decide

end PackWriter

end Enroute
