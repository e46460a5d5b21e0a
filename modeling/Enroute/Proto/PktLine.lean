import Enroute.Core.Object

/-!
# Pkt-line framing

A pkt-line is four lowercase hexadecimal digits giving the length of the whole line, those
four bytes included, followed by the payload. A sideband frame is a pkt-line whose payload
starts with a channel byte. The encoder of such frames belongs to `gix-packetline`, so it is
a parameter here: `BandEncoder` carries it with what its documentation promises about it.
-/

namespace Enroute

namespace PktLine

def flush : Bytes := [48, 48, 48, 48]

inductive Channel where
  | data
  | progress
  | error
  deriving DecidableEq, Repr

def Channel.byte : Channel → UInt8
  | .data => 1
  | .progress => 2
  | .error => 3

def hexDigit (digit : ℕ) : UInt8 :=
  if digit < 10 then UInt8.ofNat (48 + digit) else UInt8.ofNat (97 + (digit - 10))

def lengthPrefix (total : ℕ) : Bytes :=
  [hexDigit (total / 4096 % 16), hexDigit (total / 256 % 16), hexDigit (total / 16 % 16),
    hexDigit (total % 16)]

def bandFrame (channel : Channel) (payload : Bytes) : Bytes :=
  lengthPrefix (4 + 1 + payload.length) ++ channel.byte :: payload

def maxBandPayload : ℕ := 65515

/-- The band encoder of the pkt-line library, with its documented behaviour: it refuses a
payload that is empty or too long for one frame and otherwise writes the frame. -/
structure BandEncoder where
  /-- The frame written for a payload, or the error reported. -/
  bandToWrite : Channel → Bytes → Except String Bytes
  /-- Neither an empty payload nor one longer than a frame is ever written. -/
  refuses : ∀ channel payload, payload.length = 0 ∨ maxBandPayload < payload.length →
    ∃ message, bandToWrite channel payload = .error message
  /-- Every other payload is written as one frame. -/
  writes : ∀ channel payload, 0 < payload.length → payload.length ≤ maxBandPayload →
    bandToWrite channel payload = .ok (bandFrame channel payload)

/-- The encoder that does exactly what the documentation promises and nothing more. -/
def referenceEncoder : BandEncoder where
  bandToWrite channel payload :=
    if payload.length = 0 then .error "empty payload"
    else if maxBandPayload < payload.length then .error "payload too long"
    else .ok (bandFrame channel payload)
  refuses channel payload outside := by
    rcases outside with empty | long
    · exact ⟨_, if_pos empty⟩
    · have nonempty : payload.length ≠ 0 := by omega
      exact ⟨"payload too long", by rw [if_neg nonempty, if_pos long]⟩
  writes channel payload nonempty short := by
    rw [if_neg (by omega), if_neg (by omega)]

def band (encoder : BandEncoder) (channel : Channel) (payload : Bytes) : Except String Bytes :=
  encoder.bandToWrite channel payload

def maxDataPayload : ℕ := 65516

def dataLine (payload : Bytes) : Bytes :=
  lengthPrefix (4 + payload.length) ++ payload

/-- The encoder of plain data lines of the pkt-line library, with its documented behaviour. -/
structure DataEncoder where
  /-- The line written for a payload, or the error reported. -/
  dataToWrite : Bytes → Except String Bytes
  /-- Every payload that is not empty and fits one line is written. -/
  writes : ∀ payload, 0 < payload.length → payload.length ≤ maxDataPayload →
    dataToWrite payload = .ok (dataLine payload)

/-- The encoder that does exactly what the documentation promises and nothing more. -/
def referenceDataEncoder : DataEncoder where
  dataToWrite payload :=
    if payload.length = 0 then .error "empty payload"
    else if maxDataPayload < payload.length then .error "payload too long"
    else .ok (dataLine payload)
  writes payload nonempty short := by
    rw [if_neg (by omega), if_neg (by omega)]

def dataStream (payloads : List Bytes) : Bytes :=
  (payloads.map (bandFrame .data)).flatten ++ flush

end PktLine

end Enroute
