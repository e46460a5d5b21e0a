import Enroute.IngestLambda.Wire
import Enroute.Lib.Lists

/-!
# Reading the worker's answer

The answer arrives in chunks cut anywhere. What comes before eight zero bytes belongs to the
invocation; behind them is one frame a line. The bytes are kept in one buffer that is searched again
with every chunk, first for the delimiter and then for the ends of lines. What is heard depends on
the bytes alone: the buffer always holds what the bytes so far leave unread.
-/

namespace Enroute

open List Lists

def preludeEnd : Bytes := List.replicate 8 0

def preludeMax : ℕ := 16 * 1024

def newline : UInt8 := 10

def isAsciiWhitespace (byte : UInt8) : Bool :=
  byte = 32 || byte = 9 || byte = 10 || byte = 12 || byte = 13

structure Told where
  reports : List IngestProgress
  meter : Units

namespace Told

def report (told : Told) (stage : Wire.Progress) : Told :=
  { told with reports := told.reports ++ stage.toGit.toList }

def charge (told : Told) (cost : Option Wire.Cost) : Told :=
  match cost with
  | some cost => { told with meter := told.meter.add (costFromWire cost) }
  | none => told

end Told

inductive StreamEvent where
  | payloadChunk (payload : Option Bytes)
  | invokeComplete (errorCode errorDetails : Option String)
  | other

structure FrameStream where
  pending : Bytes
  pastPrelude : Bool

def FrameStream.default : FrameStream := ⟨[], false⟩

def preludeAt (bytes : Bytes) : Option ℕ :=
  (List.range (bytes.length + 1 - preludeEnd.length)).find? fun at_ =>
    (bytes.drop at_).take preludeEnd.length == preludeEnd

section Frames

variable (parseJson : Bytes → Option Wire.Frame)

def parseFrame (line : Bytes) : Option Wire.Frame :=
  if line.all isAsciiWhitespace then none else parseJson line

def hearFrame (told : Told) (line : Bytes) : Told × Except String (Option Ingested) :=
  match parseFrame parseJson line with
  | some (.progress stage) => (told.report stage, .ok none)
  | some (.done ingested cost) => (told.charge cost, .ok (some (ingestedFromWire ingested)))
  | some (.failed message cost) => (told.charge cost, .error s!"ingest failed: {message}")
  | some .unknown => (told, .ok none)
  | none => (told, .ok none)

/-- Take every whole line out of what is pending, up to the first that brings an outcome. -/
def drainFrames (told : Told) (pending : Bytes) :
    Bytes × Told × Except String (Option Ingested) :=
  match _found : pending.findIdx? (· == newline) with
  | none => (pending, told, .ok none)
  | some at_ =>
    match hearFrame parseJson told (pending.take at_) with
    | (told, .ok none) => drainFrames told (pending.drop (at_ + 1))
    | answered => (pending.drop (at_ + 1), answered)
termination_by pending.length
decreasing_by
  have inside := (List.findIdx?_eq_some_iff_getElem.mp _found).1
  rw [length_drop]
  omega

namespace FrameStream

def skipPrelude (frames : FrameStream) : Except String (FrameStream × Bool) :=
  if frames.pastPrelude then .ok (frames, true)
  else
    match preludeAt frames.pending with
    | some at_ => .ok (⟨frames.pending.drop (at_ + preludeEnd.length), true⟩, true)
    | none =>
      if preludeMax < frames.pending.length then
        .error s!"no metadata prelude delimiter in the worker's first {preludeMax} bytes"
      else .ok (frames, false)

def drain (frames : FrameStream) (told : Told) :
    FrameStream × Told × Except String (Option Ingested) :=
  match frames.skipPrelude with
  | .error message => (frames, told, .error message)
  | .ok (frames, false) => (frames, told, .ok none)
  | .ok (frames, true) =>
    let drained := drainFrames parseJson told frames.pending
    (⟨drained.1, true⟩, drained.2)

end FrameStream

def absorb (frames : FrameStream) (told : Told) :
    StreamEvent → FrameStream × Told × Except String (Option Ingested)
  | .payloadChunk none => (frames, told, .ok none)
  | .payloadChunk (some payload) =>
    FrameStream.drain parseJson { frames with pending := frames.pending ++ payload } told
  | .invokeComplete (some code) errorDetails =>
    let details := errorDetails.getD ""
    (frames, told, .error s!"ingest worker failed: {code}: {details}")
  | .invokeComplete none _ => (frames, told, .ok none)
  | .other => (frames, told, .ok none)

def absorbAll : FrameStream → Told → List StreamEvent → Told × Except String (Option Ingested)
  | _, told, [] => (told, .ok none)
  | frames, told, event :: events =>
    match absorb parseJson frames told event with
    | (frames, told, .ok none) => absorbAll frames told events
    | (_, answered) => answered

/-- Read the worker's frames; a stream that ends without an outcome is an error. -/
def collect (told : Told) (events : List StreamEvent) : Told × Except String Ingested :=
  match absorbAll parseJson .default told events with
  | (told, .ok (some ingested)) => (told, .ok ingested)
  | (told, .ok none) =>
    (told, .error "ingest worker closed its stream without reporting an outcome")
  | (told, .error message) => (told, .error message)

end Frames

/-! ## What the bytes bring -/

namespace Wire.Frame

def ends : Wire.Frame → Bool
  | .done _ _ => true
  | .failed _ _ => true
  | _ => false

def stage : Wire.Frame → Option IngestProgress
  | .progress stage => stage.toGit
  | _ => none

end Wire.Frame

/-- What frames tell and charge: the stages up to the first outcome, and that outcome. -/
def answerOf (told : Told) (frames : List Wire.Frame) : Told × Except String (Option Ingested) :=
  let told := { told with
    reports := told.reports ++ (frames.takeWhile fun frame => !frame.ends).filterMap
      Wire.Frame.stage }
  match frames.find? Wire.Frame.ends with
  | some (.done ingested cost) => (told.charge cost, .ok (some (ingestedFromWire ingested)))
  | some (.failed message cost) => (told.charge cost, .error s!"ingest failed: {message}")
  | _ => (told, .ok none)

theorem answerOf_cons (told : Told) {frame : Wire.Frame} (frames : List Wire.Frame)
    (goesOn : frame.ends = false) : answerOf told (frame :: frames) =
      answerOf { told with reports := told.reports ++ frame.stage.toList } frames := by
  simp only [answerOf, takeWhile_cons, List.find?_cons, goesOn, Bool.not_false, if_true,
    filterMap_cons]
  cases frame.stage <;> simp

variable {parseJson : Bytes → Option Wire.Frame}

variable (parseJson) in
def hearAll : Told → List Bytes → Told × Except String (Option Ingested)
  | told, [] => (told, .ok none)
  | told, line :: lines =>
    match hearFrame parseJson told line with
    | (told, .ok none) => hearAll told lines
    | answered => answered

theorem hearAll_eq (told : Told) (lines : List Bytes) :
    hearAll parseJson told lines = answerOf told (lines.filterMap (parseFrame parseJson)) := by
  induction lines generalizing told with
  | nil => simp [hearAll, answerOf]
  | cons line lines ih =>
    rw [hearAll, hearFrame]
    rcases isFrame : parseFrame parseJson line with _ | ⟨stage⟩ | ⟨ingested, cost⟩ |
      ⟨message, cost⟩ | _
    · rw [filterMap_cons_none isFrame]
      exact ih told
    · rw [filterMap_cons_some isFrame, answerOf_cons _ _ rfl]
      exact ih (told.report stage)
    · rw [filterMap_cons_some isFrame]
      simp [answerOf, Wire.Frame.ends, List.find?_cons]
    · rw [filterMap_cons_some isFrame]
      simp [answerOf, Wire.Frame.ends, List.find?_cons]
    · rw [filterMap_cons_some isFrame, answerOf_cons _ _ rfl]
      simpa [Wire.Frame.stage] using ih told

theorem hearAll_append (told : Told) (lines more : List Bytes) :
    hearAll parseJson told (lines ++ more) =
      match hearAll parseJson told lines with
      | (told, .ok none) => hearAll parseJson told more
      | answered => answered := by
  induction lines generalizing told with
  | nil => rfl
  | cons line lines ih =>
    rw [cons_append, hearAll, hearAll]
    rcases hearFrame parseJson told line with ⟨told, _ | _ | _⟩
    · rfl
    · exact ih told
    · rfl

variable (parseJson) in
theorem drainFrames_spec (told : Told) (pending : Bytes) :
    ∃ rest, drainFrames parseJson told pending =
        (rest, hearAll parseJson told (finished newline [] pending)) ∧
      ((hearAll parseJson told (finished newline [] pending)).2 = .ok none →
        rest = unfinished newline [] pending) := by
  fun_induction drainFrames parseJson told pending with
  | case1 told pending found =>
    have open_ : newline ∉ pending := by
      intro listed
      have := List.findIdx?_eq_none_iff.mp found newline listed
      simp at this
    rcases finished_of_notMem [] open_ with ⟨noneEnds, rest⟩
    exact ⟨pending, by rw [noneEnds, hearAll], fun _ => rest.symm⟩
  | case2 told pending at_ found heard isHeard ih =>
    rcases finished_of_findIdx? found with ⟨lines, rest⟩
    rw [lines, rest, hearAll, isHeard]
    exact ih
  | case3 told pending at_ found answered =>
    rcases finished_of_findIdx? found with ⟨lines, -⟩
    refine ⟨pending.drop (at_ + 1), ?_, fun goesOn => ?_⟩
    · rw [lines, hearAll]
      split
      · exact absurd ‹_› (answered _)
      · rfl
    · rw [lines, hearAll] at goesOn
      split at goesOn
      · exact absurd ‹_› (answered _)
      · exact (answered _ (Prod.ext rfl goesOn)).elim

/-! ## Chunks -/

theorem hear_onward {told : Told} {bytes rest more : Bytes} {events : List StreamEvent}
    (isRest : (hearAll parseJson told (finished newline [] bytes)).2 = .ok none →
      rest = unfinished newline [] bytes)
    (later : ∀ told, newline ∉ rest → absorbAll parseJson ⟨rest, true⟩ told events =
      hearAll parseJson told (finished newline [] (rest ++ more))) :
    (match (⟨rest, true⟩, hearAll parseJson told (finished newline [] bytes)) with
      | (frames, told, .ok none) => absorbAll parseJson frames told events
      | (_, answered) => answered) =
      hearAll parseJson told (finished newline [] (bytes ++ more)) := by
  rw [finished_append, hearAll_append]
  generalize hearAll parseJson told (finished newline [] bytes) = heard at isRest
  rcases heard with ⟨told, _ | _ | _⟩
  · rfl
  · have open_ := notMem_unfinished bytes (not_mem_nil (a := newline))
    rw [← isRest rfl] at open_ ⊢
    refine (later told open_).trans ?_
    rcases finished_of_notMem [] open_ with ⟨noneEnds, same⟩
    rw [finished_append, noneEnds, same, nil_append, nil_append]
  · rfl

theorem absorbAll_pastPrelude (chunks : List Bytes) (told : Told) {pending : Bytes}
    (open_ : newline ∉ pending) :
    absorbAll parseJson ⟨pending, true⟩ told (chunks.map fun chunk => .payloadChunk (some chunk)) =
      hearAll parseJson told (finished newline [] (pending ++ chunks.flatten)) := by
  induction chunks generalizing told pending with
  | nil =>
    rw [flatten_nil, append_nil, (finished_of_notMem [] open_).1]
    rfl
  | cons chunk chunks ih =>
    rcases drainFrames_spec parseJson told (pending ++ chunk) with ⟨rest, isDrained, isRest⟩
    have absorbed : absorb parseJson ⟨pending, true⟩ told (.payloadChunk (some chunk)) =
        (⟨rest, true⟩, hearAll parseJson told (finished newline [] (pending ++ chunk))) := by
      simp only [absorb, FrameStream.drain, FrameStream.skipPrelude, if_true, isDrained]
    rw [map_cons, absorbAll, absorbed, flatten_cons, ← append_assoc]
    exact hear_onward isRest fun told => ih told

theorem preludeAt_eq_some_iff {bytes : Bytes} {at_ : ℕ} :
    preludeAt bytes = some at_ ↔ at_ + preludeEnd.length ≤ bytes.length ∧
      (bytes.drop at_).take preludeEnd.length = preludeEnd ∧
      ∀ earlier < at_, (bytes.drop earlier).take preludeEnd.length ≠ preludeEnd := by
  rw [preludeAt, List.find?_range_eq_some]
  simp only [beq_iff_eq, mem_range, Bool.not_eq_true', beq_eq_false_iff_ne, preludeEnd,
    length_replicate]
  constructor
  · rintro ⟨isEnd, inside, before⟩
    exact ⟨by omega, isEnd, before⟩
  · rintro ⟨inside, isEnd, before⟩
    exact ⟨isEnd, by omega, before⟩

theorem preludeAt_append {seen rest : Bytes} {at_ : ℕ}
    (isAt : preludeAt (seen ++ rest) = some at_) :
    preludeAt seen = if at_ + preludeEnd.length ≤ seen.length then some at_ else none := by
  have same {start : ℕ} (inside : start + preludeEnd.length ≤ seen.length) :
      ((seen ++ rest).drop start).take preludeEnd.length =
        (seen.drop start).take preludeEnd.length := by
    rw [drop_append_of_le_length (by omega),
      take_append_of_le_length (by rw [length_drop]; omega)]
  rcases preludeAt_eq_some_iff.mp isAt with ⟨-, isEnd, before⟩
  split_ifs with inside
  · rw [preludeAt_eq_some_iff]
    refine ⟨inside, same inside ▸ isEnd, fun earlier less => ?_⟩
    rw [← same (by omega)]
    exact before earlier less
  · rw [← Option.not_isSome_iff_eq_none, Option.isSome_iff_exists]
    rintro ⟨start, isStart⟩
    rcases preludeAt_eq_some_iff.mp isStart with ⟨startInside, startEnd, -⟩
    refine before start (by omega) ?_
    rw [same startInside, startEnd]

theorem absorbAll_chunks (chunks : List Bytes) (told : Told) {seen : Bytes} {at_ : ℕ}
    (isAt : preludeAt (seen ++ chunks.flatten) = some at_) (unseen : preludeAt seen = none)
    (within : at_ + preludeEnd.length ≤ preludeMax) :
    absorbAll parseJson ⟨seen, false⟩ told (chunks.map fun chunk => .payloadChunk (some chunk)) =
      hearAll parseJson told
        (finished newline [] ((seen ++ chunks.flatten).drop (at_ + preludeEnd.length))) := by
  induction chunks generalizing seen with
  | nil =>
    rw [flatten_nil, append_nil, unseen] at isAt
    cases isAt
  | cons chunk chunks ih =>
    rw [flatten_cons, ← append_assoc] at isAt ⊢
    have here := preludeAt_append isAt
    rw [map_cons, absorbAll, absorb, FrameStream.drain, FrameStream.skipPrelude]
    by_cases inside : at_ + preludeEnd.length ≤ (seen ++ chunk).length
    · rw [if_pos inside] at here
      rcases drainFrames_spec parseJson told ((seen ++ chunk).drop (at_ + preludeEnd.length)) with
        ⟨rest, isDrained, isRest⟩
      simp only [Bool.false_eq_true, if_false, here, isDrained]
      rw [drop_append_of_le_length inside]
      exact hear_onward isRest fun told => absorbAll_pastPrelude chunks told
    · rw [if_neg inside] at here
      have short : ¬preludeMax < (seen ++ chunk).length := by omega
      simp only [Bool.false_eq_true, if_false, here, short]
      exact ih isAt here

/-- What is heard of an answer depends on its bytes alone. However they are cut into chunks, the
stages reported, what is charged and the result are those of the first outcome among the whole lines
behind the delimiter, and of the lines before it. -/
theorem absorbAll_exact (parseJson : Bytes → Option Wire.Frame) (told : Told) {response : Bytes}
    {at_ : ℕ} (isAt : preludeAt response = some at_)
    (within : at_ + preludeEnd.length ≤ preludeMax) {chunks others : List Bytes}
    (cut : chunks.flatten = response) (otherwise : others.flatten = response) :
    absorbAll parseJson .default told (chunks.map fun chunk => .payloadChunk (some chunk)) =
        absorbAll parseJson .default told (others.map fun chunk => .payloadChunk (some chunk)) ∧
      absorbAll parseJson .default told (chunks.map fun chunk => .payloadChunk (some chunk)) =
        answerOf told ((finished newline [] (response.drop (at_ + preludeEnd.length))).filterMap
          (parseFrame parseJson)) := by
  have each (chunks : List Bytes) (cut : chunks.flatten = response) :
      absorbAll parseJson .default told (chunks.map fun chunk => .payloadChunk (some chunk)) =
        answerOf told ((finished newline [] (response.drop (at_ + preludeEnd.length))).filterMap
          (parseFrame parseJson)) := by
    subst cut
    rw [← hearAll_eq]
    exact @absorbAll_chunks parseJson chunks told [] at_ isAt rfl within
  exact ⟨(each chunks cut).trans (each others otherwise).symm, each chunks cut⟩

/-- A failure, with a cut in the delimiter. -/
theorem absorbAll_exact_cutDelimiter :
    let fails : Bytes → Option Wire.Frame := fun _ => some (.failed "full" none)
    let told : Told := ⟨[], ⟨⟨0, 0, 0, 0, 0⟩, ⟨0, 0, 0, 0, 0⟩, ⟨0, 0⟩⟩⟩
    let response : Bytes := [0, 0, 0, 0, 0, 0, 0, 0, 123, 10]
    preludeAt response = some 0 ∧ 0 + preludeEnd.length ≤ preludeMax ∧
      absorbAll fails .default told [.payloadChunk (some response)] =
        absorbAll fails .default told
          [.payloadChunk (some (response.take 3)), .payloadChunk (some (response.drop 3))] ∧
      absorbAll fails .default told [.payloadChunk (some response)] =
        answerOf told ((finished newline [] (response.drop (0 + preludeEnd.length))).filterMap
          (parseFrame fails)) := by
  intro fails told response
  have isAt : preludeAt response = some 0 := by decide
  have within : 0 + preludeEnd.length ≤ preludeMax := by decide
  have whole : [response].flatten = response := by decide
  have cut : [response.take 3, response.drop 3].flatten = response := by decide
  exact ⟨isAt, within, absorbAll_exact fails told isAt within whole cut⟩

end Enroute
