import Enroute.Proto.ReportStatus

/-!
# Reading a push's report

`parse` reads what a remote made of a push. Read from what `buildReportStatus` wrote, it gives back
every outcome, since a refname has no space in it and a reason ends where its line does. What can
fail is the writing: a reason as long as a line leaves no room for the refname before it.
-/

namespace Enroute.Remote

open List PktLine

/-- Everything that stops a push before it has an outcome to report. -/
inductive Error where
  | request (message : String)
  | unsupported (capability : String)
  | protocol (message : String)
  | packRefused (why : String)
  | reportUnread (message : String)
  /-- The endpoint, the credentials, the connection, the pack or the storage. -/
  | other (message : String)
  deriving DecidableEq, Repr

def Error.message : Error → String
  | .request message => message
  | .unsupported capability => s!"the remote does not offer {capability}"
  | .protocol message => message
  | .packRefused why => s!"the remote stored nothing: {why}"
  | .reportUnread message =>
    s!"the push was sent and the remote's answer was not readable: {message}"
  | .other message => message

/-- The remote's answer: why it would not store the pack, and why each ref was refused, or `none`
where it landed. -/
structure Report where
  unpackError : Option String
  refs : RefMap (Option String)

def Report.default : Report := ⟨none, fun _ => none⟩

abbrev Reading := Bool × Report

def Report.set (report : Report) (refname : String) (why : Option String) : Report :=
  { report with refs := Function.update report.refs refname (some why) }

def readStatus (reading : Reading) (line : String) : Reading :=
  match stripLead "unpack " line with
  | some status =>
    (true, if status = "ok" then reading.2 else { reading.2 with unpackError := some status })
  | none =>
    match stripLead "ok " line with
    | some refname => (reading.1, reading.2.set refname none)
    | none =>
      match stripLead "ng " line with
      | some rest =>
        let named := (splitOnce ' ' rest).getD (rest, "refused")
        (reading.1, reading.2.set named.1 (some named.2))
      | none => reading

def readPacket (lossy : LossyDecoder) (reading : Reading) :
    Except String Packet → Except Error Reading
  | .error malformed => .error (.protocol malformed)
  | .ok (.data line) => .ok (readStatus reading (lossy.text line))
  | .ok _ => .ok reading

def parse (decoder : PrefixDecoder) (lossy : LossyDecoder) (body : Bytes) :
    Except Error Report := do
  let reading ← (packets decoder body).foldlM (readPacket lossy) (false, .default)
  if reading.1 then .ok reading.2
  else .error (.protocol "the remote sent no report-status; what landed is unknown")

/-! ## Reading back what was written -/

def answerOf (outcome : RefUpdateOutcome) : Option String :=
  match outcome.result with
  | .ok _ => none
  | .error rejection => some rejection.text

theorem readStatus_line {outcome : RefUpdateOutcome} (spaceFree : ' ' ∉ outcome.refname.toList)
    (reading : Reading) :
    readStatus reading outcome.line =
      (reading.1, reading.2.set outcome.refname (answerOf outcome)) := by
  rcases outcome with ⟨refname, result⟩
  cases result with
  | ok _ =>
    have notUnpack : stripLead "unpack " ("ok " ++ refname) = none := by
      simp [stripLead, List.isPrefixOf]
    simp only [readStatus, RefUpdateOutcome.line, notUnpack, stripLead_append, answerOf]
  | error rejection =>
    have notUnpack : ∀ rest, stripLead "unpack " ("ng " ++ rest) = none := by
      simp [stripLead, List.isPrefixOf]
    have notOk : ∀ rest, stripLead "ok " ("ng " ++ rest) = none := by
      simp [stripLead, List.isPrefixOf]
    have splits : splitOnce ' ' (refname ++ " " ++ rejection.text) =
        some (refname, rejection.text) :=
      splitOnce_append spaceFree rejection.text
    simp only [readStatus, RefUpdateOutcome.line, notUnpack, notOk, stripLead_append, answerOf,
      splits, Option.getD_some]

variable {outcomes : List RefUpdateOutcome}

theorem foldl_readStatus (distinct : (outcomes.map RefUpdateOutcome.refname).Nodup)
    (spaceFree : ∀ outcome ∈ outcomes, ' ' ∉ outcome.refname.toList) (reading : Reading) :
    let read := (outcomes.map RefUpdateOutcome.line).foldl readStatus reading
    read.1 = reading.1 ∧ read.2.unpackError = reading.2.unpackError ∧
      (∀ outcome ∈ outcomes, read.2.refs outcome.refname = some (answerOf outcome)) ∧
      ∀ refname ∉ outcomes.map RefUpdateOutcome.refname,
        read.2.refs refname = reading.2.refs refname := by
  induction outcomes generalizing reading with
  | nil => exact ⟨rfl, rfl, fun _ listed => (nomatch listed), fun _ _ => rfl⟩
  | cons head outcomes ih =>
    rw [map_cons, nodup_cons] at distinct
    rw [forall_mem_cons] at spaceFree
    rw [map_cons, foldl_cons, readStatus_line spaceFree.1]
    rcases ih distinct.2 spaceFree.2 (reading.1, reading.2.set head.refname (answerOf head)) with
      ⟨seen, unpack, named, others⟩
    refine ⟨seen, unpack, ?_, ?_⟩
    · rw [forall_mem_cons]
      refine ⟨?_, named⟩
      rw [others head.refname distinct.1]
      exact Function.update_self ..
    · intro refname absent
      rw [map_cons, mem_cons, not_or] at absent
      rw [others refname absent.2]
      exact Function.update_of_ne absent.1 ..

theorem foldlM_readPacket (lossy : LossyDecoder) (lines : List String) (reading : Reading) :
    List.foldlM (readPacket lossy) reading
        ((lines.map fun line => utf8 (line ++ "\n")).map (fun payload => .ok (.data payload)) ++
          [.ok .flush]) =
      .ok (lines.foldl readStatus reading) := by
  induction lines generalizing reading with
  | nil => rfl
  | cons line lines ih =>
    rw [map_cons, map_cons, cons_append, foldlM_cons, readPacket,
      lossy.text_utf8, Except.ok_bind, ih, foldl_cons]

theorem parse_reportPayloads (decoder : PrefixDecoder) (lossy : LossyDecoder)
    (distinct : (outcomes.map RefUpdateOutcome.refname).Nodup)
    (spaceFree : ∀ outcome ∈ outcomes, ' ' ∉ outcome.refname.toList)
    (fit : ∀ payload ∈ reportPayloads outcomes, Fits payload) :
    ∃ report, parse decoder lossy
        (((reportPayloads outcomes).map dataLine).flatten ++ flush) = .ok report ∧
      report.unpackError = none ∧
      ∀ outcome ∈ outcomes, report.refs outcome.refname = some (answerOf outcome) := by
  have readable : ∀ payload ∈ reportPayloads outcomes,
      0 < payload.length ∧ payload.length ≤ maxWanted := by
    intro payload payloadMem
    have fits := fit payload payloadMem
    exact ⟨fits.1, fits.2.trans (by decide)⟩
  have opens : stripLead "unpack " "unpack ok" = some "ok" := by decide
  have opened : readStatus (false, .default) "unpack ok" = (true, .default) := by
    simp only [readStatus, opens, if_true]
  rcases foldl_readStatus distinct spaceFree (true, .default) with ⟨seen, unpack, named, -⟩
  refine ⟨_, ?_, unpack, named⟩
  rw [parse, packets_lines decoder readable, reportPayloads, foldlM_readPacket, Except.ok_bind,
    foldl_cons, opened, seen]
  rfl

/-! ## The report of a push -/

def maxCommandRefname : ℕ := maxWanted - 82

/-- An outcome as a push brings it: a refname without a space that fitted a ref command. -/
structure Commanded (outcome : RefUpdateOutcome) : Prop where
  spaceFree : ' ' ∉ outcome.refname.toList
  fits : (utf8 outcome.refname).length ≤ maxCommandRefname

/-- The report is written, read back as every outcome is, and sent whole over a sideband. -/
def Reported (encoder : DataEncoder) (bands : BandEncoder) (decoder : PrefixDecoder)
    (lossy : LossyDecoder) (outcomes : List RefUpdateOutcome) : Prop :=
  ∃ body report, buildReportStatus encoder outcomes = .ok body ∧
    parse decoder lossy body = .ok report ∧ report.unpackError = none ∧
    (∀ outcome ∈ outcomes, report.refs outcome.refname = some (answerOf outcome)) ∧
    ∀ tx, ∃ chunks : List Bytes, chunks.flatten = body ∧
      sendDataFrames bands body tx = .ok (tx ++ chunks.map (bandFrame .data))

/-- The reason leaves room for the refname: `ng`, two spaces and a newline are five bytes. -/
def Reportable (outcome : RefUpdateOutcome) : Prop :=
  ∀ reason, outcome.result = .error (.policy reason) →
    5 + (utf8 outcome.refname).length + (utf8 reason).length ≤ maxDataPayload

theorem length_text_le {rejection : PushRejection} (fixed : ∀ reason, rejection ≠ .policy reason) :
    (utf8 rejection.text).length ≤ 40 := by
  cases rejection with
  | policy reason => exact absurd rfl (fixed reason)
  | refStore rejection => cases rejection <;> decide
  | missingObjects => decide
  | funnyRefname => decide
  | nonCommitObject => decide
  | internal => decide

theorem length_ng (refname why : String) :
    (utf8 ("ng " ++ (refname ++ " " ++ why) ++ "\n")).length =
      5 + (utf8 refname).length + (utf8 why).length := by
  have lead : (utf8 "ng ").length = 3 := by decide
  have space : (utf8 " ").length = 1 := by decide
  have newline : (utf8 "\n").length = 1 := by decide
  simp only [utf8_append, length_append, lead, space, newline]
  omega

theorem fits_line_iff {outcome : RefUpdateOutcome} (commanded : Commanded outcome) :
    Fits (utf8 (outcome.line ++ "\n")) ↔ Reportable outcome := by
  have bound := commanded.fits
  rcases outcome with ⟨refname, result⟩
  simp only [maxCommandRefname, maxWanted] at bound
  cases result with
  | ok _ =>
    have lead : (utf8 "ok ").length = 3 := by decide
    have newline : (utf8 "\n").length = 1 := by decide
    simp only [Fits, Reportable, RefUpdateOutcome.line, utf8_append, length_append, lead,
      newline, maxDataPayload, reduceCtorEq, false_implies, implies_true, iff_true]
    omega
  | error rejection =>
    simp only [Fits, Reportable, RefUpdateOutcome.line, length_ng, Except.error.injEq]
    by_cases fixed : ∀ reason, rejection ≠ .policy reason
    · have short := length_text_le fixed
      have fits : 5 + (utf8 refname).length + (utf8 rejection.text).length ≤ maxDataPayload := by
        unfold maxDataPayload
        omega
      exact iff_of_true ⟨by omega, fits⟩ fun reason isPolicy => absurd isPolicy (fixed reason)
    · push Not at fixed
      rcases fixed with ⟨reason, rfl⟩
      simp only [PushRejection.text, PushRejection.policy.injEq, forall_eq',
        and_iff_right_iff_imp]
      omega

theorem forall_fits_iff (commanded : ∀ outcome ∈ outcomes, Commanded outcome) :
    (∀ payload ∈ reportPayloads outcomes, Fits payload) ↔
      ∀ outcome ∈ outcomes, Reportable outcome := by
  have opening : Fits (utf8 ("unpack ok" ++ "\n")) := by
    unfold Fits
    decide
  rw [reportPayloads, map_cons, forall_mem_cons, map_map, forall_mem_map,
    and_iff_right opening]
  exact forall₂_congr fun outcome outcomeMem => fits_line_iff (commanded outcome outcomeMem)

theorem fits_of_reported {encoder : ExactDataEncoder} {bands : BandEncoder}
    {decoder : PrefixDecoder} {lossy : LossyDecoder}
    (reported : Reported encoder.toDataEncoder bands decoder lossy outcomes) :
    ∀ payload ∈ reportPayloads outcomes, Fits payload := by
  rcases reported with ⟨body, report, written, -⟩
  exact ((writeBody_eq_ok_iff encoder _ body).mp written).1

/-- A push whose refs have moved gets its report exactly when every reason leaves room for the
refname it is about. -/
theorem reported_iff (encoder : ExactDataEncoder) (bands : BandEncoder) (decoder : PrefixDecoder)
    (lossy : LossyDecoder) (outcomes : List RefUpdateOutcome)
    (distinct : (outcomes.map RefUpdateOutcome.refname).Nodup)
    (commanded : ∀ outcome ∈ outcomes, Commanded outcome) :
    Reported encoder.toDataEncoder bands decoder lossy outcomes ↔
      ∀ outcome ∈ outcomes, Reportable outcome := by
  rw [← forall_fits_iff commanded]
  refine ⟨fits_of_reported, fun fit => ?_⟩
  rcases parse_reportPayloads decoder lossy distinct
    (fun outcome outcomeMem => (commanded outcome outcomeMem).spaceFree) fit with
    ⟨report, read, unpacked, named⟩
  refine ⟨_, report, (writeBody_eq_ok_iff encoder _ _).mpr ⟨fit, rfl⟩, read, unpacked, named, ?_⟩
  exact fun tx => sendDataFrames_eq bands _ tx

theorem reported_iff_landed_refused :
    Reported exactReferenceEncoder.toDataEncoder referenceEncoder referencePrefixDecoder
        referenceLossyDecoder
        [⟨"refs/heads/main", .ok ()⟩, ⟨"refs/heads/wip", .error (.policy "frozen\n")⟩] := by
  refine (reported_iff exactReferenceEncoder referenceEncoder referencePrefixDecoder
    referenceLossyDecoder _ (by decide) ?_).mpr ?_
  · simp only [forall_mem_cons, not_mem_nil, false_implies, implies_true, and_true]
    exact ⟨⟨by decide, by decide⟩, ⟨by decide, by decide⟩⟩
  · simp only [forall_mem_cons, not_mem_nil, false_implies, implies_true, and_true,
      Reportable, reduceCtorEq, Except.error.injEq, PushRejection.policy.injEq, forall_eq',
      true_and]
    decide

/-- A hook that gives a reason as long as a line leaves its push without a report. -/
theorem unreported_longReason :
    ¬Reported exactReferenceEncoder.toDataEncoder referenceEncoder referencePrefixDecoder
        referenceLossyDecoder
        [⟨"refs/heads/main", .ok ()⟩,
          ⟨"refs/heads/wip", .error (.policy (String.ofList (List.replicate 65536 'a')))⟩] := by
  intro reported
  have fits := fits_of_reported reported _ (mem_cons_of_mem _ (mem_cons_of_mem _
    mem_cons_self))
  simp only [Fits, RefUpdateOutcome.line, length_ng, PushRejection.text, length_utf8_replicate,
    maxDataPayload] at fits
  omega

end Enroute.Remote
