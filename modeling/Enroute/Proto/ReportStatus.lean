import Enroute.Ingest.RefUpdates
import Enroute.Lib.Lists
import Enroute.Proto.PackWriter
import Enroute.Proto.Packets

/-!
# Writing a push's report

The report is written after the refs have moved, one line for each outcome. Every text in it is
fixed but for the refname and the reason a hook gave, which is any text at all.
-/

namespace Enroute

open PktLine

def RefUpdateRejection.text : RefUpdateRejection → String
  | .nonFastForward => "non-fast-forward"
  | .unknownCommit => "unknown commit"
  | .alreadyExists => "already exists"
  | .invalidRefname => "invalid refname"

def PushRejection.text : PushRejection → String
  | .missingObjects => "missing-objects"
  | .funnyRefname => "funny refname"
  | .nonCommitObject => "non-commit object"
  | .policy reason => reason
  | .refStore rejection => rejection.text
  | .internal => "internal error: no result for ref update"

def RefUpdateOutcome.line (outcome : RefUpdateOutcome) : String :=
  match outcome.result with
  | .ok _ => "ok " ++ outcome.refname
  | .error rejection => "ng " ++ (outcome.refname ++ " " ++ rejection.text)

def reportPayloads (outcomes : List RefUpdateOutcome) : List Bytes :=
  ("unpack ok" :: outcomes.map RefUpdateOutcome.line).map fun line => utf8 (line ++ "\n")

def buildReportStatus (encoder : DataEncoder) (outcomes : List RefUpdateOutcome) :
    Except String Bytes :=
  writeBody encoder (reportPayloads outcomes)

def sendDataFrames (encoder : BandEncoder) (payload : Bytes) (tx : SidebandTx) :
    Except String SidebandTx :=
  (Lists.chunks maxSideband payload).foldlM
    (fun tx chunk => sendFrameCopy encoder .data chunk tx) tx

theorem foldlM_sendFrameCopy (encoder : BandEncoder) {chunks : List Bytes}
    (fit : ∀ chunk ∈ chunks, 0 < chunk.length ∧ chunk.length ≤ maxSideband) (tx : SidebandTx) :
    chunks.foldlM (fun tx chunk => sendFrameCopy encoder .data chunk tx) tx =
      .ok (tx ++ chunks.map (bandFrame .data)) := by
  induction chunks generalizing tx with
  | nil =>
    rw [List.map_nil, List.append_nil]
    rfl
  | cons chunk chunks ih =>
    rw [List.forall_mem_cons] at fit
    have framed : band encoder .data chunk = .ok (bandFrame .data chunk) :=
      encoder.writes .data chunk fit.1.1 fit.1.2
    rw [List.foldlM_cons, sendFrameCopy, framed, Except.ok_bind, ih fit.2]
    simp

theorem sendDataFrames_eq (encoder : BandEncoder) (payload : Bytes) (tx : SidebandTx) :
    ∃ chunks : List Bytes, chunks.flatten = payload ∧
      sendDataFrames encoder payload tx = .ok (tx ++ chunks.map (bandFrame .data)) := by
  have positive : 0 < maxSideband := by decide
  refine ⟨Lists.chunks maxSideband payload, Lists.flatten_chunks positive payload, ?_⟩
  exact foldlM_sendFrameCopy encoder (fun chunk => Lists.length_chunksWithin positive) tx

end Enroute
