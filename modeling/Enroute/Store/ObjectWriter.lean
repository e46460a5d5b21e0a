import Enroute.Lattice.Key
import Enroute.Proto.PktLine
import Mathlib.Data.Finset.Basic

/-!
# Writing an object

A writer buffers what it is given until a multipart upload is worth its round trips. A write takes
the mode out of the writer and puts it back last, so a write that fails leaves an empty buffer
behind, and with it forgets what was buffered or which upload it had open.
-/

namespace Enroute.ObjectWriting

open List

def multipartChunkBytes : ℕ := 5 * 1024 * 1024

/-- A request to the store, or a read of what is to be written and how much was written before. -/
inductive Request where
  | start
  | wait
  | put
  | complete
  | abort
  | read (written : ℕ)
  deriving DecidableEq, Repr

structure Error where
  message : String
  request : Option Request
  deriving DecidableEq, Repr

def Error.context (context : String) (error : Error) : Error :=
  { error with message := context ++ ": " ++ error.message }

structure Faults where
  put : Bool
  wait : Bool
  complete : Bool
  abort : Bool

def noFaults : Faults := ⟨false, false, false, false⟩

structure Store where
  objects : String → Option Bytes
  uploads : Finset ℕ
  next : ℕ
  fresh : ∀ upload ∈ uploads, upload < next

namespace Store

def putObject (store : Store) (key : String) (bytes : Bytes) : Store :=
  { store with objects := Function.update store.objects key (some bytes) }

def putMultipart (store : Store) : Store :=
  { store with
    uploads := insert store.next store.uploads
    next := store.next + 1
    fresh := by
      intro upload listed
      rcases Finset.mem_insert.mp listed with rfl | earlier
      · exact Nat.lt_succ_self _
      · exact (store.fresh upload earlier).trans (Nat.lt_succ_self _) }

def close (store : Store) (upload : ℕ) : Store :=
  { store with
    uploads := store.uploads.erase upload
    fresh := fun other listed => store.fresh other (Finset.mem_of_mem_erase listed) }

end Store

inductive WriterMode where
  | buffered (segments : List Bytes) (size : ℕ)
  | streaming (upload : ℕ) (bytes : Bytes)

structure ObjectWriter where
  key : String
  mode : WriterMode

namespace ObjectWriter

def new (key : String) : ObjectWriter :=
  ⟨key, .buffered [] 0⟩

def startMultipart (store : Store) (segments : List Bytes) (fails : Bool) :
    Except Error WriterMode × Store :=
  if fails then (.error ⟨"starting multipart upload", some .start⟩, store)
  else (.ok (.streaming store.next segments.flatten), store.putMultipart)

def write (store : Store) (writer : ObjectWriter) (bytes : Bytes) (fails : Bool) :
    Except Error Unit × Store × ObjectWriter :=
  let taken := { writer with mode := .buffered [] 0 }
  match writer.mode with
  | .streaming upload written =>
    if fails then
      (.error ⟨"waiting for multipart upload capacity", some .wait⟩, store, taken)
    else (.ok (), store, { writer with mode := .streaming upload (written ++ bytes) })
  | .buffered segments size =>
    let size := size + bytes.length
    let segments := segments ++ [bytes]
    if size < multipartChunkBytes then
      (.ok (), store, { writer with mode := .buffered segments size })
    else
      match startMultipart store segments fails with
      | (.error error, store) => (.error error, store, taken)
      | (.ok mode, store) => (.ok (), store, { writer with mode })

/-- Complete the upload. A completion that fails is aborted, a part that failed is not. -/
def finish (store : Store) (writer : ObjectWriter) (faults : Faults) : Except Error Unit × Store :=
  match writer.mode with
  | .buffered segments _ =>
    if faults.put then (.error ⟨"putting object", some .put⟩, store)
    else (.ok (), store.putObject writer.key segments.flatten)
  | .streaming upload bytes =>
    if faults.wait then (.error ⟨"finishing multipart upload", some .wait⟩, store)
    else if faults.complete then
      if faults.abort then (.error ⟨"finishing multipart upload", some .abort⟩, store)
      else (.error ⟨"finishing multipart upload", some .complete⟩, store.close upload)
    else (.ok (), (store.close upload).putObject writer.key bytes)

def abort (store : Store) (writer : ObjectWriter) (faults : Faults) : Except Error Unit × Store :=
  match writer.mode with
  | .buffered _ _ => (.ok (), store)
  | .streaming upload _ =>
    if faults.abort then (.error ⟨"aborting multipart upload", some .abort⟩, store)
    else (.ok (), store.close upload)

def writes (store : Store) (writer : ObjectWriter) :
    List (Bytes × Bool) → List (Except Error Unit) × Store × ObjectWriter
  | [] => ([], store, writer)
  | (bytes, fails) :: chunks =>
    let wrote := write store writer bytes fails
    let ran := writes wrote.2.1 wrote.2.2 chunks
    (wrote.1 :: ran.1, ran.2)

def writeAll (store : Store) (writer : ObjectWriter) :
    List (Bytes × Bool) → Except Error Unit × Store × ObjectWriter
  | [] => (.ok (), store, writer)
  | (bytes, fails) :: chunks =>
    match write store writer bytes fails with
    | (.ok (), store, writer) => writeAll store writer chunks
    | failed => failed

end ObjectWriter

open ObjectWriter

/-! ## Those that write -/

/-- How the writing of a segment's images ends where no write of it fails. -/
inductive Ending where
  | written
  | cancelled
  | failed (message : String)

def writeObject (store : Store) (key : String) (chunks : List (Bytes × Bool)) (ending : Ending)
    (faults : Faults) : Except Error Bool × Store :=
  let ran := writeAll store (new key) chunks
  let outcome : Except Error Bool := match ran.1, ending with
    | .error error, _ => .error error
    | .ok (), .written => .ok true
    | .ok (), .cancelled => .ok false
    | .ok (), .failed message => .error ⟨message, none⟩
  match outcome with
  | .ok true =>
    let finished := finish ran.2.1 ran.2.2 faults
    ((finished.1.map fun _ => true).mapError (.context "finish segment upload"), finished.2)
  | incomplete => (incomplete, (abort ran.2.1 ran.2.2 faults).2)

structure Source where
  id : String
  bytes : ℕ
  shift : ℕ

/-- What the store gives for a source: an error, nothing, or chunks that may break off. -/
inductive Slice where
  | failed
  | missing
  | stream (chunks : List (Bytes × Bool)) (breaks : Bool)

def WriterMode.bytes : WriterMode → Bytes
  | .buffered segments _ => segments.flatten
  | .streaming _ bytes => bytes

def abandon (store : Store) (writer : ObjectWriter) (faults : Faults) (message : String) :
    Except Error ℕ × Store :=
  let aborted := abort store writer faults
  (aborted.1.bind fun _ => .error ⟨message, none⟩, aborted.2)

def mismatch (source : Source) (streamed startsAt : ℕ) : String :=
  let id := source.id
  let bytes := source.bytes
  let shift := source.shift
  s!"segment {id} streamed {streamed} bytes at {startsAt}, planned {bytes} at {shift}"

def copyFrom (faults : Faults) (store : Store) (writer : ObjectWriter) (written : ℕ) :
    List (Source × Slice) → Except Error ℕ × Store
  | [] =>
    let finished := finish store writer faults
    (finished.1.map fun _ => written, finished.2)
  | (_, .failed) :: _ =>
    (.error ⟨"streaming segment slice", some (.read writer.mode.bytes.length)⟩, store)
  | (source, .missing) :: _ =>
    abandon store writer faults ("segment " ++ source.id ++ " is missing")
  | (source, .stream chunks breaks) :: sources =>
    match writeAll store writer chunks with
    | (.error error, store, _) => (.error error, store)
    | (.ok (), store, writer) =>
      if breaks then
        (.error ⟨"reading a segment", some (.read writer.mode.bytes.length)⟩, store)
      else
        let startsAt := written
        let written := chunks.foldl (fun sum chunk => saturatingAdd sum chunk.1.length) written
        let streamed := written - startsAt
        if startsAt ≠ source.shift ∨ streamed ≠ source.bytes then
          abandon store writer faults (mismatch source streamed startsAt)
        else copyFrom faults store writer written sources

def copy (store : Store) (into : String) (sources : List (Source × Slice)) (faults : Faults) :
    Except Error ℕ × Store :=
  copyFrom faults store (new into) 0 sources

/-- The parts are what each fill brings, and the last fill brings nothing or fails. -/
def stageFrom (maxPackBytes : ℕ) (breaks : Bool) (faults : Faults) (store : Store)
    (writer : ObjectWriter) (total : ℕ) : List (Bytes × Bool) → Except Error ℕ × Store
  | [] =>
    if breaks then (.error ⟨"reading pack", some (.read writer.mode.bytes.length)⟩, store)
    else
      let finished := finish store writer faults
      ((finished.1.map fun _ => total).mapError (.context "finishing staged pack"), finished.2)
  | (part, fails) :: parts =>
    let total := saturatingAdd total part.length
    if maxPackBytes < total then
      (.error ⟨s!"pack exceeds {maxPackBytes} bytes", none⟩, (abort store writer faults).2)
    else
      match write store writer part fails with
      | (.error error, store, _) => (.error (error.context "staging pack"), store)
      | (.ok (), store, writer) => stageFrom maxPackBytes breaks faults store writer total parts

def stage (store : Store) (key : String) (maxPackBytes : ℕ) (parts : List (Bytes × Bool))
    (breaks : Bool) (faults : Faults) : Except Error ℕ × Store :=
  stageFrom maxPackBytes breaks faults store (new key) 0 parts

/-! ## What is kept -/

def WriterMode.held : WriterMode → Finset ℕ
  | .buffered _ _ => ∅
  | .streaming upload _ => {upload}

def orphans (store : Store) (writer : ObjectWriter) : Finset ℕ :=
  store.uploads \ writer.mode.held

/-- The writer's upload is open, and it streams exactly from a whole part on. -/
structure Sound (store : Store) (writer : ObjectWriter) : Prop where
  held : writer.mode.held ⊆ store.uploads
  buffers : ∀ segments size, writer.mode = .buffered segments size →
    size = segments.flatten.length ∧ size < multipartChunkBytes
  streams : ∀ upload bytes, writer.mode = .streaming upload bytes →
    multipartChunkBytes ≤ bytes.length

theorem sound_empty (store : Store) (key : String) : Sound store ⟨key, .buffered [] 0⟩ where
  held := Finset.empty_subset _
  buffers := by
    rintro segments size ⟨⟩
    exact ⟨rfl, by decide⟩
  streams := nofun

@[simp]
theorem orphans_buffered (store : Store) (key : String) (segments : List Bytes) (size : ℕ) :
    orphans store ⟨key, .buffered segments size⟩ = store.uploads :=
  Finset.sdiff_empty

@[simp]
theorem orphans_streaming (store : Store) (key : String) (upload : ℕ) (bytes : Bytes) :
    orphans store ⟨key, .streaming upload bytes⟩ = store.uploads.erase upload :=
  Finset.sdiff_singleton_eq_erase _ _

/-- Nothing failed that leaves an upload behind: no wait, and no read a whole part in. -/
def Tidy {α : Type} (result : Except Error α) : Prop :=
  ∀ error, result = .error error → error.request ≠ some .wait ∧
    ∀ written, error.request = some (.read written) → written < multipartChunkBytes

variable {α : Type} {store : Store} {writer : ObjectWriter} {faults : Faults}

@[simp]
theorem tidy_ok (value : α) : Tidy (.ok value : Except Error α) :=
  nofun

@[simp]
theorem tidy_error (error : Error) :
    Tidy (.error error : Except Error α) ↔ error.request ≠ some .wait ∧
      ∀ written, error.request = some (.read written) → written < multipartChunkBytes := by
  simp [Tidy]

/-- What a write does to what an abort would leave, and to the bytes. -/
structure Wrote (store : Store) (writer : ObjectWriter) (bytes : Bytes)
    (result : Except Error Unit) (left : Store) (after : ObjectWriter) : Prop where
  sound : Sound left after
  objects : left.objects = store.objects
  key : after.key = writer.key
  keeps : orphans store writer ⊆ orphans left after
  tidy : orphans left after = orphans store writer ↔ Tidy result
  outcome : (result = .ok () ∧ after.mode.bytes = writer.mode.bytes ++ bytes) ∨
    (∃ error, result = .error error) ∧ after.mode = .buffered [] 0 ∧
      multipartChunkBytes ≤ (writer.mode.bytes ++ bytes).length

theorem wrote (sound : Sound store writer) (bytes : Bytes) (fails : Bool) :
    Wrote store writer bytes (write store writer bytes fails).1
      (write store writer bytes fails).2.1 (write store writer bytes fails).2.2 := by
  rcases writer with ⟨key, mode⟩
  cases mode with
  | streaming upload written =>
    have isOpen : upload ∈ store.uploads := sound.held (Finset.mem_singleton_self upload)
    have long := sound.streams upload written rfl
    have longer : multipartChunkBytes ≤ (written ++ bytes).length := by
      rw [length_append]
      omega
    cases fails with
    | true =>
      refine ⟨sound_empty _ _, rfl, rfl, ?_, ?_, .inr ⟨⟨_, rfl⟩, rfl, longer⟩⟩
      · simpa [write] using Finset.erase_subset upload store.uploads
      · simpa [write] using (Finset.erase_ne_self.mpr isOpen).symm
    | false =>
      refine ⟨⟨sound.held, nofun, ?_⟩, rfl, rfl, ?_, ?_, .inl ⟨rfl, rfl⟩⟩
      · rintro upload bytes ⟨⟩
        exact longer
      · simp [write]
      · simp [write]
  | buffered segments size =>
    have isSize := (sound.buffers segments size rfl).1
    have joined : (segments ++ [bytes]).flatten = segments.flatten ++ bytes := by simp
    by_cases short : size + bytes.length < multipartChunkBytes
    · simp only [write, short, if_true]
      refine ⟨⟨Finset.empty_subset _, ?_, nofun⟩, rfl, rfl, by simp, by simp,
        .inl ⟨rfl, joined⟩⟩
      rintro segments size ⟨⟩
      exact ⟨by rw [joined, length_append, isSize], short⟩
    · have long : multipartChunkBytes ≤ (segments.flatten ++ bytes).length := by
        rw [length_append, ← isSize]
        omega
      cases fails with
      | true =>
        simp only [write, short, if_false, startMultipart, if_true]
        exact ⟨sound_empty _ _, rfl, rfl, by simp, by simp, .inr ⟨⟨_, rfl⟩, rfl, long⟩⟩
      | false =>
        simp only [write, short, if_false, startMultipart, Bool.false_eq_true]
        have unused : store.next ∉ store.uploads := fun listed =>
          (store.fresh _ listed).false
        refine ⟨⟨?_, nofun, ?_⟩, rfl, rfl, ?_, ?_, .inl ⟨rfl, joined⟩⟩
        · exact Finset.singleton_subset_iff.mpr (Finset.mem_insert_self _ _)
        · rintro upload bytes ⟨⟩
          rwa [joined]
        · simp [Store.putMultipart, Finset.erase_insert unused]
        · simp [Store.putMultipart, Finset.erase_insert unused]

/-- What a run of writes does: bytes are missing as soon as one of them failed. -/
structure Ran (store : Store) (writer : ObjectWriter) (bytes : Bytes)
    (results : List (Except Error Unit)) (left : Store) (after : ObjectWriter) : Prop where
  objects : left.objects = store.objects
  key : after.key = writer.key
  keeps : orphans store writer ⊆ orphans left after
  tidy : orphans left after = orphans store writer ↔ ∀ result ∈ results, Tidy result
  outcome : ((∀ result ∈ results, result = .ok ()) ∧
      after.mode.bytes = writer.mode.bytes ++ bytes) ∨
    (∃ result ∈ results, result ≠ .ok ()) ∧
      after.mode.bytes.length < (writer.mode.bytes ++ bytes).length

theorem writes_ran (sound : Sound store writer) (chunks : List (Bytes × Bool)) :
    Ran store writer (chunks.map Prod.fst).flatten (writes store writer chunks).1
      (writes store writer chunks).2.1 (writes store writer chunks).2.2 := by
  induction chunks generalizing store writer with
  | nil => exact ⟨rfl, rfl, Finset.Subset.refl _, by simp [writes], .inl (by simp [writes])⟩
  | cons chunk chunks ih =>
    have first := wrote sound chunk.1 chunk.2
    have later := ih first.sound
    simp only [writes, map_cons, flatten_cons]
    refine ⟨later.objects.trans first.objects, later.key.trans first.key,
      first.keeps.trans later.keeps, ?_, ?_⟩
    · rw [forall_mem_cons, ← first.tidy, ← later.tidy]
      constructor
      · intro same
        have between := Finset.Subset.antisymm (later.keeps.trans same.subset) first.keeps
        exact ⟨between, same.trans between.symm⟩
      · rintro ⟨same, sameLater⟩
        exact sameLater.trans same
    · rcases first.outcome with ⟨ok, held⟩ | ⟨⟨error, failed⟩, emptied, long⟩
      · rcases later.outcome with ⟨oks, all⟩ | ⟨⟨result, listed, failed⟩, fewer⟩
        · refine .inl ⟨forall_mem_cons.mpr ⟨ok, oks⟩, ?_⟩
          rw [all, held, append_assoc]
        · refine .inr ⟨⟨result, mem_cons_of_mem _ listed, failed⟩, ?_⟩
          rwa [held, append_assoc] at fewer
      · -- whatever is written after the failure, what was held before it is gone
        refine .inr ⟨⟨_, mem_cons_self, by rw [failed]; nofun⟩, ?_⟩
        have atMost : (writes _ _ chunks).2.2.mode.bytes.length ≤ _ :=
          later.outcome.elim (fun all => all.2 ▸ le_rfl) fun fewer => fewer.2.le
        rw [emptied] at atMost
        simp only [multipartChunkBytes, WriterMode.bytes, flatten_nil, nil_append,
          length_append] at atMost long ⊢
        omega

theorem writeAll_wrote (sound : Sound store writer) (chunks : List (Bytes × Bool)) :
    Sound (writeAll store writer chunks).2.1 (writeAll store writer chunks).2.2 ∧
    (orphans (writeAll store writer chunks).2.1 (writeAll store writer chunks).2.2 =
      orphans store writer ↔ Tidy (writeAll store writer chunks).1) ∧
    ((writeAll store writer chunks).1 = .ok () ∨
      (writeAll store writer chunks).2.2.mode = .buffered [] 0) := by
  induction chunks generalizing store writer with
  | nil => exact ⟨sound, by simp [writeAll], .inl rfl⟩
  | cons chunk chunks ih =>
    have first := wrote sound chunk.1 chunk.2
    rw [writeAll]
    rcases isWrite : write store writer chunk.1 chunk.2 with ⟨result, left, after⟩
    rw [isWrite] at first
    rcases first.outcome with ⟨rfl, -⟩ | ⟨⟨error, rfl⟩, emptied, -⟩
    · have later := ih first.sound
      rwa [first.tidy.mpr (tidy_ok ())] at later
    · exact ⟨first.sound, first.tidy, .inr emptied⟩

/-! ## How it ends -/

theorem finish_ok (store : Store) (writer : ObjectWriter) :
    (finish store writer noFaults).1 = .ok () := by
  rcases writer with ⟨key, ⟨segments, size⟩ | ⟨upload, bytes⟩⟩ <;> rfl

theorem finish_objects (isOk : (finish store writer faults).1 = .ok ()) :
    (finish store writer faults).2.objects writer.key = some writer.mode.bytes := by
  rcases writer with ⟨key, ⟨segments, size⟩ | ⟨upload, bytes⟩⟩ <;> unfold finish at isOk ⊢ <;>
    split_ifs at isOk ⊢ <;> exact Function.update_self _ _ _

theorem finish_tidy (sound : Sound store writer) (aborts : faults.abort = false) :
    (finish store writer faults).2.uploads = orphans store writer ↔
      Tidy (finish store writer faults).1 := by
  rcases writer with ⟨key, mode⟩
  cases mode with
  | buffered segments size =>
    rw [finish]
    split_ifs <;> simp [Store.putObject]
  | streaming upload bytes =>
    have isOpen : upload ∈ store.uploads := sound.held (Finset.mem_singleton_self upload)
    simp only [finish, aborts]
    cases faults.wait with
    | true => simpa using (Finset.erase_ne_self.mpr isOpen).symm
    | false => cases faults.complete <;> simp [Store.close, Store.putObject]

theorem abort_ok (store : Store) (writer : ObjectWriter) (aborts : faults.abort = false) :
    (abort store writer faults).1 = .ok () := by
  rcases writer with ⟨key, ⟨segments, size⟩ | ⟨upload, bytes⟩⟩ <;> simp [abort, aborts]

theorem abort_left (isOk : (abort store writer faults).1 = .ok ()) :
    (abort store writer faults).2.uploads = orphans store writer ∧
      (abort store writer faults).2.objects = store.objects := by
  rcases writer with ⟨key, ⟨segments, size⟩ | ⟨upload, bytes⟩⟩
  · simp [abort]
  · cases aborts : faults.abort <;> simp [abort, aborts, Store.close] at isOk ⊢

theorem dropped_iff (sound : Sound store writer) :
    store.uploads = orphans store writer ↔ writer.mode.bytes.length < multipartChunkBytes := by
  rcases writer with ⟨key, mode⟩
  cases mode with
  | buffered segments size =>
    have small := sound.buffers segments size rfl
    simp [WriterMode.bytes, ← small.1, small.2]
  | streaming upload bytes =>
    have isOpen : upload ∈ store.uploads := sound.held (Finset.mem_singleton_self upload)
    have long := sound.streams upload bytes rfl
    have differs := (Finset.erase_ne_self.mpr isOpen).symm
    simp [WriterMode.bytes, differs, long]

@[simp]
theorem tidy_map {β : Type} (f : α → β) (result : Except Error α) :
    Tidy (result.map f) ↔ Tidy result := by
  cases result <;> simp [Tidy, Except.map]

@[simp]
theorem tidy_context (context : String) (result : Except Error α) :
    Tidy (result.mapError (.context context)) ↔ Tidy result := by
  cases result <;> simp [Tidy, Except.mapError, Error.context]

theorem writeObject_tidy (store : Store) (key : String) (chunks : List (Bytes × Bool))
    (ending : Ending) (aborts : faults.abort = false) :
    (writeObject store key chunks ending faults).2.uploads = store.uploads ↔
      Tidy (writeObject store key chunks ending faults).1 := by
  have ran := writeAll_wrote (sound_empty store key) chunks
  rw [orphans_buffered] at ran
  unfold writeObject new
  generalize writeAll store ⟨key, .buffered [] 0⟩ chunks = done at ran ⊢
  rcases done with ⟨result, left, after⟩
  rcases ran with ⟨sound, tidy, -⟩
  have aborted := (abort_left (abort_ok left after aborts)).1
  cases result with
  | error error => simpa only [aborted, tidy_error] using tidy
  | ok =>
    have kept := tidy.mpr (tidy_ok ())
    cases ending with
    | written =>
      simp only [tidy_context, tidy_map, ← kept]
      exact finish_tidy sound aborts
    | cancelled => simp [aborted, kept]
    | failed message => simp [aborted, kept]

theorem abandon_tidy (store : Store) (writer : ObjectWriter) (aborts : faults.abort = false)
    (message : String) :
    (abandon store writer faults message).2.uploads = orphans store writer ∧
      Tidy (abandon store writer faults message).1 := by
  have isOk := abort_ok store writer aborts
  refine ⟨(abort_left isOk).1, ?_⟩
  rw [abandon, isOk]
  simp [Except.bind]

theorem copyFrom_tidy (aborts : faults.abort = false) (sound : Sound store writer) (written : ℕ)
    (sources : List (Source × Slice)) :
    (copyFrom faults store writer written sources).2.uploads = orphans store writer ↔
      Tidy (copyFrom faults store writer written sources).1 := by
  induction sources generalizing store writer written with
  | nil =>
    simp only [copyFrom, tidy_map]
    exact finish_tidy sound aborts
  | cons first sources ih =>
    rcases first with ⟨source, _ | _ | ⟨chunks, breaks⟩⟩
    · simp [copyFrom, dropped_iff sound]
    · have abandoned := abandon_tidy store writer aborts
      exact iff_of_true (abandoned _).1 (abandoned _).2
    · have ran := writeAll_wrote sound chunks
      rw [copyFrom]
      generalize writeAll store writer chunks = done at ran ⊢
      rcases done with ⟨result, left, after⟩
      rcases ran with ⟨soundAfter, tidy, emptied⟩
      cases result with
      | error error =>
        rw [orphans, emptied.resolve_left nofun] at tidy
        simpa [WriterMode.held] using tidy
      | ok =>
        rw [← tidy.mpr (tidy_ok ())]
        cases breaks with
        | true => simp [dropped_iff soundAfter]
        | false =>
          simp only [Bool.false_eq_true, if_false]
          split_ifs
          · have abandoned := abandon_tidy left after aborts
            exact iff_of_true (abandoned _).1 (abandoned _).2
          · exact ih soundAfter _

theorem stageFrom_tidy (maxPackBytes : ℕ) (breaks : Bool) (aborts : faults.abort = false)
    (sound : Sound store writer) (total : ℕ) (parts : List (Bytes × Bool)) :
    (stageFrom maxPackBytes breaks faults store writer total parts).2.uploads =
        orphans store writer ↔
      Tidy (stageFrom maxPackBytes breaks faults store writer total parts).1 := by
  induction parts generalizing store writer total with
  | nil =>
    rw [stageFrom]
    cases breaks with
    | true => simp [dropped_iff sound]
    | false =>
      simp only [Bool.false_eq_true, if_false, tidy_context, tidy_map]
      exact finish_tidy sound aborts
  | cons part parts ih =>
    have step := wrote sound part.1 part.2
    rw [stageFrom]
    split_ifs
    · simp [(abort_left (abort_ok store writer aborts)).1]
    · generalize write store writer part.1 part.2 = done at step ⊢
      rcases done with ⟨result, left, after⟩
      rcases step.outcome with ⟨rfl, -⟩ | ⟨⟨error, rfl⟩, emptied, -⟩
      · rw [← step.tidy.mpr (tidy_ok ())]
        exact ih step.sound _
      · have tidy := step.tidy
        rw [orphans, emptied] at tidy
        simpa [WriterMode.held, Error.context] using tidy

def emptyStore : Store := ⟨fun _ => none, ∅, 0, nofun⟩

theorem writes_failedWait {bytes : Bytes} (long : multipartChunkBytes ≤ bytes.length) :
    (writes emptyStore (new "a") [(bytes, false), ([1], true)]).2 =
      (emptyStore.putMultipart, ⟨"a", .buffered [] 0⟩) := by
  have full : ¬ 0 + bytes.length < multipartChunkBytes := by omega
  simp only [writes, write, new, full, if_false, startMultipart, Bool.false_eq_true, if_true]

def failedWait : List (Except Error Unit) × Store × ObjectWriter :=
  writes emptyStore (new "a") [(List.replicate (9 * multipartChunkBytes) 0, false), ([1], true)]

end Enroute.ObjectWriting
