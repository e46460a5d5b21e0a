import Enroute.IngestLambda.Wire
import Enroute.Lattice.Key
import Enroute.Lib.Except
import Mathlib.Logic.Equiv.List
import Mathlib.Tactic.DeriveEncodable

/-!
# Handing a push to the worker

The front door reads the pack into a buffer, and how much the first fill brings decides whether the
pack rides in the call or goes through the staging bucket. Whatever the reads bring, what is in the
buffer and what is left to read are the pack together, and a fill stops short of a whole part only
at the pack's end. The push itself rides in the call or, if the call is too long with it, is staged
next to the pack.
-/

namespace Enroute

open List

structure IngestRequest where
  id : ℤ
  storageKey : ℕ
  defaultBranch : String
  existing : RefsMap
  updates : List RefUpdate

namespace Handoff

def uploadChunk : ℕ := 5 * 1024 * 1024

def initialRead : ℕ := 64 * 1024

def payloadMax : ℕ := 6 * 1024 * 1024

def inlineMax : ℕ := 1024 * 1024

/-! ## Reading the pack -/

/-- A pack being read: what is left, and how much each of the next reads would bring. -/
structure Reader where
  rest : Bytes
  sizes : List ℕ

def Reader.read (reader : Reader) (room : ℕ) : Bytes × Reader :=
  let size := min (max 1 (reader.sizes.headD reader.rest.length)) room
  (reader.rest.take size, ⟨reader.rest.drop size, reader.sizes.tail⟩)

structure Buffer where
  data : Bytes
  capacity : ℕ

/-- How much is allocated for a buffer that needs so much; never less. -/
structure Allocator where
  allocate : ℕ → ℕ → ℕ
  enough : ∀ held needed, needed ≤ allocate held needed

section Client

variable (allocator : Allocator)

def Buffer.reserve (buf : Buffer) (extra : ℕ) : Buffer :=
  { buf with capacity := allocator.allocate buf.capacity (buf.data.length + extra) }

def checkedSub (left right : ℕ) : Option ℕ :=
  if right ≤ left then some (left - right) else none

def growTo (buf : Buffer) : ℕ :=
  if inlineMax < buf.data.length then uploadChunk
  else min (max (saturatingMul buf.capacity 2) initialRead) uploadChunk

def grow (buf : Buffer) : Option Buffer :=
  if buf.capacity = buf.data.length then do
    let extra ← checkedSub (growTo buf) buf.data.length
    some (buf.reserve allocator extra)
  else some buf

def fillWithin : ℕ → Reader → Buffer → Option (Reader × Buffer)
  | 0, _, _ => none
  | fuel + 1, reader, buf =>
    if buf.data.length < uploadChunk then do
      let buf ← grow allocator buf
      let read := reader.read (buf.capacity - buf.data.length)
      if read.1 = [] then some (read.2, buf)
      else fillWithin fuel read.2 { buf with data := buf.data ++ read.1 }
    else some (reader, buf)

/-- Read until the buffer holds a whole part, or the pack ends. Every round but the last reads. -/
def fill (reader : Reader) (buf : Buffer) : Option (Reader × Buffer) :=
  fillWithin allocator (reader.rest.length + 1) reader buf

def stageWithin (maxPackBytes : ℕ) :
    ℕ → Reader → Buffer → Bytes → ℕ → Option (Except String (Bytes × ℕ))
  | 0, _, _, _, _ => none
  | fuel + 1, reader, buf, written, total =>
    if buf.data = [] then some (.ok (written, total))
    else
      let total := saturatingAdd total buf.data.length
      if maxPackBytes < total then some (.error s!"pack exceeds {maxPackBytes} bytes")
      else do
        let emptied : Buffer := ⟨[], buf.capacity - buf.data.length⟩
        let next ← fill allocator reader (emptied.reserve allocator uploadChunk)
        stageWithin maxPackBytes fuel next.1 next.2 (written ++ buf.data) total

/-- Stream the rest of a pack behind what was read of it: what is written, and how much. -/
def stage (maxPackBytes : ℕ) (reader : Reader) (buf : Buffer) :
    Option (Except String (Bytes × ℕ)) :=
  stageWithin allocator maxPackBytes (buf.data.length + reader.rest.length + 1) reader buf [] 0

abbrev Store := String → Option Bytes

/-- Get a pack to the worker: in the call if it is small enough, otherwise through the bucket. -/
def deliver (maxPackBytes : ℕ) (store : Store) (key : String) (reader : Reader) :
    Option (Except String (Store × Wire.Pack)) := do
  let filled ← fill allocator reader ⟨[], 0⟩
  if filled.2.data.length ≤ min maxPackBytes inlineMax then
    some (.ok (store, .inline filled.2.data))
  else
    let staged ← stage allocator maxPackBytes filled.1 filled.2
    some (staged.map fun (written, total) =>
      (Function.update store key (some written), .staged ⟨key, total⟩))

end Client

/-! ## The call -/

/-- The encodings of the libraries, each read back as it was written. -/
structure Codecs (Envelope : Type) where
  encodeCall : Wire.Call Envelope → Bytes
  decodeCall : Bytes → Except String (Wire.Call Envelope)
  decode_encodeCall : ∀ call, decodeCall (encodeCall call) = .ok call
  encodeRequest : Wire.Request → Bytes
  decodeRequest : Bytes → Except String Wire.Request
  decode_encodeRequest : ∀ request, decodeRequest (encodeRequest request) = .ok request
  uuidText : ℕ → String
  parseUuid : String → Except String ℕ
  parse_uuidText : ∀ uuid, parseUuid (uuidText uuid) = .ok uuid
  fromHex : String → Except String ObjectId
  fromHex_toHex : ∀ oid < 2 ^ 160, fromHex (toHex oid) = .ok oid

section Call

variable {Envelope : Type} (codecs : Codecs Envelope)

def requestToWire (request : IngestRequest) (pack : Wire.Pack) : Wire.Request where
  repo := ⟨request.id, codecs.uuidText request.storageKey, request.defaultBranch⟩
  existing := request.existing
  updates := request.updates.map fun update =>
    ⟨update.refname, toHex update.oldId, toHex update.newId⟩
  pack := pack

/-- The payload for one push, with the push moved to the bucket if the call cannot hold it. -/
def encodeCall (store : Store) (pushKey : String) (envelope : Envelope) (push : Wire.Request) :
    Store × Bytes :=
  let body := codecs.encodeCall ⟨envelope, .inline push⟩
  if body.length < payloadMax then (store, body)
  else
    let encoded := codecs.encodeRequest push
    (Function.update store pushKey (some encoded),
      codecs.encodeCall ⟨envelope, .staged ⟨pushKey, encoded.length⟩⟩)

def stagedKey (storageKey : ℕ) (id suffix : String) : String :=
  "packs/" ++ codecs.uuidText storageKey ++ "/" ++ id ++ suffix

def dispatch (allocator : Allocator) (maxPackBytes : ℕ) (store : Store) (id : String)
    (envelope : Envelope) (request : IngestRequest) (reader : Reader) :
    Option (Except String (Store × Bytes)) := do
  let delivered ← deliver allocator maxPackBytes store
    (stagedKey codecs request.storageKey id ".pack") reader
  some (delivered.map fun (store, pack) =>
    encodeCall codecs store (stagedKey codecs request.storageKey id ".push") envelope
      (requestToWire codecs request pack))

def getStaged (store : Store) (what : String) (from_ : Wire.Staged) : Except String Bytes :=
  let path := from_.key
  let expected := from_.len
  match store path with
  | none => .error s!"reading staged {what} {path}"
  | some object =>
    let size := object.length
    if size = expected then .ok object
    else .error s!"staged {what} {path} is {size} bytes, expected {expected}"

def readPush (store : Store) (from_ : Wire.Staged) : Except String Wire.Request := do
  let key := from_.key
  let body ← getStaged store "push" from_
  (codecs.decodeRequest body).mapError fun error => s!"parsing staged push {key}: {error}"

def openPack (store : Store) : Wire.Pack → Except String Bytes
  | .inline bytes => .ok bytes
  | .staged from_ => getStaged store "pack" from_

def parseOid (hex : String) : Except String ObjectId :=
  (codecs.fromHex hex).mapError fun error => s!"object id {hex}: {error}"

def requestFromWire (request : Wire.Request) : Except String IngestRequest := do
  let storageKey ← (codecs.parseUuid request.repo.storageKey).mapError
    fun error => s!"storage_key: {error}"
  let updates ← request.updates.mapM fun update => do
    let oldId ← parseOid codecs update.oldId
    let newId ← parseOid codecs update.newId
    .ok (⟨update.refname, oldId, newId⟩ : RefUpdate)
  .ok ⟨request.repo.id, storageKey, request.repo.defaultBranch, request.existing, updates⟩

/-- What the worker makes of a payload: the request, and the bytes its reader yields. -/
def run (store : Store) (body : Bytes) : Except String (IngestRequest × Bytes) := do
  let call ← codecs.decodeCall body
  let request ← match call.push with
    | .inline request => .ok request
    | .staged from_ => readPush codecs store from_
  let pack ← openPack store request.pack
  let request ← requestFromWire codecs request
  .ok (request, pack)

end Call

/-! ## What is read -/

section Fill

variable (allocator : Allocator)

def Buffer.Within (buf : Buffer) : Prop :=
  buf.data.length ≤ buf.capacity

theorem grow_spec {buf : Buffer} (within : buf.Within) (short : buf.data.length < uploadChunk) :
    ∃ capacity, grow allocator buf = some ⟨buf.data, capacity⟩ ∧ buf.data.length < capacity := by
  unfold grow
  split_ifs with full
  · have larger : buf.data.length < growTo buf := by
      simp only [growTo, saturatingMul, full, inlineMax, uploadChunk, initialRead,
        max64] at short ⊢
      split_ifs <;> omega
    have enough := allocator.enough buf.capacity (buf.data.length + (growTo buf - buf.data.length))
    refine ⟨_, by rw [checkedSub, if_pos larger.le]; rfl, by omega⟩
  · exact ⟨buf.capacity, rfl, lt_of_le_of_ne within (Ne.symm full)⟩

theorem fillWithin_spec {fuel : ℕ} {reader : Reader} (buf : Buffer) (within : buf.Within)
    (enough : reader.rest.length < fuel) :
    ∃ next, fillWithin allocator fuel reader buf = some next ∧ next.2.Within ∧
      next.2.data ++ next.1.rest = buf.data ++ reader.rest ∧
      (next.1.rest = [] ∨ uploadChunk ≤ next.2.data.length) := by
  induction fuel generalizing reader buf with
  | zero => exact absurd enough (Nat.not_lt_zero _)
  | succ fuel ih =>
    rw [fillWithin]
    split_ifs with short
    · rcases grow_spec allocator within short with ⟨capacity, grown, room⟩
      simp only [grown, Option.bind_eq_bind, Option.bind_some]
      have positive : 0 < min (max 1 (reader.sizes.headD reader.rest.length))
          (capacity - buf.data.length) := by
        omega
      split_ifs with ended
      · have atEnd : reader.rest = [] := by
          rcases take_eq_nil_iff.mp ended with none_ | atEnd
          · exact absurd none_ positive.ne'
          · exact atEnd
        refine ⟨_, rfl, room.le, ?_, .inl ?_⟩ <;> simp [Reader.read, atEnd]
      · have shorter : (reader.read (capacity - buf.data.length)).2.rest.length < fuel := by
          have some_ : reader.rest ≠ [] := fun none_ => ended (by simp [Reader.read, none_])
          have := length_pos_iff.mpr some_
          simp only [Reader.read, length_drop]
          omega
        have fits : Buffer.Within
            ⟨buf.data ++ (reader.read (capacity - buf.data.length)).1, capacity⟩ := by
          simp only [Buffer.Within, Reader.read, length_append, length_take]
          omega
        rcases ih _ fits shorter with ⟨next, filled, nextWithin, same, stops⟩
        refine ⟨next, filled, nextWithin, same.trans ?_, stops⟩
        simp [Reader.read]
    · exact ⟨_, rfl, within, rfl, .inr (Nat.le_of_not_lt short)⟩

theorem stageWithin_spec {maxPackBytes fuel : ℕ} {reader : Reader} {buf : Buffer}
    (written : Bytes) (total : ℕ) (filled : reader.rest = [] ∨ uploadChunk ≤ buf.data.length)
    (enough : buf.data.length + reader.rest.length < fuel) (soFar : total ≤ maxPackBytes)
    (sized : maxPackBytes < max64 ∨ total + (buf.data ++ reader.rest).length ≤ max64) :
    stageWithin allocator maxPackBytes fuel reader buf written total =
      if maxPackBytes < total + (buf.data ++ reader.rest).length then
        some (.error s!"pack exceeds {maxPackBytes} bytes")
      else some (.ok (written ++ (buf.data ++ reader.rest),
        total + (buf.data ++ reader.rest).length)) := by
  induction fuel generalizing reader buf written total with
  | zero => exact absurd enough (Nat.not_lt_zero _)
  | succ fuel ih =>
    rw [stageWithin]
    rw [length_append] at sized
    by_cases none_ : buf.data = []
    · have atEnd : reader.rest = [] := filled.resolve_right (by rw [none_]; decide)
      simp [none_, atEnd, soFar]
    have some_ := length_pos_iff.mpr none_
    have tooLong : maxPackBytes < saturatingAdd total buf.data.length ↔
        maxPackBytes < total + buf.data.length := by
      rw [saturatingAdd]
      omega
    simp only [none_, if_false, tooLong]
    by_cases long : maxPackBytes < total + buf.data.length
    · rw [if_pos long, if_pos (by rw [length_append]; omega)]
    have counted : saturatingAdd total buf.data.length = total + buf.data.length := by
      rw [saturatingAdd]
      omega
    have within : (Buffer.reserve allocator ⟨[], buf.capacity - buf.data.length⟩
        uploadChunk).Within :=
      Nat.zero_le _
    rcases fillWithin_spec allocator _ within (Nat.lt_succ_self reader.rest.length) with
      ⟨next, isNext, -, same, stops⟩
    rw [Buffer.reserve, nil_append] at same
    have lengths := congrArg List.length same
    rw [length_append] at lengths
    rw [if_neg long, counted, fill, isNext, Option.bind_eq_bind, Option.bind_some,
      ih (written ++ buf.data) _ stops (by omega) (by omega) (by rw [same]; omega), same]
    simp only [length_append, append_assoc, Nat.add_assoc]

theorem deliver_spec {maxPackBytes : ℕ} (store : Store) (key : String) {reader : Reader}
    (sized : maxPackBytes < max64 ∨ reader.rest.length ≤ max64) :
    (maxPackBytes < reader.rest.length ∧ deliver allocator maxPackBytes store key reader =
      some (.error s!"pack exceeds {maxPackBytes} bytes")) ∨
    (reader.rest.length ≤ maxPackBytes ∧ ∃ bucket pack,
      deliver allocator maxPackBytes store key reader = some (.ok (bucket, pack)) ∧
      ∀ later : Store, later key = bucket key → openPack later pack = .ok reader.rest) := by
  rcases fillWithin_spec allocator ⟨[], 0⟩ (Nat.zero_le _)
    (Nat.lt_succ_self reader.rest.length) with ⟨next, isNext, -, same, stops⟩
  rw [nil_append] at same
  have lengths := congrArg List.length same
  rw [length_append] at lengths
  rw [deliver, fill, isNext, Option.bind_eq_bind, Option.bind_some]
  by_cases small : next.2.data.length ≤ min maxPackBytes inlineMax
  · -- a buffer this small is the whole pack, since a part is longer
    have atEnd : next.1.rest = [] := by
      refine stops.resolve_right fun whole => ?_
      simp only [inlineMax, uploadChunk] at small whole
      omega
    rw [atEnd, append_nil] at same
    refine .inr ⟨by rw [← same]; omega, store, .inline next.2.data, by rw [if_pos small], ?_⟩
    intro later _
    rw [openPack, same]
  · have staged := stageWithin_spec allocator [] 0 stops (Nat.lt_succ_self _)
      (Nat.zero_le maxPackBytes) (by rwa [same, Nat.zero_add])
    rw [same, Nat.zero_add, nil_append] at staged
    rw [if_neg small, stage, staged]
    by_cases long : maxPackBytes < reader.rest.length
    · exact .inl ⟨long, by rw [if_pos long]; rfl⟩
    · refine .inr ⟨Nat.le_of_not_lt long, _, _, by rw [if_neg long]; rfl, ?_⟩
      intro later same
      rw [Function.update_self] at same
      simp [openPack, getStaged, same]

end Fill

/-! ## What is handed over -/

section Exact

variable {Envelope : Type} (codecs : Codecs Envelope)

theorem requestFromWire_requestToWire {request : IngestRequest}
    (ids : ∀ update ∈ request.updates, update.oldId < 2 ^ 160 ∧ update.newId < 2 ^ 160)
    (pack : Wire.Pack) :
    requestFromWire codecs (requestToWire codecs request pack) = .ok request := by
  have parsed : (requestToWire codecs request pack).updates.mapM (fun update => do
      let oldId ← parseOid codecs update.oldId
      let newId ← parseOid codecs update.newId
      .ok (⟨update.refname, oldId, newId⟩ : RefUpdate)) = Except.ok request.updates := by
    rw [requestToWire, Except.mapM_eq_ok_iff, forall₂_map_left_iff, forall₂_same]
    intro update listed
    rw [parseOid, parseOid, codecs.fromHex_toHex _ (ids update listed).1,
      codecs.fromHex_toHex _ (ids update listed).2]
    rfl
  rw [requestFromWire, parsed, requestToWire, codecs.parse_uuidText]
  rfl

theorem pushKey_ne_packKey (storageKey : ℕ) (id : String) :
    stagedKey codecs storageKey id ".push" ≠ stagedKey codecs storageKey id ".pack" := by
  rw [stagedKey, stagedKey, Ne, String.append_right_inj]
  decide

theorem run_encodeCall {store : Store} {pushKey : String} {request : IngestRequest}
    {pack : Wire.Pack} {bytes : Bytes} (envelope : Envelope)
    (ids : ∀ update ∈ request.updates, update.oldId < 2 ^ 160 ∧ update.newId < 2 ^ 160)
    (opens : openPack store pack = .ok bytes)
    (opensLater : ∀ push, openPack (Function.update store pushKey push) pack = .ok bytes) :
    run codecs
      (encodeCall codecs store pushKey envelope (requestToWire codecs request pack)).1
      (encodeCall codecs store pushKey envelope (requestToWire codecs request pack)).2 =
        .ok (request, bytes) := by
  have again := requestFromWire_requestToWire codecs ids pack
  have isPack : (requestToWire codecs request pack).pack = pack := rfl
  rw [encodeCall]
  split_ifs with short
  · rw [run, codecs.decode_encodeCall]
    simp only [Except.ok_bind, isPack, opens, again]
  · rw [run, codecs.decode_encodeCall]
    have read : readPush codecs (Function.update store pushKey
        (some (codecs.encodeRequest (requestToWire codecs request pack))))
        ⟨pushKey, (codecs.encodeRequest (requestToWire codecs request pack)).length⟩ =
          .ok (requestToWire codecs request pack) := by
      simp [readPush, getStaged, codecs.decode_encodeRequest, Except.mapError]
    simp only [Except.ok_bind, read, isPack, opensLater, again]

/-- A push is refused exactly when its pack is too long, and otherwise the worker sees it as it
was, whichever way its parts travel. -/
theorem handoff_exact (allocator : Allocator) (maxPackBytes : ℕ) (store : Store) (id : String)
    (envelope : Envelope) (request : IngestRequest) (reader : Reader)
    (ids : ∀ update ∈ request.updates, update.oldId < 2 ^ 160 ∧ update.newId < 2 ^ 160)
    (sized : maxPackBytes < max64 ∨ reader.rest.length ≤ max64) :
    (maxPackBytes < reader.rest.length →
      deliver allocator maxPackBytes store (stagedKey codecs request.storageKey id ".pack") reader =
          some (.error s!"pack exceeds {maxPackBytes} bytes") ∧
        dispatch codecs allocator maxPackBytes store id envelope request reader =
          some (.error s!"pack exceeds {maxPackBytes} bytes")) ∧
    (reader.rest.length ≤ maxPackBytes → ∃ bucket body,
      dispatch codecs allocator maxPackBytes store id envelope request reader =
          some (.ok (bucket, body)) ∧
        run codecs bucket body = .ok (request, reader.rest)) := by
  rcases deliver_spec allocator store (stagedKey codecs request.storageKey id ".pack") sized with
    ⟨long, refused⟩ | ⟨fits, bucket, pack, delivered, opens⟩
  · refine ⟨fun _ => ⟨refused, ?_⟩, fun fits => absurd long (Nat.not_lt.mpr fits)⟩
    rw [dispatch, refused]
    rfl
  · refine ⟨fun long => absurd long (Nat.not_lt.mpr fits), fun _ => ?_⟩
    refine ⟨_, _, by rw [dispatch, delivered]; rfl, ?_⟩
    refine run_encodeCall codecs envelope ids (opens bucket rfl) fun push => opens _ ?_
    exact Function.update_of_ne (pushKey_ne_packKey codecs request.storageKey id).symm _ _

end Exact

section Witness

local instance encodableChar : Encodable Char :=
  Encodable.ofLeftInjection Char.toNat (fun code => some (Char.ofNat code)) (by simp)

local instance encodableString : Encodable String :=
  Encodable.ofLeftInjection String.toList (fun chars => some (String.ofList chars)) (by simp)

local instance encodableUInt8 : Encodable UInt8 :=
  Encodable.ofLeftInjection UInt8.toNat (fun code => some (UInt8.ofNat code)) (by simp)

noncomputable local instance : Encodable RefsMap :=
  Encodable.ofInj (fun refs => refs.toList) fun _ _ => Std.ExtTreeMap.toList_inj.mp

deriving noncomputable instance Encodable for Wire.Staged, Wire.Pack, Wire.Repo, Wire.RefUpdate,
  Wire.Request, Wire.Push, Wire.Call

noncomputable def unary {α : Type} [Encodable α] (document : α) : Bytes :=
  List.replicate (Encodable.encode document) 0

noncomputable def readUnary {α : Type} [Encodable α] (bytes : Bytes) : Except String α :=
  (Encodable.decode bytes.length).elim (.error "unreadable") .ok

theorem readUnary_unary {α : Type} [Encodable α] (document : α) :
    readUnary (unary document) = .ok document := by
  simp [readUnary, unary]

open Classical in
noncomputable def unaryCodecs : Codecs Unit where
  encodeCall := unary
  decodeCall := readUnary
  decode_encodeCall := readUnary_unary
  encodeRequest := unary
  decodeRequest := readUnary
  decode_encodeRequest := readUnary_unary
  uuidText uuid := String.ofList (List.replicate uuid '0')
  parseUuid text := .ok text.toList.length
  parse_uuidText := by simp
  fromHex text := if isOid : ∃ oid < 2 ^ 160, toHex oid = text then .ok isOid.choose
    else .error "not an id"
  fromHex_toHex oid fits := by
    have isOid : ∃ held < 2 ^ 160, toHex held = toHex oid := ⟨oid, fits, rfl⟩
    rw [dif_pos isOid]
    exact congrArg _ (toHex_injective isOid.choose_spec.1 fits isOid.choose_spec.2)

def exactAllocator : Allocator := ⟨fun _ needed => needed, fun _ _ => le_rfl⟩

def onePush : IngestRequest := ⟨1, 0, "refs/heads/main", ∅, [⟨"refs/heads/main", 0, 7⟩]⟩

theorem handoff_exact_onePush :
    dispatch unaryCodecs exactAllocator 2 (fun _ => none) "a" () onePush ⟨[1, 2, 3], [1]⟩ =
        some (.error "pack exceeds 2 bytes") ∧
      ∃ bucket body, dispatch unaryCodecs exactAllocator 3 (fun _ => none) "a" () onePush
          ⟨[1, 2, 3], [1]⟩ = some (.ok (bucket, body)) ∧
        run unaryCodecs bucket body = .ok (onePush, [1, 2, 3]) := by
  have handed := fun maxPackBytes sized => handoff_exact unaryCodecs exactAllocator maxPackBytes
    (fun _ => none) "a" () onePush ⟨[1, 2, 3], [1]⟩ (by simp [onePush]) sized
  exact ⟨((handed 2 (.inl (by decide))).1 (by decide)).2,
    (handed 3 (.inl (by decide))).2 (by decide)⟩

end Witness

end Handoff

end Enroute
