import Enroute.Packfile.ApplyDelta

/-!
# Encoding deltas

The encoder indexes the base by hashes of its aligned blocks, scans the target with a rolling
hash and turns each match into a copy, with the bytes between matches as inserts. A match found
at one position may reach back into the bytes that are still pending.

Whatever the index answers, a match is only taken after its bytes have been compared, so the
round trip does not depend on the hashes.
-/

namespace Enroute

open Fields Varint

namespace Delta

def maxCopy : ℕ := 0x00ffffff

def maxInsert : ℕ := 0x7f

def block : ℕ := 16

def maxCandidates : ℕ := 64

def mult : UInt32 := 0x01000193

def outgoingWeight : UInt32 :=
  (List.range (block - 1)).foldl (fun pow _ => pow * mult) 1

def noBlock : ℕ := 2 ^ 32 - 1

structure Match where
  start : ℕ
  baseOffset : ℕ
  len : ℕ

structure BlockIndex where
  head : List ℕ
  next : List ℕ
  mask : ℕ

def bucket (hash : UInt32) (mask : ℕ) : ℕ :=
  (hash ^^^ (hash >>> 13)).toNat &&& mask

def blockHash (window : Bytes) : UInt32 :=
  window.foldl (fun acc byte => acc * mult + byte.toUInt32) 0

def roll (hash : UInt32) (outgoing incoming : UInt8) : UInt32 :=
  (hash - outgoing.toUInt32 * outgoingWeight) * mult + incoming.toUInt32

def fillBlocks (base : Bytes) (size : ℕ) : List ℕ → List ℕ × List ℕ → List ℕ × List ℕ
  | [], filled => filled
  | number :: numbers, (head, next) =>
    if 2 ^ 32 ≤ number then (head, next)
    else
      let slot := bucket (blockHash ((base.drop (number * block)).take block)) (size - 1)
      match head[slot]? with
      | none => fillBlocks base size numbers (head, next)
      | some first =>
        fillBlocks base size numbers (head.set slot number, next.set number first)

def BlockIndex.build (base : Bytes) : BlockIndex :=
  let blocks := base.length / block
  if blocks = 0 then { head := [], next := [], mask := 0 }
  else
    let size := blocks.nextPowerOfTwo
    let filled := fillBlocks base size (List.range blocks)
      (List.replicate size noBlock, List.replicate blocks noBlock)
    { head := filled.1, next := filled.2, mask := size - 1 }

def commonPrefix (a b : Bytes) : ℕ :=
  ((a.zip b).takeWhile fun pair => pair.1 == pair.2).length

def commonSuffix (a b : Bytes) : ℕ :=
  ((a.reverse.zip b.reverse).takeWhile fun pair => pair.1 == pair.2).length

def tryBlock (base ahead behind : Bytes) (pos offset : ℕ) (best : Option Match) : Option Match :=
  let forward := ((byteRange base offset base.length).map (commonPrefix · ahead)).getD 0
  let backward := ((byteRange base 0 offset).map (commonSuffix · behind)).getD 0
  let len := forward + backward
  if 0 < forward ∧ block ≤ len ∧ best.all (fun held => held.len < len) then
    some { start := pos - backward, baseOffset := offset - backward, len }
  else best

/-- Walk a chain of blocks; a number outside the chains ends the search with nothing. -/
def walkChain (base ahead behind : Bytes) (next : List ℕ) (pos : ℕ) :
    ℕ → ℕ → Option Match → Option Match
  | 0, _, best => best
  | candidates + 1, candidate, best =>
    let best := tryBlock base ahead behind pos (candidate * block) best
    match next[candidate]? with
    | none => none
    | some candidate =>
      if candidate = noBlock then best
      else walkChain base ahead behind next pos candidates candidate best

def bestMatch (index : BlockIndex) (base target : Bytes) (pos pending : ℕ) (hash : UInt32) :
    Option Match := do
  let ahead ← byteRange target pos target.length
  let behind ← byteRange target pending pos
  let candidate ← index.head[bucket hash index.mask]?
  walkChain base ahead behind index.next pos maxCandidates candidate none

/-- Insert instructions for the chunks of some literal bytes; a chunk is not empty, so the
number of bytes is fuel enough. -/
def pushLiteralFrom : ℕ → Bytes → Bytes
  | 0, _ => []
  | fuel + 1, data =>
    if data = [] then []
    else
      let chunk := data.take maxInsert
      UInt8.ofNat chunk.length :: chunk ++ pushLiteralFrom fuel (data.drop maxInsert)

def pushLiteral (data : Bytes) : Bytes :=
  pushLiteralFrom data.length data

/-- Note the bytes that are not zero, their flags in the command and themselves after it. -/
def packBytes : ℕ → Bytes → UInt8 × Bytes → UInt8 × Bytes
  | _, [], packed => packed
  | bit, byte :: bytes, (cmd, payload) =>
    packBytes (bit + 1) bytes
      (if byte ≠ 0 then (cmd ||| 1 <<< UInt8.ofNat bit, payload ++ [byte]) else (cmd, payload))

def pushCopyInstruction (offset size : ℕ) : Bytes :=
  let packed := packBytes 4 (toLe 3 size) (packBytes 0 (toLe 4 offset) (0x80, []))
  packed.1 :: packed.2

/-- Copy instructions for what is left of a run; every one copies a byte at least, so the
length of the run is fuel enough. -/
def pushCopyFrom (baseOffset len : ℕ) : ℕ → ℕ → Except String Bytes
  | 0, _ => .ok []
  | fuel + 1, done =>
    if done < len then
      let take := min (len - done) maxCopy
      if 2 ^ 32 ≤ baseOffset + done then
        .error "delta copy offset: out of range integral type conversion attempted"
      else do
        let rest ← pushCopyFrom baseOffset len fuel (done + take)
        .ok (pushCopyInstruction (baseOffset + done) take ++ rest)
    else .ok []

def pushCopy (baseOffset len : ℕ) : Except String Bytes :=
  pushCopyFrom baseOffset len len 0

/-- The encoder's place in the target: where the literal run that is not emitted yet starts,
how far it has looked, the hash of the window there and what it has written. -/
structure Scan where
  pending : ℕ
  pos : ℕ
  hash : UInt32
  out : Bytes

def hashAt (target : Bytes) (pos : ℕ) : UInt32 :=
  ((byteRange target pos (pos + block)).map blockHash).getD 0

/-- One position of the scan: a match is emitted and skipped, anything else is left pending. -/
def scanStep (index : BlockIndex) (base target : Bytes) (scan : Scan) : Except String Scan :=
  let found :=
    if scan.pos + block ≤ target.length then
      bestMatch index base target scan.pos scan.pending scan.hash
    else none
  match found with
  | some found =>
    match byteRange target scan.pending found.start with
    | none => .error "delta literal range out of bounds"
    | some literal => do
        let copies ← pushCopy found.baseOffset found.len
        let pos := found.start + found.len
        .ok { pending := pos, pos, hash := hashAt target pos
              out := scan.out ++ pushLiteral literal ++ copies }
  | none =>
    let hash :=
      match target[scan.pos]?, target[scan.pos + block]? with
      | some outgoing, some incoming => roll scan.hash outgoing incoming
      | _, _ => scan.hash
    .ok { scan with pos := scan.pos + 1, hash }

/-- Scan to the end of the target; every step moves on, so its length is fuel enough. -/
def scanLoop (index : BlockIndex) (base target : Bytes) : ℕ → Scan → Except String Scan
  | 0, scan => if scan.pos < target.length then .error "out of fuel" else .ok scan
  | fuel + 1, scan =>
    if scan.pos < target.length then do
      let scan ← scanStep index base target scan
      scanLoop index base target fuel scan
    else .ok scan

end Delta

open Delta in
def encodeDelta (base target : Bytes) : Except String Bytes :=
  if maxObjectBytes < base.length ∨ maxObjectBytes < target.length then
    .error (s!"delta inputs exceed {maxObjectBytes} bytes: " ++
      s!"base {base.length}, target {target.length}")
  else do
    let scan ← scanLoop (BlockIndex.build base) base target target.length
      { pending := 0, pos := 0, hash := hashAt target 0
        out := writeVarint base.length ++ writeVarint target.length }
    match byteRange target scan.pending target.length with
    | none => .error "delta literal tail out of bounds"
    | some literal => .ok (scan.out ++ pushLiteral literal)

end Enroute
