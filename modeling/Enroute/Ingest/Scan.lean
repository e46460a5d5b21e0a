import Enroute.Packfile.ApplyDelta

/-!
# The entries of a pack

What the scan of an incoming pack leaves behind: where each entry sits in the bytes, and what it
needs before it can be rebuilt. An entry holds an object, or a delta against an earlier entry or
against an object by its id.

Inflating, hashing and parsing are not part of this development: any functions will do.
-/

namespace Enroute

/-- What is done to bytes by other crates: inflating a zlib stream into a buffer of a size, hashing an
object, and parsing what it refers to. -/
class ObjectCodec where
  zlibDecompress : Bytes → ℕ → Except String Bytes
  hashLoose : Kind → Bytes → Except String ObjectId
  objectRefs : Kind → Bytes → Except String ObjectRefs

export ObjectCodec (zlibDecompress hashLoose objectRefs)

def ObjectCodec.Injective [ObjectCodec] : Prop :=
  ∀ kind content other otherContent oid, hashLoose kind content = .ok oid →
    hashLoose other otherContent = .ok oid → kind = other ∧ content = otherContent

def inflateEntry [ObjectCodec] (body : Bytes) (expectedLen : ℕ) : Except String Bytes := do
  let out ← (zlibDecompress body expectedLen).mapError fun error => "inflate entry: " ++ error
  if out.length ≠ expectedLen then
    .error s!"entry inflated to {out.length} bytes, expected {expectedLen}"
  else .ok out

structure RawSpan where
  offset : ℕ
  len : ℕ
  deriving DecidableEq, Repr

def readSpan (pack : Bytes) (span : RawSpan) : Except String Bytes :=
  if span.offset + span.len ≤ pack.length then .ok ((pack.drop span.offset).take span.len)
  else .error "entry span past end of pack"

inductive EntryBase where
  /-- Complete on its own. -/
  | whole (kind : Kind)
  /-- A delta against another entry of this pack. -/
  | inPack (base : ℕ)
  /-- A delta against an object, of this pack or of the repository. -/
  | ref (base : ObjectId)
  deriving DecidableEq, Repr

structure ScannedEntry where
  base : EntryBase
  /-- The size of the payload, for a delta of its instructions. -/
  decompressedSize : ℕ
  entry : RawSpan
  /-- How much of the entry is header. -/
  headerLen : ℕ
  deriving DecidableEq, Repr

end Enroute
