import Enroute.Ingest.Scan
import Enroute.Packfile.PackReader
import Enroute.Lib.Placed

/-!
# Locating the entries of a pack

The scan reads an incoming pack once. For each entry it notes where the entry starts, how long it is
and how much of it is header, and finds the base of an offset delta among the starts noted before.
The bytes accepted between two notes are exactly those of one entry, so the notes account for the
whole pack: header, entries without a gap, trailer.
-/

namespace Enroute

open List

def maxPackObjects : ℕ := 10000000

namespace Locate

abbrev IndexByOffset := AList fun _ : ℕ => ℕ

def baseOf (entryStart : ℕ) (indexByOffset : IndexByOffset) : EntryHeader → Except String EntryBase
  | .full kind => .ok (.whole kind)
  | .ofsDelta baseDistance =>
    if entryStart < baseDistance then .error "OFS_DELTA base offset underflow"
    else
      match indexByOffset.lookup (entryStart - baseDistance) with
      | none => .error "OFS_DELTA base is not an entry in this pack"
      | some at_ => .ok (.inPack at_)
  | .refDelta baseId => .ok (.ref baseId)

def locateEntry [Inflater] (rounds : ℕ) (reader : PackReader) (indexByOffset : IndexByOffset) :
    ExceptT String Option (ScannedEntry × PackReader) := do
  let entryStart := reader.offset
  let ((header, decompressedSize), reader) ← Except.done (PackReader.readEntryHeader reader)
  let headerLen := reader.offset - entryStart
  if maxObjectBytes < decompressedSize then
    Except.done (.error s!"object too large: {decompressedSize} bytes (max {maxObjectBytes})")
  else
    let base ← Except.done (baseOf entryStart indexByOffset header)
    let reader ← PackReader.skipEntryBody rounds decompressedSize reader
    pure ({
      base
      decompressedSize
      entry := ⟨entryStart, reader.offset - entryStart⟩
      headerLen }, reader)

def locateAll [Inflater] (rounds : ℕ) :
    ℕ → PackReader → List ScannedEntry → IndexByOffset →
      ExceptT String Option (List ScannedEntry × PackReader)
  | 0, reader, entries, _ => pure (entries, reader)
  | left + 1, reader, entries, indexByOffset => do
      let entryStart := reader.offset
      let (entry, reader) ← locateEntry rounds reader indexByOffset
      locateAll rounds left reader (entries ++ [entry])
        (indexByOffset.insert entryStart entries.length)

end Locate

open Locate

def locateEntries [Inflater] (sha1 : Bytes → Bytes) (rounds : ℕ) (reader : PackReader) :
    ExceptT String Option (List ScannedEntry × PackReader) := do
  let (objectCount, reader) ← Except.done (PackReader.readPackHeader reader)
  if maxPackObjects < objectCount then
    Except.done (.error s!"pack claims {objectCount} objects (max {maxPackObjects})")
  else
    let (entries, reader) ← locateAll rounds objectCount reader [] ∅
    let reader ← Except.done (PackReader.verifyTrailer sha1 reader)
    pure (entries, reader)

def scan [Inflater] (sha1 : Bytes → Bytes) (rounds : ℕ) (body : Buffers) :
    ExceptT String Option (List ScannedEntry × Bytes) := do
  let (entries, reader) ← locateEntries sha1 rounds (PackReader.retaining body)
  pure (entries, reader.kept.getD [])

namespace PackReader

variable [Inflater] {reader after : PackReader}

/-- The bytes an inflater used from one state to the end of the compressed stream. -/
inductive Inflates : Inflater.State → Bytes → Inflater.State → Prop where
  | last {state final : Inflater.State} {buffer : Bytes} {consumed : ℕ}
      (ends : Inflater.decompress state buffer = .ok (final, consumed, true))
      (inside : consumed ≤ buffer.length) : Inflates state (buffer.take consumed) final
  | more {state next final : Inflater.State} {buffer rest : Bytes} {consumed : ℕ}
      (goesOn : Inflater.decompress state buffer = .ok (next, consumed, false))
      (inside : consumed ≤ buffer.length) (later : Inflates next rest final) :
      Inflates state (buffer.take consumed ++ rest) final

theorem inflateOn_eq_ok {rounds : ℕ} {state final : Inflater.State}
    (inflated : inflateOn rounds state reader = some (.ok (final, after))) :
    ∃ body, reader.Accepts body after ∧ Inflates state body final := by
  induction rounds generalizing state reader with
  | zero => cases inflated
  | succ rounds ih =>
    rw [inflateOn] at inflated
    split at inflated
    next => cases inflated
    next buffer later isInner =>
      by_cases isEmpty : buffer.isEmpty = true
      · rw [if_pos isEmpty] at inflated
        cases inflated
      rw [if_neg isEmpty] at inflated
      split at inflated
      next => cases inflated
      next next consumed ended isStep =>
        by_cases tooFar : buffer.length < consumed
        · rw [if_pos tooFar] at inflated
          cases inflated
        rw [if_neg tooFar] at inflated
        have accepts : reader.Accepts (buffer.take consumed)
            (reader.accept (buffer.take consumed) (consume consumed reader.inner)) := by
          refine accepts_accept ?_
          rw [isInner]
          exact flatten_consume later consumed
        cases ended with
        | true =>
          cases inflated
          exact ⟨_, accepts, .last isStep (not_lt.mp tooFar)⟩
        | false =>
          rcases ih inflated with ⟨rest, acceptsRest, inflates⟩
          exact ⟨_, accepts.trans acceptsRest, .more isStep (not_lt.mp tooFar) inflates⟩

theorem skipEntryBody_eq_ok {rounds size : ℕ}
    (skipped : skipEntryBody rounds size reader = some (.ok after)) :
    ∃ body final, reader.Accepts body after ∧ Inflates Inflater.reset body final ∧
      Inflater.totalOut final = size := by
  rcases Option.map_eq_some_iff.mp skipped with ⟨inflated, isInflated, checked⟩
  rcases Except.bind_eq_ok_iff.mp checked with ⟨⟨final, last⟩, rfl, sizeChecked⟩
  dsimp only at sizeChecked
  split_ifs at sizeChecked with sameSize
  cases sizeChecked
  rcases inflateOn_eq_ok isInflated with ⟨body, accepts, inflates⟩
  exact ⟨body, final, accepts, inflates, not_ne_iff.mp sameSize⟩

end PackReader

/-! ## What the entries are -/

structure EntryPiece where
  entry : ScannedEntry
  head : Bytes
  body : Bytes

namespace EntryPiece

def raw (piece : EntryPiece) : Bytes :=
  piece.head ++ piece.body

/-- What a header asks for is what the entry was noted with: an offset delta is against an earlier
entry, the one that starts as far back as the distance says. -/
def BaseFound (start : ℕ) (earlier : List ScannedEntry) : EntryHeader → EntryBase → Prop
  | .full kind, base => base = .whole kind
  | .ofsDelta distance, base => ∃ at_ found, base = .inPack at_ ∧ earlier[at_]? = some found ∧
      found.entry.offset + distance = start
  | .refDelta baseId, base => base = .ref baseId

structure Read [Inflater] (earlier : List ScannedEntry) (piece : EntryPiece) : Prop where
  len : piece.entry.entry.len = piece.raw.length
  headerLen : piece.entry.headerLen = piece.head.length
  header : ∃ header, PackReader.HeaderRead piece.head header piece.entry.decompressedSize ∧
    BaseFound piece.entry.entry.offset earlier header piece.entry.base
  inflates : ∃ final, PackReader.Inflates Inflater.reset piece.body final ∧
    Inflater.totalOut final = piece.entry.decompressedSize

def ReadAfter [Inflater] : List ScannedEntry → List EntryPiece → Prop
  | _, [] => True
  | earlier, piece :: pieces => piece.Read earlier ∧ ReadAfter (earlier ++ [piece.entry]) pieces

theorem readAfter_append [Inflater] {earlier : List ScannedEntry} {front back : List EntryPiece} :
    ReadAfter earlier (front ++ back) ↔
      ReadAfter earlier front ∧ ReadAfter (earlier ++ front.map entry) back := by
  induction front generalizing earlier with
  | nil => simp [ReadAfter]
  | cons piece front ih =>
    rw [cons_append, ReadAfter, ReadAfter, ih, and_assoc, map_cons, append_assoc,
      singleton_append]

end EntryPiece

namespace Locate

variable {entries : List ScannedEntry} {indexByOffset : IndexByOffset}

def Indexes (indexByOffset : IndexByOffset) (entries : List ScannedEntry) : Prop :=
  ∀ offset at_, indexByOffset.lookup offset = some at_ →
    ∃ found, entries[at_]? = some found ∧ found.entry.offset = offset

theorem Indexes.insert {entry : ScannedEntry} (indexes : Indexes indexByOffset entries) :
    Indexes (indexByOffset.insert entry.entry.offset entries.length) (entries ++ [entry]) := by
  intro offset at_ isNoted
  by_cases same : offset = entry.entry.offset
  · subst same
    rw [AList.lookup_insert] at isNoted
    cases isNoted
    exact ⟨entry, List.getElem?_concat_length, rfl⟩
  · rw [AList.lookup_insert_ne same] at isNoted
    rcases indexes offset at_ isNoted with ⟨found, isFound, isOffset⟩
    refine ⟨found, ?_, isOffset⟩
    rw [List.getElem?_append_left (List.getElem?_eq_some_iff.mp isFound).1]
    exact isFound

theorem baseFound_of_baseOf {start : ℕ} {header : EntryHeader} {base : EntryBase}
    (indexes : Indexes indexByOffset entries) (isBase : baseOf start indexByOffset header = .ok base) :
    EntryPiece.BaseFound start entries header base := by
  cases header with
  | full kind =>
    cases isBase
    rfl
  | refDelta baseId =>
    cases isBase
    rfl
  | ofsDelta distance =>
    rw [baseOf] at isBase
    split_ifs at isBase with underflows
    split at isBase
    next => cases isBase
    next at_ isNoted =>
      cases isBase
      rcases indexes _ at_ isNoted with ⟨found, isFound, isOffset⟩
      exact ⟨at_, found, rfl, isFound, by omega⟩

variable [Inflater] {rounds : ℕ} {reader after : PackReader}

theorem locateEntry_eq_ok {entry : ScannedEntry} (indexes : Indexes indexByOffset entries)
    (located : locateEntry rounds reader indexByOffset = some (.ok (entry, after))) :
    ∃ piece : EntryPiece, piece.entry = entry ∧ entry.entry.offset = reader.offset ∧
      reader.Accepts piece.raw after ∧ piece.Read entries := by
  rcases Except.run_bind_eq_ok_iff.mp located with ⟨⟨⟨header, size⟩, middle⟩, readHeader, located⟩
  rcases PackReader.readEntryHeader_eq_ok (Except.done_eq_ok_iff.mp readHeader) with
    ⟨head, acceptsHead, isHeader⟩
  dsimp only at located
  by_cases tooLarge : maxObjectBytes < size
  · rw [if_pos tooLarge] at located
    cases located
  rw [if_neg tooLarge] at located
  rcases Except.run_bind_eq_ok_iff.mp located with ⟨base, isBase, located⟩
  rcases Except.run_bind_eq_ok_iff.mp located with ⟨last, skipped, made⟩
  cases made
  rcases PackReader.skipEntryBody_eq_ok skipped with ⟨body, final, acceptsBody, inflates, isSize⟩
  have accepts := acceptsHead.trans acceptsBody
  refine ⟨⟨_, head, body⟩, rfl, rfl, accepts, ?_, ?_, ⟨header, isHeader, ?_⟩, final, inflates, isSize⟩
  · change after.offset - reader.offset = (head ++ body).length
    rw [accepts.offset, Nat.add_sub_cancel_left]
  · change middle.offset - reader.offset = head.length
    rw [acceptsHead.offset, Nat.add_sub_cancel_left]
  · exact baseFound_of_baseOf indexes (Except.done_eq_ok_iff.mp isBase)

def startOf (piece : EntryPiece) : ℕ :=
  piece.entry.entry.offset

theorem locateAll_eq_ok {left : ℕ} {result : List ScannedEntry}
    (indexes : Indexes indexByOffset entries)
    (located : locateAll rounds left reader entries indexByOffset = some (.ok (result, after))) :
    ∃ pieces : List EntryPiece, result = entries ++ pieces.map EntryPiece.entry ∧
      pieces.length = left ∧ reader.Accepts (pieces.flatMap EntryPiece.raw) after ∧
      Placed.PlacedFrom startOf (fun piece => piece.raw.length) reader.offset pieces ∧
      EntryPiece.ReadAfter entries pieces := by
  induction left generalizing reader entries indexByOffset with
  | zero =>
    cases located
    exact ⟨[], (append_nil _).symm, rfl, PackReader.Accepts.refl _, trivial, trivial⟩
  | succ left ih =>
    rcases Except.run_bind_eq_ok_iff.mp located with ⟨⟨entry, middle⟩, isEntry, located⟩
    rcases locateEntry_eq_ok indexes isEntry with ⟨piece, rfl, isStart, accepts, isRead⟩
    dsimp only at located
    rw [← isStart] at located
    rcases ih indexes.insert located with
      ⟨pieces, rfl, rfl, acceptsRest, placed, readRest⟩
    refine ⟨piece :: pieces, ?_, rfl, accepts.trans acceptsRest, ⟨isStart, ?_⟩, isRead, readRest⟩
    · rw [map_cons, append_assoc, singleton_append]
    · rw [← accepts.offset]
      exact placed

end Locate

namespace PackReader

variable {reader after : PackReader}

theorem readPackHeader_eq_ok {count : ℕ} (read : readPackHeader reader = .ok (count, after)) :
    ∃ header : Bytes, header.length = 12 ∧ reader.Accepts header after ∧
      header.take 4 = [80, 65, 67, 75] ∧ ofBe ((header.drop 4).take 4) = 2 ∧
      count = ofBe ((header.drop 8).take 4) := by
  rcases Except.bind_eq_ok_iff.mp read with ⟨⟨header, last⟩, readHeader, checked⟩
  rcases readExactHashing_eq_ok readHeader with ⟨length, accepts⟩
  dsimp only at checked
  split_ifs at checked with isMagic isVersion
  cases checked
  exact ⟨header, length, accepts, not_ne_iff.mp isMagic, not_ne_iff.mp isVersion, rfl⟩

theorem verifyTrailer_eq_ok {sha1 : Bytes → Bytes}
    (verified : verifyTrailer sha1 reader = .ok after) :
    (sha1 reader.hashed).length = 20 ∧
      reader.inner.flatten = sha1 reader.hashed ++ after.inner.flatten ∧
      after.kept = keep reader.kept (sha1 reader.hashed) := by
  rw [verifyTrailer] at verified
  split at verified
  next => cases verified
  next trailer left readTrailer =>
    rcases readExact_eq_some readTrailer with ⟨length, split⟩
    split_ifs at verified with same
    cases verified
    rw [not_ne_iff] at same
    exact ⟨same ▸ length, same ▸ split, same ▸ rfl⟩

end PackReader

/-- An accepted pack is a header of twelve bytes, as many entries as that counts, one right after
another, and the hash of all that. The copy kept is the whole of it, and the span noted for an
entry holds exactly the bytes that were read for the entry: a header that says what was noted, and a
body the inflater used to its end. An offset delta is against an earlier entry. -/
theorem scan_accounts [Inflater] {sha1 : Bytes → Bytes} {rounds : ℕ} {body : Buffers}
    {entries : List ScannedEntry} {pack : Bytes}
    (accepted : scan sha1 rounds body = some (.ok (entries, pack))) :
    ∃ (header : Bytes) (pieces : List EntryPiece) (rest : Bytes),
      body.flatten = pack ++ rest ∧
      pack = header ++ pieces.flatMap EntryPiece.raw ++
        sha1 (header ++ pieces.flatMap EntryPiece.raw) ∧
      header.length = 12 ∧ (sha1 (header ++ pieces.flatMap EntryPiece.raw)).length = 20 ∧
      entries = pieces.map EntryPiece.entry ∧ entries.length = ofBe ((header.drop 8).take 4) ∧
      Placed.PlacedFrom (fun entry => entry.entry.offset) (fun entry => entry.entry.len) 12 entries ∧
      12 + Placed.extent (fun entry => entry.entry.len) entries + 20 = pack.length ∧
      ∀ front piece back, pieces = front ++ piece :: back →
        piece.Read (front.map EntryPiece.entry) ∧
          readSpan pack piece.entry.entry = .ok piece.raw := by
  rcases Except.run_bind_eq_ok_iff.mp accepted with ⟨⟨found, last⟩, located, made⟩
  cases made
  rcases Except.run_bind_eq_ok_iff.mp located with ⟨⟨count, first⟩, readHeader, located⟩
  rcases PackReader.readPackHeader_eq_ok (Except.done_eq_ok_iff.mp readHeader) with
    ⟨header, length, acceptsHeader, -, -, rfl⟩
  dsimp only at located
  by_cases tooMany : maxPackObjects < ofBe ((header.drop 8).take 4)
  · rw [if_pos tooMany] at located
    cases located
  rw [if_neg tooMany] at located
  rcases Except.run_bind_eq_ok_iff.mp located with ⟨⟨noted, second⟩, locatedAll, located⟩
  rcases Except.run_bind_eq_ok_iff.mp located with ⟨third, verified, made⟩
  cases made
  have indexes : Indexes ∅ [] := fun _ _ isNoted => by cases isNoted
  rcases locateAll_eq_ok indexes locatedAll with ⟨pieces, rfl, isCount, acceptsAll, placed, isRead⟩
  have accepts := acceptsHeader.trans acceptsAll
  have hashed : second.hashed = header ++ pieces.flatMap EntryPiece.raw := accepts.hashed
  rcases PackReader.verifyTrailer_eq_ok (Except.done_eq_ok_iff.mp verified) with
    ⟨trailerLength, trailerRead, keptTrailer⟩
  rw [hashed] at trailerLength trailerRead keptTrailer
  have start : first.offset = 12 := by
    rw [acceptsHeader.offset, length]
    rfl
  rw [start] at placed
  have sameLength : ∀ piece ∈ pieces, piece.entry.entry.len = piece.raw.length := by
    intro piece listed
    rcases append_of_mem listed with ⟨front, back, rfl⟩
    exact (EntryPiece.readAfter_append.mp isRead).2.1.len
  have isPack : last.kept.getD [] = header ++ pieces.flatMap EntryPiece.raw ++
      sha1 (header ++ pieces.flatMap EntryPiece.raw) := by
    rw [keptTrailer, accepts.kept]
    rfl
  refine ⟨header, pieces, last.inner.flatten, ?_, isPack, length, trailerLength, rfl, ?_, ?_, ?_, ?_⟩
  · rw [isPack, append_assoc, ← trailerRead]
    exact accepts.inner
  · rw [nil_append, length_map, isCount]
  · rw [nil_append, Placed.placedFrom_map]
    exact placed.congr fun piece listed => (sameLength piece listed).symm
  · have sizes : (pieces.flatMap EntryPiece.raw).length =
        Placed.extent (fun piece : EntryPiece => piece.entry.entry.len) pieces :=
      Placed.length_flatMap fun piece listed => (sameLength piece listed).symm
    rw [nil_append, Placed.extent_map, isPack, length_append, length_append, length,
      trailerLength, sizes]
  · rintro front piece back rfl
    have isRead := (EntryPiece.readAfter_append.mp isRead).2.1
    refine ⟨isRead, ?_⟩
    have isStart : piece.entry.entry.offset = (header ++ front.flatMap EntryPiece.raw).length := by
      rw [length_append, length, Placed.length_flatMap fun _ _ => rfl]
      exact placed.at_eq
    have split : last.kept.getD [] = (header ++ front.flatMap EntryPiece.raw) ++
        (piece.raw ++ (back.flatMap EntryPiece.raw ++ sha1
          (header ++ (front ++ piece :: back).flatMap EntryPiece.raw))) := by
      rw [isPack, flatMap_append, flatMap_cons]
      simp only [append_assoc]
    rw [split, readSpan, isRead.len, isStart, if_pos, drop_left, take_left]
    simp only [length_append]
    omega

/-- An inflater for bodies that end with a zero byte and inflate to a byte for every other one. -/
abbrev zeroEnded : Inflater where
  State := ℕ
  reset := 0
  decompress := fun count buffer =>
    if buffer.headD 0 = 0 then .ok (count, 1, true) else .ok (count + 1, 1, false)
  totalOut := id

/-- A blob and an offset delta against it, the trailer being what comes before it. -/
theorem scan_accounts_blobAndDelta :
    ∃ entries pack, @scan zeroEnded id 10
        [[80, 65, 67, 75, 0, 0, 0, 2, 0, 0], [0, 2, 0x32, 7, 7, 0, 0x61, 4], [9, 0],
          [80, 65, 67, 75, 0, 0, 0, 2, 0, 0, 0, 2, 0x32, 7, 7, 0, 0x61, 4, 9, 0], [1]] =
        some (.ok (entries, pack)) ∧
      12 + Placed.extent (fun entry => entry.entry.len) entries + 20 = pack.length := by
  have accepted : @scan zeroEnded id 10
      [[80, 65, 67, 75, 0, 0, 0, 2, 0, 0], [0, 2, 0x32, 7, 7, 0, 0x61, 4], [9, 0],
        [80, 65, 67, 75, 0, 0, 0, 2, 0, 0, 0, 2, 0x32, 7, 7, 0, 0x61, 4, 9, 0], [1]] =
      some (.ok ([⟨.whole .blob, 2, ⟨12, 4⟩, 1⟩, ⟨.inPack 0, 1, ⟨16, 4⟩, 2⟩],
        [80, 65, 67, 75, 0, 0, 0, 2, 0, 0, 0, 2, 0x32, 7, 7, 0, 0x61, 4, 9, 0,
          80, 65, 67, 75, 0, 0, 0, 2, 0, 0, 0, 2, 0x32, 7, 7, 0, 0x61, 4, 9, 0])) :=
    rfl
  rcases @scan_accounts zeroEnded _ _ _ _ _ accepted with ⟨_, _, _, -, -, -, -, -, -, -, ends, -⟩
  exact ⟨_, _, accepted, ends⟩

end Enroute
