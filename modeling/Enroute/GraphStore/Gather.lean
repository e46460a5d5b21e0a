import Enroute.GraphStore.Builders

/-!
# Gathering pack images

A gather moves the images that sit in some segments into new ones. What it has to move is found by a
scan of the pack index, band by band, a band being cut only where no segment straddles the cut. The
images that were copied are recorded in new segments of the index, and of the two nodes a commit
then has the join keeps the one in the newer segment.
-/

namespace Enroute.Stored

open Enroute.Lattice Join List

/-- The gap between two images at which another segment is cheaper than the empty slots. -/
def RELOCATIONGAP : ℕ :=
  1024

def SCANBAND : ℕ :=
  25000

/-! ## Bands -/

/-- Extend the open band, by what overlaps it and while it is narrower than the target. -/
def extendBand (band : ℕ × ℕ) : List (ℕ × ℕ) → List (ℕ × ℕ)
  | [] => [band]
  | range :: ranges =>
    if range.1 ≤ band.2 ∨ band.2 - band.1 < SCANBAND then
      extendBand (band.1, max band.2 range.2) ranges
    else band :: extendBand range ranges

def growBands : List (ℕ × ℕ) → List (ℕ × ℕ)
  | [] => []
  | range :: ranges => extendBand range ranges

def bands (entries : List Lattice.Entry) : List KeyRange :=
  let ranges := entries.map fun entry => (entry.range.first, entry.range.last)
  let sorted := ranges.insertionSort fun earlier later => toLex earlier ≤ toLex later
  (growBands sorted).filterMap fun band => KeyRange.new band.1 band.2

def Inside (inner outer : ℕ × ℕ) : Prop :=
  outer.1 ≤ inner.1 ∧ inner.2 ≤ outer.2

theorem extendBand_spec {band : ℕ × ℕ} {ranges : List (ℕ × ℕ)}
    (starts : ∀ range ∈ ranges, band.1 ≤ range.1)
    (inOrder : ranges.Pairwise fun earlier later => earlier.1 ≤ later.1) :
    (extendBand band ranges).Pairwise (fun earlier later => earlier.2 < later.1) ∧
      (∀ made ∈ extendBand band ranges, band.1 ≤ made.1) ∧
      ∀ range ∈ band :: ranges, ∃ made ∈ extendBand band ranges, Inside range made := by
  induction ranges generalizing band with
  | nil => simp [extendBand, Inside]
  | cons range ranges ih =>
    rw [forall_mem_cons] at starts
    rcases pairwise_cons.mp inOrder with ⟨afterRange, inOrder⟩
    rw [extendBand]
    split_ifs with joins
    · rcases @ih (band.1, max band.2 range.2) starts.2 inOrder with ⟨apart, after, inside⟩
      rcases forall_mem_cons.mp inside with ⟨⟨made, isMade, wider⟩, later⟩
      refine ⟨apart, after, forall_mem_cons.mpr ⟨⟨made, isMade, wider.1, ?_⟩,
        forall_mem_cons.mpr ⟨⟨made, isMade, wider.1.trans starts.1, ?_⟩, later⟩⟩⟩
      · exact (le_max_left _ _).trans wider.2
      · exact (le_max_right _ _).trans wider.2
    · rcases @ih range afterRange inOrder with ⟨apart, after, inside⟩
      refine ⟨pairwise_cons.mpr ⟨fun made isMade => ?_, apart⟩,
        forall_mem_cons.mpr ⟨le_rfl, fun made isMade => starts.1.trans (after made isMade)⟩,
        forall_mem_cons.mpr ⟨⟨band, mem_cons_self, le_rfl, le_rfl⟩, ?_⟩⟩
      · have next := after made isMade
        omega
      · intro other listed
        rcases inside other listed with ⟨made, isMade, within⟩
        exact ⟨made, mem_cons_of_mem _ isMade, within⟩

theorem extendBand_le {band : ℕ × ℕ} {ranges : List (ℕ × ℕ)} {limit : ℕ} (isBand : band.2 ≤ limit)
    (bounded : ∀ range ∈ ranges, range.2 ≤ limit) :
    ∀ made ∈ extendBand band ranges, made.2 ≤ limit := by
  induction ranges generalizing band with
  | nil => simp [extendBand, isBand]
  | cons range ranges ih =>
    rw [forall_mem_cons] at bounded
    rw [extendBand]
    split_ifs
    · exact ih (max_le isBand bounded.1) bounded.2
    · exact forall_mem_cons.mpr ⟨isBand, ih bounded.1 bounded.2⟩

theorem growBands_spec (entries : List Lattice.Entry) :
    let grown := growBands ((entries.map fun entry => (entry.range.first, entry.range.last)).insertionSort
      fun earlier later => toLex earlier ≤ toLex later)
    grown.Pairwise (fun earlier later => earlier.2 < later.1) ∧ (∀ made ∈ grown, made.2 ≤ max64) ∧
      ∀ entry ∈ entries, ∃ made ∈ grown, Inside (entry.range.first, entry.range.last) made := by
  generalize isSorted : ((entries.map fun entry => (entry.range.first, entry.range.last)).insertionSort
    fun earlier later => toLex earlier ≤ toLex later) = sorted
  have listed : ∀ range, range ∈ sorted ↔
      ∃ entry ∈ entries, (entry.range.first, entry.range.last) = range := by
    intro range
    rw [← isSorted, mem_insertionSort, mem_map]
  have inOrder : sorted.Pairwise fun earlier later => earlier.1 ≤ later.1 := by
    rw [← isSorted]
    refine (pairwise_insertionSort _ _).imp fun {earlier later} before => ?_
    rcases (Prod.Lex.le_iff).mp before with less | same
    · exact less.le
    · exact same.1.le
  have bounded : ∀ range ∈ sorted, range.2 ≤ max64 := by
    intro range isRange
    rcases (listed range).mp isRange with ⟨entry, -, rfl⟩
    exact entry.range.bounded
  rcases sorted with _ | ⟨first, rest⟩
  · refine ⟨.nil, forall_mem_nil _, fun entry isEntry => ?_⟩
    cases (listed _).mpr ⟨entry, isEntry, rfl⟩
  · rcases pairwise_cons.mp inOrder with ⟨starts, inOrder⟩
    rcases extendBand_spec starts inOrder with ⟨apart, -, inside⟩
    rw [forall_mem_cons] at bounded
    exact ⟨apart, extendBand_le bounded.1 bounded.2,
      fun entry isEntry => inside _ ((listed _).mpr ⟨entry, isEntry, rfl⟩)⟩

theorem bands_apart (entries : List Lattice.Entry) :
    (bands entries).Pairwise fun earlier later => earlier.last < later.first := by
  rw [bands, pairwise_filterMap]
  refine (growBands_spec entries).1.imp fun {earlier later} apart band isBand next isNext => ?_
  rw [(KeyRange.new_eq_some_iff.mp isBand).2, (KeyRange.new_eq_some_iff.mp isNext).1]
  exact apart

theorem exists_band {entries : List Lattice.Entry} {entry : Lattice.Entry}
    (listed : entry ∈ entries) :
    ∃ band ∈ bands entries, band.first ≤ entry.range.first ∧ entry.range.last ≤ band.last := by
  rcases growBands_spec entries with ⟨-, bounded, inside⟩
  rcases inside entry listed with ⟨made, isMade, starts, ends⟩
  have ordered : made.1 ≤ made.2 := starts.trans (entry.range.ordered.trans ends)
  exact ⟨⟨made.1, made.2, ordered, bounded made isMade⟩,
    mem_filterMap.mpr ⟨made, isMade, KeyRange.new_eq_some_iff.mpr ⟨rfl, rfl⟩⟩, starts, ends⟩

def Apart (range other : KeyRange) : Prop :=
  range.last < other.first ∨ other.last < range.first

instance : Std.Symm Apart :=
  ⟨fun _ _ => Or.symm⟩

variable {band : KeyRange} {key : ℕ} {store : Store PackIndex} {node : PackNode}
  {whole : Option PackIndex}

theorem band_unique {entries : List Lattice.Entry} {other : KeyRange}
    (isBand : band ∈ bands entries) (isOther : other ∈ bands entries)
    (inBand : band.contains key = true) (inOther : other.contains key = true) : band = other := by
  rw [KeyRange.contains_iff] at inBand inOther
  by_contra differ
  have apart : (bands entries).Pairwise Apart := (bands_apart entries).imp Or.inl
  rcases apart.forall isBand isOther differ with before | after
  · omega
  · omega

/-! ## What a band's read holds -/

def Strided.entries {N : Type} (strided : Strided N) : List (ℕ × N) :=
  (strided.slots.zipIdx strided.first).filterMap fun slot => slot.1.map fun node => (slot.2, node)

def PackIndex.entries (index : PackIndex) : List (ℕ × PackNode) :=
  index.nodes.entries

theorem Strided.mem_entries {N : Type} {strided : Strided N} {seq : ℕ} {node : N} :
    (seq, node) ∈ strided.entries ↔ strided.get seq = some node := by
  rw [entries, mem_filterMap]
  constructor
  · rintro ⟨⟨slot, number⟩, listed, isEntry⟩
    rcases Option.map_eq_some_iff.mp isEntry with ⟨held, isSlot, same⟩
    cases same
    rcases mk_mem_zipIdx_iff_le_and_getElem?_sub.mp listed with ⟨above, isHeld⟩
    dsimp only at isSlot
    rw [get, if_neg (not_lt.mpr above), isHeld, isSlot, Option.join_some]
  · intro found
    rw [get] at found
    split_ifs at found with below
    refine ⟨(some node, seq), ?_, rfl⟩
    exact mk_mem_zipIdx_iff_le_and_getElem?_sub.mpr
      ⟨not_lt.mp below, Option.join_eq_some_iff.mp found⟩

theorem Strided.entries_ascending {N : Type} (strided : Strided N) :
    strided.entries.Pairwise fun earlier later => earlier.1 < later.1 := by
  have numbers : (strided.slots.zipIdx strided.first).Pairwise
      fun earlier later => earlier.2 < later.2 := by
    rw [← pairwise_map, zipIdx_map_snd]
    exact pairwise_lt_range'
  rw [entries, pairwise_filterMap]
  refine numbers.imp fun {earlier later} before entry isEntry next isNext => ?_
  rcases Option.map_eq_some_iff.mp isEntry with ⟨_, -, rfl⟩
  rcases Option.map_eq_some_iff.mp isNext with ⟨_, -, rfl⟩
  exact before

theorem inside_of_overlaps {row : Written} (there : row ∈ store.rows)
    (isBand : band ∈ bands store.entries) (overlaps : row.range.overlaps band = true)
    (inRow : row.range.contains key = true) : band.contains key = true := by
  rcases exists_band (mem_map_of_mem there : row.entry ∈ store.entries) with
    ⟨other, isOther, starts, ends⟩
  change other.first ≤ row.range.first at starts
  change row.range.last ≤ other.last at ends
  have ordered := row.range.ordered
  have bandOrdered := band.ordered
  simp only [KeyRange.overlaps, Bool.and_eq_true, decide_eq_true_eq] at overlaps
  have shared : other = band := by
    refine @band_unique _ (max row.range.first band.first) _ _ isOther isBand ?_ ?_
    · rw [KeyRange.contains_iff]
      omega
    · rw [KeyRange.contains_iff]
      omega
  rw [KeyRange.contains_iff] at inRow ⊢
  rw [← shared]
  exact ⟨starts.trans inRow.1, inRow.2.trans ends⟩

theorem contains_of_decodeListed {row : Written} (catalogued : store.Catalogued fun _ => True)
    (there : row ∈ store.rows) {whole part : PackIndex}
    (isWhole : store.decodeListed .everything row.listed = .ok whole) {range : KeyRange}
    (isPart : store.decodeListed range row.listed = .ok part) (found : part.get key = some node) :
    row.range.contains key = true := by
  rcases catalogued row there with ⟨origin, -, isBytes, isRange⟩
  have decodes := decodeListed_listed isBytes
  rw [decodes] at isWhole isPart
  have isWhole := mapError_eq_ok_iff.mp (mapError_eq_ok_iff.mp isWhole)
  have isPart := mapError_eq_ok_iff.mp (mapError_eq_ok_iff.mp isPart)
  rcases PackIndex.narrows range isRange isWhole with ⟨other, isOther, narrowed, kept⟩
  cases isPart.symm.trans isOther
  exact narrowed.covers key (by rw [kept key node found]; exact Option.some_ne_none node)

theorem row_of_read (catalogued : store.Catalogued fun _ => True)
    {wholeArrivals arrivals : Arrivals} {part : Option PackIndex} {range : KeyRange}
    (wholeRead : store.readAlone wholeArrivals .everything = .ok whole)
    (partRead : store.readAlone arrivals range = .ok part)
    (found : part.bind (·.get key) = some node) :
    ∃ row ∈ store.rows, row.range.overlaps range = true ∧ row.range.contains key = true := by
  rcases readAlone_eq_ok_iff.mp wholeRead with ⟨values, decoded, -⟩
  rcases readAlone_eq_ok_iff.mp partRead with ⟨parts, decodedParts, rfl⟩
  rw [PackIndex.pointwise.lookup_compose (fun _ _ => trivial) (by simp)] at found
  obtain ⟨held, isHeld, holds⟩ : ∃ held ∈ parts, held.get key ≠ none := by
    by_contra nowhere
    push Not at nowhere
    rw [← @merged_filter _ _ max parts (·.get key) (fun _ => false)
      fun held listed _ => nowhere held listed, filter_false] at found
    cases found
  rcases Option.ne_none_iff_exists'.mp holds with ⟨_, isNode⟩
  rcases (Except.mem_of_mapM decodedParts).mp isHeld with ⟨one, isOne, isPart⟩
  rcases mem_order_covering.mp isOne with ⟨row, there, overlaps, rfl⟩
  have everywhere : row.range.overlaps .everything = true := by
    simp [KeyRange.overlaps, KeyRange.everything, row.range.ordered.trans row.range.bounded]
  rcases Except.exists_of_mapM decoded (mem_order_covering.mpr ⟨row, there, everywhere, rfl⟩) with
    ⟨value, -, isWhole⟩
  exact ⟨row, there, overlaps, contains_of_decodeListed catalogued there isWhole isPart isNode⟩

theorem readAlone_band (catalogued : store.Catalogued fun _ => True) {wholeArrivals : Arrivals}
    (wholeRead : store.readAlone wholeArrivals .everything = .ok whole)
    (isBand : band ∈ bands store.entries) (arrivals : Arrivals) :
    ∃ part, store.readAlone arrivals band = .ok part ∧ ∀ key, part.bind (·.get key) =
      if band.contains key = true then whole.bind (·.get key) else none := by
  have agree := PackIndex.reads_agree catalogued arrivals wholeArrivals band
  have starts : band.contains band.first = true := KeyRange.contains_iff.mpr ⟨le_rfl, band.ordered⟩
  rcases agree band.first whole starts wholeRead with ⟨part, partRead, -⟩
  refine ⟨part, partRead, fun key => ?_⟩
  split_ifs with inBand
  · rcases agree key whole inBand wholeRead with ⟨other, otherRead, same⟩
    rw [partRead] at otherRead
    cases otherRead
    exact same
  · by_contra found
    rcases Option.ne_none_iff_exists'.mp found with ⟨node, isNode⟩
    rcases row_of_read catalogued wholeRead partRead isNode with ⟨row, there, overlaps, inRow⟩
    exact inBand (inside_of_overlaps there isBand overlaps inRow)

theorem band_of_read (catalogued : store.Catalogued fun _ => True) {arrivals : Arrivals}
    (wholeRead : store.readAlone arrivals .everything = .ok whole)
    (found : whole.bind (·.get key) = some node) :
    ∃ band ∈ bands store.entries, band.contains key = true := by
  rcases row_of_read catalogued wholeRead wholeRead found with ⟨row, there, -, inRow⟩
  rcases exists_band (mem_map_of_mem there : row.entry ∈ store.entries) with
    ⟨band, isBand, starts, ends⟩
  rw [KeyRange.contains_iff] at inRow
  exact ⟨band, isBand, KeyRange.contains_iff.mpr ⟨starts.trans inRow.1, inRow.2.trans ends⟩⟩

/-! ## The scan -/

def heldImages (segments : Finset ℕ) (read : Option PackIndex) : List (ℕ × PackNode) :=
  (read.toList.flatMap PackIndex.entries).filter fun entry => entry.2.segmentId ∈ segments

theorem mem_heldImages {segments : Finset ℕ} {read : Option PackIndex} {seq : ℕ} :
    (seq, node) ∈ heldImages segments read ↔
      read.bind (·.get seq) = some node ∧ node.segmentId ∈ segments := by
  rw [heldImages, mem_filter, decide_eq_true_iff]
  refine and_congr_left fun _ => ?_
  cases read with
  | none => simp
  | some index =>
    rw [Option.toList_some, flatMap_singleton, Option.bind_some]
    exact Strided.mem_entries

def Earlier (entry next : ℕ × PackNode) : Prop :=
  entry.1 < next.1

instance : Std.Asymm Earlier :=
  ⟨fun _ _ => lt_asymm⟩

theorem heldImages_ascending (segments : Finset ℕ) (read : Option PackIndex) :
    (heldImages segments read).Pairwise Earlier := by
  rw [heldImages]
  refine List.Pairwise.filter _ ?_
  cases read with
  | none => exact .nil
  | some index =>
    rw [Option.toList_some, flatMap_singleton]
    exact Strided.entries_ascending _

theorem flatMap_heldImages {parts : KeyRange → Option PackIndex} (segments : Finset ℕ)
    (covered : ∀ key node, whole.bind (·.get key) = some node →
      ∃ band ∈ bands store.entries, band.contains key = true)
    (holds : ∀ band ∈ bands store.entries, ∀ key, (parts band).bind (·.get key) =
      if band.contains key = true then whole.bind (·.get key) else none) :
    (bands store.entries).flatMap (fun band => heldImages segments (parts band)) =
      heldImages segments whole := by
  have inBand : ∀ band ∈ bands store.entries, ∀ entry ∈ heldImages segments (parts band),
      band.contains entry.1 = true := by
    rintro band isBand ⟨seq, node⟩ listed
    have held := (mem_heldImages.mp listed).1
    rw [holds band isBand] at held
    split_ifs at held with inside
    exact inside
  refine List.Pairwise.eq_of_mem_iff (r := Earlier) ?_ (heldImages_ascending segments whole) ?_
  · rw [pairwise_flatMap]
    refine ⟨fun band _ => heldImages_ascending segments _, ?_⟩
    refine (bands_apart store.entries).imp_of_mem fun {band next} isBand isNext apart entry listed
      later laterListed => ?_
    have ends := (KeyRange.contains_iff.mp (inBand band isBand entry listed)).2
    have starts := (KeyRange.contains_iff.mp (inBand next isNext later laterListed)).1
    exact ends.trans_lt (apart.trans_le starts)
  · rintro ⟨seq, node⟩
    rw [mem_flatMap, mem_heldImages]
    constructor
    · rintro ⟨band, isBand, listed⟩
      rcases mem_heldImages.mp listed with ⟨held, inSegments⟩
      rw [holds band isBand, if_pos (inBand band isBand _ listed)] at held
      exact ⟨held, inSegments⟩
    · rintro ⟨held, inSegments⟩
      rcases covered seq node held with ⟨band, isBand, inside⟩
      refine ⟨band, isBand, mem_heldImages.mpr ⟨?_, inSegments⟩⟩
      rw [holds band isBand, if_pos inside, held]

section Scan

variable [Roaring]

def bitmap (bytes : List UInt8) : Except Malformed (Finset ℕ) :=
  match decodeBitmap bytes with
  | none => .error .bitmap
  | some bitmap => .ok bitmap

def image (node : PackNode) : Except Malformed Pack := do
  let trees ← bitmap node.trees
  let blobs ← bitmap node.blobs
  return { entryLen := node.entryLen, blobOffset := node.blobOffset
           segment := ⟨node.segmentId, node.baseOffset, node.imageLen⟩, trees, blobs }

inductive GatherError where
  | reading (source : Lattice.Error)
  | malformed (source : Malformed)
  deriving Repr

def decodeImage (entry : ℕ × PackNode) : Except GatherError (ℕ × Pack) :=
  match image entry.2 with
  | .error source => .error (.malformed source)
  | .ok pack => .ok (entry.1, pack)

def imagesIn (store : Store PackIndex) (arrivals : KeyRange → Arrivals) (segments : Finset ℕ) :
    Except GatherError (List (ℕ × Pack)) := do
  let found ← (bands store.entries).mapM fun band => do
    let read ← (store.readAlone (arrivals band) band).mapError .reading
    (heldImages segments read).mapM decodeImage
  return found.flatten

theorem imagesIn_eq {store : Store PackIndex} (catalogued : store.Catalogued fun _ => True)
    {wholeArrivals : Arrivals} {whole : Option PackIndex}
    (wholeRead : store.readAlone wholeArrivals .everything = .ok whole)
    (arrivals : KeyRange → Arrivals) (segments : Finset ℕ) :
    imagesIn store arrivals segments = (heldImages segments whole).mapM decodeImage := by
  have reads : ∀ band, ∃ part, band ∈ bands store.entries →
      store.readAlone (arrivals band) band = .ok part ∧ ∀ key, part.bind (·.get key) =
        if band.contains key = true then whole.bind (·.get key) else none := by
    intro band
    by_cases isBand : band ∈ bands store.entries
    · rcases readAlone_band catalogued wholeRead isBand (arrivals band) with ⟨part, isPart⟩
      exact ⟨part, fun _ => isPart⟩
    · exact ⟨none, fun there => absurd there isBand⟩
  choose parts areParts using reads
  rw [← flatMap_heldImages segments (fun key node => band_of_read catalogued wholeRead)
    fun band isBand => (areParts band isBand).2, ← Except.mapM_flatMap, imagesIn]
  refine congrArg (· >>= fun found => pure found.flatten) (Except.mapM_congr fun band isBand => ?_)
  rw [(areParts band isBand).1]
  rfl

/-! ## Recording the copies -/

def cutRuns : List (ℕ × Pack) → List (ℕ × Pack) → List (List (ℕ × Pack))
  | run, [] => if run.isEmpty then [] else [run]
  | run, image :: images =>
    if run.getLast?.any fun last => RELOCATIONGAP < image.1 - last.1 then
      run :: cutRuns [image] images
    else cutRuns (run ++ [image]) images

def runs (ordered : List (ℕ × Pack)) : List (List (ℕ × Pack)) :=
  cutRuns [] ordered

def runSegment (run : List (ℕ × Pack)) : Except Malformed PackIndex := do
  let builder ← run.foldlM (fun builder image => builder.insert image.1 image.2) PackBuilder.new
  return builder.build

/-- The segments that record where images were copied to; one without keys is not written. -/
def relocateImages (moved : List (ℕ × Pack)) : Except Malformed (List PackIndex) := do
  let ordered := moved.insertionSort fun earlier later => earlier.1 ≤ later.1
  let segments ← (runs ordered).mapM runSegment
  return segments.filter fun segment => (Segment.range segment).isSome

def packNode (pack : Pack) : Except Malformed PackNode := do
  let trees ← PackBuilder.serialize pack.trees
  let blobs ← PackBuilder.serialize pack.blobs
  return { entryLen := pack.entryLen, blobOffset := pack.blobOffset, segmentId := pack.segment.id
           baseOffset := pack.segment.baseOffset, imageLen := pack.segment.imageLen, trees, blobs }

theorem insert_eq (builder : PackBuilder) (seq : ℕ) (pack : Pack) :
    builder.insert seq pack =
      (packNode pack).map fun node => ⟨builder.packs.insert seq node⟩ := by
  rw [PackBuilder.insert, packNode]
  cases PackBuilder.serialize pack.trees with
  | error failure => rfl
  | ok trees => cases PackBuilder.serialize pack.blobs <;> rfl

variable {node : PackNode} {run moved : List (ℕ × Pack)}

theorem segmentId_packNode {pack : Pack} (isNode : packNode pack = .ok node) :
    node.segmentId = pack.segment.id := by
  simp only [packNode, Except.bind_eq_ok_iff, Except.pure_eq_ok_iff] at isNode
  rcases isNode with ⟨_, -, _, -, rfl⟩
  rfl

omit [Roaring] in
theorem cutRuns_flatten (run images : List (ℕ × Pack)) :
    (cutRuns run images).flatten = run ++ images := by
  induction images generalizing run with
  | nil =>
    rw [cutRuns, append_nil]
    split_ifs with none_
    · rw [List.isEmpty_iff.mp none_]
      rfl
    · exact flatten_singleton
  | cons image images ih =>
    rw [cutRuns]
    split_ifs
    · rw [flatten_cons, ih, singleton_append]
    · rw [ih, append_assoc, singleton_append]

theorem foldlM_insert {builder : PackBuilder} (distinct : (run.map Prod.fst).Nodup)
    (serializes : ∀ image ∈ run, ∃ node, packNode image.2 = .ok node) :
    ∃ built, run.foldlM (fun builder image => builder.insert image.1 image.2) builder = .ok built ∧
      (∀ image ∈ run, ∀ node, packNode image.2 = .ok node → built.packs[image.1]? = some node) ∧
        ∀ seq ∉ run.map Prod.fst, built.packs[seq]? = builder.packs[seq]? := by
  induction run generalizing builder with
  | nil => exact ⟨builder, rfl, forall_mem_nil _, fun _ _ => rfl⟩
  | cons image run ih =>
    rw [map_cons, nodup_cons] at distinct
    rw [forall_mem_cons] at serializes
    rcases serializes.1 with ⟨node, isNode⟩
    rcases @ih ⟨builder.packs.insert image.1 node⟩ distinct.2 serializes.2 with
      ⟨built, isBuilt, placed, kept⟩
    refine ⟨built, ?_, forall_mem_cons.mpr ⟨fun other isOther => ?_, placed⟩,
      fun seq absent => ?_⟩
    · rw [foldlM_cons, insert_eq, isNode]
      exact isBuilt
    · rw [isNode] at isOther
      cases isOther
      rw [kept _ distinct.1, Std.TreeMap.getElem?_insert_self]
    · rw [map_cons, mem_cons, not_or] at absent
      rw [kept seq absent.2, Std.TreeMap.getElem?_insert, if_neg]
      rw [Nat.compare_eq_eq]
      exact Ne.symm absent.1

theorem runSegment_spec (distinct : (run.map Prod.fst).Nodup)
    (serializes : ∀ image ∈ run, ∃ node, packNode image.2 = .ok node) :
    ∃ segment, runSegment run = .ok segment ∧
      (∀ image ∈ run, ∀ node, packNode image.2 = .ok node → segment.get image.1 = some node) ∧
        ∀ seq ∉ run.map Prod.fst, segment.get seq = none := by
  rcases @foldlM_insert _ run .new distinct serializes with ⟨built, isBuilt, placed, kept⟩
  refine ⟨built.build, ?_, fun image listed node isNode => ?_, fun seq absent => ?_⟩
  · rw [runSegment, isBuilt]
    rfl
  · exact (Strided.get_laidOut _ _).trans (placed image listed node isNode)
  · refine (Strided.get_laidOut _ _).trans ((kept seq absent).trans ?_)
    exact Std.TreeMap.getElem?_emptyc

omit [Roaring] in
theorem range_isSome {segment : PackIndex} {seq : ℕ} (found : segment.get seq = some node)
    (named : ∀ key, segment.get key ≠ none → key ≤ max64) :
    (Segment.range segment).isSome = true := by
  rcases Strided.le_last_of_get found with ⟨last, isLast, starts, ends⟩
  have lastHeld : segment.get last ≠ none := by
    rw [Strided.last, Option.map_eq_some_iff] at isLast
    rcases isLast with ⟨position, isPosition, rfl⟩
    rcases exists_of_rposition isPosition with ⟨slot, isSlot, isSome⟩
    rcases Option.isSome_iff_exists.mp isSome with ⟨held, rfl⟩
    rw [PackIndex.get, Strided.get_add segment.nodes.first, isSlot]
    exact Option.some_ne_none held
  have isNew : KeyRange.new segment.nodes.first last =
      some ⟨segment.nodes.first, last, starts.trans ends, named last lastHeld⟩ :=
    KeyRange.new_eq_some_iff.mpr ⟨rfl, rfl⟩
  have isRange : Segment.range segment = segment.nodes.last.bind (KeyRange.new segment.nodes.first) :=
    rfl
  rw [isRange, isLast, Option.bind_some, isNew]
  rfl

theorem runSegment_of_moved (distinct : (moved.map Prod.fst).Nodup)
    (serializes : ∀ image ∈ moved, ∃ node, packNode image.2 = .ok node)
    (areMoved : ∀ image ∈ run, image ∈ moved) (distinctRun : (run.map Prod.fst).Nodup) :
    ∃ segment, runSegment run = .ok segment ∧
      (∀ image ∈ moved, ∀ node, packNode image.2 = .ok node →
        segment.get image.1 = if image.1 ∈ run.map Prod.fst then some node else none) ∧
      ∀ seq ∉ moved.map Prod.fst, segment.get seq = none := by
  rcases runSegment_spec distinctRun fun image inRun => serializes image (areMoved image inRun) with
    ⟨segment, isSegment, placed, absent⟩
  refine ⟨segment, isSegment, fun image listed node isNode => ?_, fun seq notMoved => ?_⟩
  · split_ifs with inRun
    · rcases mem_map.mp inRun with ⟨other, otherRun, same⟩
      rw [inj_on_of_nodup_map distinct (areMoved other otherRun) listed same] at otherRun
      exact placed image otherRun node isNode
    · exact absent _ inRun
  · refine absent seq fun there => notMoved ?_
    rcases mem_map.mp there with ⟨image, inRun, rfl⟩
    exact mem_map_of_mem (areMoved image inRun)

/-- What is written for images, one for each commit: at the commit of an image some segment holds
it, and any that holds something there holds it, and no other commit is in a segment. -/
theorem relocateImages_spec (distinct : (moved.map Prod.fst).Nodup)
    (named : ∀ image ∈ moved, image.1 ≤ max64)
    (serializes : ∀ image ∈ moved, ∃ node, packNode image.2 = .ok node) :
    ∃ written, relocateImages moved = .ok written ∧
      (∀ image ∈ moved, ∀ node, packNode image.2 = .ok node →
        (∃ segment ∈ written, segment.get image.1 = some node) ∧
          ∀ segment ∈ written, segment.get image.1 = none ∨ segment.get image.1 = some node) ∧
      ∀ seq ∉ moved.map Prod.fst, ∀ segment ∈ written, segment.get seq = none := by
  generalize isOrdered : moved.insertionSort (fun earlier later => earlier.1 ≤ later.1) = ordered
  have perm : ordered.Perm moved := isOrdered ▸ perm_insertionSort _ moved
  have flat : (runs ordered).flatten = ordered := cutRuns_flatten [] ordered
  have records : ∀ run ∈ runs ordered, ∃ segment, runSegment run = .ok segment ∧
      (∀ image ∈ moved, ∀ node, packNode image.2 = .ok node →
        segment.get image.1 = if image.1 ∈ run.map Prod.fst then some node else none) ∧
      ∀ seq ∉ moved.map Prod.fst, segment.get seq = none := by
    intro run isRun
    have all : (ordered.map Prod.fst).Nodup := ((perm.map Prod.fst).nodup_iff).mpr distinct
    rw [← flat] at all
    exact runSegment_of_moved distinct serializes
      (fun image inRun => perm.mem_iff.mp (flat ▸ mem_flatten_of_mem isRun inRun))
      (((sublist_flatten_of_mem isRun).map Prod.fst).nodup all)
  rcases Except.mapM_isOk fun run isRun => (records run isRun).imp fun _ => And.left with
    ⟨segments, mapped⟩
  have ofRun : ∀ segment ∈ segments, ∃ run, runSegment run = .ok segment ∧ run ∈ runs ordered :=
    fun segment listed => ((Except.mem_of_mapM mapped).mp listed).imp fun _ => And.symm
  refine ⟨segments.filter fun segment => (Segment.range segment).isSome, ?_,
    fun image listed node isNode => ⟨?_, fun segment kept => ?_⟩, fun seq notMoved segment kept => ?_⟩
  · rw [relocateImages, isOrdered, mapped]
    rfl
  · obtain ⟨run, isRun, inRun⟩ : ∃ run ∈ runs ordered, image ∈ run :=
      mem_flatten.mp (by rw [flat]; exact perm.mem_iff.mpr listed)
    rcases records run isRun with ⟨segment, isSegment, placed, absent⟩
    have found : segment.get image.1 = some node := by
      rw [placed image listed node isNode, if_pos (mem_map_of_mem inRun)]
    have isMade : segment ∈ segments := (Except.mem_of_mapM mapped).mpr ⟨run, isRun, isSegment⟩
    refine ⟨segment, mem_filter.mpr ⟨isMade, range_isSome found fun key held => ?_⟩, found⟩
    by_contra large
    refine held (absent key fun there => large ?_)
    rcases mem_map.mp there with ⟨other, isOther, rfl⟩
    exact named other isOther
  · rcases ofRun segment (mem_of_mem_filter kept) with ⟨run, isSegment, isRun⟩
    rcases records run isRun with ⟨other, isOther, placed, -⟩
    cases isSegment.symm.trans isOther
    rw [placed image listed node isNode]
    split_ifs
    · exact Or.inr rfl
    · exact Or.inl rfl
  · rcases ofRun segment (mem_of_mem_filter kept) with ⟨run, isSegment, isRun⟩
    rcases records run isRun with ⟨other, isOther, -, absent⟩
    cases isSegment.symm.trans isOther
    exact absent seq notMoved

omit [Roaring] in
theorem lt_of_segmentId_lt {other : PackNode} (newer : node.segmentId < other.segmentId) :
    node < other := by
  change node.key < other.key
  rw [PackNode.key, PackNode.key, Prod.Lex.toLex_lt_toLex]
  exact Or.inl (List.Lex.rel newer)

/-- The images that were moved are at their commits, whatever is merged with whatever, and nothing
else has changed. -/
theorem relocated {old written after : List PackIndex} (distinct : (moved.map Prod.fst).Nodup)
    (named : ∀ image ∈ moved, image.1 ≤ max64)
    (serializes : ∀ image ∈ moved, ∃ node, packNode image.2 = .ok node)
    (isWritten : relocateImages moved = .ok written)
    (newer : ∀ image ∈ moved, ∀ node, (compose old).bind (·.get image.1) = some node →
      node.segmentId < image.2.segment.id) (merges : Merges (old ++ written) after) :
    (∀ image ∈ moved, ∀ node, packNode image.2 = .ok node →
      (compose after).bind (·.get image.1) = some node) ∧
    ∀ seq ∉ moved.map Prod.fst,
      (compose after).bind (·.get seq) = (compose old).bind (·.get seq) := by
  have composed : ∀ (values : List PackIndex) (seq : ℕ), (compose values).bind (·.get seq) =
      merged max (values.map (·.get seq)) :=
    fun values => PackIndex.pointwise.lookup_compose (fun _ _ => trivial) (by simp)
  have together : ∀ seq, (compose after).bind (·.get seq) = Option.merge max
      ((compose old).bind (·.get seq)) (merged max (written.map (·.get seq))) := by
    intro seq
    rw [PackIndex.pointwise.lookup_merges merges, composed, map_append, merged_append, composed]
  rcases relocateImages_spec distinct named serializes with ⟨other, isOther, holds, absent⟩
  cases isWritten.symm.trans isOther
  refine ⟨fun image listed node isNode => ?_, fun seq notMoved => ?_⟩
  · rcases holds image listed node isNode with ⟨⟨segment, isSegment, found⟩, alike⟩
    have isNew : merged max (written.map (·.get image.1)) = some node := by
      refine merged_eq_some ?_ (mem_map.mpr ⟨segment, isSegment, found⟩)
      intro value isValue
      rcases mem_map.mp isValue with ⟨holder, isHolder, rfl⟩
      exact alike holder isHolder
    rw [together, isNew]
    rcases isOld : (compose old).bind (·.get image.1) with _ | held
    · exact Option.merge_none_left
    · have less := newer image listed held isOld
      rw [← segmentId_packNode isNode] at less
      rw [Option.merge_some_some, max_eq_right (lt_of_segmentId_lt less).le]
  · rw [together, ← @merged_filter _ _ max written (·.get seq) (fun _ => false)
      fun segment listed _ => absent seq notMoved segment listed, filter_false]
    exact Option.merge_none_right

/-- A gather sees each image it has to move once. The bands it scans are in order and apart, and
every range of the catalog is inside one of them. Band by band it finds what the index, composed
from all segments whole, has in the given segments, each commit once. Recording the copies of some
images, in segments newer than where they were, changes the commits of those images and no other,
whatever is merged afterwards. -/
theorem gather_exact :
    (∀ entries : List Lattice.Entry,
      (bands entries).Pairwise (fun earlier later => earlier.last < later.first) ∧
        ∀ entry ∈ entries, ∃! band, band ∈ bands entries ∧ band.first ≤ entry.range.first ∧
          entry.range.last ≤ band.last) ∧
    (∀ (store : Store PackIndex) (wholeArrivals : Arrivals) (whole : Option PackIndex),
      (store.Catalogued fun _ => True) →
      store.readAlone wholeArrivals .everything = .ok whole →
      ∀ (arrivals : KeyRange → Arrivals) (segments : Finset ℕ),
        imagesIn store arrivals segments = (heldImages segments whole).mapM decodeImage ∧
          (heldImages segments whole).Pairwise (fun entry next => entry.1 < next.1) ∧
          ∀ seq node, (seq, node) ∈ heldImages segments whole ↔
            whole.bind (·.get seq) = some node ∧ node.segmentId ∈ segments) ∧
    ∀ (old : List PackIndex) (moved : List (ℕ × Pack)), (moved.map Prod.fst).Nodup →
      (∀ image ∈ moved, image.1 ≤ max64) →
      (∀ image ∈ moved, ∃ node, packNode image.2 = .ok node) →
      (∀ image ∈ moved, ∀ node, (compose old).bind (·.get image.1) = some node →
        node.segmentId < image.2.segment.id) →
      ∃ written, relocateImages moved = .ok written ∧
        ∀ after, Merges (old ++ written) after →
          (∀ image ∈ moved, ∀ node, packNode image.2 = .ok node →
            (compose after).bind (·.get image.1) = some node) ∧
          ∀ seq ∉ moved.map Prod.fst,
            (compose after).bind (·.get seq) = (compose old).bind (·.get seq) := by
  refine ⟨fun entries => ⟨bands_apart entries, fun entry listed => ?_⟩,
    fun store wholeArrivals whole catalogued wholeRead arrivals segments =>
      ⟨imagesIn_eq catalogued wholeRead arrivals segments, heldImages_ascending segments whole,
        fun seq node => mem_heldImages⟩,
    fun old moved distinct named serializes newer => ?_⟩
  · rcases exists_band listed with ⟨band, isBand, starts, ends⟩
    refine ⟨band, ⟨isBand, starts, ends⟩, fun other isOther => ?_⟩
    have ordered := entry.range.ordered
    refine @band_unique _ entry.range.first _ _ isOther.1 isBand ?_ ?_
    · exact KeyRange.contains_iff.mpr ⟨isOther.2.1, ordered.trans isOther.2.2⟩
    · exact KeyRange.contains_iff.mpr ⟨starts, ordered.trans ends⟩
  · rcases relocateImages_spec distinct named serializes with ⟨written, isWritten, -⟩
    exact ⟨written, isWritten, fun after => relocated distinct named serializes isWritten newer⟩

end Scan

end Enroute.Stored
