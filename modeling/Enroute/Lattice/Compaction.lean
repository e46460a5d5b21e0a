import Enroute.Lattice.Keeping
import Enroute.Lib.Except

/-!
# Compaction loses nothing

Every writer and every compaction pass keeps the protocol of its scope, whatever the others do
between its steps and wherever it stops. So in every state any number of them can reach together,
the rows decode, they compose to what the inserted values compose to, and every row in the bucket
names an object that is there.
-/

namespace Enroute.Lattice

open Atomic Join List Protocol

variable {S : Type} [Segment S] {names : ℕ → SegmentId} {window : Option ℕ} {lawful : Prop}
  {policy : Policy}

/-! ## Putting a segment -/

def objectOf (row : Written) (value : S) : Option Bytes :=
  match row.body with
  | .inline _ => none
  | .bucket _ => some (Segment.encoded value)

def PutAs (value : S) (mine : Option Flight) (row : Written) : Prop :=
  mine = some ⟨row.id, objectOf row value⟩ ∧ row.Holds value

variable {mine : Option Flight} {row : Written} {value : S} {store since : Store S} {one : Listed}
  {ids : List SegmentId}

theorem PutAs.holds (isPut : PutAs value mine row) :
    row.body = .inline (Segment.encoded value) ∨
      row.body = .bucket row.id ∧ objectOf row value = some (Segment.encoded value) := by
  rcases isPut.2 with inline | inBucket
  · exact Or.inl inline
  · exact Or.inr ⟨inBucket, by rw [objectOf, inBucket]⟩

theorem encodes_objectOf : ∀ bytes ∈ objectOf row value, bytes = Segment.encoded value := by
  intro bytes isObject
  rw [objectOf] at isObject
  split at isObject
  · cases isObject
  · exact (Option.some.inj isObject).symm

theorem fresh_spec (distinct : Function.Injective names) :
    (keeping S names window lawful).SpecOk
      (fun then_ after id => Store.Later store after ∧ then_ = some ⟨id, none⟩) none store
      (fresh names) := by
  refine specOk_act fun now later good => ⟨_, keeps_fresh distinct good, ?_⟩
  rintro _ ⟨⟩
  exact ⟨later.trans (keeps_fresh distinct good).later, rfl⟩

theorem upload_spec (id : SegmentId) (bytes : Bytes) :
    (keeping S names window lawful).SpecOk
      (fun then_ after _ => Store.Later store after ∧ then_ = some ⟨id, some bytes⟩)
      (some ⟨id, none⟩) store (upload id bytes) := by
  refine specOk_act fun now later good => ⟨_, keeps_upload good, ?_⟩
  rintro _ ⟨⟩
  exact ⟨later.trans (keeps_upload good).later, rfl⟩

theorem view_spec {α : Type} (look : Store S → α) :
    (keeping S names window lawful).SpecOk
      (fun then_ after result => mine = then_ ∧ Store.Later store after ∧
        after.Kept names window lawful ∧ look after = result) mine store (view look) :=
  specOk_read fun _ _ later good isResult => ⟨rfl, later, good.1, Except.ok.inj isResult⟩

theorem put_spec (distinct : Function.Injective names) (range : KeyRange) (tier : Tier) (value : S) :
    (keeping S names window lawful).SpecOk
      (fun then_ after row => Store.Later store after ∧ PutAs value then_ row) none store
      (put names policy range tier value) := by
  refine (fresh_spec distinct).bind ?_
  rintro _ drawn id ⟨later, rfl⟩
  dsimp only
  split
  · exact specOk_pure ⟨later, rfl, Or.inl rfl⟩
  · refine (upload_spec id _).bind ?_
    rintro _ after _ ⟨laterStill, rfl⟩
    exact specOk_pure ⟨later.trans laterStill, rfl, Or.inr rfl⟩

theorem land_spec {object : Option Bytes} {inputs : List SegmentId} {inserted : Bool}
    (lands : ∀ now, Store.Later store now → now.Kept names window lawful →
      Lands lawful now object inputs row value inserted) :
    (keeping S names window lawful).SpecOk
      (fun then_ after _ => then_ = none ∧ ∃ now, Store.Later store now ∧
        ¬now.Recorded row.id ∧ after = now.land inputs row value inserted)
      (some ⟨row.id, object⟩) store (change fun now => now.land inputs row value inserted) :=
  specOk_act fun now later good => ⟨none, keeps_land good (lands now later good.1),
    fun _ _ => ⟨rfl, now, later, (good.2 _ rfl).unrecorded, rfl⟩⟩

/-! ## Writing -/

theorem prepare_spec (distinct : Function.Injective names) (value : S) :
    (keeping S names window lawful).SpecOk
      (fun then_ _ prepared => ∀ row ∈ prepared, PutAs value then_ row) none store
      (prepare names policy value) := by
  rw [prepare]
  cases Segment.range value with
  | none => exact specOk_pure nofun
  | some range =>
    refine (put_spec distinct range 0 value).bind fun then_ after row isPut => specOk_pure ?_
    rintro _ ⟨⟩
    exact isPut.2

theorem write_spec (distinct : Function.Injective names) (value : S) :
    (keeping S names window lawful).SpecOk (fun _ _ _ => True) none store (write names policy value) := by
  refine (prepare_spec distinct value).bind ?_
  rintro then_ after (_ | row) isPut
  · exact specOk_pure trivial
  · obtain ⟨rfl, holds⟩ := isPut row rfl
    dsimp only
    simp only [Store.insert_eq_land]
    refine (land_spec fun now later kept => ?_).bind fun _ _ _ _ => specOk_pure trivial
    exact ⟨(isPut row rfl).holds, encodes_objectOf, fun _ _ _ _ _ isInput => (nomatch isInput),
      Or.inl rfl⟩

/-! ## One merge -/

/-- A listed segment was recorded, and its body is the encoding of its value or its name. -/
def Listed.From (store : Store S) (one : Listed) : Prop :=
  ∃ landing ∈ store.landed, landing.id = one.entry.id ∧
    (one.body = .inline (Segment.encoded landing.value) ∨ one.body = .bucket one.entry.id)

theorem decodeOne_spec (laws : lawful → Segment.Laws S) (later : Store.Later since store)
    (from_ : one.From since) :
    (keeping S names window lawful).SpecOk
      (fun then_ after value => mine = then_ ∧ Store.Later store after ∧ (lawful →
        ∃ landing ∈ since.landed, landing.id = one.entry.id ∧ landing.value = value)) mine store
      (decodeOne .everything one) := by
  rcases from_ with ⟨landing, landed, same, body⟩
  have read : (keeping S names window lawful).SpecOk (fun then_ after bytes => mine = then_ ∧
      Store.Later store after ∧ bytes = Segment.encoded landing.value) mine store (bytesOf one) := by
    rw [bytesOf]
    rcases body with inline | inBucket
    · rw [inline]
      exact specOk_pure ⟨rfl, Store.Later.refl _, rfl⟩
    · rw [inBucket]
      refine specOk_read fun now bytes laterStill good found => ⟨rfl, laterStill, ?_⟩
      split at found
      next held isHeld =>
        cases found
        have stillLanded := (later.trans laterStill).mem_landed landed
        exact good.1.contents landing stillLanded bytes (by rw [same]; exact isHeld)
      next => cases found
  refine read.bind ?_
  rintro _ after _ ⟨rfl, laterStill, rfl⟩
  refine specOk_check fun value isValue => ⟨rfl, laterStill, fun isLawful =>
    ⟨landing, landed, same, ?_⟩⟩
  have decoded : Segment.decodeRange (Segment.encoded landing.value) .everything =
      .ok landing.value := (laws isLawful).decode_encoded landing.value
  rw [decoded] at isValue
  exact Except.ok.inj isValue

theorem discard_spec (stuck : SegmentId → Bool) {paths : List SegmentId}
    (gone : ∀ path ∈ paths, store.Recorded path ∧ ¬store.Lists path) :
    (keeping S names window lawful).SpecOk (fun then_ after _ => none = then_ ∧ Store.Later store after)
      none store (discard stuck paths) := by
  induction paths generalizing store with
  | nil => exact specOk_pure ⟨rfl, Store.Later.refl _⟩
  | cons path paths ih =>
    rw [discard]
    split
    · refine (ih fun other listed => gone other (mem_cons_of_mem _ listed)).bind ?_
      rintro _ after _ ⟨rfl, later⟩
      exact specOk_pure ⟨rfl, later⟩
    · rcases gone path mem_cons_self with ⟨was, unlisted⟩
      have deleted : (keeping S names window lawful).SpecOk
          (fun then_ after _ => none = then_ ∧ Store.Later store after) none store
          (change fun now => { now with bucket := now.bucket.erase path }) := by
        refine specOk_act fun now later good => ⟨none, ?_, ?_⟩
        · have erased := @keeps_erase S _ names window lawful now path [] good
            (fun _ => later.not_lists was unlisted) (Or.inl (later.recorded was)) nofun
          rwa [append_nil] at erased
        · exact fun _ _ => ⟨rfl, later.drawn, later.clock, later.landed, later.rows⟩
      refine deleted.bind ?_
      rintro _ after _ ⟨rfl, later⟩
      refine (ih fun other listed => ?_).mono ?_
      · rcases gone other (mem_cons_of_mem _ listed) with ⟨otherWas, otherUnlisted⟩
        exact ⟨later.recorded otherWas, later.not_lists otherWas otherUnlisted⟩
      · rintro _ last _ ⟨rfl, laterStill⟩
        exact ⟨rfl, later.trans laterStill⟩

omit [Segment S] in
theorem mem_bodies :
    one ∈ store.bodies ids ↔ ∃ row ∈ store.rows, row.id ∈ ids ∧ row.listed = one := by
  simp only [Store.bodies, mem_map, mem_filter, decide_eq_true_eq, and_assoc]

theorem mem_bucketKeys {listed : List Listed} {path : SegmentId} :
    path ∈ bucketKeys listed ↔ ∃ one ∈ listed, one.body = .bucket path := by
  simp only [bucketKeys, mem_filterMap]
  refine exists_congr fun one => and_congr_right fun _ => ?_
  cases one.body <;> simp

theorem Store.Kept.from_bodies (kept : store.Kept names window lawful)
    (listed : one ∈ store.bodies ids) : one.From store := by
  rcases mem_bodies.mp listed with ⟨row, there, -, rfl⟩
  rcases kept.recorded row there with ⟨landing, landed, same, holds⟩
  exact ⟨landing, landed, same, holds⟩

theorem Store.Kept.of_mem_bucketKeys (kept : store.Kept names window lawful) {path : SegmentId}
    (isPath : path ∈ bucketKeys (store.bodies ids)) : path ∈ ids ∧ store.Recorded path := by
  rcases mem_bucketKeys.mp isPath with ⟨one, listed, inBucket⟩
  rcases mem_bodies.mp listed with ⟨row, there, isInput, rfl⟩
  obtain rfl := kept.id_of_bucket there inBucket
  rcases kept.recorded row there with ⟨landing, landed, same, -⟩
  exact ⟨isInput, landing, landed, same⟩

structure Gathered (store : Store S) (ids : List SegmentId) (values : List S) (value : S) : Prop where
  composed : compose values = some value
  all : ∀ row ∈ store.rows, row.id ∈ ids →
    ∃ landing ∈ store.landed, landing.id = row.id ∧ landing.value ∈ values
  only : ∀ value ∈ values, ∃ landing ∈ store.landed, landing.value = value

/-- However late the output of a merge lands, every row it drops went into it: a row that is still
there was there when the inputs were read. -/
theorem lands_of_gathered (laws : lawful → Segment.Laws S) {now : Store S} {values : List S}
    (gathered : lawful → Gathered since ids values value) (recorded : ∀ id ∈ ids, since.Recorded id)
    (later : Store.Later since now) (kept : now.Kept names window lawful)
    (isPut : PutAs value mine row) : Lands lawful now (objectOf row value) ids row value false := by
  refine ⟨isPut.holds, encodes_objectOf, ?_, Or.inr fun isLawful whole covered => ?_⟩
  · rintro isLawful whole covered landing landed isInput ⟨old, there, same⟩
    have wasThere : old ∈ since.rows := (later.rows old there).resolve_right
      fun unrecorded => unrecorded (same ▸ recorded _ isInput)
    rcases (gathered isLawful).all old wasThere (same ▸ isInput) with ⟨read, wasLanded, sameRead, isValue⟩
    have sameLanding : read = landing := inj_on_of_nodup_map kept.once
      (later.mem_landed wasLanded) landed (sameRead.trans same)
    exact ((laws isLawful).covers_compose_iff (gathered isLawful).composed).mp covered _
      (sameLanding ▸ isValue)
  · refine ((laws isLawful).covers_compose_iff (gathered isLawful).composed).mpr
      fun value isValue => ?_
    rcases (gathered isLawful).only value isValue with ⟨landing, wasLanded, rfl⟩
    exact covered landing (later.mem_landed wasLanded)

theorem gathered_of_decoded {arrivals : Arrivals} {values : List S}
    (composed : compose values = some value)
    (decoded : List.Forall₂ (fun one value => ∃ landing ∈ since.landed,
      landing.id = one.entry.id ∧ landing.value = value) (arrivals.order (since.bodies ids)) values) :
    Gathered since ids values value where
  composed := composed
  all := fun row there isInput => by
    have listed : row.listed ∈ arrivals.order (since.bodies ids) :=
      (arrivals.perm _).mem_iff.mpr (mem_bodies.mpr ⟨row, there, isInput, rfl⟩)
    rcases mem_iff_getElem.mp listed with ⟨place, small, atPlace⟩
    have smallToo : place < values.length := decoded.length_eq ▸ small
    rcases (forall₂_iff_get.mp decoded).2 place small smallToo with
      ⟨landing, landed, same, isValue⟩
    refine ⟨landing, landed, ?_, isValue ▸ getElem_mem smallToo⟩
    rw [same]
    exact congrArg (fun one : Listed => one.entry.id) atPlace
  only := fun value isValue => by
    rcases mem_iff_getElem.mp isValue with ⟨place, small, rfl⟩
    have smallToo : place < (arrivals.order (since.bodies ids)).length :=
      decoded.length_eq ▸ small
    rcases (forall₂_iff_get.mp decoded).2 place smallToo small with
      ⟨landing, landed, -, isValue⟩
    exact ⟨landing, landed, isValue⟩

theorem runMerge_spec (laws : lawful → Segment.Laws S) (distinct : Function.Injective names)
    {entries : List Entry} (recorded : ∀ entry ∈ entries, store.Recorded entry.id)
    (arrivals : Arrivals) (stuck : SegmentId → Bool) (report : Report) (merge : Merge) :
    (keeping S names window lawful).SpecOk (fun then_ after _ => none = then_ ∧ Store.Later store after)
      none store (runMerge names policy arrivals stuck entries report merge) := by
  have ids : ∀ id ∈ (merge.inputs.filterMap (entries[·]?)).map Entry.id, store.Recorded id := by
    intro id listed
    rcases mem_map.mp listed with ⟨entry, isInput, rfl⟩
    rcases mem_filterMap.mp isInput with ⟨place, -, atPlace⟩
    exact recorded entry (List.mem_of_getElem? atPlace)
  rw [runMerge]
  generalize (merge.inputs.filterMap (entries[·]?)).map Entry.id = inputs at ids ⊢
  dsimp only
  split
  · exact specOk_pure ⟨rfl, Store.Later.refl _⟩
  refine (view_spec _).bind ?_
  rintro _ read _ ⟨rfl, laterRead, keptRead, rfl⟩
  have readIds : ∀ id ∈ inputs, read.Recorded id := fun id listed => laterRead.recorded (ids id listed)
  have decode : (keeping S names window lawful).SpecOk
      (fun then_ after values => none = then_ ∧ Store.Later read after ∧
        List.Forall₂ (fun one value => lawful → ∃ landing ∈ read.landed,
          landing.id = one.entry.id ∧ landing.value = value)
          (arrivals.order (read.bodies inputs)) values) none read
      (decodeNarrowed arrivals (read.bodies inputs) .everything) :=
    specOk_mapM fun one listed now later => decodeOne_spec laws later
      (keptRead.from_bodies ((arrivals.perm _).mem_iff.mp listed))
  refine decode.bind ?_
  rintro _ decoded values ⟨rfl, laterDecoded, isDecoded⟩
  cases composed : compose values with
  | none => exact specOk_pure ⟨rfl, laterRead.trans laterDecoded⟩
  | some value =>
    have gathered : lawful → Gathered read inputs values value := fun isLawful =>
      gathered_of_decoded composed (isDecoded.imp fun _ _ found => found isLawful)
    refine (put_spec distinct _ _ value).bind ?_
    rintro _ puts row ⟨laterPut, isPut⟩
    obtain ⟨rfl, holds⟩ := id isPut
    have lands : ∀ now, Store.Later puts now → now.Kept names window lawful →
        Lands lawful now (objectOf row value) inputs row value false := fun now later kept =>
      lands_of_gathered laws gathered readIds ((laterDecoded.trans laterPut).trans later) kept isPut
    refine (land_spec lands).bind ?_
    rintro _ _ _ ⟨rfl, now, later, unrecorded, rfl⟩
    have laterNow := (laterDecoded.trans laterPut).trans later
    have laterLanded : Store.Later read (now.land inputs row value false) :=
      laterNow.trans (Store.later_land unrecorded)
    refine (discard_spec stuck fun path isPath => ?_).bind ?_
    · have was := (keptRead.of_mem_bucketKeys isPath).2
      have isInput := (keptRead.of_mem_bucketKeys isPath).1
      refine ⟨laterLanded.recorded was, fun there => ?_⟩
      rcases Store.lists_land.mp there with ⟨-, notInput⟩ | rfl
      · exact notInput isInput
      · exact unrecorded (laterNow.recorded was)
    · rintro _ after _ ⟨rfl, laterStill⟩
      exact specOk_pure ⟨rfl, laterRead.trans (laterLanded.trans laterStill)⟩

theorem compact_spec (laws : lawful → Segment.Laws S) (distinct : Function.Injective names)
    (arrivals : Arrivals) (stuck : SegmentId → Bool) :
    (keeping S names window lawful).SpecOk (fun _ _ _ => True) none store
      (compact names policy arrivals stuck) := by
  refine (view_spec _).bind ?_
  rintro _ read _ ⟨rfl, later, kept, rfl⟩
  have recorded : ∀ entry ∈ read.entries, read.Recorded entry.id := by
    intro entry listed
    rcases mem_map.mp listed with ⟨row, there, rfl⟩
    rcases kept.recorded row there with ⟨landing, landed, same, -⟩
    exact ⟨landing, landed, same⟩
  refine (specOk_foldlM (fun merge _ now report laterStill => ?_) _).mono fun _ _ _ _ => trivial
  exact runMerge_spec laws distinct (fun entry listed => laterStill.recorded (recorded entry listed))
    arrivals stuck report merge

/-! ## Whole runs -/

def Store.decodeRow (store : Store S) (row : Written) : Except Error S :=
  match row.body with
  | .inline bytes => (Segment.decode bytes).mapError (.corrupt row.id)
  | .bucket path =>
    match store.bucket.lookup path with
    | none => .error (.bucket row.id)
    | some bytes => (Segment.decode bytes).mapError (.corrupt row.id)

theorem Store.kept_empty (clock : ℕ) : (Store.empty clock : Store S).Kept names window lawful := by
  refine ⟨nodup_nil, nodup_nil, nofun, ?_, nofun, nofun, fun _ _ => nofun,
    fun _ _ => nofun, fun _ => nofun, fun _ => nofun⟩
  rintro id ⟨_, landed, -⟩
  cases landed

theorem Store.Kept.decodeRow_eq (laws : Segment.Laws S) (kept : store.Kept names window lawful)
    (punctual : store.Punctual window) (there : row ∈ store.rows) :
    ∃ landing ∈ store.landed, landing.id = row.id ∧
      store.decodeRow row = .ok landing.value := by
  rcases kept.recorded row there with ⟨landing, landed, same, inline | inBucket⟩
  · refine ⟨landing, landed, same, ?_⟩
    simp only [Store.decodeRow, inline, laws.decode_encoded]
    rfl
  · rcases Option.isSome_iff_exists.mp
      (AList.lookup_isSome.mpr (kept.present punctual row there inBucket)) with ⟨bytes, found⟩
    have encodes := kept.contents landing landed bytes (by rw [same]; exact found)
    refine ⟨landing, landed, same, ?_⟩
    simp only [Store.decodeRow, inBucket, found, encodes, laws.decode_encoded]
    rfl

theorem Store.Kept.compose_eq (laws : Segment.Laws S) (kept : store.Kept names window True)
    (punctual : store.Punctual window) :
    ∃ values, store.rows.mapM store.decodeRow = .ok values ∧
      compose values = compose store.inserted := by
  have decodes : ∀ row ∈ store.rows, ∃ value, store.decodeRow row = .ok value := by
    intro row there
    rcases kept.decodeRow_eq laws punctual there with ⟨landing, -, -, decoded⟩
    exact ⟨landing.value, decoded⟩
  rcases Except.mapM_isOk decodes with ⟨values, decoded⟩
  refine ⟨values, decoded, laws.compose_eq_of_covers_iff fun whole => ⟨?_, ?_⟩⟩
  · intro covered
    have all := kept.fromRows trivial whole fun landing landed there => by
      rcases there with ⟨row, there, same⟩
      rcases kept.decodeRow_eq laws punctual there with ⟨other, otherLanded, sameToo, isValue⟩
      have sameLanding : other = landing := inj_on_of_nodup_map kept.once otherLanded landed
        (sameToo.trans same)
      exact covered _ ((Except.mem_of_mapM decoded).mpr ⟨row, there, sameLanding ▸ isValue⟩)
    intro value isInserted
    rcases mem_map.mp isInserted with ⟨landing, landed, rfl⟩
    exact all landing (mem_of_mem_filter landed)
  · intro covered value isValue
    rcases (Except.mem_of_mapM decoded).mp isValue with ⟨row, there, decodedRow⟩
    rcases kept.decodeRow_eq laws punctual there with ⟨landing, landed, -, decodedToo⟩
    cases decodedRow.symm.trans decodedToo
    exact kept.fromInserted trivial whole covered landing landed

def Call.writesOrCompacts : Call S → Prop
  | .write _ => True
  | .compact _ _ => True
  | .sweep _ _ => False
  | .tick _ => False

/-- However any number of writers and compaction passes interleave, and wherever each of them
stops, the rows of the scope read back, they compose to what every inserted value composes to, and
every row in the bucket names an object that is there. -/
theorem compact_keeps_every_key (laws : Segment.Laws S) (distinct : Function.Injective names)
    (policy : Policy) (clock : ℕ) {pool : Pool (Store S) (Call S) (Except Error Outcome)}
    (run : Pool.Reaches (body names policy) (fun _ call => call.writesOrCompacts)
      (Pool.idle (Store.empty clock)) pool) :
    (∃ values, pool.state.rows.mapM pool.state.decodeRow = .ok values ∧
      compose values = compose pool.state.inserted) ∧
    ∀ row ∈ pool.state.rows, ∀ path, row.body = .bucket path → path ∈ pool.state.bucket := by
  have meets : ∀ (state : Store S) (call : Call S), (keeping S names none True).Good none state →
      call.writesOrCompacts → (keeping S names none True).Spec (fun _ _ _ => True) none state
        (body names policy call) := by
    intro state call good allowed
    cases call with
    | write value => exact (write_spec distinct value).keeps _
    | compact arrivals stuck => exact (compact_spec (fun _ => laws) distinct arrivals stuck).keeps _
    | sweep sweep stuck => exact allowed.elim
    | tick elapsed => exact allowed.elim
  have start : (keeping S names none True).Good none (Store.empty clock) := ⟨Store.kept_empty clock, nofun⟩
  rcases (Pool.sound_idle start).reaches run meets with ⟨owned, sound, -⟩
  have kept : pool.state.Kept names none True := sound.good.1
  have punctual : pool.state.Punctual none := fun _ _ _ => nofun
  refine ⟨kept.compose_eq laws punctual, fun row there path inBucket => ?_⟩
  obtain rfl := kept.id_of_bucket there inBucket
  exact kept.present punctual row there inBucket

structure Peak where
  key : ℕ
  deriving DecidableEq

instance : Segment Peak where
  join left right := ⟨max left.key right.key⟩
  range peak := if bounded : peak.key ≤ max64 then some ⟨peak.key, peak.key, le_rfl, bounded⟩ else none
  encoded peak := List.replicate peak.key 0
  decodeRange bytes _ := .ok ⟨bytes.length⟩

theorem Peak.laws : Segment.Laws Peak where
  assoc _ _ _ := congrArg Peak.mk (max_assoc _ _ _)
  comm _ _ := congrArg Peak.mk (max_comm _ _)
  idem _ := congrArg Peak.mk (max_self _)
  decode_encoded peak := by
    change Except.ok (Peak.mk (List.replicate peak.key 0).length) = .ok peak
    rw [length_replicate]

def eager : Policy :=
  { fanout := 2, maxInputs := 8, maxInputBytes := 64, graduationBytes := 0, inlineCeiling := 8 }

def peaksStarted : Pool (Store Peak) (Call Peak) (Except Error Outcome) :=
  (((Pool.idle (Store.empty 0)).launch (body id eager) 0 (.write ⟨1⟩)).launch (body id eager)
    1 (.write ⟨2⟩)).launch (body id eager) 2 (.compact ⟨id, fun _ => .refl _⟩ fun _ => false)

def peaks : Pool (Store Peak) (Call Peak) (Except Error Outcome) :=
  [0, 0, 0, 1, 1, 1, 2, 2, 2, 2, 2, 2, 2, 2, 2].foldl Pool.advance peaksStarted

theorem reaches_peaks : Pool.Reaches (body id eager) (fun _ call => call.writesOrCompacts)
    (Pool.idle (Store.empty 0)) peaks :=
  (((Pool.reaches_launch rfl trivial).trans (Pool.reaches_launch rfl trivial)).trans
    (Pool.reaches_launch rfl trivial)).trans (Pool.reaches_schedule _ _ peaksStarted _)

/-- After the pass one row is left, the third one drawn, and it holds both values. -/
theorem compact_keeps_every_key_peaks : peaks.state.rows.map Written.id = [2] ∧
    ∃ values, peaks.state.rows.mapM peaks.state.decodeRow = .ok values ∧
      compose values = some ⟨2⟩ := by
  rcases (compact_keeps_every_key Peak.laws Function.injective_id eager 0 reaches_peaks).1 with
    ⟨values, decoded, composed⟩
  have inserted : compose peaks.state.inserted = some ⟨2⟩ := by decide +kernel
  exact ⟨by decide +kernel, values, decoded, composed.trans inserted⟩

end Enroute.Lattice
