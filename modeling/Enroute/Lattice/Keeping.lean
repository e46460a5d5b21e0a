import Enroute.Lattice.Segments

/-!
# What the steps of a scope keep

Whatever covers the values of the rows covers every value that landed, and so does whatever covers
the values writers inserted. A compaction keeps this however stale its plan is, because a row that
is gone never comes back: the rows a replace drops were all there when the inputs were read, and so
went into its output.

A name belongs to one program until its row lands. A sweep may take the object of a program that is
still on its way to recording it, but only when the name is too old for the row to land in time.
-/

namespace Enroute.Lattice

open Atomic Join List

def Written.Holds {S : Type} [Segment S] (row : Written) (value : S) : Prop :=
  row.body = .inline (Segment.encoded value) ∨ row.body = .bucket row.id

namespace Store

variable {S : Type}

def Late (window : Option ℕ) (store : Store S) (id : SegmentId) : Prop :=
  ∃ limit ∈ window, limit < store.clock - id.madeAtMs

def Punctual (window : Option ℕ) (store : Store S) : Prop :=
  ∀ landing ∈ store.landed, ∀ limit ∈ window, landing.at_ - landing.id.madeAtMs ≤ limit

def Drawn (names : ℕ → SegmentId) (store : Store S) (id : SegmentId) : Prop :=
  ∃ place < store.drawn, names place = id

def Recorded (store : Store S) (id : SegmentId) : Prop :=
  ∃ landing ∈ store.landed, landing.id = id

def Lists (store : Store S) (id : SegmentId) : Prop :=
  ∃ row ∈ store.rows, row.id = id

structure Kept [Segment S] (names : ℕ → SegmentId) (window : Option ℕ) (lawful : Prop)
    (store : Store S) : Prop where
  distinct : (store.rows.map Written.id).Nodup
  once : (store.landed.map Landing.id).Nodup
  recorded : ∀ row ∈ store.rows, ∃ landing ∈ store.landed, landing.id = row.id ∧
    row.Holds landing.value
  named : ∀ id, store.Recorded id → store.Drawn names id
  objects : ∀ id ∈ store.bucket, store.Drawn names id
  contents : ∀ landing ∈ store.landed, ∀ bytes ∈ store.bucket.lookup landing.id,
    bytes = Segment.encoded landing.value
  fromRows : lawful → ∀ whole, (∀ landing ∈ store.landed, store.Lists landing.id →
    Covers whole landing.value) → ∀ landing ∈ store.landed, Covers whole landing.value
  fromInserted : lawful → ∀ whole, (∀ value ∈ store.inserted, Covers whole value) →
    ∀ landing ∈ store.landed, Covers whole landing.value
  present : store.Punctual window → ∀ row ∈ store.rows, row.body = .bucket row.id →
    row.id ∈ store.bucket
  spared : store.Punctual window → ∀ deletion ∈ store.swept,
    (∀ row ∈ deletion.rows, row.body ≠ .bucket deletion.id) ∧ ¬store.Lists deletion.id ∧
      (store.Recorded deletion.id ∨ store.Late window deletion.id)

/-- How a scope can be found later: names and rows are added, and a row that is gone stays gone. -/
structure Later (before after : Store S) : Prop where
  drawn : before.drawn ≤ after.drawn
  clock : before.clock ≤ after.clock
  landed : ∃ more, after.landed = before.landed ++ more ∧
    ∀ landing ∈ more, before.clock ≤ landing.at_
  rows : ∀ row ∈ after.rows, row ∈ before.rows ∨ ¬before.Recorded row.id

variable {names : ℕ → SegmentId} {window : Option ℕ} {before between after store : Store S}
  {id : SegmentId}

theorem Later.refl (store : Store S) : Later store store where
  drawn := le_rfl
  clock := le_rfl
  landed := ⟨[], by simp, by simp⟩
  rows := fun _ there => Or.inl there

theorem Later.recorded (later : Later before after) (was : before.Recorded id) :
    after.Recorded id := by
  rcases was with ⟨landing, landed, same⟩
  rcases later.landed with ⟨more, isMore, -⟩
  exact ⟨landing, by rw [isMore]; exact mem_append_left _ landed, same⟩

theorem Later.mem_landed (later : Later before after) {landing : Landing S}
    (landed : landing ∈ before.landed) : landing ∈ after.landed := by
  rcases later.landed with ⟨more, isMore, -⟩
  rw [isMore]
  exact mem_append_left _ landed

theorem Later.trans (first : Later before between) (second : Later between after) :
    Later before after where
  drawn := first.drawn.trans second.drawn
  clock := first.clock.trans second.clock
  landed := by
    rcases first.landed with ⟨more, isMore, since⟩
    rcases second.landed with ⟨still, isStill, sinceThen⟩
    refine ⟨more ++ still, by rw [isStill, isMore, append_assoc], fun landing listed => ?_⟩
    rcases mem_append.mp listed with early | late
    · exact since landing early
    · exact first.clock.trans (sinceThen landing late)
  rows := fun row there => by
    rcases second.rows row there with was | unrecorded
    · exact first.rows row was
    · exact Or.inr fun was => unrecorded (first.recorded was)

section

variable (later : Later before after)

include later

theorem Later.late (was : before.Late window id) : after.Late window id := by
  rcases was with ⟨limit, isLimit, exceeded⟩
  exact ⟨limit, isLimit, by have := later.clock; omega⟩

theorem Later.drawn_of (was : before.Drawn names id) : after.Drawn names id := by
  rcases was with ⟨place, small, same⟩
  exact ⟨place, small.trans_le later.drawn, same⟩

theorem Later.punctual (isPunctual : after.Punctual window) : before.Punctual window :=
  fun landing landed => isPunctual landing (later.mem_landed landed)

theorem Later.not_lists (was : before.Recorded id) (gone : ¬before.Lists id) : ¬after.Lists id := by
  rintro ⟨row, there, rfl⟩
  rcases later.rows row there with wasThere | unrecorded
  · exact gone ⟨row, wasThere, rfl⟩
  · exact unrecorded was

end

end Store

/-- What a program has on its way: a name it drew and has not recorded, and the object it put
under it. -/
structure Flight where
  id : SegmentId
  object : Option Bytes

/-- The object in flight is as it was put, and is there unless the name has become too old. -/
structure Flight.Intact {S : Type} (names : ℕ → SegmentId) (window : Option ℕ) (flight : Flight)
    (store : Store S) : Prop where
  drawn : store.Drawn names flight.id
  unrecorded : ¬store.Recorded flight.id
  contents : ∀ bytes ∈ store.bucket.lookup flight.id, flight.object = some bytes
  there : ∀ bytes ∈ flight.object, flight.id ∈ store.bucket ∨ store.Late window flight.id

def keeping (S : Type) [Segment S] (names : ℕ → SegmentId) (window : Option ℕ) (lawful : Prop) :
    Protocol (Store S) where
  Resource := Option Flight
  nothing := none
  Apart mine theirs := ∀ flight ∈ mine, ∀ other ∈ theirs, flight.id ≠ other.id
  apart_symm apart flight isTheirs other isMine := (apart other isMine flight isTheirs).symm
  nothing_apart _ := nofun
  Good mine store := store.Kept names window lawful ∧ ∀ flight ∈ mine, flight.Intact names window store
  Later := Store.Later
  later_refl := Store.Later.refl
  later_trans := Store.Later.trans

section Steps

variable {S : Type} [Segment S] {names : ℕ → SegmentId} {window : Option ℕ} {lawful : Prop}
  {store : Store S}

/-! ## Drawing a name and putting an object -/

theorem keeps_fresh (distinct : Function.Injective names)
    (good : (keeping S names window lawful).Good none store) :
    (keeping S names window lawful).Keeps none store { store with drawn := store.drawn + 1 }
      (some ⟨names store.drawn, none⟩) := by
  have newer : ∀ id, store.Drawn names id → names store.drawn ≠ id := by
    rintro id ⟨place, small, rfl⟩ same
    have := distinct same
    omega
  have later : Store.Later store { store with drawn := store.drawn + 1 } :=
    ⟨Nat.le_succ _, le_rfl, ⟨[], by simp, by simp⟩, fun _ there => Or.inl there⟩
  have kept : Store.Kept names window lawful { store with drawn := store.drawn + 1 } :=
    { good.1 with
      named := fun id was => later.drawn_of (good.1.named id was)
      objects := fun id there => later.drawn_of (good.1.objects id there) }
  refine ⟨later, ⟨kept, ?_⟩, fun theirs _ intact => ⟨?_, kept, ?_⟩⟩
  · rintro _ ⟨⟩
    refine ⟨⟨store.drawn, Nat.lt_succ_self _, rfl⟩, fun was => newer _ (good.1.named _ was) rfl,
      fun bytes found => ?_, nofun⟩
    exact absurd rfl (newer _ (good.1.objects _ (AList.lookup_isSome.mp (by rw [found]; rfl))))
  · rintro _ ⟨⟩ other isTheirs
    exact newer _ (intact.2 other isTheirs).drawn
  · intro flight isTheirs
    rcases intact.2 flight isTheirs with ⟨drawn, unrecorded, contents, there⟩
    exact ⟨later.drawn_of drawn, unrecorded, contents, there⟩

theorem keeps_upload {id : SegmentId} {bytes : Bytes}
    (good : (keeping S names window lawful).Good (some ⟨id, none⟩) store) :
    (keeping S names window lawful).Keeps (some ⟨id, none⟩) store
      { store with bucket := store.bucket.insert id bytes } (some ⟨id, some bytes⟩) := by
  rcases good with ⟨kept, mine⟩
  rcases mine _ rfl with ⟨drawn, unrecorded, -, -⟩
  have notRecorded : ∀ {other}, store.Recorded other → other ≠ id := by
    rintro _ was rfl
    exact unrecorded was
  have kept' : Store.Kept names window lawful { store with bucket := store.bucket.insert id bytes } :=
    { kept with
      objects := fun other there => by
        rcases AList.mem_insert _ |>.mp there with rfl | was
        · exact drawn
        · exact kept.objects other was
      contents := fun landing landed found isFound => by
        rw [AList.lookup_insert_ne (notRecorded ⟨landing, landed, rfl⟩)] at isFound
        exact kept.contents landing landed found isFound
      present := fun punctual row there inBucket =>
        (AList.mem_insert _).mpr (Or.inr (kept.present punctual row there inBucket)) }
  refine ⟨⟨le_rfl, le_rfl, ⟨[], by simp, by simp⟩, fun _ there => Or.inl there⟩, ⟨kept', ?_⟩,
    fun theirs apart intact => ⟨?_, kept', ?_⟩⟩
  · rintro _ ⟨⟩
    refine ⟨drawn, unrecorded, fun found isFound => ?_, fun _ _ => Or.inl ?_⟩
    · rw [AList.lookup_insert] at isFound
      exact isFound
    · exact (AList.mem_insert _).mpr (Or.inl rfl)
  · rintro _ ⟨⟩ other isTheirs
    exact apart _ rfl other isTheirs
  · intro flight isTheirs
    have different : flight.id ≠ id := (apart _ rfl flight isTheirs).symm
    rcases intact.2 flight isTheirs with ⟨otherDrawn, otherUnrecorded, contents, there⟩
    refine ⟨otherDrawn, otherUnrecorded, fun found isFound => ?_, fun found isFound => ?_⟩
    · rw [AList.lookup_insert_ne different] at isFound
      exact contents found isFound
    · exact (there found isFound).imp_left fun was => (AList.mem_insert _).mpr (Or.inr was)

/-! ## Recording a row -/

def Store.land (store : Store S) (inputs : List SegmentId) (row : Written) (value : S)
    (inserted : Bool) : Store S :=
  { store with
    rows := (store.rows.filter fun old => old.id ∉ inputs) ++ [row]
    landed := store.landed ++ [⟨row.id, value, store.clock, inserted⟩] }

omit [Segment S] in
theorem Store.insert_eq_land (store : Store S) (row : Written) (value : S) :
    store.insert row value = store.land [] row value true := by
  simp [Store.insert, Store.land]

variable {inputs : List SegmentId} {row : Written} {value : S} {inserted : Bool}

omit [Segment S] in
theorem Store.recorded_land {id : SegmentId} :
    (store.land inputs row value inserted).Recorded id ↔ store.Recorded id ∨ id = row.id := by
  simp only [Store.Recorded, Store.land, mem_append, mem_singleton]
  constructor
  · rintro ⟨landing, was | rfl, rfl⟩
    · exact Or.inl ⟨landing, was, rfl⟩
    · exact Or.inr rfl
  · rintro (⟨landing, was, rfl⟩ | rfl)
    · exact ⟨landing, Or.inl was, rfl⟩
    · exact ⟨_, Or.inr rfl, rfl⟩

omit [Segment S] in
theorem Store.lists_land {id : SegmentId} : (store.land inputs row value inserted).Lists id ↔
    store.Lists id ∧ id ∉ inputs ∨ id = row.id := by
  simp only [Store.Lists, Store.land, mem_append, mem_singleton, mem_filter,
    decide_eq_true_eq]
  constructor
  · rintro ⟨old, ⟨was, stays⟩ | rfl, rfl⟩
    · exact Or.inl ⟨⟨old, was, rfl⟩, stays⟩
    · exact Or.inr rfl
  · rintro (⟨⟨old, was, rfl⟩, stays⟩ | rfl)
    · exact ⟨old, Or.inl ⟨was, stays⟩, rfl⟩
    · exact ⟨row, Or.inr rfl, rfl⟩

omit [Segment S] in
theorem Store.later_land (unrecorded : ¬store.Recorded row.id) :
    Store.Later store (store.land inputs row value inserted) where
  drawn := le_rfl
  clock := le_rfl
  landed := ⟨_, rfl, fun landing isNew => by cases mem_singleton.mp isNew; exact le_rfl⟩
  rows := fun other there => by
    rcases mem_append.mp there with was | isNew
    · exact Or.inl (mem_of_mem_filter was)
    · cases mem_singleton.mp isNew
      exact Or.inr unrecorded

omit [Segment S] in
theorem Store.not_late_of_punctual_land
    (punctual : (store.land inputs row value inserted).Punctual window) :
    ¬store.Late window row.id := by
  rintro ⟨limit, isLimit, exceeded⟩
  have inTime := punctual ⟨row.id, value, store.clock, inserted⟩
    (mem_append_right _ (mem_singleton_self _)) limit isLimit
  dsimp only at inTime
  omega

/-- What a row that lands must be: the encoding of its value is where it says, the values of the
rows it stands in for are in its own, and its own is made of what had landed unless it is new. -/
structure Lands (lawful : Prop) (store : Store S) (object : Option Bytes) (inputs : List SegmentId)
    (row : Written) (value : S) (inserted : Bool) : Prop where
  holds : row.body = .inline (Segment.encoded value) ∨
    row.body = .bucket row.id ∧ object = some (Segment.encoded value)
  encodes : ∀ bytes ∈ object, bytes = Segment.encoded value
  dropped : lawful → ∀ whole, Covers whole value → ∀ landing ∈ store.landed, landing.id ∈ inputs →
    store.Lists landing.id → Covers whole landing.value
  made : inserted = true ∨ (lawful → ∀ whole, (∀ landing ∈ store.landed, Covers whole landing.value) →
    Covers whole value)

theorem Store.Kept.land {object : Option Bytes} (kept : store.Kept names window lawful)
    (flight : Flight.Intact names window ⟨row.id, object⟩ store)
    (lands : Lands lawful store object inputs row value inserted) :
    (store.land inputs row value inserted).Kept names window lawful := by
  have later : Store.Later store (store.land inputs row value inserted) :=
    Store.later_land flight.unrecorded
  have holds : row.Holds value := lands.holds.imp_right And.left
  have splits : ∀ {landing}, landing ∈ (store.land inputs row value inserted).landed →
      landing ∈ store.landed ∨ landing = ⟨row.id, value, store.clock, inserted⟩ :=
    fun landed => (mem_append.mp landed).imp_right mem_singleton.mp
  refine ⟨?_, ?_, ?_, ?_, ?_, ?_, ?_, ?_, ?_, ?_⟩
  · change ((store.rows.filter _ ++ [row]).map Written.id).Nodup
    rw [map_append, map_singleton, nodup_append_comm, singleton_append,
      nodup_cons]
    refine ⟨fun listed => flight.unrecorded ?_,
      (filter_sublist.map Written.id).nodup kept.distinct⟩
    rcases mem_map.mp listed with ⟨old, was, same⟩
    rcases kept.recorded old (mem_of_mem_filter was) with ⟨landing, landed, sameId, -⟩
    exact ⟨landing, landed, sameId.trans same⟩
  · change ((store.landed ++ [_]).map Landing.id).Nodup
    rw [map_append, map_singleton, nodup_append_comm, singleton_append,
      nodup_cons]
    exact ⟨fun listed => flight.unrecorded (mem_map.mp listed), kept.once⟩
  · intro other there
    rcases mem_append.mp there with was | isNew
    · rcases kept.recorded other (mem_of_mem_filter was) with ⟨landing, landed, found⟩
      exact ⟨landing, mem_append_left _ landed, found⟩
    · cases mem_singleton.mp isNew
      exact ⟨_, mem_append_right _ (mem_singleton_self _), rfl, holds⟩
  · intro id was
    rcases Store.recorded_land.mp was with before | rfl
    · exact kept.named id before
    · exact flight.drawn
  · exact kept.objects
  · intro landing landed bytes found
    rcases splits landed with was | rfl
    · exact kept.contents landing was bytes found
    · exact lands.encodes bytes (flight.contents bytes found)
  · intro isLawful whole covered
    have new : Covers whole value := covered _
      (mem_append_right _ (mem_singleton_self _)) (Store.lists_land.mpr (Or.inr rfl))
    have old := kept.fromRows isLawful whole fun landing landed there => by
      by_cases isInput : landing.id ∈ inputs
      · exact lands.dropped isLawful whole new landing landed isInput there
      · exact covered landing (mem_append_left _ landed)
          (Store.lists_land.mpr (Or.inl ⟨there, isInput⟩))
    intro landing landed
    rcases splits landed with was | rfl
    · exact old landing was
    · exact new
  · intro isLawful whole covered
    have old := kept.fromInserted isLawful whole fun value was => covered value (by
      simp only [Store.inserted, Store.land, filter_append, map_append, mem_append]
      exact Or.inl was)
    intro landing landed
    rcases splits landed with was | rfl
    · exact old landing was
    · rcases lands.made with rfl | made
      · exact covered value (by simp [Store.inserted, Store.land])
      · exact made isLawful whole old
  · intro punctual other there inBucket
    rcases mem_append.mp there with was | isNew
    · exact kept.present (later.punctual punctual) other (mem_of_mem_filter was) inBucket
    · cases mem_singleton.mp isNew
      rcases lands.holds with inline | ⟨-, isObject⟩
      · rw [inline] at inBucket
        cases inBucket
      · exact (flight.there _ isObject).resolve_right (Store.not_late_of_punctual_land punctual)
  · intro punctual deletion isSwept
    rcases kept.spared (later.punctual punctual) deletion isSwept with ⟨unnamed, unlisted, gone⟩
    refine ⟨unnamed, fun there => ?_, gone.imp later.recorded later.late⟩
    rcases Store.lists_land.mp there with ⟨was, -⟩ | same
    · exact unlisted was
    · rw [same] at gone
      exact Store.not_late_of_punctual_land punctual (gone.resolve_left flight.unrecorded)

theorem keeps_land {object : Option Bytes}
    (good : (keeping S names window lawful).Good (some ⟨row.id, object⟩) store)
    (lands : Lands lawful store object inputs row value inserted) :
    (keeping S names window lawful).Keeps (some ⟨row.id, object⟩) store
      (store.land inputs row value inserted) none := by
  have flight := good.2 _ rfl
  have kept := good.1.land flight lands
  refine ⟨Store.later_land flight.unrecorded, ⟨kept, nofun⟩, fun theirs apart intact =>
    ⟨nofun, kept, fun other isTheirs => ?_⟩⟩
  rcases intact.2 other isTheirs with ⟨drawn, unrecorded, contents, there⟩
  refine ⟨drawn, fun was => ?_, contents, there⟩
  rcases Store.recorded_land.mp was with before | same
  · exact unrecorded before
  · exact apart _ rfl other isTheirs same.symm

/-! ## Deleting an object -/

theorem Store.Kept.id_of_bucket (kept : store.Kept names window lawful) {path : SegmentId}
    (there : row ∈ store.rows) (inBucket : row.body = .bucket path) : row.id = path := by
  rcases kept.recorded row there with ⟨landing, -, -, inline | named⟩
  · cases inline.symm.trans inBucket
  · cases named.symm.trans inBucket
    rfl

theorem keeps_erase {path : SegmentId} {more : List Deletion}
    (good : (keeping S names window lawful).Good none store)
    (unnamed : store.Punctual window → ¬store.Lists path)
    (settled : store.Recorded path ∨ store.Late window path)
    (isMore : ∀ deletion ∈ more, deletion = ⟨path, store.rows⟩) :
    (keeping S names window lawful).Keeps none store
      { store with bucket := store.bucket.erase path, swept := store.swept ++ more } none := by
  rcases good with ⟨kept, -⟩
  have kept' : Store.Kept names window lawful
      { store with bucket := store.bucket.erase path, swept := store.swept ++ more } :=
    { kept with
      objects := fun id there => kept.objects id (AList.mem_erase.mp there).2
      contents := fun landing landed bytes found => by
        by_cases same : landing.id = path
        · rw [same, AList.lookup_erase] at found
          cases found
        · rw [AList.lookup_erase_ne same] at found
          exact kept.contents landing landed bytes found
      present := fun punctual row there inBucket => AList.mem_erase.mpr
        ⟨fun same => unnamed punctual ⟨row, there, same⟩, kept.present punctual row there inBucket⟩
      spared := fun punctual deletion isSwept => by
        rcases mem_append.mp isSwept with was | isNew
        · exact kept.spared punctual deletion was
        · cases isMore deletion isNew
          refine ⟨fun row there inBucket => unnamed punctual ⟨row, there, ?_⟩, unnamed punctual,
            settled⟩
          exact kept.id_of_bucket there inBucket }
  refine ⟨⟨le_rfl, le_rfl, ⟨[], by simp, by simp⟩, fun _ there => Or.inl there⟩, ⟨kept', nofun⟩,
    fun theirs _ intact => ⟨nofun, kept', fun flight isTheirs => ?_⟩⟩
  rcases intact.2 flight isTheirs with ⟨drawn, unrecorded, contents, there⟩
  refine ⟨drawn, unrecorded, fun bytes found => ?_, fun bytes isObject => ?_⟩
  · by_cases same : flight.id = path
    · rw [same, AList.lookup_erase] at found
      cases found
    · rw [AList.lookup_erase_ne same] at found
      exact contents bytes found
  · by_cases same : flight.id = path
    · exact Or.inr (same ▸ settled.resolve_left fun was => unrecorded (same ▸ was))
    · exact (there bytes isObject).imp_left fun was => AList.mem_erase.mpr ⟨same, was⟩

/-! ## Time passing -/

theorem keeps_tick {elapsed : ℕ} (good : (keeping S names window lawful).Good none store) :
    (keeping S names window lawful).Keeps none store { store with clock := store.clock + elapsed }
      none := by
  have later : Store.Later store { store with clock := store.clock + elapsed } :=
    ⟨le_rfl, Nat.le_add_right _ _, ⟨[], by simp, by simp⟩, fun _ there => Or.inl there⟩
  have kept : Store.Kept names window lawful { store with clock := store.clock + elapsed } :=
    { good.1 with
      spared := fun punctual deletion isSwept =>
        (good.1.spared punctual deletion isSwept).imp_right
          (And.imp_right (Or.imp_right later.late)) }
  refine ⟨later, ⟨kept, nofun⟩, fun theirs _ intact => ⟨nofun, kept, fun flight isTheirs => ?_⟩⟩
  rcases intact.2 flight isTheirs with ⟨drawn, unrecorded, contents, there⟩
  exact ⟨drawn, unrecorded, contents, fun bytes isObject => (there bytes isObject).imp_right later.late⟩

end Steps

end Enroute.Lattice
