import Enroute.Lattice.Compaction

/-!
# A sweep takes nothing a row names

An object that no row names is an orphan or a write still on its way, and the age of its name tells
the two apart. A sweep reads the rows after it was given the time: a row that was not there then and
lands later lands after that time, and so too late for a name that was already past the window.
Given that every row lands within the window of its name, a sweep deletes no object that a row names
then or later, whatever writers, compactions and other sweeps do in between.
-/

namespace Enroute.Lattice

open Atomic Join Protocol

variable {S : Type} [Segment S] {names : ℕ → SegmentId} {policy : Policy}

theorem mem_orphansOf {found : List Found} {rowIds : List SegmentId} {sweep : Sweep} {one : Found}
    (orphan : one ∈ orphansOf found rowIds sweep) :
    one.id ∉ rowIds ∧ sweep.graceSecs * 1000 < sweep.nowMs - SegmentId.madeAtMs one.id := by
  simp only [orphansOf, List.mem_filter, decide_eq_true_eq, saturatingMul] at orphan
  refine ⟨orphan.1.2, ?_⟩
  -- A window that saturates is wider than any difference of two times.
  have inBits := sweep.nowMs_le
  rcases min_lt_iff.mp (of_decide_eq_true orphan.2) with past | past
  · exact past
  · omega

theorem keeps_sweep {read now : Store S} {sweep : Sweep} (told : sweep.nowMs ≤ read.clock)
    (later : Store.Later read now)
    (good : (keeping S names (some (sweep.graceSecs * 1000)) False).Good none now)
    {one : Found} {found : List Found}
    (orphan : one ∈ orphansOf found (read.rows.map Written.id) sweep) :
    (keeping S names (some (sweep.graceSecs * 1000)) False).Keeps none now
      { now with
        bucket := now.bucket.erase one.id, swept := now.swept ++ [⟨one.id, now.rows⟩] } none := by
  rcases mem_orphansOf orphan with ⟨unnamed, old⟩
  have clock := later.clock
  refine keeps_erase good (fun punctual => ?_) (Or.inr ⟨_, rfl, by omega⟩)
    fun deletion isNew => List.mem_singleton.mp isNew
  rintro ⟨row, there, same⟩
  rcases later.rows row there with wasThere | unrecorded
  · exact unnamed (same ▸ List.mem_map_of_mem wasThere)
  -- The row landed after the rows were read, too late for its name.
  · rcases good.1.recorded row there with ⟨landing, landed, sameId, -⟩
    have inTime := punctual landing landed _ rfl
    rcases later.landed with ⟨more, isMore, since⟩
    rw [isMore] at landed
    rcases List.mem_append.mp landed with before | after
    · exact unrecorded ⟨landing, before, sameId⟩
    · have atLeast := since landing after
      rw [sameId, same] at inTime
      omega

theorem sweepBucket_spec {store : Store S} (sweep : Sweep) (stuck : SegmentId → Bool)
    (told : sweep.nowMs ≤ store.clock) :
    (keeping S names (some (sweep.graceSecs * 1000)) False).SpecOk (fun _ _ _ => True) none store
      (sweepBucket sweep stuck) := by
  refine (view_spec _).bind ?_
  rintro _ listing found ⟨rfl, laterListing, -, -⟩
  refine (view_spec _).bind ?_
  rintro _ read _ ⟨rfl, laterRead, -, rfl⟩
  have toldThen : sweep.nowMs ≤ read.clock :=
    told.trans (laterListing.clock.trans laterRead.clock)
  refine (specOk_foldlM (fun orphan isOrphan now swept later => ?_) _).mono fun _ _ _ _ => trivial
  split
  · exact specOk_pure ⟨rfl, Store.Later.refl _⟩
  · split
    · exact specOk_pure ⟨rfl, Store.Later.refl _⟩
    · have deleted : (keeping S names (some (sweep.graceSecs * 1000)) False).SpecOk
          (fun then_ after _ => none = then_ ∧ Store.Later now after) none now
          (change fun now => { now with
            bucket := now.bucket.erase orphan.id
            swept := now.swept ++ [⟨orphan.id, now.rows⟩] }) := by
        refine specOk_act fun after laterStill good => ?_
        have keeps := keeps_sweep toldThen (later.trans laterStill) good isOrphan
        exact ⟨none, keeps, fun _ _ => ⟨rfl, laterStill.trans keeps.later⟩⟩
      refine deleted.bind ?_
      rintro _ after _ ⟨rfl, laterStill⟩
      exact specOk_pure ⟨rfl, laterStill⟩

theorem tick_spec {window : Option ℕ} {lawful : Prop} {store : Store S} (elapsed : ℕ) :
    (keeping S names window lawful).SpecOk (fun _ _ _ => True) none store
      (change fun now => { now with clock := now.clock + elapsed }) :=
  specOk_act fun _ _ good => ⟨none, keeps_tick good, fun _ _ => trivial⟩

/-- Sweeps with this grace that are not told a time ahead of the real one; anything else. -/
def Call.sweepsWithin (graceSecs : ℕ) (store : Store S) : Call S → Prop
  | .sweep asked _ => asked.graceSecs = graceSecs ∧ asked.nowMs ≤ store.clock
  | .write _ => True
  | .compact _ _ => True
  | .tick _ => True

/-- However writers, compactions and sweeps interleave while time passes: as long as every row has
landed within the grace of its name, no object a sweep has deleted was named by a row at that
moment, or is named by one since. -/
theorem sweep_spares_named_objects (distinct : Function.Injective names) (policy : Policy)
    (clock graceSecs : ℕ) {pool : Pool (Store S) (Call S) (Except Error Outcome)}
    (run : Pool.Reaches (body names policy) (fun store call => call.sweepsWithin graceSecs store)
      (Pool.idle (Store.empty clock)) pool)
    (inTime : ∀ landing ∈ pool.state.landed,
      landing.at_ ≤ landing.id.madeAtMs + graceSecs * 1000) :
    ∀ deletion ∈ pool.state.swept, (∀ row ∈ deletion.rows, row.body ≠ .bucket deletion.id) ∧
      ∀ row ∈ pool.state.rows, row.body ≠ .bucket deletion.id := by
  have meets : ∀ (state : Store S) (call : Call S),
      (keeping S names (some (graceSecs * 1000)) False).Good none state →
      call.sweepsWithin graceSecs state →
      (keeping S names (some (graceSecs * 1000)) False).Spec (fun _ _ _ => True) none state
        (body names policy call) := by
    intro state call good allowed
    cases call with
    | write value => exact (write_spec distinct value).keeps _
    | compact arrivals stuck => exact (compact_spec nofun distinct arrivals stuck).keeps _
    | sweep sweep stuck =>
      rcases allowed with ⟨rfl, told⟩
      exact (sweepBucket_spec sweep stuck told).keeps _
    | tick elapsed => exact (tick_spec elapsed).keeps _
  have start : (keeping S names (some (graceSecs * 1000)) False).Good none (Store.empty clock) :=
    ⟨Store.kept_empty clock, nofun⟩
  rcases (Pool.sound_idle start).reaches run meets with ⟨owned, sound, -⟩
  have kept : pool.state.Kept names (some (graceSecs * 1000)) False := sound.good.1
  have punctual : pool.state.Punctual (some (graceSecs * 1000)) := by
    rintro landing landed _ ⟨⟩
    have := inTime landing landed
    omega
  intro deletion isSwept
  rcases kept.spared punctual deletion isSwept with ⟨unnamed, unlisted, -⟩
  exact ⟨unnamed, fun row there inBucket =>
    unlisted ⟨row, there, kept.id_of_bucket there inBucket⟩⟩

def fiveSecondsOn : Sweep :=
  { nowMs := 5000, nowMs_le := by decide, graceSecs := 1, dryRun := false }

/-- A writer that records its row, one that stops once its object is put, five seconds and a
sweep. -/
def abandoned : Pool (Store Peak) (Call Peak) (Except Error Outcome) :=
  [3, 3, 3].foldl Pool.advance <|
    ([0, 0, 0, 1, 1, 2].foldl Pool.advance <|
      (((Pool.idle (Store.empty 0)).launch (body id eager) 0 (.write ⟨1⟩)).launch (body id eager)
        1 (.write ⟨2⟩)).launch (body id eager) 2 (.tick 5000)).launch (body id eager) 3
      (.sweep fiveSecondsOn fun _ => false)

theorem reaches_abandoned : Pool.Reaches (body id eager)
    (fun store call => call.sweepsWithin 1 store) (Pool.idle (Store.empty 0)) abandoned :=
  ((((Pool.reaches_launch rfl trivial).trans (Pool.reaches_launch rfl trivial)).trans
    (Pool.reaches_launch rfl trivial)).trans (Pool.reaches_schedule _ _ _ _)).trans
    ((Pool.reaches_launch rfl ⟨rfl, by decide +kernel⟩).trans (Pool.reaches_schedule _ _ _ _))

/-- The sweep takes the object whose writer stopped, and no row names that one. -/
theorem sweep_spares_named_objects_abandoned :
    abandoned.state.swept.map Deletion.id = [1] ∧ abandoned.state.rows.map Written.id = [0] ∧
      ∀ deletion ∈ abandoned.state.swept, ∀ row ∈ abandoned.state.rows,
        row.body ≠ .bucket deletion.id := by
  have inTime : ∀ landing ∈ abandoned.state.landed,
      landing.at_ ≤ landing.id.madeAtMs + 1 * 1000 := by decide +kernel
  exact ⟨by decide +kernel, by decide +kernel, fun deletion isSwept =>
    (sweep_spares_named_objects Function.injective_id eager 0 1 reaches_abandoned inTime deletion
      isSwept).2⟩

end Enroute.Lattice
