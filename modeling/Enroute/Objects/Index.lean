import Enroute.GraphStore.Index
import Mathlib.Data.List.Sort

/-!
# The object index

What a repository knows about its trees and its blobs, keyed by number in the space of the
kind. An object lists the packs it is stored in, one location for each pack and the lowest
pack first: that one introduces the object, and every point read resolves through it. An index
is a join of recorded segments, so an object only ever gains packs and, for a tree, entries.
-/

namespace Enroute

open List

structure Location where
  /-- The number of the commit whose pack holds this entry. -/
  packSeq : ℕ
  packOid : ObjectId
  segment : SegmentLocation
  offset : ℕ
  entryLen : ℕ
  /-- What this entry deltas against, in the object's own space. -/
  baseSeq : Option ℕ
  deriving DecidableEq, Repr

namespace Location

def key (location : Location) : List ℕ :=
  [location.packSeq, location.packOid, location.segment.id, location.segment.baseOffset,
    location.segment.imageLen, location.offset, location.entryLen,
    (location.baseSeq.map (· + 1)).getD 0]

def lexLe : List ℕ → List ℕ → Bool
  | [], _ => true
  | _ :: _, [] => false
  | first :: firsts, second :: seconds =>
    decide (first < second) || (decide (first = second) && lexLe firsts seconds)

def Before (earlier later : Location) : Prop :=
  lexLe earlier.key later.key = true

instance : DecidableRel Before := fun _ _ => inferInstanceAs (Decidable (_ = true))

theorem lexLe_total (first second : List ℕ) :
    lexLe first second = true ∨ lexLe second first = true := by
  induction first generalizing second with
  | nil => exact Or.inl rfl
  | cons head tail ih =>
    cases second with
    | nil => exact Or.inr rfl
    | cons other rest =>
      rcases lt_trichotomy head other with less | rfl | greater
      · simp [lexLe, less]
      · simpa [lexLe] using ih rest
      · simp [lexLe, greater]

theorem lexLe_refl (list : List ℕ) : lexLe list list = true :=
  (lexLe_total list list).elim id id

theorem lexLe_trans {first second third : List ℕ} (left : lexLe first second = true)
    (right : lexLe second third = true) : lexLe first third = true := by
  induction first generalizing second third with
  | nil => rfl
  | cons head tail ih =>
    rcases second with _ | ⟨middle, middles⟩
    · cases left
    rcases third with _ | ⟨last, lasts⟩
    · cases right
    simp only [lexLe, Bool.or_eq_true, Bool.and_eq_true, decide_eq_true_eq] at left right ⊢
    rcases left with less | ⟨rfl, leftRest⟩
    · left
      rcases right with more | ⟨rfl, -⟩
      · exact less.trans more
      · exact less
    · rcases right with more | ⟨rfl, rightRest⟩
      · exact Or.inl more
      · exact Or.inr ⟨rfl, ih leftRest rightRest⟩

instance : Std.Total Before := ⟨fun _ _ => lexLe_total _ _⟩

instance : Std.Refl Before := ⟨fun _ => lexLe_refl _⟩

instance : IsTrans Location Before := ⟨fun _ _ _ => lexLe_trans⟩

theorem packSeq_le_of_before {earlier later : Location} (before : Before earlier later) :
    earlier.packSeq ≤ later.packSeq := by
  simp only [Before, key, lexLe, Bool.or_eq_true, Bool.and_eq_true, decide_eq_true_eq] at before
  rcases before with less | ⟨same, -⟩
  · exact less.le
  · exact same.le

/-- Drop every location whose image has already been copied elsewhere: of a run of locations in
one pack the last stays. Exact duplicates are such a run too. -/
def keepNewestPerPack : List Location → List Location
  | [] => []
  | [location] => [location]
  | earlier :: later :: rest =>
    if later.packSeq = earlier.packSeq then keepNewestPerPack (later :: rest)
    else earlier :: keepNewestPerPack (later :: rest)

variable {location : Location} {locations : List Location}

theorem mem_of_mem_keepNewestPerPack (kept : location ∈ keepNewestPerPack locations) :
    location ∈ locations := by
  induction locations using keepNewestPerPack.induct with
  | case1 => exact kept
  | case2 only => exact kept
  | case3 earlier later rest same ih =>
    rw [keepNewestPerPack, if_pos same] at kept
    exact mem_cons_of_mem _ (ih kept)
  | case4 earlier later rest different ih =>
    rw [keepNewestPerPack, if_neg different] at kept
    rcases mem_cons.mp kept with rfl | keptLater
    · exact mem_cons_self
    · exact mem_cons_of_mem _ (ih keptLater)

theorem exists_newest (sorted : locations.Pairwise Before) (listed : location ∈ locations) :
    ∃ kept ∈ keepNewestPerPack locations, kept.packSeq = location.packSeq ∧
      Before location kept := by
  induction locations using keepNewestPerPack.induct generalizing location with
  | case1 => cases listed
  | case2 only => exact ⟨location, listed, rfl, refl_of Before location⟩
  | case3 earlier later rest same ih =>
    rw [keepNewestPerPack, if_pos same]
    rcases mem_cons.mp listed with rfl | listedLater
    · rcases ih sorted.of_cons mem_cons_self with ⟨kept, keptMem, samePack, newer⟩
      have first := rel_of_pairwise_cons sorted (mem_cons_self (a := later))
      exact ⟨kept, keptMem, samePack.trans same, trans_of Before first newer⟩
    · exact ih sorted.of_cons listedLater
  | case4 earlier later rest different ih =>
    rw [keepNewestPerPack, if_neg different]
    rcases mem_cons.mp listed with rfl | listedLater
    · exact ⟨_, mem_cons_self, rfl, refl_of Before _⟩
    · rcases ih sorted.of_cons listedLater with ⟨kept, keptMem, samePack, newer⟩
      exact ⟨kept, mem_cons_of_mem _ keptMem, samePack, newer⟩

theorem keepNewestPerPack_of_ascending
    (ascending : locations.Pairwise fun earlier later => earlier.packSeq < later.packSeq) :
    keepNewestPerPack locations = locations := by
  induction locations using keepNewestPerPack.induct with
  | case1 => rfl
  | case2 only => rfl
  | case3 earlier later rest same _ =>
    have less := rel_of_pairwise_cons ascending (mem_cons_self (a := later))
    omega
  | case4 earlier later rest different ih =>
    rw [keepNewestPerPack, if_neg different, ih ascending.of_cons]

theorem before_of_packSeq_lt {earlier later : Location} (less : earlier.packSeq < later.packSeq) :
    Before earlier later := by
  simp [Before, key, lexLe, less]

theorem keepNewestPerPack_ascending
    (sorted : locations.Pairwise fun earlier later => earlier.packSeq ≤ later.packSeq) :
    (keepNewestPerPack locations).Pairwise fun earlier later => earlier.packSeq < later.packSeq := by
  induction locations using keepNewestPerPack.induct with
  | case1 => exact .nil
  | case2 only => exact pairwise_singleton _ _
  | case3 earlier later rest same ih =>
    rw [keepNewestPerPack, if_pos same]
    exact ih sorted.of_cons
  | case4 earlier later rest different ih =>
    rw [keepNewestPerPack, if_neg different]
    refine pairwise_cons.mpr ⟨fun kept keptMem => ?_, ih sorted.of_cons⟩
    have first := rel_of_pairwise_cons sorted (mem_cons_self (a := later))
    rcases mem_cons.mp (mem_of_mem_keepNewestPerPack keptMem) with rfl | afterLater
    · omega
    · have second := rel_of_pairwise_cons sorted.of_cons afterLater
      omega

theorem lexLe_antisymm {first second : List ℕ} (left : lexLe first second = true)
    (right : lexLe second first = true) : first = second := by
  induction first generalizing second with
  | nil =>
    cases second with
    | nil => rfl
    | cons other rest => cases right
  | cons head tail ih =>
    cases second with
    | nil => cases left
    | cons other rest =>
      simp only [lexLe, Bool.or_eq_true, Bool.and_eq_true, decide_eq_true_eq] at left right
      have same : head = other := by omega
      subst same
      rw [ih (by simpa using left) (by simpa using right)]

theorem key_injective : Function.Injective key := by
  rintro ⟨packSeq, packOid, ⟨id, baseOffset, imageLen⟩, offset, entryLen, baseSeq⟩
    ⟨_, _, ⟨_, _, _⟩, _, _, otherBase⟩ same
  simp only [key, List.cons.injEq, and_true] at same
  rcases same with ⟨rfl, rfl, rfl, rfl, rfl, rfl, rfl, sameBase⟩
  have : baseSeq = otherBase := by
    cases baseSeq <;> cases otherBase <;> simp_all
  rw [this]

instance : Std.Antisymm Before :=
  ⟨fun _ _ left right => key_injective (lexLe_antisymm left right)⟩

def Newest (held : Location → Prop) (location : Location) : Prop :=
  held location ∧ ∀ other, held other → other.packSeq = location.packSeq → other.Before location

theorem mem_keepNewestPerPack_iff (sorted : locations.Pairwise Before) :
    location ∈ keepNewestPerPack locations ↔ Newest (· ∈ locations) location := by
  have ascending := keepNewestPerPack_ascending (sorted.imp packSeq_le_of_before)
  constructor
  · intro kept
    refine ⟨mem_of_mem_keepNewestPerPack kept, fun other listed samePack => ?_⟩
    rcases exists_newest sorted listed with ⟨newest, newestMem, newestPack, newer⟩
    have same : newest = location := by
      have pairs := (pairwise_iff_getElem.mp ascending)
      by_contra different
      rcases getElem_of_mem newestMem with ⟨left, leftBound, rfl⟩
      rcases getElem_of_mem kept with ⟨right, rightBound, rfl⟩
      rcases lt_trichotomy left right with less | rfl | more
      · have := pairs left right leftBound rightBound less
        omega
      · exact different rfl
      · have := pairs right left rightBound leftBound more
        omega
    exact same ▸ newer
  · rintro ⟨listed, newest⟩
    rcases exists_newest sorted listed with ⟨kept, keptMem, samePack, newer⟩
    have older := newest kept (mem_of_mem_keepNewestPerPack keptMem) samePack
    exact antisymm_of Before newer older ▸ keptMem

theorem newest_or_iff {held others : Location → Prop}
    (exists_ : ∀ one, held one → ∃ newest, Newest held newest ∧ newest.packSeq = one.packSeq) :
    Newest (fun one => Newest held one ∨ others one) location ↔
      Newest (fun one => held one ∨ others one) location := by
  constructor
  · rintro ⟨isHeld, newest⟩
    refine ⟨isHeld.imp_left And.left, fun other otherHeld samePack => ?_⟩
    rcases otherHeld with inHeld | inOthers
    · rcases exists_ other inHeld with ⟨best, isBest, bestPack⟩
      exact trans_of Before (isBest.2 other inHeld bestPack.symm)
        (newest best (Or.inl isBest) (bestPack.trans samePack))
    · exact newest other (Or.inr inOthers) samePack
  · rintro ⟨isHeld, newest⟩
    refine ⟨isHeld.imp_left fun inHeld => ⟨inHeld, fun other otherHeld =>
      newest other (Or.inl otherHeld)⟩, fun other otherHeld => newest other (otherHeld.imp_left And.left)⟩

end Location

structure IndexedObject where
  /-- Every pack it is stored in, lowest number first and one location each. -/
  locations : List Location
  /-- The direct entries of a tree; empty for a blob. -/
  children : ObjectSeqs
  ascending : locations.Pairwise fun earlier later => earlier.packSeq < later.packSeq
  deriving DecidableEq

namespace IndexedObject

instance : EmptyCollection IndexedObject := ⟨⟨[], ∅, .nil⟩⟩

def introducing (object : IndexedObject) : Option Location :=
  object.locations.head?

def absorb (object other : IndexedObject) : IndexedObject where
  locations := Location.keepNewestPerPack
    ((object.locations ++ other.locations).insertionSort Location.Before)
  children := object.children.absorb other.children
  ascending := Location.keepNewestPerPack_ascending
    ((pairwise_insertionSort Location.Before _).imp Location.packSeq_le_of_before)

def located (location : Location) : IndexedObject :=
  ⟨[location], ∅, pairwise_singleton _ _⟩

def listing (children : ObjectSeqs) : IndexedObject :=
  ⟨[], children, .nil⟩

variable {object other : IndexedObject} {location : Location}

theorem exists_newest_absorb
    (listed : location ∈ object.locations ∨ location ∈ other.locations) :
    ∃ kept ∈ (object.absorb other).locations, kept.packSeq = location.packSeq ∧
      location.Before kept := by
  refine Location.exists_newest (pairwise_insertionSort Location.Before _) ?_
  rwa [mem_insertionSort, mem_append]

theorem ext_iff_mem : object = other ↔ object.children = other.children ∧
    ∀ location, location ∈ object.locations ↔ location ∈ other.locations := by
  constructor
  · rintro rfl
    exact ⟨rfl, fun _ => Iff.rfl⟩
  · rintro ⟨sameChildren, sameLocations⟩
    have nodup : ∀ one : IndexedObject, one.locations.Nodup := fun one =>
      one.ascending.imp fun less same => (same ▸ less).ne rfl
    have sorted : ∀ one : IndexedObject, one.locations.Pairwise Location.Before := fun one =>
      one.ascending.imp Location.before_of_packSeq_lt
    have perm := (perm_ext_iff_of_nodup (nodup object) (nodup other)).mpr sameLocations
    have same := perm.eq_of_pairwise' (sorted object) (sorted other)
    cases object
    cases other
    simp_all

theorem mem_absorb {location : Location} : location ∈ (object.absorb other).locations ↔
    Location.Newest (fun one => one ∈ object.locations ∨ one ∈ other.locations) location := by
  refine (Location.mem_keepNewestPerPack_iff (pairwise_insertionSort Location.Before _)).trans ?_
  simp only [Location.Newest, mem_insertionSort, mem_append]

theorem exists_newest_of_mem {one : Location}
    (held : one ∈ object.locations ∨ one ∈ other.locations) :
    ∃ newest, Location.Newest (fun one => one ∈ object.locations ∨ one ∈ other.locations) newest ∧
      newest.packSeq = one.packSeq := by
  rcases exists_newest_absorb held with ⟨kept, keptMem, samePack, -⟩
  exact ⟨kept, mem_absorb.mp keptMem, samePack⟩

theorem absorb_comm (object other : IndexedObject) : object.absorb other = other.absorb object := by
  refine ext_iff_mem.mpr ⟨?_, fun location => ?_⟩
  · simp only [absorb, ObjectSeqs.absorb, Finset.union_comm]
  · simp only [mem_absorb, or_comm]

theorem absorb_assoc (object other third : IndexedObject) :
    (object.absorb other).absorb third = object.absorb (other.absorb third) := by
  refine ext_iff_mem.mpr ⟨?_, fun location => ?_⟩
  · simp only [absorb, ObjectSeqs.absorb, Finset.union_assoc]
  · have rotate : ∀ one : Location,
        ((one ∈ object.locations ∨ one ∈ other.locations) ∨ one ∈ third.locations) ↔
          ((one ∈ other.locations ∨ one ∈ third.locations) ∨ one ∈ object.locations) := by
      intro one
      rw [or_assoc, or_comm]
    rw [absorb_comm object (other.absorb third)]
    simp only [mem_absorb]
    rw [Location.newest_or_iff fun one => exists_newest_of_mem,
      Location.newest_or_iff fun one => exists_newest_of_mem]
    simp only [rotate]

end IndexedObject

abbrev ObjectIndex := AList fun _ : ℕ => IndexedObject

namespace ObjectIndex

def get (index : ObjectIndex) (seq : ℕ) : IndexedObject :=
  (index.lookup seq).getD ∅

end ObjectIndex

end Enroute
