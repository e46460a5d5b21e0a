import Enroute.Ingest.DeltaPlan
import Enroute.Lib.SuccessorWalk

/-!
# Bases before what is encoded against them

A pack lists its trees and then its blobs, each section in the order of a walk along bases. A base
outside the section is no base here, so what is left unsatisfied are edges of cycles inside one
section, and an entry encoded against itself is never out of order.
-/

namespace Enroute

open List SuccessorWalk

def indexIn (entries : List DeltaEntry) (oid : ObjectId) : Option (Fin entries.length) :=
  (List.finRange entries.length).reverse.find? fun at_ => (entries.get at_).oid = oid

def baseIn (entries : List DeltaEntry) (at_ : Fin entries.length) : Option (Fin entries.length) :=
  (entries.get at_).base.bind (indexIn entries)

def sectionOrder (fuel : ℕ) (entries : List DeltaEntry) : Option (List DeltaEntry) :=
  (SuccessorWalk.run (baseIn entries) fuel
    ⟨List.finRange entries.length, fun _ => .fresh, [], []⟩).map fun order =>
      order.map entries.get

/-- Put every entry after the one it deltas against, where both are in one section of the pack. -/
def dependencyOrder (fuel : ℕ) (entries : List DeltaEntry) : Option (List DeltaEntry) := do
  let trees ← sectionOrder fuel (entries.filter (·.kind = .tree))
  let blobs ← sectionOrder fuel (entries.filter (·.kind ≠ .tree))
  some (trees ++ blobs)

def BasedOn (entries : List DeltaEntry) (entry base : DeltaEntry) : Prop :=
  entry ∈ entries ∧ base ∈ entries ∧ entry.base = some base.oid

section Distinct

variable {entries : List DeltaEntry} (distinct : (entries.map DeltaEntry.oid).Nodup)
include distinct

theorem get_injective : Function.Injective entries.get :=
  nodup_iff_injective_get.mp distinct.of_map

theorem edge_baseIn_iff (one other : Fin entries.length) :
    BasedOn entries (entries.get one) (entries.get other) ↔ Edge (baseIn entries) one other := by
  have sits : ∀ {oid at_}, indexIn entries oid = some at_ → (entries.get at_).oid = oid :=
    fun isAt => by simpa using List.find?_some isAt
  have found : ∀ oid, indexIn entries oid = some other ↔ (entries.get other).oid = oid := by
    intro oid
    refine ⟨sits, fun isOid => ?_⟩
    have some_ : (indexIn entries oid).isSome := by
      rw [indexIn, List.find?_isSome]
      exact ⟨other, by simp, decide_eq_true isOid⟩
    rcases Option.isSome_iff_exists.mp some_ with ⟨at_, isAt⟩
    have sameOid : (entries.get at_).oid = (entries.get other).oid :=
      (sits isAt).trans isOid.symm
    rw [isAt, get_injective distinct (inj_on_of_nodup_map distinct (get_mem _ _)
      (get_mem _ _) sameOid)]
  rw [Edge, baseIn, Option.bind_eq_some_iff]
  constructor
  · rintro ⟨-, -, isBase⟩
    exact ⟨_, isBase, (found _).mpr rfl⟩
  · rintro ⟨oid, isBase, isAt⟩
    exact ⟨get_mem _ _, get_mem _ _, ((found oid).mp isAt).symm ▸ isBase⟩

theorem sectionOrder_spec :
    ∃ ordered, (∃ enough, ∀ fuel, enough ≤ fuel → sectionOrder fuel entries = some ordered) ∧
      ordered.Perm entries ∧ TargetsFirst (BasedOn entries) ordered := by
  rcases exists_order (baseIn entries) (mem_finRange (n := entries.length)) with
    ⟨order, ⟨enough, runs⟩, nodup, all, first⟩
  refine ⟨order.map entries.get, ⟨enough, fun fuel isEnough => ?_⟩, ?_, ?_⟩
  · rw [sectionOrder, runs fuel isEnough, Option.map_some]
  · have perm : order.Perm (List.finRange entries.length) :=
      (perm_ext_iff_of_nodup nodup (nodup_finRange _)).mpr fun at_ =>
        iff_of_true (all at_) (mem_finRange at_)
    have mapped := perm.map entries.get
    rwa [map_get_finRange] at mapped
  · refine first.map (edge_baseIn_iff distinct) ?_ (get_injective distinct)
    rintro one other ⟨oneMem, otherMem, -⟩
    exact ⟨mem_iff_get.mp oneMem, mem_iff_get.mp otherMem⟩

end Distinct

/-- The order of a pack comes to an end with every entry in it, trees first, and in each section
with bases first: an entry stands before its base only on a cycle, and once on each of two or more
entries. -/
theorem dependencyOrder_spec (entries : List DeltaEntry)
    (distinct : (entries.map DeltaEntry.oid).Nodup) :
    ∃ trees blobs, (∃ enough, ∀ fuel, enough ≤ fuel →
        dependencyOrder fuel entries = some (trees ++ blobs)) ∧
      (trees ++ blobs).Perm entries ∧ (∀ entry ∈ trees, entry.kind = .tree) ∧
      (∀ entry ∈ blobs, entry.kind ≠ .tree) ∧
      TargetsFirst (BasedOn (entries.filter (·.kind = .tree))) trees ∧
      TargetsFirst (BasedOn (entries.filter (·.kind ≠ .tree))) blobs := by
  have part : ∀ keep : DeltaEntry → Bool, ((entries.filter keep).map DeltaEntry.oid).Nodup :=
    fun keep => distinct.sublist (filter_sublist.map _)
  rcases sectionOrder_spec (part fun entry => entry.kind = .tree) with
    ⟨trees, ⟨enough, treesRun⟩, treesPerm, treesFirst⟩
  rcases sectionOrder_spec (part fun entry => entry.kind ≠ .tree) with
    ⟨blobs, ⟨enoughToo, blobsRun⟩, blobsPerm, blobsFirst⟩
  refine ⟨trees, blobs, ⟨max enough enoughToo, fun fuel isEnough => ?_⟩, ?_, ?_, ?_, treesFirst,
    blobsFirst⟩
  · rw [max_le_iff] at isEnough
    rw [dependencyOrder, treesRun fuel isEnough.1, blobsRun fuel isEnough.2]
    rfl
  · refine (treesPerm.append blobsPerm).trans ?_
    simpa using filter_append_perm (fun entry : DeltaEntry => entry.kind = .tree) entries
  · intro entry listed
    exact of_decide_eq_true (mem_filter.mp (treesPerm.mem_iff.mp listed)).2
  · intro entry listed
    exact of_decide_eq_true (mem_filter.mp (blobsPerm.mem_iff.mp listed)).2

theorem dependencyOrder_spec_cycle :
    ∃ trees blobs, (∃ enough, ∀ fuel, enough ≤ fuel →
        dependencyOrder fuel [⟨1, .tree, some 2, .encoded⟩, ⟨2, .tree, some 1, .encoded⟩] =
          some (trees ++ blobs)) ∧
      TargetsFirst (BasedOn [⟨1, .tree, some 2, .encoded⟩, ⟨2, .tree, some 1, .encoded⟩])
        trees := by
  rcases dependencyOrder_spec [⟨1, .tree, some 2, .encoded⟩, ⟨2, .tree, some 1, .encoded⟩]
    (by decide) with ⟨trees, blobs, runs, -, -, -, first, -⟩
  exact ⟨trees, blobs, runs, first⟩

/-- An entry encoded against itself is a cycle without an edge that is out of order. -/
theorem dependencyOrder_selfBased :
    dependencyOrder 4 [⟨7, .tree, some 7, .encoded⟩] = some [⟨7, .tree, some 7, .encoded⟩] ∧
      OnCycle (BasedOn [⟨7, .tree, some 7, .encoded⟩]) ⟨7, .tree, some 7, .encoded⟩
        ⟨7, .tree, some 7, .encoded⟩ ∧
      ∀ entry base, BasedOn [⟨7, .tree, some 7, .encoded⟩] entry base →
        ¬Before [⟨7, .tree, some 7, .encoded⟩] entry base := by
  have loop : BasedOn [⟨7, .tree, some 7, .encoded⟩] ⟨7, .tree, some 7, .encoded⟩
      ⟨7, .tree, some 7, .encoded⟩ := by
    simp [BasedOn]
  refine ⟨by decide, ⟨.single loop, .single loop⟩, ?_⟩
  rintro entry base ⟨entryMem, baseMem, -⟩
  rw [mem_singleton.mp entryMem, mem_singleton.mp baseMem]
  decide

end Enroute
