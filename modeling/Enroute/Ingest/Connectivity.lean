import Enroute.Core.Object
import Enroute.Lib.Worklist

/-!
# Connectivity of a pushed tip

`checkConnectivity` walks everything reachable from a tip through the pack of the push. What
it meets outside the pack must be stored already. The walk visits exactly the objects
reachable through the pack, whatever the fuel beyond the bound, so a passing check says that
every reachable object is in the pack or stored.
-/

namespace Enroute

abbrev Pack := ObjectHashMap ObjectRefs

abbrev Index := ObjectId → Option ObjectMeta

namespace Pack

/-- The objects the walk queues behind `oid`: what it refers to when it is in the pack. -/
def deps (pack : Pack) (oid : ObjectId) : List ObjectId :=
  match pack.lookup oid with
  | some refs => refs.deps
  | none => []

def walkBound (pack : Pack) : ℕ :=
  1 + (pack.keys.map fun oid => (pack.deps oid).length).sum

theorem deps_eq_nil_of_notMem {pack : Pack} {oid : ObjectId} (outside : oid ∉ pack.keys) :
    pack.deps oid = [] := by
  have missing : pack.lookup oid = none := AList.lookup_eq_none.mpr outside
  rw [deps, missing]

def Reaches (pack : Pack) : ObjectId → ObjectId → Prop :=
  Relation.ReflTransGen fun source target => target ∈ pack.deps source

end Pack

def Index.holds (index : Index) (oid : ObjectId) : Bool :=
  match index oid with
  | some found => found.isStored
  | none => false

/-- Walk everything reachable from `tip`; what the pack lacks must be stored. The visited
objects come back with the answer. -/
def checkConnectivity (index : Index) (pack : Pack) (tip : ObjectId) : Bool × List ObjectId :=
  let visited := Worklist.visit Worklist.fifo pack.deps pack.walkBound [tip] []
  let storeChecks := visited.filter fun oid => (pack.lookup oid).isNone
  (storeChecks.all index.holds, visited)

theorem mem_checkConnectivity_visited (index : Index) (pack : Pack) (tip oid : ObjectId) :
    oid ∈ (checkConnectivity index pack tip).2 ↔ pack.Reaches tip oid := by
  have enough : [tip].length + Worklist.budget pack.deps pack.keys [] ≤ pack.walkBound := by
    rw [Worklist.budget_nil, Pack.walkBound, List.length_singleton]
  have visited : oid ∈ Worklist.visit Worklist.fifo pack.deps pack.walkBound [tip] [] ↔ _ :=
    Worklist.mem_visit_iff pack.keys_nodup (fun _ => Pack.deps_eq_nil_of_notMem) oid enough
  simp only [List.mem_singleton, exists_eq_left] at visited
  exact visited

/-- A tip is connected exactly when every object it reaches through the pack is in the pack
or stored. -/
theorem checkConnectivity_connected (index : Index) (pack : Pack) (tip : ObjectId) :
    (checkConnectivity index pack tip).1 = true ↔
      ∀ oid, pack.Reaches tip oid → (pack.lookup oid).isSome ∨ index.holds oid := by
  have visited := mem_checkConnectivity_visited index pack tip
  simp only [checkConnectivity] at visited ⊢
  simp only [List.all_eq_true, List.mem_filter, Option.isNone_iff_eq_none]
  constructor
  · intro stored oid reached
    by_cases missing : pack.lookup oid = none
    · exact Or.inr (stored oid ⟨(visited oid).mpr reached, missing⟩)
    · exact Or.inl (Option.isSome_iff_ne_none.mpr missing)
  · rintro connected oid ⟨met, missing⟩
    rcases connected oid ((visited oid).mp met) with inPack | stored
    · rw [missing] at inPack
      cases inPack
    · exact stored

end Enroute
