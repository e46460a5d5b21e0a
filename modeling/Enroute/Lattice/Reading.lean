import Enroute.Lattice.Segments
import Enroute.Lib.Except
import Enroute.Lib.Pointwise

/-!
# Ranged reads and whole reads

A read of a range lists the segments that overlap it, decodes of each only the part in the range and
composes the parts. Nothing else going on in the scope, it agrees on every key of the range with a
read of everything, for any segment type whose join acts key by key and whose narrowed decoding
keeps what a whole decoding has at the keys that were asked for.
-/

namespace Enroute.Lattice

open Atomic Join List

variable {S V : Type} [Segment S]

def Store.bytesOf (store : Store S) (row : Written) : Option Bytes :=
  match row.body with
  | .inline bytes => some bytes
  | .bucket path => store.bucket.lookup path

def Store.decodeListed (store : Store S) (range : KeyRange) (one : Listed) : Except Error S :=
  match one.body with
  | .inline bytes => (Segment.decodeRange bytes range).mapError (.corrupt one.entry.id)
  | .bucket path =>
    match store.bucket.lookup path with
    | none => .error (.bucket one.entry.id)
    | some bytes => (Segment.decodeRange bytes range).mapError (.corrupt one.entry.id)

def Store.readAlone (store : Store S) (arrivals : Arrivals) (range : KeyRange) :
    Except Error (Option S) :=
  ((read arrivals range : Action S (Option S)).run.run store).1

section Alone

variable {store : Store S} {arrivals : Arrivals} {range : KeyRange}

theorem run_decodeOne (one : Listed) :
    (decodeOne range one : Action S S).run.run store = (store.decodeListed range one, store) := by
  rw [decodeOne, bytesOf, Store.decodeListed]
  cases one.body with
  | inline bytes => rfl
  | bucket path =>
    simp only [fetch, ExceptT.run_bind, ExceptT.run_mk, Prog.run_bind, Prog.run_read]
    cases store.bucket.lookup path <;> rfl

theorem run_mapM_decodeOne (listed : List Listed) :
    (listed.mapM (decodeOne range) : Action S (List S)).run.run store =
      (listed.mapM (store.decodeListed range), store) := by
  induction listed with
  | nil => rfl
  | cons one listed ih =>
    simp only [mapM_cons, ExceptT.run_bind, Prog.run_bind, run_decodeOne]
    cases store.decodeListed range one with
    | error failure => rfl
    | ok value =>
      simp only [Prog.run_bind, ih]
      cases listed.mapM (store.decodeListed range) <;> rfl

theorem readAlone_eq : store.readAlone arrivals range =
    ((arrivals.order (store.covering range)).mapM (store.decodeListed range)).map compose := by
  rw [Store.readAlone, read]
  simp only [view, decodeNarrowed, ExceptT.run_bind, ExceptT.run_mk, Prog.run_bind, Prog.run_read,
    run_mapM_decodeOne]
  cases (arrivals.order (store.covering range)).mapM (store.decodeListed range) <;> rfl

theorem readAlone_eq_ok_iff {answer : Option S} : store.readAlone arrivals range = .ok answer ↔
    ∃ values, (arrivals.order (store.covering range)).mapM (store.decodeListed range) = .ok values ∧
      compose values = answer := by
  rw [readAlone_eq]
  cases (arrivals.order (store.covering range)).mapM (store.decodeListed range) with
  | error failure => simp [Except.map]
  | ok values => simp [Except.map]

end Alone

def Store.Catalogued (made : S → Prop) (store : Store S) : Prop :=
  ∀ row ∈ store.rows, ∃ value : S, made value ∧ store.bytesOf row = some (Segment.encoded value) ∧
    Segment.range value = some row.range

def Store.sizeOf (size : S → ℕ) (store : Store S) (one : Listed) : ℕ :=
  match store.decodeListed .everything one with
  | .ok value => size value
  | .error _ => 0

def Store.weight (size : S → ℕ) (store : Store S) : ℕ :=
  (store.rows.map fun row => store.sizeOf size row.listed).sum

theorem Store.weight_zero (store : Store S) : store.weight (fun _ => 0) = 0 := by
  refine sum_eq_zero fun size sizeMem => ?_
  rcases mem_map.mp sizeMem with ⟨row, -, rfl⟩
  rw [Store.sizeOf]
  cases store.decodeListed .everything row.listed <;> rfl

def Store.heldAt (look : S → ℕ → Option V) (store : Store S) (key : ℕ) (one : Listed) : Option V :=
  (store.decodeListed .everything one).toOption.bind (look · key)

/-- A ranged read answers whenever a whole read does, and at every key of the range with the same,
whatever order the segments arrive in. -/
def Store.ReadsAgree (look : S → ℕ → Option V) (store : Store S) : Prop :=
  ∀ (arrivals wholeArrivals : Arrivals) (range : KeyRange) (key : ℕ) (whole : Option S),
    range.contains key = true → store.readAlone wholeArrivals .everything = .ok whole →
    ∃ part, store.readAlone arrivals range = .ok part ∧
      part.bind (look · key) = whole.bind (look · key)

theorem Store.ReadsAgree.map {W : Type} {look : S → ℕ → Option V} {store : Store S}
    (agree : store.ReadsAgree look) (convert : V → W) :
    store.ReadsAgree fun value key => (look value key).map convert := by
  intro arrivals wholeArrivals range key whole wanted wholeRead
  rcases agree arrivals wholeArrivals range key whole wanted wholeRead with ⟨part, partRead, same⟩
  have mapped : ∀ answer : Option S, (answer.bind fun value => (look value key).map convert) =
      (answer.bind (look · key)).map convert := by
    intro answer
    cases answer <;> rfl
  exact ⟨part, partRead, (mapped part).trans ((congrArg _ same).trans (mapped whole).symm)⟩

structure Narrowed (look : S → ℕ → Option V) (good : S → Prop) (size : S → ℕ) (covered range : KeyRange)
    (whole part : S) : Prop where
  good_whole : good whole
  good_part : good part
  size_le : size part ≤ size whole
  look_eq : ∀ key, range.contains key = true → look part key = look whole key
  covers : ∀ key, look whole key ≠ none → covered.contains key = true

section Agree

variable {look : S → ℕ → Option V} {merge : V → V → V} {good made : S → Prop} {size : S → ℕ}
  {limit : ℕ} {store : Store S}

theorem decodeListed_listed {row : Written} {bytes : Bytes}
    (isBytes : store.bytesOf row = some bytes) (range : KeyRange) :
    store.decodeListed range row.listed =
      (Segment.decodeRange bytes range).mapError (.corrupt row.id) := by
  rw [Store.bytesOf] at isBytes
  rw [Store.decodeListed, Written.listed]
  cases isBody : row.body with
  | inline inlined =>
    rw [isBody] at isBytes
    cases isBytes
    rfl
  | bucket path =>
    rw [isBody] at isBytes
    simp only at isBytes
    simp only [isBytes]
    rfl

theorem mapError_eq_ok_iff {ε ε' α : Type} {convert : ε → ε'} {answer : Except ε α} {result : α} :
    answer.mapError convert = .ok result ↔ answer = .ok result := by
  cases answer <;> simp [Except.mapError]

theorem exists_of_mapError_bind {ε ε' α β : Type} {convert : ε → ε'} {answer : Except ε α}
    {next : α → Except ε' β} {result : β} (bound : (answer.mapError convert >>= next) = .ok result) :
    ∃ found, answer = .ok found := by
  rcases Except.bind_eq_ok_iff.mp bound with ⟨found, isFound, -⟩
  exact ⟨found, mapError_eq_ok_iff.mp isFound⟩

omit [Segment S] in
theorem mem_order_covering {arrivals : Arrivals} {range : KeyRange} {one : Listed} :
    one ∈ arrivals.order (store.covering range) ↔
      ∃ row ∈ store.rows, row.range.overlaps range = true ∧ row.listed = one := by
  rw [(arrivals.perm _).mem_iff, Store.covering, mem_map]
  simp only [mem_filter, and_assoc]

def Store.NarrowsRow (look : S → ℕ → Option V) (good : S → Prop) (size : S → ℕ) (store : Store S)
    (range : KeyRange) (row : Written) : Prop :=
  ∃ whole part, store.decodeListed .everything row.listed = .ok whole ∧
    store.decodeListed range row.listed = .ok part ∧
    Narrowed look good size row.range range whole part

theorem look_compose_of_narrows [Std.Associative merge] [Std.Commutative merge]
    (pointwise : Pointwise look merge good size limit) (small : store.weight size ≤ limit)
    {arrivals : Arrivals} {range : KeyRange} {key : ℕ} {parts : List S}
    (narrows : ∀ row ∈ store.rows, store.NarrowsRow look good size range row)
    (wanted : range.contains key = true)
    (decoded : (arrivals.order (store.covering range)).mapM (store.decodeListed range) = .ok parts) :
    (compose parts).bind (look · key) =
      merged merge (store.rows.map fun row => store.heldAt look key row.listed) := by
  have good_parts : ∀ part ∈ parts, good part := by
    intro part partMem
    rcases (Except.mem_of_mapM decoded).mp partMem with ⟨one, listed, isPart⟩
    rcases mem_order_covering.mp listed with ⟨row, there, -, rfl⟩
    rcases narrows row there with ⟨whole, other, -, isOther, narrowed⟩
    cases isPart.symm.trans isOther
    exact narrowed.good_part
  have held : parts.map (look · key) =
      (arrivals.order (store.covering range)).map (store.heldAt look key) := by
    refine Except.map_eq_of_mapM (fun one listed part isPart => ?_) decoded
    rcases mem_order_covering.mp listed with ⟨row, there, -, rfl⟩
    rcases narrows row there with ⟨whole, other, isWhole, isOther, narrowed⟩
    cases isPart.symm.trans isOther
    rw [narrowed.look_eq key wanted, Store.heldAt, isWhole]
    rfl
  have sizes : (parts.map size).sum ≤ limit := by
    have pieces : (parts.map size).sum ≤
        ((arrivals.order (store.covering range)).map (store.sizeOf size)).sum := by
      refine Except.sum_le_of_mapM (fun one listed part isPart => ?_) decoded
      rcases mem_order_covering.mp listed with ⟨row, there, -, rfl⟩
      rcases narrows row there with ⟨whole, other, isWhole, isOther, narrowed⟩
      cases isPart.symm.trans isOther
      rw [Store.sizeOf, isWhole]
      exact narrowed.size_le
    refine pieces.trans (le_trans ?_ small)
    rw [((arrivals.perm _).map _).sum_eq, Store.covering, map_map]
    exact (filter_sublist.map _).sum_le_sum fun _ _ => Nat.zero_le _
  rw [pointwise.lookup_compose good_parts sizes, held, merged_eq_of_perm (arrivals.perm _),
    Store.covering, map_map]
  -- A row outside the range does not hold the key, which is in it.
  refine merged_filter fun row there apart => ?_
  rcases narrows row there with ⟨whole, part, isWhole, -, narrowed⟩
  rw [Function.comp_apply, Store.heldAt, isWhole]
  by_contra holds
  have overlaps := KeyRange.overlaps_of_contains (narrowed.covers key holds) wanted
  rw [overlaps] at apart
  cases apart

/-- Segments whose decoding narrows, and whose join acts key by key, are read alike in part and
whole. -/
theorem Store.Catalogued.reads_agree [Std.Associative merge] [Std.Commutative merge]
    (pointwise : Pointwise look merge good size limit)
    (narrows : ∀ (value whole : S) (covered range : KeyRange), made value →
      Segment.range value = some covered →
      Segment.decodeRange (Segment.encoded value) .everything = .ok whole → size whole ≤ limit →
      ∃ part, Segment.decodeRange (Segment.encoded value) range = .ok part ∧
        Narrowed look good size covered range whole part)
    (catalogued : store.Catalogued made) (small : store.weight size ≤ limit) :
    store.ReadsAgree look := by
  intro arrivals wholeArrivals range key whole wanted wholeRead
  rcases readAlone_eq_ok_iff.mp wholeRead with ⟨values, decoded, rfl⟩
  have narrowRows : ∀ range, ∀ row ∈ store.rows, store.NarrowsRow look good size range row := by
    intro range row there
    have listed : row.listed ∈ wholeArrivals.order (store.covering .everything) := by
      have bounded := row.range.ordered.trans row.range.bounded
      exact mem_order_covering.mpr
        ⟨row, there, by simp [KeyRange.overlaps, KeyRange.everything, bounded], rfl⟩
    rcases Except.exists_of_mapM decoded listed with ⟨value, -, isValue⟩
    rcases catalogued row there with ⟨origin, isMade, isBytes, isRange⟩
    have listedSize : store.sizeOf size row.listed ∈
        store.rows.map fun row => store.sizeOf size row.listed :=
      mem_map.mpr ⟨row, there, rfl⟩
    have sizeValue : store.sizeOf size row.listed ≤ limit :=
      (single_le_sum (fun _ _ => Nat.zero_le _) _ listedSize).trans small
    rw [Store.sizeOf, isValue] at sizeValue
    have decodes := decodeListed_listed isBytes
    rcases narrows origin value row.range range isMade isRange
      (mapError_eq_ok_iff.mp ((decodes _).symm.trans isValue)) sizeValue with ⟨part, isPart, narrowed⟩
    exact ⟨value, part, isValue, (decodes _).trans (mapError_eq_ok_iff.mpr isPart), narrowed⟩
  have partsDecode : ∀ one ∈ arrivals.order (store.covering range), ∃ part,
      store.decodeListed range one = .ok part := by
    intro one listed
    rcases mem_order_covering.mp listed with ⟨row, there, -, rfl⟩
    rcases narrowRows range row there with ⟨-, part, -, isPart, -⟩
    exact ⟨part, isPart⟩
  rcases Except.mapM_isOk partsDecode with ⟨parts, decodedParts⟩
  have named : KeyRange.everything.contains key = true := by
    rw [KeyRange.contains_iff] at wanted ⊢
    exact ⟨Nat.zero_le key, wanted.2.trans range.bounded⟩
  refine ⟨compose parts, readAlone_eq_ok_iff.mpr ⟨parts, decodedParts, rfl⟩, ?_⟩
  rw [look_compose_of_narrows pointwise small (narrowRows range) wanted decodedParts,
    look_compose_of_narrows pointwise small (narrowRows .everything) named decoded]

end Agree

end Enroute.Lattice
