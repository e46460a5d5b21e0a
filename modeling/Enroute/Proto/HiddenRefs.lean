import Enroute.Proto.Advertisement
import Enroute.Lib.Except

/-!
# Hidden refs leave no trace

The refs an advertisement starts from are a function of the visible refs, the default branch and
whether that branch exists, so two repositories that agree on those are answered alike, byte for
byte. Every line of an answer is about `HEAD`, a visible ref or the pseudo-ref, and carries the id
of a visible ref if any. Only the capabilities of the version 0 advertisement name the default
branch of the repository row.
-/

namespace Enroute

open List

section Responses

variable {Actor : Type} (encoder : PktLine.DataEncoder) (hook : RefVisibility Actor) (actor : Actor)
  (repo : Repository)

/-- The refs the hook leaves visible. It is asked about every ref there is, and not at all about an
empty repository. -/
def visibleRows (access : Access) : Except String (Std.ExtTreeMap String ObjectId) :=
  if repo.rows.isEmpty then .ok ∅
  else (hook repo.id actor access repo.rows.keys).map fun visible =>
    repo.rows.filter fun name _ => visible.contains name

/-- The ref map a caller gets to see, from the visible refs and whether the default branch is
there. -/
def shownRefs (defaultBranch : String) (born : Bool) (visible : Std.ExtTreeMap String ObjectId) :
    RefsMap :=
  let refs := visible.map fun _ oid => toHex oid
  if born && !visible.contains defaultBranch then refs
  else refs.insert "HEAD" ("ref: " ++ defaultBranch)

variable {encoder hook actor repo} {access : Access}

variable {born : Bool} {defaultBranch : String} {visible : Std.ExtTreeMap String ObjectId}

theorem shownRefs_of_ne {name : String} (distinct : name ≠ "HEAD") :
    (shownRefs defaultBranch born visible)[name]? = visible[name]?.map toHex := by
  have later : compare "HEAD" name ≠ .eq := by
    simpa using Ne.symm distinct
  simp only [shownRefs]
  split_ifs
  · rw [Std.ExtTreeMap.getElem?_map]
  · rw [Std.ExtTreeMap.getElem?_insert, if_neg later, Std.ExtTreeMap.getElem?_map]

theorem shownRefs_head (unnamed : visible["HEAD"]? = none) :
    (shownRefs defaultBranch born visible)["HEAD"]? =
      if born && !visible.contains defaultBranch then none
      else some ("ref: " ++ defaultBranch) := by
  simp only [shownRefs]
  split_ifs
  · rw [Std.ExtTreeMap.getElem?_map, unnamed, Option.map_none]
  · rw [Std.ExtTreeMap.getElem?_insert_self]

theorem filter_refsFor (repo : Repository) :
    repo.refsFor.filter (fun name _ => name != "HEAD") = repo.rows.map fun _ oid => toHex oid := by
  apply Std.ExtTreeMap.ext_getElem?
  intro name
  rw [Std.ExtTreeMap.getElem?_filter', Std.ExtTreeMap.getElem?_map]
  by_cases head : name = "HEAD"
  · subst head
    rw [repo.rows_head, repo.refsFor_head]
    rfl
  · rw [repo.refsFor_of_ne head]
    cases repo.rows[name]? <;> simp [head]

theorem named_refsFor (repo : Repository) :
    repo.refsFor.keys.filter (fun name => name != "HEAD") = repo.rows.keys := by
  have filtered : (repo.refsFor.filter fun name _ => name != "HEAD").keys =
      repo.refsFor.keys.filter fun name => name != "HEAD" := by
    rw [← Std.ExtTreeMap.map_fst_toList_eq_keys, ← Std.ExtTreeMap.map_fst_toList_eq_keys,
      Std.ExtTreeMap.toList_filter, filter_map]
    rfl
  rw [← filtered, filter_refsFor, Std.ExtTreeMap.keys_map]

theorem hidesHead_refsFor (repo : Repository) (visible : List String) :
    hidesHead repo.refsFor visible =
      (repo.rows.contains repo.defaultBranch && !visible.contains repo.defaultBranch) := by
  have contains : repo.refsFor.contains repo.defaultBranch =
      repo.rows.contains repo.defaultBranch := by
    rw [Std.ExtTreeMap.contains_eq_isSome_getElem?, Std.ExtTreeMap.contains_eq_isSome_getElem?,
      repo.refsFor_of_ne repo.defaultBranch_ne_head, Option.isSome_map]
  simp only [hidesHead, repo.refsFor_head, Option.bind_some, stripLead_append, contains]

theorem contains_filter_rows (repo : Repository) (visible : List String) (name : String) :
    (repo.rows.filter fun name _ => visible.contains name).contains name =
      (repo.rows.contains name && visible.contains name) := by
  rw [Std.ExtTreeMap.contains_eq_isSome_getElem?, Std.ExtTreeMap.contains_eq_isSome_getElem?,
    Std.ExtTreeMap.getElem?_filter']
  cases repo.rows[name]? <;> cases visible.contains name <;> rfl

theorem filter_visible (repo : Repository) (visible : List String) :
    (repo.refsFor.filter fun name _ =>
      if name = "HEAD" then !hidesHead repo.refsFor visible else visible.contains name) =
      shownRefs repo.defaultBranch (repo.rows.contains repo.defaultBranch)
        (repo.rows.filter fun name _ => visible.contains name) := by
  apply Std.ExtTreeMap.ext_getElem?
  intro name
  rw [Std.ExtTreeMap.getElem?_filter']
  by_cases head : name = "HEAD"
  · subst head
    have unnamed : (repo.rows.filter fun name _ => visible.contains name)["HEAD"]? = none := by
      rw [Std.ExtTreeMap.getElem?_filter', repo.rows_head, Option.filter_none]
    rw [shownRefs_head unnamed, repo.refsFor_head, hidesHead_refsFor, contains_filter_rows]
    cases repo.rows.contains repo.defaultBranch <;>
      cases visible.contains repo.defaultBranch <;> rfl
  · rw [shownRefs_of_ne head, repo.refsFor_of_ne head, Std.ExtTreeMap.getElem?_filter']
    simp only [if_neg head]
    cases repo.rows[name]? <;> cases visible.contains name <;> rfl

/-- The refs an advertisement starts from depend on the visible refs only, and on whether the
default branch exists. -/
theorem advertisedRefs_eq :
    advertisedRefs hook actor repo access =
      (visibleRows hook actor repo access).map
        (shownRefs repo.defaultBranch (repo.rows.contains repo.defaultBranch)) := by
  rw [advertisedRefs, hideRefs, visibleRows]
  simp only [named_refsFor, Std.ExtTreeMap.isEmpty_keys]
  split_ifs with empty
  · have noRows := Std.ExtTreeMap.isEmpty_iff.mp empty
    congr 1
    apply Std.ExtTreeMap.ext_getElem?
    intro name
    by_cases head : name = "HEAD"
    · subst head
      rw [repo.refsFor_head, shownRefs_head Std.ExtTreeMap.getElem?_empty, noRows]
      rfl
    · rw [shownRefs_of_ne head, repo.refsFor_of_ne head, noRows]
  · simp only [filter_visible]
    cases hook repo.id actor access repo.rows.keys <;> rfl

/-! ## Traces of a hidden ref -/

theorem toHex_ne_noRef {refname : String} {oid : ObjectId} (held : repo.rows[refname]? = some oid) :
    toHex oid ≠ noRef := by
  have zero : noRef = toHex .null := by decide +kernel
  rw [zero]
  intro same
  exact (repo.wellNamed _ _ held).2
    (toHex_injective (repo.hashed _ _ held) (by decide) same)

theorem mem_directRefs {entry : String × String}
    (listed : entry ∈ directRefs (shownRefs defaultBranch born visible)) :
    ∃ oid, visible[entry.1]? = some oid ∧ entry.2 = toHex oid := by
  simp only [directRefs, mem_filter, Bool.and_eq_true, bne_iff_ne] at listed
  rcases listed with ⟨shown, distinct, -⟩
  rw [Std.ExtTreeMap.mem_toList_iff_getElem?_eq_some, shownRefs_of_ne distinct,
    Option.map_eq_some_iff] at shown
  rcases shown with ⟨oid, held, same⟩
  exact ⟨oid, held, same.symm⟩

/-- What a line may say to a caller who sees only `visible`, with `targets` the branches that may be
named as what `HEAD` points at. -/
structure Line.Admitted (visible : Std.ExtTreeMap String ObjectId) (targets : List String)
    (line : Line) : Prop where
  refname : ∀ name, line.refname = some name →
    name = "HEAD" ∨ name = pseudoRef ∨ name ∈ visible
  oid : ∀ text, line.oid = some text →
    text = noRef ∨ ∃ (name : String) (oid : ObjectId), visible[name]? = some oid ∧ text = toHex oid
  target : ∀ name ∈ line.symrefTargets, name ∈ targets

def RefRequest.targets (request : RefRequest) (defaultBranch : String) (headShown : Bool) :
    List String :=
  match request with
  | .lsRefs _ => if headShown then [defaultBranch] else []
  | .uploadPackV0 => [defaultBranch]
  | .receivePack => []

section Shown

variable {defaultBranch : String} {born : Bool} {visible : Std.ExtTreeMap String ObjectId}
  {targets : List String} {line : Line}

theorem admitted_refLine {entries : List (String × String)}
    (direct : ∀ entry ∈ entries, entry ∈ directRefs (shownRefs defaultBranch born visible))
    (listed : .line line ∈ entries.map refLine) : line.Admitted visible targets := by
  rcases mem_map.mp listed with ⟨entry, present, ⟨⟩⟩
  rcases mem_directRefs (direct entry present) with ⟨oid, held, same⟩
  refine ⟨?_, ?_, ?_⟩
  · rintro name ⟨⟩
    refine .inr (.inr (Std.ExtTreeMap.mem_iff_isSome_getElem?.mpr ?_))
    rw [held, Option.isSome_some]
  · rintro text ⟨⟩
    exact .inr ⟨entry.1, oid, held, same⟩
  · rintro name ⟨⟩

/-- The line that carries the capabilities is about `HEAD`, a visible ref or the pseudo-ref, and the
lines after it are about visible refs. -/
theorem admitted_advertisement {service : String} {capabilities : List Capability}
    {carrier : Option (String × String)} {rest : List (String × String)}
    (direct : ∀ entry ∈ rest, entry ∈ directRefs (shownRefs defaultBranch born visible))
    (carries : ∀ entry ∈ carrier, (entry.1 = "HEAD" ∨ entry.1 ∈ visible) ∧
      ∃ (name : String) (oid : ObjectId), visible[name]? = some oid ∧ entry.2 = toHex oid)
    (symrefs : ∀ name, .symref name ∈ capabilities → name ∈ targets)
    (listed : .line line ∈ advertisement service capabilities carrier rest) :
    line.Admitted visible targets := by
  simp only [advertisement, mem_append, mem_cons, Part.line.injEq, reduceCtorEq,
    not_mem_nil, or_false, false_or] at listed
  rcases listed with (rfl | rfl) | listed
  · exact ⟨by simp [Line.refname], by simp [Line.oid], by simp [Line.symrefTargets]⟩
  · refine ⟨?_, ?_, ?_⟩
    · rintro name ⟨⟩
      cases carrier with
      | none => exact .inr (.inl rfl)
      | some entry => exact (carries entry rfl).1.imp_right .inr
    · rintro text ⟨⟩
      cases carrier with
      | none => exact .inl rfl
      | some entry => exact .inr (carries entry rfl).2
    · intro name named
      simp only [Line.symrefTargets, mem_filterMap] at named
      rcases named with ⟨capability, present, same⟩
      cases capability with
      | symref target =>
        cases same
        exact symrefs _ present
      | word text => cases same
  · exact admitted_refLine direct listed

theorem admitted_lsHead {wantSymrefs wantUnborn : Bool} (unnamed : visible["HEAD"]? = none)
    (branch : defaultBranch ≠ "HEAD")
    (listed : .line line ∈ lsHead (shownRefs defaultBranch born visible) wantSymrefs wantUnborn) :
    line.Admitted visible
      (if !(born && !visible.contains defaultBranch) then [defaultBranch] else []) := by
  rw [lsHead, shownRefs_head unnamed] at listed
  by_cases hidden : (born && !visible.contains defaultBranch) = true
  · rw [if_pos hidden] at listed
    exact absurd listed (by simp)
  · rw [if_neg hidden] at listed
    simp only [hidden, Bool.not_false, if_true]
    simp only [resolveHead, stripLead_append, shownRefs_of_ne branch] at listed
    cases held : visible[defaultBranch]? with
    | none =>
      rw [held] at listed
      have unborn : line = .unborn defaultBranch := by
        cases wantUnborn <;> simp_all
      subst unborn
      refine ⟨?_, ?_, ?_⟩
      · rintro name ⟨⟩
        exact .inl rfl
      · rintro text ⟨⟩
      · exact fun name named => named
    | some oid =>
      have direct : Option.filter isDirectRef (some (toHex oid)) = some (toHex oid) := by
        rw [Option.filter_some, if_pos (isDirectRef_toHex oid)]
      rw [held, Option.map_some, direct] at listed
      have head := Part.line.inj (mem_singleton.mp listed)
      subst head
      refine ⟨?_, ?_, ?_⟩
      · intro name same
        exact .inl (Option.some.inj same).symm
      · intro text same
        exact .inr ⟨defaultBranch, oid, held, (Option.some.inj same).symm⟩
      · intro name named
        cases wantSymrefs with
        | false => exact absurd named (by simp [Line.symrefTargets])
        | true => exact named

theorem admitted_parts (unnamed : visible["HEAD"]? = none) (branch : defaultBranch ≠ "HEAD")
    {request : RefRequest}
    (listed : .line line ∈ request.parts (shownRefs defaultBranch born visible) defaultBranch) :
    line.Admitted visible
      (request.targets defaultBranch !(born && !visible.contains defaultBranch)) := by
  cases request with
  | lsRefs args =>
    simp only [RefRequest.parts, lsRefs, mem_append, mem_singleton, reduceCtorEq,
      or_false] at listed
    rcases listed with listed | listed
    · exact admitted_lsHead unnamed branch listed
    · exact admitted_refLine (fun _ => id) listed
  | uploadPackV0 =>
    refine admitted_advertisement (fun _ => id) ?_ ?_ listed
    · rintro entry carried
      rw [Option.mem_def, Option.map_eq_some_iff] at carried
      rcases carried with ⟨found, first, rfl⟩
      have shown := mem_of_find?_eq_some first
      have named : found.1 = defaultBranch := by simpa using List.find?_some first
      rw [Std.ExtTreeMap.mem_toList_iff_getElem?_eq_some, named, shownRefs_of_ne branch,
        Option.map_eq_some_iff] at shown
      rcases shown with ⟨oid, held, same⟩
      exact ⟨.inl rfl, defaultBranch, oid, held, same.symm⟩
    · intro name named
      simpa [agent, RefRequest.targets] using named
  | receivePack =>
    refine admitted_advertisement (fun _ => mem_of_mem_tail) ?_ ?_ listed
    · intro entry carried
      rcases mem_directRefs (mem_of_mem_head? carried) with ⟨oid, held, same⟩
      refine ⟨.inr ?_, entry.1, oid, held, same⟩
      exact Std.ExtTreeMap.mem_iff_isSome_getElem?.mpr (by rw [held, Option.isSome_some])
    · intro name named
      simp [agent] at named

end Shown

/-! ## What the responses give away -/

theorem held_of_visible (answered : visibleRows hook actor repo access = .ok visible)
    {name : String} {oid : ObjectId} (held : visible[name]? = some oid) :
    repo.rows[name]? = some oid := by
  rw [visibleRows] at answered
  split_ifs at answered
  · cases answered
    exact absurd held (by simp)
  · cases asked : hook repo.id actor access repo.rows.keys with
    | error failure => exact absurd answered (by simp [asked, Except.map])
    | ok names =>
      rw [asked] at answered
      cases answered
      rw [Std.ExtTreeMap.getElem?_filter', Option.filter_eq_some_iff] at held
      exact held.1

variable (encoder hook actor repo)

/-- A ref that exists and that the hook left out is on no line of a response that is sent, neither
as the ref the line is about nor as what a symbolic ref points at, and its object id is only there
if a visible ref has the same one. -/
def HiddenLeavesNoTrace : Prop :=
  ∀ request visible parts bytes, visibleRows hook actor repo request.access = .ok visible →
    answer hook actor repo request = .ok parts → encodeBody encoder parts = .ok bytes →
    ∀ (refname : String) oid, repo.rows[refname]? = some oid → refname ∉ visible →
      ∀ line, .line line ∈ parts → line.refname ≠ some refname ∧ refname ∉ line.symrefTargets ∧
        (line.oid = some (toHex oid) → ∃ other : String, visible[other]? = some oid)

/-- Two repositories a caller should not be able to tell apart: they have the same default branch,
it exists in both or in neither, and the visible refs are the same with the same values. -/
structure Alike {Other : Type} (otherHook : RefVisibility Other) (otherActor : Other)
    (other : Repository) (access : Access) : Prop where
  defaultBranch : repo.defaultBranch = other.defaultBranch
  born : repo.defaultBranch ∈ repo.rows ↔ other.defaultBranch ∈ other.rows
  visible : ∃ rows, visibleRows hook actor repo access = .ok rows ∧
    visibleRows otherHook otherActor other access = .ok rows

/-- A version 0 advertisement is sent for a repository whose default branch exists and is hidden. -/
def SendsHiddenDefault : Prop :=
  (∃ bytes, respond encoder hook actor repo .uploadPackV0 = .ok bytes) ∧
    repo.defaultBranch ∈ repo.rows ∧
    ∃ visible, visibleRows hook actor repo .read = .ok visible ∧ repo.defaultBranch ∉ visible

variable {encoder hook actor repo}

theorem answer_eq {request : RefRequest}
    (answered : visibleRows hook actor repo request.access = .ok visible) :
    answer hook actor repo request = .ok (request.parts (shownRefs repo.defaultBranch
      (repo.rows.contains repo.defaultBranch) visible) repo.defaultBranch) := by
  rw [answer, advertisedRefs_eq, answered]
  rfl

theorem Alike.respond {Other : Type} {otherHook : RefVisibility Other} {otherActor : Other}
    {other : Repository} {request : RefRequest}
    (alike : Alike hook actor repo otherHook otherActor other request.access) :
    Enroute.respond encoder hook actor repo request =
      Enroute.respond encoder otherHook otherActor other request := by
  rcases alike.visible with ⟨rows, answered, otherAnswered⟩
  have born : repo.rows.contains repo.defaultBranch = other.rows.contains other.defaultBranch := by
    rw [Bool.eq_iff_iff, Std.ExtTreeMap.contains_iff_mem, Std.ExtTreeMap.contains_iff_mem]
    exact alike.born
  rw [Enroute.respond, Enroute.respond, answer_eq answered, answer_eq otherAnswered, born,
    alike.defaultBranch]

theorem not_hiddenLeavesNoTrace (sends : SendsHiddenDefault encoder hook actor repo) :
    ¬HiddenLeavesNoTrace encoder hook actor repo := by
  rcases sends with ⟨⟨bytes, sent⟩, exists', visible, answered, hidden⟩
  rcases Std.ExtTreeMap.mem_iff_isSome_getElem?.mp exists' |> Option.isSome_iff_exists.mp with
    ⟨oid, held⟩
  have answers : answer hook actor repo .uploadPackV0 = .ok (uploadPackV0Advertisement
      (shownRefs repo.defaultBranch (repo.rows.contains repo.defaultBranch) visible)
      repo.defaultBranch) := answer_eq answered
  rw [respond, answers, Except.ok_bind] at sent
  intro traceless
  have untraced := traceless .uploadPackV0 visible _ bytes answered answers sent
    repo.defaultBranch oid held hidden
  simp only [uploadPackV0Advertisement, advertisement, mem_append, mem_cons] at untraced
  exact (untraced _ (.inl (.inl (.inr (.inr (.inl rfl)))))).2.1 (by simp [Line.symrefTargets])

theorem hiddenLeavesNoTrace (sends : ¬SendsHiddenDefault encoder hook actor repo) :
    HiddenLeavesNoTrace encoder hook actor repo := by
  intro request visible parts bytes answered answers sent refname oid held hidden line listed
  rw [answer_eq answered] at answers
  cases answers
  have within : ∀ (name : String) oid, visible[name]? = some oid → repo.rows[name]? = some oid :=
    fun _ _ => held_of_visible answered
  have unnamed : visible["HEAD"]? = none := by
    by_contra named
    rcases Option.ne_none_iff_exists'.mp named with ⟨other, shown⟩
    exact absurd (within _ _ shown) (by simp [repo.rows_head])
  have admitted := admitted_parts unnamed repo.defaultBranch_ne_head listed
  have underRefs := (repo.wellNamed _ _ held).1
  refine ⟨?_, ?_, ?_⟩
  · intro same
    rcases admitted.refname refname same with rfl | rfl | shown
    · exact absurd underRefs (by decide)
    · exact absurd underRefs (by decide)
    · exact hidden shown
  · intro named
    have target := admitted.target refname named
    have born : refname ∈ repo.rows :=
      Std.ExtTreeMap.mem_iff_isSome_getElem?.mpr (by rw [held, Option.isSome_some])
    cases request with
    | lsRefs args =>
      -- A hidden default branch takes `HEAD` with it.
      simp only [RefRequest.targets] at target
      split_ifs at target with headShown
      · rw [mem_singleton] at target
        subst target
        simp [Std.ExtTreeMap.contains_iff_mem.mpr born, hidden] at headShown
      · exact absurd target not_mem_nil
    | uploadPackV0 =>
      rw [RefRequest.targets, mem_singleton] at target
      subst target
      refine sends ⟨⟨bytes, ?_⟩, born, visible, answered, hidden⟩
      rw [respond, answer_eq answered]
      exact sent
    | receivePack => exact absurd target not_mem_nil
  · intro same
    rcases admitted.oid _ same with zero | ⟨other, otherOid, shown, sameText⟩
    · exact absurd zero (toHex_ne_noRef held)
    · have sameOid := toHex_injective (repo.hashed _ _ held)
        (repo.hashed _ _ (within _ _ shown)) sameText
      exact ⟨other, sameOid ▸ shown⟩

/-- No response gives a hidden ref away, and none tells two repositories apart that look alike,
exactly when no version 0 advertisement is sent for a repository whose default branch exists and is
hidden. -/
theorem hidden_refs_leave_no_trace_iff (encoder : PktLine.DataEncoder) (hook : RefVisibility Actor)
    (actor : Actor) (repo : Repository) :
    (HiddenLeavesNoTrace encoder hook actor repo ∧
      ∀ (Other : Type) (otherHook : RefVisibility Other) (otherActor : Other) (other : Repository)
        (request : RefRequest), Alike hook actor repo otherHook otherActor other request.access →
        respond encoder hook actor repo request =
          respond encoder otherHook otherActor other request) ↔
      ¬SendsHiddenDefault encoder hook actor repo := by
  constructor
  · rintro ⟨traceless, -⟩ sends
    exact not_hiddenLeavesNoTrace sends traceless
  · intro sends
    exact ⟨hiddenLeavesNoTrace sends, fun _ _ _ _ _ alike => alike.respond⟩

end Responses

theorem eq_of_getElem?_insert_empty {name refname : String} {value oid : ObjectId}
    (held : ((∅ : Std.ExtTreeMap String ObjectId).insert name value)[refname]? = some oid) :
    refname = name ∧ oid = value := by
  rw [Std.ExtTreeMap.getElem?_insert] at held
  split_ifs at held with same
  · exact ⟨(Std.LawfulEqCmp.eq_of_compare same).symm, (Option.some.inj held).symm⟩
  · simp at held

def lonelyMain : Repository where
  id := 1
  defaultBranch := "refs/heads/main"
  rows := (∅ : Std.ExtTreeMap String ObjectId).insert "refs/heads/main" 10
  branch := by decide
  wellNamed refname oid held := by
    rcases eq_of_getElem?_insert_empty held with ⟨rfl, rfl⟩
    exact ⟨by decide, by decide⟩
  hashed refname oid held := by
    rcases eq_of_getElem?_insert_empty held with ⟨-, rfl⟩
    decide

def hidesAll : RefVisibility Unit := fun _ _ _ _ => .ok []

theorem hidden_main_named :
    ¬HiddenLeavesNoTrace PktLine.referenceDataEncoder hidesAll () lonelyMain := by
  have sent : (respond PktLine.referenceDataEncoder hidesAll () lonelyMain
      .uploadPackV0).toOption.isSome = true := by
    decide +kernel
  refine not_hiddenLeavesNoTrace ⟨?_, by decide +kernel, ?_⟩
  · cases response : respond PktLine.referenceDataEncoder hidesAll () lonelyMain .uploadPackV0 with
    | error failure => simp [response, Except.toOption] at sent
    | ok bytes => exact ⟨bytes, rfl⟩
  · refine ⟨lonelyMain.rows.filter fun name _ => ([] : List String).contains name, ?_,
      by decide +kernel⟩
    rw [visibleRows, if_neg (by decide +kernel)]
    rfl

end Enroute
