import Enroute.Lib.Except
import Enroute.Lib.Lists
import Enroute.Proto.Packets
import Mathlib

/-!
# Paging through repositories

A listing goes through the keys in byte order and resumes behind the last key it returned. A prefix
becomes a half-open range, up to the prefix with its last byte incremented, and one row more than
the page says whether there is a next page.

Other calls create and delete repositories meanwhile, so each call of a walk has its own keys.
-/

namespace Enroute.Listing

open List PktLine

def maxRepoKeyBytes : ℕ := 256

def repositoryLimit : ℕ := 100

def keyChar (char : Char) : Bool :=
  char.isAlphanum || char == '-' || char == '_' || char == '.'

def badRepoKey : String :=
  "a repository key is 1 to 256 bytes of ASCII letters, digits, '-', '_' and '.', " ++
    "starting and ending with a letter or digit"

def isKey (key : String) : Bool :=
  key ≠ "" && decide ((utf8 key).length ≤ maxRepoKeyBytes) && key.toList.all keyChar &&
    key.toList.head?.any Char.isAlphanum && key.toList.getLast?.any Char.isAlphanum

def parseKey (key : String) : Except String String :=
  if isKey key then .ok key else .error badRepoKey

def checkPrefix (lead : String) : Except String Unit :=
  if (utf8 lead).length ≤ maxRepoKeyBytes ∧ lead.toList.all keyChar then .ok ()
  else .error badRepoKey

def startsWith (key lead : String) : Bool :=
  (utf8 lead).isPrefixOf (utf8 key)

/-- The first text after every key with a prefix, or nothing when the prefix narrows nothing. -/
def prefixUpperBound (lead : String) : Option String := do
  let last ← (utf8 lead).getLast?
  String.fromUTF8? ⟨((utf8 lead).dropLast ++ [UInt8.ofNat (min (last.toNat + 1) 255)]).toArray⟩

def byteLe (left right : String) : Bool :=
  decide (utf8 left ≤ utf8 right)

def rangeByKey (live : List String) (lead after : String) : List String :=
  let upper := prefixUpperBound lead
  (live.filter fun key => decide (utf8 after < utf8 key) && decide (utf8 lead ≤ utf8 key) &&
    upper.all fun upper => decide (utf8 key < utf8 upper)).mergeSort byteLe

def pageByKey (live : List String) (lead after : String) (limit : ℕ) : List String :=
  (rangeByKey live lead after).take limit

structure Request where
  limit : ℕ
  pageToken : String
  lead : String

structure Response where
  keys : List String
  nextPageToken : String

def pageLimit (asked max : ℕ) : ℕ :=
  if asked = 0 then max else min max asked

/-- The page of the rows that were read, one more than the page may have. -/
def pageOf (limit : ℕ) (held : List String) : Response :=
  let page := held.take limit
  ⟨page, if limit < held.length then page.getLast?.getD "" else ""⟩

def listRepositories (live : List String) (request : Request) : Except String Response := do
  let after ← if request.pageToken = "" then .ok none
    else ((parseKey request.pageToken).map some).mapError fun _ => "not a page token"
  let limit := pageLimit request.limit repositoryLimit
  checkPrefix request.lead
  if after.any fun after => !startsWith after request.lead then
    .error "the page token is not inside the prefix"
  else .ok (pageOf limit (pageByKey live request.lead (after.getD "") (limit + 1)))

structure Call where
  limit : ℕ
  live : List String
  distinct : live.Nodup
  keys : ∀ key ∈ live, isKey key = true

/-- Call after call with the token of the one before: the pages, and whether the walk ended. -/
def walk (lead : String) : String → List Call → Except String (List (List String) × Bool)
  | _, [] => .ok ([], false)
  | token, call :: calls => do
      let response ← listRepositories call.live ⟨call.limit, token, lead⟩
      if response.nextPageToken = "" then .ok ([response.keys], true)
      else
        let rest ← walk lead response.nextPageToken calls
        .ok (response.keys :: rest.1, rest.2)

/-! ## The range of a prefix -/

theorem lead_iff_between {last next : UInt8} (isNext : next.toNat = last.toNat + 1)
    (lead key : Bytes) :
    lead ++ [last] ≤ key ∧ key < lead ++ [next] ↔ lead ++ [last] <+: key := by
  induction lead generalizing key with
  | nil =>
    cases key with
    | nil => simp
    | cons first key =>
      simp only [nil_append, cons_le_cons_iff, cons_lt_cons_iff, not_lt_nil,
        and_false, or_false, cons_prefix_cons, nil_prefix, and_true, nil_le,
        UInt8.lt_iff_toNat_lt, ← UInt8.toNat_inj]
      omega
  | cons byte lead ih =>
    cases key with
    | nil => simp
    | cons first key =>
      simp only [cons_append, cons_le_cons_iff, cons_lt_cons_iff,
        cons_prefix_cons, ← ih key, UInt8.lt_iff_toNat_lt, ← UInt8.toNat_inj]
      constructor
      · rintro ⟨below | ⟨same, below⟩, above | ⟨sameToo, above⟩⟩
        · omega
        · omega
        · omega
        · exact ⟨same, below, above⟩
      · rintro ⟨same, below, above⟩
        exact ⟨.inr ⟨same, below⟩, .inr ⟨same.symm, above⟩⟩

theorem toNat_of_keyChar {char : Char} (isKeyChar : keyChar char = true) : char.toNat < 127 := by
  simp only [keyChar, Char.isAlphanum, Char.isAlpha, Char.isUpper, Char.isLower, Char.isDigit,
    Bool.or_eq_true, Bool.and_eq_true, decide_eq_true_eq, beq_iff_eq, UInt32.le_iff_toNat_le,
    ge_iff_le] at isKeyChar
  rcases isKeyChar with ((((⟨-, most⟩ | ⟨-, most⟩) | ⟨-, most⟩) | rfl) | rfl) | rfl
  · exact Nat.lt_of_le_of_lt most (by decide)
  · exact Nat.lt_of_le_of_lt most (by decide)
  · exact Nat.lt_of_le_of_lt most (by decide)
  · decide
  · decide
  · decide

theorem utf8_singleton {char : Char} (ascii : char.toNat < 128) :
    utf8 (String.ofList [char]) = [UInt8.ofNat char.toNat] := by
  have small : char.utf8Size = 1 := by
    rw [Char.utf8Size_eq_one_iff, UInt32.le_iff_toNat_le]
    exact Nat.le_of_lt_succ ascii
  have isByte : char.toUInt8 = UInt8.ofNat char.toNat := rfl
  simp [utf8, List.utf8Encode, String.utf8EncodeChar_eq_singleton small, isByte]

/-- The upper bound is the prefix with its last byte incremented. -/
theorem prefixUpperBound_of_accepted {lead : String} (accepted : checkPrefix lead = .ok ())
    (narrows : lead ≠ "") :
    ∃ upper rest last next, prefixUpperBound lead = some upper ∧ utf8 lead = rest ++ [last] ∧
      utf8 upper = rest ++ [next] ∧ next.toNat = last.toNat + 1 := by
  have chars : lead.toList ≠ [] := fun empty => narrows (String.toList_eq_nil_iff.mp empty)
  rcases eq_nil_or_concat lead.toList with empty | ⟨init, char, isLead⟩
  · exact absurd empty chars
  rw [concat_eq_append] at isLead
  have isKeyChar : keyChar char = true := by
    rw [checkPrefix] at accepted
    split_ifs at accepted with ok
    exact all_eq_true.mp ok.2 char (by simp [isLead])
  have small := toNat_of_keyChar isKeyChar
  have next : (Char.ofNat (char.toNat + 1)).toNat = char.toNat + 1 := by
    rw [Char.ofNat, dif_pos (.inl (by omega))]
    rfl
  have leadBytes : utf8 lead = utf8 (String.ofList init) ++ [UInt8.ofNat char.toNat] := by
    rw [← String.ofList_toList (s := lead), isLead, String.ofList_append, utf8_append,
      utf8_singleton (by omega)]
  have upperBytes : utf8 (String.ofList (init ++ [Char.ofNat (char.toNat + 1)])) =
      utf8 (String.ofList init) ++ [UInt8.ofNat (char.toNat + 1)] := by
    rw [String.ofList_append, utf8_append, utf8_singleton (by omega), next]
  have lastNat : (UInt8.ofNat char.toNat).toNat = char.toNat :=
    UInt8.toNat_ofNat_of_lt (by change _ < 256; omega)
  refine ⟨_, _, _, _, ?_, leadBytes, upperBytes, ?_⟩
  · rw [prefixUpperBound, leadBytes, List.getLast?_concat, Option.bind_eq_bind, Option.bind_some,
      dropLast_concat, lastNat, Nat.min_eq_left (by omega), ← upperBytes, fromUTF8?_utf8]
  · rw [lastNat]
    exact UInt8.toNat_ofNat_of_lt (by change _ < 256; omega)

theorem mem_rangeByKey {live : List String} {lead after key : String}
    (accepted : checkPrefix lead = .ok ()) :
    key ∈ rangeByKey live lead after ↔
      key ∈ live ∧ utf8 after < utf8 key ∧ utf8 lead <+: utf8 key := by
  simp only [rangeByKey, mem_mergeSort, mem_filter, Bool.and_eq_true, decide_eq_true_eq,
    and_assoc]
  refine and_congr_right fun _ => and_congr_right fun _ => ?_
  by_cases narrows : lead = ""
  · have none_ : prefixUpperBound "" = none := by decide
    have empty : utf8 "" = [] := by decide
    simp [narrows, none_, empty]
  · rcases prefixUpperBound_of_accepted accepted narrows with
      ⟨upper, rest, last, next, isUpper, leadBytes, upperBytes, isNext⟩
    rw [isUpper, leadBytes, Option.all_some, decide_eq_true_eq, upperBytes]
    exact lead_iff_between isNext rest (utf8 key)

theorem pairwise_rangeByKey {live : List String} (distinct : live.Nodup) (lead after : String) :
    (rangeByKey live lead after).Pairwise fun left right => utf8 left < utf8 right := by
  have sorted : (rangeByKey live lead after).Pairwise fun left right => byteLe left right := by
    refine pairwise_mergeSort ?_ ?_ _
    · intro first second third
      simp only [byteLe, decide_eq_true_eq]
      exact List.le_trans
    · intro left right
      simp only [byteLe, Bool.or_eq_true, decide_eq_true_eq]
      exact List.le_total _ _
  have nodup : (rangeByKey live lead after).Nodup := nodup_mergeSort.mpr (distinct.filter _)
  refine (sorted.and nodup).imp fun {left right} both => ?_
  rcases List.le_iff_lt_or_eq.mp (of_decide_eq_true both.1) with less | same
  · exact less
  · exact absurd (utf8_injective same) both.2

/-! ## One call -/

/-- A token a call of the walk accepts. -/
def Resumable (lead token : String) : Prop :=
  token = "" ∨ isKey token = true ∧ utf8 lead <+: utf8 token

theorem ne_empty_of_isKey {key : String} (valid : isKey key = true) : key ≠ "" := by
  rintro rfl
  cases valid

/-- What a call returns: the first keys of the range behind the token, and where to resume unless
they are all. -/
structure Listed (lead token : String) (live : List String) (response : Response) : Prop where
  sorted : response.keys.Pairwise fun left right => utf8 left < utf8 right
  held : ∀ key ∈ response.keys, key ∈ live ∧ utf8 lead <+: utf8 key ∧ utf8 token < utf8 key
  resumes : response.nextPageToken ≠ "" → Resumable lead response.nextPageToken ∧
    utf8 token < utf8 response.nextPageToken ∧
    ∀ key ∈ response.keys, utf8 key ≤ utf8 response.nextPageToken
  rest : ∀ key ∈ live, utf8 lead <+: utf8 key → utf8 token < utf8 key → key ∈ response.keys ∨
    response.nextPageToken ≠ "" ∧ utf8 response.nextPageToken < utf8 key

theorem pageOf_listed {lead token : String} {live range : List String} {limit : ℕ}
    (positive : 0 < limit) (keys : ∀ key ∈ live, isKey key = true)
    (sorted : range.Pairwise fun left right => utf8 left < utf8 right)
    (isRange : ∀ key, key ∈ range ↔
      key ∈ live ∧ utf8 token < utf8 key ∧ utf8 lead <+: utf8 key) :
    Listed lead token live (pageOf limit (range.take (limit + 1))) := by
  have isPage : (range.take (limit + 1)).take limit = range.take limit := by
    rw [take_take, Nat.min_eq_left (Nat.le_succ _)]
  have more : limit < (range.take (limit + 1)).length ↔ limit < range.length := by
    rw [length_take]
    omega
  have held : ∀ key ∈ range.take limit,
      key ∈ live ∧ utf8 lead <+: utf8 key ∧ utf8 token < utf8 key := by
    intro key listed
    rcases (isRange key).mp (mem_of_mem_take listed) with ⟨isLive, behind, starts⟩
    exact ⟨isLive, starts, behind⟩
  have sortedPage := sorted.sublist (take_sublist limit range)
  rw [pageOf, isPage]
  by_cases long : limit < range.length
  · -- the last key of the page is the token, and the rest of the range is behind it
    rcases eq_nil_or_concat (range.take limit) with empty | ⟨init, last, isLast⟩
    · have := congrArg List.length empty
      rw [length_take, length_nil] at this
      omega
    rw [concat_eq_append] at isLast
    have lastHeld := held last (by simp [isLast])
    have isKey := keys last lastHeld.1
    rw [if_pos (more.mpr long), isLast, List.getLast?_concat, Option.getD_some, ← isLast]
    refine ⟨sortedPage, held, fun _ => ⟨.inr ⟨isKey, lastHeld.2.1⟩, lastHeld.2.2, ?_⟩, ?_⟩
    · intro key listed
      rw [isLast] at listed sortedPage
      rcases mem_append.mp listed with earlier | isEnd
      · exact List.le_of_lt ((pairwise_append.mp sortedPage).2.2 key earlier last (by simp))
      · rw [mem_singleton.mp isEnd]
        exact List.le_refl _
    · intro key isLive starts behind
      have inRange := (isRange key).mpr ⟨isLive, behind, starts⟩
      rw [← take_append_drop limit range] at inRange sorted
      rcases mem_append.mp inRange with inPage | later
      · exact .inl inPage
      · exact .inr ⟨ne_empty_of_isKey isKey,
          (pairwise_append.mp sorted).2.2 last (by simp [isLast]) key later⟩
  · rw [if_neg (more.not.mpr long)]
    refine ⟨sortedPage, held, fun resumes => absurd rfl resumes, ?_⟩
    intro key isLive starts behind
    rw [take_of_length_le (Nat.le_of_not_lt long)]
    exact .inl ((isRange key).mpr ⟨isLive, behind, starts⟩)

theorem listRepositories_listed {lead token : String} (accepted : checkPrefix lead = .ok ())
    (resumable : Resumable lead token) (call : Call) :
    ∃ response, listRepositories call.live ⟨call.limit, token, lead⟩ = .ok response ∧
      Listed lead token call.live response := by
  have positive : 0 < pageLimit call.limit repositoryLimit := by
    rw [pageLimit]
    split_ifs <;> simp only [repositoryLimit] <;> omega
  have listed : Listed lead token call.live
      (pageOf (pageLimit call.limit repositoryLimit) (pageByKey call.live lead token
        (pageLimit call.limit repositoryLimit + 1))) :=
    pageOf_listed positive call.keys (pairwise_rangeByKey call.distinct lead token)
      fun key => mem_rangeByKey accepted
  refine ⟨_, ?_, listed⟩
  rw [listRepositories]
  rcases resumable with rfl | ⟨isKey, starts⟩
  · simp [accepted, Except.ok_bind]
  · have inside : startsWith token lead = true := isPrefixOf_iff_prefix.mpr starts
    simp [ne_empty_of_isKey isKey, parseKey, isKey, accepted, inside, Except.ok_bind, Except.map,
      Except.mapError]

/-! ## A walk -/

theorem walk_spec {lead : String} (accepted : checkPrefix lead = .ok ()) (calls : List Call)
    {token : String} (resumable : Resumable lead token) :
    ∃ pages ended, walk lead token calls = .ok (pages, ended) ∧
      pages.flatten.Pairwise (fun left right => utf8 left < utf8 right) ∧
      (∀ key ∈ pages.flatten, utf8 token < utf8 key) ∧
      List.Forall₂ (fun page call => ∀ key ∈ page, key ∈ call.live ∧ utf8 lead <+: utf8 key) pages
        (calls.take pages.length) ∧
      (ended = true → ∀ key, utf8 lead <+: utf8 key → utf8 token < utf8 key →
        (∀ call ∈ calls.take pages.length, key ∈ call.live) → key ∈ pages.flatten) ∧
      (ended = true → pages ≠ []) := by
  induction calls generalizing token with
  | nil => exact ⟨[], false, rfl, .nil, by simp, .nil, by simp, by simp⟩
  | cons call calls ih =>
    rcases listRepositories_listed accepted resumable call with ⟨response, isResponse, listed⟩
    have here : ∀ key ∈ response.keys, key ∈ call.live ∧ utf8 lead <+: utf8 key :=
      fun key keyMem => ⟨(listed.held key keyMem).1, (listed.held key keyMem).2.1⟩
    rw [walk, isResponse, Except.ok_bind]
    by_cases atEnd : response.nextPageToken = ""
    · rw [if_pos atEnd]
      refine ⟨_, _, rfl, ?_, ?_, .cons here (by simp), ?_, by simp⟩
      · simpa using listed.sorted
      · simpa using fun key keyMem => (listed.held key keyMem).2.2
      · intro _ key starts behind live
        rcases listed.rest key (live call (by simp)) starts behind with found | ⟨more, -⟩
        · simpa using found
        · exact absurd atEnd more
    · rcases listed.resumes atEnd with ⟨resumes, behindToken, upTo⟩
      rcases ih resumes with ⟨pages, ended, isRest, sorted, behindNext, held, complete, -⟩
      rw [if_neg atEnd, isRest]
      refine ⟨_, _, rfl, ?_, ?_, .cons here held, ?_, by simp⟩
      · rw [flatten_cons, pairwise_append]
        refine ⟨listed.sorted, sorted, fun left leftMem right rightMem => ?_⟩
        exact Std.lt_of_le_of_lt (upTo left leftMem) (behindNext right rightMem)
      · intro key keyMem
        rcases mem_append.mp keyMem with found | later
        · exact (listed.held key found).2.2
        · exact List.lt_trans behindToken (behindNext key later)
      · intro isEnded key starts behind live
        rw [flatten_cons, mem_append]
        rcases listed.rest key (live call (by simp)) starts behind with found | ⟨-, behindLast⟩
        · exact .inl found
        · refine .inr (complete isEnded key starts behindLast fun later laterMem => ?_)
          exact live later (by simp [laterMem])

def threeLive : Call where
  limit := 1
  live := ["b", "ac", "ab"]
  distinct := by decide
  keys := by decide

/-- The second of three keys goes between the two calls. -/
def oneDeleted : Call where
  limit := 0
  live := ["b", "ad", "ab"]
  distinct := by decide
  keys := by decide

end Enroute.Listing
