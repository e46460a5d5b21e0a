import Enroute.Metadata.Refs

/-!
# The ref map of a repository

A ref map is what a listing of refs starts from: every name with its value as text, which is
either the forty hexadecimal digits of an object id or `ref: ` and the name of another ref. The only
entry of the second kind is `HEAD`, made up from the default branch the repository row names.
-/

namespace Enroute

def hexChar (digit : ℕ) : Char :=
  if digit < 10 then Char.ofNat (48 + digit) else Char.ofNat (87 + digit)

def hexDigits : ℕ → ObjectId → List Char
  | 0, _ => []
  | count + 1, oid => hexDigits count (oid / 16) ++ [hexChar (oid % 16)]

def toHex (oid : ObjectId) : String :=
  String.ofList (hexDigits 40 oid)

def isAsciiHexdigit (char : Char) : Bool :=
  ('0' ≤ char && char ≤ '9') || ('a' ≤ char && char ≤ 'f') || ('A' ≤ char && char ≤ 'F')

/-- Whether the value of a ref names an object directly, rather than another ref. Digits are single
bytes, so counting characters is counting bytes whenever the second half holds. -/
def isDirectRef (value : String) : Bool :=
  value.toList.length == 40 && value.toList.all isAsciiHexdigit

def stripLead (lead text : String) : Option String :=
  if lead.toList.isPrefixOf text.toList then
    some (String.ofList (text.toList.drop lead.toList.length))
  else none

theorem hexChar_injective {left right : ℕ} (leftDigit : left < 16) (rightDigit : right < 16)
    (same : hexChar left = hexChar right) : left = right := by
  have injective : ∀ left < 16, ∀ right < 16, hexChar left = hexChar right → left = right := by
    decide
  exact injective left leftDigit right rightDigit same

theorem isAsciiHexdigit_hexChar {digit : ℕ} (small : digit < 16) :
    isAsciiHexdigit (hexChar digit) = true := by
  have every : ∀ digit < 16, isAsciiHexdigit (hexChar digit) = true := by
    decide
  exact every digit small

@[simp]
theorem length_hexDigits (count : ℕ) (oid : ObjectId) : (hexDigits count oid).length = count := by
  induction count generalizing oid with
  | zero => rfl
  | succ count ih => simp [hexDigits, ih]

theorem all_hexDigits (count : ℕ) (oid : ObjectId) :
    (hexDigits count oid).all isAsciiHexdigit = true := by
  induction count generalizing oid with
  | zero => rfl
  | succ count ih =>
    have digit := isAsciiHexdigit_hexChar (Nat.mod_lt oid (by omega : 0 < 16))
    simp only [hexDigits, List.all_append, ih, List.all_cons, digit, List.all_nil, Bool.and_self]

theorem hexDigits_injective {count : ℕ} {left right : ObjectId} (leftFits : left < 16 ^ count)
    (rightFits : right < 16 ^ count) (same : hexDigits count left = hexDigits count right) :
    left = right := by
  induction count generalizing left right with
  | zero =>
    rw [pow_zero, Nat.lt_one_iff] at leftFits rightFits
    rw [leftFits, rightFits]
  | succ count ih =>
    rw [pow_succ] at leftFits rightFits
    rcases List.append_inj same (by simp) with ⟨high, low⟩
    have sameHigh := ih (Nat.div_lt_of_lt_mul (by rwa [mul_comm]))
      (Nat.div_lt_of_lt_mul (by rwa [mul_comm])) high
    have sameLow := hexChar_injective (Nat.mod_lt left (by omega)) (Nat.mod_lt right (by omega))
      (List.cons.inj low).1
    rw [← Nat.div_add_mod left 16, ← Nat.div_add_mod right 16, sameHigh, sameLow]

theorem toHex_injective {left right : ObjectId} (leftFits : left < 2 ^ 160)
    (rightFits : right < 2 ^ 160) (same : toHex left = toHex right) : left = right :=
  hexDigits_injective (by rwa [show 16 ^ 40 = 2 ^ 160 by norm_num])
    (by rwa [show 16 ^ 40 = 2 ^ 160 by norm_num]) (String.ofList_inj.mp same)

@[simp]
theorem isDirectRef_toHex (oid : ObjectId) : isDirectRef (toHex oid) = true := by
  simp only [isDirectRef, toHex, String.toList_ofList, length_hexDigits, BEq.rfl, all_hexDigits,
    Bool.and_self]

@[simp]
theorem stripLead_append (lead text : String) : stripLead lead (lead ++ text) = some text := by
  simp [stripLead]

def splitOnce (at_ : Char) (text : String) : Option (String × String) :=
  match text.toList.dropWhile (· ≠ at_) with
  | [] => none
  | _ :: after => some (String.ofList (text.toList.takeWhile (· ≠ at_)), String.ofList after)

theorem splitOnce_append {at_ : Char} {before : String} (absent : at_ ∉ before.toList)
    (after : String) : splitOnce at_ (before ++ String.singleton at_ ++ after) =
      some (before, after) := by
  have differs : ∀ char ∈ before.toList, decide (char ≠ at_) = true := by
    intro char charMem
    exact decide_eq_true fun same => absent (same ▸ charMem)
  have cut : (before ++ String.singleton at_ ++ after).toList =
      before.toList ++ at_ :: after.toList := by
    simp
  rw [splitOnce, cut, List.dropWhile_append_of_pos differs, List.takeWhile_append_of_pos differs]
  simp

abbrev RefsMap := Std.ExtTreeMap String String

/-- A repository as far as its refs go: its row and the rows of its refs. The default branch is one,
or creating the repository would have been refused. -/
structure Repository where
  id : ℕ
  defaultBranch : String
  rows : Std.ExtTreeMap String ObjectId
  branch : isBranchRefname defaultBranch = true
  wellNamed : ∀ refname oid, rows[refname]? = some oid → IsRefRow refname oid
  hashed : ∀ (refname : String) oid, rows[refname]? = some oid → oid < 2 ^ 160

namespace Repository

variable (repo : Repository)

def refsFor : RefsMap :=
  (repo.rows.map fun _ oid => toHex oid).insert "HEAD" ("ref: " ++ repo.defaultBranch)

theorem rows_head : repo.rows["HEAD"]? = none := by
  by_contra present
  rcases Option.ne_none_iff_exists'.mp present with ⟨oid, held⟩
  exact absurd (repo.wellNamed _ _ held).1 (by decide)

theorem defaultBranch_ne_head : repo.defaultBranch ≠ "HEAD" := by
  intro same
  have branch := repo.branch
  rw [same] at branch
  exact absurd branch (by decide)

@[simp]
theorem refsFor_head : repo.refsFor["HEAD"]? = some ("ref: " ++ repo.defaultBranch) := by
  simp [refsFor]

theorem refsFor_of_ne {refname : String} (distinct : refname ≠ "HEAD") :
    repo.refsFor[refname]? = repo.rows[refname]?.map toHex := by
  have later : compare "HEAD" refname ≠ .eq := by
    simpa using Ne.symm distinct
  rw [refsFor, Std.ExtTreeMap.getElem?_insert, if_neg later, Std.ExtTreeMap.getElem?_map]

end Repository

end Enroute
