import Enroute.Lib.Lists
import Enroute.Proto.Packets
import Mathlib

/-!
# Signed hook calls

A call is signed over the lines of a signature base. The verifier reads headers anyone may have
written, takes them apart at the first place that fits, and builds the base again from the pieces.
No piece has a newline in it, so a base that was signed is taken apart into what was signed, however
the header was spelled.
-/

namespace Enroute.Signature

open List PktLine

def label : String := "sig1"

def covers : String := "(\"@method\" \"@authority\" \"@path\" \"content-digest\")"

def maxSkewSecs : ℕ := 300

structure Covered where
  method : String
  authority : String
  path : String
  body : Bytes
  deriving DecidableEq

inductive Error where
  | missingHeader (name : String)
  | malformed (why : String)
  | coverage (components : String)
  | skewed (seconds : ℕ)
  | unknownKey (keyid : String)
  | digest
  | mismatch
  deriving DecidableEq

def Printable (text : String) : Prop :=
  ∀ char ∈ text.toList, 32 ≤ char.toNat ∧ char.toNat < 127

/-- The libraries a signature is made with. A key's id is its thumbprint, in the URL-safe
alphabet. -/
structure Crypto (Key Public : Type) where
  sha256 : Bytes → Bytes
  sha256_injective : Function.Injective sha256
  encode : Bytes → String
  decode : String → Option Bytes
  decode_encode : ∀ bytes, decode (encode bytes) = some bytes
  encode_printable : ∀ bytes, Printable (encode bytes)
  publicOf : Key → Public
  keyid : Public → String
  keyid_alphabet : ∀ key, ∀ char ∈ (keyid key).toList, char.isAlphanum ∨ char = '-' ∨ char = '_'
  signs : Key → Bytes → Bytes
  length_signs : ∀ key message, (signs key message).length = 64
  verifies : Public → Bytes → Bytes → Bool

section Calls

variable {Key Public : Type} (crypto : Crypto Key Public)

def contentDigest (body : Bytes) : String :=
  "sha-256=:" ++ crypto.encode (crypto.sha256 body) ++ ":"

def linesToBase (lines : List (String × String)) (params : String) : String :=
  (lines.foldl (fun base line => base ++ "\"" ++ line.1 ++ "\": " ++ line.2 ++ "\n") "") ++
    "\"@signature-params\": " ++ params

def signatureBase (covered : Covered) (digest params : String) : String :=
  linesToBase [("@method", covered.method), ("@authority", covered.authority),
    ("@path", covered.path), ("content-digest", digest)] params

def signedRest (key : Key) (created : ℕ) : String :=
  ";created=" ++ toString created ++ ";keyid=\"" ++ crypto.keyid (crypto.publicOf key) ++ "\""

def signedBase (key : Key) (covered : Covered) (created : ℕ) : String :=
  signatureBase covered (contentDigest crypto covered.body)
    (covers ++ signedRest crypto key created)

def sign (key : Key) (covered : Covered) (created : ℕ) : List (String × String) :=
  let signature := crypto.encode (crypto.signs key (utf8 (signedBase crypto key covered created)))
  [("content-digest", contentDigest crypto covered.body),
    ("signature-input", label ++ "=" ++ (covers ++ signedRest crypto key created)),
    ("signature", label ++ "=:" ++ (signature ++ ":"))]

abbrev HeaderMap := String → Option Bytes

def isVisibleAscii (byte : UInt8) : Bool :=
  (32 ≤ byte && byte < 127) || byte = 9

def need {α : Type} (error : Error) : Option α → Except Error α
  | some value => .ok value
  | none => .error error

theorem need_eq_ok_iff {α : Type} {error : Error} {found : Option α} {value : α} :
    need error found = .ok value ↔ found = some value := by
  cases found <;> simp [need]

def ensure (error : Error) (holds : Prop) [Decidable holds] : Except Error Unit :=
  if holds then .ok () else .error error

theorem ensure_eq_ok_iff {error : Error} {holds : Prop} [Decidable holds] {result : Unit} :
    ensure error holds = .ok result ↔ holds := by
  unfold ensure
  split_ifs with isTrue <;> simp [isTrue]

def header (headers : HeaderMap) (name : String) : Except Error String :=
  need (.missingHeader name) <| (headers name).bind fun value =>
    if value.all isVisibleAscii then String.fromUTF8? ⟨value.toArray⟩ else none

def trimMatches (drops : Char → Bool) (text : String) : String :=
  String.ofList ((text.toList.dropWhile drops).rdropWhile drops)

def partValue (name : String) (part : List Char) : Option String :=
  (splitOnce '=' (String.ofList part)).bind fun pair =>
    if trimMatches Char.isWhitespace pair.1 = name then some pair.2 else none

def param (params name : String) : Option String :=
  (params.toList.splitOn ';').findSome? (partValue name)

def parseU64 (text : String) : Option ℕ :=
  let digits := match text.toList with
    | '+' :: digits => digits
    | digits => digits
  let value := Nat.ofDigitChars 10 digits 0
  if digits ≠ [] ∧ digits.all Char.isDigit ∧ value < 2 ^ 64 then some value else none

def stripColon (text : String) : Option String :=
  if text.toList.getLast? = some ':' then some (String.ofList text.toList.dropLast) else none

def absDiff (left right : ℕ) : ℕ :=
  (left - right) + (right - left)

def verify (keys : List Public) (covered : Covered) (headers : HeaderMap) (now : ℕ) :
    Except Error Unit := do
  let input ← header headers "signature-input"
  let labelled ← need (.malformed "no label") (splitOnce '=' input)
  let listed ← need (.malformed "no component list") (splitOnce ')' labelled.2)
  let components := listed.1 ++ ")"
  ensure (.coverage components) (components = covers)
  let created ← need (.malformed "no created") (param listed.2 "created")
  let created ← need (.malformed "created is not unix seconds") (parseU64 created)
  ensure (.skewed (absDiff now created)) (absDiff now created ≤ maxSkewSecs)
  let quoted ← need (.malformed "no keyid") (param listed.2 "keyid")
  let keyid := trimMatches (· = '"') quoted
  let key ← need (.unknownKey keyid) (keys.find? fun key => crypto.keyid key = keyid)
  let digest ← header headers "content-digest"
  ensure .digest (digest = contentDigest crypto covered.body)
  let value ← header headers "signature"
  let encoded ← need (.malformed "signature is not a byte sequence")
    ((stripLead (labelled.1 ++ "=:") value).bind stripColon)
  let presented ← need .mismatch (crypto.decode encoded)
  ensure .mismatch (presented.length = 64)
  let base := signatureBase covered digest (components ++ listed.2)
  ensure .mismatch (crypto.verifies key (utf8 base) presented = true)

/-- Ed25519 as it is meant to be, for the calls that were signed: their signatures verify, and
nothing else does. -/
structure Ideal (called : Key → Covered → ℕ → Prop) : Prop where
  created_lt : ∀ key covered created, called key covered created → created < 2 ^ 64
  accepts : ∀ key covered created, called key covered created →
    crypto.verifies (crypto.publicOf key) (utf8 (signedBase crypto key covered created))
      (crypto.signs key (utf8 (signedBase crypto key covered created))) = true
  unforgeable : ∀ public_ message signature, crypto.verifies public_ message signature = true →
    ∃ key covered created, crypto.publicOf key = public_ ∧ called key covered created ∧
      message = utf8 (signedBase crypto key covered created)

end Calls

/-! ## The base -/

def baseLines (covered : Covered) (digest params : String) : List (List Char) :=
  ["\"@method\": ".toList ++ covered.method.toList,
    "\"@authority\": ".toList ++ covered.authority.toList,
    "\"@path\": ".toList ++ covered.path.toList,
    "\"content-digest\": ".toList ++ digest.toList,
    "\"@signature-params\": ".toList ++ params.toList]

theorem toList_signatureBase (covered : Covered) (digest params : String) :
    (signatureBase covered digest params).toList =
      ['\n'].intercalate (baseLines covered digest params) := by
  simp [signatureBase, linesToBase, baseLines, List.intercalate]

def Covered.NewlineFree (covered : Covered) : Prop :=
  '\n' ∉ covered.method.toList ∧ '\n' ∉ covered.authority.toList ∧ '\n' ∉ covered.path.toList

theorem signatureBase_injective {covered other : Covered} {digest digest' params params' : String}
    (newlineFree : covered.NewlineFree) (digestFree : '\n' ∉ digest.toList)
    (paramsFree : '\n' ∉ params.toList)
    (same : signatureBase covered digest params = signatureBase other digest' params') :
    baseLines covered digest params = baseLines other digest' params' := by
  have lists := congrArg String.toList same
  rw [toList_signatureBase, toList_signatureBase] at lists
  refine Lists.intercalate_inj rfl ?_ lists
  simp [baseLines, newlineFree.1, newlineFree.2.1, newlineFree.2.2, digestFree, paramsFree]

/-! ## Texts -/

theorem Printable.append {left right : String} (leftPrints : Printable left)
    (rightPrints : Printable right) : Printable (left ++ right) := by
  intro char charMem
  rw [String.toList_append, mem_append] at charMem
  exact charMem.elim (leftPrints char) (rightPrints char)

instance (text : String) : Decidable (Printable text) :=
  List.decidableBAll (fun char : Char => 32 ≤ char.toNat ∧ char.toNat < 127) text.toList

theorem Printable.newlineFree {text : String} (prints : Printable text) : '\n' ∉ text.toList :=
  fun newline => absurd (prints _ newline).1 (by decide)

theorem digits_of_mem {created : ℕ} {char : Char} (charMem : char ∈ (toString created).toList) :
    char.isDigit = true := by
  rw [Nat.toString_eq_repr, Nat.repr_eq_ofList_toDigits, String.toList_ofList] at charMem
  exact Nat.isDigit_of_mem_toDigits (by decide) le_rfl charMem

theorem ne_of_isDigit {char other : Char} (isDigit : char.isDigit = true)
    (isOther : other.isDigit = false) : char ≠ other := by
  rintro rfl
  rw [isDigit] at isOther
  cases isOther

theorem printable_toString (created : ℕ) : Printable (toString created) := by
  intro char charMem
  have isDigit := digits_of_mem charMem
  simp only [Char.isDigit, Bool.and_eq_true, decide_eq_true_eq, UInt32.le_iff_toNat_le] at isDigit
  change 48 ≤ char.toNat ∧ char.toNat ≤ 57 at isDigit
  omega

theorem parseU64_toString {created : ℕ} (fits : created < 2 ^ 64) :
    parseU64 (toString created) = some created := by
  have digits : (toString created).toList = Nat.toDigits 10 created := by
    rw [Nat.toString_eq_repr, Nat.repr_eq_ofList_toDigits, String.toList_ofList]
  have isDigit : (Nat.toDigits 10 created).all Char.isDigit = true := by
    rw [all_eq_true]
    exact fun char charMem => Nat.isDigit_of_mem_toDigits (by decide) le_rfl charMem
  have signless : (match (toString created).toList with
      | '+' :: digits => digits
      | digits => digits) = Nat.toDigits 10 created := by
    rw [digits]
    split
    · next rest isPlus =>
        rw [isPlus] at isDigit
        cases isDigit
    · rfl
  simp only [parseU64, signless, Nat.ofDigitChars_ten_toDigits]
  rw [if_pos ⟨Nat.toDigits_ne_nil, isDigit, fits⟩]

theorem utf8_ofList_cons (char : Char) (chars : List Char) :
    utf8 (String.ofList (char :: chars)) =
      utf8 (String.ofList [char]) ++ utf8 (String.ofList chars) := by
  rw [← utf8_append, ← String.ofList_append, singleton_append]

theorem header_utf8 {headers : HeaderMap} {name text : String}
    (sent : headers name = some (utf8 text)) (prints : Printable text) :
    header headers name = .ok text := by
  have visible : ∀ code < 127, 32 ≤ code →
      (utf8 (String.ofList [Char.ofNat code])).all isVisibleAscii = true := by
    decide
  have seen : ∀ chars : List Char, (∀ char ∈ chars, 32 ≤ char.toNat ∧ char.toNat < 127) →
      (utf8 (String.ofList chars)).all isVisibleAscii = true := by
    intro chars bounds
    induction chars with
    | nil => rfl
    | cons char chars ih =>
      rw [forall_mem_cons] at bounds
      have first := visible char.toNat bounds.1.2 bounds.1.1
      rw [Char.ofNat_toNat] at first
      rw [utf8_ofList_cons, all_append, first, ih bounds.2, Bool.and_self]
  have all := seen text.toList prints
  rw [String.ofList_toList] at all
  rw [header, sent, Option.bind_some, if_pos all, fromUTF8?_utf8]
  rfl

theorem newlineFree_of_header {headers : HeaderMap} {name text : String}
    (read : header headers name = .ok text) : '\n' ∉ text.toList := by
  rw [header, need_eq_ok_iff, Option.bind_eq_some_iff] at read
  rcases read with ⟨value, -, read⟩
  split_ifs at read with visible
  rw [String.fromUTF8?, Option.dite_none_right_eq_some] at read
  rcases read with ⟨valid, isText⟩
  have bytes : value = utf8 text := by
    rw [← Option.some.inj isText]
    rfl
  intro newline
  rcases append_of_mem newline with ⟨before, after, split⟩
  have cut : text = String.ofList before ++ ("\n" ++ String.ofList after) := by
    rw [← String.ofList_toList (s := text), split]
    simp
  have listed : (10 : UInt8) ∈ utf8 text := by
    have isTen : utf8 "\n" = [10] := by decide
    rw [cut, utf8_append, utf8_append, isTen]
    simp
  rw [bytes, all_eq_true] at visible
  exact absurd (visible 10 listed) (by decide)

theorem toList_of_splitOnce {at_ : Char} {text : String} {pair : String × String}
    (splits : splitOnce at_ text = some pair) :
    text.toList = pair.1.toList ++ at_ :: pair.2.toList := by
  unfold splitOnce at splits
  split at splits
  · cases splits
  · next first after isRest =>
      have parts := takeWhile_append_dropWhile (p := fun char => decide (char ≠ at_))
        (l := text.toList)
      have isAt : first = at_ := by
        have stops := List.head?_dropWhile_not (fun char => decide (char ≠ at_)) text.toList
        rw [isRest] at stops
        simpa using stops
      cases splits
      rw [isRest, isAt] at parts
      simpa using parts.symm

/-! ## The parameters of a signed call -/

section Signed

variable {Key Public : Type} {crypto : Crypto Key Public} (key : Key) (created : ℕ)

theorem keyid_ne {public_ : Public} {char : Char} (listed : char ∈ (crypto.keyid public_).toList)
    {other : Char} (outside : ¬(other.isAlphanum ∨ other = '-' ∨ other = '_')) : char ≠ other := by
  rintro rfl
  exact outside (crypto.keyid_alphabet public_ _ listed)

theorem splitOn_signedRest :
    (signedRest crypto key created).toList.splitOn ';' =
      [[], "created".toList ++ '=' :: (toString created).toList,
        "keyid".toList ++
          '=' :: '"' :: ((crypto.keyid (crypto.publicOf key)).toList ++ ['"'])] := by
  have parts : (signedRest crypto key created).toList = [';'].intercalate
      [[], "created".toList ++ '=' :: (toString created).toList,
        "keyid".toList ++
          '=' :: '"' :: ((crypto.keyid (crypto.publicOf key)).toList ++ ['"'])] := by
    simp [signedRest, List.intercalate]
  have digits : ';' ∉ (toString created).toList := fun listed =>
    ne_of_isDigit (digits_of_mem listed) (by decide) rfl
  have letters : ';' ∉ (crypto.keyid (crypto.publicOf key)).toList := fun listed =>
    keyid_ne listed (by decide) rfl
  rw [parts, splitOn_intercalate ';' ?_ (by simp)]
  rw [forall_mem_cons, forall_mem_cons, forall_mem_cons]
  simp only [mem_append, mem_cons, not_or]
  exact ⟨nofun, ⟨by decide, by decide, digits⟩,
    ⟨by decide, by decide, by decide, letters, by decide⟩, nofun⟩

theorem partValue_of {name : String} {other : String} (absent : '=' ∉ other.toList)
    (isTrimmed : trimMatches Char.isWhitespace other = other) (value : List Char) :
    partValue name (other.toList ++ '=' :: value) =
      if other = name then some (String.ofList value) else none := by
  have cut : String.ofList (other.toList ++ '=' :: value) =
      other ++ String.singleton '=' ++ String.ofList value := by
    rw [← String.toList_inj]
    simp
  rw [partValue, cut, splitOnce_append absent, Option.bind_some, isTrimmed]

theorem partValue_nil (name : String) : partValue name [] = none :=
  rfl

theorem param_created :
    param (signedRest crypto key created) "created" = some (toString created) := by
  have found : partValue "created" ("created".toList ++ '=' :: (toString created).toList) =
      some (toString created) := by
    rw [partValue_of (by decide) (by decide), if_pos rfl, String.ofList_toList]
  rw [param, splitOn_signedRest, List.findSome?_cons, partValue_nil, List.findSome?_cons, found]

theorem param_keyid : param (signedRest crypto key created) "keyid" =
    some (String.ofList ('"' :: ((crypto.keyid (crypto.publicOf key)).toList ++ ['"']))) := by
  have other : partValue "keyid" ("created".toList ++ '=' :: (toString created).toList) = none := by
    rw [partValue_of (by decide) (by decide), if_neg (by decide)]
  rw [param, splitOn_signedRest, List.findSome?_cons, partValue_nil, List.findSome?_cons, other,
    List.findSome?_cons, partValue_of (by decide) (by decide), if_pos rfl]

theorem trimMatches_quoted (letters : List Char) (absent : '"' ∉ letters) :
    trimMatches (· = '"') (String.ofList ('"' :: (letters ++ ['"']))) = String.ofList letters := by
  have keeps : ∀ chars : List Char, '"' ∉ chars → chars.dropWhile (· = '"') = chars := by
    intro chars missing
    cases chars with
    | nil => rfl
    | cons char chars =>
      rw [mem_cons, not_or] at missing
      rw [dropWhile_cons_of_neg (by simpa using Ne.symm missing.1)]
  rw [trimMatches, String.toList_ofList, dropWhile_cons_of_pos (by decide)]
  cases letters with
  | nil => rfl
  | cons letter letters =>
    have first : letter ≠ '"' := fun same => absent (same ▸ mem_cons_self)
    rw [cons_append, dropWhile_cons_of_neg (by simpa using first), ← cons_append,
      rdropWhile_concat_pos _ _ _ (by decide), List.rdropWhile,
      keeps _ fun listed => absent (mem_reverse.mp listed), reverse_reverse]

end Signed

/-! ## What is verified is what was signed -/

section Verify

variable {Key Public : Type} {crypto : Crypto Key Public}

theorem printable_contentDigest (body : Bytes) : Printable (contentDigest crypto body) :=
  (Printable.append (by decide) (crypto.encode_printable _)).append (by decide)

theorem printable_signedRest (key : Key) (created : ℕ) :
    Printable (signedRest crypto key created) := by
  have letters : Printable (crypto.keyid (crypto.publicOf key)) := by
    intro char listed
    rcases crypto.keyid_alphabet _ char listed with isAlphanum | rfl | rfl
    · simp only [Char.isAlphanum, Char.isAlpha, Char.isUpper, Char.isLower, Char.isDigit,
        Bool.or_eq_true, Bool.and_eq_true, decide_eq_true_eq, UInt32.le_iff_toNat_le] at isAlphanum
      change ((65 ≤ char.toNat ∧ char.toNat ≤ 90) ∨ (97 ≤ char.toNat ∧ char.toNat ≤ 122)) ∨
        (48 ≤ char.toNat ∧ char.toNat ≤ 57) at isAlphanum
      omega
    · decide
    · decide
  exact ((((show Printable ";created=" by decide).append (printable_toString created)).append
    (by decide)).append letters).append (by decide)

theorem signed_of_verify {called : Key → Covered → ℕ → Prop} (ideal : Ideal crypto called)
    {keys : List Public} {covered : Covered} {headers : HeaderMap} {now : ℕ}
    (newlineFree : covered.NewlineFree)
    (verified : verify crypto keys covered headers now = .ok ()) :
    ∃ key created, crypto.publicOf key ∈ keys ∧ called key covered created ∧
      absDiff now created ≤ maxSkewSecs := by
  simp only [verify, Except.bind_eq_ok_iff, need_eq_ok_iff, ensure_eq_ok_iff] at verified
  rcases verified with ⟨input, isInput, labelled, isLabelled, listed, isListed, -, isCovers,
    created, isCreated, seconds, isSeconds, -, near, quoted, -, public_, isKey, digest, -, -, rfl,
    -, -, -, -, presented, -, -, -, verifies⟩
  rcases ideal.unforgeable _ _ _ verifies with ⟨key, other, at_, isPublic, isCalled, sameBytes⟩
  have restFree : '\n' ∉ listed.2.toList := by
    have inputFree := newlineFree_of_header isInput
    rw [toList_of_splitOnce isLabelled, toList_of_splitOnce isListed] at inputFree
    exact fun newline => inputFree (by simp [newline])
  have paramsFree : '\n' ∉ (listed.1 ++ ")" ++ listed.2).toList := by
    rw [isCovers, String.toList_append, mem_append, not_or]
    exact ⟨by decide, restFree⟩
  have lines := signatureBase_injective newlineFree (printable_contentDigest _).newlineFree
    paramsFree (utf8_injective sameBytes)
  simp only [baseLines, List.cons.injEq, append_cancel_left_eq, String.toList_inj] at lines
  rcases lines with ⟨method, authority, path, sameDigest, params, -⟩
  -- The digest is that of one body only.
  have encoded : crypto.encode (crypto.sha256 covered.body) =
      crypto.encode (crypto.sha256 other.body) := by
    rw [contentDigest, contentDigest, ← String.toList_inj] at sameDigest
    exact String.toList_inj.mp (by simpa using sameDigest)
  have decoded := congrArg crypto.decode encoded
  rw [crypto.decode_encode, crypto.decode_encode, Option.some.injEq] at decoded
  have isOther : other = covered := by
    have body := crypto.sha256_injective decoded
    rcases covered with ⟨_, _, _, _⟩
    rcases other with ⟨_, _, _, _⟩
    simp only at method authority path body
    rw [method, authority, path, body]
  have rest : listed.2 = signedRest crypto key at_ := by
    rw [isCovers, ← String.toList_inj, String.toList_append, String.toList_append,
      append_cancel_left_eq, String.toList_inj] at params
    exact params
  rw [rest, param_created, Option.some.injEq] at isCreated
  rw [← isCreated, parseU64_toString (ideal.created_lt key other at_ isCalled),
    Option.some.injEq] at isSeconds
  refine ⟨key, at_, isPublic ▸ mem_of_find?_eq_some isKey, isOther ▸ isCalled, ?_⟩
  rwa [isSeconds]

def Carries (headers : HeaderMap) (fields : List (String × String)) : Prop :=
  ∀ field ∈ fields, headers field.1 = some (utf8 field.2)

theorem verify_signed {called : Key → Covered → ℕ → Prop} (ideal : Ideal crypto called)
    {key : Key} {covered : Covered} {created : ℕ} (isCalled : called key covered created)
    {keys : List Public} {headers : HeaderMap} {now : ℕ}
    (carries : Carries headers (sign crypto key covered created))
    (first : (keys.find? fun other => crypto.keyid other = crypto.keyid (crypto.publicOf key)) =
      some (crypto.publicOf key)) :
    verify crypto keys covered headers now = .ok () ↔ absDiff now created ≤ maxSkewSecs := by
  simp only [Carries, sign, forall_mem_cons] at carries
  rcases carries with ⟨sentDigest, sentInput, sentSignature, -⟩
  have isDigest := header_utf8 sentDigest (printable_contentDigest _)
  have isInput := header_utf8 sentInput (Printable.append (by decide)
    (Printable.append (by decide) (printable_signedRest key created)))
  have isSignature := header_utf8 sentSignature (Printable.append (by decide)
    (Printable.append (crypto.encode_printable _) (by decide)))
  have isLabelled : splitOnce '=' (label ++ "=" ++ (covers ++ signedRest crypto key created)) =
      some (label, covers ++ signedRest crypto key created) :=
    splitOnce_append (by decide) _
  have isCovers : "(\"@method\" \"@authority\" \"@path\" \"content-digest\"" ++ ")" = covers := by
    decide
  have isListed : splitOnce ')' (covers ++ signedRest crypto key created) =
      some ("(\"@method\" \"@authority\" \"@path\" \"content-digest\"",
        signedRest crypto key created) := by
    rw [← isCovers]
    exact splitOnce_append (by decide) _
  have isQuoted := trimMatches_quoted (crypto.keyid (crypto.publicOf key)).toList
    fun listed => keyid_ne listed (by decide) rfl
  rw [String.ofList_toList] at isQuoted
  have stripped : ∀ text : String, (stripLead (label ++ "=:") (label ++ "=:" ++ (text ++ ":"))).bind
      stripColon = some text := by
    intro text
    rw [stripLead_append, Option.bind_some, stripColon]
    simp
  have seconds := parseU64_toString (ideal.created_lt key covered created isCalled)
  have verifies := ideal.accepts key covered created isCalled
  rw [signedBase] at verifies
  by_cases near : absDiff now created ≤ maxSkewSecs
  · simp only [verify, isInput, isLabelled, isListed, need, Except.ok_bind, isCovers, ensure,
      if_true, param_created, seconds, near, param_keyid, isQuoted, first, isDigest, isSignature,
      stripped, crypto.decode_encode, crypto.length_signs, signedBase, verifies]
  · simp only [verify, isInput, isLabelled, isListed, need, Except.ok_bind, isCovers, ensure,
      if_true, param_created, seconds, near, if_false]
    exact iff_of_false (by intro impossible; cases impossible) id

/-- A hook call that verifies is one that was signed, with that method, authority, path and body and
not long ago; and one that was signed verifies exactly while it is not long ago. -/
theorem verify_exact (crypto : Crypto Key Public) (called : Key → Covered → ℕ → Prop)
    (ideal : Ideal crypto called) :
    (∀ keys covered headers now, covered.NewlineFree →
      verify crypto keys covered headers now = .ok () →
      ∃ key created, crypto.publicOf key ∈ keys ∧ called key covered created ∧
        absDiff now created ≤ maxSkewSecs) ∧
    ∀ key covered created keys headers now, called key covered created →
      Carries headers (sign crypto key covered created) →
      (keys.find? fun other => crypto.keyid other = crypto.keyid (crypto.publicOf key)) =
        some (crypto.publicOf key) →
      (verify crypto keys covered headers now = .ok () ↔ absDiff now created ≤ maxSkewSecs) := by
  refine ⟨fun keys covered headers now newlineFree verified => ?_, ?_⟩
  · exact signed_of_verify ideal newlineFree verified
  · intro key covered created keys headers now isCalled carries first
    exact verify_signed ideal isCalled carries first

def onlyCall : Covered := ⟨"POST", "forge.example.com", "/enroute/hooks", []⟩

def oneCallCrypto : Crypto Unit Unit where
  sha256 := id
  sha256_injective := Function.injective_id
  encode bytes := String.ofList (List.replicate (Encodable.encode (bytes.map UInt8.toNat)) 'a')
  decode text := (Encodable.decode (α := List ℕ) text.toList.length).map (List.map UInt8.ofNat)
  decode_encode bytes := by simp [Function.comp_def]
  encode_printable bytes char listed := by
    rw [String.toList_ofList] at listed
    rw [eq_of_mem_replicate listed]
    decide
  publicOf := id
  keyid _ := "key"
  keyid_alphabet _ := by simp
  signs _ _ := List.replicate 64 0
  length_signs _ _ := rfl
  verifies _ message _ := message = utf8 (signatureBase onlyCall "sha-256=::"
    (covers ++ ";created=1000;keyid=\"key\""))

theorem verifies_oneCall (public_ : Unit) (message signature : Bytes) :
    oneCallCrypto.verifies public_ message signature = true ↔
      message = utf8 (signedBase oneCallCrypto () onlyCall 1000) := by
  have rest : signedRest oneCallCrypto () 1000 = ";created=1000;keyid=\"key\"" := by decide
  have digest : contentDigest oneCallCrypto onlyCall.body = "sha-256=::" := by decide
  rw [signedBase, rest, digest]
  exact decide_eq_true_iff

theorem ideal_oneCall :
    Ideal oneCallCrypto fun _ covered created => covered = onlyCall ∧ created = 1000 where
  created_lt := by
    rintro key covered created ⟨-, rfl⟩
    decide
  accepts := by
    rintro key covered created ⟨rfl, rfl⟩
    exact (verifies_oneCall _ _ _).mpr rfl
  unforgeable public_ message signature verifies :=
    ⟨(), onlyCall, 1000, rfl, ⟨rfl, rfl⟩, (verifies_oneCall _ _ _).mp verifies⟩

def oneCallHeaders : HeaderMap :=
  fun name => ((sign oneCallCrypto () onlyCall 1000).lookup name).map utf8

theorem verify_exact_oneCall :
    verify oneCallCrypto [()] onlyCall oneCallHeaders 1300 = .ok () ∧
      verify oneCallCrypto [()] onlyCall oneCallHeaders 1301 ≠ .ok () := by
  have exact_ := (verify_exact oneCallCrypto _ ideal_oneCall).2 () onlyCall 1000 [()] oneCallHeaders
  have carries : Carries oneCallHeaders (sign oneCallCrypto () onlyCall 1000) := by
    simp only [Carries, sign, forall_mem_cons]
    exact ⟨rfl, rfl, rfl, nofun⟩
  refine ⟨(exact_ 1300 ⟨rfl, rfl⟩ carries rfl).mpr (by decide), fun accepted => ?_⟩
  exact absurd ((exact_ 1301 ⟨rfl, rfl⟩ carries rfl).mp accepted) (by decide)

end Verify

end Enroute.Signature
