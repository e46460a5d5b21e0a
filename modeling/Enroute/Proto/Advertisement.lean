import Enroute.Proto.PktLine
import Enroute.Metadata.RefsMap

/-!
# What a client is told about refs

Three responses list refs: `ls-refs` of protocol version 2, the version 0 advertisement of
`upload-pack`, and the advertisement of `receive-pack`. Each starts from the ref map of the
repository, less whatever the visibility hook of the application left out of its answer. A response
is a list of lines before it is bytes, and a line says which refs it names, which refs it names as
the target of a symbolic ref, and which object id it carries.
-/

namespace Enroute

inductive Access where
  | read
  | write
  deriving DecidableEq, Repr

/-- The visibility hook: for a repository, a caller, a kind of access and the names asked about, the
names that caller may be told about. -/
abbrev RefVisibility (Actor : Type) :=
  ℕ → Actor → Access → List String → Except String (List String)

def hidesHead (refs : RefsMap) (visible : List String) : Bool :=
  match refs["HEAD"]?.bind (stripLead "ref: ") with
  | some target => refs.contains target && !visible.contains target
  | none => false

def hideRefs (visibleRefs : List String → Except String (List String)) (refs : RefsMap) :
    Except String RefsMap :=
  let named := refs.keys.filter fun name => name != "HEAD"
  -- A repository with nothing to hide is not worth a round trip.
  if named.isEmpty then .ok refs
  else (visibleRefs named).map fun visible =>
    refs.filter fun name _ =>
      if name = "HEAD" then !hidesHead refs visible else visible.contains name

inductive Capability where
  | symref (target : String)
  | word (text : String)
  deriving DecidableEq, Repr

def Capability.text : Capability → String
  | .symref target => "symref=HEAD:" ++ target
  | .word text => text

inductive Line where
  | service (name : String)
  | ref (oid name : String) (symrefTarget : Option String)
  | unborn (target : String)
  | carrier (oid name : String) (capabilities : List Capability)
  deriving DecidableEq, Repr

namespace Line

def text : Line → String
  | .service name => "# service=" ++ name ++ "\n"
  | .ref oid name none => oid ++ " " ++ name ++ "\n"
  | .ref oid name (some target) => oid ++ " " ++ name ++ " symref-target:" ++ target ++ "\n"
  | .unborn target => "unborn HEAD symref-target:" ++ target ++ "\n"
  | .carrier oid name capabilities =>
    oid ++ " " ++ name ++ "\x00" ++ " ".intercalate (capabilities.map Capability.text) ++ "\n"

def refname : Line → Option String
  | .service _ => none
  | .ref _ name _ => some name
  | .unborn _ => some "HEAD"
  | .carrier _ name _ => some name

def oid : Line → Option String
  | .service _ => none
  | .ref oid _ _ => some oid
  | .unborn _ => none
  | .carrier oid _ _ => some oid

def symrefTargets : Line → List String
  | .service _ => []
  | .ref _ _ target => target.toList
  | .unborn target => [target]
  | .carrier _ _ capabilities => capabilities.filterMap fun
      | .symref target => some target
      | .word _ => none

end Line

inductive Part where
  | line (line : Line)
  | flush
  deriving DecidableEq, Repr

def utf8 (text : String) : Bytes :=
  text.toUTF8.data.toList

def Part.encode (encoder : PktLine.DataEncoder) : Part → Except String Bytes
  | .line written => encoder.dataToWrite (utf8 written.text)
  | .flush => .ok PktLine.flush

/-- The bytes of a response body. The first line that cannot be encoded fails it. -/
def encodeBody (encoder : PktLine.DataEncoder) (parts : List Part) : Except String Bytes :=
  (parts.mapM (Part.encode encoder)).map List.flatten

def directRefs (refs : RefsMap) : List (String × String) :=
  refs.toList.filter fun entry => entry.1 != "HEAD" && isDirectRef entry.2

def refLine (entry : String × String) : Part :=
  .line (.ref entry.2 entry.1 none)

def trimLf (line : Bytes) : Bytes :=
  if line.getLast? = some 10 then line.dropLast else line

def resolveHead (refs : RefsMap) (value : String) : Option String × Option String :=
  match stripLead "ref: " value with
  | some target => (refs[target]?.filter isDirectRef, some target)
  | none => if isDirectRef value then (some value, none) else (none, none)

def lsHead (refs : RefsMap) (wantSymrefs wantUnborn : Bool) : List Part :=
  match refs["HEAD"]? with
  | none => []
  | some value =>
    match resolveHead refs value with
    | (some oid, symrefTarget) =>
      [.line (.ref oid "HEAD" (if wantSymrefs then symrefTarget else none))]
    | (none, some target) => if wantUnborn then [.line (.unborn target)] else []
    | (none, none) => []

def lsRefs (refs : RefsMap) (args : List Bytes) : List Part :=
  let wantSymrefs := args.any fun line => trimLf line == utf8 "symrefs"
  let wantUnborn := args.any fun line => trimLf line == utf8 "unborn"
  lsHead refs wantSymrefs wantUnborn ++ (directRefs refs).map refLine ++ [.flush]

/-- The id of the pseudo-ref that carries the capabilities when no real ref can. -/
def noRef : String := "0000000000000000000000000000000000000000"

def pseudoRef : String := "capabilities^\x7b\x7d"

/-- The shape both services advertise refs in: the service, the line that carries the capabilities,
the other refs. -/
def advertisement (service : String) (capabilities : List Capability)
    (carrier : Option (String × String)) (rest : List (String × String)) : List Part :=
  let (name, oid) := carrier.getD (pseudoRef, noRef)
  [.line (.service service), .flush, .line (.carrier oid name capabilities)] ++
    rest.map refLine ++ [.flush]

def agent : Capability := .word "agent=git/0.2.0"

/-- The version 0 advertisement of `upload-pack`. Its capabilities name the default branch the
repository row has, whatever the ref map says. -/
def uploadPackV0Advertisement (refs : RefsMap) (defaultBranch : String) : List Part :=
  let capabilities := [.symref defaultBranch, .word "object-format=sha1", agent]
  let head := (refs.toList.find? fun entry => entry.1 == defaultBranch).map fun entry =>
    ("HEAD", entry.2)
  advertisement "git-upload-pack" capabilities head (directRefs refs)

/-- The advertisement of `receive-pack`, whose first ref carries the capabilities. -/
def receivePackAdvertisement (refs : RefsMap) : List Part :=
  let capabilities := ["report-status", "delete-refs", "ofs-delta", "side-band-64k",
    "object-format=sha1"].map Capability.word ++ [agent]
  advertisement "git-receive-pack" capabilities (directRefs refs).head? (directRefs refs).tail

inductive RefRequest where
  | lsRefs (args : List Bytes)
  | uploadPackV0
  | receivePack
  deriving DecidableEq, Repr

def RefRequest.access : RefRequest → Access
  | .lsRefs _ => .read
  | .uploadPackV0 => .read
  | .receivePack => .write

def RefRequest.parts (request : RefRequest) (refs : RefsMap) (defaultBranch : String) : List Part :=
  match request with
  | .lsRefs args => Enroute.lsRefs refs args
  | .uploadPackV0 => uploadPackV0Advertisement refs defaultBranch
  | .receivePack => receivePackAdvertisement refs

section Responses

variable {Actor : Type} (encoder : PktLine.DataEncoder) (hook : RefVisibility Actor) (actor : Actor)
  (repo : Repository)

/-- The refs an advertisement starts from: everything the repository holds, less what the hook will
not admit to. -/
def advertisedRefs (access : Access) : Except String RefsMap :=
  hideRefs (hook repo.id actor access) repo.refsFor

def answer (request : RefRequest) : Except String (List Part) :=
  (advertisedRefs hook actor repo request.access).map fun refs =>
    request.parts refs repo.defaultBranch

def respond (request : RefRequest) : Except String Bytes := do
  let parts ← answer hook actor repo request
  encodeBody encoder parts

end Responses

end Enroute
