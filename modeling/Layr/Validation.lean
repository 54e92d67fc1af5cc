import Layr.Record

/-!
# Validation of records

Every id, name and path in a record is checked before the record is stored
(`layr-model/src/validation.rs`): ids are canonical UUIDs, names follow the name rules, paths are
relative, the typed values in `data` decode, and a person's request authorises the operation it is
stored with. The checks run in the order of the source; the first that fails gives the error.
-/

namespace Layr

/-! ## Texts -/

def isAlnum (ch : Char) : Bool :=
  ('0' ≤ ch && ch ≤ '9') || ('a' ≤ ch && ch ≤ 'z') || ('A' ≤ ch && ch ≤ 'Z')

def isControl (ch : Char) : Bool := ch.toNat < 0x20 || (0x7f ≤ ch.toNat && ch.toNat < 0xa0)

def isSpace (ch : Char) : Bool :=
  let n := ch.toNat
  (0x9 ≤ n && n ≤ 0xd) || n == 0x20 || n == 0x85 || n == 0xa0 || n == 0x1680 ||
    (0x2000 ≤ n && n ≤ 0x200a) || n == 0x2028 || n == 0x2029 || n == 0x202f || n == 0x205f ||
    n == 0x3000

/-- Whether a list occurs in another one without gaps: `str::contains`. -/
def hasInfix (sub : List Char) : List Char → Bool
  | [] => sub.isEmpty
  | ch :: cs => sub.isPrefixOf (ch :: cs) || hasInfix sub cs

def splitAt (sep : Char) : List Char → List (List Char)
  | [] => [[]]
  | ch :: cs =>
    if ch = sep then [] :: splitAt sep cs
    else match splitAt sep cs with
      | [] => [[ch]]
      | w :: ws => (ch :: w) :: ws

variable (s : String)

/-- `str::rsplit_once` for a character: the parts before and after its last occurrence. -/
def rsplitOnce (ch : Char) : Option (String × String) :=
  match s.toList.reverse.span (· != ch) with
  | (b, _ :: a) => some (String.ofList a.reverse, String.ofList b.reverse)
  | (_, []) => none

/-- `str::split_once` for a text: the parts before and after its first occurrence. -/
def splitOnceText (sep : List Char) : List Char → Option (List Char × List Char)
  | [] => if sep.isEmpty then some ([], []) else none
  | ch :: cs =>
    if sep.isPrefixOf (ch :: cs) then some ([], (ch :: cs).drop sep.length)
    else (splitOnceText sep cs).map fun e => (ch :: e.1, e.2)

def stripSuffix (s suf : String) : Option String :=
  if endsWith s suf then some (String.ofList (s.toList.take (s.toList.length - suf.toList.length)))
  else none

def allChars (p : Char → Bool) (s : String) : Bool := s.toList.all p

def isBlank : Bool := allChars isSpace s

/-! ## Names, ids and paths -/

/-- A canonical UUID: lower-case hexadecimal digits in groups of 8, 4, 4, 4 and 12. -/
def isUuid : Bool :=
  s.toList.length == 36 &&
    s.toList.zipIdx.all fun e =>
      if e.2 = 8 ∨ e.2 = 13 ∨ e.2 = 18 ∨ e.2 = 23 then e.1 == '-' else isLowerHexDigit e.1

def requestId : Bool := isUuid s && s.toList[14]? == some '7'

/-- A name that a user gives: letters, digits, `-`, `_` and `.`. -/
def checkName (kind name : String) : Except String Unit := do
  ensure (!(["line", "tag", "ref"].contains kind && ["HEAD", "head"].contains name))
    ("reserved revision name: " ++ name)
  ensure (!(kind == "line" && reservedRevision name))
    ("reserved revision prefix in line name '" ++ name ++ "'")
  ensure (name ≠ "" && name.utf8ByteSize ≤ 200 && (name.toList.head?.any isAlnum) &&
      allChars (fun ch => isAlnum ch || ch == '-' || ch == '_' || ch == '.') name &&
      !endsWith name ".lock" && !hasInfix ['.', '.'] name.toList)
    ("invalid " ++ kind ++ " name '" ++ name ++
      "': use letters, digits, '-', '_' and '.'; start with a letter or digit")

def isName : Bool := (checkName "name" s).toBool

/-- A cache snapshot name: `<state-id>@<path with '/' as %2F>`. -/
def isCacheName (s state : String) : Bool :=
  match splitOnce s '@' with
  | some (id, p) =>
    id == state && p ≠ "" && allChars (fun ch => isAlnum ch || "._-%".toList.contains ch) p && p ≠
      "." && p ≠ ".."
  | none => false

def isRef : Bool :=
  s ≠ "" && !hasInfix ['.', '.'] s.toList && !startsWith s "/" && !endsWith s "/" &&
    !hasInfix ['/', '/'] s.toList && allChars (fun ch => isAlnum ch || "._/-".toList.contains ch) s

def isDigest : Bool := s.toList.length == 64 && allChars isLowerHexDigit s

def isViewId : Bool := isDigest s

/-- A relative path: no absolute path, no `..`, no leading `.`. -/
def checkRel (path : String) : Except String Unit :=
  let parts := splitAt '/' path.toList
  ensure (path == "" ||
      !(startsWith path "/" || parts.head? == some ['.'] || parts.contains ['.', '.']))
    ("invalid path: " ++ path)

/-! ## Views, transfers, versions and release files -/

/-- One overlay of a line's stack: its name and the overlay state the line shows. -/
structure Layer where
  overlay : String
  state : String
deriving DecidableEq, Inhabited

structure View where
  format : Nat
  shared : String
  layers : List Layer
deriving DecidableEq, Inhabited

structure Transfer where
  direction : String
  recordsSent : Nat
  recordsReceived : Nat
  statesSent : Nat
  statesReceived : Nat
  bytesSent : Nat
  bytesReceived : Nat
  stateIdsSent : List String
  stateIdsReceived : List String
  overlays : List String
deriving DecidableEq, Inhabited

structure VersionOperation where
  state : String
  kind : String
  source : String
  targetLine : Option String
  targetHead : String
deriving DecidableEq, Inhabited

structure ReleaseFile where
  name : String
  size : Nat
  sha256 : String
  object : String
deriving DecidableEq, Inhabited

structure ReleaseFiles where
  reference : String
  state : String
  files : List ReleaseFile
deriving DecidableEq, Inhabited

section

open Serde

variable (j : Json)

def Layer.decode : Option Layer := do
  let s ← source 2 j
  return { overlay := ← s.req 0 "overlay" string, state := ← s.req 1 "state" string }

def View.decode : Option View := do
  let s ← strictSource ["format", "shared", "layers"] j
  return { format := ← s.req 0 "format" u32, shared := ← s.req 1 "shared" string,
           layers := ← s.req 2 "layers" (vec Layer.decode) }

def Transfer.decode : Option Transfer := do
  let s ← source 10 j
  return { direction := ← s.req 0 "direction" string, recordsSent := ← s.req 1 "records_sent" u64,
           recordsReceived := ← s.req 2 "records_received" u64,
           statesSent := ← s.req 3 "states_sent" u64,
           statesReceived := ← s.req 4 "states_received" u64,
           bytesSent := ← s.req 5 "bytes_sent" u64, bytesReceived := ← s.req 6 "bytes_received" u64,
           stateIdsSent := ← s.req 7 "state_ids_sent" (vec string),
           stateIdsReceived := ← s.req 8 "state_ids_received" (vec string),
           overlays := ← s.req 9 "overlays" (vec string) }

def VersionOperation.decode : Option VersionOperation := do
  let s ← Serde.source 5 j
  return { state := ← s.req 0 "state" string, kind := ← s.req 1 "kind" string,
           source := ← s.req 2 "source" string, targetLine := ← s.opt 3 "target_line" string,
           targetHead := ← s.req 4 "target_head" string }

def ReleaseFile.decode : Option ReleaseFile := do
  let s ← strictSource ["name", "size", "sha256", "object"] j
  return { name := ← s.req 0 "name" string, size := ← s.req 1 "size" u64,
           sha256 := ← s.req 2 "sha256" string, object := ← s.req 3 "object" string }

def ReleaseFiles.decode : Option ReleaseFiles := do
  let s ← strictSource ["reference", "state", "files"] j
  return { reference := ← s.req 0 "reference" string, state := ← s.req 1 "state" string,
           files := ← s.req 2 "files" (vec ReleaseFile.decode) }

end

def filename (name : String) : Bool :=
  name ≠ "" && name.utf8ByteSize ≤ 255 && name ≠ "." && name ≠ ".." &&
    allChars (fun ch => !(isControl ch || ch == '/' || ch == '\\' || ch == ':')) name &&
    !endsWith name " " && !endsWith name "."

def releaseObject (key : String) : Bool :=
  ((stripPrefix key "files/").bind (stripSuffix · ".age")).any isUuid

/-- The address of a remote without credentials, query and fragment. -/
def publicUrl (url : String) : String :=
  let url := url.toList.takeWhile fun ch => ch != '?' && ch != '#'
  let address (s : String) := ((rsplitOnce s '@').map (·.2)).getD s
  match splitOnceText "://".toList url with
  | none => address (String.ofList url)
  | some (scheme, rest) =>
    let rest := String.ofList rest
    let (authority, path) := ((splitOnce rest '/').map fun e => (e.1, "/" ++ e.2)).getD (rest, "")
    String.ofList scheme ++ "://" ++ address authority ++ path

/-! ## The checks -/

section

variable (c : Codec) (r : Record)

def checkUuid (what v : String) : Except String Unit :=
  ensure (isUuid v)
    ("record " ++ toString r.seq ++ ": " ++ what ++ " is not an id: " ++ c.quoted v)

def checkUuidOpt (what : String) (v : Option String) : Except String Unit :=
  v.toList.forM (checkUuid c r what)

def ReleaseFiles.validate (f : ReleaseFiles) : Except String Unit := do
  ensure (startsWith f.reference "release/" && isRef f.reference && isUuid f.state &&
    f.files.length ≤ 64) "invalid release files ref, state or count (maximum 64)"
  f.files.zipIdx.forM fun e =>
    let file := e.1
    let earlier := f.files.take e.2
    ensure (filename file.name &&
      (earlier.all fun g => c.toLowercase g.name != c.toLowercase file.name) &&
      (earlier.all fun g => g.object != file.object) && file.size ≤ 512 * 2 ^ 20 &&
      releaseObject file.object && isDigest file.sha256)
      ("invalid release file name, size, digest or object: " ++ file.name)

def checkState (s : StateRec) : Except String Unit := do
  checkUuid c r "state" s.id
  checkUuidOpt c r "change" s.changeId
  s.derivedFrom.toList.forM fun id =>
    if s.kind = .derived ∧ isDigest id then .ok () else checkUuid c r "derived source" id
  ensure (!(s.kind.auxiliary && (s.line.isSome || !s.parents.isEmpty || s.changeId.isSome)))
    "cache and derived states must be outside line history"
  s.parents.forM fun p => do
    checkUuid c r "parent" p
    ensure (!(r.states.any fun state => state.id == p && state.kind.auxiliary))
      "source history cannot have a cache or derived parent"
  checkUuidOpt c r "line" s.line
  s.caches.toList.forM fun e => do
    checkRel e.1
    ensure (isCacheName e.2 s.id)
      ("record " ++ toString r.seq ++ ": bad cache name " ++ c.quoted e.2)
  s.conflicts.forM fun x => do
    checkRel x.path
    [x.base, x.ours, x.theirs].forM (checkUuidOpt c r "conflict state")

/-- The pointers of a line before or after the change. -/
def checkLineState (st : LineState) : Except String Unit := do
  ensure (isName st.name) ("record " ++ toString r.seq ++ ": bad line name " ++ c.quoted st.name)
  checkUuid c r "head" st.head
  ensure (!(r.states.any fun s => s.id == st.head && s.kind.auxiliary))
    "line head cannot be a cache or derived state"
  checkUuid c r "line machine" st.machine

def checkLine (e : String × LineChange) : Except String Unit := do
  checkUuid c r "line" e.1
  [e.2.before, e.2.after].forM fun st => st.toList.forM (checkLineState c r)
  [e.2.workingBefore, e.2.workingAfter].forM (checkUuidOpt c r "working state")

def checkQueueEntry (change : QueueChange) (entry : QueueEntry) :
    Except String Unit := do
  ensure (entry.id == change.id && isName entry.into &&
    ["pending", "done", "failed"].contains entry.status) "invalid queue entry"
  checkUuid c r "queued state" entry.state
  checkUuid c r "queue target line" entry.targetLine
  checkUuidOpt c r "queue change" entry.changeId
  checkUuidOpt c r "queue result" entry.result

def checkQueue : Except String Unit :=
  (r.data.get "queue_change").toList.forM fun value => do
    let change ← context (QueueChange.decode value) "queue change does not decode"
    checkUuid c r "queue entry" change.id
    [change.before, change.after].forM fun entry => entry.toList.forM (checkQueueEntry c r change)

def checkTransfer : Except String Unit :=
  if r.op = "push" ∨ r.op = "sync" then do
    let d := r.data
    let transfer ← context (Transfer.decode d) "transfer does not decode"
    ensure (d.idx "result" == .str "success" && transfer.direction == r.op)
      "invalid completed transfer result or direction"
    let url ← context (d.idx "url").asStr "transfer URL missing"
    ensure (url ≠ "" && publicUrl url == url && allChars (fun ch => !isControl ch) url)
      "transfer URL must omit credentials, query and fragment"
    checkName "remote" ((d.idx "remote").asStr.getD "")
    [(transfer.stateIdsSent, transfer.statesSent),
      (transfer.stateIdsReceived, transfer.statesReceived)].forM fun e => do
      ensure (e.1.length == e.2 && e.1.eraseDups.length == e.2)
        "transfer state count differs from its state ids"
      e.1.forM (checkUuid c r "transferred state")
    ensure (!(r.op == "push" && (transfer.recordsReceived != 0 || transfer.statesReceived != 0 ||
      transfer.bytesReceived != 0))) "push cannot receive data"
  else .ok ()

def checkVersion : Except String Unit :=
  (r.data.get "version").toList.forM fun value => do
    let version ← context (VersionOperation.decode value) "version does not decode"
    checkUuid c r "version state" version.state
    checkUuid c r "version source" version.source
    checkUuid c r "version target head" version.targetHead
    checkUuidOpt c r "version target line" version.targetLine
    ensure (["amend", "replay", "pick"].contains version.kind &&
      r.states.any fun s => s.id == version.state) "invalid version kind or state"

def checkBisect : Except String Unit :=
  if r.op = "bisect.run" then do
    let d := r.data
    ["good", "bad", "first_bad"].forM fun key => checkUuid c r key ((d.idx key).asStr.getD "")
    let argv ← context (Serde.vec Serde.string (d.idx "argv")) "bisect argv does not decode"
    ensure (!argv.isEmpty && d.idx "first_bad" == d.idx "state" && d.idx "good" != d.idx "bad")
      "invalid bisect command or bounds"
    let steps ← context (d.idx "steps").asArray "bisect steps missing"
    steps.forM fun step => do
      checkUuid c r "bisect step" ((step.idx "state").asStr.getD "")
      ensure (((step.idx "exit").asI64.any fun v => -(2 ^ 31) ≤ v && v < 2 ^ 31) &&
        (step.idx "reused").asBool.isSome) "invalid bisect check result"
  else .ok ()

/-- The text that a view's id is the digest of. -/
def View.toJson (v : View) : Json :=
  .obj [("format", .int v.format), ("shared", .str v.shared),
    ("layers", .arr (v.layers.map fun l =>
      .obj [("overlay", .str l.overlay), ("state", .str l.state)]))]

def View.validate (v : View) : Except String Unit := do
  ensure (v.format == 1) ("unsupported view format " ++ toString v.format)
  ensure (isUuid v.shared) "invalid shared state in view"
  v.layers.forM fun layer => do
    checkName "overlay" layer.overlay
    ensure (isUuid layer.state) ("invalid state of overlay '" ++ layer.overlay ++ "'")

def checkView : Except String Unit :=
  if r.op = "view.save" then do
    let value ← context (r.data.get "view") "view.save has no descriptor"
    let view ← context (View.decode value) "view does not decode"
    view.validate
    let id := (r.data.strAt "view_id").getD ""
    ensure (isViewId id && c.digest (c.jsonText view.toJson) == id)
      "view descriptor does not match its id"
  else .ok ()

def checkRefChange : Except String Unit :=
  (r.data.get "ref_change").toList.forM fun value => do
    let ch ← context (RefChange.decode value) "ref change does not decode"
    ensure (isRef ch.name) ("invalid ref name " ++ c.quoted ch.name)
    [ch.before, ch.after].forM fun st => st.toList.forM fun v => do
      ensure (v.name == ch.name) "ref change names differ"
      checkUuid c r "ref target" v.target

def checkComment : Except String Unit :=
  (r.data.get "comment").toList.forM fun value => do
    let comment ← context (Comment.decode value) "comment does not decode"
    checkUuid c r "comment" comment.id
    checkUuid c r "change" comment.changeId
    checkUuid c r "version" comment.version
    checkUuidOpt c r "reply" comment.replyTo
    ensure (!(isBlank comment.text || 65536 < comment.text.utf8ByteSize))
      "comment text must contain 1 to 65536 bytes"
    ensure (!(comment.line == some 0 || (comment.line.isSome && comment.path.isNone)))
      "comment line needs a path and a positive number"
    comment.path.toList.forM fun path =>
      ensure (!(path == "" || startsWith path "/" ||
        ((splitAt '/' path.toList).any fun p => p == [] || p == ['.'] || p == ['.', '.']) ||
        hasInfix ['\\'] path.toList)) "comment path must be relative to the version root"

/-- Whether the request asks for exactly this operation. -/
def requestMatches (request : Request) (signedText : String) : Except String Bool :=
  let d := r.data
  let a := d.idx "attestation"
  let attests (kind state : String) :=
    r.op == "attest" && a.idx "kind" == .str kind && (a.idx "subject").idx "id" == .str state &&
      a.idx "signer" == .str ("person:" ++ request.person) &&
      a.idx "payload_digest" == .str (c.digest signedText)
  match request.action with
  | .approve state _ => .ok (attests "approval" state && (d.get "declassify").isNone)
  | .withdraw state _ => .ok (attests "revoke" state && (d.get "declassify").isNone)
  | .declassify state scope =>
    .ok (attests "approval" state && (rsplitOnce scope '@').any fun e =>
      (d.idx "declassify").idx "path" == .str e.1 &&
        ((d.idx "declassify").idx "hmac").asStr.any fun hash =>
          hash.utf8ByteSize == 64 && startsWith hash e.2 && allChars isHexDigit hash)
  | .comment changeId version path line text replyTo => do
    let comment ← context (Comment.decode (d.idx "comment")) "comment does not decode"
    return r.op == "comment" && comment.id == request.id && comment.changeId == changeId &&
      comment.version == version && comment.path == path && comment.line == line &&
      comment.text == text && comment.replyTo == replyTo
  | .queueAdd state into =>
    let change := d.idx "queue_change"
    .ok (r.op == "queue.add" && change.idx "id" == .str request.id &&
      (change.idx "after").idx "state" == .str state && (change.idx "after").idx "into" ==
        .str into)
  | .queueRemove entry =>
    let change := d.idx "queue_change"
    .ok (r.op == "queue.remove" && change.idx "id" == .str entry && (change.idx "after").isNull)
  | .refMove name target expected =>
    let change := d.idx "ref_change"
    .ok (r.op == "ref.set" && change.idx "name" == .str name &&
      (change.idx "after").idx "target" == .str target &&
      ((change.idx "before").idx "target").asStr == expected)

def checkRefusal : Except String Unit :=
  ensure (!(r.op == "request.refused" && ((r.data.idx "reason").asStr.all isBlank ||
    !requestId ((r.data.idx "request_id").asStr.getD ""))))
    "request refusal needs an id and a plain reason"

/-- The request proof of the record: it verifies under the person's key and asks for the operation,
within its lifetime. -/
def checkRequest : Except String Unit := do
  let d := r.data
  let person := (d.get "attestation").any fun a =>
    (a.idx "signer").asStr.any fun s => startsWith s "person:"
  ensure (!(person && (d.get "request").isNone)) "person attestation needs its signed request"
  (d.get "request").toList.forM fun proof => do
    let text ← context proof.asStr "request proof must preserve exact envelope bytes"
    let pub ← context (d.idx "person_key").asStr "request proof has no public key"
    let key ← context (c.decodeKey pub) "invalid person public signing key"
    let (request, signedText) ←
      context (c.openRequest key text) "person request signature does not verify"
    let object ← match d.get "encrypted_request" with
      | some encrypted => do
        let sealedText ← context encrypted.asStr
          "encrypted request proof must preserve exact envelope bytes"
        let env ← context (c.openSealed key sealedText) "outer request signature does not verify"
        ensure (env.id == request.id && env.person == request.person &&
          env.project == request.project)
          "outer and inner request id, person or project does not match"
        pure sealedText
      | none => pure text
    ensure (request.project == r.project && d.idx "request_id" == .str request.id &&
      r.actor.name == "person:" ++ request.person && r.actor.uid == 2 ^ 32 - 1 &&
      d.idx "request_digest" == .str (c.digest object))
      "request proof does not match its operation record"
    if r.op = "request.refused" then
      ensure (!((d.idx "reason").asStr.all isBlank)) "request refusal needs a plain reason"
    else do
      let ok ← requestMatches c r request signedText
      ensure ok "request proof does not authorize this operation"
      ensure (r.time < request.expires && request.created ≤ r.time)
        "request was applied outside its lifetime"

def checkSubject (a : Attestation) : Except String Unit :=
  if a.subject.kind = "state" then checkUuid c r "subject" a.subject.id
  else ensure (a.subject.kind == "view" && isViewId a.subject.id) "unsupported attestation subject"

/-- The attestation of the record: it is signed by the record's machine or a person, at the time of
the record, under the record's own id. -/
def checkAttestation : Except String Unit :=
  (r.data.get "attestation").toList.forM fun value => do
    let a ← context (Attestation.decode value) "attestation does not decode"
    checkUuid c r "attestation" a.attestationId
    ensure (a.attestationId == r.id) "attestation id must match its signed record"
    checkSubject c r a
    checkUuidOpt c r "change" a.changeId
    ensure (a.format == 1 && attestationKinds.contains a.kind)
      "unsupported attestation format, subject or kind"
    ensure ((a.signer == r.machine || startsWith a.signer "person:") && a.time == r.time)
      "attestation signer and time must match its signed record"
    ensure (isDigest a.payloadDigest) "invalid attestation payload digest"
    checkUuidOpt c r "payload reference" a.payloadRef
    (r.data.get "check").toList.forM fun result =>
      ensure (a.kind == "check" && a.payloadDigest == c.digest (c.jsonText result))
        "check payload digest does not match its signed result"

/-- The attestations that the record takes back. -/
def checkRevokes : Except String Unit :=
  (r.data.get "revokes").toList.forM fun v => do
    let ids ← context v.asArray "invalid revocations"
    ids.forM fun id => checkUuid c r "revoked attestation" (id.asStr.getD "")

def idFields : List String :=
  ["state", "line", "start", "final_state", "undo", "base", "theirs", "onto", "upstream",
    "source", "export", "id"]

/-- The plain fields of `data`: ids, the machine, names and refs. -/
def checkFields : Except String Unit := do
  let d := r.data
  idFields.forM fun k => checkUuidOpt c r k (d.strAt k)
  checkUuidOpt c r "machine" (d.strAt "machine")
  ["name", "from", "to", "remote"].forM fun k => (d.strAt k).toList.forM fun v =>
    -- An overlay is the internal project `<project>%<overlay>`.
    let overlayProject := r.op == "project" && k == "name" &&
      (splitOnce v '%').any fun e => isName e.1 && isName e.2
    ensure (isName v || overlayProject)
      ("record " ++ toString r.seq ++ ": bad " ++ k ++ " " ++ c.quoted v)

def checkStack : Except String Unit :=
  (r.data.get "stack").toList.forM fun st => do
    checkUuid c r "stack line" ((st.strAt "line").getD "")
    let layers ← context ((st.get "layers").bind Json.asArray)
      ("record " ++ toString r.seq ++ ": bad stack")
    layers.forM fun l => do
      let name := (l.strAt "overlay").getD ""
      ensure (isName name)
        ("record " ++ toString r.seq ++ ": bad overlay name " ++ c.quoted name)
      checkUuid c r "overlay state" ((l.strAt "state").getD "")

/-- The ref names, deleted states, cache names and settings of `data`. -/
def checkData : Except String Unit := do
  let d := r.data
  let bad := "record " ++ toString r.seq ++ ": bad "
  ["ref", "branch"].forM fun k => (d.strAt k).toList.forM fun v =>
    ensure (isRef v) (bad ++ k ++ " " ++ c.quoted v)
  ((d.get "deleted").bind Json.asArray).toList.forM fun vs =>
    vs.forM fun v => checkUuid c r "deleted state" (v.asStr.getD "")
  (d.strAt "state").toList.forM fun st => do
    ["layers", "caches"].forM fun field =>
      ((d.get field).bind Json.asObject).toList.forM fun kvs => kvs.forM fun e => do
        checkRel e.1
        ensure (isCacheName (e.2.asStr.getD "") st) (bad ++ "cache name")
    ((d.get "uuids").bind Json.asObject).toList.forM fun kvs => kvs.forM fun e => do
      ensure (isCacheName e.1 st) (bad ++ "cache name")
      checkUuid c r "cache subvolume" (e.2.asStr.getD "")
  ((d.get "config").bind Json.asObject).toList.forM fun kvs => kvs.forM fun e =>
    ensure (allChars (fun ch => isAlnum ch || "._-@*".toList.contains ch) e.1)
      (bad ++ "setting name " ++ c.quoted e.1)

def checkRelease : Except String Unit :=
  if r.op = "release.files" then do
    (← context (ReleaseFiles.decode r.data) "release files do not decode").validate c
  else .ok ()

/-- The project of the record, when it names one. -/
def checkProject : Except String Unit :=
  if r.project ≠ "" then checkUuid c r "project" r.project else .ok ()

/-- Every id, name and path in a record is checked before the record is stored. -/
def validate : Except String Unit := do
  checkRelease c r
  checkUuid c r "id" r.id
  checkUuid c r "machine" r.machine
  checkProject c r
  r.states.forM (checkState c r)
  r.lines.toList.forM (checkLine c r)
  checkQueue c r
  checkTransfer c r
  checkVersion c r
  checkBisect c r
  checkView c r
  checkRefChange c r
  checkComment c r
  checkRefusal r
  checkRequest c r
  checkAttestation c r
  checkRevokes c r
  checkFields c r
  checkStack c r
  checkData c r

end

end Layr
