import Layr.Lib.Fallible
import Layr.Serde

/-!
# Records

The records of the operation log and the objects they describe (`layr-model/src/types.rs`). A
machine writes records with increasing sequence numbers and signs each one; a line of the log is
the signed text. What reads and checks such a line is third-party code (JSON, Ed25519, SHA-256), so
the model takes it as a parameter, `Codec`.
-/

namespace Layr

structure Author where
  name : String := ""
  email : String := ""
  uid : UInt32 := 0
  session : Option String := none
deriving DecidableEq, Inhabited

structure Conflict where
  path : String
  kind : String
  base : Option String := none
  ours : Option String := none
  theirs : Option String := none
deriving DecidableEq, Inhabited

inductive StateKind where
  | commit
  | auto
  | stash
  | «import»
  | cache
  | derived
deriving DecidableEq, Inhabited

/-- Cache and derived states are outside source history. -/
def StateKind.auxiliary : StateKind → Bool
  | .cache | .derived => true
  | _ => false

structure StateRec where
  id : String
  kind : StateKind := .commit
  changeId : Option String := none
  derivedFrom : Option String := none
  context : Option String := none
  parents : List String := []
  line : Option String := none
  subvol : String := ""
  author : Author := {}
  message : String := ""
  time : Int := 0
  running : Bool := false
  conflicts : List Conflict := []
  caches : BTreeMap String := ∅
  cacheBy : Option UInt32 := none
  cacheShared : Bool := false
  cachePlatform : Option String := none
deriving DecidableEq, Inhabited

def reservedPrefixes : List String :=
  ["env/", "release/", "pins/", "holds/", "leases/", "caches/", "derived/", "changes/", "views/",
    "attestations/"]

def reservedRevision (name : String) : Bool := reservedPrefixes.any (startsWith name)

structure RefState where
  name : String
  target : String
  expiresAt : Option Int := none
deriving DecidableEq, Inhabited

structure RefChange where
  name : String
  before : Option RefState
  after : Option RefState
deriving DecidableEq, Inhabited

structure QueueEntry where
  id : String
  into : String
  targetLine : String
  state : String
  changeId : Option String := none
  addedBy : Nat
  time : Int
  status : String
  attempts : Nat := 0
  result : Option String := none
  reason : Option String := none
  probes : Option Json := none
deriving DecidableEq, Inhabited

structure QueueChange where
  id : String
  before : Option QueueEntry
  after : Option QueueEntry
deriving DecidableEq, Inhabited

structure Subject where
  kind : String
  id : String
deriving DecidableEq, Inhabited

/-- A signed statement about a state or a view. -/
structure Attestation where
  format : Nat
  attestationId : String
  subject : Subject
  changeId : Option String := none
  kind : String
  payloadDigest : String
  payloadRef : Option String := none
  signer : String
  time : Int
deriving DecidableEq, Inhabited

def attestationKinds : List String :=
  ["check", "approval", "origin", "import", "quarantine", "revoke"]

structure LineState where
  name : String
  head : String
  owner : Nat
  machine : String
deriving DecidableEq, Inhabited

structure LineChange where
  before : Option LineState
  after : Option LineState
  workingBefore : Option String := none
  workingAfter : Option String := none
deriving DecidableEq, Inhabited

structure Line where
  id : String
  name : String
  head : String
  owner : Nat
  machine : String
deriving DecidableEq, Inhabited

structure Actor where
  uid : UInt32 := 0
  name : String := ""
  session : Option String := none
deriving DecidableEq, Inhabited

structure Record where
  id : String
  machine : String
  seq : Nat
  time : Int
  op : String
  project : String := ""
  actor : Actor := {}
  states : List StateRec := []
  lines : BTreeMap LineChange := ∅
  data : Json := .null
deriving DecidableEq, Inhabited

/-- The record with 0.0 for each -0.0: records are compared as `serde_json` values. -/
def Record.unsigned (r : Record) : Record := { r with data := r.data.unsigned }

structure Comment where
  id : String
  changeId : String
  version : String
  path : Option String := none
  line : Option Nat := none
  text : String
  replyTo : Option String := none
deriving DecidableEq, Inhabited

/-! ## Decoders of the values in `data` -/

open Serde

variable (j : Json)

def RefState.decode : Option RefState := do
  let s ← source 3 j
  return { name := ← s.req 0 "name" string, target := ← s.req 1 "target" string,
           expiresAt := ← s.optDefault 2 "expires_at" i64 }

def RefChange.decode : Option RefChange := do
  let s ← source 3 j
  return { name := ← s.req 0 "name" string, before := ← s.opt 1 "before" RefState.decode,
           after := ← s.opt 2 "after" RefState.decode }

def QueueEntry.decode : Option QueueEntry := do
  let s ← source 12 j
  return { id := ← s.req 0 "id" string, into := ← s.req 1 "into" string,
           targetLine := ← s.req 2 "target_line" string, state := ← s.req 3 "state" string,
           changeId := ← s.optDefault 4 "change_id" string, addedBy := ← s.req 5 "added_by" u32,
           time := ← s.req 6 "time" i64, status := ← s.req 7 "status" string,
           attempts := ← s.default 8 "attempts" 0 u32, result := ← s.optDefault 9 "result" string,
           reason := ← s.optDefault 10 "reason" string,
           probes := ← s.optDefault 11 "probes" some }

def QueueChange.decode : Option QueueChange := do
  let s ← source 3 j
  return { id := ← s.req 0 "id" string, before := ← s.opt 1 "before" QueueEntry.decode,
           after := ← s.opt 2 "after" QueueEntry.decode }

def Subject.decode : Option Subject := do
  let s ← source 2 j
  return { kind := ← s.req 0 "kind" string, id := ← s.req 1 "id" string }

def Attestation.decode : Option Attestation := do
  let s ← source 9 j
  return { format := ← s.req 0 "format" u32, attestationId := ← s.req 1 "attestation_id" string,
           subject := ← s.req 2 "subject" Subject.decode,
           changeId := ← s.optDefault 3 "change_id" string, kind := ← s.req 4 "kind" string,
           payloadDigest := ← s.req 5 "payload_digest" string,
           payloadRef := ← s.optDefault 6 "payload_ref" string, signer := ← s.req 7 "signer" string,
           time := ← s.req 8 "time" i64 }

def Comment.decode : Option Comment := do
  let s ← strictSource ["id", "change_id", "version", "path", "line", "text", "reply_to"] j
  return { id := ← s.req 0 "id" string, changeId := ← s.req 1 "change_id" string,
           version := ← s.req 2 "version" string, path := ← s.optDefault 3 "path" string,
           line := ← s.optDefault 4 "line" u32, text := ← s.req 5 "text" string,
           replyTo := ← s.optDefault 6 "reply_to" string }

/-! ## Person requests -/

/-- What a person asks for in a signed request. -/
inductive Action where
  | approve (state into : String)
  | withdraw (state into : String)
  | queueAdd (state into : String)
  | queueRemove (entry : String)
  | refMove (name target : String) (expected : Option String)
  | comment (changeId version : String) (path : Option String) (line : Option Nat) (text : String)
      (replyTo : Option String)
  | declassify (state scope : String)
deriving DecidableEq, Inhabited

structure Request where
  format : Nat
  id : String
  project : String
  person : String
  created : Int
  expires : Int
  action : Action
deriving DecidableEq, Inhabited

/-- The public routing fields of an encrypted request. -/
structure Sealed where
  id : String
  person : String
  project : String
deriving DecidableEq, Inhabited

/-! ## Third-party code -/

/-- What the model takes from third-party code: reading signed texts, signatures, digests and the
texts of values. A signature is checked over the exact signed bytes, so a line either verifies under
a key or not, whatever else is known of it. -/
structure Codec where
  /-- Ed25519 verifying keys. -/
  Key : Type
  /-- The record of a log line, when the line and its record parse. -/
  body : String → Option Record
  /-- Whether the signature of a log line verifies under the key. -/
  verifies : Key → String → Bool
  /-- A verifying key from its hexadecimal text. -/
  decodeKey : String → Option Key
  keyText : Key → String
  /-- The hexadecimal SHA-256 of a text. -/
  digest : String → String
  jsonText : Json → String
  /-- A request envelope that verifies under the key: the request and its signed text. -/
  openRequest : Key → String → Option (Request × String)
  /-- An encrypted request envelope whose outer signature verifies under the key. -/
  openSealed : Key → String → Option Sealed
  /-- `str::to_lowercase`. -/
  toLowercase : String → String
  /-- A text as `{:?}` shows it. -/
  quoted : String → String

namespace Codec

/-- A codec that knows no texts and no keys, for records that carry none. -/
def silent : Codec where
  Key := Unit
  body _ := none
  verifies _ _ := false
  decodeKey _ := none
  keyText _ := ""
  digest s := s
  jsonText _ := ""
  openRequest _ _ := none
  openSealed _ _ := none
  toLowercase s := s
  quoted s := s

variable (c : Codec)

def parse (line : String) (key : Option c.Key) : Except String Record :=
  match c.body line with
  | none => .error "parse log line"
  | some r =>
    if key.all (c.verifies · line) then .ok r else .error "record signature does not verify"

end Codec

@[simp] theorem Codec.parse_eq_ok {c : Codec} {line : String} {key : Option c.Key} {r : Record} :
    c.parse line key = .ok r ↔ c.body line = some r ∧ ∀ k ∈ key, c.verifies k line = true := by
  unfold Codec.parse
  cases hb : c.body line with
  | none => simp
  | some r' =>
    have hall : key.all (c.verifies · line) = true ↔ ∀ k ∈ key, c.verifies k line = true := by
      cases key <;> simp
    dsimp only
    split
    · next hk => simpa using fun _ => hall.1 hk
    · next hk => simpa using fun _ h => hk (hall.2 h)

/-- The attestation that an approval, a withdrawal or a check of an older version stands for, when
the change of a state is known. -/
def Record.impliedAttestation (c : Codec) (r : Record) (changeOf : String → Option String) :
    Option Attestation :=
  if r.op = "approve" ∨ r.op = "approve.withdraw" ∨ r.op = "check" then
    (r.data.idx "state").asStr.map fun state => {
      format := 1
      attestationId := r.id
      subject := ⟨"state", state⟩
      changeId := changeOf state
      kind := if r.op = "approve" then "approval" else if r.op = "check" then "check" else "revoke"
      payloadDigest := c.digest (c.jsonText r.data)
      payloadRef := none
      signer := r.machine
      time := r.time }
  else none

def Record.attestationWith (c : Codec) (r : Record) (changeOf : String → Option String) :
    Except String (Option Attestation) :=
  onField (r.data.get "attestation") Attestation.decode "attestation does not decode"
    (r.impliedAttestation c changeOf) some

theorem Record.attestationWith_eq_ok {c : Codec} {r : Record} {changeOf : String → Option String}
    {a : Option Attestation} : r.attestationWith c changeOf = .ok a ↔
      (∀ v, r.data.get "attestation" = some v → (Attestation.decode v).isSome = true) ∧
        a = (r.attestationWith c changeOf).toOption.join := by
  refine ⟨fun h => ⟨(onField_eq_ok.1 h).1, by rw [h]; rfl⟩, fun ⟨hdecodes, ha⟩ => ?_⟩
  have h : r.attestationWith c changeOf = .ok _ := onField_eq_ok.2 ⟨hdecodes, rfl⟩
  rw [ha, h]
  rfl

end Layr
