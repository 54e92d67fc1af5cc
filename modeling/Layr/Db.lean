import Layr.Lib.Register
import Layr.Lib.Texts
import Layr.Validation

/-!
# The project database

The tables of the project database and what one record changes in them (`src/db.rs`). The table
`records` holds the signed records; all other tables are derived from them, one record after the
other. A row that a later record can replace keeps the order key of the record that wrote it, a text
of time, machine and sequence number, and only a record with a larger key replaces it. Deletes leave
a marked row.

Tables and columns that none of the queries below reads are left out.
-/

namespace Layr

open Register (Stamped upsert put putAll)

variable (r : Record)

def Record.ord : String :=
  padded 16 (max r.time 0).toNat ++ ":" ++ r.machine ++ ":" ++ padded 12 r.seq

/-! ## Tables -/

structure Row where
  record : Record
  raw : String
deriving DecidableEq

/-- A state. Its cache snapshots can be added to later; they are JSON values until they are read. -/
structure StateRow where
  state : StateRec
  caches : BTreeMap Json
  machine : String
  dropped : Bool
deriving DecidableEq

/-- A line, with the machine that has its working folder. -/
structure LineRow where
  name : String
  owner : Nat
  machine : String
  head : String
  deleted : Bool
deriving DecidableEq

structure HeadKey where
  line : String
  machine : String
deriving DecidableEq

def HeadKey.cmp : HeadKey → HeadKey → Ordering :=
  compareLex (compareOn HeadKey.line) (compareOn HeadKey.machine)

instance : Std.TransCmp HeadKey.cmp :=
  inferInstanceAs (Std.TransCmp (compareLex (compareOn HeadKey.line) (compareOn HeadKey.machine)))

instance : Std.LawfulEqCmp HeadKey.cmp where
  compare_self := Std.ReflCmp.compare_self
  eq_of_compare {a b} h := by
    obtain ⟨hl, hm⟩ : compare a.line b.line = .eq ∧ compare a.machine b.machine = .eq := by
      simpa [HeadKey.cmp, compareLex, compareOn] using h
    cases a
    simp_all

structure TagRow where
  state : Option String
  message : Option String
  deleted : Bool
deriving DecidableEq

/-- An attestation. Its machine is the person who signed it, when one did. -/
structure AttestationRow where
  subject : String
  kind : String
  rec' : Attestation
  machine : String
  uid : UInt32
  isLocal : Bool
  ord : String
deriving DecidableEq

structure Revocation where
  id : String
  target : String
  machine : String
  uid : UInt32
  ord : String
deriving DecidableEq

/-- The database. The value of a deleted ref, queue entry or setting is missing. -/
structure Db where
  records : List Row := []
  states : BTreeMap StateRow := ∅
  lines : BTreeMap (Stamped String LineRow) := ∅
  lineHeads : Std.ExtTreeMap HeadKey (Stamped String String) HeadKey.cmp := ∅
  queueEntries : BTreeMap (Stamped String (Option QueueEntry)) := ∅
  attestations : BTreeMap AttestationRow := ∅
  revocations : List Revocation := []
  refs : BTreeMap (Stamped String (Option (String × Option Int))) := ∅
  trusted : BTreeMap (Option String) := ∅
  config : BTreeMap (Stamped String (Option Json)) := ∅
  tags : BTreeMap (Stamped String TagRow) := ∅
  /-- The tags without a name. No row with a missing key replaces another one. -/
  namelessTags : Nat := 0

namespace Db

/-! ## The records -/

variable (db : Db)

/-- Insert a stored record line. Returns false if the record exists already: one with its id, or
with its machine and sequence number. -/
def insertRecord (row : Row) : Bool × Db :=
  if db.records.any fun o => o.record.id == row.record.id ||
      (o.record.machine == row.record.machine && o.record.seq == row.record.seq) then (false, db)
  else (true, { db with records := db.records ++ [row] })

def lastSeq (machine : String) : Nat :=
  ((db.records.filter (·.record.machine == machine)).map (·.record.seq)).foldl max 0

/-- Stored lines of one machine after a sequence number, in order. -/
def linesAfter (machine : String) (seq : Nat) : List String :=
  ((db.records.filter fun o => o.record.machine == machine && seq < o.record.seq).insertionSort
    (·.record.seq ≤ ·.record.seq)).map (·.raw)

def recordLine (machine : String) (seq : Nat) : Option String :=
  (db.records.find? fun o => o.record.machine == machine && o.record.seq == seq).map (·.raw)

def recordMachines : List String :=
  ((db.records.map (·.record.machine)).insertionSort (· ≤ ·)).dedup

def applyLe (a b : Row) : Bool :=
  a.record.time < b.record.time ||
    (a.record.time == b.record.time && (a.record.machine < b.record.machine ||
      (a.record.machine == b.record.machine && a.record.seq ≤ b.record.seq)))

def allLines : List Row := db.records.insertionSort (applyLe · ·)

/-! ## States and lines -/

def StateRow.parse (row : StateRow) : Option StateRec :=
  (row.caches.toList.foldlM (fun m (e : String × Json) =>
    e.2.asStr.map fun v => m.insert e.1 v) (∅ : BTreeMap String)).map
    fun caches => { row.state with caches := caches }

def state (id : String) : Except String (Option StateRec) :=
  match db.states[id]? with
  | none => .ok none
  | some row =>
    match StateRow.parse row with
    | none => .error "state does not parse"
    | some s => .ok (some s)

def stateRow (s : StateRec) : StateRow where
  state := s
  caches := s.caches.toList.foldl (fun m e => m.insert e.1 (.str e.2)) ∅
  machine := r.machine
  dropped := false

def deriveState (db : Db) (s : StateRec) : Except String Db := do
  ensure (!db.states.contains s.id) ("state " ++ s.id ++ " is named by two records")
  let db := { db with states := db.states.insert s.id (stateRow r s) }
  s.parents.forM fun p => do
    let parent ← db.state p
    ensure (!(parent.any (·.kind.auxiliary))) "source history cannot have a cache or derived parent"
  return db

variable (here : String)

/-- The row of a line after a change. A line that is here is moved here even by an older record. -/
def lineRow (r : Record) (row : Option (Stamped String LineRow)) (after : Option LineState) :
    Stamped String LineRow :=
  match after, row with
  | some a, none => ⟨r.ord, ⟨a.name, a.owner, a.machine, a.head, false⟩⟩
  | some a, some old =>
    if old.ord < r.ord ∨ (old.val.machine ≠ a.machine ∧ a.machine = here) then
      ⟨r.ord, ⟨a.name, a.owner, a.machine, a.head, false⟩⟩
    else old
  | none, none => ⟨r.ord, ⟨"", 0, r.machine, "", true⟩⟩
  | none, some old => if old.ord < r.ord then ⟨r.ord, { old.val with deleted := true }⟩ else old

/-- The head of a line that a record gives must be in source history. -/
def checkHead (after : Option LineState) : Except String Unit :=
  match after with
  | none => .ok ()
  | some a => do
    let head ← db.state a.head
    ensure (!(head.any (·.kind.auxiliary))) "line head cannot be a cache or derived state"

def headStep (heads : Std.ExtTreeMap HeadKey (Stamped String String) HeadKey.cmp)
    (e : String × LineChange) : Std.ExtTreeMap HeadKey (Stamped String String) HeadKey.cmp :=
  match e.2.after with
  | some a => put heads ⟨e.1, r.machine⟩ r.ord a.head
  | none => heads

/-- The lines after a change of one. A record of another machine leaves a line of this machine
alone. -/
def lineStep (r : Record) (lines : BTreeMap (Stamped String LineRow))
    (e : String × LineChange) : BTreeMap (Stamped String LineRow) :=
  let row := lines[e.1]?
  if r.machine ≠ here ∧ row.map (·.val.machine) = some here then lines
  else lines.insert e.1 (lineRow here r row e.2.after)

/-- Change a line. A record of another machine sets its own head of the line, and nothing else of a
line of this machine. -/
def deriveLine (r : Record) (db : Db) (e : String × LineChange) :
    Except String Db := do
  db.checkHead e.2.after
  return { db with lineHeads := headStep r db.lineHeads e, lines := lineStep here r db.lines e }

def deriveQueue (db : Db) : Except String Db :=
  onField (r.data.get "queue_change") QueueChange.decode "queue change does not decode" db fun ch =>
    { db with queueEntries := put db.queueEntries ch.id r.ord ch.after }

def deriveRef (db : Db) : Except String Db :=
  onField (r.data.get "ref_change") RefChange.decode "ref change does not decode" db fun ch =>
    { db with refs := put db.refs ch.name r.ord (ch.after.map fun a => (a.target, a.expiresAt)) }

/-! ## Attestations -/

variable (c : Codec)

def attestationOf (r : Record) (db : Db) : Except String (Option Attestation) :=
  r.attestationWith c fun state => (db.state state).toOption.join.bind (·.changeId)

/-- Whose attestation it is: the person's who signed it, or the machine's. -/
def signerOf (a : Attestation) : String :=
  if startsWith a.signer "person:" then a.signer else r.machine

def addRevocation (rs : List Revocation) (v : Revocation) : List Revocation :=
  if rs.any fun o => o.id == v.id && o.target == v.target then rs else rs ++ [v]

def textsAt (d : Json) (key : String) : List String :=
  ((d.idx key).asArray.getD []).filterMap Json.asStr

/-- The revocations that a record makes. A withdrawal takes back the earlier approvals of its user
on its machine that are there; a revocation takes back the attestations it names that are there. -/
def revocationsOf (a : Attestation) (attestations : BTreeMap AttestationRow) : List Revocation :=
  (if r.op = "approve.withdraw" then
    (attestations.toList.filter fun e => e.2.subject == a.subject.id && e.2.kind == "approval" &&
      e.2.machine == r.machine && e.2.uid == r.actor.uid && e.2.ord < r.ord).map fun e =>
        ⟨a.attestationId, e.1, r.machine, r.actor.uid, r.ord⟩
   else []) ++
  (if a.kind = "revoke" then
    ((textsAt r.data "revokes").filter fun id =>
      attestations[id]?.any fun t => t.subject == a.subject.id).map fun id =>
        ⟨a.attestationId, id, signerOf r a, r.actor.uid, r.ord⟩
   else [])

/-- Keep an attestation. One that is there can only become local. -/
def attestationStep (isLocal : Bool) (a : Attestation)
    (attestations : BTreeMap AttestationRow) : BTreeMap AttestationRow :=
  attestations.insert a.attestationId (match attestations[a.attestationId]? with
    | some old => { old with isLocal := old.isLocal || isLocal }
    | none => ⟨a.subject.id, a.kind, a, signerOf r a, r.actor.uid, isLocal, r.ord⟩)

def addAttestation (isLocal : Bool) (db : Db) (a : Option Attestation) : Db :=
  { db with
    attestations := match a with
      | none => db.attestations
      | some a => attestationStep r isLocal a db.attestations
    revocations := match a with
      | none => db.revocations
      | some a =>
        (revocationsOf r a (attestationStep r isLocal a db.attestations)).foldl addRevocation
          db.revocations }

def deriveAttestation (r : Record) (isLocal : Bool) (db : Db) : Except String Db := do
  return db.addAttestation r isLocal (← db.attestationOf c r)

/-! ## The operation itself -/

def configOps : List String :=
  ["project", "config", "overlay.create", "overlay.readers", "overlay.mode", "overlay.use",
    "overlay.show-to-project"]

/-- A setting of another machine is kept under the machine's name. -/
def settingKey (r : Record) (key : String) : String :=
  if r.machine ≠ here then key ++ "@" ++ r.machine else key

/-- The settings that a record writes: those of the operation, then the overlays a line shows. A
`null` deletes a setting. -/
def configWrites (r : Record) : List (String × Option Json) :=
  (if configOps.contains r.op then
    (((r.data.get "config").bind Json.asObject).getD []).map fun e =>
      (settingKey here r e.1, if e.2.isNull then none else some e.2)
   else []) ++
  (match r.data.get "stack" with
   | none => []
   | some st =>
     match st.strAt "line", st.get "layers" with
     | some line, some layers => [(settingKey here r ("stack." ++ line), some layers)]
     | _, _ => [])

def deriveConfig (r : Record) (db : Db) : Db :=
  { db with config := putAll r.ord db.config (configWrites here r) }

def addTrusted (trusted : BTreeMap (Option String)) (machine key : Option String) :
    BTreeMap (Option String) :=
  match machine with
  | none => trusted
  | some m => if trusted.contains m then trusted else trusted.insert m key

def trustStep (r : Record) (trusted : BTreeMap (Option String)) : BTreeMap (Option String) :=
  if r.op = "machine" ∧ r.machine = here then
    addTrusted trusted (some r.machine) (r.data.strAt "public_key")
  else if r.op = "machine.trust" then
    addTrusted trusted (r.data.strAt "machine") (r.data.strAt "public_key")
  else trusted

def deriveTrust (r : Record) (db : Db) : Db :=
  { db with trusted := trustStep here r db.trusted }

def tagStep (tags : BTreeMap (Stamped String TagRow)) : BTreeMap (Stamped String TagRow) :=
  match r.data.strAt "name" with
  | none => tags
  | some name =>
    if r.op = "tag" then
      put tags name r.ord ⟨r.data.strAt "state", r.data.strAt "message", false⟩
    else if r.op = "tag.delete" then
      upsert tags name r.ord ⟨none, none, true⟩ fun t => { t with deleted := true }
    else tags

def deriveTag (db : Db) : Db :=
  { db with
    tags := tagStep r db.tags
    namelessTags := if r.op = "tag" ∧ r.data.strAt "name" = none then db.namelessTags + 1
                    else db.namelessTags }

def saveCaches (row : StateRow) : StateRow :=
  let saved := (((r.data.get "caches").or (r.data.get "layers")).bind Json.asObject).getD []
  { row with
    caches := saved.foldl (fun m e => m.insert e.1 e.2) row.caches
    state := { row.state with
      cacheBy := some r.actor.uid
      cacheShared := ((r.data.get "shared").bind Json.asBool).getD false
      cachePlatform := r.data.strAt "platform" } }

/-- Change a state that is there. Only the machine that made a state adds caches to it. -/
def savedStep (states : BTreeMap StateRow) : BTreeMap StateRow :=
  match r.data.strAt "state" with
  | none => states
  | some id =>
    match states[id]? with
    | none => states
    | some row =>
      if r.op = "stash.drop" then states.insert id { row with dropped := true }
      else if (r.op = "save.caches" ∨ r.op = "save.layers") ∧ row.machine = r.machine then
        states.insert id (saveCaches r row)
      else states

def deriveSaved (db : Db) : Db := { db with states := savedStep r db.states }

def derive (here : String) (db : Db) (r : Record) : Except String Db := do
  let db ← r.states.foldlM (deriveState r) db
  let db ← r.lines.toList.foldlM (deriveLine here r) db
  let db ← deriveQueue r db
  let db ← deriveAttestation c r (r.machine == here) db
  let db ← deriveRef r db
  return deriveConfig here r (deriveSaved r (deriveTag r (deriveTrust here r db)))

/-! ## Queries -/

def lineOf (e : String × Stamped String LineRow) : Option Line :=
  if e.2.val.deleted then none
  else some ⟨e.1, e.2.val.name, e.2.val.head, e.2.val.owner, e.2.val.machine⟩

/-- Active lines. The query orders them by name only: lines of one name come in the order in which
their rows were first inserted, which no caller can rely on, so the answer is a multiset. -/
def lineList : Multiset Line := db.lines.toList.filterMap lineOf

def headsOf (line : String) : List (String × String) :=
  (db.lineHeads.toList.filter (·.1.line == line)).map fun e => (e.1.machine, e.2.val)

/-- The tags: name, state and message. A tag without a name or a state cannot be read. -/
def tagList : Except String (List (String × String × Option String)) := do
  let rows := db.tags.toList.filter (!·.2.val.deleted)
  ensure (db.namelessTags == 0) "a tag has no name"
  rows.mapM fun e => do
    let state ← context e.2.val.state "a tag has no state"
    return (e.1, state, e.2.val.message)

def refList (pre : String) (now : Int) : List RefState :=
  (db.refs.toList.filterMap fun e => e.2.val.map fun v => ⟨e.1, v.1, v.2⟩).filter fun r =>
    startsWith r.name pre && r.expiresAt.all (now < ·)

def setting (key : String) : Option Json := db.config[key]?.bind (·.val)

def queueList (target : Option String) : List QueueEntry :=
  ((db.queueEntries.toList.filterMap fun e => e.2.val).filter fun q =>
    target.all (· == q.targetLine)).insertionSort (·.time ≤ ·.time)

/-- The key of a trusted machine. A machine that is trusted without a key cannot be read. -/
def trustedKey (machine : String) : Except String (Option String) :=
  match db.trusted[machine]? with
  | none => .ok none
  | some none => .error "trusted machine without a key"
  | some (some key) => .ok (some key)

def isDropped (id : String) : Option Bool := db.states[id]?.map (·.dropped)

def record (id : String) : Option Record :=
  (db.records.find? (·.record.id == id)).map (·.record)

/-- A revocation takes back the earlier attestation of the same signer and user. -/
def isRevoked (id : String) (a : AttestationRow) : Bool :=
  db.revocations.any fun v => v.target == id && v.machine == a.machine && v.uid == a.uid &&
    a.ord < v.ord

/-- The attestations that still apply, with their records, in the order of their keys. -/
def active (p : AttestationRow → Bool) : List (AttestationRow × Record) :=
  ((db.attestations.toList.filter fun e => p e.2 && !db.isRevoked e.1 e.2).filterMap fun e =>
    (db.record e.1).map fun r => (e.2, r)).insertionSort fun a b => a.1.ord ≤ b.1.ord

/-- Active value declassifications, across all state subjects in this project. The query has no
order: the answer is a multiset. -/
def declassifications : Multiset Record :=
  ((db.active fun a => a.kind == "approval").map (·.2)).filter fun r =>
    (r.data.get "declassify").any (!·.isNull)

/-- A value that a query extracts from the text of a record. -/
inductive Sql where
  | null
  | int (n : Int)
  | real
  | text (s : String)

/-- `json_extract` of a value: an array or an object is its text. -/
def Sql.ofJson : Option Json → Sql
  | none | some .null => .null
  | some (.bool b) => .int (if b then 1 else 0)
  | some (.int n) => if -2 ^ 63 ≤ n ∧ n < 2 ^ 63 then .int n else .real
  | some (.float _) => .real
  | some (.str s) => .text s
  | some j => .text (c.jsonText j)

def Sql.or : Sql → Sql → Sql
  | .null, b => b
  | a, _ => a

def checkRow (r : Record) : Except String (String × Int × Int × String) := do
  let check := (r.data.get "check").getD .null
  let command ← match (Sql.ofJson c (check.get "command")).or
      (.ofJson c (r.data.get "command")) with
    | .null => .ok ""
    | .text s => .ok s
    | _ => .error "check command is not a text"
  let exit ← match (Sql.ofJson c (check.get "exit")).or (.ofJson c (r.data.get "exit")) with
    | .null => .ok (-1)
    | .int n => .ok n
    | _ => .error "check exit code is not a number"
  return (command, exit, r.time, r.actor.name)

/-- The check results of a state that still apply, in order. -/
def checks (db : Db) (state : String) : Except String (List (String × Int × Int × String)) :=
  (db.active fun a => a.subject == state && a.kind == "check").mapM fun e => checkRow c e.2

end Db

end Layr
