import Layr.Lib.Search
import Layr.Policy
import Layr.Validation

/-!
# The read model of a project

What the verified records of a project say, seen from one machine (`layr-model/src/lib.rs`). The
records are put in one order, by time, machine and sequence number, and folded one by one: states,
lines, settings, tags, refs, queue entries and attestations. The queries read the folded tables.
-/

namespace Layr

/-- A line and the independent head last published by each machine. -/
structure LineView where
  line : Line
  heads : BTreeMap String
  deleted : Bool
deriving DecidableEq

structure StateView where
  state : StateRec
  machine : String
  dropped : Bool
deriving DecidableEq

/-- Derived project metadata. The attestations name their record by its index. -/
structure Project where
  id : String
  machine : String
  name : Option String := none
  states : BTreeMap StateView := ∅
  lines : BTreeMap LineView := ∅
  config : BTreeMap Json := ∅
  tags : BTreeMap Json := ∅
  remoteRefs : BTreeMap Json := ∅
  machines : BTreeMap Json := ∅
  trusted : BTreeMap Json := ∅
  records : List Record := []
  refs : BTreeMap RefState := ∅
  refHistory : List (Nat × RefChange) := []
  queue : BTreeMap QueueEntry := ∅
  attestations : List (Nat × Attestation) := []

/-- The order of the fold: time (a negative one counts as 0), machine, sequence number. -/
def orderLe (a b : Record) : Bool :=
  let ta := max a.time 0
  let tb := max b.time 0
  ta < tb || (ta == tb && (a.machine < b.machine || (a.machine == b.machine && a.seq ≤ b.seq)))

namespace Project

variable (c : Codec) (p : Project) (r : Record)

def deriveState (state : StateRec) : Except String Project := do
  ensure (!p.states.contains state.id) ("state " ++ state.id ++ " is named by two records")
  ensure (!(state.parents.any fun id => p.states[id]?.any (·.state.kind.auxiliary)))
    "source history cannot have a cache or derived parent"
  return { p with states := p.states.insert state.id ⟨state, r.machine, false⟩ }

/-- Change a line. A record of another machine sets its own head of the line, and nothing else of a
line of this machine. -/
def deriveLine (e : String × LineChange) : Except String Project := do
  let foreign := r.machine != p.machine
  let view := p.lines[e.1]?.getD ⟨⟨e.1, "", "", 0, r.machine⟩, ∅, true⟩
  let view ← match e.2.after with
    | some after => do
      ensure (!(p.states[after.head]?.any (·.state.kind.auxiliary)))
        "line head cannot be a cache or derived state"
      pure { view with heads := view.heads.insert r.machine after.head }
    | none => pure view
  let view :=
    if foreign && view.line.machine == p.machine then view
    else match e.2.after with
      | some after =>
        { view with line := ⟨e.1, after.name, after.head, after.owner, after.machine⟩,
                    deleted := false }
      | none => { view with deleted := true }
  return { p with lines := p.lines.insert e.1 view }

def deriveQueue : Except String Project :=
  onField (r.data.get "queue_change") QueueChange.decode "queue change does not decode" p fun ch =>
    match ch.after with
    | some after => { p with queue := p.queue.insert ch.id after }
    | none => { p with queue := p.queue.erase ch.id }

def deriveRef (index : Nat) (r : Record) : Except String Project :=
  onField (r.data.get "ref_change") RefChange.decode "ref change does not decode" p fun ch =>
    let refs := match ch.after with
      | some after => p.refs.insert ch.name after
      | none => p.refs.erase ch.name
    { p with refs := refs, refHistory := p.refHistory ++ [(index, ch)] }

def attestationOf : Except String (Option Attestation) :=
  r.attestationWith c fun state => p.states[state]?.bind (·.state.changeId)

def deriveAttestation (index : Nat) (r : Record) : Except String Project := do
  let a ← p.attestationOf c r
  return { p with attestations := p.attestations ++ a.toList.map fun a => (index, a) }

def configOps : List String :=
  ["project", "config", "overlay.create", "overlay.readers", "overlay.mode", "overlay.use",
    "overlay.show-to-project"]

/-- A setting of another machine is kept under the machine's name. -/
def settingKey (key : String) : String :=
  if r.machine != p.machine then key ++ "@" ++ r.machine else key

/-- A text of the record's data, empty when it is missing. -/
def textAt (key : String) : String := (r.data.idx key).asStr.getD ""

/-- Keep the data of a record under a key that has none. -/
def insertNew (m : BTreeMap Json) (k : String) (d : Json) : BTreeMap Json :=
  if m.contains k then m else m.insert k d

def dropState : Project :=
  match p.states[textAt r "state"]? with
  | some s => { p with states := p.states.insert (textAt r "state") { s with dropped := true } }
  | none => p

def saveCaches : Except String Project :=
  match p.states[textAt r "state"]? with
  | some s =>
    if s.machine = r.machine then do
      let saved := (((r.data.get "caches").or (r.data.get "layers")).bind Json.asObject).getD []
      let caches ← saved.foldlM (fun m e => do
        return m.insert e.1 (← context e.2.asStr "invalid cache name")) s.state.caches
      let state := { s.state with
        caches := caches
        cacheBy := some r.actor.uid
        cacheShared := (r.data.idx "shared").asBool.getD false
        cachePlatform := (r.data.idx "platform").asStr }
      return { p with states := p.states.insert (textAt r "state") { s with state := state } }
    else .ok p
  | none => .ok p

def deriveOp : Except String Project :=
  if r.op = "machine" then
    .ok { p with machines := insertNew p.machines r.machine r.data,
                 trusted := if r.machine != p.machine then p.trusted
                            else insertNew p.trusted r.machine r.data }
  else if r.op = "machine.trust" then
    .ok { p with trusted := insertNew p.trusted (textAt r "machine") r.data }
  else if configOps.contains r.op then
    .ok { p with name := if r.op = "project" then (r.data.idx "name").asStr else p.name,
                 config := ((r.data.idx "config").asObject.getD []).foldl
                   (fun m e => m.insert (p.settingKey r e.1) e.2) p.config }
  else if r.op = "tag" then .ok { p with tags := p.tags.insert (textAt r "name") r.data }
  else if r.op = "tag.delete" then .ok { p with tags := p.tags.erase (textAt r "name") }
  else if r.op = "import" ∨ r.op = "remote.ref" then
    if (r.data.idx "ref").asStr.isSome && (r.data.idx "state").asStr.isSome then
      .ok { p with remoteRefs := p.remoteRefs.insert (textAt r "ref") r.data }
    else .ok p
  else if r.op = "export" ∧ r.data.idx "status" = .str "pushed" then
    .ok { p with
      remoteRefs := p.remoteRefs.insert (textAt r "remote" ++ "/" ++ textAt r "branch") r.data }
  else if r.op = "stash.drop" then .ok (p.dropState r)
  else if r.op = "save.caches" ∨ r.op = "save.layers" then p.saveCaches r
  else .ok p

def deriveStack : Project :=
  match r.data.get "stack" with
  | none => p
  | some stack =>
    match (stack.idx "line").asStr, stack.get "layers" with
    | some line, some layers =>
      { p with config := p.config.insert (p.settingKey r ("stack." ++ line)) layers }
    | _, _ => p

def derive (index : Nat) (r : Record) : Except String Project := do
  let p ← r.states.foldlM (fun p s => p.deriveState r s) p
  let p ← r.lines.toList.foldlM (fun p e => p.deriveLine r e) p
  let p ← p.deriveQueue r
  let p ← p.deriveRef index r
  let p ← p.deriveAttestation c index r
  let p ← p.deriveOp r
  return p.deriveStack r

variable (id : String)

def addUnique (u : BTreeMap Record × List (String × Nat)) (r : Record) :
    Except String (BTreeMap Record × List (String × Nat)) := do
  if r.op = "release.files" then
    (← context (ReleaseFiles.decode r.data) "release files do not decode").validate c
  ensure (r.project == "" || r.project == id) "record belongs to another project"
  match u.1[r.id]? with
  | some old => do
    ensure (old.unsigned == r.unsigned) "conflicting record identity"
    return u
  | none => do
    ensure (!u.2.contains (r.machine, r.seq)) "conflicting machine sequence"
    return (u.1.insert r.id r, (r.machine, r.seq) :: u.2)

def ordered (records : List Record) : Except String (List Record) := do
  let (unique, _) ← records.foldlM (addUnique c id) (∅, [])
  return (unique.toList.map (·.2)).insertionSort (orderLe · ·)

/-- Build one project from verified records. `machine` selects the policy perspective. -/
def fromRecords (records : List Record) (machine : String) :
    Except String Project := do
  let records ← ordered c id records
  let start : Project := { id := id, machine := machine }
  let p ← records.zipIdx.foldlM (fun p e => derive c p e.2 e.1) start
  return { p with records := records }

/-! ## Queries -/

def recordAt (i : Nat) : Record := p.records.getD i default

def lineList : List Line :=
  ((p.lines.toList.filter fun e => !e.2.deleted).map (·.2.line)).insertionSort fun a b =>
    a.name < b.name ∨ (a.name = b.name ∧ a.id ≤ b.id)

def state : Option StateRec := p.states[id]?.map (·.state)

def refList (pre : String) (now : Int) : List RefState :=
  (p.refs.toList.map (·.2)).filter fun r => startsWith r.name pre && r.expiresAt.all (now < ·)

variable (subject : String)

/-- All evidence, including revoked evidence, in record order. -/
def attestationList (kind : Option String) : List Attestation :=
  (p.attestations.map (·.2)).filter fun a => a.subject.id == subject && kind.all (· == a.kind)

/-- The current local setting, if it is not deleted. -/
def setting (key : String) : Option Json := p.config[key]?.filter fun v => !v.isNull

/-- Latest overlay policy across machine scopes, including deletion markers. -/
def overlaySetting (key : String) : Option Json :=
  ((p.records.reverse.filter fun r => configOps.contains r.op).findSome? fun r =>
    (r.data.idx "config").get key).filter fun v => !v.isNull

/-- Imported machine records cannot supply a different key for a local person principal. -/
def personRecordPinned (record : Record) : Bool :=
  (stripPrefix record.actor.name "person:").any fun login =>
    ((p.setting "person.keys").bind fun keys => (keys.idx login).asStr).any fun pub =>
      (record.data.idx "person_key").asStr == some pub && (validate c record).toBool

/-- A revocation only affects earlier evidence from the same machine and user, or person. -/
def isRevoked : Bool :=
  match p.attestations.find? fun e => e.2.attestationId == id with
  | none => false
  | some (index, a) =>
    let owner := p.recordAt index
    p.attestations.any fun e =>
      let r := e.2
      let rec' := p.recordAt e.1
      index < e.1 && r.kind == "revoke" && r.subject.id == a.subject.id &&
        ((startsWith a.signer "person:" && r.signer == a.signer && p.personRecordPinned c rec') ||
          (!startsWith a.signer "person:" && rec'.machine == owner.machine && rec'.actor.uid ==
            owner.actor.uid)) &&
        (((rec'.data.idx "revokes").asArray.any fun v => v.any fun x => x.asStr == some id) ||
          (rec'.op == "approve.withdraw" && a.kind == "approval"))

/-- Whether the result of a check is for these arguments. -/
def argvMatches (result : Json) (argv : List String) : Bool :=
  match result.get "argv" with
  | some v => Serde.vec Serde.string v == some argv
  | none =>
    match argv with
    | [arg] =>
      arg != "" && allChars (fun ch => !isSpace ch) arg && (result.idx "command").asStr == some arg
    | _ => false

def exitOf (result : Json) (argv : List String) (wanted : Option Int) : Option Int :=
  if argvMatches result argv then
    (result.idx "exit").asI64.filter fun code => wanted.all (· == code)
  else none

def checkResult : Json := (r.data.get "check").getD r.data

/-- The loop of `checkExit`, over the evidence from the newest on. A check without its record ends
the loop. -/
def checkExitLoop (argv : List String) (wanted : Option Int) : List Attestation → Option Int
  | [] => none
  | a :: rest =>
    if p.isRevoked c a.attestationId then checkExitLoop argv wanted rest
    else
      match p.records.find? fun r => r.id == a.attestationId with
      | none => none
      | some r => (exitOf (checkResult r) argv wanted).or (checkExitLoop argv wanted rest)

def checkExit (argv : List String) (wanted : Option Int) : Option Int :=
  p.checkExitLoop c argv wanted (p.attestationList subject (some "check")).reverse

def history : Search.Graph String where
  next id := ((p.state id).map (·.parents)).getD []
  nodes := p.states.keys
  mem_nodes id h := by
    cases hs : p.states[id]? with
    | none => simp [state, hs] at h
    | some s => simp [← Std.ExtTreeMap.isSome_getElem?_iff_mem, hs]

/-- Source history, where a derived state also leads to the state it is derived from. -/
def provenance : Search.Graph String where
  next id := ((p.state id).map fun s => s.parents ++ s.derivedFrom.toList).getD []
  nodes := p.states.keys
  mem_nodes id h := by
    cases hs : p.states[id]? with
    | none => simp [state, hs] at h
    | some s => simp [← Std.ExtTreeMap.isSome_getElem?_iff_mem, hs]

/-- Ancestry includes automatic states and follows all parents in breadth-first order. -/
def ancestors : List String := p.history.search .breadth [] [id]

def raiseTime {κ : Type} [Ord κ] [Std.TransOrd κ] (m : Std.ExtTreeMap κ Int) (k : κ) (time : Int) :
    Std.ExtTreeMap κ Int :=
  m.insert k (match m[k]? with | some t => max t time | none => time)

/-- Whether the attestation is a local approval of the exact subject that still applies. Scoped
declassifications are excluded. -/
def approvalCounts (e : Nat × Attestation) : Bool :=
  let record := p.recordAt e.1
  e.2.subject.id == subject && e.2.kind == "approval" && !p.isRevoked c e.2.attestationId &&
    (record.data.get "declassify").isNone && !startsWith e.2.signer "person:" &&
    record.machine == p.machine

/-- Local approvals that still apply to the exact subject: the uids and their latest times. -/
def approvals : List (UInt32 × Int) :=
  ((p.attestations.filter (p.approvalCounts c subject)).foldl
    (fun m e => raiseTime m (p.recordAt e.1).actor.uid e.2.time)
      (∅ : Std.ExtTreeMap UInt32 Int)).toList

def personApprovals : List (String × Int) :=
  (p.attestations.foldl (fun m e =>
    match stripPrefix e.2.signer "person:" with
    | none => m
    | some login =>
      if e.2.subject.id == subject && e.2.kind == "approval" &&
          !p.isRevoked c e.2.attestationId && p.personRecordPinned c (p.recordAt e.1) &&
          ((p.recordAt e.1).data.get "declassify").isNone then raiseTime m login e.2.time
      else m) (∅ : BTreeMap Int)).toList

end Project

end Layr
