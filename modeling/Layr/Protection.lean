import Layr.Project

/-!
# Protection decisions

Whether a state may be merged into a line or a ref (`layr-model/src/protection.rs`): the policy of
the target's machine, the approvals of exactly this state, the results of the required checks on the
candidate, and the roles that the changed paths need. The caller supplies the changed paths and the
groups of users. No command runs.
-/

namespace Layr

def refPrefixes : List String :=
  ["env/", "release/", "pins/", "holds/", "leases/", "caches/", "derived/"]

def refNamespace (name : String) : Bool := refPrefixes.any (startsWith name)

open Serde in
def RuleSpec.decode (j : Json) : Option RuleSpec := do
  let s ← source 8 j
  return { update := ← s.optDefault 0 "update" string,
           expect := ← s.optDefault 1 "expect" Json.asBool,
           check := ← s.default 2 "check" [] (vec string),
           direct := ← s.optDefault 3 "direct" Json.asBool,
           rewrite := ← s.optDefault 4 "rewrite" string,
           paths := ← s.default 5 "paths" ∅ (map string),
           approvals := ← s.optDefault 6 "approvals" u32,
           approvers := ← s.default 7 "approvers" [] (vec string) }

namespace Policy

/-- The roles that are given for a time and have not ended. -/
def loadGrants (v : Option Json) (now : Int) : BTreeMap (Role × Int) :=
  ((v.bind Json.asObject).getD []).foldl (fun m e =>
    let until' := ((e.2.get "until").bind Json.asI64).getD 0
    let role := ((e.2.strAt "role").bind Role.parse).getD .none
    if now < until' then m.insert e.1 (role, until') else m) ∅

/-- The roles of stores of older versions: one admin and the members list, who were writers. -/
def legacyAccess (cfg : String → Option Json) : BTreeMap Role :=
  let admin := (((cfg "admin").bind Json.asU64).or ((cfg "lead").bind Json.asU64)).getD 0
  let access : BTreeMap Role := ∅
  let access := if admin ≠ 0 then access.insert ("user:" ++ toString admin) .admin else access
  match cfg "members" with
  | none => access.insert "*" .writer
  | some v =>
    if v.asStr = some "*" then access.insert "*" .writer
    else ((v.asArray.getD []).filterMap Json.asU64).foldl (fun m u =>
      let k := "user:" ++ toString u
      if m.contains k then m else m.insert k .writer) access

/-- The roles of the setting `access`. An unknown role name grants nothing. -/
def loadAccess (kvs : List (String × Json)) : BTreeMap Role :=
  kvs.foldl (fun m e => m.insert e.1 ((e.2.asStr.bind Role.parse).getD .none)) ∅

def fromProject (p : Project) (now : Int) (overlay : Bool) : Policy :=
  let cfg (key : String) :=
    if overlay && (key == "access" || key == "deny" || key == "overlay") then p.overlaySetting key
    else p.setting key
  { access := match (cfg "access").bind Json.asObject with
      | some kvs => loadAccess kvs
      | none => if overlay then ∅ else legacyAccess cfg
    grants := loadGrants (cfg "grants") now
    deny := ((cfg "deny").bind (Serde.map (Serde.vec Serde.string))).getD ∅
    protect := ((cfg "protect").bind (Serde.map RuleSpec.decode)).getD ∅ }

end Policy

/-! ## Approvals -/

/-- Ref updates also exclude the exact subject's author and follow derived provenance. Line merges
exclude authors of source ancestors absent from the target history. -/
inductive ApprovalMode where
  | ref
  | merge
deriving DecidableEq

structure Approval where
  approver : UInt32
  person : Option String
  state : String
  time : Int
  met : Option Bool
deriving DecidableEq

namespace Project

variable (c : Codec) (p : Project)

def lineage : ApprovalMode → Search.Graph String
  | .ref => p.provenance
  | .merge => p.history

/-- Everything that a state is made from, the state itself included. -/
def ancestry (mode : ApprovalMode) (start : String) : List String :=
  (p.lineage mode).search .depth [] [start]

/-- The states that an update to `subject` brings in. -/
def incoming (mode : ApprovalMode) (have' : List String) (subject : String) : List String :=
  (p.ancestry mode subject).filter fun id => !have'.contains id || (mode == .ref && id == subject)

def countApprovals (subject : String) (base : Option String) (mode : ApprovalMode)
    (approved : List (UInt32 × Int)) (mayApprove : UInt32 → Bool) : List Approval :=
  let have' := (base.map (p.ancestry mode)).getD []
  let authors := (p.incoming mode have' subject).filterMap fun id => (p.state id).map (·.author.uid)
  (approved.filter fun e => !authors.contains e.1 && mayApprove e.1).map fun e =>
    ⟨e.1, none, subject, e.2, some true⟩

def personAuthors (id : String) : List String :=
  match p.state id with
  | none => []
  | some s =>
    s.author.email ::
      ((p.records.filter fun r => r.states.any fun t => t.id == id).filterMap fun r =>
        stripPrefix r.actor.name "person:")

/-- Person approvals use login principals and exclude authors of incoming states. -/
def allowedPersonApprovals (subject : String) (base : Option String) (mode : ApprovalMode)
    (policy : Policy) (rule : Rule) : List Approval :=
  let have' := (base.map p.ancestors).getD []
  let authors := (p.incoming mode have' subject).flatMap p.personAuthors
  ((p.personApprovals c subject).filter fun e =>
    !authors.contains e.1 && policy.personMayApprove rule e.1).map fun e =>
      ⟨2 ^ 32 - 1, some e.1, subject, e.2, some true⟩

end Project

/-! ## Checks and paths -/

inductive CheckResult where
  | passed
  | failed
  | missing
  | undefined
deriving DecidableEq

structure Check where
  name : String
  argv : List String
  result : CheckResult
  exit : Option Int
deriving DecidableEq

def checkArgv (command : String) : List String := ["sh", "-c", command]

/-- A matching passing result remains sufficient even if a newer matching result failed. -/
def requiredCheck (name : String) (command : Option String) (passing : Bool) (latest : Option Int) :
    Check where
  name := name
  argv := (command.map checkArgv).getD []
  result :=
    if command.isNone then .undefined
    else if passing then .passed
    else if latest.isSome then .failed
    else .missing
  exit := if passing then some 0 else latest

structure PathRequirement where
  path : String
  role : Role
  met : Option Bool
deriving DecidableEq

def pathRequirements (paths : List String) (actor : Role) (required : String → Role) :
    List PathRequirement :=
  paths.map fun path => ⟨path, required path, some (required path ≤ actor)⟩

/-! ## The status of a merge -/

structure MergeContext where
  now : Int
  /-- None: no verified mapping to the native uid and groups. -/
  actor : Option Who
  approverGroups : Std.ExtTreeMap UInt32 (List UInt32)
  changedPaths : List String
  /-- The exact merge result when the merge is not a fast-forward. -/
  candidate : Option String

structure MergeStatus where
  state : String
  target : String
  approvals : List Approval := []
  approvalsNeeded : Nat := 0
  approvers : List String := []
  checks : List Check := []
  pathRequirements : List PathRequirement := []
  allowed : Option Bool := none
  alreadyInTarget : Bool := false
  targetMachine : Option String := none
  status : String
  undecidedReasons : List String := []
  reason : Option String := none
deriving DecidableEq

namespace Project

variable (c : Codec) (p : Project)

/-- Whether a group of the approver could decide about the approval. -/
def groupNeeded (policy : Policy) (rule : Rule) (approver : UInt32) : Bool :=
  if rule.approvers.isEmpty then
    (policy.access.toList.any fun e => startsWith e.1 "group:" && .maintainer ≤ e.2) ||
      (policy.grants.toList.any fun e => startsWith e.1 "group:" && .maintainer ≤ e.2.1)
  else
    (rule.approvers.any fun q => startsWith q "group:") &&
      ((rule.approvers.filter fun q => !startsWith q "group:").all fun q =>
        q == "*" || q == "user:" ++ toString approver)

/-- The user of an approval, with the groups the caller knows. -/
def approverWho (context : MergeContext) (approver : UInt32) : Who :=
  ⟨approver, context.approverGroups[approver]?.getD []⟩

/-- Count an approval, keep it as undecided, or leave it out. -/
def judgeApproval (policy : Policy) (rule : Rule) (context : MergeContext) (status : MergeStatus)
    (a : Approval) : MergeStatus :=
  if policy.mayApprove rule (approverWho context a.approver) then
    { status with approvals := status.approvals ++ [a] }
  else if !context.approverGroups.contains a.approver && groupNeeded policy rule a.approver then
    { status with
      approvals := status.approvals ++ [{ a with met := none }]
      undecidedReasons := status.undecidedReasons ++
        ["approver " ++ toString a.approver ++ ": membership not known here"] }
  else status

variable (target : String)

def targetLine : Option Line :=
  p.lineList.find? fun l => l.name == target || l.id == target

def targetBase (now : Int) : Option String :=
  ((p.targetLine target).map (·.head)).or
    (((p.refList target now).find? fun r => r.name == target).map (·.target))

variable (state target : String)

def alreadyIn (now : Int) : Bool :=
  !refNamespace target && (p.targetBase target now).any fun id => (p.ancestors id).contains state

def candidateOf (context : MergeContext) : Option String :=
  let base := p.targetBase target context.now
  (context.candidate.or (if p.alreadyIn state target context.now then base
     else if refNamespace target || base.any fun id =>
       (p.ancestors state).contains id then some state
     else none)).filter fun id => (p.state id).isSome

def checkOn (candidate : Option String) (name : String) : Check :=
  let command := (p.setting ("check." ++ name)).bind Json.asStr
  let argv := (command.map checkArgv).getD []
  let passing := candidate.any fun s => (p.checkExit c s argv (some 0)).isSome
  requiredCheck name command passing (candidate.bind fun s => p.checkExit c s argv none)

def mergeAction : String :=
  if refNamespace target then "line.manage" else "merge"

/-- How an update of the target counts approvals. -/
def approvalMode : ApprovalMode := if refNamespace target then .ref else .merge

def targetRule (now : Int) : Option Rule :=
  (Policy.fromProject p now false).ruleFor (((p.targetLine target).map (·.name)).getD target)

def startStatus (context : MergeContext) (rule : Option Rule) : MergeStatus where
  state := state
  target := target
  approvalsNeeded := (rule.map (·.approvals)).getD 0
  approvers := (rule.map (·.approvers)).getD []
  alreadyInTarget := p.alreadyIn state target context.now
  targetMachine := some p.machine
  status := if context.actor.isSome then "decided" else "not_decided"
  undecidedReasons := if context.actor.isNone then ["the actor's role is not known here"] else []

def actorRole (context : MergeContext) : Role :=
  (context.actor.map (Policy.fromProject p context.now false).role).getD .none

def gatherStatus (context : MergeContext) (rule : Rule) : MergeStatus :=
  let policy := Policy.fromProject p context.now false
  let base := p.targetBase target context.now
  let mode := approvalMode target
  let candidates := p.countApprovals state base mode (p.approvals c state) fun _ => true
  let status := candidates.foldl (judgeApproval policy rule context)
    (p.startStatus state target context (some rule))
  let paths := pathRequirements context.changedPaths (p.actorRole context) rule.roleForPath
  { status with
    checks := rule.check.map (p.checkOn c (p.candidateOf state target context))
    pathRequirements :=
      if context.actor.isNone then paths.map fun q => { q with met := none } else paths
    approvals := status.approvals ++ p.allowedPersonApprovals c state base mode policy rule }

def mayMerge (context : MergeContext) (rule : Rule) (status : MergeStatus) (actor : Who) : Bool :=
  let policy := Policy.fromProject p context.now false
  let isRef := refNamespace target
  rule.update ≤ p.actorRole context && (policy.deniedBy actor (mergeAction target)).isNone &&
    (p.alreadyIn state target context.now ||
      ((rule.approvals ≤ status.approvals.length || (!isRef && actor.uid == 0)) &&
        (status.checks.all fun k => k.result == .passed) &&
        (status.pathRequirements.all fun q => q.met == some true) &&
        (isRef || (p.candidateOf state target context).isSome)))

/-- Evaluate evidence from the policy of this project's machine. -/
def mergeStatusForMachine (context : MergeContext) :
    Except String MergeStatus := do
  let policy := Policy.fromProject p context.now false
  let _ ← Layr.context (p.state state) "state is not known"
  match p.targetRule target context.now with
  | none =>
    return { p.startStatus state target context none with
      allowed := context.actor.map fun actor => (policy.check actor (mergeAction target)).toBool }
  | some rule =>
    let status := p.gatherStatus c state target context rule
    match context.actor with
    | none => return status
    | some actor =>
      -- An approver whose groups are not known leaves the decision open.
      if status.approvals.any fun a => a.met.isNone then
        return { status with status := "not_decided" }
      else return { status with
        allowed := some (p.mayMerge state target context rule status actor) }

/-- The machine whose policy decides about the target: that of the line, or the one that last moved
the ref. -/
def targetMachine : Option String :=
  ((p.targetLine target).map (·.machine)).or
    ((p.records.reverse.find? fun r =>
      ((r.data.idx "ref_change").idx "name").asStr == some target).bind fun r =>
        if ((r.data.idx "ref_change").idx "after").asObject.isSome then some r.machine else none)

/-- Evaluate evidence from the verified target machine's policy. -/
def mergeStatus (context : MergeContext) : Except String MergeStatus :=
  match p.targetMachine target with
  | none => .ok {
      state := state
      target := target
      status := "unavailable"
      reason := some "the target has no verified machine record" }
  | some machine =>
    if machine ≠ p.machine then do
      let q ← fromRecords c p.id p.records machine
      q.mergeStatusForMachine c state target context
    else p.mergeStatusForMachine c state target context

end Project

end Layr
