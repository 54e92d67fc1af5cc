import Layr.Federation
import Layr.Steer

/-!
# Rules of an agent

A rule wakes its owner: on a timer, once, when a file changes, on an event, or when few workers are
active. Most rules run a command first (a check), and the result of the check decides about the
wake. A file rule also watches for silence: when its file stays unchanged for too long it runs its
liveness command, or wakes at once if it has none.

`rules_engine.rs` decides on a stored rule and its owner, `rules_tick.rs` applies a decision in one
transaction, `monitor_runtime.rs` gives the results of checks and `routes/rules.rs` the user's pause
and resume. Seconds are rationals, for `f64`. Decoding of the stored records is left out, and the
JSON texts of a wake are values of `WakeText`; what other crates compute (`uuid`, JSON, the text of
a float) is in `Crates`.
-/

namespace Layr.Rules

open Federation (pythonStrip asSeconds)
open Steer (AgentStatus)

/-! ## Stored records -/

inductive RuleKind where
  | interval
  | once
  | file (path : String)
  | event
  | lowWorkers (minimumWorkers durationMinutes : ℕ)
deriving DecidableEq

namespace RuleKind

def path : RuleKind → Option String
  | file path => some path
  | interval | once | event | lowWorkers .. => none

def isFile (kind : RuleKind) : Bool := kind.path.isSome

def isLowWorkers : RuleKind → Bool
  | lowWorkers .. => true
  | interval | once | event | file _ => false

end RuleKind

inductive RuleStatus where
  | active | paused | completed
deriving DecidableEq

inductive OwnerHold where
  | failedInputHeld | nativeFailureHold | archived
deriving DecidableEq

/-- Modification time in nanoseconds, size and inode of a file. -/
abbrev RuleFileFingerprint := ℤ × ℕ × ℕ

/-- `RuleCheck`, and `LaunchIntent`, which stores it. -/
structure RuleCheck where
  ruleId : String
  checkNumber : ℕ
  agentId : String
  epoch : ℕ
  accountKey : Option String
  threadId : Option String
  monitorId : String
  command : String
  timeoutMs : ℕ
  liveness : Bool
deriving DecidableEq

structure RestartCheck where
  epoch : ℕ
  checks : ℕ
  monitorId : String
deriving DecidableEq

inductive WakeText where
  | unchanged (rule name : String) (path : Option String) (quietSeconds : ℤ)
  | liveness (rule name : String) (path : Option String) (quietSeconds : ℤ) (result : String)
      (exitCode : Option ℤ) (error : Option String)
  | missed (rule name : String) (dueAt delaySeconds : ℚ) (message : String)
  | output (rule name instruction output : String)
deriving DecidableEq

structure RuleRecord where
  id : String
  agent : String
  epoch : ℕ
  name : String
  kind : RuleKind
  status : RuleStatus
  intervalSeconds : ℕ
  nextAt : ℚ
  created : ℚ
  command : String
  text : String
  event : String
  checks : ℕ
  wakes : ℕ
  inFlight : Bool
  fileActivityAt : Option ℚ
  fileGeneration : ℕ
  fingerprint : Option RuleFileFingerprint
  stallTimeoutSeconds : ℕ
  stallWakeGeneration : ℤ
  livenessCommand : String
  stallProbe : Option Bool
  stallEventKey : Option String
  stallText : Option WakeText
  lastStallFinished : Option ℚ
  lastStallExitCode : Option ℤ
  lastStallError : Option String
  lastEvent : Option String
  eventText : Option String
  lastAt : Option ℚ
  lastFinished : Option ℚ
  lastExitCode : Option ℤ
  lastOutput : Option String
  error : Option String
  activeWorkers : Option ℕ
  lowSince : Option ℚ
  alerted : Option Bool
  ownerHold : Option OwnerHold
  restartCheck : Option RestartCheck
  launchIntent : Option RuleCheck
deriving DecidableEq

/-- The receipt of a recovery that waits for its agent. -/
structure Recovery where
  stage : Option String
  autoWake : Bool
  epoch : Option ℕ
  accountKey : Option String
  threadId : Option String
deriving DecidableEq

/-- The fields of an agent record that rules read. -/
structure Owner where
  id : String
  epoch : ℕ
  status : AgentStatus
  autoWake : Bool
  deletedAt : Option ℚ
  accountKey : Option String
  threadId : Option String
  restartRecovery : Option Recovery
  disconnectRecovery : Option Recovery
  /-- `nativeFailureHold` is a truthy value. -/
  nativeFailureHold : Bool
  /-- `archived` is a truthy value. -/
  archived : Bool
deriving DecidableEq

namespace Owner

variable (o : Owner)

def deleted : Bool := o.deletedAt.any (· ≠ 0)

/-- Why the owner cannot act on a wake now, while it can run again later. -/
def hold (heldInput : Bool) : Option OwnerHold :=
  if o.archived then some .archived
  else if o.nativeFailureHold then some .nativeFailureHold
  else if o.status = .failed && heldInput then some .failedInputHeld
  else none

def matchingRecovery (receipt : Recovery) (epoch : ℕ) : Bool :=
  receipt.autoWake && receipt.epoch = some epoch && o.epoch = epoch && receipt.accountKey =
    o.accountKey &&
    receipt.threadId = o.threadId

def restartPending : Bool :=
  o.restartRecovery.any fun receipt => receipt.stage = some "pending" &&
    o.matchingRecovery receipt o.epoch

def recoveryPending (epoch : ℕ) : Bool :=
  (o.epoch = epoch && o.restartPending) ||
    ((!o.autoWake || o.nativeFailureHold) && o.disconnectRecovery.any (o.matchingRecovery · epoch))

def finishAllowed : Bool :=
  o.autoWake || (!o.deleted && o.status ≠ .paused && o.restartPending)

end Owner

/-! ## Decisions -/

structure Crates where
  /-- `Uuid::new_v5` in the URL namespace. -/
  uuid : String → String
  /-- `wakeAgent` of a JSON object, if the line is one. -/
  wakeDirective : String → Option (Option Bool)
  /-- The JSON text of a low count of workers: the count, the minimum, since when, and the minutes.
  -/
  lowWorkersOutput : ℕ → ℕ → ℚ → ℚ → String
  /-- The text of an `f64`. -/
  showSeconds : ℚ → String

inductive Error where
  | invalid (object location : String)
  | observation (text : String)
  | monitorUnavailable
  | refused (text : String)
  | badRequest (text : String)
deriving DecidableEq

inductive WakeKind where
  | rule | ruleStall | ruleMissed
deriving DecidableEq

structure RuleWake where
  id : String
  kind : WakeKind
  text : WakeText
deriving DecidableEq

structure RuleDecision where
  record : Option RuleRecord
  wake : Option RuleWake
  check : Option RuleCheck
deriving DecidableEq

/-- `RuleDecision::default()`: nothing changes. -/
def RuleDecision.nothing : RuleDecision := ⟨none, none, none⟩

def change (record : RuleRecord) : RuleDecision := ⟨some record, none, none⟩

def changeIfNew (r next : RuleRecord) : RuleDecision := if next = r then .nothing else change next

theorem changeIfNew_cases {P : RuleDecision → Prop} {r next : RuleRecord} (nothing : P .nothing)
    (changed : P (change next)) : P (changeIfNew r next) := by
  unfold changeIfNew
  split
  · exact nothing
  · exact changed

structure CheckResult where
  code : Option ℤ
  error : Option String
  cancelled : Bool
  output : String

structure TickObservation where
  fingerprint : Option (Option RuleFileFingerprint)
  activeWorkers : Option ℕ
  heldInput : Bool

structure RuleSnapshot where
  raw : RuleRecord
  owner : Owner

def onceRuleGraceSeconds : ℚ := 60

def outputCharacters : ℕ := 12000

def defaultRuleStallSeconds : ℕ := 1800

def stopped : String := "The agent was stopped. Resume this rule explicitly."

def restarted : String :=
  "Server restarted during a check. Outcome unknown; check was not repeated."

def missedMessage : String :=
  "Missed scheduled run. Resume this rule to schedule a new run, or delete it to cancel."

def ownerHoldReason : OwnerHold → String
  | .failedInputHeld =>
    "Paused: the agent failed and its input waits, so it cannot act on a wake. " ++
      "The rule resumes when the agent can run again."
  | .nativeFailureHold =>
    "Paused: the agent is held after a failure, so it cannot act on a wake. " ++
      "The rule resumes when the agent can run again."
  | .archived =>
    "Paused: the conversation of the agent is archived. " ++
      "The rule resumes when the conversation is restored."

def ruleInteger (n : ℕ) : Except Error ℕ := do
  ensure (n ≤ 9007199254740991) (.observation "rule counter exceeded")
  return n

@[simp] theorem ruleInteger_eq_ok {n m : ℕ} : ruleInteger n = .ok m ↔ n ≤ 9007199254740991 ∧
    n = m := by
  simp only [ruleInteger, bind_eq_ok, ensure_eq_ok, pure_eq_ok, exists_const, decide_eq_true_eq]

def tail (text : String) : String :=
  String.ofList (text.toList.drop (text.length - outputCharacters))

def canTick (rule : RuleRecord) : Bool := rule.status = .active && !rule.inFlight

def ownerPaused (rule : RuleRecord) : Bool :=
  rule.status = .paused && !rule.inFlight && rule.ownerHold.isSome

/-- The last line of an output, by the line ends of Python's `splitlines`. -/
def lastLine (text : String) : String :=
  let ends (ch : Char) : Bool :=
    [0xa, 0xd, 0xb, 0xc, 0x1c, 0x1d, 0x1e, 0x85, 0x2028, 0x2029].contains ch.toNat
  String.ofList ((pythonStrip text).toList.reverse.takeWhile (!ends ·)).reverse

namespace RuleSnapshot

def fromStored (record : RuleRecord) (owner : Owner) : Except Error RuleSnapshot := do
  ensure (record.agent = owner.id) (.invalid ("rules/" ++ record.id) "/agent")
  return ⟨record, owner⟩

@[simp] theorem fromStored_eq_ok {record : RuleRecord} {owner : Owner} {s : RuleSnapshot} :
    fromStored record owner = .ok s ↔ record.agent = owner.id ∧ ⟨record, owner⟩ = s := by
  simp only [fromStored, bind_eq_ok, ensure_eq_ok, pure_eq_ok, exists_const, decide_eq_true_eq]

variable (c : Crates) (s : RuleSnapshot)

def withRecord (record : RuleRecord) : Except Error RuleSnapshot := fromStored record s.owner

def heldInputOwner : Option (String × ℕ) :=
  if s.owner.status = .failed && (canTick s.raw || ownerPaused s.raw) then some
    (s.owner.id, s.owner.epoch) else none

/-- How long the file has been quiet, from its last activity or else from the given time. -/
def quiet (now since : ℚ) : ℚ := now - s.raw.fileActivityAt.getD since

def stalled (now : ℚ) : Bool :=
  s.raw.kind.isFile && s.raw.stallTimeoutSeconds ≠ 0 &&
    s.quiet now s.raw.created ≥ s.raw.stallTimeoutSeconds &&
    (s.raw.fileGeneration : ℤ) > s.raw.stallWakeGeneration

def fingerprintPath (now : ℚ) : Option String :=
  if s.raw.kind.isFile && s.raw.status = .active && !s.raw.inFlight && !s.owner.deleted &&
    s.owner.autoWake &&
      s.owner.epoch = s.raw.epoch && !s.owner.recoveryPending s.raw.epoch &&
      (s.stalled now || s.raw.nextAt ≤ now)
  then s.raw.kind.path else none

def monitorId (rule : String) (number : ℕ) : String :=
  c.uuid ("rule:" ++ rule ++ ":" ++ toString number)

def check : RuleCheck :=
  let r := s.raw
  { ruleId := r.id, checkNumber := r.checks, agentId := r.agent, epoch := r.epoch
    accountKey := s.owner.accountKey, threadId := s.owner.threadId
    monitorId := monitorId c r.id r.checks
    command := if r.stallProbe = some true then r.livenessCommand else r.command
    timeoutMs := max 1000 (min (r.intervalSeconds * 1000) 86400000)
    liveness := r.stallProbe.getD false }

def launchAllowed (check : RuleCheck) : Bool :=
  s.raw.status = .active && s.raw.inFlight && s.owner.autoWake && !s.owner.deleted &&
    s.owner.epoch = check.epoch &&
    !s.owner.recoveryPending check.epoch && s.check c = check

/-- A finished check may wake: the rule is active and its owner still wants it. -/
def authorized : Bool :=
  s.raw.status = .active && s.owner.epoch = s.raw.epoch && s.owner.finishAllowed

def stallWake (now : ℚ) (result : CheckResult) : Except Error (Option RuleWake) :=
  if s.authorized && !s.owner.deleted then do
    let id ← context s.raw.stallEventKey (.invalid ("rules/" ++ s.raw.id) "/stallEventKey")
    return some ⟨id, .ruleStall, .liveness s.raw.id s.raw.name s.raw.kind.path
      (asSeconds (s.quiet now now)) (tail result.output) result.code result.error⟩
  else return none

def finishStall (now : ℚ) (result : CheckResult) : Except Error RuleDecision := do
  let wake ← s.stallWake now result
  let generation ← ruleInteger s.raw.fileGeneration
  let next := { s.raw with
    inFlight := false, stallProbe := some false
    stallWakeGeneration := generation, lastStallFinished := some now
    lastStallExitCode := result.code, lastStallError := result.error }
  return ⟨some next, wake, none⟩

/-- The last line of the output is a JSON object that asks for no wake. -/
def suppressed (output : String) : Bool := c.wakeDirective (lastLine output) = some (some false)

/-- The result of the rule's own command wakes its owner. -/
def wakes (result : CheckResult) : Bool :=
  result.code = some 0 && result.error.all (·.isEmpty) && !suppressed c result.output &&
    s.authorized

def countWake (result : CheckResult) : Except Error ℕ :=
  if s.wakes c result then ruleInteger (s.raw.wakes + 1) else return s.raw.wakes

def finishRule (now : ℚ) (result : CheckResult) : Except Error RuleDecision := do
  let r := s.raw
  let count ← s.countWake c result
  let next := { r with
    inFlight := false, lastExitCode := result.code, error := result.error
    lastOutput := some (tail result.output), lastFinished := some now, wakes := count
    status := if r.kind = .once && r.status = .active then .completed else r.status }
  let wake : RuleWake :=
    ⟨"rule-wake:" ++ r.id ++ ":" ++ toString r.checks, .rule,
      .output r.id r.name r.text (tail result.output)⟩
  return ⟨some next, if s.wakes c result then some wake else none, none⟩

def finish (now : ℚ) (result : CheckResult) : Except Error RuleDecision :=
  if s.raw.stallProbe = some true then s.finishStall now result else s.finishRule c now result

/-- A check without a command succeeds at once. -/
def immediate (output : String) : CheckResult := ⟨some 0, none, false, output⟩

/-- `launch`. A check without a command finishes in the same decision. -/
def launch (next : RuleRecord) (now : ℚ) : Except Error RuleDecision := do
  let s ← s.withRecord next
  if s.raw.status ≠ .active || !s.owner.autoWake || s.raw.epoch ≠ s.owner.epoch then
    return change { s.raw with inFlight := false }
  else if (s.check c).command.isEmpty then
    s.finish c now (immediate (s.raw.eventText.getD ""))
  else
    return ⟨some s.raw, none, some (s.check c)⟩

def resumeAfterOwnerHold (heldInput : Bool) : RuleDecision :=
  let r := s.raw
  if s.owner.deleted || !s.owner.autoWake || s.owner.epoch ≠ r.epoch then
    change { r with ownerHold := none, error := some stopped }
  else match s.owner.hold heldInput with
    | some hold =>
      if r.ownerHold = some hold then .nothing
      else change { r with ownerHold := some hold, error := some (ownerHoldReason hold) }
    | none =>
      change { r with
        ownerHold := none, status := .active, error := none
        lowSince := if r.kind.isLowWorkers then none else r.lowSince
        alerted := if r.kind.isLowWorkers then some false else r.alerted }

def lowWorkers (now : ℚ) (count : Option ℕ) (minimum duration : ℕ) :
    Except Error RuleDecision := do
  let r := s.raw
  let count ← context count (.observation "worker activity missing")
  let workers ← ruleInteger count
  let since := (r.lowSince.filter (· ≤ now)).getD now
  let counted := { r with activeWorkers := some workers }
  if count ≥ minimum then
    let next := { counted with lowSince := none, alerted := some false }
    return changeIfNew r next
  else if r.alerted ≠ some true && now - since > (duration * 60 : ℕ) then do
    let number ← ruleInteger (r.checks + 1)
    let next :=
      { counted with
      lowSince := some since, alerted := some true, lastAt := some now, checks := number }
    let s ← s.withRecord next
    s.finish c now (immediate (c.lowWorkersOutput count minimum since ((now - since) / 60)))
  else
    let next := { counted with lowSince := some since }
    return changeIfNew r next

/-- `tick`, when the file has been unchanged for too long. -/
def tickStalled (now : ℚ) (fingerprint : Option RuleFileFingerprint) :
    Except Error RuleDecision := do
  let r := s.raw
  let id := "rule-stall:" ++ r.id ++ ":" ++ toString r.fileGeneration
  let text := WakeText.unchanged r.id r.name r.kind.path (asSeconds (s.quiet now now))
  if fingerprint ≠ r.fingerprint then
    let generation ← ruleInteger (r.fileGeneration + 1)
    return change { r with fingerprint, fileActivityAt := some now, fileGeneration := generation }
  else if !r.livenessCommand.isEmpty then
    let number ← ruleInteger (r.checks + 1)
    s.launch c { r with
      inFlight := true, checks := number, stallProbe := some true, stallEventKey := some id
      stallText := some text } now
  else
    let generation ← ruleInteger r.fileGeneration
    return ⟨some { r with stallWakeGeneration := generation }, some ⟨id, .ruleStall, text⟩, none⟩

def tickDue (now : ℚ) (fingerprint : Option (Option RuleFileFingerprint)) :
    Except Error RuleDecision := do
  let r := s.raw
  let due := { r with nextAt := now + r.intervalSeconds, inFlight := true, lastAt := some now }
  if r.kind = .once && now - r.nextAt > onceRuleGraceSeconds then
    let count ← ruleInteger (r.wakes + 1)
    let wake : RuleWake :=
      ⟨"rule-missed:" ++ r.id ++ ":" ++ toString r.epoch ++ ":" ++ c.showSeconds r.nextAt,
        .ruleMissed, .missed r.id r.name r.nextAt (now - r.nextAt) missedMessage⟩
    return ⟨some { r with status := .paused, error := some missedMessage, wakes := count },
      some wake, none⟩
  else if r.kind.isFile then
    let fingerprint ← context fingerprint (.observation "file fingerprint missing")
    if fingerprint = r.fingerprint then
      return change { r with nextAt := now + r.intervalSeconds, fingerprint }
    else
      let generation ← ruleInteger (r.fileGeneration + 1)
      let number ← ruleInteger (r.checks + 1)
      s.launch c { due with
        checks := number, fingerprint
        fileActivityAt := some now, fileGeneration := generation } now
  else
    let number ← ruleInteger (r.checks + 1)
    s.launch c { due with checks := number } now

/-- `tick`, for a rule whose owner can act on a wake. -/
def tickReady (now : ℚ) (observation : TickObservation) : Except Error RuleDecision :=
  match s.raw.kind with
  | .lowWorkers minimum duration => s.lowWorkers c now observation.activeWorkers minimum duration
  | .event => return .nothing
  | .interval | .once | .file _ =>
    if s.stalled now then do
      s.tickStalled c now
        (← context observation.fingerprint (.observation "file fingerprint missing"))
    else if s.raw.nextAt > now then return .nothing
    else s.tickDue c now observation.fingerprint

def tick (now : ℚ) (observation : TickObservation) : Except Error RuleDecision :=
  let r := s.raw
  if ownerPaused r then return s.resumeAfterOwnerHold observation.heldInput
  else if !canTick r then return .nothing
  else if !s.owner.deleted && s.owner.epoch = r.epoch &&
    s.owner.recoveryPending r.epoch then return .nothing
  else if s.owner.deleted || !s.owner.autoWake || s.owner.epoch ≠ r.epoch then
    return change { r with status := .paused, error := some stopped }
  else match s.owner.hold observation.heldInput with
    | some hold =>
      return change { r with
        status := .paused, ownerHold := some hold, error := some (ownerHoldReason hold) }
    | none => s.tickReady c now observation

def eventAlias (kind : String) : String :=
  if kind = "child_completed" || kind = "child_result" then "worker_completed"
  else if kind = "complaint_submitted" then "complaint"
  else kind

def event (kind text key : String) (now : ℚ) : Except Error RuleDecision := do
  let r := s.raw
  if r.kind ≠ .event || r.event ≠ eventAlias kind || r.status ≠ .active || r.inFlight || r.epoch ≠
    s.owner.epoch ||
      r.lastEvent = some key || (s.owner.hold false).isSome then
    return .nothing
  else
    let number ← ruleInteger (r.checks + 1)
    s.launch c { r with
      inFlight := true, lastEvent := some key, lastAt := some now, checks := number
      eventText := some (String.ofList (text.toList.take outputCharacters)) } now

/-- The fields that a recovery resets, whether a check is in flight or not. -/
def recovered (r : RuleRecord) (now : ℚ) : RuleRecord :=
  let r := if r.kind.isFile && r.fileActivityAt.isNone then
      { r with
        fileActivityAt := some now, fileGeneration := 0, stallWakeGeneration := -1
        stallTimeoutSeconds := defaultRuleStallSeconds, livenessCommand := "" }
    else r
  if r.kind.isLowWorkers then { r with lowSince := none, nextAt := now } else r

def recover (now : ℚ) : RuleDecision :=
  let r := s.raw
  let next := if r.inFlight then
      { recovered r now with
        restartCheck := if r.status = .active then some ⟨r.epoch, r.checks, (s.check c).monitorId⟩
          else none
        inFlight := false, status := .paused, error := some restarted }
    else recovered r now
  changeIfNew r next

def finishCheck (check : RuleCheck) (result : CheckResult) (now : ℚ) :
    Except Error RuleDecision := do
  let r := s.raw
  if s.owner.epoch ≠ check.epoch || check.ruleId ≠ r.id || check.agentId ≠
    r.agent then return .nothing
  else if r.launchIntent.getD (s.check c) ≠ check then return .nothing
  else if r.inFlight then s.finish c now result
  else if r.status = .paused && result.cancelled then s.finish c now result
  else if r.restartCheck ≠ some ⟨check.epoch, check.checkNumber, check.monitorId⟩ || r.status ≠
    .paused ||
      s.owner.epoch ≠ check.epoch || s.owner.deleted then
    return .nothing
  else
    let s ← s.withRecord { r with restartCheck := none, status := .active, error := none }
    s.finish c now result

end RuleSnapshot

/-! ## Transactions -/

def RuleDecision.stored (d : RuleDecision) : Option RuleRecord :=
  d.record.map fun record => { record with launchIntent := d.check.or record.launchIntent }

variable (c : Crates)

/-- `decide`, for a sample that is still current: the file and the held input count only when they
are asked for. -/
def decideTick (rule : RuleRecord) (owner : Owner) (now : ℚ) (file : Option RuleFileFingerprint)
    (workers : ℕ) (heldInput available : Bool) : Except Error RuleDecision := do
  let s ← RuleSnapshot.fromStored rule owner
  let decision ← s.tick c now
    { fingerprint := some ((s.fingerprintPath now).bind fun _ => file)
      activeWorkers := if rule.kind.isLowWorkers then some workers else none
      heldInput := s.heldInputOwner.isSome && heldInput }
  ensure (decision.check.isNone || available) .monitorUnavailable
  return decision

/-- `event_in_transaction`, for one rule of the agent. -/
def decideEvent (rule : RuleRecord) (owner : Owner) (kind text key : String) (now : ℚ)
    (available : Bool) :
    Except Error RuleDecision := do
  let s ← RuleSnapshot.fromStored rule owner
  let decision ← s.event c kind text key now
  ensure (decision.check.isNone || available) .monitorUnavailable
  return decision

/-- `finish_in_transaction`. A recorded result clears the launch intent. -/
def finishInTransaction (rule : RuleRecord) (owner : Owner) (check : RuleCheck)
    (result : CheckResult) (now : ℚ) :
    Except Error RuleDecision := do
  if check.ruleId ≠ rule.id then return .nothing
  let s ← RuleSnapshot.fromStored rule owner
  let decision ← s.finishCheck c check result now
  return { decision with
    record := decision.record.map fun record => { record with launchIntent := none } }

inductive CheckReconciliation where
  | notSubmitted | submitted | unknown
deriving DecidableEq

/-- `recover_batch`, for one rule: a check that was never submitted is submitted again as it is, and
one that has its monitor stays. -/
def recoverRule (rule : RuleRecord) (owner : Owner) (state : CheckReconciliation) (available : Bool)
    (now : ℚ) :
    Except Error RuleDecision := do
  let s ← RuleSnapshot.fromStored rule owner
  if rule.launchIntent.any (s.launchAllowed c) && available && state ≠ .unknown then return .nothing
  else return s.recover c now

inductive CheckSubmission where
  | accepted
  | notSubmitted (error : String)
  | unknown
  | detached

def settleSubmission (rule : RuleRecord) (owner : Owner) (check : RuleCheck)
    (submission : CheckSubmission) (now : ℚ) :
    Except Error RuleDecision :=
  match submission with
  | .accepted | .detached => return .nothing
  | .notSubmitted error => finishInTransaction c rule owner check ⟨none, some error, false, ""⟩ now
  | .unknown => do
    if check.ruleId ≠ rule.id then return .nothing
    let s ← RuleSnapshot.fromStored rule owner
    if s.launchAllowed c check then
      let decision := s.recover c now
      return { decision with record := decision.record.map fun record =>
        { record with
          error := some "Monitor submission outcome unknown; check was not repeated." } }
    else return .nothing

/-- The monitor that runs a check, as far as its result reads it. -/
structure Monitor where
  id : String
  agent : String
  epoch : ℕ
  command : String
  account : Option String

def RuleCheck.monitor (check : RuleCheck) (account : Option String) : Monitor :=
  ⟨check.monitorId, check.agentId, check.epoch, check.command, account⟩

structure MonitorEnd where
  exitCode : Option ℤ
  cancelled : Bool
  error : Option String
  tail : String

def MonitorEnd.result (after : MonitorEnd) : CheckResult :=
  ⟨after.exitCode, if after.cancelled then some "Monitor cancelled" else after.error,
    after.cancelled, after.tail⟩

/-- `MonitorRuleFinish`, for a monitor of this rule that has not ended. -/
def monitorFinish (rule : RuleRecord) (owner : Owner) (before : Monitor) (after : MonitorEnd)
    (now : ℚ) :
    Except Error RuleDecision := do
  let s ← RuleSnapshot.fromStored rule owner
  let check := rule.launchIntent.getD (s.check c)
  ensure (before.id = check.monitorId && before.agent = check.agentId && before.epoch =
    check.epoch && before.command = check.command &&
      before.account.all (· = check.accountKey.getD "default"))
    (.refused "Monitor rule identity changed")
  let decision ← finishInTransaction c rule owner check after.result now
  ensure decision.record.isSome (.refused "Monitor rule check is stale")
  return decision

/-- The user declines a command that waits for approval (`monitor_runtime.rs`). -/
def declineMonitor (rule : RuleRecord) (owner : Owner) (before : Monitor) (tail : String)
    (now : ℚ) :
    Except Error RuleDecision := do
  ensure (before.epoch = owner.epoch && owner.autoWake && !owner.deleted)
    (.refused "Command watch was stopped")
  let s ← RuleSnapshot.fromStored rule owner
  ensure ((s.check c).monitorId = before.id) (.refused "Monitor rule identity changed")
  finishInTransaction c rule owner (s.check c)
    ⟨none, some "User declined the command", false, tail⟩ now

def desired (resume : Bool) : RuleStatus := if resume then .active else .paused

def resumedGeneration (rule : RuleRecord) (resume : Bool) : Except Error ℕ :=
  if resume && rule.kind.isFile then ruleInteger (rule.fileGeneration + 1)
    else return rule.fileGeneration

/-- The pause and resume of `routes/rules.rs`: the rule with the user's status, in the epoch of its
agent. -/
def setStatus (rule : RuleRecord) (owner : Owner) (resume : Bool)
    (file : Option RuleFileFingerprint) (now : ℚ) :
    Except Error RuleRecord := do
  ensure (rule.agent = owner.id) (.badRequest "This rule belongs to another agent")
  ensure (!(rule.inFlight && resume))
    (.badRequest "Wait for the current rule check before resuming")
  ensure (!resume || owner.autoWake) (.badRequest "Resume the agent before its rules")
  if rule.ownerHold.isSome || !rule.kind.isLowWorkers || rule.status ≠ desired resume ||
    rule.epoch ≠ owner.epoch then
    let epoch ← ruleInteger owner.epoch
    let generation ← resumedGeneration rule resume
    let next := { rule with
      ownerHold := none, restartCheck := none, status := desired resume, epoch
      nextAt := now + rule.intervalSeconds
      error := none, fileGeneration := generation
      lowSince := if rule.kind.isLowWorkers then none else rule.lowSince
      alerted := if rule.kind.isLowWorkers then some false else rule.alerted }
    return if resume && rule.kind.isFile then
        { next with
          fileActivityAt := some now, fingerprint := file, stallWakeGeneration := generation - 1 }
      else next
  else
    -- The store keeps the rule as it is.
    return rule

end Layr.Rules
