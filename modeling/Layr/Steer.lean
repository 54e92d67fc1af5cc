import Layr.Json
import Layr.Lib.Fallible
import Layr.Lib.Tables

/-!
# Input for a running turn

`scheduler/steer.rs` for one agent. A steer claims pending events of the agent's queue, sends them
to the turn that runs and waits for the provider's acknowledgement. Each steer owns a receipt with
its own stage, and the rows of its events move with it:

* a `reserved` receipt has `reserved` events;
* a `submitted` one has `dispatching` events;
* an `unconfirmed` one has `failed` events, until a late acknowledgement or a proof that the input
  was not applied;
* a restart makes a `reserved` receipt `held` and its events `uncertain`.

Every operation is one transaction: it gives the store after it, or fails and changes nothing. The
contents of an event (kind, text and metadata) are a type of their own; which contents may join a
turn, and what preparation retires or cancels, are arguments of the operations.
-/

namespace Layr.Steer

open Tables

/-! ## Rows and receipts -/

inductive EventStatus where
  | storedOnly | pending | reserved | dispatching | delivered | uncertain | cancelled | failed
deriving DecidableEq, Repr

namespace EventStatus

def isOpen : EventStatus → Bool
  | reserved | dispatching | uncertain => true
  | _ => false

end EventStatus

structure Row (E : Type) where
  status : EventStatus
  epoch : ℤ
  turnId : Option String
  error : Option String
  created : ℚ
  rowid : ℕ
  content : E
  /-- A steer put the row into its status. The store has no such column; it is here to speak of the
  past. -/
  steered : Bool

/-- `STEER_UNCONFIRMED_ERROR`. -/
def steerUnconfirmedError : String :=
  "The agent did not confirm this message before its turn ended. It may have been read; " ++
    "Studio did not send it again."

def stopCancelledError : String := "Cancelled by Stop before Claude read this input"

def stopQueuedError : String := "Claude still holds this input after Stop. Delivery is unknown."

def steerAfterTurnEndSeconds : ℚ := 5

def Row.unconfirmed {E : Type} (row : Row E) : Bool :=
  row.status == .failed && row.error == some steerUnconfirmedError

structure SubmittedSteer where
  requestTicket : String
  generation : ℕ
  submittedAt : ℚ
  preparedSubmission : Option String
  response : Option String
  interruptStillQueued : Bool
deriving DecidableEq

inductive SteerState where
  | reserved
  | submitted (sent : SubmittedSteer)
  | unconfirmed (sent : SubmittedSteer)
  | held
deriving DecidableEq

def SteerState.sent : SteerState → Option SubmittedSteer
  | submitted sent | unconfirmed sent => some sent
  | reserved | held => none

/-- `SteerPayload`: the receipt of one steer. -/
structure Receipt where
  epoch : ℤ
  accountKey : String
  threadId : String
  turnId : String
  events : List String
  stage : SteerState
  created : ℚ
  events_ne_nil : events ≠ []

def Receipt.first (receipt : Receipt) : String := receipt.events.head receipt.events_ne_nil

def Receipt.owns {E : Type} (receipt : Receipt) (e : String) (row : Row E) : Bool :=
  row.epoch == receipt.epoch && receipt.events.contains e

/-! ## The agent -/

inductive AgentStatus where
  | unknown | idle | queued | starting | running | waiting | waitingOnMonitor | approval | completed
  | interrupted
  | failed | blocked | paused | parked | abandoned | capacityRetry
  | other (text : String)
deriving DecidableEq

/-- The fields of `startAttempt` that steers read. -/
structure StartAttempt where
  turnId : Option String
  threadId : Option String
  epoch : Option ℤ
  submitted : Option Bool
  /-- `action` is set. -/
  hasAction : Bool
  accountKey : Option String
  connectionGeneration : Option ℕ
  events : Option (List String)

/-- The fields of an agent record that steers read. -/
structure Agent where
  status : AgentStatus
  epoch : ℤ
  deleted : Bool
  autoWake : Option Bool
  inFlight : Option Bool
  accountKey : String
  turnId : Option String
  threadId : Option String
  startAttempt : Option StartAttempt
  remoteWorker : Bool
  remoteAnchor : Bool
  /-- The execution mode is `vm`. -/
  vm : Bool
  /-- A failure hold, transfer, workspace operation, context repair or thread block stands against
  the next turn. -/
  held : Bool
  steerRejectedTurnId : Option String

def continuationAllowed (agent : Agent) : Bool := !agent.deleted && !agent.held

def steerTurn (agent : Agent) : Option (String × String) := do
  let turn ← agent.turnId.filter (· ≠ "")
  let thread ← agent.threadId.filter (· ≠ "")
  let attempt ← agent.startAttempt
  if agent.status == .running && agent.autoWake == some true && agent.inFlight == some true &&
    !agent.remoteWorker
      && !agent.remoteAnchor && !agent.vm && continuationAllowed agent &&
        agent.steerRejectedTurnId != some turn
      && attempt.turnId == some turn && attempt.threadId == some thread && attempt.epoch ==
        some agent.epoch
      && attempt.submitted == some true && !attempt.hasAction then
    some (turn, thread)
  else none

/-! ## The store -/

/-- The agent, the rows of its events, and its receipts by the identity of the steer. -/
structure Store (E : Type) where
  agent : Option Agent
  rows : BTreeMap (Row E)
  receipts : BTreeMap Receipt

/-- What is known of the contents of events when an operation runs. -/
structure Policy (E : Type) where
  /-- `steerable`: the content may join the running turn. -/
  steerable : E → Except String Bool
  /-- `prepare_pending_batch`: the events that it retires and those that it cancels, each with its
  reason, and the contents that it rewrites. -/
  prepare : Agent → List (String × E) →
    Except String (BTreeMap String × BTreeMap String × BTreeMap E)
  /-- `obsolete_events`, with the reasons. -/
  obsolete : Agent → List (String × E) → BTreeMap String

variable {E : Type} (s : Store E)

namespace Store

/-- `UPDATE runtime_events … WHERE …`. -/
def update (hits : String → Row E → Bool) (put : Row E → Row E) : Store E :=
  { s with rows := s.rows.map fun e row => if hits e row then put row else row }

def eraseReceipt (id : String) : Store E := { s with receipts := s.receipts.erase id }

def putReceipt (id : String) (receipt : Receipt) : Store E :=
  { s with receipts := s.receipts.insert id receipt }

def currentAgent (epoch : ℤ) : Option Agent :=
  s.agent.filter fun agent => agent.epoch == epoch && !agent.deleted

/-- The agent can start a turn for input that comes back. -/
def idle (agent : Agent) : Bool :=
  agent.autoWake == some true && agent.inFlight != some true
    && !(agent.status ∈ [.running, .starting, .queued, .approval]) && continuationAllowed agent

def returns (receipt : Receipt) (e : String) (row : Row E) : Bool :=
  receipt.owns e row && (row.status == .reserved || row.status == .dispatching || row.unconfirmed)

/-- Return unresolved input to the queue in its own epoch; stopped input is cancelled. -/
def release (id : String) (receipt : Receipt) : Store E :=
  let agent := s.currentAgent receipt.epoch
  let returned := countRows (returns receipt) s.rows
  let status := if agent.isSome then .pending else .cancelled
  let s := s.update (returns receipt) fun row =>
    { row with status := status, turnId := none, error := none, steered := true }
  let s := match agent with
    | some agent =>
      if 0 < returned ∧ idle agent then { s with agent := some { agent with status := .queued } }
        else s
    | none => s
  s.eraseReceipt id

/-- The turn ended or its transport closed without an acknowledgement. -/
def unconfirm (id : String) (receipt : Receipt) : Store E :=
  let s := s.update (fun e row => receipt.owns e row && row.status == .dispatching) fun row =>
    { row with status := .failed, error := some steerUnconfirmedError, steered := true }
  s.putReceipt id
    { receipt with stage := match receipt.stage with
        | .submitted sent => .unconfirmed sent
        | stage => stage }

/-! ## Claim and submission -/

/-- The running turn that may receive pending input of `epoch` now. -/
def steerTarget (agent : Agent) (epoch : ℤ) : Option (String × String) :=
  if agent.epoch ≠ epoch then none
  else
    match steerTurn agent with
    | none => none
    | some target =>
      if !s.rows.any (fun _ row => row.status.isOpen)
          && s.rows.any (fun _ row => row.epoch == epoch && row.status == .pending) then some target
      else none

def inOrder (rows : List (String × Row E)) : List (String × Row E) :=
  rows.mergeSort fun a b => a.2.created < b.2.created ||
    (a.2.created == b.2.created && a.2.rowid ≤ b.2.rowid)

/-- The pending input of an epoch that may join the running turn. -/
def pendingSteerEvents (policy : Policy E) (s : Store E) (epoch : ℤ) :
    Except String (List (String × E)) := do
  let rows := inOrder (s.rows.toList.filter fun e => e.2.epoch == epoch && e.2.status == .pending)
  let rows ← rows.mapM fun e => do return (e.1, e.2.content, ← policy.steerable e.2.content)
  return (rows.filter (·.2.2)).map fun e => (e.1, e.2.1)

def isPending (e : String) : Bool := s.rows[e]?.any (·.status == .pending)

/-- Retire and cancel what preparation takes out of a batch, and rewrite the contents that it
changes. -/
def applyPreparation (retired cancelled : BTreeMap String) (contents : BTreeMap E) :
    Except String (Store E) := do
  ensure ((retired.keys ++ cancelled.keys).all s.isPending)
    "scheduler event changed during pending preparation"
  let s :=
      s.update (fun e row => retired.contains e && !cancelled.contains e && row.status == .pending)
      fun row =>
    { row with status := .storedOnly, steered := true }
  let s := s.update (fun e row => cancelled.contains e && row.status == .pending) fun row =>
    { row with status := .cancelled, steered := true }
  let error := fun (e : String) (row : Row E) => (cancelled[e]?.or retired[e]?).or row.error
  return { s with rows := s.rows.map fun e row =>
    { row with error := error e row, content := contents[e]?.getD row.content } }

/-- Reserve eligible current-turn input in durable queue order. -/
def claimSteer (policy : Policy E) (s : Store E) (epoch : ℤ) (steer : String) (created : ℚ) :
    Except String (Store E) :=
  match s.agent with
  | none => .ok s
  | some agent =>
    match s.steerTarget agent epoch with
    | none => .ok s
    | some (turn, thread) => do
      let events ← pendingSteerEvents policy s epoch
      let (retired, cancelled, contents) ← policy.prepare agent events
      let s ← s.applyPreparation retired cancelled contents
      let ids := (events.filter fun e => !(retired.contains e.1 || cancelled.contains e.1)).map
        (·.1)
      if hids : ids = [] then return s
      else
        let claims := fun (e : String) (row : Row E) => ids.contains e && row.epoch == epoch &&
          row.status == .pending
        ensure (ids.all fun e => s.rows[e]?.any (claims e))
          "steer claim changed during its write transaction"
        -- The admission of the steer is fresh, so a stored receipt of the same steer is another
        -- request's.
        ensure (!s.receipts.contains steer) "conflict"
        return (s.update claims fun row =>
          { row with status := .reserved, steered := true }).putReceipt steer
          { epoch := epoch, accountKey := agent.accountKey, threadId := thread, turnId := turn,
            events := ids,
            stage := .reserved, created := created, events_ne_nil := hids }

/-- Retire resolved business notifications before a reserved steer is submitted. -/
def reconcileObsoleteSteer (policy : Policy E) (s : Store E) (steer : String) : Store E :=
  match s.receipts[steer]?, s.agent with
  | some receipt, some agent =>
    match receipt.stage with
    | .reserved =>
      let rows := inOrder (s.rows.toList.filter fun e => receipt.events.contains e.1)
      let obsolete := policy.obsolete agent (rows.map fun e => (e.1, e.2.content))
      if obsolete.isEmpty then s
      else
        let s := s.release steer receipt
        { s with rows := s.rows.map fun e row =>
            match obsolete[e]? with
            | some reason =>
              if row.epoch == agent.epoch && row.status == .pending then
                { row with status := .storedOnly, error := some reason, steered := true }
              else row
            | none => row }
    | _ => s
  | _, _ => s

def isCurrent (receipt : Receipt) : Bool :=
  s.agent.any fun agent => agent.epoch == receipt.epoch && agent.accountKey == receipt.accountKey
    && steerTurn agent == some (receipt.turnId, receipt.threadId)

/-- Persist the uncertainty boundary before the steer request is written. -/
def steerSubmitted (steer ticket : String) (generation : ℕ) (submittedAt : ℚ) :
    Except String (Store E) :=
  match s.receipts[steer]? with
  | none => .ok s
  | some receipt =>
    match receipt.stage with
    | .reserved =>
      if !s.isCurrent receipt then .ok (s.release steer receipt)
      else do
        let sends := fun (e : String) (row : Row E) => receipt.owns e row && row.status == .reserved
        ensure (countRows sends s.rows == receipt.events.length) "invalid agent"
        ensure (ticket ≠ "") "invalid receipt"
        return (s.update sends fun row =>
          { row with status := .dispatching, steered := true }).putReceipt steer
          { receipt with stage := .submitted ⟨ticket, generation, submittedAt, none, none, false⟩ }
    | _ => .ok s

def recordSent (steer : String) (receipt : Receipt) (sent : SubmittedSteer) : Store E :=
  s.putReceipt steer { receipt with stage := .submitted sent }

/-- Freeze the compiler-owned projection with the receipt. -/
def freezeSteerSubmission (steer submission : String) : Except String (Store E) := do
  let receipt ← context s.receipts[steer]? "invalid receipt"
  match receipt.stage with
  | .submitted sent =>
    ensure ((submission.toList.dropWhile Char.isWhitespace).head? == some '\x7b') "invalid receipt"
    if sent.preparedSubmission.isSome then return s
    else return s.recordSent steer receipt { sent with preparedSubmission := some submission }
  | _ => .error "invalid receipt"

/-! ## Replies -/

/-- The transport proves it never wrote the request. -/
def steerNotSent (steer : String) : Store E :=
  match s.receipts[steer]? with
  | some receipt => s.release steer receipt
  | none => s

/-- The provider definitively refused the input. -/
def steerRejected (steer : String) : Store E :=
  match s.receipts[steer]? with
  | none => s
  | some receipt =>
    let s := s.release steer receipt
    match s.agent with
    | some agent =>
      if agent.epoch == receipt.epoch && agent.turnId == some receipt.turnId then
        { s with agent := some { agent with steerRejectedTurnId := some receipt.turnId } }
      else s
    | none => s

def steerResponse (steer response : String) : Store E :=
  match s.receipts[steer]? with
  | some receipt =>
    match receipt.stage with
    | .submitted sent => s.recordSent steer receipt { sent with response := some response }
    | _ => s
  | none => s

/-- The rows that the provider may still hold. -/
def sentRow (receipt : Receipt) (e : String) (row : Row E) : Bool :=
  receipt.owns e row && (row.status == .dispatching || row.status == .uncertain || row.unconfirmed)

def acknowledgeSteer (first thread turn : String) : Store E :=
  match s.receipts.toList.find? fun e => e.2.first == first && e.2.threadId == thread &&
    e.2.turnId == turn
      && e.2.stage.sent.isSome with
  | none => s
  | some (id, receipt) =>
    (s.update (sentRow receipt) fun row =>
      { row with
        status := .delivered, turnId := some turn, error := none, steered := true }).eraseReceipt id

/-! ## Interrupts -/

def stopLists (response : Json) : Option (List String × List String) := do
  let cancelled ← (response.get "cancelled").bind Json.asArray
  let stillQueued ← (response.get "still_queued").bind Json.asArray
  return (← cancelled.mapM Json.asStr, ← stillQueued.mapM Json.asStr)

/-- What a Stop says of the input that starts with an event. -/
def stopStatus (cancelled stillQueued : List String) (first : String) : Option EventStatus :=
  if stillQueued.contains first then some .uncertain
  else if cancelled.contains first then some .cancelled
  else none

def stopError (status : EventStatus) : String :=
  if status == .cancelled then stopCancelledError else stopQueuedError

def settleAttempt (account : String) (generation : ℕ) (thread : String)
    (cancelled stillQueued : List String) : Except String (Store E) :=
  match s.agent.bind (·.startAttempt) with
  | none => .ok s
  | some attempt =>
    if attempt.accountKey == some account && attempt.connectionGeneration == some generation
        && attempt.threadId == some thread then
      match attempt.events with
      | some (first :: rest) =>
        match stopStatus cancelled stillQueued first with
        | none => .ok s
        | some status => do
          let epoch ← context attempt.epoch "invalid agent"
          let turn := attempt.turnId.getD ""
          return s.update (fun e row => row.epoch == epoch && (first :: rest).contains e
              && (row.status.isOpen || (row.status == .delivered && row.turnId == some turn)))
            fun row =>
              { row with status := status, error := some (stopError status), steered := false }
      | _ => .ok s
    else .ok s

def settleStopped (account : String) (generation : ℕ) (thread : String)
    (cancelled stillQueued : List String) (s : Store E) (entry : String × Receipt) : Store E :=
  let (id, receipt) := entry
  match receipt.stage.sent with
  | none => s
  | some sent =>
    if receipt.accountKey == account && receipt.threadId == thread && sent.generation ==
      generation then
      match stopStatus cancelled stillQueued receipt.first with
      | none => s
      | some status =>
        let s := s.update (sentRow receipt) fun row =>
          { row with status := status, error := some (stopError status), steered := true }
        if status == .cancelled then s.eraseReceipt id
        else
          let sent := { sent with interruptStillQueued := true }
          s.putReceipt id
            { receipt with stage := match receipt.stage with
                | .unconfirmed _ => .unconfirmed sent
                | _ => .submitted sent }
    else s

def settleInterruptInputs (account : String) (generation : ℕ) (thread : String) (response : Json) :
    Except String (Store E) :=
  match stopLists response with
  | none => .ok s
  | some (cancelled, stillQueued) => do
    let s ← s.settleAttempt account generation thread cancelled stillQueued
    return s.receipts.toList.foldl (settleStopped account generation thread cancelled stillQueued) s

/-! ## The end of a turn, a transport or a process -/

/-- Return a steer that was written after the turn stopped taking input. -/
def releaseWritten (turn : String) (endedAt : ℚ) (s : Store E) (entry : String × Receipt) :
    Store E :=
  let (id, receipt) := entry
  if receipt.turnId == turn && receipt.stage.sent.any (fun sent =>
      !sent.interruptStillQueued && decide
        (endedAt + steerAfterTurnEndSeconds ≤ sent.submittedAt)) then
    s.release id receipt
  else s

/-- Return the input of every steer that was written after the provider stopped taking input into
the turn. A time that is not finite is `none`. -/
def releaseSteersWrittenAfterTurnEnd (turn : String) (endedAt : Option ℚ) : Store E :=
  match endedAt with
  | none => s
  | some endedAt => s.receipts.toList.foldl (releaseWritten turn endedAt) s

def resolveSteer (turn : String) (unapplied : List String) (s : Store E)
    (entry : String × Receipt) : Store E :=
  let (id, receipt) := entry
  if receipt.turnId ≠ turn then
    match receipt.stage with
    | .unconfirmed sent => if sent.interruptStillQueued then s else s.eraseReceipt id
    | _ => s
  else
    match receipt.stage with
    | .reserved => s.release id receipt
    | .submitted sent =>
      if unapplied.contains receipt.first then s.release id receipt
      else if sent.interruptStillQueued then s
      else s.unconfirm id receipt
    | .unconfirmed _ | .held => s

/-- Resolve every steer still open for a finished turn. -/
def resolveSteersAtTerminal (turn : String) (unapplied : List String) : Store E :=
  s.receipts.toList.foldl (resolveSteer turn unapplied) s

/-- A transport generation before `current` can no longer acknowledge the input of a receipt. -/
def abandonSteer (current : ℕ) (s : Store E) (entry : String × Receipt) : Store E :=
  let (id, receipt) := entry
  match receipt.stage with
  | .reserved => s.release id receipt
  | .submitted sent => if sent.generation < current then s.unconfirm id receipt else s
  | .unconfirmed _ | .held => s

inductive OutboxStatus where
  | pending | submitted | unknown
deriving DecidableEq

def outboxStatus : SteerState → OutboxStatus
  | .reserved => .pending
  | .submitted _ => .submitted
  | .unconfirmed _ | .held => .unknown

/-- Abandon the steers of an account whose transport generation ended. -/
def abandonSteers (account : String) (current : ℕ) : Store E :=
  let rows := [OutboxStatus.pending, .submitted, .unknown].flatMap fun status =>
    s.receipts.toList.filter fun e => e.2.accountKey == account && outboxStatus e.2.stage == status
  rows.foldl (abandonSteer current) s

def holdSteer (entry : String × Receipt) : Store E :=
  let (id, receipt) := entry
  match receipt.stage with
  | .reserved =>
    (s.update (fun e row => receipt.owns e row && row.status == .reserved) fun row =>
      { row with
        status := .uncertain, error := some steerUnconfirmedError, steered := true }).putReceipt id
        { receipt with stage := .held }
  | _ => s

/-- A restart cannot tell whether a reserved steer was written. -/
def holdUncleanSteers : Store E := s.receipts.toList.foldl holdSteer s

/-! ## Runs -/

end Store

inductive Op (E : Type) where
  | claim (policy : Policy E) (epoch : ℤ) (steer : String) (created : ℚ)
  | reconcileObsolete (policy : Policy E) (steer : String)
  | submit (steer ticket : String) (generation : ℕ) (submittedAt : ℚ)
  | freeze (steer submission : String)
  | notSent (steer : String)
  | rejected (steer : String)
  | response (steer response : String)
  | acknowledge (first thread turn : String)
  | interrupt (account : String) (generation : ℕ) (thread : String) (response : Json)
  | releaseAfterEnd (turn : String) (endedAt : Option ℚ)
  | terminal (turn : String) (unapplied : List String)
  | abandon (account : String) (current : ℕ)
  | hold
  /-- Other code writes the agent record. -/
  | agent (agent : Option Agent)
  /-- Other code writes the row of an event, or deletes it. -/
  | row (e : String) (row : Option (Row E))

namespace Store

/-- Other code may write the row of an event: it is missing, pending or failed. -/
def free (e : String) : Bool := s.rows[e]?.all fun row => row.status == .pending ||
    row.status == .failed

def writeRow (e : String) : Option (Row E) → Store E
  | some row => { s with rows := s.rows.insert e { row with steered := false } }
  | none => { s with rows := s.rows.erase e }

/-- The store after a transaction. One that fails changes nothing. -/
def commit : Except String (Store E) → Store E
  | .ok s' => s'
  | .error _ => s

def step : Op E → Store E
  | .claim policy epoch steer created => s.commit (s.claimSteer policy epoch steer created)
  | .reconcileObsolete policy steer => s.reconcileObsoleteSteer policy steer
  | .submit steer ticket generation submittedAt =>
    s.commit (s.steerSubmitted steer ticket generation submittedAt)
  | .freeze steer submission => s.commit (s.freezeSteerSubmission steer submission)
  | .notSent steer => s.steerNotSent steer
  | .rejected steer => s.steerRejected steer
  | .response steer response => s.steerResponse steer response
  | .acknowledge first thread turn => s.acknowledgeSteer first thread turn
  | .interrupt account generation thread response =>
    s.commit (s.settleInterruptInputs account generation thread response)
  | .releaseAfterEnd turn endedAt => s.releaseSteersWrittenAfterTurnEnd turn endedAt
  | .terminal turn unapplied => s.resolveSteersAtTerminal turn unapplied
  | .abandon account current => s.abandonSteers account current
  | .hold => s.holdUncleanSteers
  | .agent agent => { s with agent := agent }
  | .row e row => if s.free e then s.writeRow e row else s

def run (ops : List (Op E)) : Store E := ops.foldl step s

end Store

end Layr.Steer
