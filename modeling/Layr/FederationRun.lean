import Layr.Federation

/-!
# Runs of federated servers

Servers that exchange messages. A delivery pass of `pump_peer_until` claims a batch of the outbox
and sends one message after another: it checks a message, sends its envelope, waits for the receipt
and acknowledges it. A pass ends at its first failure. Each of these steps is an event, so that
other passes, sends and pulls come between them. After its messages a pass pulls from the peer; here
a pull is an event of its own.

The network keeps all that was ever sent. A request or an answer can arrive at any time, more than
once or never.
-/

namespace Layr.Federation

/-- A delivery pass. The request of its first message may be on its way. -/
structure Pass where
  server : String
  peer : String
  now : ℚ
  rest : List Item
  waiting : Bool

inductive Wire where
  | message (sender receiver : String) (envelope : Envelope)
  | receipt (sender receiver : String) (receipt : MessageReceipt)
  | pull (sender receiver : String) (acks : List FederationAck)
  | pulled (sender receiver : String) (result : PullResult)
deriving DecidableEq

structure World where
  server : String → Server
  passes : List Pass
  net : List Wire

inductive Event where
  | send (s : String) (req : SendRequest) (now : ℚ) (nowMs : ℤ)
  /-- A pass claims its batch. -/
  | claim (s t : String) (now : ℚ)
  /-- A pass checks its next message and sends it. -/
  | push (i : ℕ) (nonce : String)
  /-- A pass gets a receipt. -/
  | receipt (i : ℕ) (receipt : MessageReceipt) (nowMs : ℤ)
  | fail (i : ℕ)
  /-- A pass ends: its time is over, a transaction failed, or the server stopped. -/
  | stop (i : ℕ)
  /-- Server `t` gets a message of `s`. -/
  | receive (s t : String) (envelope : Envelope) (now : ℚ) (nowMs : ℤ)
  /-- Server `s` asks `t` for its messages. -/
  | pull (s t : String) (now : ℚ)
  /-- Server `t` answers a pull of `s`. -/
  | answer (s t : String) (acks : List FederationAck) (nonce : String → String) (now : ℚ)
      (nowMs : ℤ)
  /-- Server `s` gets the answer of `t`. -/
  | reconcile (s t : String) (result : PullResult) (now : ℚ) (nowMs : ℤ)
  | gc (s : String) (nowMs : ℤ)

namespace World

variable (w : World)

def put (s : String) (srv : Server) : World := { w with server := Function.update w.server s srv }

def sendOut (wire : Wire) : World := { w with net := wire :: w.net }

def endPass (i : ℕ) : World := { w with passes := w.passes.eraseIdx i }

def push (c : Crates) (w : World) (i : ℕ) (pass : Pass) (item : Item) (nonce : String) : World :=
  match checkQueued c (w.server pass.server) pass.server pass.peer item pass.now with
  | .error _ => w.endPass i
  | .ok srv =>
    let w := (w.put pass.server srv).sendOut
      (.message pass.server pass.peer
        (outbound pass.server item.message (asSeconds pass.now) nonce))
    { w with passes := w.passes.set i { pass with waiting := true } }

def fail (i : ℕ) (pass : Pass) (item : Item) : World :=
  (w.put pass.server (failQueued (w.server pass.server) pass.peer item.message.id pass.now)).endPass
    i

def acknowledge (c : Crates) (w : World) (i : ℕ) (pass : Pass) (item : Item) (rest : List Item)
    (receipt : MessageReceipt) (nowMs : ℤ) : World :=
  if receipt.messageId ≠ item.message.id ∨ receipt.room ≠ item.message.room then w.fail i pass item
  else
    match settleQueued c (w.server pass.server) pass.server pass.peer item receipt pass.now
        nowMs with
    | .error _ => w.endPass i
    | .ok srv =>
      let w := w.put pass.server srv
      { w with passes := w.passes.set i { pass with rest := rest, waiting := false } }

/-- The pass, and the messages that it has not finished. -/
def atPass (i : ℕ) (waiting : Bool) : Option (Pass × Item × List Item) :=
  match w.passes[i]? with
  | none => none
  | some pass =>
    match pass.rest with
    | [] => none
    | item :: rest => if pass.waiting = waiting then some (pass, item, rest) else none

/-- A server after a transaction, or the same world after a failed one. -/
def commit {α : Type} (w : World) (s : String) (result : Except Error (Server × α))
    (reply : α → Option Wire) : World :=
  match result with
  | .error _ => w
  | .ok (srv, a) =>
    match reply a with
    | none => w.put s srv
    | some wire => (w.put s srv).sendOut wire

def step (c : Crates) (w : World) : Event → World
  | .send s req now nowMs => w.commit s (sendMessage c (w.server s) s req now nowMs) fun _ => none
  | .claim s t now =>
    match claimBatch (w.server s) t now with
    | .error _ => w
    | .ok items => { w with passes := w.passes ++ [⟨s, t, now, items, false⟩] }
  | .push i nonce =>
    match w.atPass i false with
    | none => w
    | some (pass, item, _) => w.push c i pass item nonce
  | .receipt i receipt nowMs =>
    match w.atPass i true with
    | none => w
    | some (pass, item, rest) =>
      if .receipt pass.peer pass.server receipt ∈ w.net then w.acknowledge c i pass item rest
        receipt nowMs else w
  | .fail i =>
    match w.atPass i true with
    | none => w
    | some (pass, item, _) => w.fail i pass item
  | .stop i => w.endPass i
  | .receive s t envelope now nowMs =>
    if .message s t envelope ∈ w.net then
      w.commit t (receiveLocked c (w.server t) s envelope now nowMs) fun receipt =>
        some (.receipt t s receipt)
    else w
  | .pull s t now =>
    match (do (← snapshot (w.server s) t "" now).authorize : Except Error Unit) with
    | .error _ => w
    | .ok () => w.sendOut (.pull s t (inboxAcks (w.server s) t))
  | .answer s t acks nonce now nowMs =>
    if .pull s t acks ∈ w.net then
      w.commit t (pullLocked c (w.server t) t s acks nonce now nowMs) fun result =>
        some (.pulled t s result)
    else w
  | .reconcile s t result now nowMs =>
    if .pulled t s result ∈ w.net then
      w.commit s ((·, ()) <$> reconcile c (w.server s) t result now nowMs) fun _ => none
    else w
  | .gc s nowMs => w.put s { w.server s with results := (w.server s).results.gc nowMs }

def run (c : Crates) (w : World) (events : List Event) : World := events.foldl (step c) w

end World

end Layr.Federation
