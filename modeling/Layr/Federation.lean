import Layr.RequestReplies
import Layr.Validation

/-!
# Federation messages

Model of the messages between federated servers: `federation_messaging.rs` (decisions),
`federation_effects.rs` (receive, pull, acknowledge, reconcile), the store part of
`federation_delivery.rs` (send, and the transactions of a delivery pass) and
`repositories/federation_messaging.rs` (batches of the outbox and the inbox).

Each function below is one transaction of one server, or a part of one. Seconds are rationals, for
`f64`. Keys and signatures of the servers are left out: an envelope is given to `receiveLocked` only
if its sender made it. The `uuid` crate, the hash of an envelope and the lengths of JSON texts are
parameters (`Crates`).
-/

namespace Layr.Federation

open Requests Tables

/-! ## Records -/

inductive PeerStatus where
  | approved
  | pending
  | revoked
deriving DecidableEq, Repr

structure Peer where
  stateId : String
  label : String
  status : PeerStatus
  localApproved : Bool
  remoteApproved : Bool
deriving DecidableEq, Repr

def Peer.allowed (p : Peer) : Bool := p.status = .approved && p.localApproved && p.remoteApproved

structure Participant where
  id : String
  role : String
  name : Option String
  status : Option String
deriving DecidableEq, Repr

structure Room where
  peerId : String
  peerLabel : String
  name : String
  status : PeerStatus
  localMembers : List String
  localParticipants : List Participant
  remoteMembers : List Participant
  localApproved : Bool
  remoteApproved : Bool
  shareNames : Bool
  shareStatus : Bool
  created : ℚ
  updated : ℚ
  /-- The number of the last message that this server sent. -/
  sequence : ℕ
  /-- The number of the last message that this server accepted. -/
  remoteSequence : ℕ
deriving DecidableEq, Repr

inductive DeliveryMoment where
  | currentTurn
  | nextTurn
deriving DecidableEq, Repr

structure ChatPayload where
  sender : String
  senderName : Option String
  text : String
  created : ℚ
  sequence : ℕ
  delivery : DeliveryMoment
deriving DecidableEq, Repr

structure RoomPayload where
  room : String
  participants : List Participant
  shareNames : Bool
  shareStatus : Bool
deriving DecidableEq, Repr

inductive Payload where
  | chatMessage (p : ChatPayload)
  | roomInvite (p : RoomPayload)
  | roomAccept (p : RoomPayload)
deriving DecidableEq, Repr

/-- The part of a message that no delivery changes. -/
structure Message where
  id : String
  requestId : String
  room : String
  payload : Payload
  created : ℚ
deriving DecidableEq, Repr

structure Envelope where
  senderServer : String
  message : Message
  timestamp : ℤ
  nonce : String
deriving DecidableEq, Repr

structure MessageReceipt where
  messageId : String
  accepted : Bool
  room : String
  sequence : Option ℕ
deriving DecidableEq, Repr

structure FederationAck where
  id : String
  hash : String
  requestId : String
deriving DecidableEq, Repr

inductive DeliveryStatus where
  | queued
  | delivered
deriving DecidableEq, Repr

structure MessageSendReply where
  id : String
  room : String
  deliveries : BTreeMap DeliveryStatus
  status : DeliveryStatus

/-- The replies that federation keeps in `request_results`. -/
inductive Reply where
  | receipt (r : MessageReceipt)
  | send (r : MessageSendReply)
  | delivery (ack : FederationAck) (receipt : Option MessageReceipt)

structure Item where
  message : Message
  status : DeliveryStatus
  attempts : ℕ
  nextAt : ℚ
  error : Option String
  hash : Option String
  admission : AdmittedRequest
deriving DecidableEq, Repr

inductive AckState where
  | pending
  | sent
  | confirmed
deriving DecidableEq, Repr

/-- A record of the inbox. Only a chat message has its room here. -/
structure InboxRow where
  hash : String
  requestId : String
  ack : AckState
  created : ℚ
  chatRoom : Option String
deriving DecidableEq, Repr

/-- A row of `runtime_chat_messages` without its id. -/
structure ChatRow where
  rowid : ℕ
  room : String
  sender : String
  text : String
  created : ℚ
  deliveries : BTreeMap DeliveryStatus

structure Agent where
  isLead : Bool
  name : Option String
  deleted : Bool
deriving DecidableEq, Repr

abbrev PairMap (V : Type) := Std.ExtTreeMap (String × String) V

/-- The tables of a server. The outbox and the inbox have the peer and the message as key. -/
structure Server where
  enabled : Bool
  peers : BTreeMap Peer
  rooms : BTreeMap Room
  outbox : PairMap Item
  inbox : PairMap InboxRow
  chats : BTreeMap ChatRow
  agents : BTreeMap Agent
  results : Replies Reply
  nonces : PairMap ℤ
  /-- A history that no function reads: the accepted chat messages with their peer, the last one at
  the end. -/
  accepted : List (String × Message × ChatPayload)

inductive Error where
  | invalid (location : String)
  | forbidden (text : String)
  | conflict (text : String)
  | unavailable (text : String)
  | requestResult (e : ReplyError)
  | event (text : String)
  | transport
  | store
deriving DecidableEq, Repr

/-- What code outside of the repository does, and the texts of JSON values. -/
structure Crates where
  uuid : UuidCrate
  /-- `Uuid::parse_str` and `Uuid::new_v5` with the key, as text. -/
  newV5 : String → String → Option String
  sha256Hex : String → String
  /-- `federation_envelope_signature`, of the parts that it keeps. -/
  envelopeHash : (senderServer id room : String) → Payload → (created : ℚ) → String
  /-- `request_signature` of a send. -/
  sendSignature : (sender room text : String) → DeliveryMoment → String
  encodedLen : Envelope → ℕ
  recordLen : Item → ℕ

/-! ## Limits -/

def maxBatch : ℕ := 50
def maxBatchBytes : ℕ := 204800
def maxMessage : ℕ := 12000
def maxRoomMembers : ℕ := 50
def maxRoomRate : ℕ := 30
def maxQueueRows : ℕ := 10000
def maxQueueBytes : ℕ := 33554432
def clockSkewSeconds : ℕ := 300
def nonceRetentionSeconds : ℤ := 600
def federationRateLimit : ℕ := 240
def federationRateWindowSeconds : ℤ := 60

/-- A cast of seconds to `i64`. -/
def asSeconds (q : ℚ) : ℤ := if 0 ≤ q then ⌊q⌋ else ⌈q⌉

def fromResult {α : Type} : Except ReplyError α → Except Error α
  | .ok a => .ok a
  | .error e => .error (.requestResult e)

@[simp] theorem fromResult_eq_ok {α : Type} {x : Except ReplyError α} {a : α} :
    fromResult x = .ok a ↔ x = .ok a := by
  cases x <;> simp [fromResult]

/-! ## The store -/

/-- The order of a batch: by creation, then by id. -/
def batchLe (a b : ℚ × String) : Prop := a.1 < b.1 ∨ a.1 = b.1 ∧ a.2 ≤ b.2

instance (a b : ℚ × String) : Decidable (batchLe a b) := inferInstanceAs (Decidable (_ ∨ _))

def checkedItem (row : String × Item) : Except Error Item :=
  if row.2.message.id = row.1 then .ok row.2 else .error .store

variable (s : Server) (peer : String)

def dueRows (now : Option ℚ) : List (String × Item) :=
  select (fun k (item : Item) =>
    if k.1 = peer ∧ item.status = .queued ∧
      now.all (item.nextAt ≤ ·) then some (k.2, item) else none) s.outbox

def outboxBatch (now : Option ℚ) : Except Error (List Item) :=
  (((dueRows s peer now).insertionSort fun a b =>
    batchLe (a.2.message.created, a.1) (b.2.message.created, b.1)).take maxBatch).mapM checkedItem

/-- `batch` of the inbox: the messages that the peer does not know to be accepted. -/
def inboxBatch : List (String × InboxRow) :=
  let rows := select (fun k (row : InboxRow) =>
    if k.1 = peer ∧ row.ack ≠ .confirmed then some (k.2, row) else none) s.inbox
  (rows.insertionSort fun a b => batchLe (a.2.created, a.1) (b.2.created, b.1)).take maxBatch

/-- `room_rate`: the chat messages of the room in the last minute. -/
def roomRate (peer room : String) (now : ℚ) : ℕ :=
  countRows (fun k (row : InboxRow) => k.1 = peer && row.chatRoom = some room && now - 60 ≤
    row.created) s.inbox

/-- `queue_size`: the number and the bytes of the queued messages of a peer. -/
def queueSize (c : Crates) (s : Server) (peer : String) : ℕ × ℕ :=
  let queued := select (fun k (item : Item) =>
    if k.1 = peer ∧ item.status = .queued then some (c.recordLen item) else none) s.outbox
  (queued.length, queued.sum)

def putOutbox (peer id : String) (item : Item) : Server :=
  { s with outbox := s.outbox.insert (peer, id) item }

def putInbox (peer id : String) (row : InboxRow) : Server :=
  { s with inbox := s.inbox.insert (peer, id) row }

def saveRoom (id : String) (room : Room) : Server := { s with rooms := s.rooms.insert id room }

def nextRowid : ℕ := highest (s.chats.toList.map (·.2.rowid)) + 1

/-! ## Decisions -/

structure Snapshot where
  enabled : Bool
  peer : Peer
  room : Option Room
  rate : ℕ

def snapshot (peer room : String) (now : ℚ) : Except Error Snapshot := do
  let p ← context s.peers[peer]? (.forbidden "unknown peer")
  ensure (p.stateId = peer) .store
  return ⟨s.enabled, p, s.rooms[room]?, roomRate s peer room now⟩

def Snapshot.authorize (snap : Snapshot) : Except Error Unit :=
  ensure (snap.enabled && snap.peer.allowed) (.forbidden "disabled or unapproved peer")

/-- `participants`: what a payload may say about the members of a room. -/
def participants (p : RoomPayload) : Except Error (List Participant) := do
  ensure (!p.participants.isEmpty && p.participants.length ≤ maxRoomMembers)
    (.invalid "payload.participants")
  ensure ((p.participants.map (·.id)).Nodup &&
      p.participants.all fun person =>
        (person.name.isNone || person.role = "lead" || p.shareNames) &&
          (person.status.isNone || p.shareStatus))
    (.invalid "payload.participants.disclosure")
  return p.participants

structure ChatEffect where
  id : String
  room : String
  sender : String
  text : String
  created : ℚ
  recipients : List String

structure ReceiveDecision where
  receipt : MessageReceipt
  room : Room
  chat : Option ChatEffect
  inbox : InboxRow

def decideRoom (snap : Snapshot) (message : Message) (p : RoomPayload) (accept : Bool) (now : ℚ) :
    Except Error Room := do
  ensure (p.room = message.room) (.invalid "payload.room")
  let people ← participants p
  ensure (snap.room.all (·.peerId = snap.peer.stateId)) (.forbidden "room belongs to another peer")
  ensure (!accept || snap.room.any (·.localApproved)) (.forbidden "room is not awaiting approval")
  let room := snap.room.getD
    { peerId := snap.peer.stateId, peerLabel := snap.peer.label
      name := snap.peer.label ++ " · Shared room"
      status := .pending, localMembers := [], localParticipants := [], remoteMembers := []
      localApproved := false, remoteApproved := true
      shareNames := p.shareNames, shareStatus := p.shareStatus, created := now, updated := now
      sequence := 0, remoteSequence := 0 }
  return { room with
    remoteMembers := people, remoteApproved := true, updated := now
    status := if accept then .approved else room.status }

def chatId (c : Crates) (peer id : String) : String :=
  "federated:" ++ c.sha256Hex (peer ++ ":" ++ id)

def decideChat (c : Crates) (snap : Snapshot) (message : Message) (p : ChatPayload) (now : ℚ) :
    Except Error (Room × ChatEffect) := do
  let room ← context (snap.room.filter fun r =>
    r.peerId = snap.peer.stateId && r.status = .approved && r.localApproved && r.remoteApproved)
    (.forbidden "room is not approved")
  let person ← context (room.remoteMembers.find? (·.id = p.sender))
    (.forbidden "sender is not a room member")
  ensure (p.senderName = person.name) (.forbidden "sender name is not approved")
  ensure (!p.text.isEmpty && p.text.length ≤ maxMessage) (.invalid "payload.text")
  ensure (room.remoteSequence < p.sequence) (.invalid "payload.sequence")
  ensure (0 < p.created) (.invalid "payload.created")
  ensure (snap.rate < maxRoomRate) (.forbidden "room rate limit")
  return ({ room with remoteSequence := p.sequence, updated := max p.created now },
    { id := chatId c snap.peer.stateId message.id, room := message.room
      sender := "remote:" ++ snap.peer.stateId ++ ":" ++ p.sender, text := p.text
      created := p.created
      recipients := room.localMembers })

def hashOf (c : Crates) (senderServer : String) (message : Message) : String :=
  c.envelopeHash senderServer message.id message.room message.payload message.created

def decideReceive (c : Crates) (snap : Snapshot) (envelope : Envelope) (now : ℚ) :
    Except Error ReceiveDecision := do
  let message := envelope.message
  snap.authorize
  ensure (envelope.senderServer = snap.peer.stateId) (.forbidden "sender identity")
  let receipt : MessageReceipt := ⟨message.id, true, message.room, none⟩
  let inbox : InboxRow :=
    ⟨hashOf c envelope.senderServer message, message.requestId, .pending, now, none⟩
  match message.payload with
  | .roomInvite p => return ⟨receipt, ← decideRoom snap message p false now, none, inbox⟩
  | .roomAccept p => return ⟨receipt, ← decideRoom snap message p true now, none, inbox⟩
  | .chatMessage p =>
    let (room, chat) ← decideChat c snap message p now
    return ⟨receipt, room, some chat, { inbox with chatRoom := some message.room }⟩

def decideQueue (c : Crates) (existing : Option Item) (item : Item) (pending : ℕ × ℕ) :
    Except Error Item :=
  match existing with
  | some old =>
    if old.message.payload ≠ item.message.payload ∨ old.message.room ≠ item.message.room then
      .error (.conflict "message identity has different content")
    else .ok old
  | none =>
    if maxQueueRows ≤ pending.1 ∨ maxQueueBytes < pending.2 + c.recordLen item then .error
      (.conflict "queue is full")
    else .ok item

/-! ## Receiving -/

/-- `consume_nonce`: a nonce is used once, near the time of the server. -/
def consumeNonce (peer nonce : String) (timestamp now : ℤ) : Except Error Server := do
  ensure ((timestamp - now).natAbs ≤ clockSkewSeconds && 16 ≤ nonce.length && nonce.length ≤ 128)
    .transport
  let client := "federation:" ++ peer
  let nonces := s.nonces.filter fun _ created => now - nonceRetentionSeconds ≤ created
  let recent :=
    countRows (fun k created => k.1 = client && now - federationRateWindowSeconds ≤ created) nonces
  ensure (recent < federationRateLimit && (nonces[(client, nonce)]?).isNone)
    (.forbidden "nonce replay or peer rate limit")
  return { s with nonces := nonces.insert (client, nonce) timestamp }

def writeChat (chat : ChatEffect) : Except Error Server := do
  ensure (s.chats[chat.id]?).isNone (.conflict "chat exists without its inbox receipt")
  ensure (chat.recipients.all fun member => (s.agents[member]?).isSome)
    (.invalid "room.localMembers")
  return { s with
    chats := s.chats.insert chat.id
      ⟨nextRowid s, chat.room, chat.sender, chat.text, chat.created, ∅⟩ }

def applyChat : Option ChatEffect → Except Error Server
  | some chat => writeChat s chat
  | none => .ok s

def remember (accepted : List (String × Message × ChatPayload)) (peer : String)
    (message : Message) :
    List (String × Message × ChatPayload) :=
  match message.payload with
  | .chatMessage p => accepted ++ [(peer, message, p)]
  | _ => accepted

def applyDecision (message : Message) (admitted : AdmittedRequest)
    (decision : ReceiveDecision) : Except Error (Server × MessageReceipt) := do
  let receipt := { decision.receipt with sequence := decision.chat.map fun _ => nextRowid s }
  let s ← applyChat s decision.chat
  let s := putInbox (saveRoom s message.room decision.room) peer message.id
    { decision.inbox with requestId := message.requestId }
  let results ← fromResult (s.results.settleRequest admitted (.receipt receipt))
  return ({ s with results := results, accepted := remember s.accepted peer message }, receipt)

def Reply.asReceipt : Reply → Option MessageReceipt
  | .receipt r => some r
  | _ => none

def receiveLocked (c : Crates) (s : Server) (peer : String) (envelope : Envelope) (now : ℚ)
    (nowMs : ℤ) :
    Except Error (Server × MessageReceipt) := do
  let message := envelope.message
  let snap ← snapshot s peer message.room now
  snap.authorize
  ensure (envelope.senderServer = peer) (.forbidden "sender identity mismatch")
  let s ← consumeNonce s peer envelope.nonce envelope.timestamp (asSeconds now)
  let key : RequestKey :=
    ⟨remoteResultKey c.uuid "federation-inbox" [peer] message.id, "federation-inbox", [peer],
      message.requestId, []⟩
  match ← fromResult
      (s.results.beginRequest c.uuid Reply.asReceipt key
      (hashOf c envelope.senderServer message) nowMs) with
  | .replay saved => return (s, saved)
  | .fresh admitted => applyDecision s peer message admitted (← decideReceive c snap envelope now)

/-! ## Acknowledging -/

def Reply.asDelivery : Reply → Option FederationAck
  | .delivery ack _ => some ack
  | _ => none

def approveRoom (message : Message) (now : ℚ) : Server :=
  match message.payload, s.rooms[message.room]? with
  | .roomAccept _, some room =>
    if room.peerId = peer ∧ room.localApproved then
      saveRoom s message.room
        { room with status := .approved, remoteApproved := true, updated := now }
    else s
  | _, _ => s

def markDelivered (peer id : String) : Server :=
  match s.chats[id]? with
  | some row =>
    let row := { row with deliveries := row.deliveries.insert ("remote:" ++ peer) .delivered }
    { s with chats := s.chats.insert id row }
  | none => s

/-- `acknowledge_outbox`: take an acknowledged message out of the outbox. -/
def acknowledgeOutbox (c : Crates) (s : Server) (peer : String) (ack : FederationAck)
    (receipt : Option MessageReceipt) (now : ℚ) (nowMs : ℤ) : Except Error (Server × Bool) := do
  match s.outbox[(peer, ack.id)]? with
  | none =>
    let key := remoteResultKey c.uuid "federation-outbox" [peer] ack.requestId
    let saved ← fromResult (s.results.replayRequest Reply.asDelivery key ack.hash nowMs)
    return (s, saved.any fun old => old.id = ack.id && old.hash = ack.hash)
  | some item =>
    if item.hash ≠ some ack.hash ∨ item.message.requestId ≠ ack.requestId then
      return (s, false)
    let s := markDelivered (approveRoom s peer item.message now) peer ack.id
    let results ← fromResult (s.results.settleRequest item.admission (.delivery ack receipt))
    return ({ s with results := results, outbox := s.outbox.erase (peer, ack.id) }, true)

/-! ## Pulling -/

structure PullResult where
  messages : List Envelope
  acks : List FederationAck
  acknowledged : List FederationAck
deriving DecidableEq, Repr

def outbound (self : String) (message : Message) (now : ℤ) (nonce : String) : Envelope :=
  ⟨self, message, now, nonce⟩

/-- The acknowledgements that a server sends for its inbox. -/
def inboxAcks : List FederationAck :=
  (inboxBatch s peer).map fun row => ⟨row.1, row.2.hash, row.2.requestId⟩

def acknowledgeAll (c : Crates) (peer : String) (now : ℚ) (nowMs : ℤ) :
    Server → List FederationAck → Except Error (Server × List FederationAck)
  | s, [] => .ok (s, [])
  | s, ack :: acks => do
    let (s, known) ← acknowledgeOutbox c s peer ack none now nowMs
    let (s, rest) ← acknowledgeAll c peer now nowMs s acks
    return (s, if known then ack :: rest else rest)

/-- The messages of a pull: the first one in any case, and more while they fit. -/
def fitting (c : Crates) (first : Bool) (size : ℕ) : List Envelope → List Envelope
  | [] => []
  | envelope :: rest =>
    if !first && maxBatchBytes < size + c.encodedLen envelope then []
    else envelope :: fitting c false (size + c.encodedLen envelope) rest

def keepHash (c : Crates) (self peer : String) (s : Server) (message : Message) : Server :=
  match s.outbox[(peer, message.id)]? with
  | some item => putOutbox s peer message.id { item with hash := some (hashOf c self message) }
  | none => s

def keepSent (s : Server) (row : String × InboxRow) : Server :=
  putInbox s peer row.1 { row.2 with ack := .sent }

/-- `pull_locked`: what a server answers to a pull of its peer. -/
def pullLocked (c : Crates) (s : Server) (self peer : String) (acks : List FederationAck)
    (nonce : String → String) (now : ℚ) (nowMs : ℤ) : Except Error (Server × PullResult) := do
  (← snapshot s peer "" now).authorize
  let (s, acknowledged) ← acknowledgeAll c peer now nowMs s acks
  let items ← outboxBatch s peer none
  let messages := fitting c true 0
    (items.map fun item => outbound self item.message (asSeconds now) (nonce item.message.id))
  let s := messages.foldl (fun s envelope => keepHash c self peer s envelope.message) s
  let receipts := inboxAcks s peer
  let s := (inboxBatch s peer).foldl (keepSent peer) s
  return (s, ⟨messages, receipts, acknowledged⟩)

def confirm (s : Server) (ack : FederationAck) : Server :=
  match s.inbox[(peer, ack.id)]? with
  | some row =>
    if row.hash = ack.hash then putInbox s peer ack.id { row with ack := .confirmed } else s
  | none => s

/-- Receive the messages of an answer, one after another. -/
def receiveAll (c : Crates) (peer : String) (now : ℚ) (nowMs : ℤ) : Server → List Envelope →
    Except Error Server
  | s, [] => .ok s
  | s, envelope :: rest => do
    let (s, _) ← receiveLocked c s peer envelope now nowMs
    receiveAll c peer now nowMs s rest

def reconcile (c : Crates) (s : Server) (peer : String) (response : PullResult) (now : ℚ)
    (nowMs : ℤ) :
    Except Error Server := do
  ensure (response.messages.length ≤ maxBatch && response.acks.length ≤ maxBatch &&
    response.acknowledged.length ≤ maxBatch) (.invalid "pull.batch")
  (← snapshot s peer "" now).authorize
  let (s, _) ← acknowledgeAll c peer now nowMs s response.acks
  receiveAll c peer now nowMs (response.acknowledged.foldl (confirm peer) s) response.messages

/-! ## Delivery -/

def claimBatch (now : ℚ) : Except Error (List Item) := do
  (← snapshot s peer "" now).authorize
  outboxBatch s peer (some now)

/-- The check before a message is sent: it is still queued, with the claimed content. -/
def checkQueued (c : Crates) (s : Server) (self peer : String) (item : Item) (now : ℚ) :
    Except Error Server := do
  (← snapshot s peer "" now).authorize
  let latest ← context s.outbox[(peer, item.message.id)]? (.conflict "outbox removed")
  ensure (latest.status = .queued && hashOf c self latest.message = hashOf c self item.message)
    (.conflict "outbox changed")
  return putOutbox s peer item.message.id { latest with hash := some (hashOf c self item.message) }

def failQueued (peer id : String) (now : ℚ) : Server :=
  match s.outbox[(peer, id)]? with
  | some latest =>
    if latest.status = .queued then
      let attempts := min (latest.attempts + 1) 16
      putOutbox s peer id { latest with
        attempts := attempts
        nextAt := now + min (2 ^ min attempts 8) 300
        error := some "Federation transport did not return a verified receipt" }
    else s
  | none => s

def settleQueued (c : Crates) (s : Server) (self peer : String) (item : Item)
    (receipt : MessageReceipt) (now : ℚ) (nowMs : ℤ) : Except Error Server := do
  (← snapshot s peer "" now).authorize
  let ack : FederationAck := ⟨item.message.id, hashOf c self item.message, item.message.requestId⟩
  let (s, _) ← acknowledgeOutbox c s peer ack (some receipt) now nowMs
  return s

/-! ## Sending -/

structure SendRequest where
  sender : String
  roomId : String
  text : String
  key : String
  delivery : DeliveryMoment

def pythonStrip (s : String) : String :=
  let strip (cs : List Char) := cs.dropWhile fun ch => isSpace ch ||
    (0x1c ≤ ch.toNat && ch.toNat ≤ 0x1f)
  String.ofList (strip (strip s.toList).reverse).reverse

def Reply.asSend : Reply → Option MessageSendReply
  | .send r => some r
  | _ => none

def senderName (room : Room) (sender : String) (agent : Agent) : Option String :=
  ((room.localParticipants.find? (·.id = sender)).bind (·.name)).or
    (if agent.isLead then some (agent.name.getD "Lead") else none)

def newMessage (messageId : String) (req : SendRequest) (text : String) (name : Option String)
    (sequence : ℕ) (now : ℚ) :
    Message :=
  { id := messageId, requestId := req.key, room := req.roomId, created := now
    payload := .chatMessage ⟨req.sender, name, text, now, sequence, req.delivery⟩ }

def sendRoom (req : SendRequest) (now : ℚ) : Except Error Room := do
  let room ← context s.rooms[req.roomId]? (.forbidden "room unavailable")
  (← snapshot s room.peerId req.roomId now).authorize
  ensure (room.status = .approved && room.localApproved && room.remoteApproved &&
    room.localMembers.contains req.sender) (.forbidden "sender is not an approved room member")
  return room

def writeMessage (id peer : String) (room : Room) (req : SendRequest) (text : String) (sequence : ℕ)
    (item : Item) (admitted : AdmittedRequest) (now : ℚ) :
    Except Error (Server × MessageSendReply) := do
  ensure (item.message.id = id) .store
  let deliveries : BTreeMap DeliveryStatus :=
    (∅ : BTreeMap DeliveryStatus).insert ("remote:" ++ peer) .queued
  ensure (s.chats[id]?).isNone .store
  ensure (room.localMembers.all fun member => member = req.sender || (s.agents[member]?).isSome)
    (.invalid "room.localMembers")
  let s :=
    { s with
    chats := s.chats.insert id ⟨nextRowid s, req.roomId, req.sender, text, now, deliveries⟩ }
  let s := saveRoom (putOutbox s peer id item) req.roomId
    { room with sequence := sequence, updated := now }
  let reply : MessageSendReply := ⟨id, req.roomId, deliveries, .queued⟩
  let results ← fromResult (s.results.settleRequest admitted (.send reply))
  return ({ s with results := results }, reply)

/-- `send_message_in_transaction`, of the server with the given identity. -/
def sendMessage (c : Crates) (s : Server) (self : String) (req : SendRequest) (now : ℚ)
    (nowMs : ℤ) :
    Except Error (Server × MessageSendReply) := do
  let text := pythonStrip req.text
  ensure (!text.isEmpty && text.length ≤ maxMessage && req.key.utf8ByteSize ≤ 4096)
    (.invalid "message")
  let messageId ← context (c.newV5 self req.key) (.invalid "identity.stateId")
  let room ← sendRoom s req now
  let agent ← context s.agents[req.sender]? (.event "Invalid request")
  ensure (!agent.deleted) (.event "This agent was deleted")
  let signature := c.sendSignature req.sender req.roomId text req.delivery
  match ← fromResult (s.results.beginRequest c.uuid Reply.asSend
      ⟨messageId, "federation-send", [req.sender], req.key, []⟩ signature nowMs) with
  | .replay saved => return (s, saved)
  | .fresh admitted =>
    ensure (room.sequence + 1 < 2 ^ 64) (.invalid "room.sequence")
    let sequence := room.sequence + 1
    let message := newMessage messageId req text (senderName room req.sender agent) sequence now
    let key := remoteResultKey c.uuid "federation-outbox" [room.peerId] req.key
    match ← fromResult (s.results.beginRequest c.uuid Reply.asDelivery
        ⟨key, "federation-outbox", [room.peerId], req.key, []⟩ (hashOf c self message) nowMs) with
    | .replay _ => throw (.conflict "message delivery already settled")
    | .fresh admission =>
      let item ← decideQueue c s.outbox[(room.peerId, messageId)]?
        ⟨message, .queued, 0, 0, none, none, admission⟩
        (queueSize c s room.peerId)
      writeMessage s messageId room.peerId room req text sequence item admitted now

end Layr.Federation
