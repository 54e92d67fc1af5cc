import Layr.Federation

/-!
# What the transactions of a server change

A server is the source of the messages to its peers and the target of theirs. As a source it matters
what its outbox holds, which numbers its rooms have reached and which messages are marked as
delivered (`SourceQuiet`). As a target it matters what has arrived, the last accepted number of each
room and the saved receipts (`TargetQuiet`). Most transactions change nothing of one or both of
them. `Sends` and `Accepts` say what the others do.
-/

namespace Layr.Federation

open Requests Tables Maps List Option

variable {c : Crates} {a b d : Server} {y peer id self : String} {A B : String → Prop} {now : ℚ}
  {nowMs : ℤ}

/-! ## Views of a server -/

/-- The last number that was given to a message of a room. -/
def Server.seqOf (s : Server) (r : String) : ℕ := (s.rooms[r]?.map (·.sequence)).getD 0

def Server.Holds (s : Server) (peer : String) (m : Message) : Prop :=
  ∃ item, s.outbox[(peer, m.id)]? = some item ∧ item.message = m

def Server.Queued (s : Server) (peer : String) (m : Message) : Prop :=
  ∃ item, s.outbox[(peer, m.id)]? = some item ∧ item.message = m ∧ item.status = .queued

variable {m : Message} {s : Server}

theorem Server.Queued.holds (h : s.Queued peer m) : s.Holds peer m :=
  h.imp fun _ hitem => ⟨hitem.1, hitem.2.1⟩

def Server.Arrived (s : Server) (peer id : String) : Prop := (s.inbox[(peer, id)]?).isSome

instance (s : Server) (peer id : String) : Decidable (s.Arrived peer id) :=
  inferInstanceAs (Decidable (_ = true))

def Server.Delivered (s : Server) (peer id : String) : Prop :=
  ∃ row, s.chats[id]? = some row ∧ row.deliveries["remote:" ++ peer]? = some .delivered

/-- The peer of a room and the last accepted number. -/
def Room.remote (room : Room) : String × ℕ := (room.peerId, room.remoteSequence)

/-- The transaction queues no message for the peer, and marks only the given messages as delivered
to it. -/
structure SourceQuiet (y : String) (A : String → Prop) (a b : Server) : Prop where
  outbox : ∀ (id : String) (item' : Item), b.outbox[(y, id)]? = some item' →
    ∃ item, a.outbox[(y, id)]? = some item ∧ item.message = item'.message ∧
      (item'.status = .queued → item.status = .queued)
  sequence : ∀ r, a.seqOf r ≤ b.seqOf r
  delivered : ∀ id, b.Delivered y id → a.Delivered y id ∨ A id

structure TargetQuiet (a b : Server) : Prop where
  arrived : ∀ y id, a.Arrived y id → b.Arrived y id
  remote : ∀ r : String, (b.rooms[r]?).map Room.remote = (a.rooms[r]?).map Room.remote
  accepted : b.accepted = a.accepted
  receipts : ∀ (id : String) (row : StoredResult Reply) (r : MessageReceipt),
    b.results.rows[id]? = some row →
    row.reply = .receipt r → a.results.rows[id]? = some row
  chats : ∀ id : String, (a.chats[id]?).isSome → (b.chats[id]?).isSome

theorem SourceQuiet.rfl : SourceQuiet y A a a :=
  ⟨fun _ item h => ⟨item, h, by rfl, id⟩, fun _ => le_rfl, fun _ => .inl⟩

theorem SourceQuiet.trans (h : SourceQuiet y A a b) (h' : SourceQuiet y A b d) :
    SourceQuiet y A a d where
  outbox id item'' hitem'' := by
    obtain ⟨item', hitem', hmessage', hstatus'⟩ := h'.outbox id item'' hitem''
    obtain ⟨item, hitem, hmessage, hstatus⟩ := h.outbox id item' hitem'
    exact ⟨item, hitem, hmessage.trans hmessage', hstatus ∘ hstatus'⟩
  sequence r := (h.sequence r).trans (h'.sequence r)
  delivered id hid := (h'.delivered id hid).elim (h.delivered id) .inr

theorem TargetQuiet.rfl : TargetQuiet a a :=
  ⟨fun _ _ h => h, fun _ => by rfl, by rfl, fun _ _ _ h _ => h, fun _ h => h⟩

theorem TargetQuiet.trans (h : TargetQuiet a b) (h' : TargetQuiet b d) : TargetQuiet a d where
  arrived y id := h'.arrived y id ∘ h.arrived y id
  remote r := (h'.remote r).trans (h.remote r)
  accepted := h'.accepted.trans h.accepted
  receipts id row r hrow hreply := h.receipts id row r (h'.receipts id row r hrow hreply) hreply
  chats id := h'.chats id ∘ h.chats id

theorem SourceQuiet.holds (h : SourceQuiet y A a b) (hm : b.Holds y m) : a.Holds y m := by
  obtain ⟨item', hitem', rfl⟩ := hm
  obtain ⟨item, hitem, hmessage, -⟩ := h.outbox _ _ hitem'
  exact ⟨item, hitem, hmessage⟩

theorem SourceQuiet.queued (h : SourceQuiet y A a b) (hm : b.Queued y m) : a.Queued y m := by
  obtain ⟨item', hitem', rfl, hstatus'⟩ := hm
  obtain ⟨item, hitem, hmessage, hstatus⟩ := h.outbox _ _ hitem'
  exact ⟨item, hitem, hmessage, hstatus hstatus'⟩

/-- The transaction changes nothing that matters to a peer. -/
structure Quiet (y : String) (A : String → Prop) (a b : Server) : Prop where
  source : SourceQuiet y A a b
  target : TargetQuiet a b

theorem Quiet.rfl : Quiet y A a a := ⟨.rfl, .rfl⟩

theorem Quiet.trans (h : Quiet y A a b) (h' : Quiet y A b d) : Quiet y A a d :=
  ⟨h.source.trans h'.source, h.target.trans h'.target⟩

/-! ## Rows of the outbox -/

/-- A transaction that changes only the delivery state of a row of the outbox. -/
theorem putOutbox_quiet {item item' : Item} (h : a.outbox[(peer, id)]? = some item)
    (hmessage : item.message = item'.message)
    (hstatus : item'.status = .queued → item.status = .queued) :
    Quiet y A a (putOutbox a peer id item') := by
  refine ⟨{ SourceQuiet.rfl (a := a) with outbox := fun id' row hrow => ?_ },
    { __ := TargetQuiet.rfl (a := a) }⟩
  rcases of_getElem?_insert hrow with ⟨hk, rfl⟩ | ⟨-, hrow⟩
  · cases hk
    exact ⟨item, h, hmessage, hstatus⟩
  · exact ⟨row, hrow, by rfl, fun hq => hq⟩

variable {item : Item}

theorem checkQueued_quiet (h : checkQueued c a self peer item now = .ok b) : Quiet y A a b := by
  simp only [checkQueued, bind_eq_ok, context_eq_ok, exists_unit_eq_ok, pure_eq_ok] at h
  obtain ⟨snap, -, -, latest, hlatest, -, rfl⟩ := h
  exact putOutbox_quiet hlatest (by rfl) fun hq => hq

theorem failQueued_quiet : Quiet y A a (failQueued a peer id now) := by
  unfold failQueued
  split
  · next latest hlatest =>
    split
    · exact putOutbox_quiet hlatest (by rfl) fun hq => hq
    · exact .rfl
  · exact .rfl

theorem keepHash_quiet : Quiet y A a (keepHash c self peer a m) := by
  unfold keepHash
  split
  · next item hitem => exact putOutbox_quiet hitem (by rfl) fun hq => hq
  · exact .rfl

/-! ## Rows of the inbox -/

theorem putInbox_quiet {row : InboxRow} : Quiet y A a (putInbox a peer id row) := by
  refine ⟨{ __ := SourceQuiet.rfl (a := a) },
    { TargetQuiet.rfl (a := a) with arrived := fun y' id' h => ?_ }⟩
  rw [Server.Arrived, putInbox]
  by_cases hk : (peer, id) = (y', id')
  · rw [hk, getElem?_insert_self]
    rfl
  · rw [getElem?_insert_ne hk]
    exact h

variable {ack : FederationAck}

theorem confirm_quiet : Quiet y A a (confirm peer a ack) := by
  unfold confirm
  split
  · split
    · exact putInbox_quiet
    · exact .rfl
  · exact .rfl

theorem foldl_quiet {α : Type} {f : Server → α → Server} (h : ∀ s x, Quiet y A s (f s x))
    (xs : List α) :
    Quiet y A a (xs.foldl f a) := by
  induction xs generalizing a with
  | nil => exact .rfl
  | cons x xs ih => exact (h a x).trans ih

/-! ## Acknowledgements -/

/-- Only the peer and the accepted number of a room matter to a target, and its own number to a
source. -/
theorem saveRoom_quiet {r : String} {room room' : Room} (h : a.rooms[r]? = some room)
    (hremote : room'.remote = room.remote) (hsequence : room.sequence ≤ room'.sequence) :
    Quiet y A a (saveRoom a r room') := by
  refine ⟨{ SourceQuiet.rfl (a := a) with sequence := fun r' => ?_ },
    { TargetQuiet.rfl (a := a) with remote := fun r' => ?_ }⟩
  all_goals by_cases hr : r = r'
  · subst hr
    simpa [Server.seqOf, saveRoom, h] using hsequence
  · rw [Server.seqOf, Server.seqOf, saveRoom, getElem?_insert_ne hr]
  · subst hr
    simp [saveRoom, h, hremote]
  · rw [saveRoom, getElem?_insert_ne hr]

theorem approveRoom_quiet : Quiet y A a (approveRoom a peer m now) := by
  unfold approveRoom
  split
  · next room _ hroom =>
    split
    · exact saveRoom_quiet hroom (by rfl) le_rfl
    · exact .rfl
  · exact .rfl

theorem remote_inj {x x' : String} (h : "remote:" ++ x = "remote:" ++ x') : x = x' := by
  refine String.toList_inj.1 ?_
  simpa using congrArg String.toList h

/-- A row of the chat that says of no other message that it is delivered. -/
theorem insertChat_quiet {row : ChatRow}
    (hrow : row.deliveries["remote:" ++ y]? = some .delivered → a.Delivered y id ∨ A id) :
    Quiet y A a { a with chats := a.chats.insert id row } := by
  refine ⟨{ SourceQuiet.rfl (A := A) (a := a) with delivered := ?_ },
    { TargetQuiet.rfl (a := a) with chats := fun id' h => ?_ }⟩
  · rintro id' ⟨row', hrow', hdelivered⟩
    rcases of_getElem?_insert hrow' with ⟨rfl, rfl⟩ | ⟨-, hrow'⟩
    · exact hrow hdelivered
    · exact .inl ⟨row', hrow', hdelivered⟩
  · by_cases hid : id = id'
    · subst hid
      simp
    · simpa only [getElem?_insert_ne hid] using h

theorem markDelivered_quiet (hA : y = peer → A id) : Quiet y A a (markDelivered a peer id) := by
  unfold markDelivered
  split
  · next row hrow =>
    refine insertChat_quiet fun hdelivered => ?_
    by_cases hy : y = peer
    · exact .inr (hA hy)
    · rw [getElem?_insert_ne fun heq => hy (remote_inj heq).symm] at hdelivered
      exact .inl ⟨row, hrow, hdelivered⟩
  · exact .rfl

/-- A transaction that changes the request results, but no receipt. -/
theorem results_quiet {results : Replies Reply}
    (h : ∀ (id : String) (row : StoredResult Reply) (r : MessageReceipt),
      results.rows[id]? = some row →
      row.reply = .receipt r → a.results.rows[id]? = some row) :
    Quiet y A a { a with results := results } :=
  ⟨{ __ := SourceQuiet.rfl (a := a) }, { TargetQuiet.rfl (a := a) with receipts := h }⟩

variable {admitted : AdmittedRequest}

theorem settled_receipts {r r' : Replies Reply} {reply : Reply}
    (hreply : ∀ receipt, reply ≠ .receipt receipt) (h : r.settleRequest admitted reply = .ok r') :
    ∀ (id : String) (row : StoredResult Reply) (receipt : MessageReceipt), r'.rows[id]? = some row →
      row.reply = .receipt receipt → r.rows[id]? = some row := by
  intro id row receipt hrow heq
  rcases Replies.settleRequest_rows h hrow with hold | ⟨-, rfl⟩
  · exact hold
  · exact absurd heq (hreply receipt)

theorem erase_quiet : Quiet y A a { a with outbox := a.outbox.erase (peer, id) } := by
  refine ⟨{ SourceQuiet.rfl (a := a) with outbox := fun id' item h => ?_ },
    { __ := TargetQuiet.rfl (a := a) }⟩
  exact ⟨item, (of_getElem?_erase h).2, by rfl, fun hq => hq⟩

theorem acknowledgeOutbox_quiet {receipt : Option MessageReceipt} {known : Bool}
    (hA : y = peer → A ack.id)
    (h : acknowledgeOutbox c a peer ack receipt now nowMs = .ok (b, known)) :
    Quiet y A a b := by
  unfold acknowledgeOutbox at h
  split at h
  · obtain ⟨saved, -, h⟩ := bind_eq_ok.1 h
    cases h
    exact .rfl
  next item hitem =>
  split at h
  · cases h
    exact .rfl
  obtain ⟨results, hresults, h⟩ := bind_eq_ok.1 h
  cases h
  have happrove : Quiet y A a (approveRoom a peer item.message now) := approveRoom_quiet
  have hmark : Quiet y A (approveRoom a peer item.message now)
    (markDelivered (approveRoom a peer item.message now) peer ack.id) := markDelivered_quiet hA
  have hresults' := results_quiet (y := y) (A := A)
    (settled_receipts (fun _ heq => by cases heq) (fromResult_eq_ok.1 hresults))
  exact happrove.trans (hmark.trans (hresults'.trans erase_quiet))

theorem acknowledgeAll_quiet {acks acknowledged : List FederationAck}
    (hA : y = peer → ∀ ack ∈ acks, A ack.id)
        (h : acknowledgeAll c peer now nowMs a acks = .ok (b, acknowledged)) : Quiet y A a b := by
  induction acks generalizing a b acknowledged with
  | nil =>
    cases h
    exact .rfl
  | cons ack acks ih =>
    obtain ⟨⟨s, known⟩, hack, h⟩ := bind_eq_ok.1 h
    obtain ⟨⟨s', rest⟩, hrest, h⟩ := bind_eq_ok.1 h
    cases h
    exact (acknowledgeOutbox_quiet (fun hy => hA hy ack mem_cons_self) hack).trans
      (ih (fun hy x hx => hA hy x (mem_cons_of_mem _ hx)) hrest)

variable {receipt : MessageReceipt}

theorem settleQueued_quiet (hA : y = peer → A item.message.id)
    (h : settleQueued c a self peer item receipt now nowMs = .ok b) : Quiet y A a b := by
  simp only [settleQueued, bind_eq_ok, exists_unit_eq_ok, pure_eq_ok] at h
  obtain ⟨snap, -, -, ⟨s, known⟩, hack, rfl⟩ := h
  exact acknowledgeOutbox_quiet hA hack

theorem gc_quiet : Quiet y A a { a with results := a.results.gc nowMs } :=
  results_quiet fun _ _ _ hrow _ => Replies.gc_rows hrow

/-! ## Receiving -/

/-- The peer and the number of a room, before and after a message of the peer. Only a chat message
raises the number. -/
inductive RoomStep (y : String) (m : Message) : Option (String × ℕ) → Option (String × ℕ) →
    Prop where
  | kept {n : ℕ} (h : ∀ p, m.payload ≠ .chatMessage p) : RoomStep y m (some (y, n)) (some (y, n))
  | created (h : ∀ p, m.payload ≠ .chatMessage p) : RoomStep y m none (some (y, 0))
  | counted {n : ℕ} {p : ChatPayload} (hp : m.payload = .chatMessage p) (h : n < p.sequence) :
    RoomStep y m (some (y, n)) (some (y, p.sequence))

structure Decides (c : Crates) (y : String) (m : Message) (old : Option Room)
    (decision : ReceiveDecision) : Prop where
  receipt : decision.receipt.messageId = m.id
  room : RoomStep y m (old.map Room.remote) (some decision.room.remote)
  sequence : decision.room.sequence = (old.map (·.sequence)).getD 0
  chat : ∀ p, m.payload = .chatMessage p → ∃ chat, decision.chat = some chat ∧
    chat.id = chatId c y m.id
  noChat : (∀ p, m.payload ≠ .chatMessage p) → decision.chat = none

variable {snap : Snapshot} {room : Room}

theorem decideRoom_spec {p : RoomPayload} {accept : Bool}
    (hm : ∀ p, m.payload ≠ .chatMessage p) (h : decideRoom snap m p accept now = .ok room) :
    RoomStep snap.peer.stateId m (snap.room.map Room.remote) (some room.remote) ∧
      room.sequence = (snap.room.map (·.sequence)).getD 0 := by
  simp only [decideRoom, bind_eq_ok, ensure_eq_ok, exists_const, pure_eq_ok] at h
  obtain ⟨-, people, -, hpeer, -, rfl⟩ := h
  cases hroom : snap.room with
  | none => exact ⟨.created hm, rfl⟩
  | some old =>
    rw [hroom, all_some, decide_eq_true_eq] at hpeer
    simp only [map_some, getD_some, Room.remote, hpeer, and_true]
    exact .kept hm

variable {chat : ChatEffect}

theorem decideChat_spec {p : ChatPayload}
    (hm : m.payload = .chatMessage p) (h : decideChat c snap m p now = .ok (room, chat)) :
    RoomStep snap.peer.stateId m (snap.room.map Room.remote) (some room.remote) ∧
      room.sequence = (snap.room.map (·.sequence)).getD 0 ∧
        chat.id = chatId c snap.peer.stateId m.id := by
  simp only [decideChat, bind_eq_ok, ensure_eq_ok, context_eq_ok, exists_const, pure_eq_ok,
    decide_eq_true_eq, filter_eq_some_iff, Bool.and_eq_true, Prod.mk.injEq] at h
  obtain ⟨old, ⟨hold, ⟨⟨hpeer, -⟩, -⟩, -⟩, person, -, -, -, hsequence, -, -, rfl, rfl⟩ := h
  simp only [hold, map_some, getD_some, Room.remote, hpeer, and_self, and_true]
  exact .counted hm hsequence

variable {decision : ReceiveDecision} {envelope : Envelope}

theorem decideReceive_spec (h : decideReceive c snap envelope now = .ok decision) :
    Decides c snap.peer.stateId envelope.message snap.room decision := by
  simp only [decideReceive, bind_eq_ok, ensure_eq_ok, exists_const, exists_unit_eq_ok] at h
  obtain ⟨-, -, h⟩ := h
  cases hp : envelope.message.payload with
  | chatMessage p =>
    simp only [hp, bind_eq_ok] at h
    obtain ⟨⟨room, chat⟩, hchat, h⟩ := h
    cases h
    obtain ⟨hroom, hsequence, hid⟩ := decideChat_spec hp hchat
    exact ⟨rfl, hroom, hsequence, fun _ _ => ⟨chat, rfl, hid⟩, fun hnot => absurd hp (hnot p)⟩
  | roomInvite p | roomAccept p =>
    simp only [hp, bind_eq_ok] at h
    obtain ⟨room, hroom, h⟩ := h
    cases h
    have hnot : ∀ p, envelope.message.payload ≠ .chatMessage p :=
      fun q heq => by rw [hp] at heq; cases heq
    obtain ⟨hstep, hsequence⟩ := decideRoom_spec hnot hroom
    exact ⟨rfl, hstep, hsequence, fun q heq => absurd heq (hnot q), fun _ => rfl⟩

structure Accepts (c : Crates) (y : String) (m : Message) (a b : Server) : Prop where
  arrived : b.Arrived y m.id
  keeps : ∀ y' id, a.Arrived y' id → b.Arrived y' id
  room : RoomStep y m ((a.rooms[m.room]?).map Room.remote) ((b.rooms[m.room]?).map Room.remote)
  others : ∀ r, r ≠ m.room → (b.rooms[r]?).map Room.remote = (a.rooms[r]?).map Room.remote
  accepted : b.accepted = remember a.accepted y m
  receipts : ∀ (id : String) (row : StoredResult Reply) (r : MessageReceipt),
    b.results.rows[id]? = some row →
    row.reply = .receipt r → a.results.rows[id]? = some row ∨
      (∃ x, id = identityText "federation-inbox" [y] x []) ∧ row.signature = hashOf c y m ∧
        r.messageId = m.id
  chats : ∀ id : String, (a.chats[id]?).isSome → (b.chats[id]?).isSome
  chat : ∀ p, m.payload = .chatMessage p → a.chats[chatId c y m.id]? = none ∧
    (b.chats[chatId c y m.id]?).isSome

/-- Writing a chat row changes only the chat rows, and none that was there. -/
theorem writeChat_spec (h : writeChat a chat = .ok b) :
    a.chats[chat.id]? = none ∧ ∃ row : ChatRow, row.deliveries = ∅ ∧
      b = { a with chats := a.chats.insert chat.id row } := by
  simp only [writeChat, bind_eq_ok, ensure_eq_ok, exists_const, pure_eq_ok, isNone_iff_eq_none] at h
  obtain ⟨hnone, -, rfl⟩ := h
  exact ⟨hnone, _, rfl, rfl⟩

theorem applyChat_spec {room : Option Room} (hd : Decides c peer m room decision)
    (h : applyChat a decision.chat = .ok s) :
    (∃ chats, s = { a with chats := chats }) ∧ Quiet y A a s ∧ ∀ p, m.payload = .chatMessage p →
      a.chats[chatId c peer m.id]? = none ∧ (s.chats[chatId c peer m.id]?).isSome := by
  by_cases hchat : ∃ p, m.payload = .chatMessage p
  · obtain ⟨p, hp⟩ := hchat
    obtain ⟨chat, hsome, hid⟩ := hd.chat p hp
    simp only [hsome] at h
    obtain ⟨hnone, row, hrow, rfl⟩ := writeChat_spec h
    rw [← hid]
    exact ⟨⟨_, rfl⟩, insertChat_quiet (by simp [hrow]), fun _ _ => ⟨hnone, by simp⟩⟩
  · have hnot : ∀ p, m.payload ≠ .chatMessage p := fun p hp => hchat ⟨p, hp⟩
    simp only [hd.noChat hnot] at h
    cases h
    exact ⟨⟨_, rfl⟩, .rfl, fun p hp => absurd hp (hnot p)⟩

theorem applyDecision_spec (hd : Decides c peer m a.rooms[m.room]? decision)
    (hid : ∃ x, admitted.id = identityText "federation-inbox" [peer] x [])
    (hsignature : admitted.signature = hashOf c peer m)
    (h : applyDecision a peer m admitted decision = .ok (b, receipt)) :
    SourceQuiet y A a b ∧ Accepts c peer m a b ∧ receipt.messageId = m.id := by
  obtain ⟨s, hs, h⟩ := bind_eq_ok.1 h
  obtain ⟨results, hresults, h⟩ := bind_eq_ok.1 h
  obtain ⟨⟨chats, rfl⟩, hquiet, hchat⟩ := applyChat_spec (y := y) (A := A) hd hs
  have hreceipt : receipt.messageId = m.id := by
    cases h
    exact hd.receipt
  have harrived := (show Quiet y A { a with chats := chats }
    (putInbox { a with chats := chats } peer m.id { decision.inbox with requestId := m.requestId })
      from
      putInbox_quiet).target.arrived
  cases h
  refine ⟨?_, ?_, hreceipt⟩
  · refine hquiet.source.trans
      { SourceQuiet.rfl (a := { a with chats := chats }) with sequence := fun r => ?_ }
    by_cases hr : m.room = r
    · subst hr
      simp [Server.seqOf, putInbox, saveRoom, hd.sequence]
    · simp [Server.seqOf, putInbox, saveRoom, getElem?_insert_ne hr]
  · refine ⟨?_, harrived, ?_, fun r hr => ?_, by rfl, fun id row r hrow hreply => ?_,
      hquiet.target.chats, hchat⟩
    · simp [Server.Arrived, putInbox]
    · simpa [putInbox, saveRoom] using hd.room
    · simp [putInbox, saveRoom, getElem?_insert_ne (Ne.symm hr)]
    · rcases Replies.settleRequest_rows (fromResult_eq_ok.1 hresults) hrow with hold | ⟨rfl, rfl⟩
      · exact .inl hold
      · cases hreply
        exact .inr ⟨hid, hsignature, hreceipt⟩

theorem consumeNonce_spec {nonce : String} {timestamp now : ℤ}
    (h : consumeNonce a peer nonce timestamp now = .ok b) :
    ∃ nonces, b = { a with nonces := nonces } := by
  simp only [consumeNonce, bind_eq_ok, ensure_eq_ok, exists_const, pure_eq_ok] at h
  obtain ⟨-, -, rfl⟩ := h
  exact ⟨_, rfl⟩

/-- A received message is accepted, or its receipt is saved. -/
theorem receiveLocked_spec (h : receiveLocked c a peer envelope now nowMs = .ok (b, receipt)) :
    SourceQuiet y A a b ∧
      (Accepts c peer envelope.message a b ∧ receipt.messageId = envelope.message.id ∨
        TargetQuiet a b ∧ ∃ x row, a.results.rows[identityText "federation-inbox" [peer] x []]? =
          some row ∧
          row.reply = .receipt receipt ∧ row.signature = hashOf c peer envelope.message) := by
  simp only [receiveLocked, bind_eq_ok, ensure_eq_ok, exists_const, exists_unit_eq_ok,
    decide_eq_true_eq, fromResult_eq_ok] at h
  obtain ⟨snap, hsnap, hauthorize, hsender, s, hnonce, admission, hbegin, h⟩ := h
  simp only [snapshot, bind_eq_ok, ensure_eq_ok, context_eq_ok, exists_const, pure_eq_ok,
    decide_eq_true_eq] at hsnap
  obtain ⟨p, -, hpeer, rfl⟩ := hsnap
  obtain ⟨nonces, rfl⟩ := consumeNonce_spec hnonce
  rw [hsender] at hbegin
  cases admission with
  | replay saved =>
    cases h
    refine ⟨{ __ := SourceQuiet.rfl (a := a) }, .inr ⟨{ __ := TargetQuiet.rfl (a := a) }, ?_⟩⟩
    obtain ⟨id, row, hid, hrow, hsignature, hreply⟩ := Replies.beginRequest_replay hbegin
    have htext : ∃ x, id = identityText "federation-inbox" [peer] x [] := by
      rcases hid with rfl | hid
      · exact remoteResultKey_text _ _ _ _
      · exact hid
    obtain ⟨x, rfl⟩ := htext
    refine ⟨x, row, hrow, ?_, hsignature⟩
    cases hcase : row.reply with
    | receipt r =>
      rw [hcase] at hreply
      cases hreply
      rfl
    | send | delivery => rw [hcase] at hreply; cases hreply
  | fresh admitted =>
    obtain ⟨decision, hdecision, h⟩ := bind_eq_ok.1 h
    obtain ⟨hsignature, hid⟩ := Replies.beginRequest_fresh hbegin
    have hd := decideReceive_spec hdecision
    rw [hpeer] at hd
    obtain ⟨hsource, haccepts, hreceipt⟩ :=
      applyDecision_spec (a := { a with nonces := nonces }) (y := y)
      (A := A) hd hid hsignature h
    exact ⟨{ __ := hsource }, .inl ⟨{ __ := haccepts }, hreceipt⟩⟩

/-! ## Sending -/

structure Sends (c : Crates) (source : String) (req : SendRequest) (now : ℚ) (peer : String)
    (m : Message) (a b : Server) : Prop where
  id : c.newV5 source req.key = some m.id
  room : m.room = req.roomId
  chat : ∃ p, m.payload = .chatMessage p ∧ p.sequence = a.seqOf req.roomId + 1
  fresh : m.created = now ∨ a.Holds peer m
  outbox : ∀ (y id : String) (item : Item), b.outbox[(y, id)]? = some item →
    a.outbox[(y, id)]? = some item ∨ y = peer ∧ item.message = m
  sequence : ∀ r, a.seqOf r ≤ b.seqOf r
  number : b.seqOf req.roomId = a.seqOf req.roomId + 1
  delivered : ∀ y id, b.Delivered y id → a.Delivered y id

variable {req : SendRequest} {reply : MessageSendReply}

theorem writeMessage_spec {text : String} {sequence : ℕ} (hroom : a.rooms[req.roomId]? = some room)
    (hsequence : sequence = room.sequence + 1)
    (h : writeMessage a id peer room req text sequence item admitted now = .ok (b, reply)) :
    TargetQuiet a b ∧ item.message.id = id ∧ b.outbox = a.outbox.insert (peer, id) item ∧
      (∀ r, a.seqOf r ≤ b.seqOf r) ∧ b.seqOf req.roomId = a.seqOf req.roomId + 1 ∧
      ∀ y id, b.Delivered y id → a.Delivered y id := by
  simp only [writeMessage, bind_eq_ok, ensure_eq_ok, exists_const, decide_eq_true_eq,
    fromResult_eq_ok] at h
  obtain ⟨hid, -, -, results, hresults, h⟩ := h
  cases h
  set row : ChatRow := ⟨nextRowid a, req.roomId, req.sender, text, now,
    (∅ : BTreeMap DeliveryStatus).insert ("remote:" ++ peer) .queued⟩ with hrow
  have hdeliveries : ∀ y, row.deliveries["remote:" ++ y]? ≠ some .delivered := fun y heq => by
    rcases of_getElem?_insert heq with ⟨-, ⟨⟩⟩ | ⟨-, heq⟩
    simp at heq
  have hchat : ∀ y, Quiet y (fun _ => False) a { a with chats := a.chats.insert id row } :=
    fun y => insertChat_quiet fun heq => absurd heq (hdeliveries y)
  have hsave := fun y => saveRoom_quiet (a := { a with chats := a.chats.insert id row }) (y := y)
    (A := fun _ => False)
    hroom (show ({ room with sequence := sequence, updated := now } : Room).remote =
      room.remote from rfl)
    (by simp [hsequence])
  have hquiet := fun y => (hchat y).trans (hsave y)
  have hreceipts := settled_receipts (fun _ heq => by cases heq) hresults
  refine ⟨{ (hquiet peer).target with receipts := hreceipts }, hid, by rfl,
    (hquiet peer).source.sequence, ?_, fun y id hd => ?_⟩
  · simp [Server.seqOf, saveRoom, hroom, hsequence]
  · exact ((hquiet y).source.delivered id hd).resolve_right fun hf => hf

/-- A queued message has the content that was given, and is the one that was queued before, if there
was one. -/
theorem decideQueue_spec {existing : Option Item} {item item' : Item} {pending : ℕ × ℕ}
    (h : decideQueue c existing item pending = .ok item') :
    item'.message.payload = item.message.payload ∧ item'.message.room = item.message.room ∧
      (item' = item ∨ existing = some item') := by
  cases existing with
  | none =>
    simp only [decideQueue] at h
    split at h
    · cases h
    · cases h
      exact ⟨rfl, rfl, .inl rfl⟩
  | some old =>
    simp only [decideQueue] at h
    split at h
    · cases h
    · next hsame =>
      cases h
      rw [not_or, not_not, not_not] at hsame
      exact ⟨hsame.1, hsame.2, .inr rfl⟩

/-- A send queues a new message, or gives the reply of an earlier one. -/
theorem sendMessage_spec (h : sendMessage c a self req now nowMs = .ok (b, reply)) :
    TargetQuiet a b ∧ (b = a ∨ ∃ peer m, Sends c self req now peer m a b) := by
  simp only [sendMessage, bind_eq_ok, ensure_eq_ok, context_eq_ok, exists_const,
    fromResult_eq_ok] at h
  obtain ⟨-, messageId, hmessageId, room, hroom, agent, -, -, admission, -, h⟩ := h
  cases admission with
  | replay saved =>
    cases h
    exact ⟨.rfl, .inl rfl⟩
  | fresh admitted =>
    simp only [bind_eq_ok, ensure_eq_ok, exists_const, fromResult_eq_ok] at h
    obtain ⟨-, admission, -, h⟩ := h
    cases admission with
    | replay saved => cases h
    | fresh admission =>
      obtain ⟨item, hitem, h⟩ := bind_eq_ok.1 h
      obtain ⟨hpayload, hitemRoom, hold⟩ := decideQueue_spec hitem
      have hrooms : a.rooms[req.roomId]? = some room := by
        simp only [sendRoom, bind_eq_ok, ensure_eq_ok, context_eq_ok, exists_const,
          exists_unit_eq_ok, pure_eq_ok] at hroom
        obtain ⟨_, hrooms, _, -, -, -, rfl⟩ := hroom
        exact hrooms
      obtain ⟨htarget, hid, houtbox, hsequence, hnumber, hdelivered⟩ :=
        writeMessage_spec hrooms rfl h
      refine ⟨htarget,
        .inr ⟨room.peerId, item.message, hmessageId.trans (congrArg some hid.symm),
        hitemRoom, ?_, ?_, fun y id row hrow => ?_, hsequence, hnumber, hdelivered⟩⟩
      · exact ⟨_, hpayload, by simp [Server.seqOf, hrooms]⟩
      · rcases hold with rfl | hold
        · exact .inl rfl
        · exact .inr ⟨item, by rw [hid]; exact hold, rfl⟩
      · rw [houtbox] at hrow
        rcases of_getElem?_insert hrow with ⟨hk, rfl⟩ | ⟨-, hrow⟩
        · cases hk
          exact .inr ⟨rfl, rfl⟩
        · exact .inl hrow

/-! ## Pulling -/

theorem fitting_prefix {first : Bool} {size : ℕ} {envelopes : List Envelope} :
    fitting c first size envelopes <+: envelopes := by
  induction envelopes generalizing first size with
  | nil => exact nil_prefix
  | cons envelope rest ih =>
    rw [fitting]
    split
    · exact nil_prefix
    · exact (prefix_cons_inj _).2 ih

/-- The acknowledgements of an inbox name messages that have arrived. -/
theorem arrived_of_mem_inboxAcks (h : ack ∈ inboxAcks a peer) : a.Arrived peer ack.id := by
  obtain ⟨⟨id, row⟩, hmem, rfl⟩ := List.mem_map.1 h
  obtain ⟨⟨p, id'⟩, row', hrow, hselect⟩ :=
    mem_select.1 ((mem_insertionSort _).1 (mem_of_mem_take hmem))
  split at hselect
  · next hcond =>
    obtain ⟨rfl, rfl⟩ := Prod.mk.inj (some.inj hselect)
    obtain ⟨rfl, -⟩ := hcond
    rw [Server.Arrived, hrow]
    rfl
  · cases hselect

/-- What a server answers to a pull: messages of its outbox in their order, and receipts of its
inbox. -/
theorem pullLocked_spec {acks : List FederationAck} {nonce : String → String} {result : PullResult}
    (hA : y = peer → ∀ ack ∈ acks, A ack.id)
    (h : pullLocked c a self peer acks nonce now nowMs = .ok (b, result)) :
    (∀ ack ∈ result.acks, b.Arrived peer ack.id) ∧
      ∃ s items, Quiet y A a s ∧ Quiet y A s b ∧ outboxBatch s peer none = .ok items ∧
        result.messages.map (·.message) <+: items.map (·.message) := by
  simp only [pullLocked, bind_eq_ok, exists_unit_eq_ok] at h
  obtain ⟨snap, -, -, ⟨s, acknowledged⟩, hacks, items, hitems, h⟩ := h
  cases h
  set messages := fitting c true 0 (items.map fun item =>
    outbound self item.message (asSeconds now) (nonce item.message.id)) with hmessages
  have hhash := foldl_quiet (a := s) (y := y) (A := A)
    (fun s (envelope : Envelope) => show Quiet y A s
      (keepHash c self peer s envelope.message) from keepHash_quiet)
    messages
  set s' := messages.foldl (fun s envelope => keepHash c self peer s envelope.message) s
  have hsent := foldl_quiet (a := s') (y := y) (A := A) (f := keepSent peer)
    (fun _ _ => putInbox_quiet) (inboxBatch s' peer)
  refine ⟨fun ack hack => hsent.target.arrived _ _ (arrived_of_mem_inboxAcks hack), s, items,
    acknowledgeAll_quiet hA hacks, hhash.trans hsent, hitems, ?_⟩
  have hprefix : messages <+: items.map fun item =>
      outbound self item.message (asSeconds now) (nonce item.message.id) := fitting_prefix
  have := hprefix.map (·.message)
  rwa [List.map_map] at this

end Layr.Federation
