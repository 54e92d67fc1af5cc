import Layr.FederationMoves
import Layr.Lib.Runs

/-!
# Federated messages arrive in order and are not lost

Every step of a run is a sequence of moves of the view of a pair of servers (`step_moves`). So the
messages of a room are accepted once and in the order of their numbers, and a message that is marked
as delivered has arrived. If the sender's clock passes the creation time of each queued message
before a new one is sent, and no delivery pass finds a message due behind one of the same room that
waits for its next attempt (`Timely`), then a queued message that has not arrived has a number above
the last accepted one.

Without the second condition this fails: the batch of a pass leaves out a message whose attempt
failed, and sends the later ones.
-/

namespace Layr.Federation

open Function Requests Tables InOrder Runs List Option

variable {c : Crates} {s t : String} {w : World}

/-! ## The view of a world -/

def World.InFlight (w : World) (s t : String) (l : List Message) : Prop :=
  (∃ pass ∈ w.passes, pass.server = s ∧ pass.peer = t ∧ l = pass.rest.map (·.message)) ∨
    (∃ envelope, .message s t envelope ∈ w.net ∧ l = [envelope.message]) ∨
    ∃ result, .pulled s t result ∈ w.net ∧ l = result.messages.map (·.message)

def World.Acked (w : World) (s t id : String) : Prop :=
  (∃ receipt, .receipt t s receipt ∈ w.net ∧ receipt.messageId = id) ∨
    (∃ acks, .pull t s acks ∈ w.net ∧ ∃ ack ∈ acks, ack.id = id) ∨
    ∃ result, .pulled t s result ∈ w.net ∧ ∃ ack ∈ result.acks, ack.id = id

def World.view (w : World) (s t : String) : View :=
  ⟨w.server s, w.server t, w.InFlight s t, w.Acked s t⟩

def Timely (c : Crates) (s t : String) (w : World) : Event → Prop
  | .send s' req now _ => s' = s → ∀ m id, (w.server s).Queued t m → m.room = req.roomId →
      c.newV5 s req.key = some id →
      m.created < now ∨ m.created = now ∧ m.id < id
  | .claim s' t' now =>
    s' = s → t' = t → ∀ j k : Item, (w.server s).outbox[(t, j.message.id)]? = some j →
      j.status = .queued → (w.server s).outbox[(t, k.message.id)]? = some k → k.status = .queued →
        Precedes j.message k.message →
      k.nextAt ≤ now → j.nextAt ≤ now
  | _ => True

abbrev Moves (c : Crates) (s t : String) (timely : Prop) : View → View → Prop :=
  Relation.ReflTransGen (Move c s t timely)

variable {timely : Prop} {v v' : View}

theorem Link.moves (hc : c.HashNames) (h : Link c s t v) (hmoves : Moves c s t timely v v') :
    Link c s t v' := by
  induction hmoves with
  | refl => exact h
  | tail _ hmove ih => exact ih.move hc hmove

theorem Prompt.moves (hc : c.HashNames) (hlink : Link c s t v) (h : Prompt s t v) (htimely : timely)
    (hmoves : Moves c s t timely v v') : Prompt s t v' := by
  induction hmoves with
  | refl => exact h
  | tail hmoves hmove ih => exact ih.move (hlink.moves hc hmoves) htimely hmove

/-! ## Servers, lists and receipts -/

variable {srv : Server} {x : String}

theorem server_put_self : (w.put x srv).server x = srv := update_self ..

variable {x y : String}

theorem server_put_of_ne (h : y ≠ x) : (w.put x srv).server y = w.server y :=
  update_of_ne h ..

/-- A transaction of a server, seen by a pair of servers. -/
theorem moves_put (hst : s ≠ t)
    (hsrc : x = s → Moves c s t timely (w.view s t) { w.view s t with src := srv })
    (hdst : x = t → Moves c s t timely (w.view s t) { w.view s t with dst := srv }) :
    Moves c s t timely (w.view s t) ((w.put x srv).view s t) := by
  have hview : (w.put x srv).view s t =
      ⟨update w.server x srv s, update w.server x srv t, w.InFlight s t, w.Acked s t⟩ := rfl
  rw [hview]
  by_cases hs : x = s
  · rw [hs, update_self, update_of_ne hst.symm]
    exact hsrc hs
  by_cases ht : x = t
  · rw [ht, update_self, update_of_ne hst]
    exact hdst ht
  · rw [update_of_ne (Ne.symm hs), update_of_ne (Ne.symm ht)]
    exact .refl

theorem moves_quiet (hst : s ≠ t)
    (hsource : x = s → SourceQuiet t (w.Acked s t) (w.server x) srv)
    (htarget : TargetQuiet (w.server x) srv) :
    Moves c s t timely (w.view s t) ((w.put x srv).view s t) :=
  moves_put hst (fun hx => .single (.source (hx ▸ hsource hx))) fun hx =>
    .single (.target (hx ▸ htarget))

/-- The lists and receipts that a pair of servers sees after a step that changes no server. -/
theorem moves_net {w' : World} (hserver : w'.server = w.server)
    (hflight : ∀ l, w'.InFlight s t l → NewFlight s t timely (w.view s t) l)
    (hacked : ∀ id, w'.Acked s t id → w.Acked s t id ∨ (w.server t).Arrived s id) :
    Moves c s t timely (w.view s t) (w'.view s t) := by
  have heq : w'.view s t =
      { ({ w.view s t with flight := w'.InFlight s t } : View) with acked := w'.Acked s t } := by
    rw [World.view, World.view, hserver]
  rw [heq]
  exact .tail (.single (.flights hflight)) (.acks hacked)

variable {l : List Message} {wire : Wire}

theorem inFlight_sendOut (h : (w.sendOut wire).InFlight s t l) :
    w.InFlight s t l ∨ (∃ envelope, wire = .message s t envelope ∧ l = [envelope.message]) ∨
      ∃ result, wire = .pulled s t result ∧ l = result.messages.map (·.message) := by
  rcases h with hpass | ⟨envelope, hmem, rfl⟩ | ⟨result, hmem, rfl⟩
  · exact .inl (.inl hpass)
  · rcases mem_cons.1 hmem with rfl | hmem
    · exact .inr (.inl ⟨envelope, rfl, rfl⟩)
    · exact .inl (.inr (.inl ⟨envelope, hmem, rfl⟩))
  · rcases mem_cons.1 hmem with rfl | hmem
    · exact .inr (.inr ⟨result, rfl, rfl⟩)
    · exact .inl (.inr (.inr ⟨result, hmem, rfl⟩))

theorem acked_sendOut {id : String} (h : (w.sendOut wire).Acked s t id) :
    w.Acked s t id ∨ (∃ receipt, wire = .receipt t s receipt ∧ receipt.messageId = id) ∨
      (∃ acks, wire = .pull t s acks ∧ ∃ ack ∈ acks, ack.id = id) ∨
      ∃ result, wire = .pulled t s result ∧ ∃ ack ∈ result.acks, ack.id = id := by
  rcases h with ⟨receipt, hmem, hid⟩ | ⟨acks, hmem, hid⟩ | ⟨result, hmem, hid⟩
  · rcases mem_cons.1 hmem with rfl | hmem
    · exact .inr (.inl ⟨receipt, rfl, hid⟩)
    · exact .inl (.inl ⟨receipt, hmem, hid⟩)
  · rcases mem_cons.1 hmem with rfl | hmem
    · exact .inr (.inr (.inl ⟨acks, rfl, hid⟩))
    · exact .inl (.inr (.inl ⟨acks, hmem, hid⟩))
  · rcases mem_cons.1 hmem with rfl | hmem
    · exact .inr (.inr (.inr ⟨result, rfl, hid⟩))
    · exact .inl (.inr (.inr ⟨result, hmem, hid⟩))

/-- The lists on their way after a change of the passes. -/
theorem inFlight_passes {passes : List Pass}
    (h : World.InFlight { w with passes := passes } s t l) :
    w.InFlight s t l ∨ ∃ pass ∈ passes, pass.server = s ∧ pass.peer = t ∧
        l = pass.rest.map (·.message) :=
  h.elim .inr fun hnet => .inl (.inr hnet)

variable {i : ℕ}

theorem endPass_moves : Moves c s t timely (w.view s t) ((w.endPass i).view s t) := by
  refine moves_net rfl (fun l hl => .old ?_) fun _ hid => .inl hid
  rcases inFlight_passes hl with hl | ⟨pass, hmem, hpass⟩
  · exact hl
  · exact .inl ⟨pass, mem_of_mem_eraseIdx hmem, hpass⟩

variable {pass : Pass} {item : Item} {rest : List Item}

theorem atPass_eq_some {waiting : Bool}
    (h : w.atPass i waiting = some (pass, item, rest)) :
    pass ∈ w.passes ∧ pass.rest = item :: rest := by
  unfold World.atPass at h
  split at h
  · cases h
  next pass' hpass =>
  split at h
  · cases h
  next item' rest' hrest =>
  split at h
  · cases h
    exact ⟨mem_of_getElem? hpass, hrest⟩
  · cases h

/-! ## The events -/

variable {nowMs : ℤ} {now : ℚ}

/-- A new message is made after all that waits in its room, if the run is timely. -/
theorem send_moves (hst : s ≠ t) (hlink : Link c s t (w.view s t)) {req : SendRequest} :
    Moves c s t (Timely c s t w (.send x req now nowMs)) (w.view s t)
      ((w.step c (.send x req now nowMs)).view s t) := by
  simp only [World.step, World.commit]
  split
  · exact .refl
  next srv reply h =>
  obtain ⟨htarget, hb⟩ := sendMessage_spec h
  refine moves_put hst (fun hx => ?_) fun hx => .single (.target (hx ▸ htarget))
  subst hx
  rcases hb with rfl | ⟨peer, m, hs⟩
  · exact .refl
  by_cases hpeer : peer = t
  · subst hpeer
    refine .single (.send hs fun htimely j hj hjm => ?_)
    rcases hs.fresh with hcreated | hholds
    · obtain ⟨-, -, -, -, hroom, -⟩ := hjm
      rw [Before, hcreated]
      exact htimely rfl j m.id hj (hroom.trans hs.room) hs.id
    -- A message that the outbox holds has no number above the last one.
    obtain ⟨p, hp, hnumber⟩ := hs.chat
    have hle : p.sequence ≤ (w.server x).seqOf m.room := (hlink.bound m p (.inl hholds) hp).2
    rw [hs.room] at hle
    omega
  · refine .single
      (.source ⟨fun id item hitem => ?_, hs.sequence, fun id hid => .inl (hs.delivered t id hid)⟩)
    rcases hs.outbox _ _ _ hitem with hold | ⟨heq, -⟩
    · exact ⟨item, hold, rfl, fun hq => hq⟩
    · exact absurd heq.symm hpeer

/-- A batch is a list that comes on its way. -/
theorem claim_moves :
    Moves c s t (Timely c s t w (.claim x y now)) (w.view s t)
      ((w.step c (.claim x y now)).view s t) := by
  simp only [World.step]
  split
  · exact .refl
  next items h =>
  simp only [claimBatch, bind_eq_ok, exists_unit_eq_ok] at h
  obtain ⟨-, -, -, hbatch⟩ := h
  refine moves_net rfl (fun l hl => ?_) fun _ hid => .inl hid
  rcases inFlight_passes hl with hl | ⟨pass, hmem, hserver, hpeer, rfl⟩
  · exact .old hl
  rcases mem_append.1 hmem with hmem | hmem
  · exact .old (.inl ⟨pass, hmem, hserver, hpeer, rfl⟩)
  rw [mem_singleton.1 hmem] at hserver hpeer ⊢
  obtain rfl : x = s := hserver
  obtain rfl : y = t := hpeer
  refine .batch hbatch prefix_rfl fun htimely j k hj hstatus hk hjk => ?_
  obtain ⟨hitem, hqueued, hdue⟩ := queued_of_mem_batch hbatch hk
  rw [all_some, decide_eq_true_eq] at hdue ⊢
  exact htimely rfl rfl j k hj hstatus hitem hqueued hjk hdue

/-- The first message of a pass is on its way. -/
theorem push_moves (hst : s ≠ t) {nonce : String} (hpass : pass ∈ w.passes)
    (hrest : pass.rest = item :: rest) :
    Moves c s t timely (w.view s t) ((w.push c i pass item nonce).view s t) := by
  unfold World.push
  split
  · exact endPass_moves
  next srv h =>
  refine .trans (moves_quiet (w := w) hst (fun _ => (checkQueued_quiet h).source)
    (checkQueued_quiet (y := t) (A := fun _ => True) h).target)
      (moves_net rfl (fun l hl => ?_) fun id hid => ?_)
  · rcases inFlight_passes hl with hl | ⟨pass', hmem, hpass'⟩
    · rcases inFlight_sendOut hl with hl | ⟨envelope, hwire, rfl⟩ | ⟨result, hwire, -⟩
      · exact .old hl
      · cases hwire
        exact .head (.inl ⟨pass, hpass, rfl, rfl, by rw [hrest]; rfl⟩)
      · cases hwire
    · rcases mem_or_eq_of_mem_set hmem with hmem | rfl
      · exact .old (.inl ⟨pass', hmem, hpass'⟩)
      · exact .old (.inl ⟨pass, hpass, hpass'⟩)
  · rcases acked_sendOut hid with hid | ⟨_, hwire, -⟩ | ⟨_, hwire, -⟩ | ⟨_, hwire, -⟩
    · exact .inl hid
    all_goals cases hwire

theorem fail_moves (hst : s ≠ t) : Moves c s t timely (w.view s t)
    ((w.fail i pass item).view s t) :=
  .trans (moves_quiet hst (fun _ => failQueued_quiet.source)
    (failQueued_quiet (y := t) (A := fun _ => True)).target)
    endPass_moves

variable {receipt : MessageReceipt}

/-- A receipt says that the first message of the pass has arrived, so the rest goes on. -/
theorem acknowledge_moves (hc : c.HashNames) (hst : s ≠ t) (hlink : Link c s t (w.view s t))
    (hpass : pass ∈ w.passes) (hrest : pass.rest = item :: rest)
    (hnet : .receipt pass.peer pass.server receipt ∈ w.net) :
    Moves c s t timely (w.view s t)
        ((w.acknowledge c i pass item rest receipt nowMs).view s t) := by
  unfold World.acknowledge
  split
  · exact fail_moves hst
  next hsame =>
  have hid : receipt.messageId = item.message.id := not_not.1 (not_or.1 hsame).1
  split
  · exact endPass_moves
  next srv h =>
  have hacked : pass.server = s → pass.peer = t → w.Acked s t item.message.id :=
      fun hserver hpeer =>
    .inl ⟨receipt, hserver ▸ hpeer ▸ hnet, hid⟩
  have hmoves : Moves c s t timely (w.view s t) ((w.put pass.server srv).view s t) :=
    moves_quiet hst
    (fun hserver => (settleQueued_quiet (fun hpeer => hacked hserver hpeer.symm) h).source)
    (settleQueued_quiet (y := t) (A := fun _ => True) (fun _ => trivial) h).target
  refine .trans hmoves (moves_net rfl (fun l hl => ?_) fun _ hid => .inl hid)
  rcases inFlight_passes hl with hl | ⟨pass', hmem, hserver, hpeer, rfl⟩
  · exact .old hl
  rcases mem_or_eq_of_mem_set hmem with hmem | rfl
  · exact .old (.inl ⟨pass', hmem, hserver, hpeer, rfl⟩)
  · refine .tail (.inl ⟨pass, hpass, hserver, hpeer, ?_⟩)
      ((hlink.moves hc hmoves).acked _ (hacked hserver hpeer))
    rw [hrest]
    rfl

variable {envelopes : List Envelope}

/-- A message is received. One of the source is the first of its list that has not arrived. -/
theorem receiveLocked_move {dst : Server} {envelope : Envelope} {r : List Message}
    (hl : y = s → v.flight (l ++ envelope.message :: r) ∧ ∀ j ∈ l, v.dst.Arrived s j.id)
    (h : receiveLocked c v.dst y envelope now nowMs = .ok (dst, receipt)) :
    Move c s t timely v { v with dst := dst } := by
  rcases (receiveLocked_spec (y := t) (A := fun _ => True) h).2 with ⟨haccepts, -⟩ | ⟨hquiet, -⟩
  · by_cases hy : y = s
    · subst hy
      exact .accept (hl rfl).1 (hl rfl).2 haccepts
    · exact .acceptOther hy haccepts
  · exact .target hquiet

/-- The messages of an answer are received one after another. -/
theorem receiveAll_moves (hc : c.HashNames) {b : Server} (hlink : Link c s t v)
    (hl : y = s → v.flight (l ++ envelopes.map (·.message)) ∧ ∀ j ∈ l, v.dst.Arrived s j.id)
    (h : receiveAll c y now nowMs v.dst envelopes = .ok b) :
    Moves c s t timely v { v with dst := b } := by
  induction envelopes generalizing v l with
  | nil =>
    cases h
    exact .refl
  | cons envelope rest ih =>
    obtain ⟨⟨dst, receipt⟩, hreceive, h⟩ := bind_eq_ok.1 h
    have hmove : Move c s t timely v { v with dst := dst } := receiveLocked_move hl hreceive
    refine .trans (.single hmove)
      (ih (v := { v with dst := dst }) (l := l ++ [envelope.message]) (hlink.move hc hmove)
        (fun hy => ⟨by simpa using (hl hy).1, fun j hj => ?_⟩) h)
    subst hy
    rcases (receiveLocked_spec (y := t) (A := fun _ => True) hreceive).2 with
      ⟨haccepts, -⟩ | ⟨hquiet, x, row, hrow, hreply, hsignature⟩ <;>
        rcases mem_append.1 hj with hj | hj
    · exact haccepts.keeps _ _ ((hl rfl).2 j hj)
    · exact mem_singleton.1 hj ▸ haccepts.arrived
    · exact hquiet.arrived _ _ ((hl rfl).2 j hj)
    · exact mem_singleton.1 hj ▸ hquiet.arrived
        _ _ ((hlink.saved x row receipt hrow hreply).2 _ hsignature)

variable {A : String → Prop}

theorem receiveAll_source {a b : Server} {y : String} {peer : String}
    (h : receiveAll c peer now nowMs a envelopes = .ok b) : SourceQuiet y A a b := by
  induction envelopes generalizing a with
  | nil =>
    cases h
    exact .rfl
  | cons envelope rest ih =>
    obtain ⟨⟨dst, receipt⟩, hreceive, h⟩ := bind_eq_ok.1 h
    exact (receiveLocked_spec hreceive).1.trans (ih h)

theorem receive_moves (hst : s ≠ t) (hlink : Link c s t (w.view s t))
    {envelope : Envelope} (hnet : .message x y envelope ∈ w.net) :
    Moves c s t timely (w.view s t) ((w.commit y (receiveLocked c (w.server y) x envelope now nowMs)
      fun receipt => some (.receipt y x receipt)).view s t) := by
  simp only [World.commit]
  split
  · exact .refl
  next srv receipt h =>
  have hspec := (receiveLocked_spec (y := t) (A := w.Acked s t) h).2
  have hput : Moves c s t timely (w.view s t) ((w.put y srv).view s t) := by
    refine moves_put hst (fun hy => ?_) fun hy => ?_ <;> subst hy
    · exact .single (.source (receiveLocked_spec h).1)
    · refine .single
        (receiveLocked_move (v := w.view s y) (l := []) (r := []) (fun hx => ⟨?_, nofun⟩) h)
      exact .inr (.inl ⟨envelope, hx ▸ hnet, rfl⟩)
  refine .trans hput (moves_net rfl (fun l hl => ?_) fun id hid => ?_)
  · rcases inFlight_sendOut hl with hl | ⟨_, hwire, -⟩ | ⟨_, hwire, -⟩
    · exact .old hl
    all_goals cases hwire
  · rcases acked_sendOut hid with hid | ⟨_, hwire, rfl⟩ | ⟨_, hwire, -⟩ | ⟨_, hwire, -⟩
    · exact .inl hid
    · cases hwire
      refine .inr ?_
      rw [server_put_self]
      rcases hspec with ⟨haccepts, hreceipt⟩ | ⟨hquiet, z, row, hrow, hreply, -⟩
      · exact hreceipt ▸ haccepts.arrived
      · exact hquiet.arrived _ _ (hlink.saved z row receipt hrow hreply).1
    all_goals cases hwire

theorem pull_moves : Moves c s t timely (w.view s t) ((w.step c (.pull x y now)).view s t) := by
  simp only [World.step]
  split
  · exact .refl
  refine moves_net rfl (fun l hl => ?_) fun id hid => ?_
  · rcases inFlight_sendOut hl with hl | ⟨_, hwire, -⟩ | ⟨_, hwire, -⟩
    · exact .old hl
    all_goals cases hwire
  · rcases acked_sendOut hid with hid | ⟨_, hwire, -⟩ | ⟨_, hwire, ack, hack, rfl⟩ | ⟨_, hwire, -⟩
    · exact .inl hid
    · cases hwire
    · cases hwire
      exact .inr (arrived_of_mem_inboxAcks hack)
    · cases hwire

/-- The acknowledgements of the pull come first, then the batch that answers it. -/
theorem answer_moves (hst : s ≠ t) {acks : List FederationAck} {nonce : String → String}
    (hnet : .pull x y acks ∈ w.net) :
    Moves c s t timely (w.view s t)
      ((w.commit y (pullLocked c (w.server y) y x acks nonce now nowMs)
      fun result => some (.pulled y x result)).view s t) := by
  simp only [World.commit]
  split
  · exact .refl
  next srv result h =>
  -- The acknowledgements of the peer, if the answer is the one of the source to the target.
  have hacked : y = s → t = x → ∀ ack ∈ acks, w.Acked s t ack.id := fun hy hx ack hack =>
    .inr (.inl ⟨acks, hy ▸ hx ▸ hnet, ack, hack, rfl⟩)
  obtain ⟨harrived, a, -, hquiet, hquiet', -, -⟩ :=
    pullLocked_spec (y := t) (A := fun _ => True) (fun _ _ _ => trivial) h
  have hnew : ∀ id, ((w.put y srv).sendOut (.pulled y x result)).Acked s t id →
      w.Acked s t id ∨ ((w.put y srv).server t).Arrived s id := fun id hid => by
    rcases acked_sendOut hid with hid | ⟨_, hwire, -⟩ | ⟨_, hwire, -⟩ | ⟨_, hwire, ack, hack, rfl⟩
    · exact .inl hid
    · cases hwire
    · cases hwire
    · cases hwire
      refine .inr ?_
      rw [server_put_self]
      exact harrived ack hack
  by_cases hpair : y = s ∧ x = t
  · obtain ⟨rfl, rfl⟩ := hpair
    obtain ⟨-, a, items, hsource, hsource', hbatch, hl⟩ :=
      pullLocked_spec (fun hx => hacked rfl hx) h
    have heq : ((w.put y srv).sendOut (.pulled y x result)).view y x =
        ⟨srv, w.server x, ((w.put y srv).sendOut (.pulled y x result)).InFlight y x,
          ((w.put y srv).sendOut (.pulled y x result)).Acked y x⟩ := by
      simp [World.view, World.sendOut, World.put, update_of_ne hst.symm]
    have hflight : ∀ l, ((w.put y srv).sendOut (.pulled y x result)).InFlight y x l →
        NewFlight y x timely { w.view y x with src := a } l := fun l hl' => by
      rcases inFlight_sendOut hl' with hl' | ⟨_, hwire, -⟩ | ⟨_, hwire, rfl⟩
      · exact .old hl'
      · cases hwire
      · cases hwire
        exact .batch hbatch hl fun _ _ _ _ _ _ _ => rfl
    rw [heq]
    refine .trans (.single (.source hsource.source)) (.trans (.single (.flights hflight))
      (.trans (.single (.source hsource'.source)) (.single (.acks fun id hid => ?_))))
    refine (hnew id hid).imp_right fun h => ?_
    rwa [server_put_of_ne hst.symm] at h
  · refine .trans (moves_quiet hst (fun hy => ?_) (hquiet.trans hquiet').target)
      (moves_net rfl (fun l hl => ?_) hnew)
    · obtain ⟨-, a, items, hsource, hsource', -, -⟩ := pullLocked_spec (fun hx => hacked hy hx) h
      exact (hsource.trans hsource').source
    · rcases inFlight_sendOut hl with hl | ⟨_, hwire, -⟩ | ⟨_, hwire, -⟩
      · exact .old hl
      · cases hwire
      · cases hwire
        exact absurd ⟨rfl, rfl⟩ hpair

/-- An answer is applied: its acknowledgements first, then its messages. -/
theorem reconcile_spec {a b : Server} {y peer : String} {response : PullResult}
    (hA : y = peer → ∀ ack ∈ response.acks, A ack.id)
    (h : reconcile c a peer response now nowMs = .ok b) :
    ∃ d, Quiet y A a d ∧ receiveAll c peer now nowMs d response.messages = .ok b := by
  simp only [reconcile, bind_eq_ok, ensure_eq_ok, exists_const, exists_unit_eq_ok] at h
  obtain ⟨-, snap, -, -, ⟨d, known⟩, hacks, h⟩ := h
  exact ⟨_, (acknowledgeAll_quiet hA hacks).trans
    (foldl_quiet (fun s ack => confirm_quiet (a := s)) _), h⟩

theorem reconcile_moves (hc : c.HashNames) (hst : s ≠ t) (hlink : Link c s t (w.view s t))
    {result : PullResult} (hnet : .pulled y x result ∈ w.net) :
    Moves c s t timely (w.view s t)
      ((w.commit x ((·, ()) <$> reconcile c (w.server x) y result now nowMs)
      fun _ => none).view s t) := by
  cases h : reconcile c (w.server x) y result now nowMs with
  | error e => exact .refl
  | ok srv =>
    refine moves_put (w := w) hst (fun hx => ?_) fun hx => ?_
    · subst hx
      obtain ⟨d, hquiet, hreceive⟩ := reconcile_spec (y := t) (A := w.Acked x t)
        (fun hy ack hack => .inr (.inr ⟨result, hy ▸ hnet, ack, hack, rfl⟩)) h
      exact .single (.source (hquiet.source.trans (receiveAll_source hreceive)))
    · subst hx
      obtain ⟨d, hquiet, hreceive⟩ :=
        reconcile_spec (y := y) (A := fun _ => True) (fun _ _ _ => trivial) h
      have htarget : Move c s x timely (w.view s x) { w.view s x with dst := d } :=
        .target hquiet.target
      exact .trans (.single htarget)
        (receiveAll_moves (v := { w.view s x with dst := d }) (l := []) hc (hlink.move hc htarget)
          (fun hy => ⟨.inr (.inr ⟨result, hy ▸ hnet, rfl⟩), nofun⟩) hreceive)

/-- Every step of a run is a sequence of moves. -/
theorem step_moves (hc : c.HashNames) (hst : s ≠ t) (hlink : Link c s t (w.view s t))
    (event : Event) :
    Moves c s t (Timely c s t w event) (w.view s t) ((w.step c event).view s t) := by
  cases event with
  | send x req now nowMs => exact send_moves hst hlink
  | claim x y now => exact claim_moves
  | push i nonce =>
    simp only [World.step]
    split
    · exact .refl
    · next pass item rest h => exact push_moves hst (atPass_eq_some h).1 (atPass_eq_some h).2
  | receipt i receipt nowMs =>
    simp only [World.step]
    split
    · exact .refl
    · next pass item rest h =>
      split
      · next hnet =>
        exact acknowledge_moves hc hst hlink (atPass_eq_some h).1 (atPass_eq_some h).2 hnet
      · exact .refl
  | fail i =>
    simp only [World.step]
    split
    · exact .refl
    · exact fail_moves hst
  | stop i => exact endPass_moves
  | receive x y envelope now nowMs =>
    simp only [World.step]
    split
    · next hnet => exact receive_moves hst hlink hnet
    · exact .refl
  | pull x y now => exact pull_moves
  | answer x y acks nonce now nowMs =>
    simp only [World.step]
    split
    · next hnet => exact answer_moves hst hnet
    · exact .refl
  | reconcile x y result now nowMs =>
    simp only [World.step]
    split
    · next hnet => exact reconcile_moves hc hst hlink hnet
    · exact .refl
  | gc x nowMs =>
    exact moves_quiet hst (fun _ => gc_quiet.source) (gc_quiet (y := t) (A := fun _ => True)).target

/-! ## Runs -/

/-- Two servers at the start of a run. Their room may have seen messages before, all of them
acknowledged. -/
structure Start (c : Crates) (w : World) (s t : String) : Prop where
  passes : w.passes = []
  net : w.net = []
  outbox : ∀ m p, (w.server s).Holds t m → m.payload ≠ .chatMessage p
  remote : ∀ r n, ((w.server t).rooms[r]?).map Room.remote = some (s, n) → n ≤ (w.server s).seqOf r
  saved : ∀ x (row : StoredResult Reply) r,
    (w.server t).results.rows[identityText "federation-inbox" [s] x []]? = some row →
      row.reply = .receipt r →
      (w.server t).Arrived s r.messageId ∧ ∀ m, row.signature = hashOf c s m →
        (w.server t).Arrived s m.id
  delivered : ∀ id, (w.server s).Delivered t id → (w.server t).Arrived s id
  accepted : (w.server t).accepted = []

theorem Start.flight (h : Start c w s t) (l : List Message) : ¬ w.InFlight s t l := by
  rintro (⟨_, hmem, -⟩ | ⟨_, hmem, -⟩ | ⟨_, hmem, -⟩)
  · rw [h.passes] at hmem
    cases hmem
  all_goals
    rw [h.net] at hmem
    cases hmem

theorem Start.link (h : Start c w s t) : Link c s t (w.view s t) := by
  have hcarried : ∀ m p, (w.view s t).Carried t m → m.payload ≠ .chatMessage p := by
    rintro m p (hm | ⟨l, hl, -⟩)
    · exact h.outbox m p hm
    · exact absurd hl (h.flight l)
  refine ⟨fun m p hm hp => absurd hp (hcarried m p hm), fun m _ p _ hm _ hp =>
    absurd hp (hcarried m p hm), h.remote, h.saved, ?_, h.delivered, ?_⟩
  · rintro id (⟨_, hmem, -⟩ | ⟨_, hmem, -⟩ | ⟨_, hmem, -⟩)
    all_goals
      rw [h.net] at hmem
      cases hmem
  · have hnone : (w.view s t).dst.accepted = [] := h.accepted
    exact ⟨fun r => by simp [hnone], by simp [hnone], by simp [hnone], by simp [hnone]⟩

theorem Start.prompt (h : Start c w s t) : Prompt s t (w.view s t) := by
  refine ⟨?_, fun l hl => absurd hl (h.flight l), fun m p _ hm hp =>
    absurd hp (h.outbox m p hm.1.holds)⟩
  rintro j k hj - ⟨p, -, hp, -⟩
  exact absurd hp (h.outbox j p hj.holds)

/-- By induction on the events, whether the run is timely or not. -/
theorem link_run (hc : c.HashNames) (hst : s ≠ t) (h : Link c s t (w.view s t))
    (events : List Event) :
    Link c s t ((w.run c events).view s t) := by
  induction events generalizing w with
  | nil => exact h
  | cons event events ih => exact ih (h.moves hc (step_moves hc hst h event))

theorem prompt_run (hc : c.HashNames) (hst : s ≠ t) (hlink : Link c s t (w.view s t))
    (h : Prompt s t (w.view s t)) {events : List Event}
    (htimely : Along (World.step c) (Timely c s t) w events) :
    Prompt s t ((w.run c events).view s t) :=
  (htimely.invariant (I := fun w => Link c s t (w.view s t) ∧ Prompt s t (w.view s t)) ⟨hlink, h⟩
    fun w event ⟨hlink, h⟩ hevent => by
      have hmoves := step_moves hc hst hlink event
      exact ⟨hlink.moves hc hmoves, h.moves hc hlink hevent hmoves⟩).2

/-- In every run, the other server accepts each chat message at most once and the messages of a room
with rising numbers, and a message that is marked as delivered is in its inbox. If the run is
timely, a queued message that has not arrived has a number above the last accepted one of its room.
-/
theorem run_delivers (hc : c.HashNames) (hst : s ≠ t) (hstart : Start c w s t)
    (events : List Event) :
    (((w.run c events).server t).accepted.map fun e => (e.1, e.2.1.id)).Nodup ∧
      (∀ r, ((((w.run c events).server t).accepted.filter fun e => e.2.1.room = r).map
        fun e => e.2.2.sequence).Pairwise (· < ·)) ∧
      (∀ id, ((w.run c events).server s).Delivered t id →
        ((w.run c events).server t).Arrived s id) ∧
      (Along (World.step c) (Timely c s t) w events →
        ∀ m p room, ((w.run c events).server s).Queued t m →
          ¬ ((w.run c events).server t).Arrived s m.id →
          m.payload = .chatMessage p → ((w.run c events).server t).rooms[m.room]? = some room →
            room.peerId = s →
            room.remoteSequence < p.sequence) := by
  have hlink := link_run hc hst hstart.link events
  refine ⟨hlink.orderly.ids, hlink.orderly.numbers, hlink.delivered,
    fun htimely m p room hm harrived hp hroom hpeer => ?_⟩
  refine (prompt_run hc hst hstart.link hstart.prompt htimely).above m p _ ⟨hm, harrived⟩ hp ?_
  simp only [World.view]
  rw [hroom, map_some, Room.remote, hpeer]

/-! ## A message that is passed over -/

namespace Example

/-- A UUIDv7 that was issued in the first millisecond. -/
def uuid (n : ℕ) : BitVec 128 := BitVec.ofNat 128 (2 ^ 80 + 7 * 2 ^ 76 + 2 * 2 ^ 62 + n)

def crates : Crates where
  uuid := { parseStr := fun s => if s.length ≤ 2 then some (uuid s.length) else none,
            text := fun u => if u = uuid 1 then "1" else "2" }
  newV5 _ key := some ("message-" ++ key)
  sha256Hex text := text
  envelopeHash _ id _ _ _ := id
  sendSignature _ _ text _ := text
  encodedLen _ := 1
  recordLen _ := 1

def room (peerId : String) (localMember : Participant) (remoteMember : Participant) : Room where
  peerId := peerId
  peerLabel := peerId
  name := "room"
  status := .approved
  localMembers := [localMember.id]
  localParticipants := [localMember]
  remoteMembers := [remoteMember]
  localApproved := true
  remoteApproved := true
  shareNames := true
  shareStatus := false
  created := 0
  updated := 0
  sequence := 0
  remoteSequence := 0

def server (peer : String) (localMember remoteMember : Participant) : Server where
  enabled := true
  peers := (∅ : BTreeMap Peer).insert peer ⟨peer, peer, .approved, true, true⟩
  rooms := (∅ : BTreeMap Room).insert "room" (room peer localMember remoteMember)
  outbox := ∅
  inbox := ∅
  chats := ∅
  agents := (∅ : BTreeMap Agent).insert localMember.id ⟨true, localMember.name, false⟩
  results := ⟨∅, 0⟩
  nonces := ∅
  accepted := []

def ada : Participant := ⟨"ada", "lead", some "Ada", none⟩
def bea : Participant := ⟨"bea", "lead", some "Bea", none⟩

def world : World where
  server x := if x = "a" then server "b" ada bea else server "a" bea ada
  passes := []
  net := []

def request (key text : String) : SendRequest := ⟨"ada", "room", text, key, .currentTurn⟩

def message (key text : String) (sequence : ℕ) (now : ℚ) : Message :=
  newMessage ("message-" ++ key) (request key text) text (some "Ada") sequence now

def nonce (key : String) : String := "nonce of message " ++ key

def envelope (key text : String) (sequence : ℕ) (now : ℚ) : Envelope :=
  outbound "a" (message key text sequence now) (asSeconds now) (nonce key)

/-- The first message is sent at second 1 and does not arrive, so that its next attempt is at second
3. The second message is sent at second 2, and arrives. -/
def events : List Event :=
  [.send "a" (request "x" "first") 1 1, .claim "a" "b" 1, .push 0 (nonce "x"), .fail 0,
    .send "a" (request "xy" "second") 2 1, .claim "a" "b" 2, .push 0 (nonce "xy"),
    .receive "a" "b" (envelope "xy" "second" 2 2) 2 1]

def final : World := world.run crates events

/-- Two messages are sent, the request with the first one is lost, and the next pass sends both: the
first one arrives and its receipt too. -/
def retries : List Event :=
  [.send "a" (request "x" "first") 1 1, .send "a" (request "xy" "second") 2 1, .claim "a" "b" 2,
    .push 0 (nonce "x"), .fail 0, .claim "a" "b" 4, .push 0 (nonce "again"),
    .receive "a" "b" (outbound "a" (message "x" "first" 1 1) 4 (nonce "again")) 4 1,
    .receipt 0 ⟨"message-x", true, "room", some 1⟩ 1, .push 0 (nonce "xy")]

def retried : World := world.run crates retries

end Example

theorem hashNames_crates : Example.crates.HashNames := fun _ _ _ h => h

theorem start_world : Start Example.crates Example.world "a" "b" where
  passes := rfl
  net := rfl
  outbox m p := by
    rintro ⟨item, hitem, -⟩
    simp [Example.world, Example.server] at hitem
  remote r n h := by
    obtain ⟨room, hroom, heq⟩ := map_eq_some_iff.1 h
    have hserver : Example.world.server "b" = Example.server "a" Example.bea Example.ada := by
      simp [Example.world]
    rw [hserver, Example.server, getElem?_insert] at hroom
    split at hroom
    · cases hroom
      cases heq
      exact Nat.zero_le _
    · simp at hroom
  saved x row r h := by
    simp [Example.world, Example.server] at h
  delivered id := by
    rintro ⟨row, hrow, -⟩
    simp [Example.world, Example.server] at hrow
  accepted := rfl

theorem timely_send {req : SendRequest} {now : ℚ} {nowMs : ℤ}
    (h : ∀ e ∈ (w.server s).outbox.toList, e.2.message.created < now) :
    Timely c s t w (.send s req now nowMs) := by
  rintro - m id ⟨item, hitem, rfl, -⟩ - -
  exact .inl (h _ (Std.ExtTreeMap.mem_toList_iff_getElem?_eq_some.2 hitem))

theorem timely_claim {now : ℚ} (h : ∀ e ∈ (w.server s).outbox.toList, e.2.nextAt ≤ now) :
    Timely c s t w (.claim s t now) := fun _ _ _ _ hj _ _ _ _ _ =>
  h _ (Std.ExtTreeMap.mem_toList_iff_getElem?_eq_some.2 hj)

/-- The first message is delivered at its second attempt, and the second one, which is on its way,
has a number above that of the first. -/
theorem run_delivers_retried :
    (Example.retried.server "a").Delivered "b" "message-x" ∧
      (Example.retried.server "b").Arrived "a" "message-x" ∧
      (Example.retried.server "a").Queued "b" (Example.message "xy" "second" 2 2) ∧
      ∃ room, (Example.retried.server "b").rooms["room"]? = some room ∧
        room.remoteSequence < 2 := by
  have hdelivered : (Example.retried.server "a").Delivered "b" "message-x" := by
    have hfacts : ((Example.retried.server "a").chats["message-x"]?).map
        (fun row => row.deliveries["remote:b"]?) = some (some .delivered) := by decide +kernel
    obtain ⟨row, hrow, heq⟩ := map_eq_some_iff.1 hfacts
    exact ⟨row, hrow, heq⟩
  have hqueued : (Example.retried.server "a").Queued "b" (Example.message "xy" "second" 2 2) := by
    have hfacts : ((Example.retried.server "a").outbox[("b", "message-xy")]?).map
        (fun item => (item.message, item.status)) =
          some (Example.message "xy" "second" 2 2, .queued) := by decide +kernel
    obtain ⟨item, hitem, heq⟩ := map_eq_some_iff.1 hfacts
    obtain ⟨hmessage, hstatus⟩ := Prod.mk.inj heq
    exact ⟨item, hitem, hmessage, hstatus⟩
  have hroom : ((Example.retried.server "b").rooms["room"]?).map (·.peerId) = some "a" := by
    decide +kernel
  obtain ⟨room, hroom, hpeer⟩ := map_eq_some_iff.1 hroom
  have htimely : Along (World.step Example.crates) (Timely Example.crates "a" "b") Example.world
      Example.retries :=
    ⟨timely_send (by decide +kernel), timely_send (by decide +kernel),
      timely_claim (by decide +kernel), trivial, trivial, timely_claim (by decide +kernel), trivial,
      trivial, trivial, trivial, trivial⟩
  obtain ⟨-, -, harrived, habove⟩ :=
    run_delivers hashNames_crates (by decide) start_world Example.retries
  exact ⟨hdelivered, harrived _ hdelivered, hqueued, room, hroom,
    habove htimely _ _ room hqueued (by decide +kernel) rfl hroom hpeer⟩

/-- The first message is still queued and has not arrived, but the room has accepted number 2, so
that the first message is refused at its next attempt. -/
theorem passed_over : Start Example.crates Example.world "a" "b" ∧
      (Example.final.server "a").Queued "b" (Example.message "x" "first" 1 1) ∧
      ¬ (Example.final.server "b").Arrived "a" "message-x" ∧
      ((Example.final.server "b").rooms["room"]?).map Room.remote = some ("a", 2) ∧
      (receiveLocked Example.crates (Example.final.server "b") "a"
        (Example.envelope "x" "first" 1 1) 3 1).map (fun _ => ()) =
          .error (.invalid "payload.sequence") := by
  have hqueued : ((Example.final.server "a").outbox[("b", "message-x")]?).map
      (fun item => (item.message, item.status)) =
          some (Example.message "x" "first" 1 1, .queued) := by
    decide +kernel
  obtain ⟨item, hitem, heq⟩ := map_eq_some_iff.1 hqueued
  obtain ⟨hmessage, hstatus⟩ := Prod.mk.inj heq
  exact ⟨start_world, ⟨item, hitem, hmessage, hstatus⟩, by decide +kernel⟩

end Layr.Federation
