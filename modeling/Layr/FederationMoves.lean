import Layr.FederationQuiet
import Layr.FederationRun
import Layr.Lib.Runs

/-!
# Delivery from one server to another

`View` is what a run is about for the messages of one server to another: both servers, the lists of
messages that are on their way (`flight`), and the messages whose receipt is on its way back
(`acked`). `Move` says what one transaction can do to a view. Two invariants hold of a view. `Link`
always holds: nothing is marked as delivered that did not arrive, and messages are accepted in the
order of their numbers. `Prompt` says that nothing is passed over: no list on its way holds a
message behind one that still waits and is not in the list before it.
-/

namespace Layr.Federation

open Requests Tables Maps InOrder List

/-! ## Order of messages -/

/-- Both are chat messages of one room, and the first has the smaller number. -/
def Precedes (j k : Message) : Prop :=
  ∃ p q, j.payload = .chatMessage p ∧ k.payload = .chatMessage q ∧ j.room = k.room ∧
    p.sequence < q.sequence

def Before (j k : Message) : Prop := j.created < k.created ∨ j.created = k.created ∧ j.id < k.id

theorem batchLe_iff {x y : ℚ × String} : batchLe x y ↔ toLex x ≤ toLex y :=
  Prod.Lex.toLex_le_toLex.symm

theorem Before.not_batchLe {j k : Message} (h : Before j k) :
    ¬ batchLe (k.created, k.id) (j.created, j.id) := by
  rw [batchLe_iff, not_le]
  exact Prod.Lex.toLex_lt_toLex.2 h

theorem Before.ne {j k : Message} (h : Before j k) : j ≠ k := by
  rintro rfl
  exact h.not_batchLe (.inr ⟨rfl, le_rfl⟩)

/-! ## Views -/

structure View where
  src : Server
  dst : Server
  flight : List Message → Prop
  acked : String → Prop

/-- A message of the outbox, or one that is on its way. -/
def View.Carried (v : View) (t : String) (m : Message) : Prop :=
  v.src.Holds t m ∨ ∃ l, v.flight l ∧ m ∈ l

def View.Waiting (v : View) (s t : String) (m : Message) : Prop :=
  v.src.Queued t m ∧ ¬ v.dst.Arrived s m.id

/-- A list of messages that comes on its way. In a timely run, a due message of a batch has no
smaller number before it that is not due. -/
inductive NewFlight (s t : String) (timely : Prop) (v : View) : List Message → Prop where
  | old {l : List Message} (h : v.flight l) : NewFlight s t timely v l
  | head {k : Message} {l : List Message} (h : v.flight (k :: l)) : NewFlight s t timely v [k]
  | tail {k : Message} {l : List Message} (h : v.flight (k :: l))
      (harrived : v.dst.Arrived s k.id) :
    NewFlight s t timely v l
  | batch {now : Option ℚ} {items : List Item} {l : List Message}
      (h : outboxBatch v.src t now = .ok items)
    (hl : l <+: items.map (·.message))
    (ht : timely → ∀ j k : Item, v.src.outbox[(t, j.message.id)]? = some j → j.status = .queued →
      k ∈ items → Precedes j.message k.message → now.all (j.nextAt ≤ ·)) :
    NewFlight s t timely v l

inductive Move (c : Crates) (s t : String) (timely : Prop) (v : View) : View → Prop where
  | source {src' : Server} (h : SourceQuiet t v.acked v.src src') :
      Move c s t timely v { v with src := src' }
  | target {dst' : Server} (h : TargetQuiet v.dst dst') : Move c s t timely v { v with dst := dst' }
  | send {src' : Server} {req : SendRequest} {now : ℚ} {m : Message}
      (h : Sends c s req now t m v.src src')
    (ht : timely → ∀ j, v.src.Queued t j → Precedes j m → Before j m) :
      Move c s t timely v { v with src := src' }
  | accept {dst' : Server} {m : Message} {l₁ l₂ : List Message} (hl : v.flight (l₁ ++ m :: l₂))
    (harrived : ∀ j ∈ l₁, v.dst.Arrived s j.id) (h : Accepts c s m v.dst dst') :
      Move c s t timely v { v with dst := dst' }
  | acceptOther {dst' : Server} {y : String} {m : Message} (hy : y ≠ s)
      (h : Accepts c y m v.dst dst') :
    Move c s t timely v { v with dst := dst' }
  | flights {flight' : List Message → Prop} (h : ∀ l, flight' l → NewFlight s t timely v l) :
    Move c s t timely v { v with flight := flight' }
  | acks {acked' : String → Prop} (h : ∀ id, acked' id → v.acked id ∨ v.dst.Arrived s id) :
    Move c s t timely v { v with acked := acked' }

/-! ## Batches -/

theorem pairwise_batch {α : Type} (f : α → ℚ × String) (l : List α) :
    (l.insertionSort fun x y => batchLe (f x) (f y)).Pairwise fun x y => batchLe (f x) (f y) := by
  simp only [batchLe_iff]
  have : Std.Total fun x y => toLex (f x) ≤ toLex (f y) := ⟨fun _ _ => le_total _ _⟩
  have : IsTrans α fun x y => toLex (f x) ≤ toLex (f y) := ⟨fun _ _ _ => le_trans⟩
  exact pairwise_insertionSort _ l

theorem checkedItem_eq_ok {row : String × Item} {item : Item} :
    checkedItem row = .ok item ↔ row.2 = item ∧ row.2.message.id = row.1 := by
  unfold checkedItem
  split
  · next h => simp [h]
  · next h => simp [h]

variable {a : Server} {now : Option ℚ} {items : List Item}

/-- A batch is the front of the due rows in their order. -/
theorem outboxBatch_eq_ok {peer : String} (h : outboxBatch a peer now = .ok items) :
    ∃ rows : List (String × Item),
      (rows.Pairwise fun x y => batchLe (x.2.message.created, x.1) (y.2.message.created, y.1)) ∧
      (∀ id item, (id, item) ∈ rows ↔
        a.outbox[(peer, id)]? = some item ∧ item.status = .queued ∧ now.all (item.nextAt ≤ ·)) ∧
      items = (rows.take maxBatch).map (·.2) ∧ ∀ row ∈ rows.take maxBatch,
        row.2.message.id = row.1 := by
  have hchecked := mapM_eq_ok.1 h
  simp only [checkedItem_eq_ok] at hchecked
  refine ⟨_, pairwise_batch (fun x : String × Item => (x.2.message.created, x.1))
    (dueRows a peer now), fun id item => ?_, ?_, fun row hrow => ?_⟩
  · rw [mem_insertionSort, dueRows, mem_select]
    constructor
    · rintro ⟨⟨p, id'⟩, item', hitem, hselect⟩
      split at hselect
      · next hcond =>
        obtain ⟨rfl, rfl⟩ := Prod.mk.inj (some.inj hselect)
        obtain ⟨rfl, hstatus, hdue⟩ := hcond
        exact ⟨hitem, hstatus, hdue⟩
      · cases hselect
    · rintro ⟨hitem, hstatus, hdue⟩
      exact ⟨(peer, id), item, hitem, if_pos ⟨rfl, hstatus, hdue⟩⟩
  · have heq := hchecked.imp fun _ _ h => h.1
    rw [← forall₂_map_left_iff (f := fun x : String × Item => x.2), forall₂_eq_eq_eq] at heq
    exact heq.symm
  · obtain ⟨item, hitem⟩ := exists_mapM_eq_ok.1 ⟨items, h⟩ row hrow
    exact (checkedItem_eq_ok.1 hitem).2

theorem queued_of_mem_batch {peer : String} {item : Item}
    (h : outboxBatch a peer now = .ok items) (hmem : item ∈ items) :
    a.outbox[(peer, item.message.id)]? = some item ∧ item.status = .queued ∧
      now.all (item.nextAt ≤ ·) := by
  obtain ⟨rows, -, hrows, rfl, hids⟩ := outboxBatch_eq_ok h
  obtain ⟨⟨id, item⟩, hrow, rfl⟩ := mem_map.1 hmem
  obtain rfl : item.message.id = id := hids _ hrow
  exact (hrows _ _).1 (mem_of_mem_take hrow)

/-- A batch passes nothing over, if the numbers of the queued messages agree with the order of
batches. -/
theorem complete_batch {peer : String} (h : outboxBatch a peer now = .ok items)
    (horder : ∀ j k, a.Queued peer j → a.Queued peer k → Precedes j k → Before j k)
    (hdue : ∀ j k : Item, a.outbox[(peer, j.message.id)]? = some j → j.status = .queued →
      k ∈ items →
      Precedes j.message k.message → now.all (j.nextAt ≤ ·)) :
    Complete (a.Queued peer) Precedes (items.map (·.message)) := by
  have hmem := fun item (hitem : item ∈ items) => queued_of_mem_batch h hitem
  obtain ⟨rows, hsorted, hrows, rfl, hids⟩ := outboxBatch_eq_ok h
  -- Rows of queued messages that are due; each of them stands in the sorted list.
  set V : String × Item → Prop := fun row => row ∈ rows ∧ row.2.message.id = row.1 ∧
    a.Queued peer row.2.message
  set q : String × Item → String × Item → Prop := fun x y =>
    Precedes x.2.message y.2.message ∧ a.Queued peer y.2.message ∧ y.2.message.id = y.1
  have hcomplete : Complete V q rows := complete_of_pairwise hsorted fun k hk j hj hjk => by
    have hbefore := horder _ _ hj.2.2 hjk.2.1 hjk.1
    have hnot := hbefore.not_batchLe
    rw [hj.2.1, hjk.2.2] at hnot
    exact ⟨hj.1, hnot, fun heq => hbefore.ne (by rw [heq])⟩
  rw [map_map]
  have hpre : rows.take maxBatch <+: rows := take_prefix maxBatch rows
  refine (hcomplete.of_isPrefix hpre).map fun k hk j hj hjk => ?_
  obtain ⟨item, hitem, rfl, hstatus⟩ := hj
  have hk' := mem_map_of_mem (f := fun x : String × Item => x.2) hk
  have hkq : a.Queued peer k.2.message := ⟨k.2, (hmem _ hk').1, rfl, (hmem _ hk').2.1⟩
  exact ⟨(item.message.id, item), rfl,
    ⟨(hrows _ _).2 ⟨hitem, hstatus, hdue item k.2 hitem hstatus hk' hjk⟩, rfl, item, hitem, rfl,
      hstatus⟩,
    hjk, hkq, hids _ hk⟩

/-! ## What always holds -/

/-- The accepted messages of a server: in each room their numbers rise up to that of the room, and
each message is there once. -/
structure Orderly (c : Crates) (dst : Server) : Prop where
  numbers : ∀ r,
    ((dst.accepted.filter fun e => e.2.1.room = r).map fun e => e.2.2.sequence).Pairwise (· < ·)
  last : ∀ e ∈ dst.accepted, ∃ y n, (dst.rooms[e.2.1.room]?).map Room.remote = some (y, n) ∧
    e.2.2.sequence ≤ n
  ids : (dst.accepted.map fun e => (e.1, e.2.1.id)).Nodup
  chats : ∀ e ∈ dst.accepted, (dst.chats[chatId c e.1 e.2.1.id]?).isSome

/-- The messages from one server to another, as far as their numbers and their receipts go. -/
structure Link (c : Crates) (s t : String) (v : View) : Prop where
  bound : ∀ m p, v.Carried t m → m.payload = .chatMessage p → 0 < p.sequence ∧
    p.sequence ≤ v.src.seqOf m.room
  unique : ∀ m m' p p', v.Carried t m → v.Carried t m' → m.payload = .chatMessage p →
    m'.payload = .chatMessage p' →
    m.room = m'.room → p.sequence = p'.sequence → m.id = m'.id
  remote : ∀ r n, (v.dst.rooms[r]?).map Room.remote = some (s, n) → n ≤ v.src.seqOf r
  saved : ∀ x (row : StoredResult Reply) r,
    v.dst.results.rows[identityText "federation-inbox" [s] x []]? = some row →
    row.reply = .receipt r → v.dst.Arrived s r.messageId ∧ ∀ m, row.signature = hashOf c s m →
      v.dst.Arrived s m.id
  acked : ∀ id, v.acked id → v.dst.Arrived s id
  delivered : ∀ id, v.src.Delivered t id → v.dst.Arrived s id
  orderly : Orderly c v.dst

def Crates.HashNames (c : Crates) : Prop :=
  ∀ s m m', hashOf c s m = hashOf c s m' → m.id = m'.id

section
variable {c : Crates} {s t : String} {timely : Prop} {v v' : View} {b : Server}

theorem Orderly.quiet (h : Orderly c a) (hq : TargetQuiet a b) : Orderly c b where
  numbers := hq.accepted ▸ h.numbers
  last e he := by
    rw [hq.remote]
    exact h.last e (hq.accepted ▸ he)
  ids := hq.accepted ▸ h.ids
  chats e he := hq.chats _ (h.chats e (hq.accepted ▸ he))

variable {m : Message} {y z : String} {n : ℕ}

/-- The accepted number of a room does not fall. -/
theorem RoomStep.le {o o' : Option (String × ℕ)} (h : RoomStep y m o o')
    (ho : o = some (z, n)) : ∃ n', o' = some (z, n') ∧ n ≤ n' := by
  cases h with
  | kept =>
    cases ho
    exact ⟨_, rfl, le_rfl⟩
  | created => cases ho
  | counted hp hlt =>
    cases ho
    exact ⟨_, rfl, hlt.le⟩

theorem RoomStep.peer {o : Option (String × ℕ)} (h : RoomStep y m o (some (z, n))) : z = y := by
  cases h <;> rfl

theorem Accepts.last (h : Accepts c y m a b) {r : String}
    (hr : (a.rooms[r]?).map Room.remote = some (z, n)) :
    ∃ n', (b.rooms[r]?).map Room.remote = some (z, n') ∧ n ≤ n' := by
  by_cases hroom : r = m.room
  · subst hroom
    exact h.room.le hr
  · exact ⟨n, by rw [h.others r hroom, hr], le_rfl⟩

/-- The new number passes the last one of its room, and no chat row is the message. -/
theorem Orderly.accept (h : Orderly c a) (hm : Accepts c y m a b) : Orderly c b := by
  have hlast : ∀ e ∈ a.accepted, ∃ y n, (b.rooms[e.2.1.room]?).map Room.remote = some (y, n) ∧
      e.2.2.sequence ≤ n :=
    fun e he => by
      obtain ⟨z, n, hroom, hle⟩ := h.last e he
      obtain ⟨n', hroom', hle'⟩ := hm.last hroom
      exact ⟨z, n', hroom', hle.trans hle'⟩
  by_cases hchat : ∃ p, m.payload = .chatMessage p
  · obtain ⟨p, hp⟩ := hchat
    have haccepted : b.accepted = a.accepted ++ [(y, m, p)] := by rw [hm.accepted, remember, hp]
    obtain ⟨n, hold, hnew, hlt⟩ : ∃ n, (a.rooms[m.room]?).map Room.remote = some (y, n) ∧
        (b.rooms[m.room]?).map Room.remote = some (y, p.sequence) ∧ n < p.sequence := by
      have hstep := hm.room
      generalize (a.rooms[m.room]?).map Room.remote = o, (b.rooms[m.room]?).map Room.remote =
        o' at hstep
      cases hstep with
      | kept hnot | created hnot => exact absurd hp (hnot p)
      | counted hp' hlt =>
        cases hp.symm.trans hp'
        exact ⟨_, rfl, rfl, hlt⟩
    have hfresh := hm.chat p hp
    refine ⟨fun r => ?_, fun e he => ?_, ?_, fun e he => ?_⟩
    · rw [haccepted, filter_append, map_append, pairwise_append]
      refine ⟨h.numbers r, ?_, fun x hx x' hx' => ?_⟩
      · by_cases hr : m.room = r <;> simp [hr]
      · -- An earlier number of the room is not above the last one, which the new number passes.
        by_cases hr : m.room = r
        · obtain ⟨e, he, rfl⟩ := mem_map.1 hx
          obtain ⟨he, her⟩ := mem_filter.1 he
          obtain rfl : x' = p.sequence := by simpa [hr] using hx'
          obtain ⟨z, k, hroom, hle⟩ := h.last e he
          rw [of_decide_eq_true her, ← hr, hold] at hroom
          cases hroom
          exact hle.trans_lt hlt
        · simp [hr] at hx'
    · rw [haccepted] at he
      rcases mem_append.1 he with he | he
      · exact hlast e he
      · rw [mem_singleton.1 he]
        exact ⟨y, _, hnew, le_rfl⟩
    · rw [haccepted, map_append, map_singleton, nodup_append]
      refine ⟨h.ids, nodup_singleton _, fun x hx x' hx' heq => ?_⟩
      obtain ⟨e, he, rfl⟩ := mem_map.1 hx
      obtain ⟨hy, hid⟩ := Prod.mk.inj (heq.trans (mem_singleton.1 hx'))
      have hsome := h.chats e he
      rw [hy, hid, hfresh.1] at hsome
      cases hsome
    · rw [haccepted] at he
      rcases mem_append.1 he with he | he
      · exact hm.chats _ (h.chats e he)
      · rw [mem_singleton.1 he]
        exact hfresh.2
  · have haccepted : b.accepted = a.accepted := by
      rw [hm.accepted, remember]
      split
      · next p hp => exact absurd ⟨p, hp⟩ hchat
      · rfl
    exact ⟨haccepted ▸ h.numbers, fun e he => hlast e (haccepted ▸ he), haccepted ▸ h.ids,
      fun e he => hm.chats _ (h.chats e (haccepted ▸ he))⟩

variable {l : List Message}

/-- What is on its way comes from the outbox or was on its way. -/
theorem NewFlight.carried (h : NewFlight s t timely v l) (hm : m ∈ l) : v.Carried t m := by
  cases h with
  | old h => exact .inr ⟨l, h, hm⟩
  | head h => exact .inr ⟨_, h, mem_singleton.1 hm ▸ mem_cons_self⟩
  | tail h => exact .inr ⟨_, h, mem_cons_of_mem _ hm⟩
  | batch h hl =>
    obtain ⟨item, hitem, rfl⟩ := mem_map.1 (hl.subset hm)
    exact .inl ⟨item, (queued_of_mem_batch h hitem).1, rfl⟩

variable {src' : Server}

/-- The invariant depends on the source through its messages, its numbers and its marks. -/
theorem Link.of_source (h : Link c s t v)
    (hcarried : ∀ m, ({ v with src := src' } : View).Carried t m → v.Carried t m)
    (hsequence : ∀ r, v.src.seqOf r ≤ src'.seqOf r)
    (hdelivered : ∀ id, src'.Delivered t id → v.src.Delivered t id ∨ v.acked id) :
    Link c s t { v with src := src' } where
  bound m p hm hp := (h.bound m p (hcarried m hm) hp).imp_right fun hle => hle.trans (hsequence _)
  unique m m' p p' hm hm' := h.unique m m' p p' (hcarried m hm) (hcarried m' hm')
  remote r n hr := (h.remote r n hr).trans (hsequence r)
  __ := h
  delivered id hid := (hdelivered id hid).elim (h.delivered id) (h.acked id)

theorem Link.source (h : Link c s t v) (hq : SourceQuiet t v.acked v.src src') :
    Link c s t { v with src := src' } :=
  h.of_source (fun _ => Or.imp_left hq.holds) hq.sequence hq.delivered

variable {req : SendRequest} {now : ℚ}

/-- A new message has a number above all others of its room. -/
theorem Link.send (h : Link c s t v) (hs : Sends c s req now t m v.src src') :
    Link c s t { v with src := src' } := by
  obtain ⟨p, hp, hnumber⟩ := hs.chat
  have hcarried : ∀ m', ({ v with src := src' } : View).Carried t m' → v.Carried t m' ∨ m' = m := by
    rintro m' (⟨item, hitem, rfl⟩ | hflight)
    · rcases hs.outbox _ _ _ hitem with hold | ⟨-, hnew⟩
      · exact .inl (.inl ⟨item, hold, rfl⟩)
      · exact .inr hnew
    · exact .inl (.inr hflight)
  have habove : ∀ m' p', v.Carried t m' → m'.payload = .chatMessage p' → m'.room = m.room →
      p'.sequence < p.sequence :=
    fun m' p' hm' hp' hroom => by
      have := (h.bound m' p' hm' hp').2
      rw [hroom, hs.room] at this
      omega
  refine ⟨fun m' p' hm' hp' => ?_, fun m₁ m₂ p₁ p₂ hm₁ hm₂ hp₁ hp₂ hroom hsame => ?_,
    fun r n hr => ?_, h.saved, h.acked, fun id hid => h.delivered id (hs.delivered t id hid),
      h.orderly⟩
  · rcases hcarried m' hm' with hold | rfl
    · exact (h.bound m' p' hold hp').imp_right fun hle => hle.trans (hs.sequence _)
    · cases hp.symm.trans hp'
      rw [hs.room]
      exact ⟨by omega, (hnumber.trans hs.number.symm).le⟩
  · rcases hcarried m₁ hm₁ with hold₁ | rfl
    · rcases hcarried m₂ hm₂ with hold₂ | rfl
      · exact h.unique m₁ m₂ p₁ p₂ hold₁ hold₂ hp₁ hp₂ hroom hsame
      · cases hp.symm.trans hp₂
        exact absurd hsame (habove m₁ p₁ hold₁ hp₁ hroom).ne
    · rcases hcarried m₂ hm₂ with hold₂ | rfl
      · cases hp.symm.trans hp₁
        exact absurd hsame (habove m₂ p₂ hold₂ hp₂ hroom.symm).ne'
      · rfl
  · exact (h.remote r n hr).trans (hs.sequence r)

variable {dst' : Server}

theorem Link.target (h : Link c s t v) (hq : TargetQuiet v.dst dst') :
    Link c s t { v with dst := dst' } where
  __ := h
  remote r n hr := h.remote r n ((hq.remote r).symm.trans hr)
  saved x row r hrow hreply := by
    obtain ⟨hid, hhash⟩ := h.saved x row r (hq.receipts _ row r hrow hreply) hreply
    exact ⟨hq.arrived _ _ hid, fun m hm => hq.arrived _ _ (hhash m hm)⟩
  acked id hid := hq.arrived _ _ (h.acked id hid)
  delivered id hid := hq.arrived _ _ (h.delivered id hid)
  orderly := h.orderly.quiet hq

/-- An accepted message has arrived; its number has been given by the source, if it comes from it.
-/
theorem Link.accept (hc : c.HashNames) (h : Link c s t v)
    (hcarried : y = s → v.Carried t m) (hm : Accepts c y m v.dst dst') :
    Link c s t { v with dst := dst' } where
  __ := h
  remote r n hr := by
    by_cases hroom : r = m.room
    · subst hroom
      have hstep := hm.room
      rw [hr] at hstep
      generalize hold : (v.dst.rooms[m.room]?).map Room.remote = o at hstep
      cases hstep with
      | kept => exact h.remote _ _ hold
      | created => exact Nat.zero_le _
      | counted hp => exact (h.bound m _ (hcarried rfl) hp).2
    · exact h.remote r n ((hm.others r hroom).symm.trans hr)
  saved x row r hrow hreply := by
    rcases hm.receipts _ row r hrow hreply with hold | ⟨⟨x', hx⟩, hsignature, hid⟩
    · obtain ⟨hid, hhash⟩ := h.saved x row r hold hreply
      exact ⟨hm.keeps _ _ hid, fun m' hm' => hm.keeps _ _ (hhash m' hm')⟩
    · obtain ⟨-, hy, -⟩ := identityText_inj hx
      cases hy
      exact ⟨hid ▸ hm.arrived, fun m' hm' => hc _ _ _ (hsignature.symm.trans hm') ▸ hm.arrived⟩
  acked id hid := hm.keeps _ _ (h.acked id hid)
  delivered id hid := hm.keeps _ _ (h.delivered id hid)
  orderly := h.orderly.accept hm

theorem Link.flights {flight' : List Message → Prop} (h : Link c s t v)
    (hnew : ∀ l, flight' l → ∀ m ∈ l, v.Carried t m) : Link c s t { v with flight := flight' } := by
  have hcarried : ∀ m, ({ v with flight := flight' } : View).Carried t m → v.Carried t m := by
    rintro m (hm | ⟨l, hl, hm⟩)
    · exact .inl hm
    · exact hnew l hl m hm
  exact { h with
    bound := fun m p hm => h.bound m p (hcarried m hm)
    unique := fun m m' p p' hm hm' => h.unique m m' p p' (hcarried m hm) (hcarried m' hm') }

/-- Every move keeps what links the numbers of the two servers. -/
theorem Link.move (hc : c.HashNames) (h : Link c s t v) (hmove : Move c s t timely v v') :
    Link c s t v' := by
  cases hmove with
  | source hq => exact h.source hq
  | target hq => exact h.target hq
  | send hs => exact h.send hs
  | accept hl _ hm => exact h.accept hc (fun _ => .inr ⟨_, hl, by simp⟩) hm
  | acceptOther hy hm => exact h.accept hc (fun heq => absurd heq hy) hm
  | flights hnew => exact h.flights fun l hl m hm => (hnew l hl).carried hm
  | acks hacks =>
    exact { h with acked := fun id hid => (hacks id hid).elim (h.acked id) fun h => h }

/-! ## Nothing is passed over -/

structure Prompt (s t : String) (v : View) : Prop where
  order : ∀ j k, v.src.Queued t j → v.src.Queued t k → Precedes j k → Before j k
  complete : ∀ l, v.flight l → Complete (v.Waiting s t) Precedes l
  above : ∀ m p n, v.Waiting s t m → m.payload = .chatMessage p →
    (v.dst.rooms[m.room]?).map Room.remote = some (s, n) → n < p.sequence

section

variable (hlink : Link c s t v) (h : Prompt s t v)
include hlink h

/-- Fewer messages wait, and the rooms of the source keep their numbers, or are new. -/
theorem Prompt.mono {v' : View} (hqueued : ∀ m, v'.src.Queued t m → v.src.Queued t m)
    (harrived : ∀ id, v.dst.Arrived s id → v'.dst.Arrived s id)
    (hflight : ∀ l, v'.flight l → v.flight l)
    (hremote : ∀ (r : String) n, (v'.dst.rooms[r]?).map Room.remote = some (s, n) →
      (v.dst.rooms[r]?).map Room.remote = some (s, n) ∨ n = 0) : Prompt s t v' := by
  have hwaiting : ∀ m, v'.Waiting s t m → v.Waiting s t m := fun m hm =>
    ⟨hqueued m hm.1, fun hid => hm.2 (harrived _ hid)⟩
  refine ⟨fun j k hj hk => h.order j k (hqueued j hj) (hqueued k hk),
    fun l hl => (h.complete l (hflight l hl)).mono fun _ _ j hj _ => hwaiting j hj,
      fun m p n hm hp hr => ?_⟩
  rcases hremote _ n hr with hr | rfl
  · exact h.above m p n (hwaiting m hm) hp hr
  · exact (hlink.bound m p (.inl (hqueued m hm.1).holds) hp).1

/-- The new message comes after all that waits, and nothing on its way comes after it. -/
theorem Prompt.send (hs : Sends c s req now t m v.src src')
    (hbefore : ∀ j, v.src.Queued t j → Precedes j m → Before j m) :
    Prompt s t { v with src := src' } := by
  obtain ⟨p, hp, hnumber⟩ := hs.chat
  have hqueued : ∀ j, src'.Queued t j → v.src.Queued t j ∨ j = m := by
    rintro j ⟨item, hitem, rfl, hstatus⟩
    rcases hs.outbox _ _ _ hitem with hold | ⟨-, hnew⟩
    · exact .inl ⟨item, hold, rfl, hstatus⟩
    · exact .inr hnew
  have hlast : ∀ k, v.Carried t k → ¬ Precedes m k := by
    rintro k hk ⟨p', q, hp', hq, hroom, hlt⟩
    cases hp.symm.trans hp'
    have := (hlink.bound k q hk hq).2
    rw [← hroom, hs.room] at this
    omega
  refine ⟨fun j k hj hk hjk => ?_, fun l hl => (h.complete l hl).mono fun k hk j hj hjk => ?_,
    fun m' p' n hm' hp' hr => ?_⟩
  · rcases hqueued j hj with hj | rfl
    · rcases hqueued k hk with hk | rfl
      · exact h.order j k hj hk hjk
      · exact hbefore j hj hjk
    · rcases hqueued k hk with hk | rfl
      · exact absurd hjk (hlast k (.inl hk.holds))
      · obtain ⟨p₁, p₂, hp₁, hp₂, -, hlt⟩ := hjk
        cases hp₁.symm.trans hp₂
        exact absurd hlt (lt_irrefl _)
  · rcases hqueued j hj.1 with hold | rfl
    · exact ⟨hold, hj.2⟩
    · exact absurd hjk (hlast k (.inr ⟨l, hl, hk⟩))
  · rcases hqueued m' hm'.1 with hold | rfl
    · exact h.above m' p' n ⟨hold, hm'.2⟩ hp' hr
    · cases hp.symm.trans hp'
      have := hlink.remote _ n hr
      rw [hs.room] at this
      omega

/-- What is accepted is the first that waits, so all that waits has a greater number. -/
theorem Prompt.accept {l₁ l₂ : List Message}
    (hl : v.flight (l₁ ++ m :: l₂)) (harrived : ∀ j ∈ l₁, v.dst.Arrived s j.id)
    (hm : Accepts c s m v.dst dst') :
    Prompt s t { v with dst := dst' } := by
  have hwaiting : ∀ j, ({ v with dst := dst' } : View).Waiting s t j → v.Waiting s t j :=
      fun j hj =>
    ⟨hj.1, fun hid => hj.2 (hm.keeps _ _ hid)⟩
  refine ⟨h.order, fun l hl => (h.complete l hl).mono fun _ _ j hj _ => hwaiting j hj,
    fun j p n hj hp hr => ?_⟩
  by_cases hroom : j.room = m.room
  · simp only at hr
    have hstep := hm.room
    rw [hroom] at hr
    rw [hr] at hstep
    generalize hold : (v.dst.rooms[m.room]?).map Room.remote = o at hstep
    cases hstep with
    | kept => exact h.above j p n (hwaiting j hj) hp (by rw [hroom, hold])
    | created => exact (hlink.bound j p (.inl hj.1.holds) hp).1
    | @counted _ q hq =>
      have hnot : ¬ p.sequence < q.sequence := fun hlt =>
        (hwaiting j hj).2
          (harrived j (h.complete _ hl l₁ m l₂ rfl j (hwaiting j hj) ⟨p, q, hp, hq, hroom, hlt⟩))
      have hne : p.sequence ≠ q.sequence := fun heq => by
        have hid := hlink.unique j m p q (.inl hj.1.holds) (.inr ⟨_, hl, by simp⟩) hp hq hroom heq
        exact hj.2 (hid ▸ hm.arrived)
      omega
  · exact h.above j p n (hwaiting j hj) hp ((hm.others _ hroom).symm.trans hr)

end

/-- A list that comes on its way in time passes nothing over. -/
theorem NewFlight.complete (h : Prompt s t v) (htimely : timely) (hnew : NewFlight s t timely v l) :
    Complete (v.Waiting s t) Precedes l := by
  cases hnew with
  | old hl => exact h.complete l hl
  | head hl => exact complete_singleton fun j hj => (h.complete _ hl).head hj
  | tail hl harrived => exact (h.complete _ hl).tail fun hk => hk.2 harrived
  | batch hbatch hl ht =>
    exact ((complete_batch hbatch h.order (ht htimely)).of_isPrefix hl).mono fun _ _ _ hj _ => hj.1

/-- In a timely run no move lets a message pass one that waits. -/
theorem Prompt.move (hlink : Link c s t v) (h : Prompt s t v) (htimely : timely)
    (hmove : Move c s t timely v v') :
    Prompt s t v' := by
  cases hmove with
  | source hq =>
    exact h.mono hlink (fun _ => hq.queued) (fun _ h => h) (fun _ h => h) fun _ _ hr => .inl hr
  | target hq =>
    exact h.mono hlink (fun _ h => h) (hq.arrived s) (fun _ h => h) fun r _ hr =>
      .inl ((hq.remote r).symm.trans hr)
  | send hs ht => exact h.send hlink hs (ht htimely)
  | accept hl harrived hm => exact h.accept hlink hl harrived hm
  | @acceptOther dst' y m hy hm =>
    refine h.mono hlink (fun _ h => h) (hm.keeps s) (fun _ h => h) fun r n hr => ?_
    by_cases hroom : r = m.room
    · subst hroom
      have hstep := hm.room
      rw [hr] at hstep
      exact absurd hstep.peer.symm hy
    · exact .inl ((hm.others r hroom).symm.trans hr)
  | flights hnew =>
    exact ⟨h.order, fun l hl => NewFlight.complete (v := v) h htimely (hnew l hl), h.above⟩
  | acks => exact { __ := h }

end

end Layr.Federation
