import Layr.Lib.Runs
import Layr.Steer

/-!
# Receipts and the input they list

Three rules tie the rows of an agent's events to its receipts: a listed event is not pending, two
receipts list different events, and a row that a steer put into `reserved`, `dispatching` or
`uncertain` is owned by a receipt whose stage fits the status. An operation is a chain of moves
(`Move`): each one releases or settles a receipt, takes it to another stage, reserves events for a
new one, or rewrites rows that no rule speaks of. What every operation keeps is read off the moves.

Two things that the operations accept break the rules. A receipt whose input may still be with the
provider is settled by `not sent`, `rejected` or a terminal that names it, which leaves its events
`uncertain`; and an event that an unconfirmed receipt lists can be made pending again by other code
and claimed by a second steer.
-/

namespace Layr.Steer

open Maps Tables Runs List Option Bool

variable {E : Type}

/-! ## Rows after an update -/

namespace Store

variable {s s' : Store E} {id e : String} {r r' : Receipt} {hits : String → Row E → Bool}
  {put : Row E → Row E} {row : Row E}

@[simp] theorem update_rows : (s.update hits put).rows[e]? = s.rows[e]?.map fun row =>
    if hits e row then put row else row := by
  rw [update, Std.ExtTreeMap.getElem?_map]

@[simp] theorem update_receipts : (s.update hits put).receipts = s.receipts := rfl

@[simp] theorem eraseReceipt_rows : (s.eraseReceipt id).rows = s.rows := rfl

@[simp] theorem eraseReceipt_receipts : (s.eraseReceipt id).receipts = s.receipts.erase id := rfl

@[simp] theorem putReceipt_rows : (s.putReceipt id r).rows = s.rows := rfl

@[simp] theorem putReceipt_receipts : (s.putReceipt id r).receipts = s.receipts.insert id r := rfl

/-- The row that `release` makes of a row that it returns. -/
def returned (s : Store E) (r : Receipt) (row : Row E) : Row E :=
  { row with
    status := if (s.currentAgent r.epoch).isSome then .pending else .cancelled
    turnId := none
    error := none
    steered := true }

@[simp] theorem release_rows : (s.release id r).rows[e]? = s.rows[e]?.map fun row =>
    if returns r e row then s.returned r row else row := by
  have hrows : (s.release id r).rows = (s.update (returns r) (s.returned r)).rows := by
    unfold release
    simp only [eraseReceipt_rows]
    split
    · split <;> rfl
    · rfl
  rw [hrows, update_rows]

@[simp] theorem release_receipts : (s.release id r).receipts = s.receipts.erase id := by
  unfold release
  simp only [eraseReceipt_receipts]
  split
  · split <;> rfl
  · rfl

theorem owns_iff : r.owns e row = true ↔ row.epoch = r.epoch ∧ e ∈ r.events := by
  simp [Receipt.owns]

theorem mem_of_returns (h : returns r e row = true) : e ∈ r.events := by
  simp only [returns, and_eq_true, owns_iff] at h
  exact h.1.2

theorem mem_of_sentRow (h : sentRow r e row = true) : e ∈ r.events := by
  simp only [sentRow, and_eq_true, owns_iff] at h
  exact h.1.2

end Store

/-! ## The rules -/

/-- The statuses that an event of a receipt at a stage can have while it is open. -/
def SteerState.holds : SteerState → EventStatus → Bool
  | reserved, .reserved => true
  | submitted _, .dispatching => true
  | submitted sent, .uncertain => sent.interruptStillQueued
  | unconfirmed sent, .uncertain => sent.interruptStillQueued
  | held, .uncertain => true
  | _, _ => false

/-- The provider cannot hold the input of a receipt at this stage after its turn. -/
def SteerState.certain : SteerState → Bool
  | reserved => true
  | submitted sent | unconfirmed sent => !sent.interruptStillQueued
  | held => false

/-- The statuses that an event does not leave for the queue. -/
def EventStatus.final : EventStatus → Bool
  | delivered | uncertain | cancelled => true
  | _ => false

/-- The row has the place in the rules that another one had. -/
def Row.Same (row' row : Row E) : Prop :=
  row'.status = row.status ∧ row'.epoch = row.epoch ∧ row'.steered = row.steered

/-- The row left the status of another one for one that is not pending, and no steer opens it. -/
def Row.Left (row' row : Row E) : Prop :=
  row'.status ≠ .pending ∧ (row'.steered = true → row'.status.isOpen = false) ∧
    (row.status.final = true → row'.status.final = true)

namespace Store

variable {s s' : Store E} {id e : String} {r r' : Receipt} {hits : String → Row E → Bool}
  {put : Row E → Row E} {row : Row E}

def Lists (s : Store E) (e : String) : Prop :=
  ∃ (id : String) (r : Receipt), s.receipts[id]? = some r ∧ e ∈ r.events

structure Inv (s : Store E) : Prop where
  away : ∀ (e : String) (row : Row E), s.Lists e → s.rows[e]? = some row → row.status ≠ .pending
  /-- Two receipts list different events. -/
  apart : ∀ (id id' e : String) (r r' : Receipt), s.receipts[id]? = some r →
    s.receipts[id']? = some r' → e ∈ r.events → e ∈ r'.events → id = id'
  owned : ∀ (e : String) (row : Row E), s.rows[e]? = some row → row.steered = true →
    row.status.isOpen = true →
    ∃ (id : String) (r : Receipt), s.receipts[id]? = some r ∧ r.owns e row = true ∧
      r.stage.holds row.status = true

variable {id' : String}

theorem Inv.eq_of_mem (h : s.Inv) (hr : s.receipts[id]? = some r) (hr' : s.receipts[id']? = some r')
    (he : e ∈ r.events) (he' : e ∈ r'.events) : id' = id ∧ r' = r := by
  obtain rfl := h.apart id id' e r r' hr hr' he he'
  exact ⟨rfl, some.inj (hr'.symm.trans hr)⟩

/-- A row of a receipt's events that a steer opened has a status that fits the receipt. -/
theorem Inv.holds_of_mem (h : s.Inv) (hr : s.receipts[id]? = some r) (he : e ∈ r.events)
    (hrow : s.rows[e]? = some row) (hsteered : row.steered = true)
    (hopen : row.status.isOpen = true) :
    r.owns e row = true ∧ r.stage.holds row.status = true := by
  obtain ⟨id', r', hr', howns, hholds⟩ := h.owned e row hrow hsteered hopen
  obtain ⟨-, rfl⟩ := h.eq_of_mem hr hr' he (owns_iff.1 howns).2
  exact ⟨howns, hholds⟩

/-- Rows change, but not their place in the rules: a row has the status, epoch and mark of the row
before, or it is not open by a steer and not a listed pending one. -/
theorem Inv.rewrite (h : s.Inv) (hreceipts : s'.receipts = s.receipts)
    (hrows : ∀ (e : String) (row' : Row E), s'.rows[e]? = some row' →
      (∃ row, s.rows[e]? = some row ∧ row'.Same row) ∨
      ((row'.steered = true → row'.status.isOpen = false) ∧
        (row'.status = .pending → ¬ s.Lists e))) : s'.Inv := by
  have hlists : ∀ e, s'.Lists e ↔ s.Lists e := fun e => by rw [Lists, Lists, hreceipts]
  constructor
  · intro e row' hlist hrow'
    rw [hlists] at hlist
    rcases hrows e row' hrow' with ⟨row, hrow, hstatus, -⟩ | ⟨-, hpending⟩
    · rw [hstatus]
      exact h.away e row hlist hrow
    · exact fun heq => hpending heq hlist
  · rw [hreceipts]
    exact h.apart
  · intro e row' hrow' hsteered hopen
    rcases hrows e row' hrow' with ⟨row, hrow, hstatus, hepoch, hmark⟩ | ⟨hclosed, -⟩
    · rw [hmark] at hsteered
      rw [hstatus] at hopen
      obtain ⟨id, r, hr, howns, hholds⟩ := h.owned e row hrow hsteered hopen
      refine ⟨id, r, hreceipts ▸ hr, ?_, hstatus ▸ hholds⟩
      rw [owns_iff] at howns ⊢
      exact ⟨hepoch ▸ howns.1, howns.2⟩
    · rw [hclosed hsteered] at hopen
      cases hopen

structure Settles (id : String) (r : Receipt) (hits : String → Row E → Bool) (put : Row E → Row E)
    (s s' : Store E) : Prop where
  stored : s.receipts[id]? = some r
  receipts : s'.receipts = s.receipts.erase id
  rows : ∀ e, s'.rows[e]? = s.rows[e]?.map fun row => if hits e row then put row else row
  listed : ∀ e row, hits e row = true → e ∈ r.events
  closed : ∀ row, (put row).status.isOpen = false
  all : ∀ e row, r.owns e row = true → r.stage.holds row.status = true → hits e row = true

/-- The receipt goes with all rows that it held open; the events of the others are not touched,
since no two receipts list the same. -/
theorem Inv.settle (h : s.Inv) (hm : Settles id r hits put s s') : s'.Inv := by
  have hstored : ∀ {id' r'}, s'.receipts[id']? = some r' →
      id' ≠ id ∧ s.receipts[id']? = some r' := by
    intro id' r' hr'
    rw [hm.receipts] at hr'
    exact (of_getElem?_erase hr').imp_left Ne.symm
  -- An event of another receipt keeps its row.
  have hsame : ∀ {e}, e ∉ r.events → s'.rows[e]? = s.rows[e]? := by
    intro e he
    rw [hm.rows]
    cases s.rows[e]? with
    | none => rfl
    | some row =>
      have hmiss : hits e row ≠ true := fun hhit => he (hm.listed e row hhit)
      rw [map_some, if_neg hmiss]
  constructor
  · rintro e row ⟨id', r', hr', he⟩ hrow
    obtain ⟨hne, hr'⟩ := hstored hr'
    have hnot : e ∉ r.events := fun hmem => hne (h.apart id' id e r' r hr' hm.stored he hmem)
    exact h.away e row ⟨id', r', hr', he⟩ (hsame hnot ▸ hrow)
  · intro id' id'' e r' r'' hr' hr''
    exact h.apart id' id'' e r' r'' (hstored hr').2 (hstored hr'').2
  · intro e row' hrow' hsteered hopen
    by_cases he : e ∈ r.events
    · rw [hm.rows] at hrow'
      obtain ⟨row, hrow, rfl⟩ := map_eq_some_iff.1 hrow'
      split at hsteered
      · next hhit =>
        rw [if_pos hhit, hm.closed] at hopen
        cases hopen
      · next hmiss =>
        rw [if_neg hmiss] at hopen
        obtain ⟨howns, hholds⟩ := h.holds_of_mem hm.stored he hrow hsteered hopen
        exact absurd (hm.all e row howns hholds) hmiss
    · rw [hsame he] at hrow'
      obtain ⟨id', r', hr', howns, hholds⟩ := h.owned e row' hrow' hsteered hopen
      have hne : id ≠ id' := by
        rintro rfl
        cases hm.stored.symm.trans hr'
        exact he (owns_iff.1 howns).2
      exact ⟨id', r', by rw [hm.receipts, getElem?_erase_ne hne]; exact hr', howns, hholds⟩

structure Advances (id : String) (r : Receipt) (stage : SteerState) (hits : String → Row E → Bool)
    (put : Row E → Row E) (s s' : Store E) : Prop where
  stored : s.receipts[id]? = some r
  receipts : s'.receipts = s.receipts.insert id { r with stage := stage }
  rows : ∀ e, s'.rows[e]? = s.rows[e]?.map fun row => if hits e row then put row else row
  hit : ∀ e row, hits e row = true → r.owns e row = true ∧ (put row).epoch = row.epoch ∧
    (put row).status ≠ .pending ∧
    ((put row).status.isOpen = true → stage.holds (put row).status = true) ∧
    (row.status.final = true → (put row).status.final = true)
  all : ∀ e row, r.stage.holds row.status = true → r.owns e row = true → hits e row = false →
    stage.holds row.status = true

/-- The rows of the receipt that stay open fit its next stage, and nothing else changes. -/
theorem Inv.advance {stage : SteerState} (h : s.Inv) (hm : Advances id r stage hits put s s') :
    s'.Inv := by
  have hself : s'.receipts[id]? = some { r with stage := stage } := by
    rw [hm.receipts, getElem?_insert_self]
  have hstored : ∀ {id' : String} {r' : Receipt}, s'.receipts[id']? = some r' →
      ∃ r₁ : Receipt, s.receipts[id']? = some r₁ ∧ r'.events = r₁.events := by
    intro id' r' hr'
    rw [hm.receipts] at hr'
    rcases of_getElem?_insert hr' with ⟨rfl, rfl⟩ | ⟨-, hr'⟩
    · exact ⟨r, hm.stored, rfl⟩
    · exact ⟨r', hr', rfl⟩
  constructor
  · rintro e row' ⟨id', r', hr', he⟩ hrow'
    obtain ⟨r₁, hr₁, hev⟩ := hstored hr'
    rw [hm.rows] at hrow'
    obtain ⟨row, hrow, rfl⟩ := map_eq_some_iff.1 hrow'
    split
    · next hhit => exact (hm.hit e row hhit).2.2.1
    · exact h.away e row ⟨id', r₁, hr₁, hev ▸ he⟩ hrow
  · intro id' id'' e r₁ r₂ hr₁ hr₂ he₁ he₂
    obtain ⟨r₁', hr₁', hev₁⟩ := hstored hr₁
    obtain ⟨r₂', hr₂', hev₂⟩ := hstored hr₂
    exact h.apart id' id'' e r₁' r₂' hr₁' hr₂' (hev₁ ▸ he₁) (hev₂ ▸ he₂)
  · intro e row' hrow' hsteered hopen
    rw [hm.rows] at hrow'
    obtain ⟨row, hrow, rfl⟩ := map_eq_some_iff.1 hrow'
    by_cases hhit : hits e row = true
    · rw [if_pos hhit] at hopen ⊢
      obtain ⟨howns, hepoch, -, hholds, -⟩ := hm.hit e row hhit
      refine ⟨id, _, hself, ?_, hholds hopen⟩
      rw [owns_iff] at howns ⊢
      exact ⟨hepoch ▸ howns.1, howns.2⟩
    rw [if_neg hhit] at hsteered hopen ⊢
    obtain ⟨id', r₁, hr₁, howns, hholds⟩ := h.owned e row hrow hsteered hopen
    by_cases hid : id = id'
    · subst hid
      cases hm.stored.symm.trans hr₁
      exact ⟨id, _, hself, howns, hm.all e row hholds howns (eq_false_iff.2 hhit)⟩
    · exact ⟨id', r₁, by rw [hm.receipts, getElem?_insert_ne hid]; exact hr₁, howns, hholds⟩

/-- A release settles input that the provider cannot hold. -/
theorem settles_release (hr : s.receipts[id]? = some r) (hcertain : r.stage.certain = true) :
    Settles id r (returns r) (s.returned r) s (s.release id r) := by
  refine ⟨hr, release_receipts, fun e => release_rows, fun e row => mem_of_returns,
    fun row => ?_, ?_⟩
  · unfold returned
    split <;> rfl
  · intro e row howns hholds
    rw [returns, howns]
    cases hstage : r.stage <;> cases hstatus : row.status <;>
      simp_all [SteerState.holds, SteerState.certain]

structure Reserves (id : String) (r : Receipt) (ids : List String) (epoch : ℤ) (s : Store E) :
    Prop where
  ids : r.events = ids
  epoch : r.epoch = epoch
  stage : r.stage = .reserved
  fresh : s.receipts[id]? = none
  pending : ∀ e ∈ r.events, ∃ row, s.rows[e]? = some row ∧ row.epoch = r.epoch ∧
    row.status = .pending

/-- A pending event is listed by no receipt, so the new one shares no event with another. -/
theorem Inv.reserve (h : s.Inv) {ids : List String} {epoch : ℤ} (hm : Reserves id r ids epoch s) :
    ((s.update (fun e row => ids.contains e && row.epoch == epoch && row.status == .pending)
      fun row => { row with status := .reserved, steered := true }).putReceipt id r).Inv := by
  obtain ⟨rfl, rfl, hstage, hfresh, hpending⟩ := hm
  -- An event of the receipt is listed by no other.
  have hunlisted : ∀ e ∈ r.events, ¬ s.Lists e := fun e he hlists => by
    obtain ⟨row, hrow, -, hstatus⟩ := hpending e he
    exact h.away e row hlists hrow hstatus
  constructor
  · rintro e row' ⟨id', r', hr', he⟩ hrow'
    rw [putReceipt_rows, update_rows] at hrow'
    obtain ⟨row, hrow, rfl⟩ := map_eq_some_iff.1 hrow'
    split
    · simp
    next hmiss =>
    rcases of_getElem?_insert hr' with ⟨rfl, rfl⟩ | ⟨-, hr'⟩
    · obtain ⟨row₁, hrow₁, hepoch, hstatus⟩ := hpending e he
      cases hrow.symm.trans hrow₁
      simp [he, hepoch, hstatus] at hmiss
    · exact h.away e row ⟨id', r', hr', he⟩ hrow
  · intro id₁ id₂ e r₁ r₂ hr₁ hr₂ he₁ he₂
    rcases of_getElem?_insert hr₁ with ⟨rfl, rfl⟩ | ⟨-, hs₁⟩ <;>
      rcases of_getElem?_insert hr₂ with ⟨rfl, rfl⟩ | ⟨-, hs₂⟩
    · rfl
    · exact absurd ⟨_, _, hs₂, he₂⟩ (hunlisted e he₁)
    · exact absurd ⟨_, _, hs₁, he₁⟩ (hunlisted e he₂)
    · exact h.apart id₁ id₂ e r₁ r₂ hs₁ hs₂ he₁ he₂
  · intro e row' hrow' hsteered hopen
    rw [putReceipt_rows, update_rows] at hrow'
    obtain ⟨row, hrow, rfl⟩ := map_eq_some_iff.1 hrow'
    by_cases hhit : (r.events.contains e && row.epoch == r.epoch && row.status == .pending) = true
    · rw [if_pos hhit]
      simp only [and_eq_true, contains_iff_mem, beq_iff_eq] at hhit
      refine ⟨id, r, getElem?_insert_self, owns_iff.2 ⟨hhit.1.2, hhit.1.1⟩, ?_⟩
      rw [hstage]
      rfl
    rw [if_neg hhit] at hsteered hopen ⊢
    obtain ⟨id', r', hr', howns, hholds⟩ := h.owned e row hrow hsteered hopen
    have hid : id ≠ id' := by
      rintro rfl
      rw [hfresh] at hr'
      cases hr'
    exact ⟨id', r', by rw [putReceipt_receipts, update_receipts, getElem?_insert_ne hid]; exact hr',
      howns, hholds⟩

/-! ## What an operation does -/

variable {L : String → Receipt → Prop}

/-- One change of the store. It concerns the receipt `id`, and `L` says which receipts may be
released. -/
inductive Move (L : String → Receipt → Prop) (id : String) (s : Store E) : Store E → Prop
  | rewrite {s' : Store E} (f : String → Row E → Row E) (hreceipts : s'.receipts = s.receipts)
      (hrows : ∀ e, s'.rows[e]? = s.rows[e]?.map (f e))
      (hf : ∀ e row, (f e row).Same row ∨ (f e row).Left row) : Move L id s s'
  | release {r : Receipt} (hr : s.receipts[id]? = some r) (hL : L id r) :
      Move L id s (s.release id r)
  | settle {s' : Store E} {r : Receipt} {hits : String → Row E → Bool} {put : Row E → Row E}
      (hm : Settles id r hits put s s') (hput : ∀ row, (put row).status.final = true) :
      Move L id s s'
  | advance {s' : Store E} {r : Receipt} {stage : SteerState} {hits : String → Row E → Bool}
      {put : Row E → Row E} (hm : Advances id r stage hits put s s') : Move L id s s'
  | reserve {r : Receipt} {ids : List String} {epoch : ℤ} (hm : Reserves id r ids epoch s) :
      Move L id s
      ((s.update (fun e row => ids.contains e && row.epoch == epoch && row.status == .pending)
          fun row => { row with status := .reserved, steered := true }).putReceipt id r)

abbrev Touches (L : String → Receipt → Prop) (id : String) : Store E → Store E → Prop :=
  Relation.ReflGen (Move L id)

abbrev Moves (L : String → Receipt → Prop) : Store E → Store E → Prop :=
  Relation.ReflTransGen fun s s' => ∃ id, Move L id s s'

/-- A move leaves all receipts but one. -/
theorem Move.receipts_ne (hm : Move L id s s') (hid : id' ≠ id) :
    s'.receipts[id']? = s.receipts[id']? := by
  cases hm with
  | rewrite f hreceipts => rw [hreceipts]
  | release => rw [release_receipts, getElem?_erase_ne hid.symm]
  | settle hm => rw [hm.receipts, getElem?_erase_ne hid.symm]
  | advance hm => rw [hm.receipts, getElem?_insert_ne hid.symm]
  | reserve => exact getElem?_insert_ne hid.symm

/-- Every move keeps the rules if it releases no input that the provider may hold. -/
theorem Inv.move (h : s.Inv) (hL : ∀ id r, L id r → r.stage.certain = true) (hm : Move L id s s') :
    s'.Inv := by
  cases hm with
  | rewrite f hreceipts hrows hf =>
    refine h.rewrite hreceipts fun e row' hrow' => ?_
    rw [hrows] at hrow'
    obtain ⟨row, hrow, rfl⟩ := map_eq_some_iff.1 hrow'
    rcases hf e row with hsame | hleft
    · exact .inl ⟨row, hrow, hsame⟩
    · exact .inr ⟨hleft.2.1, fun hpending => absurd hpending hleft.1⟩
  | release hr hrelease => exact h.settle (settles_release hr (hL _ _ hrelease))
  | settle hm => exact h.settle hm
  | advance hm => exact h.advance hm
  | reserve hm => exact h.reserve hm

/-- So does every chain of moves. -/
theorem Inv.moves (h : s.Inv) (hL : ∀ id r, L id r → r.stage.certain = true) (hm : Moves L s s') :
    s'.Inv := by
  induction hm with
  | refl => exact h
  | tail _ hm ih =>
    obtain ⟨id, hm⟩ := hm
    exact ih.move hL hm

theorem receipts_of_mem (h : (id, r) ∈ s.receipts.toList) : s.receipts[id]? = some r :=
  mem_toList_iff_getElem?_eq_some.1 h

variable {f : Store E → String × Receipt → Store E}

/-- A loop over receipts that were stored before it. Each of its steps finds its receipt as it was,
because the steps before it changed others. -/
theorem moves_foldl {l : List (String × Receipt)}
    (hkeys : (l.map (·.1)).Nodup) (hstored : ∀ entry ∈ l, s.receipts[entry.1]? = some entry.2)
    (hstep : ∀ (s : Store E), ∀ entry ∈ l, s.receipts[entry.1]? = some entry.2 →
      Touches L entry.1 s (f s entry)) :
    Moves L s (l.foldl f s) := by
  induction l generalizing s with
  | nil => exact .refl
  | cons entry l ih =>
    rw [map_cons, nodup_cons] at hkeys
    have hfirst := hstep s entry mem_cons_self (hstored _ mem_cons_self)
    have hrest : Moves L (f s entry) (l.foldl f (f s entry)) := by
      refine ih hkeys.2 (fun other hmem => ?_) fun s other hmem =>
        hstep s other (mem_cons_of_mem _ hmem)
      have hother := hstored other (mem_cons_of_mem _ hmem)
      have hne : other.1 ≠ entry.1 := fun heq => hkeys.1 (heq ▸ mem_map_of_mem hmem)
      rcases (Relation.reflGen_iff _ _ _).1 hfirst with heq | hm
      · rw [heq, hother]
      · rw [hm.receipts_ne hne, hother]
    rw [foldl_cons]
    rcases (Relation.reflGen_iff _ _ _).1 hfirst with heq | hm
    · rwa [heq] at hrest ⊢
    · exact .head ⟨_, hm⟩ hrest

/-- A loop over all receipts. -/
theorem moves_receipts
    (hstep : ∀ (s' : Store E) (id : String) (r : Receipt), s.receipts[id]? = some r →
      s'.receipts[id]? = some r → Touches L id s' (f s' (id, r))) :
    Moves L s (s.receipts.toList.foldl f s) :=
  moves_foldl (nodup_keys s.receipts) (fun _ hmem => receipts_of_mem hmem)
    fun s' entry hmem hr => hstep s' entry.1 entry.2 (receipts_of_mem hmem) hr

/-! ### Changes of rows -/

theorem Move.update (h : ∀ e row, hits e row = true → (put row).Left row) :
    Move L id s (s.update hits put) :=
  .rewrite (fun e row => if hits e row then put row else row) rfl (fun e => update_rows)
    fun e row => by
    split
    · next hhit => exact .inr (h e row hhit)
    · exact .inl ⟨rfl, rfl, rfl⟩

/-- The agent record is no part of the rules. -/
theorem Move.setAgent (agent : Option Agent) : Move L id s { s with agent := agent } :=
  .rewrite (fun _ row => row) rfl (fun e => by simp) fun _ _ => .inl ⟨rfl, rfl, rfl⟩

variable {cancelled stillQueued : List String}

theorem stopStatus_eq_some {first : String} {status : EventStatus}
    (h : stopStatus cancelled stillQueued first = some status) :
    status = .uncertain ∨ status = .cancelled := by
  unfold stopStatus at h
  split at h
  · exact .inl (some.inj h).symm
  · split at h
    · exact .inr (some.inj h).symm
    · cases h

variable {generation : ℕ} {account thread : String}

/-- A Stop closes the rows of the turn's own attempt. -/
theorem moves_settleAttempt
    (h : s.settleAttempt account generation thread cancelled stillQueued = .ok s') :
    Moves L s s' := by
  unfold Store.settleAttempt at h
  split at h
  · cases h
    exact .refl
  split at h
  · split at h
    · split at h
      · cases h
        exact .refl
      next status hstatus =>
      simp only [bind_eq_ok, context_eq_ok, pure_eq_ok] at h
      obtain ⟨epoch, -, rfl⟩ := h
      refine .single ⟨"", .update fun e row _ => ⟨?_, by simp, fun _ => ?_⟩⟩
      · rcases stopStatus_eq_some hstatus with rfl | rfl <;> simp
      · rcases stopStatus_eq_some hstatus with rfl | rfl <;> rfl
    · cases h
      exact .refl
  · cases h
    exact .refl

/-- A pending row is put into a status that is neither pending nor open. -/
theorem left_of_pending {row' row : Row E} (hstatus : row.status = .pending)
    (hne : row'.status ≠ .pending) (hclosed : row'.status.isOpen = false) : row'.Left row := by
  refine ⟨hne, fun _ => hclosed, fun hfinal => ?_⟩
  rw [hstatus] at hfinal
  cases hfinal

/-- The preparation closes pending rows and gives others new contents. -/
theorem moves_applyPreparation {retired cancelled : BTreeMap String} {contents : BTreeMap E}
    (h : s.applyPreparation retired cancelled contents = .ok s') : Moves L s s' := by
  simp only [Store.applyPreparation, bind_eq_ok, ensure_eq_ok, exists_const, pure_eq_ok] at h
  obtain ⟨-, rfl⟩ := h
  refine .trans (.single ⟨"", .update fun e row hhit => ?_⟩)
    (.trans (.single ⟨"", .update fun e row hhit => ?_⟩)
      (.single ⟨"", .rewrite _ rfl (fun _ => Std.ExtTreeMap.getElem?_map) fun _ _ =>
      .inl ⟨rfl, rfl, rfl⟩⟩))
  all_goals exact left_of_pending (eq_of_beq (and_eq_true_iff.1 hhit).2) (by simp) rfl

/-! ### Changes of a receipt -/

variable {turn : String}

section

variable (hr : s.receipts[id]? = some r)
include hr

variable {sent : SubmittedSteer}

/-- The open rows of a receipt fail when it becomes unconfirmed, so none has to fit it. -/
theorem advances_unconfirm (hstage : r.stage = .submitted sent) :
    Advances id r (.unconfirmed sent) (fun e row => r.owns e row && row.status == .dispatching)
      (fun row =>
        { row with status := .failed, error := some steerUnconfirmedError, steered := true })
      s (s.unconfirm id r) := by
  refine ⟨hr, by simp [Store.unconfirm, hstage], fun e => update_rows, ?_, ?_⟩
  · intro e row hhit
    obtain ⟨howns, hstatus⟩ := and_eq_true_iff.1 hhit
    refine ⟨howns, rfl, by simp, by simp [EventStatus.isOpen], fun hfinal => ?_⟩
    rw [eq_of_beq hstatus] at hfinal
    cases hfinal
  · intro e row hholds howns hmiss
    cases hstatus : row.status <;> simp_all [SteerState.holds]

/-- A receipt is stored again with another record of its request. -/
theorem advances_recordSent {sent' : SubmittedSteer} (hstage : r.stage = .submitted sent)
    (hqueued : sent'.interruptStillQueued = sent.interruptStillQueued) :
    Advances id r (.submitted sent') (fun _ _ => false) (fun row => row) s
      (s.recordSent id r sent') := by
  refine ⟨hr, rfl, fun e => by simp [Store.recordSent], fun e row hhit => (nomatch hhit), ?_⟩
  intro e row hholds _ _
  cases hstatus : row.status <;> simp_all [SteerState.holds]

/-- Input that was sent is settled when the provider reports on all of it. -/
theorem settles_sent (hsent : r.stage.sent.isSome = true)
    (hput : ∀ row, (put row).status.isOpen = false) :
    Settles id r (sentRow r) put s ((s.update (sentRow r) put).eraseReceipt id) := by
  refine ⟨hr, rfl, fun e => update_rows, fun e row => mem_of_sentRow, hput, ?_⟩
  intro e row howns hholds
  rw [sentRow, howns]
  cases hstage : r.stage <;> cases hstatus : row.status <;>
    simp_all [SteerState.holds, SteerState.sent]

/-- An unconfirmed receipt has no open input, unless the provider still has it in its queue. -/
theorem settles_drop (hstage : r.stage = .unconfirmed sent)
    (hqueued : sent.interruptStillQueued = false) :
    Settles id r (fun _ _ => false) (fun row => { row with status := .cancelled }) s
      (s.eraseReceipt id) := by
  refine ⟨hr, rfl, fun e => by simp, fun e row hhit => (nomatch hhit), fun row => rfl, ?_⟩
  intro e row _ hholds
  cases hstatus : row.status <;> simp_all [SteerState.holds]

/-- After a restart the events of a reserved receipt are uncertain. -/
theorem touches_holdSteer : Touches L id s (s.holdSteer (id, r)) := by
  unfold Store.holdSteer
  dsimp only
  split
  · next hstage =>
    refine .single (.advance ⟨hr, rfl, fun e => update_rows, ?_, ?_⟩)
    · intro e row hhit
      exact ⟨(and_eq_true_iff.1 hhit).1, rfl, by simp, fun _ => rfl, fun _ => rfl⟩
    · intro e row hholds howns hmiss
      cases hstatus : row.status <;> simp_all [SteerState.holds]
  · exact .refl

/-- A Stop settles input that it reports as cancelled. Input that is still queued stays with its
receipt. -/
theorem touches_settleStopped :
    Touches L id s (s.settleStopped account generation thread cancelled stillQueued (id, r)) := by
  unfold Store.settleStopped
  dsimp only
  split
  · exact .refl
  next sent hsent =>
  split
  · split
    · exact .refl
    next status hstatus =>
    split
    · next hcancelled =>
      obtain rfl := eq_of_beq hcancelled
      exact .single (.settle (settles_sent hr (by rw [hsent]; rfl) fun row => rfl) fun row => rfl)
    next hqueued =>
    obtain rfl : status = .uncertain :=
      (stopStatus_eq_some hstatus).resolve_right fun heq => hqueued (by rw [heq]; rfl)
    refine .single (.advance ⟨hr, rfl, fun e => update_rows, ?_, ?_⟩)
    · intro e row hhit
      refine ⟨(and_eq_true_iff.1 hhit).1, rfl, by simp, fun _ => ?_, fun _ => rfl⟩
      cases r.stage <;> rfl
    · intro e row hholds howns hmiss
      cases hstage : r.stage <;> cases hrow : row.status <;>
        simp_all [SteerState.holds, SteerState.sent, sentRow]
  · exact .refl

/-- Input that was not sent is released, and the rest becomes unconfirmed. -/
theorem touches_abandonSteer {current : ℕ} (hL : r.stage = .reserved → L id r) :
    Touches L id s (s.abandonSteer current (id, r)) := by
  unfold Store.abandonSteer
  dsimp only
  split
  · next hstage => exact .single (.release hr (hL hstage))
  · next sent hstage =>
    split
    · exact .single (.advance (advances_unconfirm hr hstage))
    · exact .refl
  · exact .refl
  · exact .refl

/-- Only input that was written after the end of the turn is released. -/
theorem touches_releaseWritten {endedAt : ℚ}
    (hL : r.stage.certain = true → L id r) :
    Touches L id s (s.releaseWritten turn endedAt (id, r)) := by
  unfold Store.releaseWritten
  dsimp only
  split
  · next hwritten =>
    refine .single (.release hr (hL ?_))
    cases hstage : r.stage <;> simp_all [SteerState.sent, SteerState.certain]
  · exact .refl

/-- A terminal releases what it names as unapplied and leaves what is queued. -/
theorem touches_resolveSteer {unapplied : List String} (hreserved : r.stage = .reserved → L id r)
    (hsubmitted : ∀ sent, r.stage = .submitted sent → r.turnId = turn → r.first ∈ unapplied →
      L id r) :
    Touches L id s (s.resolveSteer turn unapplied (id, r)) := by
  unfold Store.resolveSteer
  dsimp only
  split
  · split
    · next sent hstage =>
      split
      · exact .refl
      · next hqueued =>
        exact .single (.settle (settles_drop hr hstage (eq_false_iff.2 hqueued)) fun _ => rfl)
    · exact .refl
  · next hturn =>
    split
    · next hstage => exact .single (.release hr (hreserved hstage))
    · next sent hstage =>
      split
      · next hfirst =>
        exact .single
          (.release hr (hsubmitted sent hstage (not_not.1 hturn) (contains_iff_mem.1 hfirst)))
      · split
        · exact .refl
        · exact .single (.advance (advances_unconfirm hr hstage))
    · exact .refl
    · exact .refl

end

/-! ### Operations -/

variable {steer : String} {policy : Policy E}

/-- A claim prepares the queue and then reserves events, all of them pending at that point. -/
theorem moves_claimSteer {epoch : ℤ} {created : ℚ}
    (h : s.claimSteer policy epoch steer created = .ok s') : Moves L s s' := by
  unfold Store.claimSteer at h
  split at h
  · cases h
    exact .refl
  split at h
  · cases h
    exact .refl
  simp only [bind_eq_ok] at h
  obtain ⟨events, -, ⟨retired, cancelled, contents⟩, -, s₁, hs₁, h⟩ := h
  have hprepared := moves_applyPreparation (L := L) hs₁
  split at h
  · cases h
    exact hprepared
  simp only [bind_eq_ok, ensure_eq_ok, pure_eq_ok, exists_const] at h
  obtain ⟨hall, hfresh, rfl⟩ := h
  refine hprepared.tail ⟨steer, .reserve ⟨rfl, rfl, rfl, ?_, fun e he => ?_⟩⟩
  · exact Std.ExtTreeMap.getElem?_eq_none_of_contains_eq_false (by simpa using hfresh)
  have hany := all_eq_true.1 hall e he
  simp only [Option.any_eq_true, and_eq_true, beq_iff_eq] at hany
  obtain ⟨row, hrow, hclaims⟩ := hany
  exact ⟨row, hrow, hclaims.1.2, hclaims.2⟩

/-- A reserved receipt is released, and the obsolete ones of its events are closed. -/
theorem moves_reconcileObsoleteSteer
    (hL : ∀ r, s.receipts[steer]? = some r → r.stage = .reserved → L steer r) :
    Moves L s (s.reconcileObsoleteSteer policy steer) := by
  unfold Store.reconcileObsoleteSteer
  split
  · next receipt agent hr _ =>
    split
    · next hstage =>
      dsimp only
      split
      · exact .refl
      refine .tail (.single ⟨steer, .release hr (hL receipt hr hstage)⟩)
        ⟨steer, .rewrite _ rfl (fun _ => Std.ExtTreeMap.getElem?_map) fun e row => ?_⟩
      split
      · split
        · next hhit =>
          exact .inr (left_of_pending (eq_of_beq (and_eq_true_iff.1 hhit).2) (by simp) rfl)
        · exact .inl ⟨rfl, rfl, rfl⟩
      · exact .inl ⟨rfl, rfl, rfl⟩
    · exact .refl
  · exact .refl

/-- A receipt that is still reserved becomes submitted or is released. -/
theorem moves_steerSubmitted {steer ticket : String} {submittedAt : ℚ}
    (hL : ∀ r, s.receipts[steer]? = some r → r.stage = .reserved → L steer r)
    (h : s.steerSubmitted steer ticket generation submittedAt = .ok s') : Moves L s s' := by
  unfold Store.steerSubmitted at h
  split at h
  · cases h
    exact .refl
  next receipt hr =>
  split at h
  · next hstage =>
    split at h
    · cases h
      exact .single ⟨steer, .release hr (hL receipt hr hstage)⟩
    simp only [bind_eq_ok, ensure_eq_ok, pure_eq_ok, exists_const] at h
    obtain ⟨-, -, rfl⟩ := h
    refine .single ⟨steer, .advance ⟨hr, rfl, fun e => update_rows, ?_, ?_⟩⟩
    · intro e row hhit
      obtain ⟨howns, hstatus⟩ := and_eq_true_iff.1 hhit
      refine ⟨howns, rfl, by simp, fun _ => rfl, fun hfinal => ?_⟩
      rw [eq_of_beq hstatus] at hfinal
      cases hfinal
    · intro e row hholds howns hmiss
      cases hstatus : row.status <;> simp_all [SteerState.holds]
  · cases h
    exact .refl

theorem moves_freezeSteerSubmission {steer submission : String}
    (h : s.freezeSteerSubmission steer submission = .ok s') : Moves L s s' := by
  simp only [Store.freezeSteerSubmission, bind_eq_ok, context_eq_ok] at h
  obtain ⟨receipt, hr, h⟩ := h
  split at h
  · next sent hstage =>
    simp only [bind_eq_ok, ensure_eq_ok, exists_const] at h
    obtain ⟨-, h⟩ := h
    split at h
    · cases h
      exact .refl
    · cases h
      exact .single ⟨steer, .advance (advances_recordSent hr hstage rfl)⟩
  · cases h

theorem moves_steerResponse {steer response : String} :
    Moves L s (s.steerResponse steer response) := by
  unfold Store.steerResponse
  split
  · next receipt hr =>
    split
    · next sent hstage => exact .single ⟨steer, .advance (advances_recordSent hr hstage rfl)⟩
    · exact .refl
  · exact .refl

theorem moves_steerNotSent (hL : ∀ r, s.receipts[steer]? = some r → L steer r) :
    Moves L s (s.steerNotSent steer) := by
  unfold Store.steerNotSent
  split
  · next receipt hr => exact .single ⟨steer, .release hr (hL receipt hr)⟩
  · exact .refl

theorem moves_steerRejected (hL : ∀ r, s.receipts[steer]? = some r → L steer r) :
    Moves L s (s.steerRejected steer) := by
  unfold Store.steerRejected
  split
  · exact .refl
  next receipt hr =>
  have hreleased : Moves L s (s.release steer receipt) :=
    .single ⟨steer, .release hr (hL receipt hr)⟩
  dsimp only
  split
  · split
    · exact hreleased.tail ⟨steer, .setAgent _⟩
    · exact hreleased
  · exact hreleased

/-- The acknowledgement names a receipt whose input was sent. -/
theorem moves_acknowledgeSteer {first thread : String} :
    Moves L s (s.acknowledgeSteer first thread turn) := by
  unfold Store.acknowledgeSteer
  split
  · exact .refl
  next id receipt hfind =>
  have hfound := find?_some hfind
  simp only [and_eq_true] at hfound
  have hr := receipts_of_mem (mem_of_find?_eq_some hfind)
  exact .single ⟨id, .settle (settles_sent hr hfound.2 fun row => rfl) fun row => rfl⟩

/-- The attempt of the turn first, and then receipt by receipt. -/
theorem moves_settleInterruptInputs {response : Json}
    (h : s.settleInterruptInputs account generation thread response = .ok s') : Moves L s s' := by
  unfold Store.settleInterruptInputs at h
  split at h
  · cases h
    exact .refl
  simp only [bind_eq_ok, pure_eq_ok] at h
  obtain ⟨s₁, hs₁, rfl⟩ := h
  exact (moves_settleAttempt hs₁).trans (moves_receipts fun _ _ _ _ hr => touches_settleStopped hr)

theorem mem_abandoned {account : String} {entry : String × Receipt}
    (h : entry ∈ [OutboxStatus.pending, .submitted, .unknown].flatMap fun status =>
      s.receipts.toList.filter fun e =>
        e.2.accountKey == account && outboxStatus e.2.stage == status) :
    entry ∈ s.receipts.toList := by
  obtain ⟨status, -, hmem⟩ := mem_flatMap.1 h
  exact (mem_filter.1 hmem).1

/-- The receipts by status are the receipts of the account, each once. -/
theorem nodup_abandoned (account : String) (s : Store E) :
    (([OutboxStatus.pending, .submitted, .unknown].flatMap fun status =>
      s.receipts.toList.filter fun e =>
        e.2.accountKey == account && outboxStatus e.2.stage == status).map (·.1)).Nodup := by
  have hinj : ∀ entry ∈ s.receipts.toList, ∀ entry' ∈ s.receipts.toList, entry.1 = entry'.1 →
      entry = entry' := by
    intro entry hmem entry' hmem' hid
    have hr := receipts_of_mem hmem
    rw [hid, receipts_of_mem hmem'] at hr
    exact Prod.ext hid (some.inj hr).symm
  refine List.Nodup.map_on
    (fun entry hmem entry' hmem' => hinj entry (mem_abandoned hmem) entry' (mem_abandoned hmem')) ?_
  refine nodup_flatMap.2 ⟨fun status _ => (Tables.nodup_toList s.receipts).filter _, ?_⟩
  refine List.Nodup.pairwise_of_forall_ne (by decide) fun status _ status' _ hne entry hmem hmem' =>
    hne ?_
  simp only [mem_filter, and_eq_true, beq_iff_eq] at hmem hmem'
  exact hmem.2.2.symm.trans hmem'.2.2

def Releases (s : Store E) (op : Op E) (id : String) (r : Receipt) : Prop :=
  s.receipts[id]? = some r ∧ (r.stage = .reserved ∨ match op with
    | .notSent steer | .rejected steer => id = steer
    | .releaseAfterEnd _ _ => r.stage.certain = true
    | .terminal turn unapplied =>
      (∃ sent, r.stage = .submitted sent) ∧ r.turnId = turn ∧ r.first ∈ unapplied
    | _ => False)

theorem moves_commit {result : Except String (Store E)} (h : ∀ s', result = .ok s' → Moves L s s') :
    Moves L s (s.commit result) := by
  cases result with
  | ok s' => exact h s' rfl
  | error _ => exact .refl

variable {op : Op E}

/-- Every operation but a write of other code is a chain of moves. -/
theorem moves_step (hop : ∀ e row, op ≠ .row e row) : Moves (s.Releases op) s (s.step op) := by
  have hreserved : ∀ id r, s.receipts[id]? = some r → r.stage = .reserved → s.Releases op id r :=
    fun _ _ hr hstage => ⟨hr, .inl hstage⟩
  cases op with
  | claim policy epoch steer created => exact moves_commit fun _ => moves_claimSteer
  | reconcileObsolete policy steer => exact moves_reconcileObsoleteSteer (hreserved steer)
  | submit steer ticket generation submittedAt =>
    exact moves_commit fun _ => moves_steerSubmitted (hreserved steer)
  | freeze steer submission => exact moves_commit fun _ => moves_freezeSteerSubmission
  | notSent steer => exact moves_steerNotSent fun r hr => ⟨hr, .inr rfl⟩
  | rejected steer => exact moves_steerRejected fun r hr => ⟨hr, .inr rfl⟩
  | response steer response => exact moves_steerResponse
  | acknowledge first thread turn => exact moves_acknowledgeSteer
  | interrupt account generation thread response =>
    exact moves_commit fun _ => moves_settleInterruptInputs
  | releaseAfterEnd turn endedAt =>
    cases endedAt with
    | none => exact .refl
    | some endedAt =>
      exact moves_receipts fun _ _ _ hr hr' => touches_releaseWritten hr' fun hcertain =>
        ⟨hr, .inr hcertain⟩
  | terminal turn unapplied =>
    exact moves_receipts fun _ id r hr hr' => touches_resolveSteer hr' (hreserved id r hr)
      fun sent hstage hturn hfirst => ⟨hr, .inr ⟨⟨sent, hstage⟩, hturn, hfirst⟩⟩
  | abandon account current =>
    exact moves_foldl (nodup_abandoned account s)
      (fun _ hmem => receipts_of_mem (mem_abandoned hmem))
      fun _ entry hmem hr => touches_abandonSteer hr
        (hreserved _ _ (receipts_of_mem (mem_abandoned hmem)))
  | hold => exact moves_receipts fun _ _ _ _ hr => touches_holdSteer hr
  | agent agent => exact .single ⟨"", .setAgent agent⟩
  | row e row => exact absurd rfl (hop e row)

/-! ## Operations keep the rules -/

/-- Other code may write any row that no steer opens and that is not a listed pending one. -/
theorem Inv.writeRow (h : s.Inv) (row : Option (Row E))
    (hrow : ∀ row', row = some row' → row'.status = .pending → ¬ s.Lists e) :
    (s.writeRow e row).Inv := by
  cases row with
  | none =>
    exact h.rewrite rfl fun e' row' hrow' => .inl ⟨row', (of_getElem?_erase hrow').2, rfl, rfl, rfl⟩
  | some row =>
    refine h.rewrite rfl fun e' row' hrow' => ?_
    rcases of_getElem?_insert hrow' with ⟨rfl, rfl⟩ | ⟨-, hrow'⟩
    · exact .inr ⟨nofun, hrow row rfl⟩
    · exact .inl ⟨row', hrow', rfl, rfl, rfl⟩

/-- What the callers of the operations and other code have to keep to. -/
def Careful (s : Store E) : Op E → Prop
  -- Input that may be with the provider is not reported as unsent or refused.
  | .notSent steer | .rejected steer => ∀ r, s.receipts[steer]? = some r → r.stage.certain = true
  -- A terminal does not report input as unapplied that the provider had in its queue after a Stop.
  | .terminal turn unapplied =>
    ∀ (id : String) (r : Receipt) (sent : SubmittedSteer), s.receipts[id]? = some r →
      r.stage = .submitted sent → r.turnId = turn → r.first ∈ unapplied →
        sent.interruptStillQueued = false
  -- Other code does not make an event pending that a receipt lists.
  | .row e row => s.free e = true → ∀ row', row = some row' → row'.status = .pending → ¬ s.Lists e
  | _ => True

/-- A careful operation releases only input that the provider cannot hold. -/
theorem Releases.certain (h : s.Releases op id r) (hop : s.Careful op) :
    r.stage.certain = true := by
  obtain ⟨hr, hstage | h⟩ := h
  · rw [hstage]
    rfl
  cases op with
  | notSent steer | rejected steer =>
    obtain rfl : id = steer := h
    exact hop r hr
  | releaseAfterEnd turn endedAt => exact h
  | terminal turn unapplied =>
    obtain ⟨⟨sent, hstage⟩, hturn, hfirst⟩ := h
    rw [hstage, SteerState.certain, hop id r sent hr hstage hturn hfirst]
    rfl
  | _ => exact h.elim

/-- Every operation whose callers keep to `Careful` keeps the rules. -/
theorem Inv.step (h : s.Inv) (hop : s.Careful op) : (s.step op).Inv := by
  by_cases hrow : ∃ e row, op = .row e row
  · obtain ⟨e, row, rfl⟩ := hrow
    rw [Store.step]
    split
    · next hfree => exact h.writeRow row (hop hfree)
    · exact h
  · exact h.moves (fun _ _ hreleases => hreleases.certain hop)
      (moves_step fun e row heq => hrow ⟨e, row, heq⟩)

end Store

end Layr.Steer
