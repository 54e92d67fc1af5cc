import Layr.SteerReceipts

/-!
# How input leaves a steer

Input that the provider got stays out of the queue: `delivered`, `uncertain` and `cancelled` rows
are never pending again, whatever the operations are called with. And input that was sent comes back
to the queue only by an operation that proves it was not applied, as long as the receipts keep their
rules.
-/

namespace Layr.Steer

open Maps Runs Option

variable {E : Type}

/-- The receipt waits for its submission or for its acknowledgement. -/
def SteerState.active : SteerState → Bool
  | reserved | submitted _ => true
  | unconfirmed _ | held => false

namespace Store

variable {s s' s'' : Store E} {id e : String} {r : Receipt} {L : String → Receipt → Prop}
  {op : Op E}

/-! ## The rows of a move -/

/-- A move keeps final rows final, and the rows that it makes pending are those of a receipt that it
may release. -/
theorem Move.rows (hm : Move L id s s') (e : String) :
    ∃ g : Row E → Row E, s'.rows[e]? = s.rows[e]?.map g ∧
    ∀ row, (row.status.final = true → (g row).status.final = true) ∧
      ((g row).status = .pending → row.status = .pending ∨ ∃ r, L id r ∧ e ∈ r.events) := by
  cases hm with
  | rewrite f _ hrows hf =>
    refine ⟨f e, hrows e, fun row => ?_⟩
    rcases hf e row with ⟨hstatus, -⟩ | ⟨hne, -, hfinal⟩
    · rw [hstatus]
      exact ⟨fun hfinal => hfinal, .inl⟩
    · exact ⟨hfinal, fun hpending => absurd hpending hne⟩
  | release hr hL =>
    refine ⟨_, release_rows, fun row => ?_⟩
    split
    · next hhit =>
      refine ⟨fun hfinal => ?_, fun _ => .inr ⟨_, hL, mem_of_returns hhit⟩⟩
      simp only [returns, Row.unconfirmed, Bool.and_eq_true, Bool.or_eq_true, beq_iff_eq] at hhit
      rcases hhit.2 with (hstatus | hstatus) | ⟨hstatus, -⟩ <;> rw [hstatus] at hfinal <;>
        cases hfinal
    · exact ⟨fun hfinal => hfinal, .inl⟩
  | settle hm hput =>
    refine ⟨_, hm.rows e, fun row => ?_⟩
    split
    · refine ⟨fun _ => hput row, fun hpending => ?_⟩
      have hfinal := hput row
      rw [hpending] at hfinal
      cases hfinal
    · exact ⟨fun hfinal => hfinal, .inl⟩
  | advance hm =>
    refine ⟨_, hm.rows e, fun row => ?_⟩
    split
    · next hhit =>
      obtain ⟨-, -, hne, -, hfinal⟩ := hm.hit e row hhit
      exact ⟨hfinal, fun hpending => absurd hpending hne⟩
    · exact ⟨fun hfinal => hfinal, .inl⟩
  | reserve =>
    refine ⟨_, update_rows, fun row => ?_⟩
    split
    · next hhit =>
      refine ⟨fun hfinal => ?_, by simp⟩
      rw [eq_of_beq (Bool.and_eq_true_iff.1 hhit).2] at hfinal
      cases hfinal
    · exact ⟨fun hfinal => hfinal, .inl⟩

/-! ## Input that stays out of the queue -/

def KeepsFinal (s s' : Store E) : Prop :=
  ∀ (e : String) (row : Row E), s.rows[e]? = some row → row.status.final = true →
    ∃ row', s'.rows[e]? = some row' ∧ row'.status.final = true

theorem KeepsFinal.rfl : KeepsFinal s s := fun _ row hrow hfinal => ⟨row, hrow, hfinal⟩

theorem KeepsFinal.trans (h : KeepsFinal s s') (h' : KeepsFinal s' s'') : KeepsFinal s s'' :=
    fun e row hrow hfinal => by
  obtain ⟨row', hrow', hfinal'⟩ := h e row hrow hfinal
  exact h' e row' hrow' hfinal'

theorem Moves.keepsFinal (hm : Moves L s s') : KeepsFinal s s' := by
  induction hm with
  | refl => exact .rfl
  | tail _ hm ih =>
    obtain ⟨id, hm⟩ := hm
    refine ih.trans fun e row hrow hfinal => ?_
    obtain ⟨g, hg, hrows⟩ := hm.rows e
    exact ⟨g row, by rw [hg, hrow]; rfl, (hrows row).1 hfinal⟩

variable {row : Option (Row E)}

theorem keepsFinal_writeRow (hfree : s.free e = true) : KeepsFinal s (s.writeRow e row) := by
  intro e' row' hrow' hfinal
  have hne : e ≠ e' := by
    rintro rfl
    simp only [free, hrow', all_some, Bool.or_eq_true, beq_iff_eq] at hfree
    rcases hfree with hstatus | hstatus <;> rw [hstatus] at hfinal <;> cases hfinal
  refine ⟨row', ?_, hfinal⟩
  cases row with
  | none => exact (Tables.getElem?_erase_ne hne).trans hrow'
  | some row => exact (getElem?_insert_ne hne).trans hrow'

theorem keepsFinal_step (op : Op E) : KeepsFinal s (s.step op) := by
  by_cases hrow : ∃ e row, op = .row e row
  · obtain ⟨e, row, rfl⟩ := hrow
    rw [step]
    split
    · next hfree => exact keepsFinal_writeRow hfree
    · exact .rfl
  · exact (moves_step fun e row heq => hrow ⟨e, row, heq⟩).keepsFinal

theorem keepsFinal_run (ops : List (Op E)) : KeepsFinal s (s.run ops) := by
  induction ops generalizing s with
  | nil => exact .rfl
  | cons op ops ih => exact (keepsFinal_step op).trans ih

/-! ## Input that comes back to the queue -/

/-- The events that become pending are among the given ones. -/
def Frees (P : String → Prop) (s s' : Store E) : Prop :=
  ∀ e, s'.isPending e = true → s.isPending e = true ∨ P e

variable {P : String → Prop}

theorem isPending_iff : s.isPending e = true ↔ ∃ row, s.rows[e]? = some row ∧
    row.status = .pending := by
  simp [isPending, any_eq_true]

theorem Moves.frees (hm : Moves L s s') : Frees (fun e => ∃ id r, L id r ∧ e ∈ r.events) s s' := by
  induction hm with
  | refl => exact fun e => .inl
  | tail _ hm ih =>
    obtain ⟨id, hm⟩ := hm
    intro e he
    obtain ⟨row', hrow', hstatus⟩ := isPending_iff.1 he
    obtain ⟨g, hg, hrows⟩ := hm.rows e
    rw [hg] at hrow'
    obtain ⟨row, hrow, rfl⟩ := map_eq_some_iff.1 hrow'
    rcases (hrows row).2 hstatus with hpending | hreleased
    · exact ih e (isPending_iff.2 ⟨row, hrow, hpending⟩)
    · exact .inr ⟨id, hreleased⟩

def Reserved (s : Store E) (e : String) : Prop :=
  ∃ (id : String) (r : Receipt), s.receipts[id]? = some r ∧ r.stage = .reserved ∧ e ∈ r.events

def Sent (s : Store E) (e : String) : Prop :=
  ∃ (id : String) (r : Receipt), s.receipts[id]? = some r ∧ r.stage.sent.isSome = true ∧
    e ∈ r.events

theorem frees_writeRow (h : ∀ row', row = some row' → row'.status = .pending → P e) :
    Frees P s (s.writeRow e row) := by
  intro e' he'
  obtain ⟨row', hrow', hstatus⟩ := isPending_iff.1 he'
  cases row with
  | none => exact .inl (isPending_iff.2 ⟨row', (of_getElem?_erase hrow').2, hstatus⟩)
  | some row =>
    rcases of_getElem?_insert hrow' with ⟨rfl, rfl⟩ | ⟨-, hrow'⟩
    · exact .inr (h row (Eq.refl _) hstatus)
    · exact .inl (isPending_iff.2 ⟨row', hrow', hstatus⟩)

/-- The event was sent and its fate is open: a receipt of sent input lists it, or a steer is sending
it. -/
def Submitted (s : Store E) (e : String) : Prop :=
  s.Sent e ∨ ∃ row, s.rows[e]? = some row ∧ row.steered = true ∧ row.status = .dispatching

/-- The operations that may return submitted input: they prove that it was not applied. -/
def Disproves (s : Store E) (e : String) : Op E → Prop
  | .notSent _ | .rejected _ | .releaseAfterEnd _ _ => True
  | .terminal _ unapplied =>
    ∃ (id : String) (r : Receipt), s.receipts[id]? = some r ∧ e ∈ r.events ∧ r.first ∈ unapplied
  | _ => False

/-- Submitted input becomes pending only by an operation that proves that it was not applied. -/
def ReturnsUnapplied (s : Store E) (op : Op E) : Prop :=
  ∀ e, s.Submitted e → s.isPending e = false → (s.step op).isPending e = true → s.Disproves e op

theorem Inv.sent_of_submitted (h : s.Inv) (he : s.Submitted e) : s.Sent e := by
  rcases he with hsent | ⟨row, hrow, hsteered, hstatus⟩
  · exact hsent
  obtain ⟨id, r, hr, howns, hholds⟩ := h.owned e row hrow hsteered (by rw [hstatus]; rfl)
  refine ⟨id, r, hr, ?_, (owns_iff.1 howns).2⟩
  cases hstage : r.stage <;> simp_all [SteerState.holds, SteerState.sent]

theorem Inv.not_reserved_of_sent (h : s.Inv) (he : s.Sent e) : ¬ s.Reserved e := by
  rintro ⟨id, r, hr, hstage, hmem⟩
  obtain ⟨id', r', hr', hsent, hmem'⟩ := he
  obtain ⟨-, rfl⟩ := h.eq_of_mem hr hr' hmem hmem'
  rw [hstage] at hsent
  cases hsent

theorem Releases.disproves (h : s.Releases op id r) (he : e ∈ r.events) :
    s.Disproves e op ∨ s.Reserved e := by
  obtain ⟨hr, hstage | h⟩ := h
  · exact .inr ⟨id, r, hr, hstage, he⟩
  · cases op with
    | notSent | rejected | releaseAfterEnd => exact .inl trivial
    | terminal turn unapplied => exact .inl ⟨id, r, hr, he, h.2.2⟩
    | _ => exact h.elim

/-- The events that an operation can make pending: those that it disproves, events of reserved
receipts, and events that no receipt lists. -/
theorem frees_step (hop : s.Careful op) :
    Frees (fun e => s.Disproves e op ∨ s.Reserved e ∨ ¬ s.Lists e) s (s.step op) := by
  by_cases hrow : ∃ e row, op = .row e row
  · obtain ⟨e, row, rfl⟩ := hrow
    rw [step]
    split
    · next hfree =>
      exact frees_writeRow fun row' hrow' hstatus => .inr (.inr (hop hfree row' hrow' hstatus))
    · exact fun e => .inl
  · intro e he
    refine ((moves_step fun e row heq => hrow ⟨e, row, heq⟩).frees e he).imp id ?_
    rintro ⟨id, r, hreleases, hmem⟩
    exact (hreleases.disproves hmem).imp_right .inl

theorem Inv.returnsUnapplied (h : s.Inv) (hop : s.Careful op) : s.ReturnsUnapplied op := by
  intro e hsubmitted hbefore hafter
  have hsent := h.sent_of_submitted hsubmitted
  rcases frees_step hop e hafter with hpending | hdisproves | hreserved | hlists
  · rw [hbefore] at hpending
    cases hpending
  · exact hdisproves
  · exact absurd hreserved (h.not_reserved_of_sent hsent)
  · obtain ⟨id, r, hr, -, hmem⟩ := hsent
    exact absurd ⟨id, r, hr, hmem⟩ hlists

/-! ## Runs -/

structure Start (s : Store E) : Prop where
  receipts : s.receipts = ∅
  rows : ∀ (e : String) (row : Row E), s.rows[e]? = some row → row.steered = false

theorem Start.inv (h : s.Start) : s.Inv := by
  have hnone : ∀ id : String, s.receipts[id]? = none := fun id => by rw [h.receipts, getElem?_empty]
  constructor
  · rintro e row ⟨id, r, hr, -⟩
    rw [hnone] at hr
    cases hr
  · intro id id' e r r' hr
    rw [hnone] at hr
    cases hr
  · intro e row hrow hsteered
    rw [h.rows e row hrow] at hsteered
    cases hsteered

def OpenListed (s : Store E) : Prop :=
  ∀ (e : String) (row : Row E), s.rows[e]? = some row → row.steered = true →
    row.status.isOpen = true → s.Lists e

/-- No two receipts that are reserved or submitted share an event. -/
def ActiveApart (s : Store E) : Prop :=
  ∀ (id id' e : String) (r r' : Receipt), s.receipts[id]? = some r → s.receipts[id']? = some r' →
    r.stage.active = true → r'.stage.active = true → e ∈ r.events → e ∈ r'.events → id = id'

/-- Delivered input is never pending again. And if input that may be with the provider is not
reported as unsent, refused or unapplied, and other code does not make a listed event pending, then
in every run open events are listed, active receipts share no event, and submitted input becomes
pending only when it is proven not applied. -/
theorem run_receipts (h : s.Start) :
    (∀ (ops ops' : List (Op E)) (e : String) (row row' : Row E), (s.run ops).rows[e]? = some row →
      row.status = .delivered → (s.run (ops ++ ops')).rows[e]? = some row' →
        row'.status ≠ .pending) ∧
    ∀ ops : List (Op E), Along step Careful s ops →
      (s.run ops).OpenListed ∧ (s.run ops).ActiveApart ∧ Along step ReturnsUnapplied s ops := by
  constructor
  · intro ops ops' e row row' hrow hstatus hrow' hpending
    obtain ⟨row'', hrow'', hfinal⟩ := keepsFinal_run ops' e row hrow (by rw [hstatus]; rfl)
    rw [run, List.foldl_append] at hrow'
    cases hrow'.symm.trans hrow''
    rw [hpending] at hfinal
    cases hfinal
  · intro ops hcareful
    have hinv : (s.run ops).Inv := hcareful.invariant h.inv fun s op h hop => h.step hop
    refine ⟨fun e row hrow hsteered hopen => ?_, fun id id' e r r' hr hr' _ _ =>
      hinv.apart id id' e r r' hr hr', ?_⟩
    · obtain ⟨id, r, hr, howns, -⟩ := hinv.owned e row hrow hsteered hopen
      exact ⟨id, r, hr, (owns_iff.1 howns).2⟩
    · exact hcareful.imp h.inv fun s op h hop => ⟨h.step hop, h.returnsUnapplied hop⟩

/-! ### A store with one event -/

/-- Every event may join the running turn, and nothing is retired. -/
def everything : Policy Unit where
  steerable := fun _ => .ok true
  prepare := fun _ _ => .ok (∅, ∅, ∅)
  obsolete := fun _ _ => ∅

def busyAgent : Agent where
  status := .running
  epoch := 1
  deleted := false
  autoWake := some true
  inFlight := some true
  accountKey := "account"
  turnId := some "turn"
  threadId := some "thread"
  startAttempt := some
    { turnId := some "turn", threadId := some "thread", epoch := some 1, submitted := some true,
      hasAction := false,
      accountKey := some "account", connectionGeneration := some 1, events := some ["start"] }
  remoteWorker := false
  remoteAnchor := false
  vm := false
  held := false
  steerRejectedTurnId := none

def pendingRow : Row Unit where
  status := .pending
  epoch := 1
  turnId := none
  error := none
  created := 1
  rowid := 1
  content := ()
  steered := false

def busyStore : Store Unit := ⟨some busyAgent, Std.ExtTreeMap.ofList [("e", pendingRow)] compare, ∅⟩

theorem busyStore_start : busyStore.Start := by
  refine ⟨rfl, fun e row hrow => ?_⟩
  have hmem := mem_toList_iff_getElem?_eq_some.2 hrow
  have hlist : busyStore.rows.toList = [("e", pendingRow)] := by rfl
  rw [hlist, List.mem_singleton] at hmem
  cases hmem
  rfl

def claimed (steer : String) : Op Unit := .claim everything 1 steer 2

def submitted (steer : String) : Op Unit := .submit steer "ticket" 1 3

theorem certain_of_mem {s : Store Unit} {r : Receipt}
    (h : ∀ entry ∈ s.receipts.toList, entry.2.stage.certain = true)
    (hr : s.receipts[id]? = some r) :
    r.stage.certain = true := h _ (mem_toList_iff_getElem?_eq_some.2 hr)

/-- A steer that was not sent, one that the turn ended without, and one that the provider
acknowledges. -/
def acknowledged : List (Op Unit) :=
  [claimed "first", .notSent "first", claimed "second", submitted "second", .terminal "turn" ["e"],
    claimed "third", submitted "third", .acknowledge "e" "thread" "turn"]

theorem run_receipts_acknowledged :
    busyStore.Start ∧ Along step Careful busyStore acknowledged ∧
      (busyStore.run acknowledged).rows["e"]?.map (·.status) = some .delivered ∧
      (busyStore.run acknowledged).OpenListed ∧ (busyStore.run acknowledged).ActiveApart ∧
      Along step ReturnsUnapplied busyStore acknowledged := by
  have hcareful : Along step Careful busyStore acknowledged := by
    refine ⟨trivial, ?_, trivial, trivial, ?_, trivial, trivial, trivial, trivial⟩
    · exact fun r hr => certain_of_mem (by decide +kernel) hr
    · intro id r sent hr hstage _ _
      have hcertain : r.stage.certain = true := certain_of_mem (by decide +kernel) hr
      simpa [hstage, SteerState.certain] using hcertain
  exact ⟨busyStore_start, hcareful, by decide +kernel,
    (run_receipts busyStore_start).2 acknowledged hcareful⟩

/-- A Stop leaves the input of a steer in the provider's queue, and the end of the turn reports it
as unapplied. -/
def stopped : List (Op Unit) :=
  [claimed "first", submitted "first",
    .interrupt "account" 1 "thread"
      (.obj [("cancelled", .arr []), ("still_queued", .arr [.str "e"])]),
    .terminal "turn" ["e"]]

/-- A steer is unconfirmed, its event is made pending again and claimed by a second steer, and then
the first steer is reported as not sent: a third one claims the event that the second has reserved.
-/
def retried : List (Op Unit) :=
  [claimed "first", submitted "first", .abandon "account" 2, .row "e" (some pendingRow),
    claimed "second", .notSent "first", claimed "third"]

def resent : List (Op Unit) := retried ++ [submitted "third"]

structure Overview where
  status : Option EventStatus
  steered : Option Bool
  receipts : List (String × Bool × List String)
deriving DecidableEq

def overview (s : Store Unit) : Overview where
  status := s.rows["e"]?.map (·.status)
  steered := s.rows["e"]?.map (·.steered)
  receipts := s.receipts.toList.map fun entry => (entry.1, entry.2.stage.active, entry.2.events)

theorem overviews : (busyStore.run stopped).overview = ⟨some .uncertain, some true, []⟩ ∧
      (busyStore.run retried).overview =
        ⟨some .reserved, some true, [("second", true, ["e"]), ("third", true, ["e"])]⟩ ∧
      (busyStore.run resent).overview =
        ⟨some .dispatching, some true, [("second", true, ["e"]), ("third", true, ["e"])]⟩ ∧
      ((busyStore.run resent).step (.abandon "account" 0)).overview =
        ⟨some .pending, some true, [("third", true, ["e"])]⟩ := by
  decide +kernel

theorem exists_row_of_overview {s : Store Unit} {status : EventStatus} {steered : Bool}
    {l : List (String × Bool × List String)} (h : s.overview = ⟨some status, some steered, l⟩) :
    ∃ row, s.rows["e"]? = some row ∧ row.status = status ∧ row.steered = steered := by
  obtain ⟨row, hrow, hstatus⟩ := map_eq_some_iff.1 (congrArg Overview.status h)
  obtain ⟨row', hrow', hsteered⟩ := map_eq_some_iff.1 (congrArg Overview.steered h)
  cases hrow.symm.trans hrow'
  exact ⟨row, hrow, hstatus, hsteered⟩

theorem mem_overview_receipts {s : Store Unit} {active : Bool} {events : List String} :
    (id, active, events) ∈ s.overview.receipts ↔
      ∃ r, s.receipts[id]? = some r ∧ r.stage.active = active ∧ r.events = events := by
  simp only [overview, List.mem_map, Prod.exists, mem_toList_iff_getElem?_eq_some, Prod.mk.injEq]
  constructor
  · rintro ⟨_, r, hr, rfl, hactive, hevents⟩
    exact ⟨r, hr, hactive, hevents⟩
  · rintro ⟨r, hr, hactive, hevents⟩
    exact ⟨id, r, hr, rfl, hactive, hevents⟩

/-- Open input that no receipt lists, an event that two reserved receipts share, and submitted input
that abandoning another receipt makes pending. -/
theorem stopped_retried_resent :
    busyStore.Start ∧ ¬ (busyStore.run stopped).OpenListed ∧ ¬ (busyStore.run retried).ActiveApart ∧
      ¬ (busyStore.run resent).ReturnsUnapplied (.abandon "account" 0) := by
  obtain ⟨hstopped, hretried, hresent, habandoned⟩ := overviews
  refine ⟨busyStore_start, fun hlisted => ?_, fun hapart => ?_, fun hreturns => ?_⟩
  · obtain ⟨row, hrow, hstatus, hsteered⟩ := exists_row_of_overview hstopped
    obtain ⟨id, r, hr, -⟩ := hlisted "e" row hrow hsteered (by rw [hstatus]; rfl)
    have hmem := mem_overview_receipts.2 ⟨r, hr, rfl, rfl⟩
    rw [hstopped] at hmem
    cases hmem
  · have hmem : ("second", true, ["e"]) ∈ (busyStore.run retried).overview.receipts :=
      by simp [hretried]
    have hmem' : ("third", true, ["e"]) ∈ (busyStore.run retried).overview.receipts :=
      by simp [hretried]
    obtain ⟨r, hr, hactive, hevents⟩ := mem_overview_receipts.1 hmem
    obtain ⟨r', hr', hactive', hevents'⟩ := mem_overview_receipts.1 hmem'
    have heq := hapart "second" "third" "e" r r' hr hr' hactive hactive' (by simp [hevents])
      (by simp [hevents'])
    exact absurd heq (by decide)
  · obtain ⟨row, hrow, hstatus, hsteered⟩ := exists_row_of_overview hresent
    obtain ⟨row', hrow', hstatus', -⟩ := exists_row_of_overview habandoned
    have hbefore : (busyStore.run resent).isPending "e" = false := by
      simp [isPending, hrow, hstatus]
    exact hreturns "e" (.inr ⟨row, hrow, hsteered, hstatus⟩) hbefore
      (isPending_iff.2 ⟨row', hrow', hstatus'⟩)

end Store

end Layr.Steer
