import Layr.Lib.Runs
import Layr.RulesMoves

/-!
# Runs of a rule

One rule with its owner, and the past of its checks and wakes: which checks were issued and on which
path, which of them ended or were given up, which wakes were made and for which check number. Ticks,
events, outcomes of submissions, ends of monitors, recoveries, changes of the owner and the user's
pause and resume come in any order. A result is one of a check that was issued once, however long
ago; a monitor ends once, as its row is then terminal.

In every run the numbers of the checks grow, one check is in flight at most, a number wakes once at
most, and nothing is issued or woken against the owner (`Inv`).
-/

namespace Layr.Rules

open Runs List Option

/-! ## The past -/

structure Issued where
  check : RuleCheck
  path : Path
  rule : RuleRecord
  owner : Owner

def Issued.number (i : Issued) : ℕ := i.check.checkNumber

structure Woken where
  kind : WakeKind
  /-- The number of its check, if it is about one. -/
  number : Option ℕ
  /-- The path, for a wake of the decision that took the number; a later result has none. -/
  path : Option Path
  rule : RuleRecord
  owner : Owner

structure History where
  issued : List Issued
  woken : List Woken
  /-- The numbers of checks that ended or were given up. -/
  closed : List ℕ
  ended : List String

namespace History

/-- The check numbers that woke the owner. -/
def numbers (h : History) : List ℕ := h.woken.filterMap (·.number)

/-- The checks that did not end and were not given up. -/
def inFlight (h : History) : List Issued := h.issued.filter fun i => !h.closed.contains i.number

end History

structure World where
  rule : RuleRecord
  owner : Owner
  history : History

namespace World

def decide (w : World) (path : Path) (d : RuleDecision) : World :=
  let rule := d.stored.getD w.rule
  let number := if rule.checks = w.rule.checks then none else some rule.checks
  { w with
    rule
    history := { w.history with
      issued := w.history.issued ++ (d.check.map fun check => ⟨check, path, w.rule, w.owner⟩).toList
      woken := w.history.woken ++
        (d.wake.map fun wake => ⟨wake.kind, number, some path, w.rule, w.owner⟩).toList } }

/-- A result of the check with this number has decided. -/
def settle (w : World) (number : ℕ) (d : RuleDecision) : World :=
  { w with
    rule := d.stored.getD w.rule
    history := { w.history with
      closed := if d.record.isSome then number :: w.history.closed else w.history.closed
      woken := w.history.woken ++
        (d.wake.map fun wake => ⟨wake.kind, some w.rule.checks, none, w.rule, w.owner⟩).toList } }

def recover (w : World) (d : RuleDecision) : World :=
  { w with
    rule := d.stored.getD w.rule
    history := { w.history with
      closed := if d.record.isSome && w.rule.inFlight then w.rule.checks :: w.history.closed
        else w.history.closed } }

def endMonitor (w : World) (id : String) : World :=
  { w with history := { w.history with ended := id :: w.history.ended } }

def after (w : World) (result : Except Error RuleDecision) (next : RuleDecision → World) : World :=
  match result with
  | .ok d => next d
  | .error _ => w

def snapshot (w : World) : RuleSnapshot := ⟨w.rule, w.owner⟩

end World

/-! ## Events -/

inductive Event where
  | tick (now : ℚ) (file : Option RuleFileFingerprint) (workers : ℕ) (heldInput available : Bool)
  | event (kind text key : String) (now : ℚ) (available : Bool)
  | submission (check : RuleCheck) (outcome : CheckSubmission) (now : ℚ)
  | monitor (check : RuleCheck) (account : Option String) (after : MonitorEnd) (now : ℚ)
  | decline (check : RuleCheck) (tail : String) (now : ℚ)
  | recover (state : CheckReconciliation) (available : Bool) (now : ℚ)
  | owner (owner : Owner)
  | pause (now : ℚ)
  | resume (file : Option RuleFileFingerprint) (now : ℚ)

variable (c : Crates)

def World.runs (w : World) (check : RuleCheck) : Prop :=
  check ∈ w.history.issued.map (·.check) ∧ check.monitorId ∉ w.history.ended

instance (w : World) (check : RuleCheck) : Decidable (w.runs check) :=
  inferInstanceAs (Decidable (_ ∧ _))

def step (w : World) : Event → World
  | .tick now file workers heldInput available =>
    w.after (decideTick c w.rule w.owner now file workers heldInput available)
      (w.decide (w.snapshot.tickPath now))
  | .event kind text key now available =>
    w.after (decideEvent c w.rule w.owner kind text key now available) (w.decide .event)
  | .submission check outcome now =>
    if check ∈ w.history.issued.map (·.check) then
      w.after (settleSubmission c w.rule w.owner check outcome now) fun d =>
        match outcome with
        | .unknown => w.recover d
        | .accepted | .detached | .notSubmitted _ => w.settle check.checkNumber d
    else w
  | .monitor check account after now =>
    if w.runs check then
      w.after (monitorFinish c w.rule w.owner (check.monitor account) after now) fun d =>
        (w.settle (w.snapshot.expected c).checkNumber d).endMonitor check.monitorId
    else w
  | .decline check tail now =>
    if w.runs check then
      w.after (declineMonitor c w.rule w.owner (check.monitor none) tail now) fun d =>
        (w.settle (w.snapshot.check c).checkNumber d).endMonitor check.monitorId
    else w
  | .recover state available now =>
    w.after (recoverRule c w.rule w.owner state available now) w.recover
  | .owner owner => { w with owner }
  | .pause now =>
    match setStatus w.rule w.owner false none now with
    | .ok rule => { w with rule }
    | .error _ => w
  | .resume file now =>
    match setStatus w.rule w.owner true file now with
    | .ok rule => { w with rule }
    | .error _ => w

/-! ## What holds in every run -/

/-- What the marks of a rule say about its past. -/
structure Inv (m : Marks) (h : History) : Prop where
  flight : m.inFlight = true → ∃ i ∈ h.issued, m.launchIntent = some i.check ∧ i.number = m.checks
  /-- So is the one that a restart left open. -/
  marked : ∀ k, m.restartCheck = some k → m.inFlight = false ∧
    ∃ i ∈ h.issued, i.number = m.checks ∧ (m.launchIntent = none ∨ m.launchIntent = some i.check)
  active : m.status = .active → m.restartCheck = none ∧ m.ownerHold = none
  held : m.ownerHold ≠ none → m.inFlight = false ∧ m.restartCheck = none
  /-- A check that can still wake did not wake yet. -/
  fresh : m.inFlight = true ∨ m.restartCheck ≠ none → m.checks ∉ h.numbers
  woken_le : ∀ n ∈ h.numbers, n ≤ m.checks
  issued_le : ∀ i ∈ h.issued, i.number ≤ m.checks
  opened : ∀ i ∈ h.issued, i.number ∉ h.closed → m.inFlight = true ∧ i.number = m.checks
  increasing : (h.issued.map (·.number)).Pairwise (· < ·)
  once : h.numbers.Nodup
  issued_for : ∀ i ∈ h.issued, i.owner.epoch = i.rule.epoch ∧ i.owner.autoWake = true
  woken_for : ∀ x ∈ h.woken, x.owner.wants x.rule.epoch

variable {c} {m : Marks} {h : History} {w : World} {d : RuleDecision} {path : Path}
  {check : RuleCheck}

@[simp] theorem stored_nothing : RuleDecision.nothing.stored = none := rfl

@[simp] theorem stored_some {r : RuleRecord} {wake : Option RuleWake} :
    (⟨some r, wake, none⟩ : RuleDecision).stored = some r := rfl

@[simp] theorem World.decide_nothing : w.decide path .nothing = w := by
  simp [World.decide, RuleDecision.nothing, RuleDecision.stored]

theorem World.decide_launched {r : RuleRecord} : w.decide path ⟨some r, none, some check⟩ =
    ⟨{ r with launchIntent := some check }, w.owner,
      { w.history with issued := w.history.issued ++ [⟨check, path, w.rule, w.owner⟩] }⟩ := by
  simp [World.decide, RuleDecision.stored]

variable {n : ℕ}

@[simp] theorem World.settle_nothing : w.settle n .nothing = w := by
  simp [World.settle, RuleDecision.nothing, RuleDecision.stored]

@[simp] theorem World.recover_nothing : w.recover .nothing = w := by
  simp [World.recover, RuleDecision.nothing, RuleDecision.stored]

namespace Inv

/-- The rule can tick, so no check is in flight and none is left open. -/
theorem free (hI : Inv w.rule.marks h) (can : tickCanChange w.rule) :
    w.rule.inFlight = false ∧ w.rule.restartCheck = none := by
  obtain can | can := can
  · obtain ⟨hst, hfl⟩ := RuleSnapshot.active_of_canTick can
    exact ⟨hfl, (hI.active hst).1⟩
  · simp only [ownerPaused, Bool.and_eq_true, decide_eq_true_eq, isSome_iff_ne_none] at can
    exact hI.held can.2

/-- While a check is in flight, none is left open and the owner holds nothing. -/
theorem flying (hI : Inv w.rule.marks h) (hfl : w.rule.inFlight = true) :
    w.rule.restartCheck = none ∧ w.rule.ownerHold = none := by
  have hne : w.rule.marks.inFlight ≠ false := by simp [RuleRecord.marks, hfl]
  exact ⟨eq_none_iff_forall_ne_some.2 fun k hk => hne (hI.marked k hk).1, not_not.1 fun hh =>
    hne (hI.held hh).1⟩

variable {new : List Woken}

theorem numbers_append :
    ({ h with woken := h.woken ++ new } : History).numbers = h.numbers ++
      new.filterMap (·.number) :=
  filterMap_append

section

variable (hI : Inv m h)
include hI

/-- The last check is over, and nothing is known to be open. -/
theorem idle (hfl : m.inFlight = false) {i : Issued} (hi : i ∈ h.issued) : i.number ∈ h.closed := by
  by_contra hc
  exact absurd (hI.opened i hi hc).1 (by simp [hfl])

variable {status : RuleStatus}

theorem changed {checks : ℕ} {hold : Option OwnerHold}
    (hfl : m.inFlight = false) (hmark : m.restartCheck = none) (hle : m.checks ≤ checks)
    (hfree : status = .active → hold = none)
    (hnew : ∀ x ∈ new, x.number = none ∧ x.owner.wants x.rule.epoch) :
    Inv { m with checks, status, ownerHold := hold } { h with woken := h.woken ++ new } := by
  have hnumbers : ({ h with woken := h.woken ++ new } : History).numbers = h.numbers := by
    rw [numbers_append, filterMap_eq_nil_iff.2 fun x hx => (hnew x hx).1, append_nil]
  exact
    { hI with
      flight := fun hf => absurd hf (by simp [hfl])
      marked := fun k hk => absurd hk (by simp [hmark])
      active := fun hst => ⟨hmark, hfree hst⟩
      held := fun _ => ⟨hfl, hmark⟩
      fresh := fun hf => absurd hf (by simp [hfl, hmark])
      woken_le := fun n hn => (hI.woken_le n (hnumbers ▸ hn)).trans hle
      issued_le := fun i hi => (hI.issued_le i hi).trans hle
      opened := fun i hi hc => absurd (hI.idle hfl hi) hc
      once := hnumbers ▸ hI.once
      woken_for := fun x hx => (mem_append.1 hx).elim (hI.woken_for x) fun hx => (hnew x hx).2 }

variable {probe : Option Bool}

theorem launched {i : Issued} (hfl : m.inFlight = false)
    (hmark : m.restartCheck = none) (hst : m.status = .active) (hi : i.number = m.checks + 1)
    (hfor : i.owner.epoch = i.rule.epoch ∧ i.owner.autoWake = true) :
    Inv { m with
      checks := m.checks + 1, inFlight := true, stallProbe := probe, launchIntent := some i.check }
      { h with issued := h.issued ++ [i] } := by
  have hmem : ∀ {x : Issued}, x ∈ h.issued ++ [i] ↔ x ∈ h.issued ∨ x = i := by simp
  exact
    { hI with
      flight := fun _ => ⟨i, hmem.2 (.inr rfl), rfl, hi⟩
      marked := fun k hk => absurd hk (by simp [hmark])
      held := fun hh => absurd (hI.active hst).2 hh
      fresh := fun _ hn => absurd (hI.woken_le _ hn) (by simp)
      woken_le := fun n hn => (hI.woken_le n hn).trans (Nat.le_succ _)
      issued_le := fun x hx => (hmem.1 hx).elim
        (fun hx => (hI.issued_le x hx).trans (Nat.le_succ _))
        fun hx => hx ▸ hi.le
      opened := fun x hx hc => (hmem.1 hx).elim (fun hx => absurd (hI.idle hfl hx) hc) fun hx =>
        ⟨rfl, hx ▸ hi⟩
      increasing := by
        rw [map_append, pairwise_append]
        refine ⟨hI.increasing, pairwise_singleton .., fun a ha b hb => ?_⟩
        obtain ⟨x, hx, rfl⟩ := mem_map.1 ha
        obtain rfl : b = i.number := by simpa using hb
        exact hi ▸ Nat.lt_succ_of_le (hI.issued_le x hx)
      issued_for := fun x hx => (hmem.1 hx).elim (hI.issued_for x) fun hx => hx ▸ hfor }

variable {new : Option Woken}

/-- A wake of a number that did not wake yet, if there is one. -/
theorem once_append (hn : n ∉ h.numbers) (hnew : ∀ x, new = some x → x.number = some n) :
    ({ h with woken := h.woken ++ new.toList } : History).numbers.Nodup := by
  rw [numbers_append]
  cases new with
  | none => simpa using hI.once
  | some x => simpa [nodup_append, hI.once, hnew x rfl] using fun a ha => ne_of_mem_of_not_mem ha hn

omit hI in
theorem mem_numbers_append {n k : ℕ} (hnew : ∀ x, new = some x → x.number = some n)
    (hk : k ∈ ({ h with woken := h.woken ++ new.toList } : History).numbers) :
    k ∈ h.numbers ∨ k = n := by
  rw [numbers_append, mem_append] at hk
  refine hk.imp id fun hk => ?_
  obtain ⟨x, hx, hxk⟩ := mem_filterMap.1 hk
  exact some.inj (hxk.symm.trans (hnew x (mem_toList.1 hx)))

theorem woken_for_append (hfor : ∀ x, new = some x → x.owner.wants x.rule.epoch) :
    ∀ x ∈ h.woken ++ new.toList, x.owner.wants x.rule.epoch := fun x hx =>
  (mem_append.1 hx).elim (hI.woken_for x) fun hx => hfor x (mem_toList.1 hx)

/-- The next check ends in the decision that issues it. -/
theorem finished (hfl : m.inFlight = false) (hmark : m.restartCheck = none)
    (hst : m.status = .active) (hnew : ∀ x, new = some x → x.number = some (m.checks + 1))
    (hfor : ∀ x, new = some x → x.owner.wants x.rule.epoch) :
    Inv { m with checks := m.checks + 1, inFlight := false, stallProbe := probe, status }
      { h with woken := h.woken ++ new.toList } where
  __ := hI
  flight := nofun
  marked := fun k hk => absurd hk (by simp [hmark])
  active := fun _ => hI.active hst
  held := fun hh => absurd (hI.active hst).2 hh
  fresh := fun hf => absurd hf (by simp [hmark])
  woken_le := fun n hn => (mem_numbers_append hnew hn).elim
    (fun hn => (hI.woken_le n hn).trans (Nat.le_succ _)) (·.le)
  issued_le := fun x hx => (hI.issued_le x hx).trans (Nat.le_succ _)
  opened := fun x hx hc => absurd (hI.idle hfl hx) hc
  once := hI.once_append (fun hn => absurd (hI.woken_le _ hn) (by simp)) hnew
  woken_for := hI.woken_for_append hfor

/-- The last check ends with its result. -/
theorem settled (hopen : m.inFlight = true ∨ m.restartCheck ≠ none)
    (hn : m.inFlight = true → n = m.checks) (hhold : m.ownerHold = none)
    (hnew : ∀ x, new = some x → x.number = some m.checks)
    (hfor : ∀ x, new = some x → x.owner.wants x.rule.epoch) :
    Inv { m with
      inFlight := false, stallProbe := probe, status, restartCheck := none, launchIntent := none }
      { h with closed := n :: h.closed, woken := h.woken ++ new.toList } where
  __ := hI
  flight := nofun
  marked := nofun
  active := fun _ => ⟨rfl, hhold⟩
  held := fun _ => ⟨rfl, rfl⟩
  fresh := fun hf => absurd hf (by simp)
  woken_le := fun k hk => (mem_numbers_append hnew hk).elim (hI.woken_le k) (·.le)
  opened := fun x hx hc => by
    obtain ⟨hne, hc⟩ := not_or.1 (mt mem_cons.2 hc)
    obtain ⟨hfl, hx⟩ := hI.opened x hx hc
    exact absurd (hx.trans (hn hfl).symm) hne
  once := hI.once_append (hI.fresh hopen) hnew
  woken_for := hI.woken_for_append hfor

/-- A result of a paused rule with no check in flight is noted. -/
theorem noted (hfl : m.inFlight = false) :
    Inv { m with inFlight := false, stallProbe := probe, launchIntent := none }
      { h with closed := n :: h.closed } where
  __ := hI
  flight := nofun
  marked := fun k hk => by
    obtain ⟨-, i, hi, hn, -⟩ := hI.marked k hk
    exact ⟨rfl, i, hi, hn, .inl rfl⟩
  held := fun hh => ⟨rfl, (hI.held hh).2⟩
  fresh := fun hf => hI.fresh (.inr (hf.resolve_left nofun))
  opened := fun i hi hc => absurd (mem_cons_of_mem _ (hI.idle hfl hi)) hc

/-- The check in flight is given up, and the rule may wait for its late result. -/
theorem gaveUp {mark : Option RestartCheck} (hfl : m.inFlight = true) :
    Inv { m with restartCheck := mark, inFlight := false, status := .paused }
      { h with closed := m.checks :: h.closed } where
  __ := hI
  flight := nofun
  marked := fun k _ => by
    obtain ⟨i, hi, hint, hn⟩ := hI.flight hfl
    exact ⟨rfl, i, hi, hn, .inr hint⟩
  active := nofun
  held := fun hh => absurd (hI.held hh).1 (by simp [hfl])
  fresh := fun _ => hI.fresh (.inl hfl)
  opened := fun i hi hc => by
    obtain ⟨hne, hc⟩ := not_or.1 (mt mem_cons.2 hc)
    exact absurd (hI.opened i hi hc).2 hne

/-- The user sets the status. -/
theorem userStatus : Inv { m with ownerHold := none, restartCheck := none, status } h where
  __ := hI
  marked := nofun
  active := fun _ => ⟨rfl, rfl⟩
  held := fun hh => absurd rfl hh
  fresh := fun hf => hI.fresh (.inl (hf.resolve_right (absurd rfl)))

end

/-! ## One event -/

section

variable (hI : Inv w.rule.marks w.history)
include hI

theorem decide (hd : Decided c w.rule w.owner path d) :
    Inv (w.decide path d).rule.marks (w.decide path d).history := by
  cases hd with
  | nothing => rwa [World.decide_nothing]
  | @changed r' wake checks status hold can hm hle hfree hwake =>
    obtain ⟨hfl, hmark⟩ := hI.free can
    have hc : r'.checks = checks := congrArg Marks.checks hm
    simp only [World.decide, stored_some, getD_some, map_none, toList_none, append_nil, hm]
    refine hI.changed hfl hmark hle (fun hst => ?_) fun x hx => ?_
    · exact (hfree hst).elim id fun ⟨hact, hh⟩ => hh.trans (hI.active hact).2
    · obtain ⟨wk, rfl, rfl⟩ := map_eq_some_iff.1 (mem_toList.1 hx)
      obtain ⟨hsame, hwants⟩ := hwake (some_ne_none _)
      exact ⟨if_pos (hc.trans hsame), hwants⟩
  | @launched r' can he ha hm hcmd hlive =>
    obtain ⟨hst, hfl⟩ := RuleSnapshot.active_of_canTick can
    have hc : r'.checks = w.rule.checks + 1 := congrArg Marks.checks hm
    set check := (⟨r', w.owner⟩ : RuleSnapshot).check c with hcheck
    have hm' : ({ r' with launchIntent := some check } : RuleRecord).marks =
        { w.rule.marks.next path with launchIntent := some check } :=
      congrArg (fun m : Marks => { m with launchIntent := some check }) hm
    rw [World.decide_launched, hm']
    exact hI.launched (i := ⟨check, path, w.rule, w.owner⟩) hfl (hI.active hst).1 hst hc ⟨he, ha⟩
  | @finished r' wake status can hm hwake =>
    obtain ⟨hst, hfl⟩ := RuleSnapshot.active_of_canTick can
    have hc : r'.checks = w.rule.checks + 1 := congrArg Marks.checks hm
    simp only [World.decide, stored_some, getD_some, map_none, toList_none, append_nil, hm]
    refine hI.finished hfl (hI.active hst).1 hst (fun x hx => ?_) fun x hx => ?_
    all_goals obtain ⟨wk, rfl, rfl⟩ := map_eq_some_iff.1 hx
    · exact (if_neg (by simp [hc])).trans (congrArg some hc)
    · exact (hwake wk rfl).1

theorem settle {result : CheckResult} (hs : Settled c w.rule w.owner check result d) :
    Inv (w.settle check.checkNumber d).rule.marks (w.settle check.checkNumber d).history := by
  cases hs with
  | nothing => rwa [World.settle_nothing]
  | @flight r' wake status hfl hexp hst hm hwake =>
    obtain ⟨hmark, hhold⟩ := hI.flying hfl
    obtain ⟨i, -, hint, hn⟩ := hI.flight hfl
    have hcheck : check = i.check :=
      hexp.symm.trans (by rw [RuleSnapshot.expected, show w.rule.launchIntent = _ from hint]; rfl)
    have hm' : r'.marks = { w.rule.marks with
        inFlight := false, stallProbe := w.rule.marks.settle.stallProbe, status,
          restartCheck := none
        launchIntent := none } := hm.trans (by simp [Marks.settle, RuleRecord.marks, hmark])
    simp only [World.settle, stored_some, getD_some, isSome_some, if_true, hm']
    refine hI.settled (.inl hfl) (fun _ => hcheck ▸ hn) hhold (fun x hx => ?_) fun x hx => ?_
    all_goals obtain ⟨wk, rfl, rfl⟩ := map_eq_some_iff.1 hx
    · rfl
    · exact (hwake wk rfl).1
  | @cancelled r' hfl hpaused hexp hc hm =>
    simp only [World.settle, stored_some, getD_some, isSome_some, if_true, hm, map_none,
      toList_none, append_nil]
    exact hI.noted hfl
  | @marked r' wake status hfl hexp hmark hst hm hwake =>
    have hne : w.rule.restartCheck ≠ none := by simp [hmark]
    have hhold : w.rule.ownerHold = none := by
      by_contra hh
      exact hne (hI.held hh).2
    simp only [World.settle, stored_some, getD_some, isSome_some, if_true, hm]
    refine hI.settled (.inr hne) (fun h => absurd h (by simp [RuleRecord.marks, hfl])) hhold
      (fun x hx => ?_)
      fun x hx => ?_
    all_goals obtain ⟨wk, rfl, rfl⟩ := map_eq_some_iff.1 hx
    · rfl
    · exact (hwake wk rfl).1

theorem recover (hr : Recovered c w.rule w.owner d) :
    Inv (w.recover d).rule.marks (w.recover d).history := by
  cases hr with
  | nothing => rwa [World.recover_nothing]
  | @kept r' hfl hm =>
    simp only [World.recover, stored_some, getD_some, isSome_some, Bool.true_and, hfl, hm]
    exact hI
  | @gaveUp r' hfl hm =>
    simp only [World.recover, stored_some, getD_some, isSome_some, Bool.true_and, hfl, if_true, hm]
    exact hI.gaveUp hfl

theorem endMonitor {id : String} : Inv (w.endMonitor id).rule.marks (w.endMonitor id).history where
  __ := hI

theorem setStatus {resume : Bool} {file : Option RuleFileFingerprint} {now : ℚ} {r' : RuleRecord}
    (hs : Rules.setStatus w.rule w.owner resume file now = .ok r') : Inv r'.marks w.history := by
  obtain ⟨-, rfl | hm⟩ := setStatus_eq_ok hs
  · exact hI
  · exact hm ▸ hI.userStatus

theorem after {next : RuleDecision → World} {result : Except Error RuleDecision}
    (hnext : ∀ d, result = .ok d → Inv (next d).rule.marks (next d).history) :
    Inv (w.after result next).rule.marks (w.after result next).history := by
  cases result with
  | error _ => exact hI
  | ok d => exact hnext d rfl

/-- Each event is a decision, a result, a recovery or the user's, and as such keeps the rules. -/
theorem step {e : Event} : Inv (step c w e).rule.marks (step c w e).history := by
  cases e with
  | tick now file workers heldInput available =>
    exact hI.after fun d hd => hI.decide (decided_decideTick hd)
  | event kind text key now available =>
    exact hI.after fun d hd => hI.decide (decided_decideEvent hd)
  | submission check outcome now =>
    simp only [Rules.step]
    split
    · refine hI.after fun d hd => ?_
      cases outcome with
      | unknown => exact hI.recover (recovered_settleSubmission hd)
      | accepted | detached | notSubmitted error =>
        obtain ⟨result, -, hs⟩ := settled_settleSubmission hd nofun
        exact hI.settle hs
    · exact hI
  | monitor check account after now =>
    simp only [Rules.step]
    split
    · exact hI.after fun d hd => (hI.settle (monitorFinish_eq_ok hd).2).endMonitor
    · exact hI
  | decline check tail now =>
    simp only [Rules.step]
    split
    · refine hI.after fun d hd => ?_
      obtain ⟨-, result, -, hs⟩ := declineMonitor_eq_ok hd
      exact (hI.settle hs).endMonitor
    · exact hI
  | recover state available now => exact hI.after fun d hd => hI.recover (recovered_recoverRule hd)
  | owner o => exact hI
  | pause | resume =>
    simp only [Rules.step]
    split
    · next hs => exact hI.setStatus hs
    · exact hI

end

end Inv

end Layr.Rules
