import Layr.Rules

/-!
# What a decision about a rule can do

The fields of a rule that say what became of its last check are its marks. Each decision of the
engine moves the marks in one of few ways: a tick or an event leaves the last check alone, launches
the next one or finishes it at once (`Decided`); a result settles the check in flight, is noted for
a paused rule, or wakes a rule that a restart left waiting for it (`Settled`); a recovery gives the
check in flight up (`Recovered`).
-/

namespace Layr.Rules

structure Marks where
  id : String
  status : RuleStatus
  checks : ℕ
  inFlight : Bool
  stallProbe : Option Bool
  ownerHold : Option OwnerHold
  restartCheck : Option RestartCheck
  launchIntent : Option RuleCheck

def RuleRecord.marks (r : RuleRecord) : Marks :=
  ⟨r.id, r.status, r.checks, r.inFlight, r.stallProbe, r.ownerHold, r.restartCheck, r.launchIntent⟩

/-- No check is in flight any more, and none is a probe. -/
def Marks.settle (m : Marks) : Marks :=
  { m with
    inFlight := false, stallProbe := if m.stallProbe = some true then some false else m.stallProbe }

/-- The kind of the wake that a check with this probe mark gives. -/
def wakeKind (probe : Option Bool) : WakeKind := if probe = some true then .ruleStall else .rule

/-- The owner wants the wakes of this epoch, or a restart recovery waits for it. -/
def Owner.wants (o : Owner) (epoch : ℕ) : Prop :=
  o.epoch = epoch ∧ (o.autoWake = true ∨ o.restartPending = true)

/-- A tick can change the rule (`tick_can_change`). -/
def tickCanChange (r : RuleRecord) : Prop := canTick r = true ∨ ownerPaused r = true

variable {c : Crates} {s : RuleSnapshot} {r : RuleRecord} {o : Owner} {d : RuleDecision} {now : ℚ}

variable {result : CheckResult} {wake : Option RuleWake}

namespace RuleSnapshot

theorem wants_of_authorized (h : s.authorized = true) : s.raw.status = .active ∧
    s.owner.wants s.raw.epoch := by
  simp only [authorized, Owner.finishAllowed, Bool.and_eq_true, Bool.or_eq_true,
    decide_eq_true_eq] at h
  obtain ⟨⟨hst, he⟩, ha | ⟨-, hp⟩⟩ := h
  · exact ⟨hst, he, .inl ha⟩
  · exact ⟨hst, he, .inr hp⟩

/-! ## The end of a check -/

theorem stallWake_kind (h : s.stallWake now result = .ok wake)
    {x : RuleWake} (hx : wake = some x) : s.authorized = true ∧ x.kind = .ruleStall := by
  unfold stallWake at h
  split at h
  case isTrue hauth =>
    simp only [bind_eq_ok, pure_eq_ok] at h
    obtain ⟨id, -, rfl⟩ := h
    cases hx
    exact ⟨(Bool.and_eq_true_iff.1 hauth).1, rfl⟩
  case isFalse =>
    cases h
    cases hx

/-- A finished check settles the marks. A one-shot rule is then complete. -/
theorem finish_eq_ok (h : s.finish c now result = .ok d) :
    ∃ r' wake status, d = ⟨some r', wake, none⟩ ∧
      (status = s.raw.status ∨ s.raw.status = .active ∧ status = .completed) ∧
      r'.marks = { s.raw.marks.settle with status } ∧
      ∀ x, wake = some x → s.authorized = true ∧ x.kind = wakeKind s.raw.stallProbe := by
  unfold finish at h
  split at h
  case isTrue hp =>
    simp only [finishStall, bind_eq_ok, pure_eq_ok] at h
    obtain ⟨wake, hwake, generation, -, rfl⟩ := h
    refine ⟨_, wake, _, rfl, .inl rfl, ?_, fun x hx => ?_⟩
    · simp [RuleRecord.marks, Marks.settle, hp]
    · simpa [wakeKind, hp] using stallWake_kind hwake hx
  case isFalse hp =>
    simp only [finishRule, bind_eq_ok, pure_eq_ok] at h
    obtain ⟨count, -, rfl⟩ := h
    refine ⟨_, _, if s.raw.kind = .once && s.raw.status = .active then .completed else s.raw.status,
      rfl, ?_, ?_, fun x hx => ?_⟩
    · split
      · next hst => exact .inr ⟨by simpa using (Bool.and_eq_true_iff.1 hst).2, rfl⟩
      · exact .inl rfl
    · simp [RuleRecord.marks, Marks.settle, hp]
    · split at hx
      · next hw =>
        cases hx
        exact ⟨(Bool.and_eq_true_iff.1 hw).2, by simp [wakeKind, hp]⟩
      · cases hx

/-! ## Launching -/

/-- The owner wants the checks of the rule now. -/
def ready (s : RuleSnapshot) : Prop := s.owner.autoWake = true ∧ s.owner.epoch = s.raw.epoch

/-- A launch is refused and the number is lost, finishes at once, or gives the check. -/
theorem launch_eq_ok {next : RuleRecord} (h : s.launch c next now = .ok d) :
    (next.status = .active → ¬ (⟨next, s.owner⟩ : RuleSnapshot).ready) ∧
      d = change { next with inFlight := false } ∨
      (⟨next, s.owner⟩ : RuleSnapshot).ready ∧
        ((∃ result, (⟨next, s.owner⟩ : RuleSnapshot).finish c now result = .ok d) ∨
          d = ⟨some next, none, some ((⟨next, s.owner⟩ : RuleSnapshot).check c)⟩) := by
  simp only [launch, withRecord, bind_eq_ok, fromStored_eq_ok] at h
  obtain ⟨_, ⟨-, rfl⟩, h⟩ := h
  split at h
  case isTrue hnot =>
    rw [pure_eq_ok] at h
    refine .inl ⟨fun hst hready => absurd hnot ?_, h.symm⟩
    have hauto : s.owner.autoWake = true := hready.1
    have hepoch : next.epoch = s.owner.epoch := hready.2.symm
    simp [hst, hauto, hepoch]
  case isFalse hready =>
    simp only [Bool.or_eq_true, decide_eq_true_eq, Bool.not_eq_true', not_or, not_not,
      Bool.not_eq_false] at hready
    refine .inr ⟨⟨hready.1.2, hready.2.symm⟩, ?_⟩
    split at h
    · exact .inl ⟨_, h⟩
    · rw [pure_eq_ok] at h
      exact .inr h.symm

end RuleSnapshot

/-! ## Ticks and events -/

inductive Path where
  | due | event | stall
deriving DecidableEq

namespace Path

/-- The probe mark of a rule whose next check comes on this path. -/
def probe : Path → Option Bool → Option Bool
  | stall, _ => some true
  | due, probe | event, probe => probe

/-- The command that a check of this path should run. -/
def command (r : RuleRecord) : Path → String
  | stall => r.livenessCommand
  | due | event => r.command

/-- The kind of wake that a check of this path should give. -/
def kind : Path → WakeKind
  | stall => .ruleStall
  | due | event => .rule

end Path

def Marks.next (m : Marks) (path : Path) : Marks :=
  { m with checks := m.checks + 1, inFlight := true, stallProbe := path.probe m.stallProbe }

/-- What a tick or an event may decide about the rule `r` of the owner `o`, on the path `path`. -/
inductive Decided (c : Crates) (r : RuleRecord) (o : Owner) (path : Path) : RuleDecision → Prop
  | nothing : Decided c r o path .nothing
  /-- The last check stays the last, or its next number is lost. A wake here is about no check. -/
  | changed {r' : RuleRecord} {wake : Option RuleWake} {checks : ℕ} {status : RuleStatus}
      {hold : Option OwnerHold}
      (can : tickCanChange r)
        (marks : r'.marks = { r.marks with checks, status, ownerHold := hold })
      (le : r.checks ≤ checks)
        (free : status = .active → hold = none ∨ r.status = .active ∧ hold = r.ownerHold)
      (wakes : wake ≠ none → checks = r.checks ∧ o.wants r.epoch) :
        Decided c r o path ⟨some r', wake, none⟩
  | launched {r' : RuleRecord} (can : canTick r = true) (epoch : o.epoch = r.epoch)
      (auto : o.autoWake = true)
      (marks : r'.marks = r.marks.next path) (command : r'.command = r.command)
      (liveness : r'.livenessCommand = r.livenessCommand) :
      Decided c r o path ⟨some r', none, some ((⟨r', o⟩ : RuleSnapshot).check c)⟩
  /-- A check without a command ends in the decision that issues it. -/
  | finished {r' : RuleRecord} {wake : Option RuleWake} {status : RuleStatus}
      (can : canTick r = true)
      (marks : r'.marks = { (r.marks.next path).settle with status })
      (wakes : ∀ x, wake = some x → o.wants r.epoch ∧ x.kind = wakeKind (path.probe r.stallProbe)) :
      Decided c r o path ⟨some r', wake, none⟩

variable {r' : RuleRecord} {heldInput : Bool}

namespace RuleSnapshot

variable {path : Path}

theorem active_of_canTick (h : canTick r = true) : r.status = .active ∧ r.inFlight = false := by
  simpa [canTick] using h

/-- The end of the next check in the decision that issues it. -/
theorem decided_finish {next : RuleRecord}
    (h : (⟨next, s.owner⟩ : RuleSnapshot).finish c now result = .ok d) (can : canTick s.raw = true)
    (hm : next.marks.settle = (s.raw.marks.next path).settle)
    (hp : next.stallProbe = path.probe s.raw.stallProbe) (hepoch : next.epoch = s.raw.epoch) :
    Decided c s.raw s.owner path d := by
  obtain ⟨r', wake, status, rfl, -, hr', hwake⟩ := finish_eq_ok h
  refine .finished can (hr'.trans (by rw [hm])) fun x hx => ?_
  obtain ⟨hauth, hkind⟩ := hwake x hx
  exact ⟨hepoch ▸ (wants_of_authorized hauth).2, hp ▸ hkind⟩

/-- A launch whose record is the rule with its next check in flight. -/
theorem decided_launch {next : RuleRecord} (h : s.launch c next now = .ok d)
    (can : canTick s.raw = true) (hready : path = .stall → s.ready)
    (hm : next.marks = s.raw.marks.next path)
    (hcmd : next.command = s.raw.command) (hlive : next.livenessCommand = s.raw.livenessCommand)
    (hepoch : next.epoch = s.raw.epoch) : Decided c s.raw s.owner path d := by
  have hst : next.status = .active := (congrArg Marks.status hm).trans (active_of_canTick can).1
  have hiff : (⟨next, s.owner⟩ : RuleSnapshot).ready ↔ s.ready := by simp [ready, hepoch]
  obtain ⟨hnot, rfl⟩ | ⟨hr, ⟨result, hfin⟩ | rfl⟩ := launch_eq_ok h
  · -- Only a rule that is not ready loses the number, so the path is not the stall path.
    have hprobe : path.probe s.raw.stallProbe = s.raw.stallProbe := by
      cases path with
      | stall => exact absurd (hiff.2 (hready rfl)) (hnot hst)
      | due | event => rfl
    have hm' : ({ next with inFlight := false } : RuleRecord).marks = { s.raw.marks with
        checks := s.raw.checks + 1, status := s.raw.status, ownerHold := s.raw.ownerHold } := by
      have hfree := (active_of_canTick can).2
      calc ({ next with inFlight := false } : RuleRecord).marks
        _ = { next.marks with inFlight := false } := rfl
        _ = _ := by rw [hm]; simp [Marks.next, RuleRecord.marks, hprobe, hfree]
    exact .changed (.inl can) hm' (Nat.le_succ _) (fun h => .inr ⟨h, rfl⟩) (absurd rfl)
  · exact decided_finish hfin can (congrArg Marks.settle hm) (congrArg Marks.stallProbe hm) hepoch
  · exact .launched can (hiff.1 hr).2 (hiff.1 hr).1 hm hcmd hlive

/-- Rewrites of a rule that leave its marks alone. -/
theorem decided_kept (can : canTick r = true) (hm : r'.marks = r.marks)
    (hwake : wake ≠ none → o.wants r.epoch) :
    Decided c r o path ⟨some r', wake, none⟩ := by
  have hm' : r'.marks =
    { r.marks with checks := r.checks, status := r.status, ownerHold := r.ownerHold } := hm
  exact .changed (.inl can) hm' le_rfl (fun h => .inr ⟨h, rfl⟩) fun h => ⟨rfl, hwake h⟩

variable {hold : Option OwnerHold}

/-- Rewrites of a rule that change its status and hold. -/
theorem decided_status {status : RuleStatus}
    (can : tickCanChange r) (hm : r'.marks = { r.marks with status, ownerHold := hold })
    (hfree : status = .active → hold = none) (hwake : wake ≠ none → o.wants r.epoch) :
    Decided c r o path ⟨some r', wake, none⟩ := by
  have hm' : r'.marks = { r.marks with checks := r.checks, status, ownerHold := hold } := hm
  exact .changed can hm' le_rfl (fun h => .inl (hfree h)) fun h => ⟨rfl, hwake h⟩

/-- Rewrites of a rule that change its hold only. -/
theorem decided_hold (can : ownerPaused r = true)
    (hm : r'.marks = { r.marks with ownerHold := hold })
    (hfree : r.status = .active → hold = none) :
    Decided c r o path ⟨some r', none, none⟩ :=
  decided_status (.inr can)
    (show r'.marks = { r.marks with status := r.status, ownerHold := hold } from hm) hfree
    (absurd rfl)

theorem decided_lowWorkers {count : Option ℕ} {minimum duration : ℕ} (can : canTick s.raw = true)
    (h : s.lowWorkers c now count minimum duration = .ok d) : Decided c s.raw s.owner .due d := by
  simp only [lowWorkers, bind_eq_ok, context_eq_ok, ruleInteger_eq_ok] at h
  obtain ⟨n, -, workers, -, h⟩ := h
  split at h
  case isTrue =>
    cases h
    exact changeIfNew_cases .nothing (decided_kept can rfl (absurd rfl))
  case isFalse =>
    split at h
    case isTrue =>
      simp only [bind_eq_ok, ruleInteger_eq_ok, withRecord, fromStored_eq_ok] at h
      obtain ⟨_, ⟨-, rfl⟩, _, ⟨-, rfl⟩, h⟩ := h
      exact decided_finish h can rfl rfl rfl
    case isFalse =>
      cases h
      exact changeIfNew_cases .nothing (decided_kept can rfl (absurd rfl))

/-- The stall check comes on its own path, with the probe mark. -/
theorem decided_tickStalled {fingerprint : Option RuleFileFingerprint} (can : canTick s.raw = true)
    (hready : s.ready) (h : s.tickStalled c now fingerprint = .ok d) :
    Decided c s.raw s.owner .stall d := by
  simp only [tickStalled] at h
  split at h
  case isTrue =>
    simp only [bind_eq_ok, pure_eq_ok] at h
    obtain ⟨_, -, rfl⟩ := h
    exact decided_kept can rfl (absurd rfl)
  case isFalse =>
    split at h
    case isTrue =>
      simp only [bind_eq_ok, ruleInteger_eq_ok] at h
      obtain ⟨_, ⟨-, rfl⟩, h⟩ := h
      exact decided_launch h can (fun _ => hready) rfl rfl rfl rfl
    case isFalse =>
      simp only [bind_eq_ok, pure_eq_ok] at h
      obtain ⟨_, -, rfl⟩ := h
      exact decided_kept can rfl fun _ => ⟨hready.2, .inl hready.1⟩

theorem decided_tickDue {fingerprint : Option (Option RuleFileFingerprint)}
    (can : canTick s.raw = true) (hready : s.ready) (h : s.tickDue c now fingerprint = .ok d) :
    Decided c s.raw s.owner .due d := by
  simp only [tickDue] at h
  split at h
  case isTrue =>
    simp only [bind_eq_ok, ruleInteger_eq_ok, pure_eq_ok] at h
    obtain ⟨_, ⟨-, rfl⟩, rfl⟩ := h
    have hm :
      ({ s.raw with status := .paused, error := some missedMessage, wakes := s.raw.wakes + 1 } :
        RuleRecord).marks =
          { s.raw.marks with status := .paused, ownerHold := s.raw.ownerHold } := rfl
    exact decided_status (.inl can) hm (by simp) fun _ => ⟨hready.2, .inl hready.1⟩
  case isFalse =>
    split at h
    case isTrue =>
      simp only [bind_eq_ok, context_eq_ok] at h
      obtain ⟨_, -, h⟩ := h
      split at h
      · cases h
        exact decided_kept can rfl (absurd rfl)
      · simp only [bind_eq_ok, ruleInteger_eq_ok] at h
        obtain ⟨_, -, _, ⟨-, rfl⟩, h⟩ := h
        exact decided_launch h can (by simp) rfl rfl rfl rfl
    case isFalse =>
      simp only [bind_eq_ok, ruleInteger_eq_ok] at h
      obtain ⟨_, ⟨-, rfl⟩, h⟩ := h
      exact decided_launch h can (by simp) rfl rfl rfl rfl

theorem decided_resumeAfterOwnerHold (can : ownerPaused s.raw = true) :
    Decided c s.raw s.owner path (s.resumeAfterOwnerHold heldInput) := by
  have hpaused : s.raw.status = .paused := by
    simp only [ownerPaused, Bool.and_eq_true, decide_eq_true_eq] at can
    exact can.1.1
  simp only [resumeAfterOwnerHold]
  split
  · exact decided_hold can rfl fun _ => rfl
  split
  · split
    · exact .nothing
    · exact decided_hold can rfl fun h => absurd h (by simp [hpaused])
  · exact decided_status (.inr can) rfl (fun _ => rfl) (absurd rfl)

def tickPath (s : RuleSnapshot) (now : ℚ) : Path := if s.stalled now then .stall else .due

variable {observation : TickObservation}

/-- The path of the tick is that of a stalled file exactly if the file is stalled. -/
theorem decided_tickReady (can : canTick s.raw = true) (hready : s.ready)
    (h : s.tickReady c now observation = .ok d) : Decided c s.raw s.owner (s.tickPath now) d := by
  have hfile (hst : s.stalled now = true) : s.raw.kind.isFile = true := by
    simp only [stalled, Bool.and_eq_true] at hst
    exact hst.1.1.1
  unfold tickReady at h
  split at h
  case h_1 hk =>
    have hdue : s.tickPath now = .due :=
      if_neg fun hst => by simpa [hk, RuleKind.isFile, RuleKind.path] using hfile hst
    exact hdue ▸ decided_lowWorkers can h
  case h_2 =>
    cases h
    exact .nothing
  all_goals
    split at h
    case isTrue hst =>
      simp only [bind_eq_ok] at h
      obtain ⟨_, -, h⟩ := h
      simpa only [tickPath, if_pos hst] using decided_tickStalled can hready h
    case isFalse hst =>
      split at h
      · cases h
        exact .nothing
      · simpa only [tickPath, if_neg hst] using decided_tickDue can hready h

theorem decided_tick (h : s.tick c now observation = .ok d) :
    Decided c s.raw s.owner (s.tickPath now) d := by
  simp only [tick] at h
  split at h
  case isTrue can =>
    cases h
    exact decided_resumeAfterOwnerHold can
  split at h
  · cases h
    exact .nothing
  next can =>
  have can : canTick s.raw = true := by simpa using can
  split at h
  · cases h
    exact .nothing
  split at h
  case isTrue =>
    cases h
    have hm : ({ s.raw with status := .paused, error := some stopped } : RuleRecord).marks =
        { s.raw.marks with status := .paused, ownerHold := s.raw.ownerHold } := rfl
    exact decided_status (.inl can) hm nofun (absurd rfl)
  case isFalse hgo =>
    split at h
    · cases h
      exact decided_status (.inl can) rfl nofun (absurd rfl)
    · have hready : s.ready := by
        simp only [Bool.or_eq_true, decide_eq_true_eq, Bool.not_eq_true', not_or, not_not,
          Bool.not_eq_false] at hgo
        exact ⟨hgo.1.2, hgo.2⟩
      exact decided_tickReady can hready h

theorem decided_event {kind text key : String} (h : s.event c kind text key now = .ok d) :
    Decided c s.raw s.owner .event d := by
  simp only [event] at h
  split at h
  case isTrue =>
    cases h
    exact .nothing
  case isFalse hgo =>
    have can : canTick s.raw = true := by
      simp only [Bool.or_eq_true, decide_eq_true_eq, not_or, not_not] at hgo
      simp [canTick, hgo]
    simp only [bind_eq_ok, ruleInteger_eq_ok] at h
    obtain ⟨_, ⟨-, rfl⟩, h⟩ := h
    exact decided_launch h can (by simp) rfl rfl rfl rfl

end RuleSnapshot

variable {available : Bool} {file : Option RuleFileFingerprint}

theorem decided_decideTick {workers : ℕ}
    (h : decideTick c r o now file workers heldInput available = .ok d) :
    Decided c r o ((⟨r, o⟩ : RuleSnapshot).tickPath now) d := by
  simp only [decideTick, bind_eq_ok, RuleSnapshot.fromStored_eq_ok, pure_eq_ok] at h
  obtain ⟨_, ⟨-, rfl⟩, d, h, _, -, rfl⟩ := h
  exact RuleSnapshot.decided_tick h

theorem decided_decideEvent {kind text key : String}
    (h : decideEvent c r o kind text key now available = .ok d) : Decided c r o .event d := by
  simp only [decideEvent, bind_eq_ok, RuleSnapshot.fromStored_eq_ok, pure_eq_ok] at h
  obtain ⟨_, ⟨-, rfl⟩, d, h, _, -, rfl⟩ := h
  exact RuleSnapshot.decided_event h

/-! ## Results -/

/-- The check whose result a rule takes: its launch intent, or else what it would launch now. -/
def RuleSnapshot.expected (c : Crates) (s : RuleSnapshot) : RuleCheck :=
  s.raw.launchIntent.getD (s.check c)

/-- What the result of the check `check` may decide about the rule `r` of the owner `o`. -/
inductive Settled (c : Crates) (r : RuleRecord) (o : Owner) (check : RuleCheck)
    (result : CheckResult) :
    RuleDecision → Prop
  | nothing : Settled c r o check result .nothing
  | flight {r' : RuleRecord} {wake : Option RuleWake} {status : RuleStatus}
      (inFlight : r.inFlight = true)
      (expected : (⟨r, o⟩ : RuleSnapshot).expected c = check)
      (status_eq : status = r.status ∨ r.status = .active ∧ status = .completed)
      (marks : r'.marks = { r.marks.settle with status, launchIntent := none })
      (wakes : ∀ x, wake = some x → o.wants r.epoch ∧ x.kind = wakeKind r.stallProbe) :
      Settled c r o check result ⟨some r', wake, none⟩
  | cancelled {r' : RuleRecord} (free : r.inFlight = false) (paused : r.status = .paused)
      (expected : (⟨r, o⟩ : RuleSnapshot).expected c = check)
        (isCancelled : result.cancelled = true)
      (marks : r'.marks = { r.marks.settle with launchIntent := none }) :
      Settled c r o check result ⟨some r', none, none⟩
  /-- The check that a restart left open ends, and the rule is active again. -/
  | marked {r' : RuleRecord} {wake : Option RuleWake} {status : RuleStatus}
      (free : r.inFlight = false)
      (expected : (⟨r, o⟩ : RuleSnapshot).expected c = check)
      (mark : r.restartCheck = some ⟨check.epoch, check.checkNumber, check.monitorId⟩)
      (status_eq : status = .active ∨ status = .completed)
      (marks : r'.marks =
        { r.marks.settle with status, restartCheck := none, launchIntent := none })
      (wakes : ∀ x, wake = some x → o.wants r.epoch ∧ x.kind = wakeKind r.stallProbe) :
      Settled c r o check result ⟨some r', wake, none⟩

variable {check : RuleCheck}

/-- A result counts for the check in flight, for a paused rule if it was cancelled, and for a check
that a restart left open. -/
theorem settled_finishInTransaction
    (h : finishInTransaction c r o check result now = .ok d) : Settled c r o check result d := by
  simp only [finishInTransaction] at h
  split at h
  · cases h
    exact .nothing
  simp only [bind_eq_ok, RuleSnapshot.fromStored_eq_ok, pure_eq_ok] at h
  obtain ⟨_, ⟨-, rfl⟩, d, h, rfl⟩ := h
  simp only [RuleSnapshot.finishCheck] at h
  split at h
  · cases h
    exact .nothing
  split at h
  · cases h
    exact .nothing
  next hexp =>
  have hexp : (⟨r, o⟩ : RuleSnapshot).expected c = check := not_not.1 hexp
  split at h
  case isTrue hfl =>
    obtain ⟨r', wake, status, rfl, hst, hr', hwake⟩ := RuleSnapshot.finish_eq_ok h
    refine .flight hfl hexp hst (congrArg (fun m : Marks => { m with launchIntent := none }) hr')
      fun x hx => ?_
    exact ⟨(RuleSnapshot.wants_of_authorized (hwake x hx).1).2, (hwake x hx).2⟩
  case isFalse hfl =>
    have hfl : r.inFlight = false := Bool.eq_false_iff.2 hfl
    split at h
    case isTrue hc =>
      obtain ⟨hpaused, hc⟩ : r.status = .paused ∧ result.cancelled = true := by simpa using hc
      obtain ⟨r', wake, status, rfl, hst, hr', hwake⟩ := RuleSnapshot.finish_eq_ok h
      -- A paused rule wakes nobody and stays paused.
      have hnone : wake = none := eq_none_iff_forall_ne_some.2 fun x hx => by
        simpa [hpaused] using (RuleSnapshot.wants_of_authorized (hwake x hx).1).1
      obtain rfl : status = r.status := hst.resolve_right fun h => by simpa [hpaused] using h.1
      subst hnone
      exact .cancelled hfl hpaused hexp hc
        (congrArg (fun m : Marks => { m with launchIntent := none }) hr')
    case isFalse =>
      split at h
      · cases h
        exact .nothing
      next hm =>
      simp only [Bool.or_eq_true, decide_eq_true_eq, not_or, not_not] at hm
      simp only [bind_eq_ok, RuleSnapshot.withRecord, RuleSnapshot.fromStored_eq_ok] at h
      obtain ⟨_, ⟨-, rfl⟩, h⟩ := h
      obtain ⟨r', wake, status, rfl, hst, hr', hwake⟩ := RuleSnapshot.finish_eq_ok h
      refine .marked hfl hexp hm.1.1.1 (hst.imp id And.right)
        (congrArg (fun m : Marks => { m with launchIntent := none }) hr') fun x hx => ?_
      exact ⟨(RuleSnapshot.wants_of_authorized (hwake x hx).1).2, (hwake x hx).2⟩

/-! ## Recoveries and the user -/

/-- A recovery gives the check in flight up. An active rule then waits for its late result. -/
def Marks.giveUp (m : Marks) (mark : RestartCheck) : Marks :=
  { m with
    restartCheck := if m.status = .active then some mark else none
    inFlight := false, status := .paused }

theorem RuleSnapshot.recovered_marks : (recovered r now).marks = r.marks := by
  unfold recovered
  dsimp only
  split <;> split <;> rfl

/-- The mark that a recovery leaves for the check in flight. -/
def RuleSnapshot.mark (c : Crates) (s : RuleSnapshot) : RestartCheck :=
  ⟨s.raw.epoch, s.raw.checks, (s.check c).monitorId⟩

/-- What a recovery may decide about the rule `r` of the owner `o`. -/
inductive Recovered (c : Crates) (r : RuleRecord) (o : Owner) : RuleDecision → Prop
  | nothing : Recovered c r o .nothing
  | kept {r' : RuleRecord} (free : r.inFlight = false) (marks : r'.marks = r.marks) :
      Recovered c r o ⟨some r', none, none⟩
  | gaveUp {r' : RuleRecord} (inFlight : r.inFlight = true)
      (marks : r'.marks = r.marks.giveUp ((⟨r, o⟩ : RuleSnapshot).mark c)) :
        Recovered c r o ⟨some r', none, none⟩

theorem recovered_recover : Recovered c s.raw s.owner (s.recover c now) := by
  refine changeIfNew_cases .nothing ?_
  split
  case isTrue hfl =>
    refine .gaveUp hfl ?_
    calc RuleRecord.marks _
      _ = { (RuleSnapshot.recovered s.raw now).marks with
            restartCheck := if s.raw.status = .active then some (s.mark c) else none
            inFlight := false, status := .paused } := rfl
      _ = _ := by rw [RuleSnapshot.recovered_marks]; rfl
  case isFalse hfl => exact .kept (Bool.eq_false_iff.2 hfl) RuleSnapshot.recovered_marks

theorem recovered_recoverRule {state : CheckReconciliation}
    (h : recoverRule c r o state available now = .ok d) : Recovered c r o d := by
  simp only [recoverRule, bind_eq_ok, RuleSnapshot.fromStored_eq_ok] at h
  obtain ⟨_, ⟨-, rfl⟩, h⟩ := h
  split at h
  · cases h
    exact .nothing
  · cases h
    exact recovered_recover (s := ⟨r, o⟩)

/-- A known outcome of a submission is a result like others. -/
theorem settled_settleSubmission {submission : CheckSubmission}
    (h : settleSubmission c r o check submission now = .ok d) (hknown : submission ≠ .unknown) :
    ∃ result, result.cancelled = false ∧ Settled c r o check result d := by
  cases submission with
  | accepted | detached =>
    simp only [settleSubmission, pure_eq_ok] at h
    exact ⟨RuleSnapshot.immediate "", rfl, h ▸ .nothing⟩
  | notSubmitted error => exact ⟨_, rfl, settled_finishInTransaction h⟩
  | unknown => exact absurd rfl hknown

/-- A submission without a known outcome is given up. -/
theorem recovered_settleSubmission (h : settleSubmission c r o check .unknown now = .ok d) :
    Recovered c r o d := by
  simp only [settleSubmission] at h
  split at h
  · cases h
    exact .nothing
  simp only [bind_eq_ok, RuleSnapshot.fromStored_eq_ok] at h
  obtain ⟨_, ⟨-, rfl⟩, h⟩ := h
  split at h
  · cases h
    have hrec : Recovered c r o ((⟨r, o⟩ : RuleSnapshot).recover c now) :=
      recovered_recover (s := ⟨r, o⟩)
    generalize (⟨r, o⟩ : RuleSnapshot).recover c now = d' at hrec ⊢
    cases hrec with
    | nothing => exact .nothing
    | kept hfl hm => exact .kept hfl hm
    | gaveUp hfl hm => exact .gaveUp hfl hm
  · cases h
    exact .nothing

variable {before : Monitor}

/-- The end of a monitor is a result of the check that the rule expects, and the monitor is that of
this check. -/
theorem monitorFinish_eq_ok {after : MonitorEnd}
    (h : monitorFinish c r o before after now = .ok d) :
    before.id = ((⟨r, o⟩ : RuleSnapshot).expected c).monitorId ∧
      Settled c r o ((⟨r, o⟩ : RuleSnapshot).expected c) after.result d := by
  simp only [monitorFinish, bind_eq_ok, RuleSnapshot.fromStored_eq_ok, ensure_eq_ok,
    pure_eq_ok] at h
  obtain ⟨_, ⟨-, rfl⟩, _, hid, d', h, _, -, rfl⟩ := h
  simp only [Bool.and_eq_true, decide_eq_true_eq] at hid
  exact ⟨hid.1.1.1.1, settled_finishInTransaction h⟩

/-- A declined command is a result of the check that the rule would launch now, and the monitor is
that of this check. -/
theorem declineMonitor_eq_ok {tail : String} (h : declineMonitor c r o before tail now = .ok d) :
    before.id = ((⟨r, o⟩ : RuleSnapshot).check c).monitorId ∧
      ∃ result, result.cancelled = false ∧
        Settled c r o ((⟨r, o⟩ : RuleSnapshot).check c) result d := by
  simp only [declineMonitor, bind_eq_ok, RuleSnapshot.fromStored_eq_ok, ensure_eq_ok,
    decide_eq_true_eq] at h
  obtain ⟨_, -, _, ⟨-, rfl⟩, _, hid, h⟩ := h
  exact ⟨hid.symm, _, rfl, settled_finishInTransaction h⟩

/-- The user's pause and resume leave the rule alone, or free it from holds and restart marks. -/
theorem setStatus_eq_ok {resume : Bool} (h : setStatus r o resume file now = .ok r') :
    (resume = true → r.inFlight = false) ∧ (r' = r ∨ r'.marks = { r.marks with
      ownerHold := none, restartCheck := none, status := desired resume }) := by
  simp only [setStatus, bind_eq_ok, ensure_eq_ok] at h
  obtain ⟨_, -, _, hfl, _, -, h⟩ := h
  refine ⟨fun hr => by simpa [hr] using hfl, ?_⟩
  split at h
  · simp only [bind_eq_ok, pure_eq_ok] at h
    obtain ⟨_, -, _, -, rfl⟩ := h
    right
    split <;> rfl
  · rw [pure_eq_ok] at h
    exact .inl h.symm

end Layr.Rules
