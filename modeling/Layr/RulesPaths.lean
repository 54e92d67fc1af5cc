import Layr.RulesRun

/-!
# The path of a check decides its command and its wake

A check of the due or event path should run the rule's command and wake with `rule`; one of the
stall path should run the liveness command and wake with `rule_stall`. The record keeps no path: it
tells a stall check by its probe mark, which the result of the check clears. A recovery gives the
check up and leaves the mark; if the user then resumes the rule, the next due check finds the mark
and runs the liveness command. In a run without such a resume each check and each wake follows its
path.
-/

namespace Layr.Rules

open Runs List Option
open RuleSnapshot (monitorId)

variable {c : Crates} {m : Marks} {h : History} {w : World} {d : RuleDecision} {path : Path}
  {check : RuleCheck}

/-- The last check is a stall check exactly if the rule has the probe mark. -/
def Matches (m : Marks) (i : Issued) : Prop := i.path = .stall ↔ m.stallProbe = some true

/-- The wake about a check has the kind of the path on which the check was issued. -/
def History.KindFits (h : History) (x : Woken) : Prop :=
  ∀ n, x.number = some n → (∃ p, x.path = some p ∧ x.kind = p.kind) ∨
    x.path = none ∧ ∃ i ∈ h.issued, i.number = n ∧ x.kind = i.path.kind

structure Issued.Fits (i : Issued) : Prop where
  command : i.check.command = i.path.command i.rule
  liveness : i.check.liveness = decide (i.path = .stall)

/-- What the probe mark says about the past. -/
structure Paths (c : Crates) (m : Marks) (h : History) : Prop where
  /-- A probe mark without a check in flight is that of a check that was given up. -/
  idle : m.inFlight = false → m.stallProbe = some true → m.status ≠ .active ∧ m.ownerHold = none
  flight : m.inFlight = true → ∀ i ∈ h.issued, i.number = m.checks → Matches m i
  /-- The mark of a stall check that a restart left open may be gone: then its monitor was
  cancelled. -/
  marked : m.restartCheck ≠ none → ∀ i ∈ h.issued, i.number = m.checks → Matches m i ∨
    m.launchIntent = none ∧ i.path = .stall ∧ m.stallProbe ≠ some true ∧ i.check.monitorId ∈ h.ended
  monitors : ∀ i ∈ h.issued, i.check.monitorId = monitorId c m.id i.number
  issued : ∀ i ∈ h.issued, i.Fits
  kinds : ∀ x ∈ h.woken, h.KindFits x

theorem wakeKind_eq_kind {i : Issued} (hi : Matches m i) : wakeKind m.stallProbe = i.path.kind := by
  unfold wakeKind
  split
  · next hp => rw [hi.2 hp]; rfl
  next hp =>
  have hne : i.path ≠ .stall := mt hi.1 hp
  cases hpath : i.path with
  | stall => exact absurd hpath hne
  | due | event => rfl

theorem settle_probe_ne (m : Marks) : m.settle.stallProbe ≠ some true := by
  unfold Marks.settle
  split
  · nofun
  · assumption

variable {probe : Option Bool}

theorem probe_eq_true_iff (hp : probe ≠ some true) : path.probe probe = some true ↔
    path = .stall := by
  cases path with
  | stall => simp [Path.probe]
  | due | event => simpa [Path.probe] using hp

theorem kind_probe (hp : probe ≠ some true) : wakeKind (path.probe probe) = path.kind := by
  unfold wakeKind
  rw [if_congr (probe_eq_true_iff hp) rfl rfl]
  cases path <;> rfl

/-- A check whose rule has the probe mark of its path runs the command of the path. -/
theorem check_fits {r r' : RuleRecord} {o : Owner} (hcmd : r'.command = r.command)
    (hlive : r'.livenessCommand = r.livenessCommand)
    (hstall : r'.stallProbe = some true ↔ path = .stall) :
    Issued.Fits ⟨(⟨r', o⟩ : RuleSnapshot).check c, path, r, o⟩ where
  command := by
    calc (if r'.stallProbe = some true then r'.livenessCommand else r'.command)
      _ = if path = .stall then r.livenessCommand else r.command :=
        by rw [if_congr hstall hlive hcmd]
      _ = path.command r := by cases path <;> rfl
  liveness := by
    have hget : r'.stallProbe.getD false = true ↔ r'.stallProbe = some true :=
      by cases r'.stallProbe <;> simp
    exact Bool.eq_iff_iff.2 (hget.trans (hstall.trans decide_eq_true_iff.symm))

namespace Paths

theorem probe_ne (hP : Paths c w.rule.marks h) (hI : Inv w.rule.marks h)
    (can : tickCanChange w.rule) :
    w.rule.stallProbe ≠ some true := by
  intro hp
  obtain ⟨hst, hhold⟩ := hP.idle (hI.free can).1 hp
  obtain can | can := can
  · exact hst (RuleSnapshot.active_of_canTick can).1
  · simp only [ownerPaused, Bool.and_eq_true, isSome_iff_ne_none] at can
    exact can.2 hhold

theorem kinds_append {new : Option Woken} (hP : Paths c m h)
    (hnew : ∀ x, new = some x → h.KindFits x) :
    ∀ x ∈ h.woken ++ new.toList, h.KindFits x := fun x hx =>
  (mem_append.1 hx).elim (hP.kinds x) fun hx => hnew x (mem_toList.1 hx)

section

variable (hP : Paths c w.rule.marks w.history)
include hP

section

variable (hI : Inv w.rule.marks w.history)
include hI

theorem decide
    (hd : Decided c w.rule w.owner path d) :
    Paths c (w.decide path d).rule.marks (w.decide path d).history := by
  cases hd with
  | nothing => rwa [World.decide_nothing]
  | @changed r' wake checks status hold can hm hle hfree hwake =>
    obtain ⟨hfl, hmark⟩ := hI.free can
    have hp := hP.probe_ne hI can
    have hc : r'.checks = checks := congrArg Marks.checks hm
    simp only [World.decide, stored_some, getD_some, map_none, toList_none, append_nil, hm]
    exact
      { hP with
        idle := fun _ ht => absurd ht hp
        flight := fun hf => absurd hf (by simp [RuleRecord.marks, hfl])
        marked := fun hk => absurd hmark hk
        kinds := hP.kinds_append fun x hx n hn => by
          obtain ⟨wk, rfl, rfl⟩ := map_eq_some_iff.1 hx
          exact absurd hn (by simp [hc.trans (hwake (some_ne_none _)).1]) }
  | @launched r' can he ha hm hcmd hlive =>
    have hp := hP.probe_ne hI (.inl can)
    obtain ⟨hfl, hmark⟩ := hI.free (.inl can)
    have hprobe : r'.stallProbe = path.probe w.rule.stallProbe := congrArg Marks.stallProbe hm
    have hstall : r'.stallProbe = some true ↔ path = .stall := hprobe ▸ probe_eq_true_iff hp
    set i : Issued := ⟨(⟨r', w.owner⟩ : RuleSnapshot).check c, path, w.rule, w.owner⟩ with hi
    have hm' : ({ r' with launchIntent := some i.check } : RuleRecord).marks =
        { w.rule.marks.next path with launchIntent := some i.check } :=
      congrArg (fun m : Marks => { m with launchIntent := some i.check }) hm
    have hmem : ∀ {x : Issued}, x ∈ w.history.issued ++ [i] ↔ x ∈ w.history.issued ∨
      x = i := by simp
    have hfits : i.Fits := check_fits hcmd hlive hstall
    have hmon : i.check.monitorId = monitorId c w.rule.id i.number := by
      rw [← show r'.id = w.rule.id from congrArg Marks.id hm]
      rfl
    rw [World.decide_launched, hm']
    exact
      { idle := fun hi => by cases hi
        flight := fun _ x hx hn => (hmem.1 hx).elim
          (fun hx => absurd (hI.issued_le x hx) (by rw [hn]; simp [Marks.next]))
          fun hx => by rw [hx]; exact (probe_eq_true_iff hp).symm
        marked := fun hk => absurd hmark hk
        monitors := fun x hx => (hmem.1 hx).elim (hP.monitors x) fun hx => hx ▸ hmon
        issued := fun x hx => (hmem.1 hx).elim (hP.issued x) fun hx => hx ▸ hfits
        kinds := fun x hx n hn => by
          obtain h | ⟨hnone, j, hj, hjn⟩ := hP.kinds x hx n hn
          · exact .inl h
          · exact .inr ⟨hnone, j, hmem.2 (.inl hj), hjn⟩ }
  | @finished r' wake status can hm hwake =>
    have hp := hP.probe_ne hI (.inl can)
    have hmark := (hI.free (.inl can)).2
    simp only [World.decide, stored_some, getD_some, map_none, toList_none, append_nil, hm]
    exact
      { hP with
        idle := fun _ ht => absurd ht (settle_probe_ne _)
        flight := fun hf => by cases hf
        marked := fun hk => absurd hmark hk
        kinds := hP.kinds_append fun x hx n _ => by
          obtain ⟨wk, rfl, rfl⟩ := map_eq_some_iff.1 hx
          exact .inl ⟨path, rfl, (hwake wk rfl).2.trans (kind_probe hp)⟩ }

omit hI hP in
theorem monitor_eq {i : Issued} {n : ℕ} (hP : Paths c m h) (hi : i ∈ h.issued) (hn : i.number = n) :
    i.check.monitorId = monitorId c m.id n := hn ▸ hP.monitors i hi

/-- The check that a rule with a restart mark expects is its last one. -/
theorem expected_eq (hk : w.rule.restartCheck ≠ none) :
    (w.snapshot.expected c).checkNumber = w.rule.checks ∧
      (w.snapshot.expected c).monitorId = monitorId c w.rule.id w.rule.checks := by
  obtain ⟨k, hk⟩ := ne_none_iff_exists'.1 hk
  obtain ⟨-, i, hi, hn, hint | hint⟩ := hI.marked k hk
  · have he : w.snapshot.expected c = w.snapshot.check c := by
      rw [RuleSnapshot.expected, show w.snapshot.raw.launchIntent = none from hint]; rfl
    rw [he]
    exact ⟨rfl, rfl⟩
  · have he : w.snapshot.expected c = i.check := by
      rw [RuleSnapshot.expected, show w.snapshot.raw.launchIntent = some i.check from hint]; rfl
    rw [he]
    exact ⟨hn, hP.monitor_eq hi hn⟩

/-- The check that a restart left open and that ends now matches the probe mark. -/
theorem exists_matches (hk : w.rule.restartCheck ≠ none) (hexp : w.snapshot.expected c = check)
    (hlate : check ∈ w.history.issued.map (·.check) ∨ check.monitorId ∉ w.history.ended) :
    ∃ i ∈ w.history.issued, i.number = w.rule.checks ∧ Matches w.rule.marks i := by
  obtain ⟨hnum, hmon⟩ := hP.expected_eq hI hk
  rw [hexp] at hnum hmon
  obtain hmem | hne := hlate
  · obtain ⟨j, hj, rfl⟩ := mem_map.1 hmem
    refine ⟨j, hj, hnum, (hP.marked hk j hj hnum).elim id fun ⟨hint, hpath, hp, _⟩ => ?_⟩
    -- Without an intent the rule expects a check without liveness, which the stall check is not.
    have he : w.snapshot.check c = j.check := by
      rw [← hexp, RuleSnapshot.expected, show w.snapshot.raw.launchIntent = none from hint]; rfl
    have hlive : w.rule.stallProbe.getD false = true := by
      have := (hP.issued j hj).liveness
      rw [← he, hpath] at this
      exact this
    refine absurd ?_ hp
    change w.rule.stallProbe = some true
    cases hsp : w.rule.stallProbe with
    | none => simp [hsp] at hlive
    | some b => simpa [hsp] using hlive
  · obtain ⟨k, hk'⟩ := ne_none_iff_exists'.1 hk
    obtain ⟨-, i, hi, hn, -⟩ := hI.marked k hk'
    refine ⟨i, hi, hn, (hP.marked hk i hi hn).elim id fun ⟨_, _, _, hend⟩ => absurd ?_ hne⟩
    exact ((hP.monitor_eq hi hn).trans hmon.symm) ▸ hend

/-- The result of a check whose monitor is known to have run to its end once: the check was issued
itself, or its monitor did not end before. A cancelled monitor has ended now. -/
theorem settle {result : CheckResult} {ended : List String}
    (hs : Settled c w.rule w.owner check result d)
    (hlate : check ∈ w.history.issued.map (·.check) ∨ check.monitorId ∉ w.history.ended)
    (hsub : w.history.ended ⊆ ended) (hcancel : result.cancelled = true → check.monitorId ∈ ended) :
    Paths c (w.settle check.checkNumber d).rule.marks
        { (w.settle check.checkNumber d).history with ended } := by
  cases hs with
  | nothing =>
    rw [World.settle_nothing]
    exact
      { hP with
        marked := fun hk i hi hn => by
          obtain h | ⟨h₁, h₂, h₃, h₄⟩ := hP.marked hk i hi hn
          · exact .inl h
          · exact .inr ⟨h₁, h₂, h₃, hsub h₄⟩ }
  | @flight r' wake status hfl hexp hst hm hwake =>
    obtain ⟨i, hi, -, hn⟩ := hI.flight hfl
    simp only [World.settle, stored_some, getD_some, hm]
    exact
      { hP with
        idle := fun _ ht => absurd ht (settle_probe_ne _)
        flight := fun hf => by cases hf
        marked := fun hk => absurd (hI.flying hfl).1 hk
        kinds := hP.kinds_append fun x hx n hxn => by
          obtain ⟨wk, rfl, rfl⟩ := map_eq_some_iff.1 hx
          obtain rfl : w.rule.checks = n := some.inj hxn
          exact .inr
            ⟨rfl, i, hi, hn, (hwake wk rfl).2.trans (wakeKind_eq_kind (hP.flight hfl i hi hn))⟩ }
  | @cancelled r' hfl hpaused hexp hc hm =>
    have hprobe := settle_probe_ne w.rule.marks
    simp only [World.settle, stored_some, getD_some, hm, map_none, toList_none, append_nil]
    exact
      { hP with
        idle := fun _ ht => absurd ht hprobe
        flight := fun hf => by cases hf
        marked := fun hk i hi hn => by
          by_cases hpath : i.path = .stall
          · refine .inr ⟨rfl, hpath, hprobe, ?_⟩
            have hmon := (hP.expected_eq hI hk).2
            rw [show w.snapshot.expected c = check from hexp] at hmon
            exact ((hP.monitor_eq hi hn).trans hmon.symm) ▸ hcancel hc
          · exact .inl ⟨fun hp => absurd hp hpath, fun hp => absurd hp hprobe⟩ }
  | @marked r' wake status hfl hexp hmark hst hm hwake =>
    obtain ⟨i, hi, hn, hmatch⟩ := hP.exists_matches hI (by simp [hmark]) hexp hlate
    simp only [World.settle, stored_some, getD_some, hm]
    exact
      { hP with
        idle := fun _ ht => absurd ht (settle_probe_ne _)
        flight := fun hf => by cases hf
        marked := fun hk => absurd rfl hk
        kinds := hP.kinds_append fun x hx n hxn => by
          obtain ⟨wk, rfl, rfl⟩ := map_eq_some_iff.1 hx
          obtain rfl : w.rule.checks = n := some.inj hxn
          exact .inr ⟨rfl, i, hi, hn, (hwake wk rfl).2.trans (wakeKind_eq_kind hmatch)⟩ }

theorem recover (hr : Recovered c w.rule w.owner d) :
    Paths c (w.recover d).rule.marks (w.recover d).history := by
  cases hr with
  | nothing => rwa [World.recover_nothing]
  | @kept r' hfl hm =>
    simp only [World.recover, stored_some, getD_some, hm]
    exact { __ := hP }
  | @gaveUp r' hfl hm =>
    simp only [World.recover, stored_some, getD_some, hm]
    exact
      { hP with
        idle := fun _ _ => ⟨(fun hactive => by cases hactive), (hI.flying hfl).2⟩
        flight := fun hf => by cases hf
        marked := fun _ i hi hn => .inl (hP.flight hfl i hi hn) }

end

theorem setStatus {resume : Bool} {file : Option RuleFileFingerprint} {now : ℚ} {r' : RuleRecord}
    (hs : Rules.setStatus w.rule w.owner resume file now = .ok r')
    (hcareful : resume = true → w.rule.stallProbe ≠ some true) : Paths c r'.marks w.history := by
  obtain ⟨-, rfl | hm⟩ := setStatus_eq_ok hs
  · exact hP
  rw [hm]
  exact
    { hP with
      idle := fun _ ht => by
        cases resume with
        | false => exact ⟨nofun, rfl⟩
        | true => exact absurd ht (hcareful rfl)
      marked := fun hk => absurd rfl hk }

end

end Paths

/-! ## Runs -/

/-- The user does not resume a rule whose stall check was given up and did not end since. -/
def Careful (w : World) : Event → Prop
  | .resume .. => w.rule.stallProbe ≠ some true
  | .tick .. | .event .. | .submission .. | .monitor .. | .decline .. | .recover .. | .owner
        .. | .pause .. =>
    True

theorem Paths.after {next : RuleDecision → World} {result : Except Error RuleDecision}
    (hP : Paths c w.rule.marks w.history)
    (hnext : ∀ d, result = .ok d → Paths c (next d).rule.marks (next d).history) :
    Paths c (w.after result next).rule.marks (w.after result next).history := by
  cases result with
  | error _ => exact hP
  | ok d => exact hnext d rfl

/-- Only a resume needs care: it could find the probe mark of a check that was given up. -/
theorem Paths.step {e : Event} (hP : Paths c w.rule.marks w.history)
    (hI : Inv w.rule.marks w.history) (hcareful : Careful w e) : Paths c (step c w e).rule.marks
        (step c w e).history := by
  cases e with
  | tick now file workers heldInput available =>
    exact hP.after fun d hd => hP.decide hI (decided_decideTick hd)
  | event kind text key now available =>
    exact hP.after fun d hd => hP.decide hI (decided_decideEvent hd)
  | submission check outcome now =>
    simp only [Rules.step]
    split
    · next hmem =>
      refine hP.after fun d hd => ?_
      cases outcome with
      | unknown => exact hP.recover hI (recovered_settleSubmission hd)
      | accepted | detached | notSubmitted error =>
        obtain ⟨result, hres, hs⟩ := settled_settleSubmission hd (by simp)
        exact hP.settle hI hs (.inl hmem) (List.Subset.refl _) fun hc => absurd hc (by simp [hres])
    · exact hP
  | monitor check account after now =>
    simp only [Rules.step]
    split
    · next hruns =>
      refine hP.after fun d hd => ?_
      obtain ⟨hid, hs⟩ := monitorFinish_eq_ok hd
      exact hP.settle hI hs (.inr (hid ▸ hruns.2)) (subset_cons_self _ _) fun _ =>
        hid ▸ mem_cons_self
    · exact hP
  | decline check tail now =>
    simp only [Rules.step]
    split
    · next hruns =>
      refine hP.after fun d hd => ?_
      obtain ⟨hid, result, hres, hs⟩ := declineMonitor_eq_ok hd
      exact hP.settle hI hs (.inr (hid ▸ hruns.2)) (subset_cons_self _ _) fun hc =>
        absurd hc (by simp [hres])
    · exact hP
  | recover state available now =>
    exact hP.after fun d hd => hP.recover hI (recovered_recoverRule hd)
  | owner o => exact hP
  | pause now =>
    simp only [Rules.step]
    split
    · next hs => exact hP.setStatus hs (by simp)
    · exact hP
  | resume file now =>
    simp only [Rules.step]
    split
    · next hs => exact hP.setStatus hs fun _ => hcareful
    · exact hP

structure World.Start (w : World) : Prop where
  history : w.history = ⟨[], [], [], []⟩
  inFlight : w.rule.inFlight = false
  stallProbe : w.rule.stallProbe = none
  ownerHold : w.rule.ownerHold = none
  restartCheck : w.rule.restartCheck = none

theorem Inv.start (hw : w.Start) : Inv w.rule.marks w.history := by
  rw [hw.history]
  exact
    { flight := fun hf => absurd hf (by simp [RuleRecord.marks, hw.inFlight])
      marked := fun k hk => absurd hk (by simp [RuleRecord.marks, hw.restartCheck])
      active := fun _ => ⟨hw.restartCheck, hw.ownerHold⟩
      held := fun hh => absurd hw.ownerHold hh
      fresh := fun _ => not_mem_nil
      woken_le := forall_mem_nil _
      issued_le := forall_mem_nil _
      opened := forall_mem_nil _
      increasing := .nil
      once := .nil
      issued_for := forall_mem_nil _
      woken_for := forall_mem_nil _ }

theorem Paths.start (hw : w.Start) : Paths c w.rule.marks w.history := by
  rw [hw.history]
  exact
    { idle := fun _ ht => absurd ht (by simp [RuleRecord.marks, hw.stallProbe])
      flight := fun _ => forall_mem_nil _
      marked := fun _ => forall_mem_nil _
      monitors := forall_mem_nil _
      issued := forall_mem_nil _
      kinds := forall_mem_nil _ }

/-- The checks and the wakes of a past are in order and as the owner wants them. -/
structure History.Orderly (h : History) : Prop where
  increasing : (h.issued.map (·.number)).Pairwise (· < ·)
  /-- At most one check is in flight. -/
  single : h.inFlight.length ≤ 1
  /-- Each check wakes once at most. -/
  once : h.numbers.Nodup
  issued_for : ∀ i ∈ h.issued, i.owner.epoch = i.rule.epoch ∧ i.owner.autoWake = true
  woken_for : ∀ x ∈ h.woken, x.owner.epoch = x.rule.epoch ∧
    (x.owner.autoWake = true ∨ x.owner.restartPending = true)

theorem Inv.single (hI : Inv m h) : h.inFlight.length ≤ 1 := by
  have hsub : (h.inFlight.map (·.number)).Nodup :=
    (hI.increasing.imp Nat.ne_of_lt).sublist (filter_sublist.map _)
  have hall : ∀ n ∈ h.inFlight.map (·.number), n = m.checks := fun n hn => by
    obtain ⟨i, hi, rfl⟩ := mem_map.1 hn
    obtain ⟨hi, hc⟩ := mem_filter.1 hi
    exact (hI.opened i hi (by simpa using hc)).2
  rw [eq_replicate_of_mem hall, nodup_replicate, length_map] at hsub
  exact hsub

theorem Inv.orderly (hI : Inv m h) : h.Orderly :=
  ⟨hI.increasing, hI.single, hI.once, hI.issued_for, hI.woken_for⟩

/-- The checks and the wakes of a past follow the paths on which the checks were issued. -/
structure History.FollowsPaths (h : History) : Prop where
  issued : ∀ i ∈ h.issued, i.Fits
  kinds : ∀ x ∈ h.woken, h.KindFits x

theorem Inv.run (hI : Inv w.rule.marks w.history) (es : List Event) :
    Inv (es.foldl (Rules.step c) w).rule.marks (es.foldl (Rules.step c) w).history := by
  induction es generalizing w with
  | nil => exact hI
  | cons e es ih => exact ih hI.step

/-- Every run of a saved rule is orderly; and if no resume finds the probe mark of a stall check
that was given up, each check and each wake follows its path. -/
theorem run_paths (hw : w.Start) (es : List Event) : (es.foldl (step c) w).history.Orderly ∧
    (Along (step c) Careful w es → (es.foldl (step c) w).history.FollowsPaths) := by
  refine ⟨((Inv.start hw).run es).orderly, fun hcareful => ?_⟩
  have hboth : Inv (es.foldl (step c) w).rule.marks (es.foldl (step c) w).history ∧
      Paths c (es.foldl (step c) w).rule.marks (es.foldl (step c) w).history :=
    hcareful.invariant (I := fun w => Inv w.rule.marks w.history ∧ Paths c w.rule.marks w.history)
      ⟨Inv.start hw, Paths.start hw⟩ fun w e ⟨hI, hP⟩ he => ⟨hI.step, hP.step hI he⟩
  exact ⟨hboth.2.issued, hboth.2.kinds⟩

namespace OneFile

def crates : Crates := ⟨id, fun _ => none, fun _ _ _ _ => "", fun _ => ""⟩

def owner : Owner := ⟨"owner", 0, .idle, true, none, none, none, none, none, false, false⟩

/-- A rule for the file `log`, which runs `report` when it changes and `probe` when it is quiet for
half an hour. -/
def rule : RuleRecord where
  id := "rule"
  agent := "owner"
  epoch := 0
  name := "rule"
  kind := .file "log"
  status := .active
  intervalSeconds := 60
  nextAt := 60
  created := 0
  command := "report"
  text := ""
  event := ""
  checks := 0
  wakes := 0
  inFlight := false
  fileActivityAt := some 0
  fileGeneration := 0
  fingerprint := some (1, 1, 1)
  stallTimeoutSeconds := 1800
  stallWakeGeneration := -1
  livenessCommand := "probe"
  stallProbe := none
  stallEventKey := none
  stallText := none
  lastStallFinished := none
  lastStallExitCode := none
  lastStallError := none
  lastEvent := none
  eventText := none
  lastAt := none
  lastFinished := none
  lastExitCode := none
  lastOutput := none
  error := none
  activeWorkers := none
  lowSince := none
  alerted := none
  ownerHold := none
  restartCheck := none
  launchIntent := none

def world : World := ⟨rule, owner, ⟨[], [], [], []⟩⟩

theorem world_start : world.Start := ⟨rfl, rfl, rfl, rfl, rfl⟩

def stallCheck : RuleCheck :=
  ⟨"rule", 1, "owner", 0, none, none, "rule:rule:1", "probe", 60000, true⟩

/-- The file is quiet, the server restarts during the stall check, the user resumes the rule, and
the file changes. -/
def resumed : List Event :=
  [.tick 2000 (some (1, 1, 1)) 0 false true, .recover .unknown true 2001,
    .resume (some (1, 1, 1)) 2002, .tick 2070 (some (2, 1, 1)) 0 false true]

/-- The check of the changed file runs the liveness command. -/
theorem stale_probe_due : world.Start ∧
    (resumed.foldl (step crates) world).history.issued.map
      (fun i => (i.path, i.check.command, i.rule.command)) =
      [(.stall, "probe", "report"), (.due, "probe", "report")] ∧
    ¬ (resumed.foldl (step crates) world).history.FollowsPaths := by
  refine ⟨world_start, by decide +kernel, fun hf => ?_⟩
  have hne : ¬ ∀ i ∈ (resumed.foldl (step crates) world).history.issued,
      i.check.command = i.path.command i.rule := by
    decide +kernel
  exact hne fun i hi => (hf.issued i hi).command

/-- The file is quiet, the stall check ends, the user pauses and resumes the rule, and the file
changes. -/
def ended : List Event :=
  [.tick 2000 (some (1, 1, 1)) 0 false true,
    .monitor stallCheck none ⟨some 0, false, none, "alive"⟩ 2001, .pause 2002,
      .resume (some (1, 1, 1)) 2003, .tick 2070 (some (2, 1, 1)) 0 false true]

/-- The check of the changed file runs the rule's command, after a wake of the stall check. -/
theorem ended_paths : (ended.foldl (step crates) world).history.Orderly ∧
    (ended.foldl (step crates) world).history.FollowsPaths ∧
    (ended.foldl (step crates) world).history.issued.map (fun i => (i.path, i.check.command)) =
      [(.stall, "probe"), (.due, "report")] ∧
    (ended.foldl (step crates) world).history.woken.map (fun x => (x.number, x.kind)) =
      [(some 1, .ruleStall)] := by
  have hrun := run_paths (c := crates) world_start ended
  have hcareful : Along (step crates) Careful world ended := by
    refine ⟨trivial, trivial, trivial, ?_, trivial, trivial⟩
    change _ ≠ _
    decide +kernel
  exact ⟨hrun.1, hrun.2 hcareful, by decide +kernel, by decide +kernel⟩

end OneFile

end Layr.Rules
