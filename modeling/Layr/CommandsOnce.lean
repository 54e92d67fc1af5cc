import Layr.Commands
import Layr.Lib.Runs

/-!
# Commands run at most once

Runs of `execute_sync` transactions, some of them rolled back, of garbage collections of the replay
records, of other transactions, and of clocks that show anything. A request that was committed is
not committed again, and its repeats return the first reference or an error, unless a trusted
principal repeats it after its record was collected (`repeats_safe_iff`). For the ids of devices,
owners and peers the floor that the collection persists is above the time of issue of every record
that it removed.
-/

namespace Layr.Commands

open Requests Runs Tables List

variable {D S : Type} [DecidableEq D] {env : Env D S} {db db' : Db D S} {p : Principal}
  {r : CommandRequest} {now : ℤ}

/-! ## Runs -/

structure Entry where
  who : String
  request : CommandRequest
  reference : RequestReference

structure World (D S : Type) where
  db : Db D S
  log : List Entry

inductive Event (S : Type) where
  | command (principal : Principal) (request : CommandRequest) (nowMs : ℤ) (commit : Bool)
  | gc (nowMs : ℤ)
  | other (rest : S)

def outcome (env : Env D S) (db : Db D S) (p : Principal) (r : CommandRequest) (now : ℤ)
    (commit : Bool) :
    Except CommandError (Db D S × Executed) :=
  if commit then executeSync env db p r now else .error .rolledBack

def step (env : Env D S) (w : World D S) : Event S → World D S
  | .command p r now commit =>
    match outcome env w.db p r now commit with
    | .ok (db, executed) =>
      { db, log := if executed.replayed then w.log
          else ⟨principalKey p, r, executed.reference⟩ :: w.log }
    | .error _ => w
  | .gc now => { w with db := { w.db with results := w.db.results.gc now } }
  | .other rest => { w with db := { w.db with rest } }

def Entry.key (e : Entry) : String × String × String :=
  (e.who, e.request.id, e.request.command.name)

def Repeats (e : Entry) (p : Principal) (r : CommandRequest) : Prop :=
  e.key = (principalKey p, r.id, r.command.name)

/-- A repeat changes nothing. It returns the first reference, and only for the same content, or an
error. -/
def Safe (env : Env D S) (w : World D S) : Event S → Prop
  | .command p r now commit => ∀ e ∈ w.log, Repeats e p r →
      step env w (.command p r now commit) = w ∧
      ∀ db executed, outcome env w.db p r now commit = .ok (db, executed) →
        e.request.command = r.command ∧ executed = ⟨e.reference, true⟩
  | _ => True

def opaqueText (p : Principal) (r : CommandRequest) : String :=
  identityText "command" [principalKey p] r.id [r.command.name]

/-- The principal may run the request at this time, and the command does not fail. -/
structure Runnable (env : Env D S) (db : Db D S) (p : Principal) (r : CommandRequest) (now : ℤ) :
    Prop where
  kind : isCreate r.command = false
  allowed : authorize env db.rest p r.command = .ok ()
  client : r.client ≠ "" ∧ r.client.length ≤ commandClientIdMaxChars
  clock : 0 < now ∧ now < 2 ^ 63
  runs : ∃ x, runCommand env db.rest p now r.command = .ok x

/-- No trusted principal repeats a committed request whose record is no longer stored: unless the
transaction is rolled back, or could not run as a first one either. -/
def Unforgotten (env : Env D S) (w : World D S) : Event S → Prop
  | .command p r now commit => trusted p = true → (∃ e ∈ w.log, Repeats e p r) →
    w.db.results.rows[opaqueText p r]? = none → commit = true → ¬ Runnable env w.db p r now
  | _ => True

/-! ## What a transaction does -/

def floorOf (db : Db D S) (p : Principal) : ℤ := if trusted p then 0 else db.results.expiredBeforeMs

theorem mapError_eq_ok {ε ε' α : Type} {f : ε → ε'} {x : Except ε α} {a : α} :
    x.mapError f = .ok a ↔ x = .ok a := by
  cases x <;> simp [Except.mapError]

theorem begin_ok {start : Start D} (h : begin env db p r now = .ok start)
    (hcreate : isCreate r.command = false) :
    ∃ identity, identityOf env p r now = .ok identity ∧
      identity.validate now (floorOf db p) = .ok () ∧
      ∃ o, db.results.replayReference identity.id
        (env.digest (principalKey p) r.command) now = .ok o ∧
        ((∃ reference, o = some reference ∧ start = .replay reference) ∨
          (o = none ∧ ∃ client number,
            start = .fresh
              ⟨identity, env.digest (principalKey p) r.command, client, number, true⟩)) := by
  unfold begin at h
  simp only [bind_eq_ok, ensure_eq_ok, exists_unit_eq_ok, exists_const, mapError_eq_ok, hcreate,
    Bool.not_false, if_true] at h
  obtain ⟨-, -, number, -, identity, hidentity, h⟩ := h
  refine ⟨identity, hidentity, ?_⟩
  rw [← floorOf] at h
  cases hvalid : identity.validate now (floorOf db p) with
  | error e =>
    cases e with
    | expired issued before =>
      simp only [hvalid] at h
      split at h <;> cases h
    | invalidUuidV7 _ | futureTimestamp _ _ => simp only [hvalid, reduceCtorEq] at h
  | ok _ =>
    simp only [hvalid, bind_eq_ok, mapError_eq_ok] at h
    obtain ⟨o, ho, h⟩ := h
    refine ⟨rfl, o, ho, ?_⟩
    cases o with
    | some reference => exact .inl ⟨reference, rfl, (pure_eq_ok.1 h).symm⟩
    | none => exact .inr ⟨rfl, _, number, (pure_eq_ok.1 h).symm⟩

variable {executed : Executed}

/-- A transaction that succeeds replays a record, and changes nothing, or records the reference of
its effect where there was no record. -/
theorem executeSync_ok (h : executeSync env db p r now = .ok (db', executed)) :
    ∃ identity, identityOf env p r now = .ok identity ∧
      identity.validate now (floorOf db p) = .ok () ∧
      ((executed.replayed = true ∧ db' = db ∧
          db.results.replayReference identity.id (env.digest (principalKey p) r.command) now =
            .ok (some executed.reference)) ∨
              (executed.replayed = false ∧ db.results.rows[identity.id]? = none ∧
          db'.results = db.results.record identity.id
            (.ofReference (env.digest (principalKey p) r.command) executed.reference
              identity.issuedMs))) := by
  unfold executeSync at h
  simp only [bind_eq_ok, ensure_eq_ok, exists_const, Bool.not_eq_true'] at h
  obtain ⟨hcreate, start, hstart, h⟩ := h
  obtain ⟨identity, hidentity, hvalid, o, ho, ⟨reference, rfl, rfl⟩ | ⟨rfl, client, number, rfl⟩⟩ :=
    begin_ok hstart hcreate
  · refine ⟨identity, hidentity, hvalid, .inl ?_⟩
    obtain ⟨rfl, rfl⟩ := Prod.mk.inj (pure_eq_ok.1 h)
    exact ⟨rfl, rfl, ho⟩
  refine ⟨identity, hidentity, hvalid, .inr ?_⟩
  simp only [finish, if_true, bind_eq_ok, mapError_eq_ok, pure_eq_ok] at h
  obtain ⟨⟨rest, reference⟩, -, ⟨db'', reference'⟩, ⟨⟨results, reference''⟩, hsettle, heq⟩,
    hdone⟩ := h
  obtain ⟨rfl, rfl⟩ := Prod.mk.inj heq
  obtain ⟨rfl, rfl⟩ := Prod.mk.inj hdone
  obtain ⟨hnone, rfl, rfl⟩ := Results.settleReference_ok ho hsettle
  exact ⟨rfl, hnone, rfl⟩

/-- A trusted principal's request without a record runs exactly if it is runnable. -/
theorem executeSync_iff_runnable (ht : trusted p = true)
    (hnone : db.results.rows[opaqueText p r]? = none) :
    (∃ x, executeSync env db p r now = .ok x) ↔ Runnable env db p r now := by
  have hid : identityOf env p r now = .ok ⟨opaqueText p r, now⟩ := by
    rw [identityOf, if_pos ht]
    rfl
  have hvalid : RequestIdentity.validate ⟨opaqueText p r, now⟩ now 0 = .ok () ↔
      0 < now ∧ now < 2 ^ 63 := by
    simp only [RequestIdentity.validate, saturatingSub, saturatingAdd, requestResultTtlMs,
      requestIdFutureSkewMs, le_max_iff, min_lt_iff]
    split_ifs <;> simp <;> omega
  unfold executeSync begin
  simp only [numberOf, ht, hid, if_true, Except.mapError, bind_eq_ok, ensure_eq_ok,
    exists_unit_eq_ok, exists_const, exists_eq_left', Except.ok.injEq]
  cases hv : RequestIdentity.validate ⟨opaqueText p r, now⟩ now 0 with
  | error e =>
    refine iff_of_false ?_ fun h => by cases hv.symm.trans (hvalid.2 h.clock)
    rintro ⟨x, -, start, ⟨-, -, hstart⟩, -⟩
    cases e with
    | expired issued before => split_ifs at hstart
    | _ => cases hstart
  | ok u =>
    simp only [Results.replayReference_absent hnone, finish, Results.settleReference]
    constructor
    · rintro ⟨x, hkind, start, ⟨hallowed, hclient, hstart⟩, hx⟩
      rw [if_pos hkind] at hstart
      obtain rfl := Except.ok.inj hstart
      obtain ⟨y, hrun, -⟩ := bind_eq_ok.1 hx
      exact ⟨by simpa using hkind, hallowed, of_decide_eq_true hclient, hvalid.1 hv, y, hrun⟩
    · rintro ⟨hkind, hallowed, hclient, -, y, hrun⟩
      have hkind : (!isCreate r.command) = true := by rw [hkind]; rfl
      refine ⟨?done, hkind, _, ⟨hallowed, decide_eq_true hclient, if_pos hkind⟩, ?fresh⟩
      case fresh =>
        simp only [hkind, if_true, hnone, hrun]
        exact rfl

/-! ## Identities -/

/-- The code outside: different UUIDs have different texts, and SHA-256 has no collisions. -/
structure Lawful (env : Env D S) : Prop where
  text_inj : Function.Injective env.crate.text
  digest_inj : ∀ who, Function.Injective (env.digest who)

variable {p' : Principal}

theorem trusted_eq_of_key {p : Principal} (h : principalKey p = principalKey p') :
    trusted p = trusted p' := by
  have hlist := congrArg String.toList h
  cases p <;> cases p' <;> first | rfl | simp [principalKey] at hlist

variable {i i' : RequestIdentity}

section
omit [DecidableEq D]

variable {r' : CommandRequest} {now' : ℤ}

theorem identity_of_repeats (hi : identityOf env p r now = .ok i)
    (hi' : identityOf env p' r' now' = .ok i') (hwho : principalKey p = principalKey p')
    (hid : r.id = r'.id) (hname : r.command.name = r'.command.name) :
    i.id = i'.id := by
  unfold identityOf at hi hi'
  rw [trusted_eq_of_key hwho, hwho, hid, hname] at hi
  split at hi
  · next htrusted =>
    rw [if_pos htrusted] at hi'
    cases hi
    cases hi'
    rfl
  · next htrusted =>
    rw [if_neg htrusted, hi] at hi'
    cases hi'
    rfl

/-- One identity text is of one principal key and name; it is of one request id if it is opaque, and
of one time of issue if it is a UUID's. -/
theorem identity_inj (henv : Lawful env)
    (hi : identityOf env p r now = .ok i) (hi' : identityOf env p' r' now' = .ok i')
    (hid : i.id = i'.id) :
    principalKey p = principalKey p' ∧ r.command.name = r'.command.name ∧ trusted p = trusted p' ∧
      (trusted p = true → r.id = r'.id) ∧ (trusted p = false → i.issuedMs = i'.issuedMs) := by
  have hcases : ∀ {p : Principal} {r : CommandRequest} {now : ℤ} {i : RequestIdentity},
    identityOf env p r now = .ok i →
        (trusted p = true ∧ i.id = identityText "command" [principalKey p] r.id [r.command.name]) ∨
        (trusted p = false ∧ ∃ u, i =
          ⟨identityText "command" [principalKey p] (env.crate.text u) [r.command.name],
          Uuid.issuedMs u⟩) := by
    intro p r now i hi
    unfold identityOf at hi
    split at hi
    · next htrusted =>
      cases hi
      exact .inl ⟨htrusted, rfl⟩
    next htrusted =>
    unfold RequestIdentity.new at hi
    split at hi
    · cases hi
    · cases hi
      exact .inr ⟨Bool.eq_false_iff.2 htrusted, _, rfl⟩
  have hkey : ∀ {root root' : String}, identityText "command" [principalKey p] root
    [r.command.name] =
      identityText "command" [principalKey p'] root' [r'.command.name] →
      principalKey p = principalKey p' ∧ r.command.name = r'.command.name ∧ root = root' :=
          fun heq => by
    obtain ⟨-, hwho, hroot, hname⟩ := identityText_inj heq
    exact ⟨singleton_injective hwho, singleton_injective hname, hroot⟩
  rcases hcases hi with ⟨ht, heq⟩ | ⟨ht, u, rfl⟩ <;>
    rcases hcases hi' with ⟨ht', heq'⟩ | ⟨ht', u', rfl⟩
  · obtain ⟨hwho, hname, hroot⟩ := hkey (heq ▸ heq' ▸ hid)
    exact ⟨hwho, hname, ht.trans ht'.symm, fun _ => hroot, fun h => (nomatch ht.symm.trans h)⟩
  · obtain ⟨hwho, -, -⟩ := hkey (heq ▸ hid)
    cases ht.symm.trans ((trusted_eq_of_key hwho).trans ht')
  · obtain ⟨hwho, -, -⟩ := hkey (heq' ▸ hid)
    cases ht.symm.trans ((trusted_eq_of_key hwho).trans ht')
  · obtain ⟨hwho, hname, hroot⟩ := hkey hid
    obtain rfl := henv.text_inj hroot
    exact ⟨hwho, hname, ht.trans ht'.symm, fun h => (nomatch ht.symm.trans h), fun _ => rfl⟩

end

/-! ## What a run keeps -/

/-- The record of a committed effect is there, or it was collected: then the principal is trusted,
or the time of issue is not above the floor. -/
def Kept (env : Env D S) (res : Results D) (p : Principal) (e : Entry)
    (i : RequestIdentity) : Prop :=
  res.rows[i.id]? = some
    (.ofReference (env.digest e.who e.request.command) e.reference i.issuedMs) ∨
    (res.rows[i.id]? = none ∧ (trusted p = true ∨ i.issuedMs ≤ res.expiredBeforeMs))

def Held (env : Env D S) (res : Results D) (e : Entry) : Prop :=
  ∃ p now i, e.who = principalKey p ∧ identityOf env p e.request now = .ok i ∧ Kept env res p e i

structure Invariant (env : Env D S) (w : World D S) : Prop where
  held : ∀ e ∈ w.log, Held env w.db.results e
  nodup : (w.log.map Entry.key).Nodup

variable {i : RequestIdentity}

omit [DecidableEq D] in
theorem opaqueText_eq (hi : identityOf env p r now = .ok i) (ht : trusted p = true) :
    i.id = opaqueText p r := by
  rw [identityOf, if_pos ht] at hi
  cases hi
  rfl

theorem validate_above {floor : ℤ} (h : i.validate now floor = .ok ()) : floor < i.issuedMs := by
  unfold RequestIdentity.validate at h
  simp only at h
  split at h
  · cases h
  · next hnot => exact (le_max_right _ _).trans_lt (not_le.1 hnot)

/-- A transaction under the identity of a committed request replays its record. -/
theorem replays_of_held (henv : Lawful env) {p₀ : Principal} {now₀ : ℤ} {e : Entry}
    (hwho : e.who = principalKey p₀) (hi : identityOf env p₀ e.request now₀ = .ok i)
    (hrow : Kept env db.results p₀ e i) (h : executeSync env db p r now = .ok (db', executed))
    (hi' : identityOf env p r now = .ok i') (hid : i.id = i'.id)
    (hforgot : trusted p = true → Repeats e p r → db.results.rows[opaqueText p r]? ≠ none) :
    e.request.command = r.command ∧ executed = ⟨e.reference, true⟩ ∧ db' = db := by
  obtain ⟨hkey, hname, htrusted, hroot, hissued⟩ := identity_inj henv hi hi' hid
  obtain ⟨j, hj, hvalid, hcase⟩ := executeSync_ok h
  cases hi'.symm.trans hj
  rw [Kept, hid] at hrow
  rcases hrow with hrow | ⟨hnone, hgone⟩
  · rcases hcase with ⟨hreplayed, rfl, hreplay⟩ | ⟨-, hnone, -⟩
    · obtain ⟨hdigest, href⟩ := Results.replayReference_ofReference hrow hreplay
      rw [hwho, hkey] at hdigest
      refine ⟨henv.digest_inj _ hdigest, ?_, rfl⟩
      rw [← hreplayed, ← some.inj href]
    · rw [hrow] at hnone
      cases hnone
  · cases ht : trusted p₀ with
    | true =>
      rw [htrusted] at ht
      refine absurd (opaqueText_eq hi' ht ▸ hnone) (hforgot ht ?_)
      rw [Repeats, Entry.key, hwho, hkey, hroot (htrusted.trans ht), hname]
    | false =>
      -- the floor refuses the identity
      have hle := hgone.resolve_left fun h => (nomatch ht.symm.trans h)
      have hlt := validate_above hvalid
      rw [floorOf, ← htrusted, ht] at hlt
      rw [hissued ht] at hle
      exact absurd hle (not_le.2 hlt)

omit [DecidableEq D] in
theorem Held.gc {res : Results D} {e : Entry} (h : Held env res e) (now : ℤ) :
    Held env (res.gc now) e := by
  obtain ⟨p, t, i, hwho, hi, hrow⟩ := h
  refine ⟨p, t, i, hwho, hi, ?_⟩
  have hfloor : res.expiredBeforeMs ≤ (res.gc now).expiredBeforeMs := le_max_right _ _
  rcases hrow with hrow | ⟨hnone, hgone⟩
  · rcases res.gc_cases now i.id with heq | ⟨hnone, row, hrow', hle⟩
    · exact .inl (heq.trans hrow)
    · cases hrow.symm.trans hrow'
      exact .inr ⟨hnone, .inr hle⟩
  · refine .inr ⟨?_, hgone.imp_right fun hle => hle.trans hfloor⟩
    rcases res.gc_cases now i.id with heq | ⟨hnone', -⟩
    · exact heq.trans hnone
    · exact hnone'

variable {w : World D S} {commit : Bool}

theorem step_error {err : CommandError}
    (h : outcome env w.db p r now commit = .error err) :
    step env w (.command p r now commit) = w := by
  simp [step, h]

theorem step_ok (h : outcome env w.db p r now commit = .ok (db', executed)) :
    step env w (.command p r now commit) =
      ⟨db', if executed.replayed then w.log else ⟨principalKey p, r, executed.reference⟩ ::
        w.log⟩ := by
  simp [step, h]

theorem outcome_eq_ok {x : Db D S × Executed} :
    outcome env db p r now commit = .ok x ↔ commit = true ∧ executeSync env db p r now = .ok x := by
  cases commit <;> simp [outcome]

/-- The step of a transaction. -/
theorem Invariant.command (henv : Lawful env) (hw : Invariant env w)
    (hun : Unforgotten env w (.command p r now commit)) :
    Invariant env (step env w (.command p r now commit)) ∧
      Safe env w (.command p r now commit) := by
  match hout : outcome env w.db p r now commit with
  | .error err =>
    rw [step_error hout]
    exact ⟨hw, fun e _ _ => ⟨step_error hout, fun db executed h => (nomatch hout.symm.trans h)⟩⟩
  | .ok (db', executed) =>
    obtain ⟨hcommit, hexec⟩ := outcome_eq_ok.1 hout
    obtain ⟨i', hi', hvalid, hcase⟩ := executeSync_ok hexec
    have hforgot : ∀ e ∈ w.log, trusted p = true → Repeats e p r →
        w.db.results.rows[opaqueText p r]? ≠ none :=
      fun e he ht hrep hnone => hun ht ⟨e, he, hrep⟩ hnone hcommit
        ((executeSync_iff_runnable ht hnone).1 ⟨_, hexec⟩)
    -- an entry with the transaction's identity is replayed
    have hsame : ∀ e ∈ w.log, ∀ p₀ now₀ i, e.who = principalKey p₀ →
      identityOf env p₀ e.request now₀ = .ok i →
        Kept env w.db.results p₀ e i → i.id = i'.id →
          e.request.command = r.command ∧ executed = ⟨e.reference, true⟩ ∧ db' = w.db :=
      fun e he p₀ now₀ i hwho hi hrow hid => replays_of_held henv hwho hi hrow hexec hi' hid
        (hforgot e he)
    have hrepeat : ∀ e ∈ w.log, Repeats e p r →
        e.request.command = r.command ∧ executed = ⟨e.reference, true⟩ ∧ db' = w.db := by
      intro e he hrep
      obtain ⟨p₀, now₀, i, hwho, hi, hrow⟩ := hw.held e he
      obtain ⟨hkey, hid, hname⟩ : e.who = principalKey p ∧ e.request.id = r.id ∧
        e.request.command.name = r.command.name := by simpa [Repeats, Entry.key] using hrep
      exact hsame e he p₀ now₀ i hwho hi hrow
        (identity_of_repeats hi hi' (hwho.symm.trans hkey) hid hname)
    refine ⟨?_, fun e he hrep => ?_⟩
    · rw [step_ok hout]
      rcases hcase with ⟨hreplayed, rfl, -⟩ | ⟨hfresh, hnone, hresults⟩
      · rw [if_pos hreplayed]
        exact hw
      have hnot : ∀ {e : Entry}, executed ≠ ⟨e.reference, true⟩ := fun heq => by
        rw [heq] at hfresh
        cases hfresh
      rw [if_neg (by rw [hfresh]; decide)]
      refine ⟨?_, ?_⟩
      · rw [hresults]
        intro e he
        rcases mem_cons.1 he with rfl | he
        · exact ⟨p, now, i', rfl, hi', .inl getElem?_insert_self⟩
        obtain ⟨p₀, now₀, i, hwho, hi, hrow⟩ := hw.held e he
        have hne : i'.id ≠ i.id := fun hid => hnot (hsame e he p₀ now₀ i hwho hi hrow hid.symm).2.1
        refine ⟨p₀, now₀, i, hwho, hi, ?_⟩
        unfold Kept
        rw [Results.record, Maps.getElem?_insert_ne hne]
        exact hrow
      · refine nodup_cons.2 ⟨fun hmem => ?_, hw.nodup⟩
        obtain ⟨e, he, hkey⟩ := mem_map.1 hmem
        exact hnot (hrepeat e he hkey).2.1
    · obtain ⟨hcommand, rfl, rfl⟩ := hrepeat e he hrep
      refine ⟨step_ok hout, fun db executed h => ⟨hcommand, ?_⟩⟩
      exact (Prod.mk.inj (Except.ok.inj (hout.symm.trans h))).2.symm

/-- Only a transaction can repeat a request. A collection takes records that may go. -/
theorem Invariant.step (henv : Lawful env) {e : Event S} (hw : Invariant env w)
    (hun : Unforgotten env w e) : Invariant env (step env w e) ∧ Safe env w e := by
  cases e with
  | command p r now commit => exact hw.command henv hun
  | gc now => exact ⟨⟨fun e he => (hw.held e he).gc now, hw.nodup⟩, trivial⟩
  | other rest => exact ⟨⟨hw.held, hw.nodup⟩, trivial⟩

/-- A repeat that succeeds without a record runs the command again. -/
theorem Safe.unforgotten {e : Event S} (h : Safe env w e) : Unforgotten env w e := by
  cases e with
  | command p r now commit =>
    rintro ht ⟨e, he, hrep⟩ hnone hcommit hrun
    obtain ⟨⟨db', executed⟩, hexec⟩ := (executeSync_iff_runnable ht hnone).2 hrun
    obtain ⟨-, hsafe⟩ := h e he hrep
    obtain ⟨-, rfl⟩ := hsafe _ _ (outcome_eq_ok.2 ⟨hcommit, hexec⟩)
    obtain ⟨i, hi, -, ⟨-, -, hreplay⟩ | ⟨hfresh, -⟩⟩ := executeSync_ok hexec
    · rw [Results.replayReference_absent (opaqueText_eq hi ht ▸ hnone)] at hreplay
      cases hreplay
    · cases hfresh
  | gc now => trivial
  | other rest => trivial

/-- For every run: each repeat is safe and no effect is committed twice, exactly if no trusted
principal repeats a request that is runnable after its record was collected. -/
theorem repeats_safe_iff (henv : Lawful env) (db : Db D S) (es : List (Event S)) :
    Along (step env) (Safe env) ⟨db, []⟩ es ∧
      ((es.foldl (step env) ⟨db, []⟩).log.map Entry.key).Nodup ↔
      Along (step env) (Unforgotten env) ⟨db, []⟩ es := by
  have hstart : Invariant env ⟨db, []⟩ := ⟨fun _ h => (nomatch h), nodup_nil⟩
  constructor
  · rintro ⟨hsafe, -⟩
    exact hsafe.imp (I := fun _ => True) trivial fun w e _ h => ⟨trivial, h.unforgotten⟩
  · intro hun
    refine ⟨hun.imp hstart fun w e hw h => hw.step henv h, ?_⟩
    exact (hun.invariant hstart fun w e hw h => (hw.step henv h).1).nodup

/-! ## A run of each kind -/

def countingEnv : Env (String × Command) ℕ where
  crate := ⟨fun _ => none, fun u => String.ofList (List.replicate u.toNat 'u')⟩
  digest who command := (who, command)
  isDescendant _ _ _ := some false
  worker _ _ := .ok none
  withdraw _ _ _ := .error .notFound
  serverDraft count _ _ _ := .ok count
  stop count _ _ _ _ := .ok (count + 1)
  agentReference count target := .ok ⟨.agent, target, count⟩

theorem lawful_countingEnv : Lawful countingEnv where
  text_inj u v h := by
    have hlength := congrArg String.length h
    simp only [countingEnv, String.length_ofList, length_replicate] at hlength
    exact BitVec.eq_of_toNat_eq hlength
  digest_inj _ _ _ h := (Prod.mk.inj h).2

def emptyDb : Db (String × Command) ℕ := ⟨⟨∅, 0⟩, ∅, 0⟩

def stopChat (nowMs : ℤ) : Event ℕ :=
  .command .policy ⟨"call", "client", 0, .stop "chat" true⟩ nowMs true

theorem repeats_safe_twice : Along (step countingEnv) (Safe countingEnv) ⟨emptyDb, []⟩
    [stopChat 1, stopChat 2] ∧
      (([stopChat 1, stopChat 2].foldl (step countingEnv) ⟨emptyDb, []⟩).log.map
        Entry.key).Nodup := by
  refine (repeats_safe_iff lawful_countingEnv emptyDb _).2 ⟨?_, ?_, trivial⟩
  · rintro - ⟨e, he, -⟩
    cases he
  · rintro - - hnone
    exact absurd hnone (by decide +kernel)

/-- The record is collected when its time to live is over, and the same request runs again. -/
theorem collected_request_runs_again : Lawful countingEnv ∧
    let w := [stopChat 1, .gc (1 + requestResultTtlMs), stopChat (1 + requestResultTtlMs)].foldl
      (step countingEnv)
      ⟨emptyDb, []⟩
    w.log.map Entry.key = [("policy", "call", "stop"), ("policy", "call", "stop")] ∧
        w.db.rest = 2 :=
  ⟨lawful_countingEnv, by decide +kernel⟩

end Layr.Commands
