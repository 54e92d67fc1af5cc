import Layr.DbRuns

/-!
# Attestations in a run

A record keeps at most one attestation, under its own id. All of it but the change id is fixed by
the record alone (`attestationIn_core`), so what a run leaves in the table can be read off the
records (`tables_attestations`). An attestation is revoked exactly when a record that takes it back
comes after it (`isRevoked_tables`).
-/

namespace Layr

open List

variable {c : Codec} {here : String}

/-- The attestation without its change id, which is looked up in the states. -/
def Attestation.core (a : Attestation) : Attestation := { a with changeId := none }

def AttestationRow.core (row : AttestationRow) : AttestationRow :=
  { row with rec' := row.rec'.core }

namespace Db

/-! ## The attestation of a record -/

def attested (c : Codec) (r : Record) : Option Attestation := attestationIn c r ∅

/-- The attestation of a record does not depend on the states, but for its change id. -/
theorem attestationIn_core (c : Codec) (r : Record) (m : BTreeMap StateRow) :
    (attestationIn c r m).map Attestation.core = (attested c r).map Attestation.core := by
  unfold attested attestationIn attestationOf Record.attestationWith
  cases r.data.get "attestation" with
  | some v => cases Attestation.decode v <;> rfl
  | none =>
    simp only [onField, Record.impliedAttestation, Except.toOption, Option.join_some]
    split
    · cases (r.data.idx "state").asStr <;> rfl
    · rfl

variable {r : Record} {m : BTreeMap StateRow}

theorem attestationIn_eq_none (h : attested c r = none) : attestationIn c r m = none := by
  have hcore := attestationIn_core c r m
  rw [h] at hcore
  simpa using hcore

variable {a : Attestation}

theorem attestationIn_eq_some (m : BTreeMap StateRow)
    (h : attested c r = some a) : ∃ b, attestationIn c r m = some b ∧ b.core = a.core := by
  have hcore := attestationIn_core c r m
  rw [h] at hcore
  exact map_eq_some_iff.1 hcore

theorem attestationId_eq (hr : ValidRecord c r) (h : attestationIn c r m = some a) :
    a.attestationId = r.id := by
  unfold attestationIn attestationOf Record.attestationWith at h
  cases hv : r.data.get "attestation" with
  | some v =>
    obtain ⟨b, hb, hid, -⟩ := hr.attestation v hv
    simp only [hv, onField, hb, context, Except.toOption, bind, Except.bind, pure, Except.pure,
      Option.join_some, some.injEq] at h
    exact h ▸ hid
  | none =>
    simp only [hv, onField, Record.impliedAttestation, Except.toOption, Option.join_some] at h
    split at h
    · obtain ⟨st, -, rfl⟩ := map_eq_some_iff.1 h
      rfl
    · cases h

def attestRow (here : String) (r : Record) (a : Attestation) : AttestationRow :=
  ⟨a.subject.id, a.kind, a, signerOf r a, r.actor.uid, r.machine == here, r.ord⟩

theorem signerOf_congr {a b : Attestation} (h : a.core = b.core) : signerOf r a = signerOf r b := by
  have hsigner : a.signer = b.signer := (congrArg Attestation.signer h :)
  unfold signerOf
  rw [hsigner]

theorem attestRow_core {a b : Attestation} (h : a.core = b.core) :
    (attestRow here r a).core = (attestRow here r b).core := by
  have hsubject : a.subject = b.subject := (congrArg Attestation.subject h :)
  have hkind : a.kind = b.kind := (congrArg Attestation.kind h :)
  simp [attestRow, AttestationRow.core, signerOf_congr h, hsubject, hkind, h]

/-! ## The table of attestations -/

def attestationAt (c : Codec) (here : String) (rows : List Row) (id : String) :
    Option AttestationRow :=
  (rows.find? (·.record.id == id)).bind fun row =>
    (attested c row.record).map fun a => (attestRow here row.record a).core

variable {rows : List Row} {last : Row}

theorem find?_of_new (h : ∀ row ∈ rows, row.record.id ≠ last.record.id) :
    rows.find? (·.record.id == last.record.id) = none := by
  rw [find?_eq_none]
  intro row hrow
  rw [beq_iff_eq]
  exact h row hrow

theorem find?_append_singleton_of_new (h : ∀ row ∈ rows, row.record.id ≠ last.record.id)
    (id : String) :
    (rows ++ [last]).find? (·.record.id == id) =
      if last.record.id = id then some last else rows.find? (·.record.id == id) := by
  rw [find?_append, find?_singleton]
  by_cases hid : last.record.id = id
  · subst hid
    rw [find?_of_new h, if_pos rfl, beq_self_eq_true]
    rfl
  · rw [if_neg hid, beq_eq_false_iff_ne.2 hid]
    simp

/-- The states that the attestation of a record is looked up in. -/
theorem effect_attestations (db : Db) (r : Record) : (effect c here db r).attestations =
    match attestationIn c r (addStates r db.states) with
    | none => db.attestations
    | some a => attestationStep r (r.machine == here) a db.attestations := rfl

theorem tables_attestations (hv : ValidRows c rows) (id : String) :
    (tables c here rows).attestations[id]?.map AttestationRow.core =
      attestationAt c here rows id := by
  induction rows using List.reverseRecOn with
  | nil => simp [tables, attestationAt]
  | append_singleton rows last ih =>
    have ih := ih hv.init
    rw [tables_append_singleton, effect_attestations]
    unfold attestationAt
    rw [find?_append_singleton_of_new hv.id_ne]
    cases hatt : attested c last.record with
    | none =>
      rw [attestationIn_eq_none hatt]
      by_cases hid : last.record.id = id
      · subst hid
        simp [ih, attestationAt, find?_of_new hv.id_ne, hatt]
      · simp [ih, attestationAt, if_neg hid]
    | some a =>
      obtain ⟨b, hb, hcore⟩ :=
        attestationIn_eq_some (addStates last.record (tables c here rows).states) hatt
      rw [hb]
      have hbid := attestationId_eq hv.last hb
      simp only [attestationStep, hbid]
      by_cases hid : last.record.id = id
      · subst hid
        have hmap : (tables c here rows).attestations[last.record.id]?.map AttestationRow.core =
            none := by
          rw [ih, attestationAt, find?_of_new hv.id_ne]
          rfl
        have hnone := map_eq_none_iff.1 hmap
        rw [if_pos rfl]
        simp only [getElem?_insert_self, hnone, Option.map_some, Option.bind_some, hatt]
        exact congrArg some (attestRow_core hcore)
      · rw [if_neg hid]
        simp [Maps.getElem?_insert_ne hid, ih, attestationAt]

theorem attestationAt_eq {t : Row} (ha : attested c t.record = some a)
    (ht : ∀ row ∈ rows, row.record.id = t.record.id → row = t) :
    attestationAt c here rows t.record.id =
    if t ∈ rows then some (attestRow here t.record a).core else none := by
  unfold attestationAt
  by_cases hmem : t ∈ rows
  · have hsome : (rows.find? (·.record.id == t.record.id)).isSome = true :=
      find?_isSome.2 ⟨t, hmem, by simp⟩
    obtain ⟨row, hrow⟩ := isSome_iff_exists.1 hsome
    have hid : row.record.id = t.record.id := by simpa using find?_some hrow
    obtain rfl := ht row (mem_of_find?_eq_some hrow) hid
    rw [if_pos hmem, hrow, Option.bind_some, ha]
    rfl
  · have hnone : rows.find? (·.record.id == t.record.id) = none := by
      rw [find?_eq_none]
      intro row hrow hid
      exact hmem (ht row hrow (by simpa using hid) ▸ hrow)
    rw [if_neg hmem, hnone]
    rfl

/-! ## Revocations -/

def counts (id : String) (x : AttestationRow) (v : Revocation) : Bool :=
  v.target == id && v.machine == x.machine && v.uid == x.uid && x.ord < v.ord

theorem isRevoked_eq (db : Db) (id : String) (x : AttestationRow) :
    db.isRevoked id x = db.revocations.any (counts id x) := rfl

/-- Revocations that are added one by one. One that is left out does not count more than the one
that is there. -/
theorem any_foldl_addRevocation {q : Revocation → Bool} {rs vs : List Revocation}
    (hold : ∀ v ∈ rs, ∀ w ∈ vs, v.id = w.id → v.target = w.target → q w = true → q v = true)
    (hnew : vs.Pairwise fun v w => v.id = w.id → v.target = w.target → q w = true → q v = true) :
    (vs.foldl addRevocation rs).any q = (rs.any q || vs.any q) := by
  induction vs generalizing rs with
  | nil => simp
  | cons w vs ih =>
    rw [pairwise_cons] at hnew
    rw [foldl_cons, any_cons]
    by_cases hdup : (rs.any fun o => o.id == w.id && o.target == w.target) = true
    · have hskip : addRevocation rs w = rs := if_pos hdup
      rw [hskip, ih (fun v hv u hu => hold v hv u (mem_cons_of_mem _ hu)) hnew.2]
      cases hq : q w with
      | false => rw [Bool.false_or]
      | true =>
        obtain ⟨v, hv, hkey⟩ := any_eq_true.1 hdup
        simp only [Bool.and_eq_true, beq_iff_eq] at hkey
        have hrs : rs.any q = true :=
          any_eq_true.2 ⟨v, hv, hold v hv w mem_cons_self hkey.1 hkey.2 hq⟩
        simp [hrs]
    · have hadd : addRevocation rs w = rs ++ [w] := if_neg hdup
      rw [hadd, ih (fun v hv u hu => ?_) hnew.2, any_append, any_cons, any_nil, Bool.or_false,
        Bool.or_assoc]
      rcases mem_append.1 hv with hv | hv
      · exact hold v hv u (mem_cons_of_mem _ hu)
      · rw [mem_singleton.1 hv]
        exact hnew.1 u hu

variable {v : Revocation}

theorem mem_foldl_addRevocation {rs vs : List Revocation} (h : v ∈ vs.foldl addRevocation rs) :
    v ∈ rs ∨ v ∈ vs := by
  induction vs generalizing rs with
  | nil => exact .inl h
  | cons w vs ih =>
    rcases ih h with h | h
    · unfold addRevocation at h
      split at h
      · exact .inl h
      · rcases mem_append.1 h with h | h
        · exact .inl h
        · exact .inr (by simp [mem_singleton.1 h])
    · exact .inr (mem_cons_of_mem _ h)

def withdrawals (r : Record) (a : Attestation) (m : BTreeMap AttestationRow) : List Revocation :=
  if r.op = "approve.withdraw" then
    (m.toList.filter fun e => e.2.subject == a.subject.id && e.2.kind == "approval" &&
      e.2.machine == r.machine && e.2.uid == r.actor.uid && e.2.ord < r.ord).map fun e =>
        ⟨a.attestationId, e.1, r.machine, r.actor.uid, r.ord⟩
  else []

def takenBack (r : Record) (a : Attestation) (m : BTreeMap AttestationRow) : List Revocation :=
  if a.kind = "revoke" then
    ((textsAt r.data "revokes").filter fun id => m[id]?.any fun t => t.subject == a.subject.id).map
      fun id => ⟨a.attestationId, id, signerOf r a, r.actor.uid, r.ord⟩
  else []

theorem revocationsOf_eq (r : Record) (a : Attestation) (m : BTreeMap AttestationRow) :
    revocationsOf r a m = withdrawals r a m ++ takenBack r a m := rfl

variable {m : BTreeMap AttestationRow}

theorem mem_withdrawals : v ∈ withdrawals r a m ↔ r.op = "approve.withdraw" ∧
    ∃ y, m[v.target]? = some y ∧
      y.subject = a.subject.id ∧ y.kind = "approval" ∧ y.machine = r.machine ∧
      y.uid = r.actor.uid ∧ y.ord < r.ord ∧
        v = ⟨a.attestationId, v.target, r.machine, r.actor.uid, r.ord⟩ := by
  unfold withdrawals
  split
  · next hop =>
    simp only [hop, true_and, mem_map, mem_filter, Bool.and_eq_true, beq_iff_eq, decide_eq_true_eq]
    constructor
    · rintro ⟨e, ⟨he, ⟨⟨⟨hs, hk⟩, hm⟩, hu⟩, ho⟩, rfl⟩
      exact ⟨e.2, mem_toList_iff_getElem?_eq_some.1 he, hs, hk, hm, hu, ho, rfl⟩
    · rintro ⟨y, hy, hs, hk, hm, hu, ho, hv⟩
      exact ⟨(v.target, y), ⟨mem_toList_iff_getElem?_eq_some.2 hy, ⟨⟨⟨hs, hk⟩, hm⟩, hu⟩, ho⟩,
        hv.symm⟩
  · next hop => simp [hop]

theorem mem_takenBack : v ∈ takenBack r a m ↔ a.kind = "revoke" ∧
    v.target ∈ textsAt r.data "revokes" ∧
      (∃ y, m[v.target]? = some y ∧ y.subject = a.subject.id) ∧
      v = ⟨a.attestationId, v.target, signerOf r a, r.actor.uid, r.ord⟩ := by
  unfold takenBack
  split
  · next hk =>
    simp only [hk, true_and, mem_map, mem_filter, Option.any_eq_true, beq_iff_eq]
    constructor
    · rintro ⟨id, ⟨hid, y, hy, hs⟩, rfl⟩
      exact ⟨hid, ⟨y, hy, hs⟩, rfl⟩
    · rintro ⟨hid, ⟨y, hy, hs⟩, hv⟩
      exact ⟨v.target, ⟨hid, y, hy, hs⟩, hv.symm⟩
  · next hk => simp [hk]

theorem id_of_mem_revocationsOf (h : v ∈ revocationsOf r a m) : v.id = a.attestationId := by
  rw [revocationsOf_eq] at h
  rcases mem_append.1 h with h | h
  · obtain ⟨-, -, -, -, -, -, -, -, heq⟩ := mem_withdrawals.1 h
    rw [heq]
  · obtain ⟨-, -, -, heq⟩ := mem_takenBack.1 h
    rw [heq]

variable {x : AttestationRow} {id : String}

/-- What a record takes back of one attestation, whose row is in the table or not. -/
theorem any_revocationsOf (hx : ∀ y, m[id]? = some y → y.core = x.core) :
    (revocationsOf r a m).any (counts id x) = true ↔ id ∈ m ∧ x.subject = a.subject.id ∧
      x.uid = r.actor.uid ∧ x.ord < r.ord ∧
      ((r.op = "approve.withdraw" ∧ x.kind = "approval" ∧ x.machine = r.machine) ∨
        (a.kind = "revoke" ∧ id ∈ textsAt r.data "revokes" ∧ x.machine = signerOf r a)) := by
  have hfields : ∀ y, m[id]? = some y → y.subject = x.subject ∧ y.kind = x.kind ∧
      y.machine = x.machine ∧ y.uid = x.uid ∧ y.ord = x.ord := by
    intro y hy
    have h := hx y hy
    exact ⟨(congrArg AttestationRow.subject h :), (congrArg AttestationRow.kind h :),
      (congrArg AttestationRow.machine h :), (congrArg AttestationRow.uid h :),
      (congrArg AttestationRow.ord h :)⟩
  simp only [revocationsOf_eq, any_append, Bool.or_eq_true, any_eq_true, counts,
    Bool.and_eq_true, beq_iff_eq, decide_eq_true_eq]
  constructor
  · rintro (⟨v, hv, ⟨⟨rfl, hvm⟩, hvu⟩, hvo⟩ | ⟨v, hv, ⟨⟨rfl, hvm⟩, hvu⟩, hvo⟩)
    · obtain ⟨hop, y, hy, hs, hk, hm, hu, ho, hveq⟩ := mem_withdrawals.1 hv
      obtain ⟨hys, hyk, hym, hyu, hyo⟩ := hfields y hy
      exact ⟨Maps.mem_iff_exists.2 ⟨y, hy⟩, hys ▸ hs, hyu ▸ hu, hyo ▸ ho,
        .inl ⟨hop, hyk ▸ hk, hym ▸ hm⟩⟩
    · obtain ⟨hk, hid, ⟨y, hy, hs⟩, hveq⟩ := mem_takenBack.1 hv
      obtain ⟨hys, hyk, hym, hyu, hyo⟩ := hfields y hy
      rw [hveq] at hvm hvu hvo
      exact ⟨Maps.mem_iff_exists.2 ⟨y, hy⟩, hys ▸ hs, hvu.symm, hvo, .inr ⟨hk, hid, hvm.symm⟩⟩
  · rintro ⟨hin, hs, hu, ho, htake⟩
    obtain ⟨y, hy⟩ := Maps.mem_iff_exists.1 hin
    obtain ⟨hys, hyk, hym, hyu, hyo⟩ := hfields y hy
    rcases htake with ⟨hop, hk, hm⟩ | ⟨hk, hid, hm⟩
    · refine .inl ⟨⟨a.attestationId, id, r.machine, r.actor.uid, r.ord⟩, mem_withdrawals.2
        ⟨hop, y, hy, hys.trans hs, hyk.trans hk, hym.trans hm, hyu.trans hu, hyo ▸ ho, rfl⟩, ?_⟩
      exact ⟨⟨⟨rfl, hm.symm⟩, hu.symm⟩, ho⟩
    · refine .inr ⟨⟨a.attestationId, id, signerOf r a, r.actor.uid, r.ord⟩, mem_takenBack.2
        ⟨hk, hid, ⟨y, hy, hys.trans hs⟩, rfl⟩, ?_⟩
      exact ⟨⟨⟨rfl, hm.symm⟩, hu.symm⟩, ho⟩

/-- A revocation that is left out because another one is there takes back nothing that this one does
not. -/
theorem pairwise_revocationsOf (hx : ∀ y, m[id]? = some y → y.core = x.core) :
    (revocationsOf r a m).Pairwise fun v w => v.id = w.id → v.target = w.target →
      counts id x w = true → counts id x v = true := by
  rw [revocationsOf_eq, pairwise_append]
  refine ⟨pairwise_of_forall_mem_list fun v hv w hw _ ht hc => ?_,
    pairwise_of_forall_mem_list fun v hv w hw _ ht hc => ?_, fun v hv w hw _ ht hc => ?_⟩
  · obtain ⟨-, -, -, -, -, -, -, -, hveq⟩ := mem_withdrawals.1 hv
    obtain ⟨-, -, -, -, -, -, -, -, hweq⟩ := mem_withdrawals.1 hw
    rw [hveq, ht, ← hweq]
    exact hc
  · obtain ⟨-, -, -, hveq⟩ := mem_takenBack.1 hv
    obtain ⟨-, -, -, hweq⟩ := mem_takenBack.1 hw
    rw [hveq, ht, ← hweq]
    exact hc
  obtain ⟨-, y, hy, -, -, hm, -, -, hveq⟩ := mem_withdrawals.1 hv
  obtain ⟨-, -, -, hweq⟩ := mem_takenBack.1 hw
  simp only [counts, Bool.and_eq_true, beq_iff_eq, decide_eq_true_eq] at hc ⊢
  rw [hweq] at hc
  rw [hveq]
  have hxm : y.machine = x.machine :=
    (congrArg AttestationRow.machine (hx y (by rw [← hc.1.1.1, ← ht, hy])) :)
  exact ⟨⟨⟨ht.trans hc.1.1.1, hm.symm.trans hxm⟩, hc.1.2⟩, hc.2⟩

/-- The first record takes back the attestation of the second one, if that is there: it withdraws
the approvals of its user on its machine, or its signer names the attestation. -/
def TakesBack (c : Codec) (r t : Record) : Prop :=
  ∃ a b, attested c t = some a ∧ attested c r = some b ∧ a.subject.id = b.subject.id ∧
    t.actor.uid = r.actor.uid ∧ t.ord < r.ord ∧
    ((r.op = "approve.withdraw" ∧ a.kind = "approval" ∧ signerOf t a = r.machine) ∨
      (b.kind = "revoke" ∧ t.id ∈ textsAt r.data "revokes" ∧ signerOf t a = signerOf r b))

theorem effect_revocations (db : Db) (r : Record) : (effect c here db r).revocations =
    match attestationIn c r (addStates r db.states) with
    | none => db.revocations
    | some a => (revocationsOf r a (attestationStep r (r.machine == here) a db.attestations)).foldl
        addRevocation db.revocations := rfl

theorem id_of_mem_revocations (hv : ValidRows c rows)
    (h : v ∈ (tables c here rows).revocations) : ∃ row ∈ rows, row.record.id = v.id := by
  induction rows using List.reverseRecOn with
  | nil => simp [tables] at h
  | append_singleton rows last ih =>
    have hinit : v ∈ (tables c here rows).revocations →
        ∃ row ∈ rows ++ [last], row.record.id = v.id := fun h => by
      obtain ⟨row, hrow, hid⟩ := ih hv.init h
      exact ⟨row, by simp [hrow], hid⟩
    rw [tables_append_singleton, effect_revocations] at h
    split at h
    · exact hinit h
    next a ha =>
    rcases mem_foldl_addRevocation h with h | h
    · exact hinit h
    · refine ⟨last, by simp, ?_⟩
      rw [id_of_mem_revocationsOf h, attestationId_eq hv.last ha]

/-- An attestation is revoked exactly when a record that takes it back comes after it. -/
theorem isRevoked_tables (hv : ValidRows c rows) {t : Row} (ha : attested c t.record = some a)
    (ht : ∀ row ∈ rows, row.record.id = t.record.id → row = t)
    (hx : x.core = (attestRow here t.record a).core) :
    (tables c here rows).isRevoked t.record.id x = true ↔
    ∃ r, [t, r].Sublist rows ∧ TakesBack c r.record t.record := by
  induction rows using List.reverseRecOn with
  | nil => simp [tables, isRevoked]
  | append_singleton rows last ih =>
    have ih := ih hv.init fun row hrow => ht row (by simp [hrow])
    simp only [Replay.pair_sublist_append_singleton, or_and_right, exists_or, and_assoc,
      exists_eq_left, ← ih]
    have hat := @tables_attestations c here _ hv t.record.id
    rw [attestationAt_eq ha ht, tables_append_singleton] at hat
    have hcore : ∀ y, (effect c here (tables c here rows) last.record).attestations[t.record.id]? =
        some y → y.core = x.core := by
      intro y hy
      rw [hy] at hat
      split at hat
      · rw [hx]
        exact some.inj hat
      · cases hat
    have hin : t.record.id ∈ (effect c here (tables c here rows) last.record).attestations ↔
        t ∈ rows ++ [last] := by
      rw [← isSome_getElem?_iff_mem, ← Option.isSome_map (f := AttestationRow.core), hat]
      split <;> simp_all
    rw [tables_append_singleton, isRevoked_eq, effect_revocations]
    rw [effect_attestations] at hcore hin
    cases hlast : attested c last.record with
    | none =>
      rw [attestationIn_eq_none hlast]
      refine (or_iff_left ?_).symm
      rintro ⟨-, a', b, -, hb, -⟩
      rw [hlast] at hb
      cases hb
    | some b =>
      obtain ⟨b', hb', hbcore⟩ :=
        attestationIn_eq_some (addStates last.record (tables c here rows).states) hlast
      rw [hb'] at hcore hin ⊢
      rw [any_foldl_addRevocation (fun v hv' w hw hid => ?_) (pairwise_revocationsOf hcore),
        Bool.or_eq_true, any_revocationsOf hcore, hin]
      · refine or_congr Iff.rfl ?_
        have hxs : x.subject = a.subject.id := (congrArg AttestationRow.subject hx :)
        have hxk : x.kind = a.kind := (congrArg AttestationRow.kind hx :)
        have hxm : x.machine = signerOf t.record a := (congrArg AttestationRow.machine hx :)
        have hxu : x.uid = t.record.actor.uid := (congrArg AttestationRow.uid hx :)
        have hxo : x.ord = t.record.ord := (congrArg AttestationRow.ord hx :)
        have hbs : b'.subject = b.subject := (congrArg Attestation.subject hbcore :)
        have hbk : b'.kind = b.kind := (congrArg Attestation.kind hbcore :)
        rw [hxs, hxk, hxm, hxu, hxo, hbs, hbk, signerOf_congr hbcore]
        constructor
        · rintro ⟨hmem, hs, hu, ho, htake⟩
          refine ⟨?_, a, b, ha, hlast, hs, hu, ho, htake⟩
          rcases mem_append.1 hmem with hmem | hmem
          · exact hmem
          · rw [mem_singleton.1 hmem] at ho
            exact absurd ho (lt_irrefl _)
        · rintro ⟨hmem, a', b₂, ha', hb₂, hs, hu, ho, htake⟩
          cases ha.symm.trans ha'
          cases hlast.symm.trans hb₂
          exact ⟨by simp [hmem], hs, hu, ho, htake⟩
      · obtain ⟨row, hrow, hrid⟩ := id_of_mem_revocations hv.init hv'
        rw [id_of_mem_revocationsOf hw, attestationId_eq hv.last hb'] at hid
        exact absurd (hrid.trans hid) (hv.id_ne row hrow)

end Db

end Layr
