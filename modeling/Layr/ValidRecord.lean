import Layr.Validation

/-!
# What a valid record has

The parts of `validate` that later results rest on, read off once.
-/

namespace Layr

open List

structure ValidRecord (c : Codec) (r : Record) : Prop where
  id : isUuid r.id = true
  machine : isUuid r.machine = true
  stateIds : ∀ s ∈ r.states, isUuid s.id = true
  parents : ∀ s ∈ r.states, ∀ p ∈ s.parents, ∀ t ∈ r.states, t.id = p → t.kind.auxiliary = false
  heads : ∀ e ∈ r.lines.toList, ∀ a, e.2.after = some a → ∀ t ∈ r.states, t.id = a.head →
    t.kind.auxiliary = false
  queue : ∀ v, r.data.get "queue_change" = some v → ∃ ch, QueueChange.decode v = some ch ∧
    ∀ e, ch.after = some e → e.id = ch.id
  ref : ∀ v, r.data.get "ref_change" = some v → ∃ ch, RefChange.decode v = some ch ∧
    ∀ a, ch.after = some a → a.name = ch.name
  attestation : ∀ v, r.data.get "attestation" = some v → ∃ a, Attestation.decode v = some a ∧
    a.attestationId = r.id ∧ (a.signer = r.machine ∨ startsWith a.signer "person:" = true) ∧
      a.time = r.time
  stack : ∀ st, r.data.get "stack" = some st → ∀ layers, st.get "layers" = some layers →
    layers.isNull = false
  release : r.op = "release.files" → ∃ f, ReleaseFiles.decode r.data = some f ∧
    f.validate c = .ok ()
  caches : ∀ st, r.data.strAt "state" = some st → ∀ field ∈ ["layers", "caches"], ∀ kvs,
    (r.data.get field).bind Json.asObject = some kvs → ∀ e ∈ kvs, ∃ v, e.2.asStr = some v

section

variable {c : Codec}

variable {r : Record}

theorem ValidRecord.saved_names (h : ValidRecord c r) {st : String}
    (hst : r.data.strAt "state" = some st) :
    ∀ e ∈ (((r.data.get "caches").or (r.data.get "layers")).bind Json.asObject).getD [], ∃ v,
      e.2.asStr = some v := by
  intro e he
  cases hkvs : ((r.data.get "caches").or (r.data.get "layers")).bind Json.asObject with
  | none => simp [hkvs] at he
  | some kvs =>
    rw [hkvs, Option.getD_some] at he
    have hfield : ∃ field ∈ ["layers", "caches"], (r.data.get field).bind Json.asObject =
        some kvs := by
      cases hc : r.data.get "caches" with
      | none => exact ⟨"layers", by simp, by simpa [hc] using hkvs⟩
      | some v => exact ⟨"caches", by simp, by simpa [hc] using hkvs⟩
    obtain ⟨field, hmem, hget⟩ := hfield
    exact h.caches st hst field hmem kvs hget e he

theorem option_forM_eq_ok {α : Type} {o : Option α} {f : α → Except String Unit} {u : Unit} :
    o.toList.forM f = .ok u ↔ ∀ v, o = some v → f v = .ok () := by
  simp

theorem checkUuid_eq_ok {what v : String} {u : Unit} : checkUuid c r what v = .ok u ↔
    isUuid v = true := by
  exact ensure_eq_ok

theorem checkState_id {s : StateRec} (h : checkState c r s = .ok ()) : isUuid s.id = true := by
  unfold checkState at h
  rw [bind_eq_ok, exists_unit_eq_ok] at h
  exact checkUuid_eq_ok.1 h.1

theorem checkState_parents {s : StateRec} (h : checkState c r s = .ok ()) :
    ∀ p ∈ s.parents, ∀ t ∈ r.states, t.id = p → t.kind.auxiliary = false := by
  unfold checkState at h
  simp only [bind_eq_ok, exists_unit_eq_ok, exists_const, forM_eq_forM, forM_eq_ok,
    ensure_eq_ok] at h
  obtain ⟨-, -, -, -, hparents, -⟩ := h
  intro p hp t ht hid
  have hany := (hparents p hp).2
  simp only [Bool.not_eq_true', any_eq_false, Bool.and_eq_true, beq_iff_eq, not_and] at hany
  exact Bool.eq_false_iff.2 (hany t ht hid)

theorem checkLine_head {e : String × LineChange} (h : checkLine c r e = .ok ()) :
    ∀ a, e.2.after = some a → ∀ t ∈ r.states, t.id = a.head → t.kind.auxiliary = false := by
  unfold checkLine at h
  simp only [bind_eq_ok, exists_unit_eq_ok, exists_const, forM_eq_forM, forM_eq_ok] at h
  obtain ⟨-, hstates, -⟩ := h
  intro a ha t ht hid
  have hst := hstates e.2.after (by simp) a (by simp [ha])
  simp only [checkLineState, bind_eq_ok, exists_unit_eq_ok, exists_const, ensure_eq_ok] at hst
  obtain ⟨-, -, hany, -⟩ := hst
  simp only [Bool.not_eq_true', any_eq_false, Bool.and_eq_true, beq_iff_eq, not_and] at hany
  exact Bool.eq_false_iff.2 (hany t ht hid)

theorem checkQueue_decodes (h : checkQueue c r = .ok ()) :
    ∀ v, r.data.get "queue_change" = some v → ∃ ch, QueueChange.decode v = some ch ∧
      ∀ e, ch.after = some e → e.id = ch.id := by
  intro v hv
  have hstep := option_forM_eq_ok.1 h v hv
  simp only [bind_eq_ok, context_eq_ok, exists_unit_eq_ok, forM_eq_forM, forM_eq_ok] at hstep
  obtain ⟨ch, hch, -, hentries⟩ := hstep
  refine ⟨ch, hch, fun e he => ?_⟩
  have hentry := hentries ch.after (by simp) e (by simp [he])
  simp only [checkQueueEntry, bind_eq_ok, exists_unit_eq_ok, exists_const, ensure_eq_ok,
    Bool.and_eq_true, beq_iff_eq] at hentry
  exact hentry.1.1.1

theorem checkRefChange_decodes (h : checkRefChange c r = .ok ()) :
    ∀ v, r.data.get "ref_change" = some v → ∃ ch, RefChange.decode v = some ch ∧
      ∀ a, ch.after = some a → a.name = ch.name := by
  intro v hv
  have hstep := option_forM_eq_ok.1 h v hv
  simp only [bind_eq_ok, context_eq_ok, exists_const, forM_eq_forM, forM_eq_ok, ensure_eq_ok,
    beq_iff_eq] at hstep
  obtain ⟨ch, hch, -, hstates⟩ := hstep
  exact ⟨ch, hch, fun a ha => (hstates ch.after (by simp) a (by simp [ha])).1⟩

theorem checkAttestation_decodes (h : checkAttestation c r = .ok ()) :
    ∀ v, r.data.get "attestation" = some v → ∃ a, Attestation.decode v = some a ∧
      a.attestationId = r.id ∧ (a.signer = r.machine ∨ startsWith a.signer "person:" = true) ∧
        a.time = r.time := by
  intro v hv
  have hstep := option_forM_eq_ok.1 h v hv
  simp only [bind_eq_ok, context_eq_ok, exists_unit_eq_ok, exists_const, ensure_eq_ok,
    Bool.and_eq_true, beq_iff_eq, Bool.or_eq_true] at hstep
  obtain ⟨a, ha, -, hid, -, -, -, ⟨hsigner, htime⟩, -⟩ := hstep
  exact ⟨a, ha, hid, hsigner, htime⟩

theorem checkStack_layers (h : checkStack c r = .ok ()) :
    ∀ st, r.data.get "stack" = some st → ∀ layers, st.get "layers" = some layers →
      layers.isNull = false := by
  intro st hst layers hlayers
  have hstep := option_forM_eq_ok.1 h st hst
  simp only [bind_eq_ok, context_eq_ok, exists_unit_eq_ok, hlayers, Option.bind_some] at hstep
  obtain ⟨-, xs, hxs, -⟩ := hstep
  cases layers with
  | null => cases hxs
  | _ => rfl

theorem checkRelease_validate (h : checkRelease c r = .ok ()) (hop : r.op = "release.files") :
    ∃ f, ReleaseFiles.decode r.data = some f ∧ f.validate c = .ok () := by
  unfold checkRelease at h
  rw [if_pos hop] at h
  simp only [bind_eq_ok, context_eq_ok] at h
  exact h

theorem isCacheName_empty (st : String) : isCacheName "" st = false := by
  simp [isCacheName, splitOnce, List.span, List.span.loop]

theorem checkData_caches (h : checkData c r = .ok ()) :
    ∀ st, r.data.strAt "state" = some st → ∀ field ∈ ["layers", "caches"], ∀ kvs,
      (r.data.get field).bind Json.asObject = some kvs → ∀ e ∈ kvs, ∃ v, e.2.asStr = some v := by
  unfold checkData at h
  simp only [bind_eq_ok, exists_unit_eq_ok, exists_const, forM_eq_forM, forM_eq_ok,
    ensure_eq_ok, Option.mem_toList] at h
  obtain ⟨-, -, hcaches, -⟩ := h
  intro st hst field hfield kvs hkvs e he
  have hname := ((hcaches st hst).1 field hfield kvs hkvs e he).2
  cases hv : e.2.asStr with
  | some v => exact ⟨v, rfl⟩
  | none =>
    rw [hv, Option.getD_none, isCacheName_empty] at hname
    cases hname

theorem validRecord_of_validate (h : validate c r = .ok ()) : ValidRecord c r := by
  unfold validate at h
  simp only [bind_eq_ok, exists_unit_eq_ok, exists_const, checkUuid_eq_ok, forM_eq_forM,
    forM_eq_ok] at h
  obtain ⟨hrelease, hid, hmachine, -, hstates, hlines, hqueue, -, -, -, -, href, -, -, -,
    hatt, -, -, hstack, hdata⟩ := h
  exact ⟨hid, hmachine, fun s hs => checkState_id (hstates s hs),
    fun s hs => checkState_parents (hstates s hs), fun e he => checkLine_head (hlines e he),
    checkQueue_decodes hqueue, checkRefChange_decodes href, checkAttestation_decodes hatt,
    checkStack_layers hstack, checkRelease_validate hrelease, checkData_caches hdata⟩

end

end Layr
