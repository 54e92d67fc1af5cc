import Layr.Lib.Maps
import Layr.Project
import Layr.ValidRecord

/-!
# What one record does to the read model

`Project.derive` taken apart once: when it accepts a valid record (`Accepts`), and what
the tables that the database has too hold after it (`Derived`). Nothing after this module unfolds
`Project.derive`.
-/

namespace Layr

open Option

def StateView.source (v : StateView) : StateKind × List String :=
  (v.state.kind, v.state.parents)

namespace Project

variable {c : Codec} {p p' : Project} {r : Record}

/-! ## States and lines -/

def NotAux (states : BTreeMap StateView) (id : String) : Prop :=
  ∀ s, states[id]? = some s → s.state.kind.auxiliary = false

variable {states : BTreeMap StateView}

theorem any_auxiliary_eq_false {id : String} :
    (states[id]?.any (·.state.kind.auxiliary)) = false ↔ NotAux states id := by
  unfold NotAux
  cases states[id]? <;> simp

theorem deriveState_eq_ok {s : StateRec} : p.deriveState r s = .ok p' ↔ s.id ∉ p.states ∧
    (∀ q ∈ s.parents, NotAux p.states q) ∧
      p' = { p with states := p.states.insert s.id ⟨s, r.machine, false⟩ } := by
  unfold deriveState
  simp only [bind_eq_ok, ensure_eq_ok, exists_const, pure_eq_ok, Bool.not_eq_true',
    Bool.eq_false_iff, ne_eq, Std.ExtTreeMap.contains_iff_mem, List.any_eq_true,
      not_exists, not_and]
  refine and_congr_right fun _ => and_congr
    (forall_congr' fun q => imp_congr_right fun _ => ?_) eq_comm
  rw [← any_auxiliary_eq_false, Bool.eq_false_iff]

def StatesOk (r : Record) : BTreeMap StateView → List StateRec → Prop
  | _, [] => True
  | m, s :: rest =>
    s.id ∉ m ∧ (∀ q ∈ s.parents, NotAux m q) ∧ StatesOk r (m.insert s.id ⟨s, r.machine, false⟩) rest

def addStates (r : Record) (states : BTreeMap StateView) : BTreeMap StateView :=
  r.states.foldl (fun m s => m.insert s.id ⟨s, r.machine, false⟩) states

theorem foldlM_deriveState {ss : List StateRec} :
    ss.foldlM (fun p s => p.deriveState r s) p = .ok p' ↔ StatesOk r p.states ss ∧
      p' =
        { p with
        states := ss.foldl (fun m s => m.insert s.id ⟨s, r.machine, false⟩) p.states } := by
  apply foldlM_eq_ok_of_cons
    (P := fun (p : Project) (s : StateRec) => s.id ∉ p.states ∧ ∀ q ∈ s.parents, NotAux p.states q)
    (g := fun p s => { p with states := p.states.insert s.id ⟨s, r.machine, false⟩ })
  · intro p s p'
    rw [deriveState_eq_ok, and_assoc]
  · exact fun _ => ⟨trivial, rfl⟩
  · exact fun _ _ _ => ⟨and_assoc.symm, rfl⟩

def lineViewStep (here : String) (r : Record) (x : Option LineView) (e : String × LineChange) :
    LineView :=
  let view := x.getD ⟨⟨e.1, "", "", 0, r.machine⟩, ∅, true⟩
  let view := match e.2.after with
    | some after => { view with heads := view.heads.insert r.machine after.head }
    | none => view
  if r.machine != here && view.line.machine == here then view
  else match e.2.after with
    | some after =>
      { view with
        line := ⟨e.1, after.name, after.head, after.owner, after.machine⟩, deleted := false }
    | none => { view with deleted := true }

theorem deriveLine_eq_ok {e : String × LineChange} : p.deriveLine r e = .ok p' ↔
    (∀ a, e.2.after = some a → NotAux p.states a.head) ∧ p' = { p with
        lines := p.lines.insert e.1 (lineViewStep p.machine r p.lines[e.1]? e) } := by
  unfold deriveLine lineViewStep
  cases e.2.after with
  | none =>
    simp only [bind_eq_ok, pure_eq_ok, exists_eq_left', reduceCtorEq, false_implies, implies_true,
      true_and]
    exact eq_comm
  | some a =>
    simp only [bind_eq_ok, ensure_eq_ok, pure_eq_ok, exists_const, Bool.not_eq_true',
      any_auxiliary_eq_false, exists_eq_left', some.injEq, forall_eq']
    exact and_congr_right fun _ => eq_comm

def changeLines (here : String) (r : Record) (lines : BTreeMap LineView)
    (es : List (String × LineChange)) : BTreeMap LineView :=
  es.foldl (fun m e => m.insert e.1 (lineViewStep here r m[e.1]? e)) lines

theorem foldlM_deriveLine {es : List (String × LineChange)} :
    es.foldlM (fun p e => p.deriveLine r e) p = .ok p' ↔
      (∀ e ∈ es, ∀ a, e.2.after = some a → NotAux p.states a.head) ∧
      p' = { p with lines := changeLines p.machine r p.lines es } := by
  apply foldlM_eq_ok_of_cons
  · exact fun _ _ _ => deriveLine_eq_ok
  · exact fun _ => ⟨fun _ he => (nomatch he), rfl⟩
  · exact fun _ _ _ => ⟨List.forall_mem_cons, rfl⟩

/-! ## Queue, refs and attestations -/

def queueStep (r : Record) (queue : BTreeMap QueueEntry) : BTreeMap QueueEntry :=
  match (r.data.get "queue_change").bind QueueChange.decode with
  | none => queue
  | some ch =>
    match ch.after with
    | some after => queue.insert ch.id after
    | none => queue.erase ch.id

theorem deriveQueue_eq_ok : p.deriveQueue r = .ok p' ↔
    (∀ v, r.data.get "queue_change" = some v → (QueueChange.decode v).isSome = true) ∧
      p' = { p with queue := queueStep r p.queue } := by
  rw [deriveQueue, onField_eq_ok, queueStep]
  cases (r.data.get "queue_change").bind QueueChange.decode with
  | none => rfl
  | some ch => cases hafter : ch.after <;> simp [hafter]

def refStep (r : Record) (refs : BTreeMap RefState) : BTreeMap RefState :=
  match (r.data.get "ref_change").bind RefChange.decode with
  | none => refs
  | some ch =>
    match ch.after with
    | some after => refs.insert ch.name after
    | none => refs.erase ch.name

variable {i : Nat}

theorem deriveRef_eq_ok : p.deriveRef i r = .ok p' ↔
    (∀ v, r.data.get "ref_change" = some v → (RefChange.decode v).isSome = true) ∧ p' = { p with
        refs := refStep r p.refs
        refHistory := p.refHistory ++
          (((r.data.get "ref_change").bind RefChange.decode).toList.map fun ch => (i, ch)) } := by
  rw [deriveRef, onField_eq_ok, refStep]
  cases (r.data.get "ref_change").bind RefChange.decode with
  | none => simp
  | some ch => rfl

theorem deriveAttestation_eq_ok : p.deriveAttestation c i r = .ok p' ↔
    (∀ v, r.data.get "attestation" = some v → (Attestation.decode v).isSome = true) ∧
      p' = { p with attestations := p.attestations ++
        ((p.attestationOf c r).toOption.join.toList.map fun a => (i, a)) } := by
  simp only [deriveAttestation, bind_eq_ok, pure_eq_ok, attestationOf]
  constructor
  · rintro ⟨a, ha, rfl⟩
    obtain ⟨hdecodes, rfl⟩ := Record.attestationWith_eq_ok.1 ha
    exact ⟨hdecodes, rfl⟩
  · rintro ⟨hdecodes, rfl⟩
    exact ⟨_, Record.attestationWith_eq_ok.2 ⟨hdecodes, rfl⟩, rfl⟩

/-! ## The operation itself -/

def configStep (here : String) (r : Record) (config : BTreeMap Json) : BTreeMap Json :=
  if configOps.contains r.op then
    ((r.data.idx "config").asObject.getD []).foldl
      (fun m e => m.insert (settingKey { id := "", machine := here } r e.1) e.2) config
  else config

def tagStep (r : Record) (tags : BTreeMap Json) : BTreeMap Json :=
  if r.op = "tag" then tags.insert (textAt r "name") r.data
  else if r.op = "tag.delete" then tags.erase (textAt r "name")
  else tags

/-- What an operation leaves of the tables that the database has too. -/
structure OpDone (p : Project) (r : Record) (p' : Project) : Prop where
  machine : p'.machine = p.machine
  sources : ∀ id : String, p'.states[id]?.map (·.source) = p.states[id]?.map (·.source)
  lines : p'.lines = p.lines
  config : p'.config = configStep p.machine r p.config
  tags : p'.tags = tagStep r p.tags
  refs : p'.refs = p.refs
  queue : p'.queue = p.queue
  attestations : p'.attestations = p.attestations

/-- The change of one state that keeps its kind and parents. -/
theorem sources_insert {k : String} {s s' : StateView}
    (hs : states[k]? = some s) (hsource : s'.source = s.source) (id : String) :
    (states.insert k s')[id]?.map (·.source) = states[id]?.map (·.source) := by
  by_cases hk : k = id
  · subst hk
    rw [getElem?_insert_self, hs, map_some, map_some, hsource]
  · rw [Maps.getElem?_insert_ne hk]

theorem OpDone.of_other (hop : configOps.contains r.op = false ∧ r.op ≠ "tag" ∧ r.op ≠ "tag.delete")
    (hsources : ∀ id : String, p'.states[id]?.map (·.source) = p.states[id]?.map (·.source) := by
      exact fun _ => rfl) (hmachine : p'.machine = p.machine := by rfl)
        (hlines : p'.lines = p.lines := by rfl)
    (hc : p'.config = p.config := by rfl) (ht : p'.tags = p.tags := by rfl)
    (hrefs : p'.refs = p.refs := by rfl) (hqueue : p'.queue = p.queue := by rfl)
    (hatt : p'.attestations = p.attestations := by rfl) : OpDone p r p' :=
  ⟨hmachine, hsources, hlines, by rw [hc, configStep, hop.1, if_neg Bool.false_ne_true],
    by rw [ht, tagStep, if_neg hop.2.1, if_neg hop.2.2], hrefs, hqueue, hatt⟩

theorem dropState_done (hop : r.op = "stash.drop") : OpDone p r (p.dropState r) := by
  unfold dropState
  split
  · next s hs => exact .of_other (by rw [hop]; decide) (sources_insert hs rfl)
  · exact .of_other (by rw [hop]; decide)

theorem saveCaches_done (hop : r.op = "save.caches" ∨ r.op = "save.layers")
    (h : p.saveCaches r = .ok p') : OpDone p r p' := by
  have hother : configOps.contains r.op = false ∧ r.op ≠ "tag" ∧ r.op ≠ "tag.delete" := by
    rcases hop with h | h <;> rw [h] <;> decide
  unfold saveCaches at h
  split at h
  · next s hs =>
    split at h
    · obtain ⟨m, -, hm⟩ := bind_eq_ok.1 h
      cases hm
      exact .of_other hother (sources_insert hs rfl)
    · exact Except.ok.inj h ▸ .of_other hother
  · exact Except.ok.inj h ▸ .of_other hother

/-- What the operation of a record does, when it can be done. -/
theorem opDone_of_deriveOp (h : p.deriveOp r = .ok p') : OpDone p r p' := by
  unfold deriveOp at h
  by_cases hmachine : r.op = "machine"
  · rw [if_pos hmachine] at h
    cases h
    exact .of_other (by rw [hmachine]; decide)
  rw [if_neg hmachine] at h
  by_cases htrust : r.op = "machine.trust"
  · rw [if_pos htrust] at h
    cases h
    exact .of_other (by rw [htrust]; decide)
  rw [if_neg htrust] at h
  by_cases hconfig : configOps.contains r.op = true
  · rw [if_pos hconfig] at h
    cases h
    have htag : r.op ≠ "tag" := fun h => absurd (h ▸ hconfig) (by decide)
    have hdel : r.op ≠ "tag.delete" := fun h => absurd (h ▸ hconfig) (by decide)
    refine ⟨rfl, fun _ => rfl, rfl, ?_, ?_, rfl, rfl, rfl⟩
    · rw [configStep, if_pos hconfig]
      rfl
    · rw [tagStep, if_neg htag, if_neg hdel]
  rw [if_neg hconfig] at h
  rw [Bool.not_eq_true] at hconfig
  by_cases htag : r.op = "tag"
  · rw [if_pos htag] at h
    cases h
    refine ⟨rfl, fun _ => rfl, rfl, ?_, ?_, rfl, rfl, rfl⟩
    · rw [configStep, hconfig, if_neg Bool.false_ne_true]
    · rw [tagStep, if_pos htag]
  rw [if_neg htag] at h
  by_cases hdel : r.op = "tag.delete"
  · rw [if_pos hdel] at h
    cases h
    refine ⟨rfl, fun _ => rfl, rfl, ?_, ?_, rfl, rfl, rfl⟩
    · rw [configStep, hconfig, if_neg Bool.false_ne_true]
    · rw [tagStep, if_neg htag, if_pos hdel]
  rw [if_neg hdel] at h
  have hother := And.intro hconfig (And.intro htag hdel)
  split at h
  · split at h
    · cases h
      exact .of_other hother
    · exact Except.ok.inj h ▸ .of_other hother
  split at h
  · cases h
    exact .of_other hother
  split at h
  · next hop =>
    cases h
    exact dropState_done hop
  split at h
  · next hop => exact saveCaches_done hop h
  · exact Except.ok.inj h ▸ .of_other hother

/-! ## A whole step -/

/-- The settings after the overlays that a line shows. -/
def stackStep (here : String) (r : Record) (config : BTreeMap Json) : BTreeMap Json :=
  match r.data.get "stack" with
  | none => config
  | some stack =>
    match stack.strAt "line", stack.get "layers" with
    | some line, some layers =>
      config.insert (settingKey { id := "", machine := here } r ("stack." ++ line)) layers
    | _, _ => config

theorem deriveStack_eq (p : Project) (r : Record) :
    p.deriveStack r = { p with config := stackStep p.machine r p.config } := by
  unfold deriveStack stackStep
  cases r.data.get "stack" with
  | none => rfl
  | some stack =>
    simp only [Json.asStr_idx]
    cases stack.strAt "line" with
    | none => rfl
    | some line => cases stack.get "layers" <;> rfl

structure Accepts (states : BTreeMap StateView) (r : Record) : Prop where
  added : StatesOk r states r.states
  heads : ∀ e ∈ r.lines.toList, ∀ a, e.2.after = some a → NotAux (addStates r states) a.head

/-- What the tables that the database has too hold after a record. -/
structure Derived (c : Codec) (p : Project) (i : Nat) (r : Record) (p' : Project) : Prop where
  machine : p'.machine = p.machine
  sources : ∀ id : String, p'.states[id]?.map (·.source) = (addStates r p.states)[id]?.map
    (·.source)
  lines : p'.lines = changeLines p.machine r p.lines r.lines.toList
  queue : p'.queue = queueStep r p.queue
  refs : p'.refs = refStep r p.refs
  attestations : ∃ states, p'.attestations = p.attestations ++
    ((attestationOf c { id := "", machine := "", states := states } r).toOption.join.toList.map
      fun a => (i, a))
  config : p'.config = stackStep p.machine r (configStep p.machine r p.config)
  tags : p'.tags = tagStep r p.tags

theorem attestationOf_congr {q : Project} (h : p.states = q.states) :
    p.attestationOf c r = q.attestationOf c r := by
  unfold attestationOf
  simp [h]

theorem derived_of_derive (h : derive c p i r = .ok p') :
    Accepts p.states r ∧ Derived c p i r p' := by
  unfold derive at h
  simp only [bind_eq_ok, pure_eq_ok, foldlM_deriveState, foldlM_deriveLine, deriveQueue_eq_ok,
    deriveRef_eq_ok, deriveAttestation_eq_ok] at h
  obtain ⟨p₁, ⟨hstates, rfl⟩, p₂, ⟨hlines, rfl⟩, p₃, ⟨-, rfl⟩, p₄, ⟨-, rfl⟩, p₅, ⟨-, hp₅⟩, p₆, hop,
    rfl⟩ := h
  have hstates₅ : p₅.states = addStates r p.states := by rw [hp₅]; rfl
  have hdone := opDone_of_deriveOp hop
  rw [deriveStack_eq]
  refine ⟨⟨hstates, hlines⟩, hdone.machine.trans (by rw [hp₅]), fun id => ?_, ?_, ?_, ?_,
    ?_, ?_, ?_⟩
  · rw [← hstates₅]
    exact hdone.sources id
  · exact hdone.lines.trans (by rw [hp₅])
  · exact hdone.queue.trans (by rw [hp₅])
  · exact hdone.refs.trans (by rw [hp₅])
  · refine ⟨addStates r p.states, hdone.attestations.trans ?_⟩
    rw [hp₅]
    exact congrArg _ (congrArg _ (congrArg _ (congrArg _ (congrArg _ (attestationOf_congr rfl)))))
  · simp [hdone.machine, hdone.config, hp₅]
  · exact hdone.tags.trans (by rw [hp₅])

end Project

end Layr
