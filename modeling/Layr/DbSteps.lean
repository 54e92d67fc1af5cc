import Layr.Db

/-!
# What one record does

`derive` taken apart once: when it accepts a record (`Accepts`) and what it then does, table by
table (`effect`). Nothing after this module unfolds `derive`.
-/

namespace Layr

open List
open Register (Stamped put putAll)

namespace Db

/-! ## When a record is accepted -/

/-- The state can be part of source history, as far as the table knows it. -/
def Source (states : BTreeMap StateRow) (id : String) : Prop :=
  ∃ s, state { states := states } id = .ok s ∧ s.any (·.kind.auxiliary) = false

def StatesOk (r : Record) : BTreeMap StateRow → List StateRec → Prop
  | _, [] => True
  | m, s :: rest => s.id ∉ m ∧ (∀ p ∈ s.parents, Source (m.insert s.id (stateRow r s)) p) ∧
      StatesOk r (m.insert s.id (stateRow r s)) rest

def addStates (r : Record) (states : BTreeMap StateRow) : BTreeMap StateRow :=
  r.states.foldl (fun m s => m.insert s.id (stateRow r s)) states

/-- The parts of a record that are read as objects can be read. -/
structure Decodes (r : Record) : Prop where
  queue : ∀ v, r.data.get "queue_change" = some v → (QueueChange.decode v).isSome = true
  attestation : ∀ v, r.data.get "attestation" = some v → (Attestation.decode v).isSome = true
  ref : ∀ v, r.data.get "ref_change" = some v → (RefChange.decode v).isSome = true

structure Accepts (states : BTreeMap StateRow) (r : Record) : Prop where
  added : StatesOk r states r.states
  heads : ∀ e ∈ r.lines.toList, ∀ a, e.2.after = some a → Source (addStates r states) a.head
  decodes : Decodes r

/-! ## What it writes -/

def headWrites (r : Record) : List (HeadKey × String) :=
  r.lines.toList.filterMap fun e => e.2.after.map fun a => (⟨e.1, r.machine⟩, a.head)

def queueWrites (r : Record) : List (String × Option QueueEntry) :=
  ((r.data.get "queue_change").bind QueueChange.decode).toList.map fun ch => (ch.id, ch.after)

def refWrites (r : Record) : List (String × Option (String × Option Int)) :=
  ((r.data.get "ref_change").bind RefChange.decode).toList.map fun ch =>
    (ch.name, ch.after.map fun a => (a.target, a.expiresAt))

def attestationIn (c : Codec) (r : Record) (states : BTreeMap StateRow) : Option Attestation :=
  (attestationOf c r { states := states }).toOption.join

def effect (c : Codec) (here : String) (db : Db) (r : Record) : Db :=
  let states := addStates r db.states
  let att := addAttestation r (r.machine == here) db (attestationIn c r states)
  { records := db.records
    states := savedStep r states
    lines := r.lines.toList.foldl (lineStep here r) db.lines
    lineHeads := putAll r.ord db.lineHeads (headWrites r)
    queueEntries := putAll r.ord db.queueEntries (queueWrites r)
    attestations := att.attestations
    revocations := att.revocations
    refs := putAll r.ord db.refs (refWrites r)
    trusted := trustStep here r db.trusted
    config := putAll r.ord db.config (configWrites here r)
    tags := tagStep r db.tags
    namelessTags := if r.op = "tag" ∧ r.data.strAt "name" = none then db.namelessTags + 1
                    else db.namelessTags }

/-! ## The two parts of `derive` -/

theorem state_congr {db db' : Db} (h : db.states = db'.states) (id : String) :
    db.state id = db'.state id := by
  unfold state
  rw [h]

theorem source_iff {db : Db} {id : String} {msg : String} :
    (do let s ← db.state id; ensure (!(s.any (·.kind.auxiliary))) msg) = Except.ok () ↔
      Source db.states id := by
  have hs := @state_congr db { states := db.states } rfl id
  simp [bind_eq_ok, ensure_eq_ok, Source, hs]

theorem deriveState_eq_ok {r : Record} {db db' : Db} {s : StateRec} : deriveState r db s = .ok db' ↔
    s.id ∉ db.states ∧
      (∀ p ∈ s.parents, Source (db.states.insert s.id (stateRow r s)) p) ∧
      db' = { db with states := db.states.insert s.id (stateRow r s) } := by
  unfold deriveState
  rw [bind_eq_ok, exists_unit_eq_ok, ensure_eq_ok, bind_eq_ok, exists_unit_eq_ok, pure_eq_ok,
    forM_eq_forM, forM_eq_ok]
  simp only [source_iff, Bool.not_eq_true', Bool.eq_false_iff, ne_eq,
    Std.ExtTreeMap.contains_iff_mem]
  exact and_congr_right fun _ => and_congr_right fun _ => eq_comm

theorem foldlM_deriveState {r : Record} {ss : List StateRec} {db db' : Db} :
    ss.foldlM (deriveState r) db = .ok db' ↔ StatesOk r db.states ss ∧
      db' = { db with states := ss.foldl (fun m s => m.insert s.id (stateRow r s)) db.states } := by
  apply foldlM_eq_ok_of_cons (P := fun (db : Db) (s : StateRec) => s.id ∉ db.states ∧
      ∀ p ∈ s.parents, Source (db.states.insert s.id (stateRow r s)) p)
    (g := fun db s => { db with states := db.states.insert s.id (stateRow r s) })
  · intro db s db'
    rw [deriveState_eq_ok, and_assoc]
  · exact fun _ => ⟨trivial, rfl⟩
  · exact fun _ _ _ => ⟨and_assoc.symm, rfl⟩

theorem checkHead_eq_ok {db : Db} {after : Option LineState} {u : Unit} :
    db.checkHead after = .ok u ↔ ∀ a, after = some a → Source db.states a.head := by
  cases after with
  | none => simp [checkHead]
  | some a =>
    simp only [Option.some.injEq, forall_eq']
    exact source_iff

variable {here : String}

theorem foldlM_deriveLine {r : Record} {es : List (String × LineChange)}
    {db db' : Db} : es.foldlM (deriveLine here r) db = .ok db' ↔
      (∀ e ∈ es, ∀ a, e.2.after = some a → Source db.states a.head) ∧ db' = { db with
        lineHeads := es.foldl (headStep r) db.lineHeads
        lines := es.foldl (lineStep here r) db.lines } := by
  apply foldlM_eq_ok_of_cons (P := fun db e => ∀ a, e.2.after = some a → Source db.states a.head)
  · intro db e db'
    simp only [deriveLine, bind_eq_ok, checkHead_eq_ok, pure_eq_ok, exists_const]
    exact and_congr_right fun _ => eq_comm
  · exact fun _ => ⟨fun _ he => absurd he not_mem_nil, rfl⟩
  · exact fun _ _ _ => ⟨forall_mem_cons, rfl⟩

theorem foldl_headStep (r : Record) (es : List (String × LineChange))
    (m : Std.ExtTreeMap HeadKey (Stamped String String) HeadKey.cmp) :
    es.foldl (headStep r) m =
      putAll r.ord m (es.filterMap fun e => e.2.after.map fun a => (⟨e.1, r.machine⟩, a.head)) := by
  induction es generalizing m with
  | nil => rfl
  | cons e es ih =>
    rw [foldl_cons, ih, filterMap_cons]
    unfold headStep
    cases e.2.after <;> rfl

theorem deriveQueue_eq_ok {r : Record} {db db' : Db} : deriveQueue r db = .ok db' ↔
    (∀ v, r.data.get "queue_change" = some v → (QueueChange.decode v).isSome = true) ∧
      db' = { db with queueEntries := putAll r.ord db.queueEntries (queueWrites r) } := by
  rw [deriveQueue, onField_eq_ok, queueWrites]
  cases (r.data.get "queue_change").bind QueueChange.decode <;> rfl

theorem deriveRef_eq_ok {r : Record} {db db' : Db} : deriveRef r db = .ok db' ↔
    (∀ v, r.data.get "ref_change" = some v → (RefChange.decode v).isSome = true) ∧
      db' = { db with refs := putAll r.ord db.refs (refWrites r) } := by
  rw [deriveRef, onField_eq_ok, refWrites]
  cases (r.data.get "ref_change").bind RefChange.decode <;> rfl

variable {c : Codec}

theorem attestationOf_eq_ok {r : Record} {db : Db} {a : Option Attestation} :
    db.attestationOf c r = .ok a ↔
      (∀ v, r.data.get "attestation" = some v → (Attestation.decode v).isSome = true) ∧
        a = attestationIn c r db.states := Record.attestationWith_eq_ok

/-- The steps of `derive` that cannot fail, after those that can, give the effect. -/
theorem effect_eq (c : Codec) (here : String) (db : Db) (r : Record) :
    deriveConfig here r (deriveSaved r (deriveTag r (deriveTrust here r
      { addAttestation r (r.machine == here)
          { db with
            states := addStates r db.states
            lineHeads := r.lines.toList.foldl (headStep r) db.lineHeads
            lines := r.lines.toList.foldl (lineStep here r) db.lines
            queueEntries := putAll r.ord db.queueEntries (queueWrites r) }
          (attestationIn c r (addStates r db.states)) with
        refs := putAll r.ord db.refs (refWrites r) }))) = effect c here db r := by
  rw [foldl_headStep]
  rfl

/-- A record is accepted or not, and an accepted one has its effect. -/
theorem derive_eq_ok {db db' : Db} {r : Record} :
    db.derive c here r = .ok db' ↔ Accepts db.states r ∧ db' = effect c here db r := by
  rw [← effect_eq]
  simp only [derive, bind_eq_ok, pure_eq_ok, foldlM_deriveState, foldlM_deriveLine,
    deriveQueue_eq_ok, deriveRef_eq_ok, deriveAttestation, attestationOf_eq_ok]
  constructor
  · rintro ⟨d1, ⟨hs, rfl⟩, d2, ⟨hl, rfl⟩, d3, ⟨hq, rfl⟩, d4, ⟨a, ⟨ha, rfl⟩, rfl⟩, d5,
      ⟨hr, rfl⟩, rfl⟩
    exact ⟨⟨hs, hl, hq, ha, hr⟩, rfl⟩
  · rintro ⟨⟨hs, hl, hq, ha, hr⟩, rfl⟩
    refine ⟨_, ⟨hs, rfl⟩, _, ⟨hl, rfl⟩, _, ⟨hq, rfl⟩, _, ⟨_, ⟨ha, rfl⟩, rfl⟩, _, ⟨hr, rfl⟩, ?_⟩
    rfl

end Db

end Layr
