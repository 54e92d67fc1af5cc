import Layr.Json
import Layr.Lib.Fallible
import Layr.Lib.Runs

/-!
# The journal of the process supervisor

`SupervisorJournal` keeps the size of the stored events of each handle outside the database and
changes it after a confirmed commit. It is the size of the stored events as long as no commit that
reports an error changes the events (`buffered_exact`): an append that is repeated after such a
commit finds its event and adds nothing.
-/

namespace Layr.Supervisor

open Runs List

def handleLimit : ℕ := 256 * 1024 * 1024

def i64Max : ℕ := 2 ^ 63 - 1

inductive NativeId where
  | integer (id : ℤ)
  | text (id : String)
  deriving DecidableEq

structure Handle where
  sequence : ℕ := 0
  acknowledged : ℕ := 0
  rpcSequence : ℕ := 0
  generation : ℕ := 0

structure Event where
  handle : String
  sequence : ℕ
  size : ℕ

structure Operation where
  handle : String
  operationId : String
  digest : String
  nativeId : Option NativeId

structure Db where
  handles : BTreeMap Handle := ∅
  events : List Event := []
  operations : List Operation := []

inductive Op where
  | reserve (handle : String)
  | opened (handle : String) (generation : Option ℕ)
  | accept (handle operation digest : String) (native : Option NativeId) (hasMethod : Bool)
  | append (handle : String) (generation sequence : ℕ) (kind raw : String)
  | ack (handle : String) (cursor : ℕ)
  | close (handle : String)
  | retire (handle : String) (generation : ℕ) (exited readersDone : Bool)

inductive Reply where
  | done
  | opened (generation : ℕ)
  | duplicate (remoteId : Option NativeId)
  | accepted (remoteId : Option NativeId) (rpcSequence : ℕ)
  | saved
  | full
  | obsolete

def snapshot (db : Db) (handle : String) : Except String Handle := do
  let r ← context db.handles[handle]? "Query returned no rows"
  ensure (r.acknowledged ≤ r.sequence && r.sequence < i64Max && r.rpcSequence < i64Max &&
    r.generation < i64Max)
    "Invalid supervisor handles sequence range"
  return r

def fullText : String :=
  "Supervisor output journal is full; waiting for backend replay acknowledgement"

def Handle.write (state : Handle) (prior : Option Operation) (digest : String)
    (native : Option NativeId) (hasMethod : Bool) (buffered : ℕ) : Except String Reply :=
  match prior with
  | some prior => do
    ensure (prior.digest == digest) "Supervisor operation id was reused with different content"
    return .duplicate prior.nativeId
  | none => do
    ensure (buffered < handleLimit) fullText
    match native, hasMethod with
    | some (.integer _), true => do
      ensure (state.rpcSequence + 1 < i64Max) "Supervisor RPC sequence exhausted"
      return .accepted (some (.integer (state.rpcSequence + 1))) (state.rpcSequence + 1)
    | _, _ => return .accepted native state.rpcSequence

/-- A change of the cached size of a handle; none forgets it. -/
abbrev Delta := Option (String × Option ℤ)

section

-- What the column of the native id gives back.
variable (column : Option NativeId → Option NativeId)

def action (db : Db) (buffered : BTreeMap ℕ) : Op → Except String (Reply × Db × Delta)
  | .reserve h => return (.done, { db with handles := db.handles.insertIfNew h {} }, none)
  | .opened h generation => do
    ensure (generation.all (· ≤ i64Max)) "Invalid generation"
    let handles := db.handles.modify h fun r =>
      { r with rpcSequence := 0, generation := generation.getD (r.generation + 1) }
    let state ← snapshot { db with handles } h
    return (.opened state.generation, { db with handles }, none)
  | .accept h operation digest native hasMethod => do
    let state ← snapshot db h
    let prior := db.operations.find? fun o => o.handle == h && o.operationId == operation
    let decision ← state.write prior digest native hasMethod (buffered.getD h 0)
    match decision with
    | .accepted remote rpc => do
      ensure (column remote == remote) "Supervisor native id cannot be journaled exactly"
      return (decision, { db with
        handles := db.handles.insert h { state with rpcSequence := rpc }
        operations := db.operations ++ [⟨h, operation, digest, remote⟩] }, none)
    | _ => return (decision, db, none)
  | .append h generation sequence kind raw => do
    ensure (sequence < i64Max) "Supervisor event sequence exhausted"
    let state ← snapshot db h
    if state.generation ≠ generation then return (.obsolete, db, none)
    else if state.sequence = sequence then return (.saved, db, none)
    else do
      ensure (state.sequence + 1 == sequence)
        "Supervisor output sequence changed before its receipt"
      ensure (kind ∈ ["stdout", "stderr", "exit"]) "Invalid supervisor event kind"
      if handleLimit < buffered.getD h 0 + raw.utf8ByteSize then return (.full, db, none)
      else do
        ensure (!db.events.any fun e => e.handle == h && e.sequence == sequence)
          "UNIQUE constraint failed"
        return (.saved, { db with
          handles := db.handles.insert h { state with sequence }
          events := db.events ++ [⟨h, sequence, raw.utf8ByteSize⟩] },
            some (h, some raw.utf8ByteSize))
  | .ack h cursor => do
    let state ← snapshot db h
    ensure (state.acknowledged ≤ cursor && cursor ≤ state.sequence)
      "Supervisor ACK cursor is outside the saved sequence range"
    let old := fun e : Event => e.handle == h && e.sequence ≤ cursor
    return (.done, { db with
      handles := db.handles.insert h { state with acknowledged := cursor }
      events := db.events.filter (!old ·) },
        some (h, some (-((db.events.filter old).map (·.size)).sum)))
  | .close _ => return (.done, db, none)
  | .retire h generation exited readersDone => do
    let state ← snapshot db h
    ensure (startsWith h "server-command:") "Only completed server command handles can be retired"
    ensure (state.generation == generation && exited && readersDone && state.sequence ==
      state.acknowledged)
      "The command adapter is not ready for retirement"
    return (.done,
      ⟨db.handles.erase h, db.events.filter (·.handle != h), db.operations.filter (·.handle != h)⟩,
        some (h, none))

structure Journal where
  db : Db
  buffered : BTreeMap ℕ

/-- The sizes that the journal computes when it opens the database. -/
def bufferedSizes (db : Db) : BTreeMap ℕ :=
  db.events.foldl (fun m e => m.insert e.handle (m.getD e.handle 0 + e.size)) ∅

def adjust (buffered : BTreeMap ℕ) : Delta → BTreeMap ℕ
  | none => buffered
  | some (h, some delta) => buffered.insert h (min (buffered.getD h 0 + delta).toNat (2 ^ 64 - 1))
  | some (h, none) => buffered.erase h

/-- A commit is confirmed, or it reports an error, without its effect or with it. -/
inductive Commit where
  | confirmed
  | failed
  | unconfirmed

def transaction (j : Journal) (op : Op) (commit : Commit) : Except String Reply × Journal :=
  match action column j.db j.buffered op with
  | .error e => (.error e, j)
  | .ok (reply, db, delta) =>
    match commit with
    | .confirmed => (.ok reply, ⟨db, adjust j.buffered delta⟩)
    | .failed => (.error "disk I/O error", j)
    | .unconfirmed => (.error "disk I/O error", { j with db })

def step (j : Journal) (e : Op × Commit) : Journal := (transaction column j e.1 e.2).2

def sizeOf (events : List Event) (h : String) : ℕ :=
  ((events.filter (·.handle = h)).map (·.size)).sum

/-- The cached sizes are those of the stored events, and within the limit. -/
def Exact (events : List Event) (buffered : BTreeMap ℕ) : Prop :=
  ∀ h, buffered.getD h 0 = sizeOf events h ∧ sizeOf events h ≤ handleLimit

/-- A commit that reports an error leaves the events as they were. -/
def Settled (j : Journal) (e : Op × Commit) : Prop := e.2 = .unconfirmed →
    (step column j e).db.events = j.db.events

/-- After an operation that succeeds the cached sizes are exact, and an operation is refused as full
only when the limit is reached. -/
structure Sound (j : Journal) (e : Op × Commit) : Prop where
  exact : (transaction column j e.1 e.2).1.isOk = true →
    Exact (step column j e).db.events (step column j e).buffered
  append {h generation sequence kind raw} : e.1 = .append h generation sequence kind raw →
    (transaction column j e.1 e.2).1 = .ok .full →
      handleLimit < sizeOf j.db.events h + raw.utf8ByteSize
  accept {h operation digest native hasMethod} : e.1 = .accept h operation digest native hasMethod →
    (transaction column j e.1 e.2).1 = .error fullText → handleLimit ≤ sizeOf j.db.events h

end

inductive Change (events : List Event) (buffered : BTreeMap ℕ) : List Event → Delta → Prop where
  | keep : Change events buffered events none
  | add (e : Event) (h : buffered.getD e.handle 0 + e.size ≤ handleLimit) :
      Change events buffered (events ++ [e]) (some (e.handle, some e.size))
  | drop (h : String) (p : Event → Bool) (hp : ∀ e, p e → e.handle = h) :
      Change events buffered (events.filter (!p ·))
        (some (h, some (-((events.filter p).map (·.size)).sum)))
  | forget (h : String) : Change events buffered (events.filter (·.handle != h)) (some (h, none))

variable {column : Option NativeId → Option NativeId} {db db' : Db} {buffered : BTreeMap ℕ}
  {op : Op} {reply : Reply} {delta : Delta} {events events' : List Event} {h : String} {j : Journal}

/-- The change of the cached size is that of the stored events. -/
theorem action_change (ha : action column db buffered op = .ok (reply, db', delta)) :
    Change db.events buffered db'.events delta := by
  cases op <;> simp only [action, bind_eq_ok, pure_eq_ok] at ha
  case reserve | close =>
    cases ha
    exact .keep
  case opened =>
    obtain ⟨-, -, _, -, ⟨⟩⟩ := ha
    exact .keep
  case accept =>
    obtain ⟨_, -, decision, -, ha⟩ := ha
    split at ha
    · simp only [bind_eq_ok, pure_eq_ok] at ha
      obtain ⟨-, -, ⟨⟩⟩ := ha
      exact .keep
    · cases ha
      exact .keep
  case append h generation sequence kind raw =>
    obtain ⟨-, -, state, -, ha⟩ := ha
    split at ha
    · cases ha
      exact .keep
    split at ha
    · cases ha
      exact .keep
    simp only [bind_eq_ok] at ha
    obtain ⟨-, -, -, -, ha⟩ := ha
    split at ha
    · cases ha
      exact .keep
    next hfits =>
    simp only [bind_eq_ok, pure_eq_ok] at ha
    obtain ⟨-, -, ⟨⟩⟩ := ha
    exact .add ⟨h, sequence, raw.utf8ByteSize⟩ (Nat.not_lt.1 hfits)
  case ack h cursor =>
    obtain ⟨_, -, -, -, ⟨⟩⟩ := ha
    exact .drop h _ fun e he => by simp_all
  case retire h _ _ _ =>
    obtain ⟨_, -, -, -, -, -, ⟨⟩⟩ := ha
    exact .forget h

/-! ## Sizes -/

theorem sizeOf_filter_not (events : List Event) {p : Event → Bool} (hp : ∀ e, p e → e.handle = h)
    (k : String) :
    sizeOf events k = sizeOf (events.filter (!p ·)) k + if h =
      k then ((events.filter p).map (·.size)).sum else 0 := by
  induction events with
  | nil => simp [sizeOf]
  | cons e events ih =>
    simp only [sizeOf, filter_cons] at ih ⊢
    cases hpe : p e with
    | false => by_cases he : e.handle = k <;> simp [he, ih, Nat.add_assoc]
    | true =>
      obtain rfl := hp e hpe
      by_cases he : e.handle = k <;> simp [he, ih, Nat.add_left_comm]

theorem getD_bufferedSizes (db : Db) (h : String) :
    (bufferedSizes db).getD h 0 = sizeOf db.events h := by
  have hfold : ∀ (es : List Event) (m : BTreeMap ℕ),
      (es.foldl (fun m e => m.insert e.handle (m.getD e.handle 0 + e.size)) m).getD h 0 =
          m.getD h 0 + sizeOf es h := by
    intro es
    induction es with
    | nil => exact fun _ => rfl
    | cons e es ih =>
      intro m
      rw [foldl_cons, ih, Std.ExtTreeMap.getD_insert]
      by_cases he : e.handle = h <;> simp [he, sizeOf, Nat.add_assoc]
  rw [bufferedSizes, hfold, Std.ExtTreeMap.getD_empty, Nat.zero_add]

/-- Applied after its commit, the change of the cached size keeps the sizes exact. -/
theorem Change.exact (hc : Change events buffered events' delta) (he : Exact events buffered) :
    Exact events' (adjust buffered delta) := by
  intro k
  obtain ⟨hk, hle⟩ := he k
  cases hc with
  | keep => exact ⟨hk, hle⟩
  | add e hfits =>
    have hsize : sizeOf (events ++ [e]) k = sizeOf events k + if e.handle =
        k then e.size else 0 := by
      simp only [sizeOf, filter_append, filter_cons, filter_nil, map_append, sum_append]
      split <;> simp_all
    rw [adjust, Std.ExtTreeMap.getD_insert, hsize]
    by_cases heq : e.handle = k
    · subst heq
      simp only [Std.compare_self, if_true]
      simp only [handleLimit] at hfits ⊢
      omega
    · simp [heq, hk, hle]
  | drop h p hp =>
    have hsize := sizeOf_filter_not events hp k
    rw [adjust, Std.ExtTreeMap.getD_insert]
    by_cases heq : h = k
    · subst heq
      simp only [Std.compare_self, if_true] at hsize ⊢
      simp only [handleLimit] at hle ⊢
      omega
    · rw [if_neg heq] at hsize
      simp only [Std.LawfulEqCmp.compare_eq_iff_eq, heq, if_false]
      omega
  | forget h =>
    have hsize := sizeOf_filter_not events (p := (·.handle == h)) (fun _ => eq_of_beq) k
    refine ⟨?_, (hsize ▸ Nat.le_add_right _ _).trans hle⟩
    rw [adjust, Std.ExtTreeMap.getD_erase]
    by_cases heq : h = k
    · subst heq
      rw [sizeOf, filter_eq_nil_iff.2 (by simp)]
      simp
    · simp only [Std.LawfulEqCmp.compare_eq_iff_eq, heq, if_false] at hsize ⊢
      exact hk.trans hsize

/-! ## Runs -/

variable {operation digest : String} {native : Option NativeId} {hasMethod : Bool} {commit : Commit}

/-- Every other error of a write has another text. -/
theorem Handle.write_full {state : Handle} {prior : Option Operation} {size : ℕ}
    (hw : state.write prior digest native hasMethod size = .error fullText) :
    handleLimit ≤ size := by
  cases prior with
  | some prior => simp [Handle.write, fullText] at hw
  | none =>
    simp only [Handle.write, bind_eq_error, ensure_eq_error] at hw
    obtain ⟨hfull, -⟩ | ⟨-, -, hw⟩ := hw
    · exact Nat.not_lt.1 (of_decide_eq_false hfull)
    · split at hw <;> simp [fullText, pure, Except.pure] at hw

theorem accept_full
    (ha : action column db buffered (.accept h operation digest native hasMethod) =
    .error fullText) :
    handleLimit ≤ buffered.getD h 0 := by
  simp only [action, bind_eq_error] at ha
  obtain hsnapshot | ⟨state, -, hwrite | ⟨decision, -, ha⟩⟩ := ha
  · cases hrow : db.handles[h]? <;> simp [snapshot, context, hrow, fullText] at hsnapshot
  · exact Handle.write_full hwrite
  · split at ha <;> simp [fullText, pure, Except.pure] at ha

theorem append_full {generation sequence : ℕ} {kind raw : String}
    (ha : action column db buffered (.append h generation sequence kind raw) =
      .ok (.full, db', delta)) :
    handleLimit < buffered.getD h 0 + raw.utf8ByteSize := by
  simp only [action, bind_eq_ok] at ha
  obtain ⟨-, -, state, -, ha⟩ := ha
  split at ha
  · cases ha
  split at ha
  · cases ha
  simp only [bind_eq_ok] at ha
  obtain ⟨-, -, -, -, ha⟩ := ha
  split at ha
  · assumption
  · simp only [bind_eq_ok, pure_eq_ok] at ha
    obtain ⟨-, -, ⟨⟩⟩ := ha

theorem action_of_ok (ht : (transaction column j op commit).1 = .ok reply) :
    ∃ db' delta, action column j.db j.buffered op = .ok (reply, db', delta) := by
  unfold transaction at ht
  split at ht
  · cases ht
  next heq =>
  cases commit with
  | confirmed =>
    cases ht
    exact ⟨_, _, heq⟩
  | failed | unconfirmed => cases ht

theorem action_of_full (ht : (transaction column j op commit).1 = .error fullText) :
    action column j.db j.buffered op = .error fullText := by
  unfold transaction at ht
  split at ht
  · next heq => rw [heq, Except.error.inj ht]
  · cases commit <;> simp [fullText] at ht

/-- One operation keeps the sizes exact, and is sound. -/
theorem step_exact {e : Op × Commit} (he : Exact j.db.events j.buffered) (hs : Settled column j e) :
    Exact (step column j e).db.events (step column j e).buffered ∧ Sound column j e := by
  obtain ⟨op, commit⟩ := e
  have hexact : Exact (step column j (op, commit)).db.events
      (step column j (op, commit)).buffered := by
    cases ha : action column j.db j.buffered op with
    | error e => rwa [step, transaction, ha]
    | ok r =>
      cases commit with
      | confirmed =>
        rw [step, transaction, ha]
        exact (action_change ha).exact he
      | failed => rwa [step, transaction, ha]
      | unconfirmed => rwa [hs rfl, step, transaction, ha]
  refine ⟨hexact, fun _ => hexact, fun {h _ _ _ _} hop hfull => ?_,
    fun {h _ _ _ _} hop hfull => ?_⟩ <;>
    rw [← (he h).1] <;> cases hop
  · obtain ⟨_, _, ha⟩ := action_of_ok hfull
    exact append_full ha
  · exact accept_full (action_of_full hfull)

/-- As long as no commit that reports an error changes the events, the journal is sound along every
run: the sizes are those of the stored events and within the limit, and nothing is refused as full
before the limit is reached. -/
theorem buffered_exact {db : Db} (hdb : ∀ h, sizeOf db.events h ≤ handleLimit)
    {es : List (Op × Commit)}
    (hs : Along (step column) (Settled column) ⟨db, bufferedSizes db⟩ es) :
    Along (step column) (Sound column) ⟨db, bufferedSizes db⟩ es :=
  hs.imp (I := fun j => Exact j.db.events j.buffered) (fun h => ⟨getD_bufferedSizes db h, hdb h⟩)
    fun _ _ => step_exact

theorem buffered_exact_appended :
    Along (step id) (Sound id) ⟨{}, bufferedSizes {}⟩
      [(.reserve "h", .unconfirmed), (.reserve "h", .confirmed),
        (.append "h" 0 1 "stdout" "{}", .failed), (.append "h" 0 1 "stdout" "{}", .confirmed),
        (.ack "h" 1, .confirmed)] :=
  buffered_exact (fun _ => Nat.zero_le _)
    (by refine ⟨fun _ => rfl, ?_, ?_, ?_, ?_, trivial⟩ <;> simp [Settled])

end Layr.Supervisor
