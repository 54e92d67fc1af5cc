import Layr.Requests

/-!
# Request results that hold a reply

The part of `request_results.rs` that stores whole replies, `begin_request`, `replay_request` and
`settle_request` of `runtime-services/src/event_write.rs`, and `remote_result_key` of
`multi_server_delivery.rs`. A reply is kept under the identity of its request. While it is there, a
request with the same content gets it again, and a request with other content is refused. After it
was removed, the identity is too old to be admitted.
-/

namespace Layr.Requests

open Tables

/-- A row of `request_results` that holds a reply, without its id. -/
structure StoredResult (R : Type) where
  signature : String
  reply : R
  created : ℤ
deriving DecidableEq

/-- The table and the setting `expired_before_ms`. -/
structure Replies (R : Type) where
  rows : BTreeMap (StoredResult R)
  expiredBeforeMs : ℤ

inductive ReplyError where
  | expired
  | identity (e : RequestIdentityError)
  | conflict (id : String)
  | json
deriving DecidableEq, Repr

structure AdmittedRequest where
  id : String
  signature : String
  created : ℤ
deriving DecidableEq, Repr

inductive CallerAdmission (A : Type) where
  | fresh (admitted : AdmittedRequest)
  | replay (saved : A)

/-- `RequestKey`: the exact id, and the parts of the identity. -/
structure RequestKey where
  raw : String
  ns : String
  authority : List String
  root : String
  operation : List String

def remoteResultKey (crate : UuidCrate) (ns : String) (authority : List String) (root : String) :
    String :=
  match RequestIdentity.new crate ns authority root [] with
  | .ok identity => identity.id
  | .error _ => identityText ns authority root []

variable {crate : UuidCrate}

/-- The id of an identity is the text of its parts, with the root in canonical form. -/
theorem RequestIdentity.new_id {ns root : String} {authority operation : List String}
    {identity : RequestIdentity}
    (h : RequestIdentity.new crate ns authority root operation = .ok identity) :
    ∃ root', identity.id = identityText ns authority root' operation := by
  unfold RequestIdentity.new at h
  split at h
  · cases h
  · cases h
    exact ⟨_, rfl⟩

namespace Replies

variable {R A : Type}

def stored (r : Replies R) (id signature : String) : Except ReplyError (Option (StoredResult R)) :=
  match r.rows[id]? with
  | none => .ok none
  | some row => if row.signature ≠ signature then .error (.conflict id) else .ok (some row)

def replay (r : Replies R) (id signature : String) (nowMs : ℤ) :
    Except ReplyError (Option (StoredResult R)) := do
  let saved ← r.stored id signature
  let floor := saturatingSub nowMs requestResultTtlMs
  match saved with
  | none => return none
  | some row =>
    if row.created ≤ floor then throw (.identity (.expired row.created floor))
    return some row

/-- `replay_request`: the reply is decoded by `decode`. -/
def replayRequest (decode : R → Option A) (r : Replies R) (id signature : String) (nowMs : ℤ) :
    Except ReplyError (Option A) := do
  match ← r.replay id signature nowMs with
  | none => return none
  | some row => return some (← context (decode row.reply) .json)

/-- `begin_request`: the reply of the exact id, or that of the identity, or an admission. -/
def beginRequest (crate : UuidCrate) (decode : R → Option A) (r : Replies R) (key : RequestKey)
    (signature : String) (nowMs : ℤ) : Except ReplyError (CallerAdmission A) := do
  match ← r.replayRequest decode key.raw signature nowMs with
  | some saved => return .replay saved
  | none =>
    match RequestIdentity.new crate key.ns key.authority key.root key.operation with
    | .error _ => throw .expired
    | .ok identity =>
      match ← r.replayRequest decode identity.id signature nowMs with
      | some saved => return .replay saved
      | none =>
        match identity.validate nowMs r.expiredBeforeMs with
        | .error e => throw (.identity e)
        | .ok () => return .fresh ⟨identity.id, signature, identity.issuedMs⟩

def settleRequest (r : Replies R) (admitted : AdmittedRequest) (reply : R) :
    Except ReplyError (Replies R) := do
  match ← r.stored admitted.id admitted.signature with
  | some _ => return r
  | none =>
    return { r with
      rows := r.rows.insert admitted.id ⟨admitted.signature, reply, admitted.created⟩ }

def gc (r : Replies R) (nowMs : ℤ) : Replies R :=
  let cutoff := saturatingSub nowMs requestResultTtlMs
  let batch :=
    ((select (fun id (row : StoredResult R) => if row.created ≤ cutoff then some (row.created, id)
    else none) r.rows).insertionSort fun a b => a.1 < b.1 ∨ (a.1 = b.1 ∧ a.2 ≤ b.2)).take
      requestResultGcBatchRows
  { rows := eraseAll (·.2) r.rows batch
    expiredBeforeMs := max cutoff r.expiredBeforeMs }

/-! ## What the functions do -/

variable {r : Replies R} {signature id : String}

theorem stored_eq_ok {o : Option (StoredResult R)}
    (h : r.stored id signature = .ok o) :
    r.rows[id]? = o ∧ ∀ row ∈ o, row.signature = signature := by
  unfold stored at h
  split at h
  · next hrow =>
    cases h
    exact ⟨hrow, nofun⟩
  next row hrow =>
  split at h
  · cases h
  · next hsignature =>
    cases h
    exact ⟨hrow, fun _ hmem => Option.mem_some_iff.1 hmem ▸ not_not.1 hsignature⟩

variable {decode : R → Option A} {nowMs : ℤ} {saved : A}

theorem replayRequest_eq_some (h : r.replayRequest decode id signature nowMs = .ok (some saved)) :
    ∃ row, r.rows[id]? = some row ∧ row.signature = signature ∧ decode row.reply = some saved := by
  obtain ⟨o, hreplay, h⟩ := bind_eq_ok.1 h
  obtain ⟨o', hstored, hreplay⟩ := bind_eq_ok.1 hreplay
  obtain ⟨hrow, hsignature⟩ := stored_eq_ok hstored
  cases o' with
  | none =>
    cases hreplay
    cases h
  | some row =>
    simp only at hreplay
    split at hreplay
    · cases hreplay
    · cases hreplay
      obtain ⟨reply, hreply, h⟩ := bind_eq_ok.1 h
      cases h
      exact ⟨row, hrow, hsignature row rfl, context_eq_ok.1 hreply⟩

variable {key : RequestKey}

/-- A replayed reply is stored under the exact id or under the identity. -/
theorem beginRequest_replay
    (h : r.beginRequest crate decode key signature nowMs = .ok (.replay saved)) :
    ∃ id row, (id = key.raw ∨ ∃ root, id = identityText key.ns key.authority root key.operation) ∧
      r.rows[id]? = some row ∧ row.signature = signature ∧ decode row.reply = some saved := by
  obtain ⟨o, hraw, h⟩ := bind_eq_ok.1 h
  cases o with
  | some reply =>
    cases h
    obtain ⟨row, hrow, hreply⟩ := replayRequest_eq_some hraw
    exact ⟨_, row, .inl rfl, hrow, hreply⟩
  | none =>
    simp only at h
    split at h
    · cases h
    next identity hidentity =>
    obtain ⟨o, hid, h⟩ := bind_eq_ok.1 h
    cases o with
    | some reply =>
      cases h
      obtain ⟨row, hrow, hreply⟩ := replayRequest_eq_some hid
      obtain ⟨root, hroot⟩ := RequestIdentity.new_id hidentity
      exact ⟨_, row, .inr ⟨root, hroot⟩, hrow, hreply⟩
    | none =>
      simp only at h
      split at h <;> cases h

variable {admitted : AdmittedRequest}

/-- An admission has the identity of the request and its content. -/
theorem beginRequest_fresh
    (h : r.beginRequest crate decode key signature nowMs = .ok (.fresh admitted)) :
    admitted.signature = signature ∧ ∃ root,
      admitted.id = identityText key.ns key.authority root key.operation := by
  obtain ⟨o, -, h⟩ := bind_eq_ok.1 h
  cases o with
  | some reply => cases h
  | none =>
    simp only at h
    split at h
    · cases h
    next identity hidentity =>
    obtain ⟨o, -, h⟩ := bind_eq_ok.1 h
    cases o with
    | some reply => cases h
    | none =>
      simp only at h
      split at h
      · cases h
      · cases h
        exact ⟨rfl, RequestIdentity.new_id hidentity⟩

variable {row : StoredResult R}

/-- A settlement writes the row of its admission or nothing. -/
theorem settleRequest_rows {r r' : Replies R} {reply : R}
    (h : r.settleRequest admitted reply = .ok r') (hrow : r'.rows[id]? = some row) :
    r.rows[id]? = some row ∨ id = admitted.id ∧
      row = ⟨admitted.signature, reply, admitted.created⟩ := by
  obtain ⟨o, -, h⟩ := bind_eq_ok.1 h
  cases o with
  | some saved =>
    cases h
    exact .inl hrow
  | none =>
    cases h
    rcases Maps.of_getElem?_insert hrow with ⟨rfl, rfl⟩ | ⟨-, hrow⟩
    · exact .inr ⟨rfl, rfl⟩
    · exact .inl hrow

theorem gc_rows (hrow : (r.gc nowMs).rows[id]? = some row) : r.rows[id]? = some row := by
  by_contra hnot
  unfold gc at hrow
  by_cases hmem : id ∈ (((select (fun id (row : StoredResult R) =>
      if row.created ≤ saturatingSub nowMs requestResultTtlMs then some (row.created, id) else none)
      r.rows).insertionSort fun a b => a.1 < b.1 ∨ (a.1 = b.1 ∧ a.2 ≤ b.2)).take
        requestResultGcBatchRows).map (·.2)
  · rw [getElem?_eraseAll_of_mem hmem] at hrow
    cases hrow
  · rw [getElem?_eraseAll_of_notMem hmem] at hrow
    exact hnot hrow

end Replies

theorem remoteResultKey_text (crate : UuidCrate) (ns : String) (authority : List String)
    (root : String) :
    ∃ root', remoteResultKey crate ns authority root = identityText ns authority root' [] := by
  unfold remoteResultKey
  split
  · next identity hidentity => exact RequestIdentity.new_id hidentity
  · exact ⟨root, rfl⟩

end Layr.Requests
