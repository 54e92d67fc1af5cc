import Layr.DbAttest
import Layr.DbLines
import Layr.DbStates

/-!
# The order in which records arrive

Two machines that have the same records may have got them in different orders. The tables in which
the largest order key counts do not see the order. The other tables read rows that may not have
arrived yet: the first record that trusts a machine sets its key, a drop or a revocation only takes
effect on what is there, a line that is at this machine is closed to others, and a cache is refused
as a parent only when it is known. `Settled` says when none of this depends on the order; then all
orders of arrival, and the order in which the index is rebuilt, give the same answers.
-/

namespace Layr

open List
open Register (Stamped write put putAll)
open Replay (Arrival)

variable {c : Codec} {here : String} {rows o o' : List Row}

structure SameAnswers (c : Codec) (db db' : Db) : Prop where
  lines : db.lineList = db'.lineList
  lineHeads : ∀ line, db.headsOf line = db'.headsOf line
  tags : db.tagList = db'.tagList
  refs : ∀ pre now, db.refList pre now = db'.refList pre now
  config : ∀ key, db.setting key = db'.setting key
  queue : ∀ target, db.queueList target = db'.queueList target
  trusted : ∀ machine, db.trustedKey machine = db'.trustedKey machine
  dropped : ∀ id, db.isDropped id = db'.isDropped id
  declassifications : db.declassifications = db'.declassifications
  checks : ∀ state, db.checks c state = db'.checks c state

/-- Both runs fail, or both succeed and give the same answers. -/
def SameOutcome (c : Codec) : Except String Db → Except String Db → Prop
  | .ok db, .ok db' => SameAnswers c db db'
  | .error _, .error _ => True
  | _, _ => False

/-- All orders of arrival have the same outcome, and so has a rebuild of the index. -/
def OrderLaw (c : Codec) (here : String) (rows : List Row) : Prop :=
  (∀ o o', Arrives rows o → Arrives rows o' → SameOutcome c (arrive c here o) (arrive c here o')) ∧
  ∀ o db, Arrives rows o → arrive c here o = .ok db → ∃ db', rebuildIndex c here db = .ok db' ∧
    SameAnswers c db db'

namespace Db

/-! ## Tables with order keys -/

/-- A table that is only written with order keys does not depend on the order of the records. -/
theorem tables_putAll_perm (c : Codec) (here : String) {κ V : Type}
    {cmp : κ → κ → Ordering} [Std.TransCmp cmp]
    [Std.LawfulEqCmp cmp] [DecidableEq κ] (π : Db → Std.ExtTreeMap κ (Stamped String V) cmp)
    (writes : Record → List (κ × V))
    (h : ∀ db r, π (effect c here db r) = putAll r.ord (π db) (writes r)) (hv : ValidRows c rows)
    (ho : o.Perm rows) (ho' : o'.Perm rows) :
    π (tables c here o) = π (tables c here o') := by
  rw [tables_eq_foldl c here π (fun m r => putAll r.ord m (writes r)) h,
    tables_eq_foldl c here π (fun m r => putAll r.ord m (writes r)) h]
  exact Register.foldl_putAll_perm (ho.trans ho'.symm)
    (fun a ha b hb => hv.eq_of_ord (ho.mem_iff.1 ha) (ho.mem_iff.1 hb)) _

theorem tagList_eq_of_perm (hv : ValidRows c rows) (ho : o.Perm rows) (ho' : o'.Perm rows)
    {db db' : Db} (htags : db.tags = (tables c here o).tags)
    (hcount : db.namelessTags = (tables c here o).namelessTags)
    (htags' : db'.tags = (tables c here o').tags)
    (hcount' : db'.namelessTags = (tables c here o').namelessTags) : db.tagList = db'.tagList := by
  have hperm := ho.trans ho'.symm
  have hseen : ∀ j : String, (tables c here o).tags[j]?.bind (·.val.view) =
      (tables c here o').tags[j]?.bind (·.val.view) := by
    intro j
    have hbind : ∀ x : Option (Stamped String TagRow), x.bind (·.val.view) =
        (x.map (Stamped.map TagRow.view)).bind (·.val) := by
      intro x
      cases x <;> rfl
    rw [hbind, hbind, tables_tags, tables_tags, Register.foldl_write_filterMap_perm hperm
      fun a ha b hb => hv.eq_of_ord (ho.mem_iff.1 ha) (ho.mem_iff.1 hb)]
  have hlist : (tables c here o).tags.toList.filterMap
    (fun e => e.2.val.view.map fun v => (e.1, v)) =
      (tables c here o').tags.toList.filterMap fun e => e.2.val.view.map fun v => (e.1, v) :=
    Maps.filterMap_toList_eq hseen
  rw [tagList_eq, tagList_eq, hcount, hcount', htags, htags', tables_namelessTags,
    tables_namelessTags, hperm.countP_eq, hlist]

/-! ## Trusted machines -/

def trustOf (here : String) (r : Record) : Option (String × Option String) :=
  if r.op = "machine" ∧ r.machine = here then some (r.machine, r.data.strAt "public_key")
  else if r.op = "machine.trust" then
    (r.data.strAt "machine").map fun m => (m, r.data.strAt "public_key")
  else none

def trustFor (here m : String) (row : Row) : Option (Option String) :=
  (trustOf here row.record).bind fun e => if e.1 = m then some e.2 else none

theorem getElem?_trustStep (m : String) (row : Row) (trusted : BTreeMap (Option String)) :
    (trustStep here row.record trusted)[m]? = trusted[m]?.or (trustFor here m row) := by
  have hadd : ∀ (k : String) (key : Option String),
      (addTrusted trusted (some k) key)[m]? =
          trusted[m]?.or (if k = m then some key else none) := by
    intro k key
    unfold addTrusted
    by_cases hk : k = m
    · subst hk
      cases hget : trusted[k]? with
      | none =>
        have hnot : ¬ trusted.contains k = true := by
          rw [Std.ExtTreeMap.contains_iff_mem, ← isSome_getElem?_iff_mem, hget]
          simp
        simp [hnot]
      | some old =>
        have hin : trusted.contains k = true := by
          rw [Std.ExtTreeMap.contains_iff_mem, ← isSome_getElem?_iff_mem, hget]
          rfl
        simp [hin, hget]
    · rw [if_neg hk, Option.or_none]
      simp only
      split
      · rfl
      · rw [Maps.getElem?_insert_ne hk]
  unfold trustStep trustFor trustOf
  split
  · exact hadd _ _
  split
  · cases row.record.data.strAt "machine" with
    | none => simp [addTrusted]
    | some k => exact hadd k _
  · simp

theorem tables_trusted (o : List Row) (m : String) :
    (tables c here o).trusted[m]? = o.findSome? (trustFor here m) := by
  induction o using List.reverseRecOn with
  | nil => simp [tables]
  | append_singleton o row ih =>
    rw [tables_append_singleton, findSome?_append, ← ih, findSome?_singleton]
    exact getElem?_trustStep m row _

/-! ## Attestations that still apply -/

def applies (db : Db) (p : AttestationRow → Bool) (id : String) (x : AttestationRow) :
    Option (AttestationRow × Record) :=
  if p x && !db.isRevoked id x then (db.record id).map fun r => (x.core, r) else none

theorem map_active (db : Db) (p : AttestationRow → Bool) :
    (db.active p).map (fun e => (e.1.core, e.2)) =
      ((db.attestations.toList.filterMap fun e => (db.applies p e.1 e.2).map fun v => (e.1, v)).map
        (·.2)).insertionSort fun a b => a.1.ord ≤ b.1.ord := by
  unfold active applies
  rw [map_insertionSort (fun a b : AttestationRow × Record => a.1.ord ≤ b.1.ord)
    (fun a b : AttestationRow × Record => a.1.ord ≤ b.1.ord) (fun e => (e.1.core, e.2)) _
    fun _ _ _ _ => Iff.rfl]
  congr 1
  generalize db.attestations.toList = l
  induction l with
  | nil => rfl
  | cons e l ih =>
    rw [filter_cons]
    by_cases hp : (p e.2 && !db.isRevoked e.1 e.2) = true
    · rw [if_pos hp, filterMap_cons, filterMap_cons, if_pos hp]
      cases db.record e.1 with
      | none => exact ih
      | some r => exact congrArg (List.cons _) ih
    · rw [if_neg hp, filterMap_cons, if_neg hp]
      exact ih

theorem find?_id_perm (hv : ValidRows c rows) (ho : o.Perm rows) (ho' : o'.Perm rows)
    (id : String) :
    o.find? (·.record.id == id) = o'.find? (·.record.id == id) := by
  cases hfind : o.find? (·.record.id == id) with
  | none =>
    refine (find?_eq_none.2 fun row hrow => ?_).symm
    exact find?_eq_none.1 hfind row (ho.mem_iff.2 (ho'.mem_iff.1 hrow))
  | some row =>
    have hrow := ho.mem_iff.1 (mem_of_find?_eq_some hfind)
    have hid : row.record.id = id := by simpa using find?_some hfind
    have hsome : (o'.find? (·.record.id == id)).isSome = true :=
      find?_isSome.2 ⟨row, ho'.mem_iff.2 hrow, by simp [hid]⟩
    obtain ⟨found, hfound⟩ := isSome_iff_exists.1 hsome
    have hfid : found.record.id = id := by simpa using find?_some hfound
    rw [hfound, hv.eq_of_id hrow (ho'.mem_iff.1 (mem_of_find?_eq_some hfound))
      (hid.trans hfid.symm)]

/-- The database with the tables that are derived in one order, and the records in another. -/
def stored (c : Codec) (here : String) (o rs : List Row) : Db :=
  { tables c here o with records := rs }

/-- Another machine's record that takes back an attestation is backed by one of the same machine. -/
def RevocationsBacked (c : Codec) (rows : List Row) : Prop :=
  ∀ t ∈ rows, ∀ r ∈ rows, TakesBack c r.record t.record → r.record.machine ≠ t.record.machine →
    ∃ r' ∈ rows, TakesBack c r'.record t.record ∧ r'.record.machine = t.record.machine ∧
      t.record.seq < r'.record.seq

/-- What is revoked is the same for all orders of arrival. -/
theorem isRevoked_arrives (hv : ValidRows c rows) (hback : RevocationsBacked c rows)
    (ho : Arrives rows o) {t : Row} (ht : t ∈ rows) {a : Attestation}
    (ha : attested c t.record = some a) {x : AttestationRow}
    (hx : x.core = (attestRow here t.record a).core) :
    (tables c here o).isRevoked t.record.id x = true ↔ ∃ r ∈ rows, TakesBack c r.record t.record ∧
      r.record.machine = t.record.machine ∧ t.record.seq < r.record.seq := by
  rw [isRevoked_tables (hv.perm ho.perm) ha
    (fun row hrow hid => hv.eq_of_id (ho.mem_iff.1 hrow) ht hid) hx]
  exact ho.exists_after_iff ht fun r hr htake hne => hback t ht r hr htake hne

/-- The attestations that still apply are the same for all orders of arrival. -/
theorem active_eq (hv : ValidRows c rows) (hback : RevocationsBacked c rows)
    (ho : Arrives rows o) (ho' : Arrives rows o') {rs rs' : List Row} (hrs : rs.Perm rows)
    (hrs' : rs'.Perm rows) {p : AttestationRow → Bool} (hp : ∀ x, p x = p x.core) :
    ((stored c here o rs).active p).map (·.2) = ((stored c here o' rs').active p).map (·.2) := by
  have hsnd : ∀ db : Db, (db.active p).map (·.2) =
      ((db.active p).map fun e => (e.1.core, e.2)).map (·.2) := fun db => by rw [map_map]; rfl
  have hlist : (stored c here o rs).attestations.toList.filterMap
      (fun e => ((stored c here o rs).applies p e.1 e.2).map fun v => (e.1, v)) =
      (stored c here o' rs').attestations.toList.filterMap
      fun e => ((stored c here o' rs').applies p e.1 e.2).map fun v => (e.1, v) := by
    refine Maps.filterMap_toList_eq fun id => ?_
    have hat := @tables_attestations c here _ (hv.perm ho.perm) id
    have hat' := @tables_attestations c here _ (hv.perm ho'.perm) id
    have hfind : o.find? (·.record.id == id) = o'.find? (·.record.id == id) :=
      find?_id_perm hv ho.perm ho'.perm id
    rw [attestationAt] at hat hat'
    rw [← hfind] at hat'
    change (tables c here o).attestations[id]?.bind _ = (tables c here o').attestations[id]?.bind _
    cases hm : (tables c here o).attestations[id]? with
    | none =>
      rw [hm, Option.map_none] at hat
      rw [← hat, map_eq_none_iff] at hat'
      rw [hat']
      rfl
    | some x =>
      rw [hm, Option.map_some] at hat
      obtain ⟨x', hm', hcore⟩ := map_eq_some_iff.1 (hat'.trans hat.symm)
      obtain ⟨t, hfound, hta⟩ := bind_eq_some_iff.1 hat.symm
      obtain ⟨a, ha, hx⟩ := map_eq_some_iff.1 hta
      have ht : t ∈ rows := ho.mem_iff.1 (mem_of_find?_eq_some hfound)
      obtain rfl : t.record.id = id := by simpa using find?_some hfound
      have hrev : (tables c here o).isRevoked t.record.id x =
          (tables c here o').isRevoked t.record.id x' := by
        rw [Bool.eq_iff_iff, isRevoked_arrives hv hback ho ht ha hx.symm,
          isRevoked_arrives hv hback ho' ht ha (hcore.trans hx.symm)]
      have hrec : (stored c here o rs).record t.record.id =
          (stored c here o' rs').record t.record.id :=
        congrArg (Option.map Row.record) (find?_id_perm hv hrs hrs' t.record.id)
      rw [hm', Option.bind_some, Option.bind_some]
      unfold applies
      rw [hrec, hp x, hp x', hcore]
      exact congrArg (fun b => if p x.core && !b then _ else _) hrev
  rw [hsnd, hsnd, map_active, map_active, hlist]

/-! ## Acceptance and drops -/

theorem statesOf_perm (h : o.Perm o') : ((statesOf o).map (·.id)).Perm ((statesOf o').map (·.id)) :=
  (h.flatMap_right _).map _

/-- Whether the records are accepted is the same for all orders of arrival. -/
theorem acceptsAll_arrives (hv : ValidRows c rows)
    (hnames : ∀ a ∈ rows, ∀ r ∈ rows, NamesAux a r → a.record.machine = r.record.machine)
    (ho : Arrives rows o) (ho' : Arrives rows o') (h : AcceptsAll c here o) :
    AcceptsAll c here o' := by
  have hvo := hv.perm ho.perm
  have hvo' := hv.perm ho'.perm
  obtain ⟨hnd, hpair⟩ := (acceptsAll_iff fun _ => hvo.record).1 h
  refine (acceptsAll_iff fun _ => hvo'.record).2 ⟨?_, ?_⟩
  · exact (statesOf_perm (ho.perm.trans ho'.perm.symm)).nodup_iff.1 hnd
  · exact ho.pairwise_iff ho' (fun a ha r hr hnot => hnames a ha r hr (not_not.1 hnot)) hpair

/-- A drop by another machine is backed by one of the machine that recorded the state. -/
def DropsBacked (rows : List Row) : Prop :=
  ∀ id, ∀ a ∈ rows, recordsState id a = true → ∀ d ∈ rows, drops id d = true →
    d.record.machine ≠ a.record.machine →
    ∃ d' ∈ rows, drops id d' = true ∧ d'.record.machine = a.record.machine ∧
      a.record.seq ≤ d'.record.seq

theorem mem_statesOf_of_recordsState {id : String} {a : Row} (h : recordsState id a = true)
    (ha : a ∈ o) : ∃ s ∈ statesOf o, s.id = id := by
  simp only [recordsState, any_eq_true, beq_iff_eq] at h
  obtain ⟨s, hs, hid⟩ := h
  exact ⟨s, mem_flatMap.2 ⟨a, ha, hs⟩, hid⟩

/-- A state of accepted records is recorded by one record only. -/
theorem recordsState_unique {l₁ l₂ : List Row} {a : Row} {id : String}
    (hnd : ((statesOf (l₁ ++ a :: l₂)).map (·.id)).Nodup) (ha : recordsState id a = true) :
    ∀ row ∈ l₂, recordsState id row = false := by
  intro row hrow
  by_contra htrue
  rw [Bool.not_eq_false] at htrue
  obtain ⟨s, hs, hsid⟩ := mem_statesOf_of_recordsState ha (mem_singleton_self a)
  obtain ⟨t, ht, htid⟩ := mem_statesOf_of_recordsState htrue hrow
  rw [show l₁ ++ a :: l₂ = l₁ ++ ([a] ++ l₂) from rfl, statesOf_append, statesOf_append,
    map_append, map_append, nodup_append'] at hnd
  have hdisj := (nodup_append'.1 hnd.2.1).2.2
  exact disjoint_left.1 hdisj (mem_map.2 ⟨s, hs, hsid⟩) (mem_map.2 ⟨t, ht, htid⟩)

/-- Whether a recorded state is dropped is the same for all orders of arrival. -/
theorem isDropped_arrives (hback : DropsBacked rows) (ho : Arrives rows o)
    (hnd : ((statesOf o).map (·.id)).Nodup) {a : Row} (ha : a ∈ rows) {id : String}
    (hrec : recordsState id a = true) : ∃ b, (tables c here o).isDropped id = some b ∧
      (b = true ↔ ∃ d ∈ rows, drops id d = true ∧ d.record.machine = a.record.machine ∧
        a.record.seq ≤ d.record.seq) := by
  obtain ⟨l₁, l₂, rfl⟩ := append_of_mem (ho.mem_iff.2 ha)
  refine ⟨_, isDropped_eq hrec (recordsState_unique hnd hrec), ?_⟩
  exact ho.any_tail_iff fun d hd hdrop hne => hback id a ha hrec d hd hdrop hne

theorem isDropped_eq_of_arrives (hback : DropsBacked rows) (ho : Arrives rows o)
    (ho' : Arrives rows o') (hnd : ((statesOf o).map (·.id)).Nodup) (id : String) :
    (tables c here o).isDropped id = (tables c here o').isDropped id := by
  have hnd' := (statesOf_perm (ho.perm.trans ho'.perm.symm)).nodup_iff.1 hnd
  by_cases hex : ∃ a ∈ rows, recordsState id a = true
  · obtain ⟨a, ha, hrec⟩ := hex
    obtain ⟨b, hb, hiff⟩ := @isDropped_arrives c here _ _ hback ho hnd a ha id hrec
    obtain ⟨b', hb', hiff'⟩ := @isDropped_arrives c here _ _ hback ho' hnd' a ha id hrec
    rw [hb, hb', Bool.eq_iff_iff.2 (hiff.trans hiff'.symm)]
  have hnone : ∀ l, Arrives rows l → (tables c here l).isDropped id = none := by
    intro l hl
    unfold isDropped
    rw [map_eq_none_iff]
    refine getElem?_eq_none fun hmem => hex ?_
    obtain ⟨s, hs, hid⟩ := (mem_tables_states l id).1 hmem
    obtain ⟨row, hrow, hsr⟩ := mem_flatMap.1 hs
    exact ⟨row, hl.mem_iff.1 hrow, any_eq_true.2 ⟨s, hsr, by simp [hid]⟩⟩
  rw [hnone o ho, hnone o' ho']

end Db

/-! ## All orders -/

open Db in
/-- What has to hold of some records so that no table depends on the order in which they arrive. -/
structure Settled (c : Codec) (here : String) (rows : List Row) : Prop where
  /-- The first records of all machines that trust a machine give it the same key. -/
  trust : ∀ m, ∀ a ∈ rows, ∀ b ∈ rows, (trustFor here m a).isSome = true →
    (trustFor here m b).isSome = true →
    Arrival.IsFirst (fun row : Row => row.record.machine) (fun row => row.record.seq) rows
      (trustFor here m) a →
    Arrival.IsFirst (fun row : Row => row.record.machine) (fun row => row.record.seq) rows
      (trustFor here m) b → trustFor here m a = trustFor here m b
  drops : DropsBacked rows
  revocations : RevocationsBacked c rows
  lines : ∀ line, LineSettled here rows line
  /-- A cache or derived state is named as a parent or head only by the machine that recorded it. -/
  sources : ∀ a ∈ rows, ∀ r ∈ rows, NamesAux a r → a.record.machine = r.record.machine

open Db in
/-- The records are refused in every order: a state is recorded twice, or a machine names a cache or
derived state after it recorded it. -/
def Refused (rows : List Row) : Prop :=
  ¬ ((statesOf rows).map (·.id)).Nodup ∨ ∃ a ∈ rows, ∃ r ∈ rows, NamesAux a r ∧
    a.record.machine = r.record.machine ∧ a.record.seq < r.record.seq

section

open Db

/-- Table by table: each one is seen the same after both orders. -/
theorem sameAnswers_of_arrives (hv : ValidRows c rows) (h : Settled c here rows)
    (ho : Arrives rows o) (ho' : Arrives rows o') {rs rs' : List Row} (hrs : rs.Perm rows)
    (hrs' : rs'.Perm rows) (hnd : ((statesOf o).map (·.id)).Nodup) :
    SameAnswers c (stored c here o rs) (stored c here o' rs') := by
  have hlines : (tables c here o).lines.toList.filterMap
    (fun e => e.2.val.view.map fun v => (e.1, v)) =
      (tables c here o').lines.toList.filterMap fun e => e.2.val.view.map fun v => (e.1, v) :=
    Maps.filterMap_toList_eq fun line => lines_eq_of_settled hv ho ho' (h.lines line)
  have hheads := tables_putAll_perm c here (·.lineHeads) headWrites
    (fun _ _ => rfl) hv ho.perm ho'.perm
  have hrefs := tables_putAll_perm c here (·.refs) refWrites (fun _ _ => rfl) hv ho.perm ho'.perm
  have hconfig := tables_putAll_perm c here (·.config) (configWrites here)
    (fun _ _ => rfl) hv ho.perm ho'.perm
  have hqueue := tables_putAll_perm c here (·.queueEntries) queueWrites
    (fun _ _ => rfl) hv ho.perm ho'.perm
  have hactive : ∀ p : AttestationRow → Bool, (∀ x, p x = p x.core) →
      ((stored c here o rs).active p).map (·.2) = ((stored c here o' rs').active p).map (·.2) :=
    fun p hp => active_eq hv h.revocations ho ho' hrs hrs' hp
  have hchecks : ∀ (db : Db) state, db.checks c state =
      ((db.active fun a => a.subject == state && a.kind == "check").map (·.2)).mapM
          (checkRow c) := by
    intro db state
    rw [mapM_map]
    rfl
  refine ⟨?_, fun line => ?_, ?_, fun pre now => ?_, fun key => ?_, fun target => ?_,
    fun machine => ?_, isDropped_eq_of_arrives h.drops ho ho' hnd, ?_, fun state => ?_⟩
  · rw [lineList_eq, lineList_eq]
    exact congrArg _ (congrArg _ hlines)
  · exact congrArg (fun m => (Std.ExtTreeMap.toList m |>.filter (·.1.line == line)).map fun e =>
      (e.1.machine, e.2.val)) hheads
  · exact tagList_eq_of_perm hv ho.perm ho'.perm rfl rfl rfl rfl
  · exact congrArg (fun m => refList { refs := m } pre now) hrefs
  · exact congrArg (fun m => setting { config := m } key) hconfig
  · exact congrArg (fun m => queueList { queueEntries := m } target) hqueue
  · have htrust : (tables c here o).trusted[machine]? = (tables c here o').trusted[machine]? := by
      rw [tables_trusted, tables_trusted]
      exact ho.findSome?_eq ho' (h.trust machine)
    rw [trustedKey, trustedKey]
    exact htrust ▸ rfl
  · rw [declassifications, declassifications, hactive (·.kind == "approval") fun _ => rfl]
  · rw [hchecks, hchecks, hactive _ fun _ => rfl]

theorem Refused.not_acceptsAll (hv : ValidRows c rows) (h : Refused rows) (ho : Arrives rows o) :
    ¬ AcceptsAll c here o := by
  rw [acceptsAll_iff fun _ => (hv.perm ho.perm).record]
  rintro ⟨hnd, hpair⟩
  rcases h with h | ⟨a, ha, r, hr, hnames, hm, hseq⟩
  · exact h ((statesOf_perm ho.perm).nodup_iff.1 hnd)
  · have hsub := (ho.sublist_iff ha hr hm).2 hseq
    exact pairwise_iff_forall_sublist.1 hpair hsub hnames

/-- The outcome does not depend on the order of arrival when the records are refused anyway, or the
records settle; and a rebuild agrees when in addition no machine's times go back. -/
theorem orderLaw_of_settled (hv : ValidRows c rows)
    (h : Refused rows ∨ (Settled c here rows ∧ ClocksRun rows)) : OrderLaw c here rows := by
  have harrive : ∀ {o db}, Arrives rows o → (arrive c here o = .ok db ↔
      AcceptsAll c here o ∧ db = stored c here o o) := fun ho =>
        arrive_eq_ok (hv.perm ho.perm).unique
  have hfail : ∀ {o}, Arrives rows o → ¬ AcceptsAll c here o → ∃ e, arrive c here o = .error e := by
    intro o ho hnot
    cases hres : arrive c here o with
    | error e => exact ⟨e, rfl⟩
    | ok db => exact absurd ((harrive ho).1 hres).1 hnot
  refine ⟨fun o o' ho ho' => ?_, fun o db ho hdb => ?_⟩
  · by_cases hacc : AcceptsAll c here o
    · obtain ⟨hsettled, -⟩ := h.resolve_left fun hr => hr.not_acceptsAll hv ho hacc
      have hacc' := acceptsAll_arrives hv hsettled.sources ho ho' hacc
      rw [(harrive ho).2 ⟨hacc, rfl⟩, (harrive ho').2 ⟨hacc', rfl⟩]
      exact sameAnswers_of_arrives hv hsettled ho ho' ho.perm ho'.perm
        ((acceptsAll_iff fun _ => (hv.perm ho.perm).record).1 hacc).1
    · have hacc' : ¬ AcceptsAll c here o' := by
        rcases h with hr | ⟨hsettled, -⟩
        · exact hr.not_acceptsAll hv ho'
        · exact fun hacc' => hacc (acceptsAll_arrives hv hsettled.sources ho' ho hacc')
      obtain ⟨e, he⟩ := hfail ho hacc
      obtain ⟨e', he'⟩ := hfail ho' hacc'
      rw [he, he']
      trivial
  · obtain ⟨hacc, rfl⟩ := (harrive ho).1 hdb
    obtain ⟨hsettled, hclocks⟩ := h.resolve_left fun hr => hr.not_acceptsAll hv ho hacc
    have hall : Arrives rows (stored c here o o).allLines := allLines_arrives hv hclocks ho.perm
    have hacc' := acceptsAll_arrives hv hsettled.sources ho hall hacc
    refine ⟨_, rebuildIndex_eq_ok.2 ⟨hacc', rfl⟩, ?_⟩
    exact sameAnswers_of_arrives hv hsettled ho hall ho.perm ho.perm
      ((acceptsAll_iff fun _ => (hv.perm ho.perm).record).1 hacc).1

end

/-! ## A drop that comes first

One machine stashes a state, another one drops it. If the drop arrives first, it finds no state, and
the state that arrives later stays.
-/

namespace DropFirst

def machineA : String := "01a12290-0000-7000-8000-00000000000a"

def machineB : String := "01a12290-0000-7000-8000-00000000000b"

def stashed : String := "01a12290-0000-7000-8000-000000000010"

/-- A codec that knows no texts: the records of the example carry none. -/
def codec : Codec := .silent

def stash : Row where
  record := {
    id := "01a12290-0000-7000-8000-000000000001"
    machine := machineA
    seq := 1
    time := 1
    op := "stash"
    states := [{ id := stashed, kind := .stash }] }
  raw := ""

def dropBy (id machine : String) (seq : Nat) (time : Int) : Row where
  record := {
    id := id
    machine := machine
    seq := seq
    time := time
    op := "stash.drop"
    data := .obj [("state", .str stashed)] }
  raw := ""

def drop : Row := dropBy "01a12290-0000-7000-8000-000000000002" machineB 1 2

def ownDrop : Row := dropBy "01a12290-0000-7000-8000-000000000003" machineA 2 3

theorem valid_rows : ValidRows codec [stash, drop, ownDrop] where
  unique := by decide +kernel
  valid := by decide +kernel

/-- Whether the state is dropped depends on which record arrives first. -/
theorem dropped_by_order : (arrive codec machineA [stash, drop]).toOption.map
    (·.isDropped stashed) = some (some true) ∧
      (arrive codec machineA [drop, stash]).toOption.map (·.isDropped stashed) =
        some (some false) := by
  decide +kernel

theorem dropFirst_not_orderLaw :
    ¬ ∀ (c : Codec) (here : String) (rows : List Row), ValidRows c rows → OrderLaw c here rows := by
  intro h
  have hvalid : ValidRows codec [stash, drop] :=
    ⟨by decide +kernel, fun row hrow => valid_rows.valid row (by
      simp only [mem_cons, not_mem_nil, or_false] at hrow ⊢
      exact hrow.imp_right .inl)⟩
  have hsame := (h codec machineA [stash, drop] hvalid).1 [stash, drop] [drop, stash]
    ⟨.refl _, by decide +kernel⟩ ⟨.swap _ _ _, by decide +kernel⟩
  obtain ⟨hfirst, hlast⟩ := dropped_by_order
  obtain ⟨db, hdb, hdrop⟩ := map_eq_some_iff.1 hfirst
  obtain ⟨db', hdb', hdrop'⟩ := map_eq_some_iff.1 hlast
  rw [toOption_eq_some.1 hdb, toOption_eq_some.1 hdb'] at hsame
  have heq := hsame.dropped stashed
  rw [hdrop, hdrop'] at heq
  cases heq

/-- What the records of the example have to do with, beside the state. -/
theorem mem_rows {row : Row} (h : row ∈ [stash, drop, ownDrop]) :
    Db.trustOf machineA row.record = none ∧ Db.attested codec row.record = none ∧
      (∀ line, Db.lineAfter line row.record = none) ∧ Db.named row.record = [] := by
  have hlines : ∀ line : String, (∅ : BTreeMap LineChange)[line]? = none :=
    fun _ => getElem?_empty
  simp only [mem_cons, not_mem_nil, or_false] at h
  rcases h with rfl | rfl | rfl
  all_goals exact ⟨by decide, by decide, fun line => congrArg _ (hlines line), by decide +kernel⟩

theorem settled_rows : Settled codec machineA [stash, drop, ownDrop] where
  trust m a ha b _ hsome := by
    rw [Db.trustFor, (mem_rows ha).1] at hsome
    cases hsome
  drops id a ha hrec _ _ _ _ := by
    -- Only the stash records a state, and its machine dropped it.
    simp only [mem_cons, not_mem_nil, or_false] at ha
    rcases ha with rfl | rfl | rfl
    · obtain rfl : stashed = id := by simpa [Db.recordsState, stash] using hrec
      exact ⟨ownDrop, by simp, by decide +kernel, rfl, by decide⟩
    · cases hrec
    · cases hrec
  revocations t ht r hr := by
    rintro ⟨a, -, hatt, -⟩
    rw [(mem_rows ht).2.1] at hatt
    cases hatt
  lines line := .inl ⟨machineA, fun row hrow hsome => by
    rw [(mem_rows hrow).2.2.1 line] at hsome
    cases hsome⟩
  sources a ha r hr := by
    rintro ⟨s, -, -, hmem⟩
    rw [(mem_rows hr).2.2.2] at hmem
    cases hmem

/-- With a drop of its own machine the state is dropped in every order. -/
theorem orderLaw_of_settled_drops :
    ValidRows codec [stash, drop, ownDrop] ∧ Settled codec machineA [stash, drop, ownDrop] ∧
      OrderLaw codec machineA [stash, drop, ownDrop] :=
  ⟨valid_rows, settled_rows, orderLaw_of_settled valid_rows
    (.inr ⟨settled_rows, by unfold ClocksRun; decide +kernel⟩)⟩

end DropFirst

end Layr
