import Layr.Durable
import Layr.Lib.Feed

/-!
# The durable change source as a change feed

What one write does to the numbers and to the entries of the rows (`Db.write_advances`,
`Db.write_gives`), and what a reply does to a reader's copy, in the terms of change feeds: the
entries of a table are a log (`Db.log`), a write makes the next log follow, with numbers above the
highest one in use when the write takes its first (`Db.base`), and a reply drops tombstones and puts
rows.
-/

namespace Layr.Durable

open Tables Feed List Option

variable {db db' db₀ : Db} {t t' : DurableTable} {id k : String} {deleted : Bool} {now time : ℤ}
  {h n : ℕ} {w : Write}

/-! ## The numbers in use -/

namespace Db

def numbers (db : Db) : List ℕ :=
  db.entities.toList.map (fun e => e.2) ++ db.documents.toList.map (fun e => e.2) ++
    db.generation :: durableTables.flatMap db.seqs

theorem high_le_numbers : db.high ≤ n ↔ ∀ x ∈ db.numbers, x ≤ n := by
  simp only [high, entitySeq, documentSeq, durableSeq, numbers, Nat.max_le, highest_le_iff,
    forall_mem_append, forall_mem_cons, and_assoc]

/-- A number is stored for an entity, for a document, as the generation or for a row. -/
theorem mem_numbers : n ∈ db.numbers ↔
    (∃ k : String × String, db.entities[k]? = some n) ∨
    (∃ k : String × String, db.documents[k]? = some n) ∨
      n = db.generation ∨ ∃ t, ∃ (id : String) (e : Entry), (db.rows t)[id]? = some e ∧
        e.seq = n := by
  have hcolumn : ∀ m : Std.ExtTreeMap (String × String) ℕ,
      n ∈ m.toList.map (fun e => e.2) ↔ ∃ k : String × String, m[k]? = some n := fun m => by
    simp
  have hseqs : n ∈ durableTables.flatMap db.seqs ↔
      ∃ t, ∃ (id : String) (e : Entry), (db.rows t)[id]? = some e ∧ e.seq = n := by
    simp only [mem_flatMap, mem_durableTables, true_and]
    exact exists_congr fun t => mem_column
  simp [numbers, hcolumn, hseqs]

theorem le_high (hn : n ∈ db.numbers) : n ≤ db.high := high_le_numbers.1 le_rfl n hn

variable {e : Entry}

theorem seq_le_high (he : (db.rows t)[id]? = some e) : e.seq ≤ db.high :=
  le_high (mem_numbers.2 (.inr (.inr (.inr ⟨t, id, e, he, rfl⟩))))

/-- The highest number in use is stored, unless there is none above 0. -/
theorem high_eq_zero_or_mem (db : Db) : db.high = 0 ∨ db.high ∈ db.numbers := by
  have heq : db.high = highest db.numbers :=
    le_antisymm (high_le_numbers.2 fun _ => le_highest) (highest_le_iff.2 fun _ => le_high)
  rw [heq]
  exact highest_eq_zero_or_mem db.numbers

/-! ## What the parts of a write do -/

theorem getElem?_update {V : Type} {f : DurableTable → BTreeMap V} {m : BTreeMap V} {x : Option V}
    (hm : m[k]? = if compare id k = .eq then x else (f t)[k]?) :
    (Function.update f t m t')[k]? = if t' = t ∧ k = id then x else (f t')[k]? := by
  by_cases ht : t' = t
  · subst ht
    simp [hm, @eq_comm _ k id]
  · simp [ht]

theorem rows_put : ((db.put t id deleted time).rows t')[k]? =
    if t' = t ∧ k = id then some ⟨db.next, deleted, time⟩ else (db.rows t')[k]? :=
  getElem?_update Std.ExtTreeMap.getElem?_insert

theorem rows_put_self : ((db.put t id deleted time).rows t)[id]? =
    some ⟨db.next, deleted, time⟩ := by
  rw [rows_put, if_pos ⟨rfl, rfl⟩]

theorem rows_put_ne (hne : ¬ (t' = t ∧ k = id)) :
    ((db.put t id deleted time).rows t')[k]? = (db.rows t')[k]? := by
  rw [rows_put, if_neg hne]

@[simp] theorem tables_put : (db.put t id deleted time).tables = db.tables := rfl

theorem tables_setRow {payload : String} : ((db.setRow t id payload).tables t')[k]? =
    if t' = t ∧ k = id then some payload else (db.tables t')[k]? :=
  getElem?_update Std.ExtTreeMap.getElem?_insert

theorem tables_removeRow : ((db.removeRow t id).tables t')[k]? =
    if t' = t ∧ k = id then none else (db.tables t')[k]? :=
  getElem?_update Std.ExtTreeMap.getElem?_erase

theorem rows_prune : ((db.prune now).rows t)[k]? = (db.rows t)[k]?.filter fun e =>
    !expired now e := by
  rw [prune, Std.ExtTreeMap.getElem?_filter']

theorem le_expiredSeq (he : (db.rows t)[k]? = some e) (hexpired : expired now e = true) :
    e.seq ≤ db.expiredSeq now := by
  refine le_highest (mem_flatMap.2 ⟨t, mem_durableTables t, mem_filterMap.2 ⟨(k, e), ?_, ?_⟩⟩)
  · exact mem_toList_iff_getElem?_eq_some.2 he
  · exact if_pos hexpired

/-- Pruning keeps an entry, or removes a tombstone that is not above the new floor. -/
theorem prune_cases (db : Db) (now : ℤ) (t : DurableTable) (k : String) :
    ((db.prune now).rows t)[k]? = (db.rows t)[k]? ∨ ((db.prune now).rows t)[k]? = none ∧
        ∃ e, (db.rows t)[k]? = some e ∧ e.deleted = true ∧ e.seq ≤ (db.prune now).floor := by
  rw [rows_prune]
  match he : (db.rows t)[k]? with
  | none => exact .inl rfl
  | some e =>
    by_cases hexpired : expired now e = true
    · refine .inr ⟨by simp [hexpired], e, rfl, ?_, ?_⟩
      · rw [expired, Bool.and_eq_true] at hexpired
        exact hexpired.1
      · exact (le_expiredSeq he hexpired).trans (Nat.le_max_right _ _)
    · exact .inl (by simp [hexpired])

theorem mem_numbers_of_prune (hn : n ∈ (db.prune now).numbers) : n ∈ db.numbers := by
  rw [mem_numbers] at hn ⊢
  refine hn.imp id (Or.imp id (Or.imp id ?_))
  rintro ⟨t, k, e, he, rfl⟩
  rcases prune_cases db now t k with heq | ⟨hnone, -⟩
  · exact ⟨t, k, e, heq ▸ he, rfl⟩
  · rw [hnone] at he
    cases he

theorem high_prune_le (db : Db) (now : ℤ) : (db.prune now).high ≤ db.high :=
  high_le_numbers.2 fun _ hn => le_high (mem_numbers_of_prune hn)

theorem mem_numbers_of_put (hn : n ∈ (db.put t id deleted time).numbers) :
    n = db.next ∨ n ∈ db.numbers := by
  rw [mem_numbers] at hn ⊢
  rcases hn with hn | hn | hn | ⟨t', k, e, he, rfl⟩
  · exact .inr (.inl hn)
  · exact .inr (.inr (.inl hn))
  · exact .inr (.inr (.inr (.inl hn)))
  rw [rows_put] at he
  split at he
  · cases he
    exact .inl rfl
  · exact .inr (.inr (.inr (.inr ⟨t', k, e, he, rfl⟩)))

theorem high_put (db : Db) (t : DurableTable) (id : String) (deleted : Bool) (time : ℤ) :
    (db.put t id deleted time).high = db.high + 1 := by
  refine le_antisymm (high_le_numbers.2 fun n hn => ?_) (seq_le_high rows_put_self)
  rcases mem_numbers_of_put hn with rfl | hn
  · exact le_rfl
  · exact (le_high hn).trans (Nat.le_succ _)

/-! ## What a write does -/

/-- The highest number in use when a write takes its first number. -/
def base (db : Db) : Write → ℕ
  | .delete t id now => if id ∈ db.tables t then (db.prune now).high else db.high
  | _ => db.high

/-- What a write leaves under each key: the same row, a row with a number above `h` that is a
tombstone if the row is gone, or nothing in the place of a tombstone that is not above the floor. -/
structure Advances (h : ℕ) (db db' : Db) : Prop where
  floor_le : db.floor ≤ db'.floor
  row : ∀ (t : DurableTable) (k : String),
    ((db'.rows t)[k]? = (db.rows t)[k]? ∧ (db'.tables t)[k]? = (db.tables t)[k]?) ∨
    (∃ e, (db'.rows t)[k]? = some e ∧ h < e.seq ∧ (k ∈ db'.tables t ↔ e.deleted = false)) ∨
    ((db'.rows t)[k]? = none ∧ (db'.tables t)[k]? = (db.tables t)[k]? ∧
      ∃ e, (db.rows t)[k]? = some e ∧ e.deleted = true ∧ e.seq ≤ db'.floor)

theorem Advances.refl (h : ℕ) (db : Db) : Advances h db db := ⟨le_rfl, fun _ _ => .inl ⟨rfl, rfl⟩⟩

theorem advances_insert (db : Db) (t : DurableTable) (id payload : String) :
    Advances db.high db ((db.setRow t id payload).put t id false 0) := by
  refine ⟨le_rfl, fun t' k => ?_⟩
  rw [tables_put]
  by_cases hk : t' = t ∧ k = id
  · obtain ⟨rfl, rfl⟩ := hk
    refine .inr (.inl ⟨_, rows_put_self, Nat.lt_succ_self _, iff_of_true ?_ rfl⟩)
    rw [← isSome_getElem?_iff_mem, tables_setRow, if_pos ⟨rfl, rfl⟩]
    rfl
  · refine .inl ⟨rows_put_ne hk, ?_⟩
    rw [tables_setRow, if_neg hk]

/-- An update in place, as seen before the tombstone of the old id is made. -/
theorem advances_update (db : Db) (t : DurableTable) (id id' payload : String) (t' : DurableTable)
    (k : String) (hk : k = id → id = id') :
    let live := ((db.removeRow t id).setRow t id' payload).put t id' false 0
    ((live.rows t')[k]? = (db.rows t')[k]? ∧ (live.tables t')[k]? = (db.tables t')[k]?) ∨
    (∃ e, (live.rows t')[k]? = some e ∧ db.high < e.seq ∧
        (k ∈ live.tables t' ↔ e.deleted = false)) := by
  intro live
  by_cases hk' : t' = t ∧ k = id'
  · obtain ⟨rfl, rfl⟩ := hk'
    refine .inr ⟨_, rows_put_self, Nat.lt_succ_self _, iff_of_true ?_ rfl⟩
    rw [tables_put, ← isSome_getElem?_iff_mem, tables_setRow, if_pos ⟨rfl, rfl⟩]
    rfl
  · refine .inl ⟨rows_put_ne hk', ?_⟩
    rw [tables_put, tables_setRow, if_neg hk', tables_removeRow, if_neg]
    rintro ⟨rfl, rfl⟩
    exact hk' ⟨rfl, hk rfl⟩

theorem advances_delete (db : Db) (t : DurableTable) (id : String) (now : ℤ) :
    Advances (db.prune now).high db (((db.removeRow t id).prune now).put t id true now) := by
  refine ⟨Nat.le_max_left _ _, fun t' k => ?_⟩
  rw [tables_put]
  have htables : (((db.removeRow t id).prune now).tables t')[k]? =
    if t' = t ∧ k = id then none else (db.tables t')[k]? := tables_removeRow
  by_cases hk : t' = t ∧ k = id
  · obtain ⟨rfl, rfl⟩ := hk
    refine .inr
      (.inl ⟨_, rows_put_self, Nat.lt_succ_self _, iff_of_false (fun hmem => ?_) (by simp)⟩)
    rw [← isSome_getElem?_iff_mem, htables, if_pos ⟨rfl, rfl⟩] at hmem
    cases hmem
  · rw [htables, if_neg hk, rows_put_ne hk]
    rcases prune_cases db now t' k with heq | ⟨hnone, hold⟩
    · exact .inl ⟨heq, rfl⟩
    · exact .inr (.inr ⟨hnone, rfl, hold⟩)

/-- A write changes rows only with numbers above its base. -/
theorem write_advances (db : Db) (w : Write) : Advances (db.base w) db (db.write w).1 := by
  cases w with
  | insert t id payload =>
    rw [write]
    split
    · exact .refl _ _
    · exact advances_insert db t id payload
  | update t id id' payload now =>
    rw [write]
    split
    · exact .refl _ _
    next hok =>
    split
    · next heq =>
      exact ⟨le_rfl, fun t' k =>
        (advances_update db t id id' payload t' k fun _ => heq).imp_right .inl⟩
    next hne =>
    refine ⟨le_rfl, fun t' k => ?_⟩
    rw [tables_put]
    by_cases hk : t' = t ∧ k = id
    · -- the old id becomes a tombstone
      obtain ⟨rfl, rfl⟩ := hk
      refine .inr (.inl ⟨_, rows_put_self, ?_, iff_of_false (fun hmem => ?_) (by simp)⟩)
      · rw [next, high_put]
        exact Nat.lt_succ_of_lt (Nat.lt_succ_self _)
      · rw [tables_put, ← isSome_getElem?_iff_mem, tables_setRow, if_neg fun h => hne h.2,
          tables_removeRow, if_pos ⟨rfl, rfl⟩] at hmem
        cases hmem
    · rw [rows_put_ne hk]
      by_cases hid : k = id
      · -- another table
        subst hid
        have ht : t' ≠ t := fun ht => hk ⟨ht, rfl⟩
        refine .inl ⟨rows_put_ne fun h => ht h.1, ?_⟩
        rw [tables_put, tables_setRow, if_neg fun h => ht h.1, tables_removeRow, if_neg hk]
      · exact (advances_update db t id id' payload t' k fun h => absurd h hid).imp_right .inl
  | delete t id now =>
    rw [write, base]
    by_cases hmem : id ∈ db.tables t
    · rw [if_neg (not_not.2 hmem), if_pos hmem]
      exact advances_delete db t id now
    · rw [if_pos hmem]
      exact .refl _ _
  | entity | document => exact ⟨le_rfl, fun _ _ => .inl ⟨rfl, rfl⟩⟩

/-- What a write gives out: increasing numbers above `h` that the counter then includes; the tables
hold no other new ones. -/
structure Gives (h : ℕ) (db db' : Db) (ns : List ℕ) : Prop where
  sorted : ns.Pairwise (· > ·)
  above : ∀ n ∈ ns, h < n
  le_high : ∀ n ∈ ns, n ≤ db'.high
  stored : ∀ n ∈ db'.numbers, n ∈ ns ∨ n ∈ db.numbers
  mono : h ≤ db'.high

theorem Gives.refl (db : Db) : Gives db.high db db [] :=
  ⟨.nil, fun _ h => (nomatch h), fun _ h => (nomatch h), fun _ => .inr, le_rfl⟩

theorem Gives.one (hsub : ∀ n ∈ db.numbers, n ∈ db₀.numbers) (hmem : db.next ∈ db'.numbers)
    (hstored : ∀ n ∈ db'.numbers, n = db.next ∨ n ∈ db.numbers) :
    Gives db.high db₀ db' [db.next] := by
  refine ⟨pairwise_singleton _ _, fun n hn => ?_, fun n hn => ?_, fun n hn => ?_, ?_⟩
  · rw [mem_singleton.1 hn]
    exact Nat.lt_succ_self _
  · rw [mem_singleton.1 hn]
    exact Db.le_high hmem
  · exact (hstored n hn).imp mem_singleton.2 (hsub n)
  · exact (Nat.le_succ _).trans (Db.le_high hmem)

theorem Gives.append {ns ns' : List ℕ} (hone : Gives h db₀ db ns)
    (htwo : Gives db.high db db' ns') :
    Gives h db₀ db' (ns' ++ ns) := by
  refine ⟨pairwise_append.2 ⟨htwo.sorted, hone.sorted, fun n hn m hm => ?_⟩, ?_, ?_,
    fun n hn => ?_, ?_⟩
  · exact (hone.le_high m hm).trans_lt (htwo.above n hn)
  · exact forall_mem_append.2 ⟨fun n hn => hone.mono.trans_lt (htwo.above n hn), hone.above⟩
  · exact forall_mem_append.2 ⟨htwo.le_high, fun n hn => (hone.le_high n hn).trans htwo.mono⟩
  · rcases htwo.stored n hn with hn | hn
    · exact .inl (mem_append_left _ hn)
    · exact (hone.stored n hn).imp_left (mem_append_right _)
  · exact hone.mono.trans htwo.mono

theorem gives_put (db db₀ : Db) (hsub : ∀ n ∈ db.numbers, n ∈ db₀.numbers) (t : DurableTable)
    (id : String) (deleted : Bool) (time : ℤ) : Gives db.high db₀ (db.put t id deleted time)
        [db.next] :=
  .one hsub (mem_numbers.2 (.inr (.inr (.inr ⟨t, id, _, rows_put_self, rfl⟩)))) fun _ =>
    mem_numbers_of_put

/-- A number that is written to one of the other two tables. -/
theorem stored_insert {m : Std.ExtTreeMap (String × String) ℕ} {key : String × String}
    (hn : ∃ k : String × String, (m.insert key h)[k]? = some n) :
    n = h ∨ ∃ k : String × String, m[k]? = some n := by
  obtain ⟨k, hk⟩ := hn
  rcases Maps.of_getElem?_insert hk with ⟨-, rfl⟩ | ⟨-, hk⟩
  · exact .inl rfl
  · exact .inr ⟨k, hk⟩

/-- The numbers of a write are above its base. -/
theorem write_gives (db : Db) (w : Write) : Gives (db.base w) db (db.write w).1 (db.write w).2 := by
  cases w with
  | insert t id payload =>
    rw [write]
    split
    · exact .refl db
    · exact gives_put (db.setRow t id payload) db (fun _ hn => hn) t id false 0
  | update t id id' payload now =>
    rw [write]
    split
    · exact .refl db
    have hlive := gives_put ((db.removeRow t id).setRow t id' payload) db
      (fun _ hn => hn) t id' false 0
    split
    · exact hlive
    · exact hlive.append (gives_put _ _ (fun _ hn => hn) t id true now)
  | delete t id now =>
    rw [write, base]
    by_cases hmem : id ∈ db.tables t
    · rw [if_neg (not_not.2 hmem), if_pos hmem]
      exact gives_put ((db.removeRow t id).prune now) db
        (fun _ => mem_numbers_of_prune) t id true now
    · rw [if_pos hmem, if_neg hmem]
      exact .refl db
  | entity collection id =>
    refine .one (fun _ hn => hn) (mem_numbers.2 (.inl ⟨_, getElem?_insert_self⟩)) fun n hn => ?_
    rw [mem_numbers] at hn ⊢
    rcases hn with hn | hn
    · exact (stored_insert hn).imp_right .inl
    · exact .inr (.inr hn)
  | document scope id =>
    refine .one (fun _ hn => hn) (mem_numbers.2 (.inr (.inl ⟨_, getElem?_insert_self⟩)))
      fun n hn => ?_
    rw [mem_numbers] at hn ⊢
    rcases hn with hn | hn | hn
    · exact .inr (.inl hn)
    · exact (stored_insert hn).imp_right fun hn => .inr (.inl hn)
    · exact .inr (.inr (.inr hn))

/-- Only a delete can take numbers out of use. -/
theorem base_le_high (db : Db) (w : Write) : db.base w ≤ db.high := by
  unfold base
  split
  · split
    · exact high_prune_le db _
    · exact le_rfl
  · exact le_rfl

theorem base_eq_or_mem (db : Db) (w : Write) :
    db.base w = db.high ∨ db.base w + 1 ∈ (db.write w).2 := by
  cases w with
  | delete t id now =>
    rw [write, base]
    by_cases hmem : id ∈ db.tables t
    · rw [if_neg (not_not.2 hmem), if_pos hmem]
      exact .inr (mem_singleton.2 rfl)
    · exact .inl (if_neg hmem)
  | _ => exact .inl rfl

/-! ## The log of a table -/

/-- The rows of the main tables are those with a live entry, and numbers start at 1. -/
structure Numbered (db : Db) : Prop where
  live : ∀ (t : DurableTable) (k : String), k ∈ db.tables t ↔
    ∃ e : Entry, (db.rows t)[k]? = some e ∧ e.deleted = false
  pos : ∀ (t : DurableTable) (k : String) (e : Entry), (db.rows t)[k]? = some e → 0 < e.seq

def log (db : Db) (t : DurableTable) : Log String String where
  entry k := (db.rows t)[k]?.map fun e => (e.seq, if e.deleted then none else (db.tables t)[k]?)
  floor := db.floor

theorem log_entry_none (hk : (db.rows t)[k]? = none) : (db.log t).entry k = none := by
  simp [log, hk]

theorem log_entry_some (hk : (db.rows t)[k]? = some e) :
    (db.log t).entry k = some (e.seq, if e.deleted then none else (db.tables t)[k]?) := by
  simp [log, hk]

variable {e : ℕ × Option String}

theorem exists_of_log_entry (hk : (db.log t).entry k = some e) :
    ∃ e' : Entry, (db.rows t)[k]? = some e' ∧ e'.seq = e.1 := by
  obtain ⟨e', he', rfl⟩ := map_eq_some_iff.1 hk
  exact ⟨e', he', rfl⟩

theorem Numbered.live_log (hdb : Numbered db) (t : DurableTable) :
    (db.log t).live = fun k => (db.tables t)[k]? := by
  funext k
  have hlive := hdb.live t k
  match hk : (db.rows t)[k]? with
  | none =>
    rw [live_eq_none (log_entry_none hk)]
    refine (getElem?_eq_none fun hmem => ?_).symm
    obtain ⟨e, he, -⟩ := hlive.1 hmem
    rw [hk] at he
    cases he
  | some e =>
    rw [live_eq (log_entry_some hk)]
    split
    · next hdeleted =>
      refine (getElem?_eq_none fun hmem => ?_).symm
      obtain ⟨e', he', hlive'⟩ := hlive.1 hmem
      rw [hk] at he'
      cases he'
      rw [hdeleted] at hlive'
      cases hlive'
    · rfl

theorem Numbered.pos_log (hdb : Numbered db) (hk : (db.log t).entry k = some e) : 0 < e.1 := by
  obtain ⟨e', he', heq⟩ := exists_of_log_entry hk
  exact heq ▸ hdb.pos t k e' he'

theorem log_entry_eq_none_iff : (db.log t).entry k = none ↔ (db.rows t)[k]? = none :=
  map_eq_none_iff

theorem Numbered.log_tombstone_iff (hdb : Numbered db) : (db.log t).entry k = some (n, none) ↔
    ∃ e : Entry, (db.rows t)[k]? = some e ∧ e.deleted = true ∧ e.seq = n := by
  constructor
  · intro hk
    obtain ⟨e, he, heq⟩ := map_eq_some_iff.1 hk
    obtain ⟨rfl, hnone⟩ := Prod.mk.inj heq
    refine ⟨e, he, ?_, rfl⟩
    by_contra hdeleted
    rw [if_neg hdeleted] at hnone
    have hmem := (hdb.live t k).2 ⟨e, he, Bool.eq_false_iff.2 hdeleted⟩
    rw [← isSome_getElem?_iff_mem, hnone] at hmem
    cases hmem
  · rintro ⟨e, he, hdeleted, rfl⟩
    rw [log_entry_some he, if_pos hdeleted]

theorem log_le_high (hk : (db.log t).entry k = some e) : e.1 ≤ db.high := by
  obtain ⟨e', he', heq⟩ := exists_of_log_entry hk
  exact heq ▸ seq_le_high he'

theorem Advances.numbered (hadv : Advances h db db') (hdb : Numbered db) : Numbered db' := by
  refine ⟨fun t k => ?_, fun t k e he => ?_⟩
  · have hsame : (db'.tables t)[k]? = (db.tables t)[k]? → (k ∈ db'.tables t ↔ k ∈ db.tables t) :=
        fun heq => by
      rw [← isSome_getElem?_iff_mem, heq, isSome_getElem?_iff_mem]
    rcases hadv.row t k with ⟨hrow, htable⟩ | ⟨e, he, -, hlive⟩ | ⟨hnone, htable, e, he,
      hdeleted, -⟩
    · rw [hsame htable, hrow]
      exact hdb.live t k
    · rw [hlive, he]
      exact ⟨fun hlive => ⟨e, rfl, hlive⟩, fun ⟨_, heq, hlive⟩ => some.inj heq ▸ hlive⟩
    rw [hsame htable, hdb.live t k, hnone, he]
    refine iff_of_false ?_ fun ⟨_, heq, _⟩ => (nomatch heq)
    rintro ⟨_, heq, hlive⟩
    rw [← some.inj heq, hdeleted] at hlive
    cases hlive
  · rcases hadv.row t k with ⟨hrow, -⟩ | ⟨e', he', hlt, -⟩ | ⟨hnone, -⟩
    · exact hdb.pos t k e (hrow ▸ he)
    · cases he'.symm.trans he
      exact (Nat.zero_le _).trans_lt hlt
    · rw [hnone] at he
      cases he

theorem Advances.follows (hadv : Advances h db db') (t : DurableTable) :
    Log.Follows h (db.log t) (db'.log t) := by
  refine ⟨hadv.floor_le, fun k => ?_⟩
  rcases hadv.row t k with ⟨hrow, htable⟩ | ⟨e, he, hlt, -⟩ | ⟨hnone, -, e, he, hdeleted, hle⟩
  · left
    simp [log, hrow, htable]
  · exact .inr (.inl ⟨_, log_entry_some he, hlt⟩)
  · refine .inr (.inr ⟨log_entry_none hnone, .inr ⟨e.seq, ?_, hle⟩⟩)
    rw [log_entry_some he, if_pos hdeleted]

end Db

/-! ## What a reply does to a copy -/

open Db

def Reader.view (r : Reader) (k : String) : Option String := r.copy[k]?

section
variable {base : BTreeMap String} {mark : ℕ}

theorem getElem?_liveRows :
    (Maps.insertAll DurableRow.id DurableRow.payload base (db.liveRows t mark h))[k]? =
    putRows (fun k => base[k]?) mark h (db.log t) k := by
  rw [liveRows, getElem?_insertAll_select _ (perm_insertionSort _ _)]
  · unfold putRows
    match hk : (db.rows t)[k]? with
    | none => simp [log_entry_none hk]
    | some e =>
      rw [log_entry_some hk]
      cases hdeleted : e.deleted with
      | true => simp [hdeleted]
      | false =>
        cases (db.tables t)[k]? with
        | none => simp
        | some payload =>
          by_cases hn : mark < e.seq ∧ e.seq ≤ h
          · simp [hdeleted, hn]
          · simp [hdeleted, hn]
  · intro k e row hrow
    split at hrow
    · obtain ⟨payload, -, rfl⟩ := map_eq_some_iff.1 hrow
      rfl
    · cases hrow

theorem getElem?_tombstones (hdb : Numbered db) :
    (eraseAll DurableTombstone.id base (db.tombstones t mark h))[k]? =
    dropTombstones (fun k => base[k]?) mark h (db.log t) k := by
  rw [Db.tombstones, getElem?_eraseAll_select _ (perm_insertionSort _ _)]
  · unfold dropTombstones
    match hk : (db.rows t)[k]? with
    | none => simp [log_entry_none hk]
    | some e =>
      rw [log_entry_some hk]
      cases hdeleted : e.deleted with
      | true =>
        by_cases hn : mark < e.seq ∧ e.seq ≤ h
        · simp [hdeleted, hn]
        · simp [hdeleted, hn]
      | false =>
        obtain ⟨payload, hp⟩ := Maps.mem_iff_exists.1 ((hdb.live t k).2 ⟨e, hk, hdeleted⟩)
        simp [hdeleted, hp]
  · intro k e row hrow
    split at hrow
    · cases hrow
      rfl
    · cases hrow

end

theorem find?_name (t : DurableTable) : durableTables.find? (fun t' => t'.name == t.name) =
    some t := by
  cases t <;> decide

/-- A call takes the cursor to the highest number in use at its first statement; its reply is a
snapshot, or a delta if the cursor is between the floor and that number. -/
theorem Reader.callAt_cases (r : Reader) (m : Moments) (t : DurableTable)
    (hm : Numbered m.tombstones) :
    (r.callAt m t).cursor = some m.counter.high ∧
      (((∀ c, r.cursor = some c → ¬ (m.floor.floor ≤ c ∧ c ≤ m.counter.high)) ∧
          (r.callAt m t).view = snapshot m.counter.high (m.rows.log t)) ∨
        ∃ c, r.cursor = some c ∧ m.floor.floor ≤ c ∧ c ≤ m.counter.high ∧
          (r.callAt m t).view = putRows
            (dropTombstones r.view c m.counter.high (m.tombstones.log t)) c
            m.counter.high (m.rows.log t)) := by
  match hcursor : r.cursor.filter fun c => decide (m.floor.floor ≤ c ∧ c ≤ m.counter.high) with
  | none =>
    simp only [callAt, take, changesSinceAt, find?_name, hcursor]
    refine ⟨rfl, .inl ⟨fun c hc hin => ?_, funext fun k => ?_⟩⟩
    · rw [hc, filter_some, if_pos (decide_eq_true hin)] at hcursor
      cases hcursor
    · refine getElem?_liveRows.trans ?_
      rfl
  | some c =>
    simp only [callAt, take, changesSinceAt, find?_name, hcursor]
    obtain ⟨hc, hin⟩ := filter_eq_some_iff.1 hcursor
    refine ⟨rfl, .inr ⟨c, hc, (of_decide_eq_true hin).1, (of_decide_eq_true hin).2,
      funext fun k => ?_⟩⟩
    refine getElem?_liveRows.trans ?_
    simp only [getElem?_tombstones hm]
    rfl

end Layr.Durable
