import Layr.Entities

/-!
# What the writers of sync entities do

One lemma for each writer says what it does to the table, the floor and the counter
(`touches_upsert`, `prune_spec`); `Sound` is what they keep: each entity has a number of its own,
the floor is not above the highest number, and the counter of the tombstones is right. That counter
is what keeps the highest number in the table: a batch of old tombstones never takes the newest one
(`prune_batch`).
-/

namespace Layr.Entities

open Tables List Option

variable {env : Env} {db db' : Db} {key k : Key} {old new e : Entity} {n : ℕ}

namespace Db

/-! ## The numbers -/

theorem mem_seqs : n ∈ db.seqs ↔ ∃ (k : Key) (e : Entity), db.entities[k]? = some e ∧ e.seq = n :=
  mem_column

theorem mem_entitySeqs : n ∈ db.entitySeqs ↔
    ∃ (k : Key) (e : Entity), db.entities[k]? = some e ∧ isTranscript k.1 = false ∧ e.seq = n := by
  rw [entitySeqs, mem_select]
  refine exists_congr fun k => exists_congr fun e => and_congr_right fun _ => ?_
  cases isTranscript k.1 <;> simp

theorem seq_le_highest (h : db.entities[k]? = some e) : e.seq ≤ highest db.seqs :=
  le_highest (mem_seqs.2 ⟨k, e, h, rfl⟩)

theorem seq_le_entitySequence (h : db.entities[k]? = some e) (hk : isTranscript k.1 = false) :
    e.seq ≤ db.entitySequence :=
  le_highest (mem_entitySeqs.2 ⟨k, e, h, hk, rfl⟩)

theorem entitySequence_le_iff : db.entitySequence ≤ n ↔
    ∀ (k : Key) (e : Entity), db.entities[k]? = some e → isTranscript k.1 = false → e.seq ≤ n := by
  rw [entitySequence, highest_le_iff]
  constructor
  · intro h k e he hk
    exact h _ (mem_entitySeqs.2 ⟨k, e, he, hk, rfl⟩)
  · intro h x hx
    obtain ⟨k, e, he, hk, rfl⟩ := mem_entitySeqs.1 hx
    exact h k e he hk

/-- The next number is above all entities, whatever the other tables of the counter hold. -/
theorem entitySequence_lt_next (db : Db) (others : ℕ) :
    db.entitySequence < db.nextSequence others := by
  refine Nat.lt_succ_of_le
    ((entitySequence_le_iff.2 fun k e he _ => ?_).trans (Nat.le_max_left _ _))
  exact seq_le_highest he

/-! ## The triggers touch the fences and the provenance of their row -/

/-- A trigger raises fences, and changes nothing else but the provenance of its row. -/
structure Touches (key : Key) (db db' : Db) : Prop where
  entities : db'.entities = db.entities
  floor : db'.floor = db.floor
  count : db'.count = db.count
  provenance : ∀ k ≠ key, db'.provenance k = db.provenance k
  fences : ∀ f, db.fences f ≤ db'.fences f

namespace Touches

theorem refl (key : Key) (db : Db) : Touches key db db :=
  ⟨rfl, rfl, rfl, fun _ _ => rfl, fun _ => le_rfl⟩

theorem trans {db'' : Db} (h : Touches key db db') (h' : Touches key db' db'') :
    Touches key db db'' :=
  ⟨h'.entities.trans h.entities, h'.floor.trans h.floor, h'.count.trans h.count,
    fun k hk => (h'.provenance k hk).trans (h.provenance k hk),
    fun f => (h.fences f).trans (h'.fences f)⟩

theorem raise (key : Key) (db : Db) (keys : List Fence) (seq : ℕ) :
    Touches key db (db.raise keys seq) := by
  refine ⟨rfl, rfl, rfl, fun _ _ => rfl, fun f => ?_⟩
  simp only [Db.raise]
  split
  · exact Nat.le_max_left _ _
  · exact le_rfl

theorem setProvenance (key : Key) (db : Db) (fences : List Fence) :
    Touches key db { db with provenance := Function.update db.provenance key fences } :=
  ⟨rfl, rfl, rfl, fun _ hk => Function.update_of_ne hk _ _, fun _ => le_rfl⟩

end Touches

section
variable (env db key old new)

theorem touches_visibilityInsert : Touches key db (visibilityInsert env db key new) := by
  unfold visibilityInsert
  split
  · exact .raise ..
  · exact .refl ..

theorem touches_visibilityUpdate : Touches key db (visibilityUpdate env db key old new) := by
  unfold visibilityUpdate
  simp only
  split
  · exact (Touches.raise key db _ _).trans (.raise ..)
  · exact .refl ..

theorem touches_tombstoneUpdate : Touches key db (tombstoneUpdate env db key old new) := by
  unfold tombstoneUpdate
  simp only
  split
  · exact .refl ..
  split
  · split
    · exact .refl ..
    · exact .setProvenance ..
  · split
    · exact (Touches.raise key db _ _).trans (.setProvenance ..)
    · exact .setProvenance ..

end

/-- The table after a write, with the right counter, before the other triggers. -/
def written (db : Db) (key : Key) (new : Entity) : Db :=
  { db with
    entities := db.entities.insert key new
    count := db.count.map
      (· + (countRows counts (db.entities.insert key new) - countRows counts db.entities : ℤ)) }

theorem written_eq {d : ℤ}
    (hd : (countRows counts (db.entities.insert key new) : ℤ) = countRows counts db.entities + d) :
    written db key new = ({ db with entities := db.entities.insert key new } : Db).addCount d := by
  have hdiff :
      (countRows counts (db.entities.insert key new) - countRows counts db.entities : ℤ) = d := by
    omega
  rw [written, hdiff, addCount]

theorem addCount_zero (db : Db) : db.addCount 0 = db := by
  simp [addCount]

/-- The trigger on inserts keeps the counter: a new tombstone is one more. -/
theorem counted_insert (h : db.entities[key]? = none) : written db key new =
    if counts key new then ({ db with entities := db.entities.insert key new } : Db).addCount 1
    else { db with entities := db.entities.insert key new } := by
  have hcount := countRows_insert (p := counts) (m := db.entities) (k := key) (v := new)
  rw [erase_eq_self h] at hcount
  split
  · next hnew => exact written_eq (by simp [hcount, hnew])
  · next hnew => rw [written_eq (d := 0) (by simp [hcount, hnew]), addCount_zero]

/-- The trigger on updates changes the counter when a row becomes a tombstone or stops to be one. -/
theorem counted_update (h : db.entities[key]? = some old) : written db key new =
    if counts key old = counts key new then { db with entities := db.entities.insert key new }
    else ({ db with entities := db.entities.insert key new } : Db).addCount
        (if counts key new then 1 else -1) := by
  have hcount := countRows_insert (p := counts) (m := db.entities) (k := key) (v := new)
  have hold := countRows_erase (p := counts) h
  split
  · next heq =>
    rw [written_eq (d := 0) (by rw [hcount, hold, heq, Int.add_zero]), addCount_zero]
  next hne =>
  refine written_eq ?_
  cases hnew : counts key new with
  | true =>
    have hold' : counts key old = false := by simpa [hnew] using hne
    simp [hcount, hold, hnew, hold']
  | false =>
    have hold' : counts key old = true := by simpa [hnew] using hne
    simp only [hcount, hnew, Bool.false_eq_true, if_false, add_zero, hold, hold', if_true,
      Int.natCast_add, Int.cast_ofNat_Int]
    omega

/-- A write of a new key, as the triggers on inserts leave it. -/
theorem upsert_insert (h : db.entities[key]? = none) :
    upsert env db key new = visibilityInsert env (written db key new) key new := by
  rw [counted_insert h]
  simp [upsert, h]

/-- A write of a key that is there, as the triggers on updates leave it. -/
theorem upsert_update (h : db.entities[key]? = some old) : upsert env db key new =
    tombstoneUpdate env (visibilityUpdate env (written db key new) key old new) key old new := by
  rw [counted_update h]
  simp [upsert, h]

/-- A write puts the row, keeps the counter, and for the rest touches fences and provenance. -/
theorem touches_upsert (env : Env) (db : Db) (key : Key) (new : Entity) :
    Touches key (written db key new) (upsert env db key new) := by
  match h : db.entities[key]? with
  | none =>
    rw [upsert_insert h]
    exact touches_visibilityInsert ..
  | some old =>
    rw [upsert_update h]
    exact (touches_visibilityUpdate ..).trans (touches_tombstoneUpdate ..)

/-! ## What the writers keep -/

/-- Each entity has a number of its own, the floor is not above the highest number, and the counter
is right. -/
structure Sound (db : Db) : Prop where
  pos : ∀ (k : Key) (e : Entity), db.entities[k]? = some e → 0 < e.seq
  inj : ∀ (k k' : Key) (e e' : Entity), db.entities[k]? = some e → db.entities[k']? = some e' →
    e.seq = e'.seq → k = k'
  floor_le : db.floor ≤ db.entitySequence
  counted : ∀ n : ℤ, db.count = some n → n = countRows counts db.entities

theorem sound_empty : Sound empty := by
  refine ⟨fun k e h => ?_, fun k k' e e' h => ?_, Nat.zero_le _, fun n h => ?_⟩
  · cases getElem?_empty.symm.trans h
  · cases getElem?_empty.symm.trans h
  · cases h
    rfl

/-- A write of an entity with the next number, and what the triggers add to it. -/
structure Put (env : Env) (db : Db) (key : Key) (new : Entity) (db' : Db) : Prop where
  next : ∃ others, new.seq = db.nextSequence others
  eq : db' = upsert env db key new

/-- A put that changes nothing is left out. Any other one takes the next number. -/
theorem put_cases (env : Env) (db : Db) (collection id payload : String) (deleted : Bool)
    (others : ℕ) :
    putEntityPayload env db collection id payload deleted others = db ∨
      ∃ new, new.payload = some payload ∧ new.deleted = deleted ∧
        Put env db (collection, id) new
          (putEntityPayload env db collection id payload deleted others) := by
  unfold putEntityPayload
  simp only
  split
  · split
    · exact .inl rfl
    · exact .inr ⟨_, rfl, rfl, ⟨others, rfl⟩, rfl⟩
  · exact .inr ⟨_, rfl, rfl, ⟨others, rfl⟩, rfl⟩

namespace Put

section

variable (h : Put env db key new db')
include h

/-- The number is above those of all entities. -/
theorem above (he : db.entities[k]? = some e) : e.seq < new.seq := by
  obtain ⟨others, heq⟩ := h.next
  rw [heq]
  exact Nat.lt_succ_of_le ((seq_le_highest he).trans (Nat.le_max_left _ _))

theorem lt_seq : db.entitySequence < new.seq := by
  obtain ⟨others, heq⟩ := h.next
  exact heq ▸ entitySequence_lt_next db others

theorem entities : db'.entities = db.entities.insert key new :=
  h.eq ▸ (touches_upsert env db key new).entities

theorem getElem_self : db'.entities[key]? = some new := by
  rw [h.entities, getElem?_insert_self]

theorem getElem_ne (hk : k ≠ key) : db'.entities[k]? = db.entities[k]? := by
  rw [h.entities, Maps.getElem?_insert_ne (Ne.symm hk)]

theorem floor : db'.floor = db.floor := h.eq ▸ (touches_upsert env db key new).floor

theorem fences (f : Fence) : db.fences f ≤ db'.fences f :=
  h.eq ▸ (touches_upsert env db key new).fences f

theorem provenance (hk : k ≠ key) : db'.provenance k = db.provenance k :=
  h.eq ▸ (touches_upsert env db key new).provenance k hk

/-- The highest number does not fall: a row that is replaced has a lower one than the new row. -/
theorem entitySequence_le : db.entitySequence ≤ db'.entitySequence := by
  refine entitySequence_le_iff.2 fun k e he hk => ?_
  by_cases hkey : k = key
  · subst hkey
    exact (h.above he).le.trans (seq_le_entitySequence h.getElem_self hk)
  · exact seq_le_entitySequence ((h.getElem_ne hkey).trans he) hk

/-- A write keeps what the writers rely on. -/
theorem sound (hdb : Sound db) : Sound db' := by
  have hcases : ∀ (k : Key) (e : Entity), db'.entities[k]? = some e → (k = key ∧ e = new) ∨
      (k ≠ key ∧ db.entities[k]? = some e) := by
    intro k e he
    by_cases hkey : k = key
    · subst hkey
      exact .inl ⟨rfl, (some.inj (h.getElem_self.symm.trans he)).symm⟩
    · exact .inr ⟨hkey, (h.getElem_ne hkey).symm.trans he⟩
  refine ⟨fun k e he => ?_, fun k k' e e' he he' heq => ?_, ?_, fun n hn => ?_⟩
  · rcases hcases k e he with ⟨-, rfl⟩ | ⟨-, he⟩
    · exact (Nat.zero_le _).trans_lt h.lt_seq
    · exact hdb.pos k e he
  · rcases hcases k e he with ⟨rfl, rfl⟩ | ⟨hk, he⟩ <;>
      rcases hcases k' e' he' with ⟨rfl, rfl⟩ | ⟨hk', he'⟩
    · rfl
    · exact absurd heq (h.above he').ne'
    · exact absurd heq (h.above he).ne
    · exact hdb.inj k k' e e' he he' heq
  · rw [h.floor]
    exact hdb.floor_le.trans h.entitySequence_le
  · rw [h.eq, (touches_upsert env db key new).count] at hn
    obtain ⟨n₀, hn₀, rfl⟩ := map_eq_some_iff.1 hn
    rw [h.entities, hdb.counted n₀ hn₀]
    omega

end

end Put

/-! ## Pruning -/

def Counted (db : Db) : Prop := ∀ n : ℤ, db.count = some n → n = countRows counts db.entities

/-- The trigger on deletes keeps the counter. -/
theorem Counted.delete (h : Counted db) (key : Key) : Counted (db.delete key) := by
  unfold Db.delete
  split
  · exact h
  next old hold =>
  have hcount := countRows_erase (p := counts) hold
  by_cases hcounts : counts key old = true
  · rw [if_pos hcounts] at hcount
    simp only [hcounts, if_true]
    intro n hn
    obtain ⟨n₀, hn₀, rfl⟩ := map_eq_some_iff.1 hn
    rw [h n₀ hn₀, hcount, Int.natCast_add, Int.natCast_one, Int.add_neg_cancel_right]
    rfl
  · rw [if_neg hcounts] at hcount
    simp only [hcounts, Bool.false_eq_true, if_false]
    intro n hn
    rw [h n hn, hcount]
    rfl

/-- What is left when the rows of some keys are deleted. -/
theorem foldl_delete_spec (keys : List Key) (db : Db) :
    (keys.foldl delete db).floor = db.floor ∧ (keys.foldl delete db).fences = db.fences ∧
      (∀ k ∉ keys, (keys.foldl delete db).entities[k]? = db.entities[k]? ∧
        (keys.foldl delete db).provenance k = db.provenance k) ∧
      ∀ k ∈ keys, (keys.foldl delete db).entities[k]? = none := by
  have hdelete : ∀ (db : Db) (key : Key), (db.delete key).floor = db.floor ∧
    (db.delete key).fences = db.fences ∧
      (∀ k ≠ key, (db.delete key).entities[k]? = db.entities[k]? ∧
        (db.delete key).provenance k = db.provenance k) ∧
      (db.delete key).entities[key]? = none := by
    intro db key
    unfold Db.delete
    split
    · next hnone => exact ⟨rfl, rfl, fun _ _ => ⟨rfl, rfl⟩, hnone⟩
    refine ⟨?_, ?_, fun k hk => ⟨?_, ?_⟩, getElem?_erase_self⟩
    · split <;> rfl
    · split <;> rfl
    · split <;> exact getElem?_erase_ne (Ne.symm hk)
    · split <;> exact Function.update_of_ne hk _ _
  induction keys generalizing db with
  | nil => exact ⟨rfl, rfl, fun _ _ => ⟨rfl, rfl⟩, fun _ h => (nomatch h)⟩
  | cons key keys ih =>
    obtain ⟨hfloor, hfences, hkeep, hgone⟩ := ih (db.delete key)
    obtain ⟨hfloor', hfences', hkeep', hgone'⟩ := hdelete db key
    refine ⟨hfloor.trans hfloor', hfences.trans hfences', fun k hk => ?_, fun k hk => ?_⟩
    · rw [mem_cons, not_or] at hk
      exact ⟨(hkeep k hk.2).1.trans (hkeep' k hk.1).1, (hkeep k hk.2).2.trans (hkeep' k hk.1).2⟩
    · by_cases hmem : k ∈ keys
      · exact hgone k hmem
      · obtain rfl : k = key := by simpa [hmem] using hk
        exact (hkeep k hmem).1.trans hgone'

/-- A prune keeps a row with its provenance, or removes a tombstone that is then not above the
floor. -/
structure Prune (db db' : Db) : Prop where
  row : ∀ k : Key, (db'.entities[k]? = db.entities[k]? ∧ db'.provenance k = db.provenance k) ∨
    (db'.entities[k]? = none ∧ ∃ e, db.entities[k]? = some e ∧ e.deleted = true ∧ e.seq ≤ db'.floor)
  floor_le : db.floor ≤ db'.floor
  fences : db'.fences = db.fences
  sequence : db'.entitySequence = db.entitySequence
  counted : Counted db'
  floor_le_sequence : db'.floor ≤ db'.entitySequence

theorem mem_tombstoneOrder {x : Key × ℕ} : x ∈ db.tombstoneOrder ↔
    ∃ e, db.entities[x.1]? = some e ∧ counts x.1 e = true ∧ e.seq = x.2 := by
  rw [tombstoneOrder, mem_insertionSort, mem_select]
  constructor
  · rintro ⟨k, e, he, hx⟩
    split at hx
    · next hcounts =>
      cases hx
      exact ⟨e, he, hcounts, rfl⟩
    · cases hx
  · rintro ⟨e, he, hcounts, hseq⟩
    exact ⟨x.1, e, he, by rw [if_pos hcounts, hseq]⟩

theorem length_tombstoneOrder (db : Db) :
    db.tombstoneOrder.length = countRows counts db.entities := by
  rw [tombstoneOrder, length_insertionSort]
  exact length_select

theorem nodup_tombstoneOrder (db : Db) : (db.tombstoneOrder.map (·.1)).Nodup := by
  have hnd : ((select (fun key (e : Entity) => if counts key e then some (key, e.seq) else none)
      db.entities).map (·.1)).Nodup := by
    refine nodup_select fun k e a ha => ?_
    split at ha
    · cases ha
      rfl
    · cases ha
  exact ((perm_insertionSort _ _).map _).nodup_iff.2 hnd

/-- The oldest tombstones come first. -/
theorem pairwise_tombstoneOrder (db : Db) : db.tombstoneOrder.Pairwise fun a b => a.2 ≤ b.2 := by
  refine (pairwise_insertionSort _ _).imp fun {a b} hle => ?_
  rcases Prod.Lex.toLex_le_toLex.1 hle with hlt | ⟨heq, -⟩
  · exact hlt.le
  · exact heq.le

theorem Counted.removeTombstones (h : Counted db) (rows : List (Key × ℕ)) :
    Counted (db.removeTombstones rows) := by
  have hfold : Counted ((rows.map (·.1)).foldl Db.delete db) :=
    List.foldlRecOn _ _ h fun _ h key _ => h.delete key
  exact hfold

/-- A batch of the oldest tombstones that leaves one: the newest one stays. -/
theorem prune_batch (hdb : Sound db) (hcount : Counted db) {batch rest : List (Key × ℕ)}
    (heq : db.tombstoneOrder = batch ++ rest) (hne : rest ≠ []) :
    Prune db (db.removeTombstones batch) := by
  obtain ⟨-, hfences, hkeep, hgone⟩ := foldl_delete_spec (batch.map (·.1)) db
  have hfloor : ∀ x ∈ batch, x.2 ≤ (db.removeTombstones batch).floor := fun x hx =>
    (le_highest (mem_map_of_mem hx)).trans (Nat.le_max_right _ _)
  have hbatch := fun x (hx : x ∈ batch) => mem_tombstoneOrder.1 (heq ▸ mem_append_left _ hx)
  -- the last tombstone is not in the batch
  obtain ⟨last, hlast⟩ := exists_mem_of_ne_nil _ hne
  have hnewest : ∀ x ∈ batch, x.2 ≤ last.2 := fun x hx => by
    have hpairwise := pairwise_tombstoneOrder db
    rw [heq, pairwise_append] at hpairwise
    exact hpairwise.2.2 x hx last hlast
  have hnotin : last.1 ∉ batch.map (·.1) := fun hmem => by
    have hnd := nodup_tombstoneOrder db
    rw [heq, map_append, nodup_append] at hnd
    exact hnd.2.2 _ hmem _ (mem_map_of_mem hlast) rfl
  obtain ⟨e, he, hcounts, hseq⟩ := mem_tombstoneOrder.1 (heq ▸ mem_append_right _ hlast)
  have htranscript : isTranscript last.1.1 = false := by
    rw [counts, Bool.and_eq_true, Bool.not_eq_true'] at hcounts
    exact hcounts.2
  have hstays : last.2 ≤ (db.removeTombstones batch).entitySequence :=
    hseq ▸ seq_le_entitySequence ((hkeep _ hnotin).1.trans he) htranscript
  have hrow : ∀ k : Key, ((db.removeTombstones batch).entities[k]? = db.entities[k]? ∧
        (db.removeTombstones batch).provenance k = db.provenance k) ∨
      ((db.removeTombstones batch).entities[k]? = none ∧ ∃ x ∈ batch, x.1 = k) := by
    intro k
    by_cases hk : k ∈ batch.map (·.1)
    · exact .inr ⟨hgone k hk, mem_map.1 hk⟩
    · exact .inl (hkeep k hk)
  have hsequence : (db.removeTombstones batch).entitySequence = db.entitySequence := by
    refine le_antisymm (entitySequence_le_iff.2 fun k e he hk => ?_)
      (entitySequence_le_iff.2 fun k e he hk => ?_)
    · rcases hrow k with ⟨heq, -⟩ | ⟨hnone, -⟩
      · exact seq_le_entitySequence (heq ▸ he) hk
      · cases hnone.symm.trans he
    · rcases hrow k with ⟨heq, -⟩ | ⟨-, x, hx, rfl⟩
      · exact seq_le_entitySequence (heq.trans he) hk
      · obtain ⟨e', he', -, hseq'⟩ := hbatch x hx
        cases he'.symm.trans he
        exact hseq' ▸ (hnewest x hx).trans hstays
  refine ⟨fun k => ?_, Nat.le_max_left _ _, hfences, hsequence, hcount.removeTombstones _, ?_⟩
  · refine (hrow k).imp_right ?_
    rintro ⟨hnone, x, hx, rfl⟩
    obtain ⟨e, he, hcounts, hseq⟩ := hbatch x hx
    exact ⟨hnone, e, he, (Bool.and_eq_true _ _ ▸ hcounts).1, hseq ▸ hfloor x hx⟩
  · refine Nat.max_le.2 ⟨hsequence ▸ hdb.floor_le, highest_le_iff.2 fun n hn => ?_⟩
    obtain ⟨x, hx, rfl⟩ := mem_map.1 hn
    exact (hnewest x hx).trans hstays

/-- What a run of the pruning does. -/
theorem prune_spec (hdb : Sound db) : Prune db (pruneEntityTombstones db) := by
  have hcount : db.count.getD db.tombstoneOrder.length = countRows counts db.entities := by
    match hn : db.count with
    | none => exact congrArg Nat.cast (length_tombstoneOrder db)
    | some n => exact hdb.counted n hn
  have hcounted : Counted { db with count := some (countRows counts db.entities : ℤ) } :=
    fun n hn => (some.inj hn).symm
  have hsound : Sound { db with count := some (countRows counts db.entities : ℤ) } :=
    { hdb with counted := hcounted }
  have hrefl : Prune db { db with count := some (countRows counts db.entities : ℤ) } :=
    ⟨fun _ => .inl ⟨rfl, rfl⟩, le_rfl, rfl, rfl, hcounted, hdb.floor_le⟩
  unfold pruneEntityTombstones
  simp only [hcount]
  split
  · exact hrefl
  next hexcess =>
  split
  · exact hrefl
  have hbatch := prune_batch hsound hcounted (take_append_drop (min (entityTombstonePruneBatch : ℤ)
    (countRows counts db.entities - entityTombstoneLimit)).toNat _).symm ?_
  · exact { __ := hbatch }
  have hlimit : (0 : ℤ) < entityTombstoneLimit := by decide
  rw [Ne, drop_eq_nil_iff, length_tombstoneOrder, not_le]
  show _ < countRows counts db.entities
  omega

/-- A prune keeps what the writers rely on: it only takes rows away. -/
theorem Prune.sound (h : Prune db db') (hdb : Sound db) : Sound db' := by
  have hold : ∀ (k : Key) (e : Entity), db'.entities[k]? = some e → db.entities[k]? = some e := by
    intro k e he
    rcases h.row k with ⟨heq, -⟩ | ⟨hnone, -⟩
    · exact heq ▸ he
    · cases hnone.symm.trans he
  exact ⟨fun k e he => hdb.pos k e (hold k e he),
    fun k k' e e' he he' => hdb.inj k k' e e' (hold k e he) (hold k' e' he'), h.floor_le_sequence,
      h.counted⟩

end Db

/-! ## Histories -/

inductive Write where
  | put (collection id payload : String) (deleted : Bool) (others : ℕ)
  | prune
deriving DecidableEq, Repr

def Db.write (env : Env) (db : Db) : Write → Db
  | .put collection id payload deleted others =>
      db.putEntityPayload env collection id payload deleted others
  | .prune => db.pruneEntityTombstones

def Db.writes (env : Env) (db : Db) (ws : List Write) : Db := ws.foldl (Db.write env) db

/-- A transaction changes nothing, or puts an entity, or prunes. -/
theorem Db.write_cases (env : Env) (hdb : Sound db) (w : Write) :
    db.write env w = db ∨ (∃ key new, Put env db key new (db.write env w)) ∨
      Prune db (db.write env w) := by
  cases w with
  | put collection id payload deleted others =>
    rcases put_cases env db collection id payload deleted others with heq | ⟨new, -, -, hput⟩
    · exact .inl heq
    · exact .inr (.inl ⟨_, new, hput⟩)
  | prune => exact .inr (.inr (prune_spec hdb))

/-- The rule for histories: what no transaction breaks holds at the end. -/
theorem Db.writes_induction (env : Env) {motive : Db → Prop} (hdb : Sound db) (hstart : motive db)
    (hput : ∀ db key new db', Sound db → motive db → Put env db key new db' → motive db')
    (hprune : ∀ db db', Sound db → motive db → Prune db db' → motive db') (ws : List Write) :
    Sound (db.writes env ws) ∧ motive (db.writes env ws) := by
  refine List.foldlRecOn (motive := fun db => Sound db ∧ motive db) _ _ ⟨hdb, hstart⟩
    fun db ⟨hdb, hm⟩ w _ => ?_
  rcases write_cases env hdb w with heq | ⟨key, new, h⟩ | h
  · rw [heq]
    exact ⟨hdb, hm⟩
  · exact ⟨h.sound hdb, hput db key new _ hdb hm h⟩
  · exact ⟨h.sound hdb, hprune db _ hdb hm h⟩

end Layr.Entities
