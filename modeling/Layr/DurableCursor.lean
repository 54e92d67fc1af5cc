import Layr.DurableFeed

/-!
# The change number of a conversation

`transcript_change_cursor` is the highest number of the entries that count for an agent: the agent's
own, those of its items, and the tombstones of all items. It grows as long as no entry stops to
count. One stops when its item moves to another agent, when the id of a deleted item is used for an
item of another agent, or when a delete in any table prunes it; without such writes it grows
(`cursor_grows`).
-/

namespace Layr.Durable

open Tables Db Runs Option

/-- The agent column of a row of `runtime_items` is part of the row that the model keeps as its
payload. -/
def transcriptChangeCursor (agentOf : String → String) (db : Db) (agent : String) : ℕ :=
  max (((db.rows .agents)[agent]?.map (·.seq)).getD 0) (max
    (highest
      (select (fun id item => if agentOf item = agent then (db.rows .items)[id]?.map (·.seq)
      else none) (db.tables .items)))
    (highest (select (fun _ e => if e.deleted then some e.seq else none) (db.rows .items))))

variable (agentOf : String → String) (agent : String) (db db' : Db)

def Counts (t : DurableTable) (k : String) (e : Entry) : Prop :=
  (db.rows t)[k]? = some e ∧ (t = .agents ∧ k = agent ∨
    t = .items ∧ (e.deleted = true ∨ ∃ item, (db.tables .items)[k]? = some item ∧
      agentOf item = agent))

/-- No entry stops to count. -/
def Keeps : Prop := ∀ t k e, Counts agentOf agent db t k e → ∃ e', Counts agentOf agent db' t k e'

/-- The row of the agent, or an item of the agent, is another one, new or gone. -/
def Changes : Prop :=
  (db'.tables .agents)[agent]? ≠ (db.tables .agents)[agent]? ∨
    ∃ k : String, (db'.tables .items)[k]?.filter (agentOf · = agent) ≠ (db.tables .items)[k]?.filter
      (agentOf · = agent)

/-- The change number does not go back, and goes up with a change. -/
def Grows : Prop :=
  transcriptChangeCursor agentOf db agent ≤ transcriptChangeCursor agentOf db' agent ∧
    (Changes agentOf agent db db' → transcriptChangeCursor agentOf db agent <
      transcriptChangeCursor agentOf db' agent)

variable {agentOf agent db db'} {t : DurableTable} {k : String} {e : Entry} {w : Write}
  {tx : List Write}

theorem cursor_le_iff {n : ℕ} : transcriptChangeCursor agentOf db agent ≤ n ↔
    ∀ t k e, Counts agentOf agent db t k e → e.seq ≤ n := by
  simp only [transcriptChangeCursor, Nat.max_le, highest_le_iff, mem_select]
  constructor
  · rintro ⟨hagent, hitems, hdeleted⟩ t k e ⟨he, ⟨rfl, rfl⟩ | ⟨rfl, hdel | ⟨item, hitem, heq⟩⟩⟩
    · simpa [he] using hagent
    · exact hdeleted _ ⟨k, e, he, if_pos hdel⟩
    · exact hitems _ ⟨k, item, hitem, by rw [if_pos heq, he, map_some]⟩
  · refine fun h => ⟨?_, ?_, ?_⟩
    · cases he : (db.rows .agents)[agent]? with
      | none => exact Nat.zero_le _
      | some e => exact h _ _ e ⟨he, .inl ⟨rfl, rfl⟩⟩
    · rintro _ ⟨k, item, hitem, hn⟩
      obtain ⟨heq, hn⟩ := ite_none_right_eq_some.1 hn
      obtain ⟨e, he, rfl⟩ := map_eq_some_iff.1 hn
      exact h _ k e ⟨he, .inr ⟨rfl, .inr ⟨item, hitem, heq⟩⟩⟩
    · rintro _ ⟨k, e, he, hn⟩
      obtain ⟨hdel, ⟨⟩⟩ := ite_none_right_eq_some.1 hn
      exact h _ k e ⟨he, .inr ⟨rfl, .inl hdel⟩⟩

/-- An entry that a write leaves in its place is not above the highest number at the write. -/
theorem seq_le_base (hdb : Numbered db) (he : (db.rows t)[k]? = some e)
    (he' : ((db.write w).1.rows t)[k]? ≠ none) : e.seq ≤ db.base w := by
  cases w with
  | delete t' id now =>
    rw [base]
    by_cases hmem : id ∈ db.tables t'
    · rw [if_pos hmem]
      rcases prune_cases db now t k with heq | ⟨hnone, e₁, he₁, hdeleted, -⟩
      · exact seq_le_high (heq.trans he)
      -- a tombstone that is pruned is not the entry of the row that goes
      have hk : ¬(t = t' ∧ k = id) := by
        rintro ⟨rfl, rfl⟩
        obtain ⟨e₂, he₂, hlive⟩ := (hdb.live t k).1 hmem
        cases he₁.symm.trans he₂
        cases hdeleted.symm.trans hlive
      rw [write, if_neg (not_not.2 hmem), rows_put_ne hk] at he'
      exact absurd hnone he'
    · rw [if_neg hmem]
      exact seq_le_high he
  | _ => exact seq_le_high he

theorem filter_items_eq_none (hdb : Numbered db) (hno : ∀ e, ¬Counts agentOf agent db .items k e) :
    (db.tables .items)[k]?.filter (agentOf · = agent) = none := by
  refine filter_eq_none_iff.2 fun item hitem heq => ?_
  obtain ⟨e, he, -⟩ := (hdb.live .items k).1 (Maps.mem_iff_exists.2 ⟨item, hitem⟩)
  exact hno e ⟨he, .inr ⟨rfl, .inr ⟨item, hitem, of_decide_eq_true heq⟩⟩⟩

/-- A changed entry has a number above the base, which no entry that counted before is above. -/
theorem Keeps.grows (hdb : Numbered db) (h : Keeps agentOf agent db (db.write w).1) :
    Grows agentOf agent db (db.write w).1 := by
  have hadv := write_advances db w
  have hbase : ∀ {t k e}, Counts agentOf agent db t k e → e.seq ≤ db.base w := fun {t k e} he => by
    obtain ⟨e', he', -⟩ := h t k e he
    exact seq_le_base hdb he.1 (by rw [he']; exact some_ne_none e')
  have habove : ∀ t k e, Counts agentOf agent (db.write w).1 t k e → db.base w < e.seq → _ :=
      fun t k e he hlt =>
    (cursor_le_iff.2 fun _ _ _ => hbase).trans_lt (hlt.trans_le (cursor_le_iff.1 le_rfl t k e he))
  refine ⟨cursor_le_iff.2 fun t k e he => ?_, ?_⟩
  · obtain ⟨e', he'⟩ := h t k e he
    refine le_trans ?_ (cursor_le_iff.1 le_rfl t k e' he')
    rcases hadv.row t k with ⟨hrow, -⟩ | ⟨e₁, he₁, hlt, -⟩ | ⟨hnone, -⟩
    · rw [some.inj (he.1.symm.trans (hrow.symm.trans he'.1))]
    · cases he₁.symm.trans he'.1
      exact (hbase he).trans hlt.le
    · cases hnone.symm.trans he'.1
  rintro (hne | ⟨k, hne⟩)
  · rcases hadv.row .agents agent with ⟨-, htable⟩ | ⟨e, he, hlt, -⟩ | ⟨-, htable, -⟩
    · exact absurd htable hne
    · exact habove _ _ e ⟨he, .inl ⟨rfl, rfl⟩⟩ hlt
    · exact absurd htable hne
  · rcases hadv.row .items k with ⟨-, htable⟩ | ⟨e, he, hlt, -⟩ | ⟨-, htable, -⟩
    · exact absurd (congrArg _ htable) hne
    · refine habove .items k e (by_contra fun hnot => hne ?_) hlt
      have hno : ∀ e', ¬Counts agentOf agent (db.write w).1 .items k e' := fun e' he' =>
        hnot (some.inj (he'.1.symm.trans he) ▸ he')
      rw [filter_items_eq_none (hadv.numbered hdb) hno, filter_items_eq_none hdb]
      intro e₀ he₀
      obtain ⟨e', he'⟩ := h _ _ _ he₀
      exact hno e' he'
    · exact absurd (congrArg _ htable) hne

/-! ## Writes that keep the entries -/

/-- An item of the agent stays one, the id of a deleted item is used again for no other agent, and
no row is deleted when an entry that counts is old enough to be pruned. -/
def Careful (agentOf : String → String) (agent : String) (db : Db) : Write → Prop
  | .insert .items id payload | .update .items _ id payload _ =>
    (∃ e, Counts agentOf agent db .items id e) → agentOf payload = agent
  | .delete t id now =>
    id ∈ db.tables t → ∀ t k e, Counts agentOf agent db t k e → expired now e = false
  | _ => True

theorem Counts.of_same (he : Counts agentOf agent db t k e)
    (hrow : (db'.rows t)[k]? = (db.rows t)[k]?) (htable : (db'.tables t)[k]? = (db.tables t)[k]?) :
    Counts agentOf agent db' t k e := by
  refine ⟨hrow.trans he.1, he.2.imp_right ?_⟩
  rintro ⟨rfl, hcounts⟩
  exact ⟨rfl, htable.symm ▸ hcounts⟩

/-- An entry that takes the place of one that counts does too, if it is a tombstone or the entry of
an item of the agent. -/
theorem Counts.of_put {e' : Entry} (he : Counts agentOf agent db t k e)
    (hrow : (db'.rows t)[k]? = some e')
    (hitem : t = .items → e'.deleted = true ∨ ∃ item, (db'.tables .items)[k]? = some item ∧
    agentOf item = agent) :
    Counts agentOf agent db' t k e' :=
  ⟨hrow, he.2.imp_right fun h => ⟨h.1, hitem h.1⟩⟩

/-- A careful write takes no entry out of the count: where it writes one, it is a tombstone or an
item of the agent, and what it prunes did not count. -/
theorem Careful.keeps (h : Careful agentOf agent db w) : Keeps agentOf agent db (db.write w).1 := by
  intro t k e he
  cases w with
  | insert t' id payload =>
    rw [write]
    split
    · exact ⟨e, he⟩
    by_cases hk : t = t' ∧ k = id
    · obtain ⟨rfl, rfl⟩ := hk
      refine ⟨_, he.of_put rows_put_self fun ht => ?_⟩
      subst ht
      exact .inr ⟨payload, by rw [tables_put, tables_setRow, if_pos ⟨rfl, rfl⟩], h ⟨e, he⟩⟩
    · exact ⟨e, he.of_same (rows_put_ne hk) (by rw [tables_put, tables_setRow, if_neg hk])⟩
  | update t' id id' payload now =>
    rw [write]
    split
    · exact ⟨e, he⟩
    by_cases hk : t = t' ∧ k = id'
    · obtain ⟨rfl, rfl⟩ := hk
      have hnew : t = .items → agentOf payload = agent := by
        rintro rfl
        exact h ⟨e, he⟩
      have htable : (((db.removeRow t id).setRow t k payload).tables t)[k]? = some payload := by
        rw [tables_setRow, if_pos ⟨rfl, rfl⟩]
      split
      · exact ⟨_, he.of_put rows_put_self fun ht => .inr ⟨payload, ht ▸ htable, hnew ht⟩⟩
      next hne =>
      refine ⟨_, he.of_put ((rows_put_ne fun h => hne h.2.symm).trans rows_put_self) fun ht => ?_⟩
      exact .inr ⟨payload, ht ▸ htable, hnew ht⟩
    by_cases hold : t = t' ∧ k = id
    · -- the old id becomes a tombstone
      obtain ⟨rfl, rfl⟩ := hold
      rw [if_neg fun h => hk ⟨rfl, h⟩]
      exact ⟨_, he.of_put rows_put_self fun _ => .inl rfl⟩
    have htable : (((db.removeRow t' id).setRow t' id' payload).tables t)[k]? =
        (db.tables t)[k]? := by
      rw [tables_setRow, if_neg hk, tables_removeRow, if_neg hold]
    split
    · exact ⟨e, he.of_same (rows_put_ne hk) htable⟩
    · exact ⟨e, he.of_same ((rows_put_ne hold).trans (rows_put_ne hk)) htable⟩
  | delete t' id now =>
    rw [write]
    by_cases hmem : id ∈ db.tables t'
    · rw [if_neg (not_not.2 hmem)]
      by_cases hk : t = t' ∧ k = id
      · obtain ⟨rfl, rfl⟩ := hk
        exact ⟨_, he.of_put rows_put_self fun _ => .inl rfl⟩
      · refine ⟨e, he.of_same ?_ (tables_removeRow.trans (if_neg hk))⟩
        rw [rows_put_ne hk, rows_prune]
        exact (congrArg _ he.1).trans
          ((filter_eq_some_iff.2 ⟨rfl, by rw [h hmem t k e he]; rfl⟩).trans he.1.symm)
    · rw [if_pos hmem]
      exact ⟨e, he⟩
  | entity | document => exact ⟨e, he⟩

def Steady (agentOf : String → String) (agent : String) : Db → List Write → Prop :=
  Along (fun db w => (db.write w).1) (Careful agentOf agent)

theorem Steady.grows (hdb : Numbered db) (h : Steady agentOf agent db tx) :
    Grows agentOf agent db (writes db tx) := by
  induction tx generalizing db with
  | nil => exact ⟨le_rfl, fun hchange => absurd hchange (by simp [Changes, writes])⟩
  | cons w tx ih =>
    obtain ⟨hle, hlt⟩ := h.1.keeps.grows hdb
    obtain ⟨hle', hlt'⟩ := ih ((write_advances db w).numbered hdb) h.2
    refine ⟨hle.trans hle', fun hchange => ?_⟩
    by_cases hfirst : Changes agentOf agent db (db.write w).1
    · exact (hlt hfirst).trans_le hle'
    · simp only [Changes, not_or, not_exists, ne_eq, not_not] at hfirst
      refine hle.trans_lt (hlt' ?_)
      unfold Changes
      rw [hfirst.1]
      simp only [hfirst.2]
      exact hchange

/-- In every run of careful writes the change number of an agent does not go back over any
transaction, and goes up over one that changes the agent or its items. -/
theorem cursor_grows (agentOf : String → String) (agent : String) (hdb : Numbered db)
    (ws tx : List Write) (h : Steady agentOf agent db (ws ++ tx)) :
    Grows agentOf agent (writes db ws) (writes (writes db ws) tx) := by
  obtain ⟨hws, htx⟩ := along_append.1 h
  exact Steady.grows (hws.invariant hdb fun db w hdb _ => (write_advances db w).numbered hdb) htx

def firstThree (item : String) : String := String.ofList (item.toList.take 3)

def twoItems : List Write :=
  [.insert .agents "ada" "", .insert .items "i" "ada 1", .insert .items "j" "bob 1",
    .update .items "i" "i" "ada 2" 1, .delete .items "j" 2]

theorem cursor_grows_two_items :
    let db := writes emptyDb twoItems
    let db' := writes db [.insert .items "j" "ada 3", .delete .items "i" 3]
    Grows firstThree "ada" db db' ∧ transcriptChangeCursor firstThree db "ada" = 5 ∧
      transcriptChangeCursor firstThree db' "ada" = 7 := by
  have hyoung : ∀ {db : Db} {now : ℤ},
    (∀ t ∈ durableTables, ∀ p ∈ (db.rows t).toList, expired now p.2 = false) →
      ∀ t k e, Counts firstThree "ada" db t k e → expired now e = false := fun h t k e he =>
    h t (mem_durableTables t) (k, e) (Std.ExtTreeMap.mem_toList_iff_getElem?_eq_some.2 he.1)
  refine ⟨cursor_grows firstThree "ada" numbered_emptyDb twoItems
    _ ⟨trivial, ?_, ?_, ?_, ?_, ?_, ?_, trivial⟩, ?_⟩
  · exact fun _ => by decide
  · rintro ⟨e, he, -⟩
    exact absurd (he.symm.trans (by decide +kernel)) (some_ne_none e)
  · exact fun _ => by decide
  · exact fun _ => hyoung (by decide +kernel)
  · exact fun _ => by decide
  · exact fun _ => hyoung (by decide +kernel)
  · decide +kernel

/-- The change number of an agent goes back when its last item moves to another agent. -/
theorem moved_item_lowers_cursor :
    let db := writes emptyDb [.insert .items "i" "ada"]
    let db' := writes db [.update .items "i" "i" "bob" 0]
    Numbered emptyDb ∧ transcriptChangeCursor id db "ada" = 1 ∧
        transcriptChangeCursor id db' "ada" = 0 :=
  ⟨numbered_emptyDb, by decide +kernel⟩

end Layr.Durable
