import Layr.DurableLog
import Layr.Lib.Runs

/-!
# Readers of the durable change source

A reader that calls between transactions holds the table after each call, and the numbers increase,
as long as no delete prunes the tombstone that holds the highest number in use: the next number is
computed from what the tables hold, so that number would be given again
(`increasing_and_current_iff`).

A call whose statements are read at different moments needs more: a tombstone that is pruned between
the look at the floor and the look at the tombstones is lost to the reader (`callAt_call_eq_iff`).
-/

namespace Layr.Durable

open Feed Db Runs Option

variable {db : Db} {t : DurableTable} {w : Write} {ws : List Write}

/-! ## Calls between transactions -/

/-- The database, the numbers given out so far, the last one first, and a reader of one table. -/
structure World where
  db : Db
  given : List ℕ
  reader : Reader

/-- The numbers that the database holds at the start count as given. -/
def World.start (db : Db) : World := ⟨db, db.numbers, .empty⟩

inductive Event where
  | write (w : Write)
  | call
deriving DecidableEq, Repr

def step (t : DurableTable) (s : World) : Event → World
  | .write w => { s with db := (s.db.write w).1, given := (s.db.write w).2 ++ s.given }
  | .call => { s with reader := s.reader.call s.db t }

/-- The numbers that an event gives out are above all numbers given before. -/
def Increases (s : World) : Event → Prop
  | .write w => (s.db.write w).2.Pairwise (· > ·) ∧ ∀ n ∈ (s.db.write w).2, ∀ m ∈ s.given, m < n
  | .call => True

def Current (t : DurableTable) (s : World) : Event → Prop
  | .write _ => True
  | .call => (s.reader.call s.db t).copy = s.db.tables t

/-- A delete that removes a row leaves the highest number in use when it prunes. -/
def KeepsCounter (s : World) : Event → Prop
  | .write (.delete t id now) => id ∈ s.db.tables t → (s.db.prune now).high = s.db.high
  | _ => True

variable {s : World}

theorem keepsCounter_write : KeepsCounter s (.write w) ↔ s.db.base w = s.db.high := by
  cases w with
  | delete t id now =>
    by_cases hmem : id ∈ s.db.tables t
    · simp [KeepsCounter, base, hmem]
    · simp [KeepsCounter, base, hmem]
  | _ => exact iff_of_true trivial rfl

/-- What every run keeps: the numbers that the database holds were given. -/
def Recorded (s : World) : Prop := ∀ n ∈ s.db.numbers, n ∈ s.given

theorem Recorded.step (hs : Recorded s) (e : Event) : Recorded (step t s e) := by
  cases e with
  | call => exact hs
  | write w =>
    intro n hn
    rcases (write_gives s.db w).stored n hn with hn | hn
    · exact List.mem_append_left _ hn
    · exact List.mem_append_right _ (hs n hn)

/-- A number above all given ones needs the highest one to be in use still. -/
theorem Increases.keepsCounter {e : Event} (hs : Recorded s) (hinc : Increases s e) :
    KeepsCounter s e := by
  cases e with
  | call => trivial
  | write w =>
    rw [keepsCounter_write]
    rcases base_eq_or_mem s.db w with heq | hmem
    · exact heq
    · refine le_antisymm (base_le_high s.db w) ?_
      rcases high_eq_zero_or_mem s.db with hzero | hhigh
      · exact hzero ▸ Nat.zero_le _
      · exact Nat.le_of_lt_succ (hinc.2 _ hmem _ (hs _ hhigh))

/-- The copy is the table as it was at some earlier moment, and the numbers given since are above
the cursor. -/
def Reader.Behind (r : Reader) (db : Db) (t : DurableTable) : Prop :=
  ∀ c, r.cursor = some c → c ≤ db.high ∧ ∃ a : Log String String, r.view = a.live ∧
    Log.Follows c a (db.log t)

/-- What a run keeps whose deletes keep the counter. -/
structure Sound (t : DurableTable) (s : World) : Prop where
  numbered : Numbered s.db
  given_le : ∀ n ∈ s.given, n ≤ s.db.high
  behind : s.reader.Behind s.db t

variable {r : Reader}

theorem copy_eq_iff (hdb : Numbered db) : r.copy = db.tables t ↔ r.view = (db.log t).live := by
  rw [hdb.live_log]
  refine ⟨fun heq => funext fun k => ?_, fun heq => ext_getElem? fun k => congrFun heq k⟩
  rw [Reader.view, heq]

/-- A call at one moment gives the table, if the delta it gets, if any, brings the copy there. -/
theorem call_copy_eq_iff (hdb : Numbered db) : (r.call db t).copy = db.tables t ↔
    ∀ c, r.cursor = some c → db.floor ≤ c → c ≤ db.high →
      patch r.view c (db.log t) = (db.log t).live := by
  rw [copy_eq_iff hdb]
  obtain ⟨-, ⟨hno, hsnapshot⟩ | ⟨c, hc, hfloor, hhigh, hdelta⟩⟩ :=
    r.callAt_cases ⟨db, db, db, db⟩ t hdb
  · refine iff_of_true ?_ fun c hc hfloor hhigh => absurd ⟨hfloor, hhigh⟩ (hno c hc)
    exact hsnapshot.trans (snapshot_eq_live fun k e he => ⟨hdb.pos_log he, log_le_high he⟩)
  have hpatch : (r.call db t).view = patch r.view c (db.log t) :=
    hdelta.trans (putRows_dropTombstones fun k e => log_le_high)
  rw [hpatch]
  refine ⟨fun heq c' hc' _ _ => ?_, fun h => h c hc hfloor hhigh⟩
  cases hc.symm.trans hc'
  exact heq

theorem Reader.Behind.call (hdb : Numbered db) (hr : r.Behind db t) :
    (r.call db t).copy = db.tables t := by
  refine (call_copy_eq_iff hdb).2 fun c hc hfloor _ => ?_
  obtain ⟨-, a, ha, hfollows⟩ := hr c hc
  rw [ha]
  exact patch_eq_live (agrees_live c a) hfollows hfloor

/-- After a call the copy is the table of that moment. -/
theorem Reader.Behind.of_call (hdb : Numbered db) (hr : r.Behind db t) :
    (r.call db t).Behind db t := by
  intro c hc
  rw [Reader.call_eq, (r.callAt_cases ⟨db, db, db, db⟩ t hdb).1] at hc
  cases hc
  exact ⟨le_rfl, db.log t, (copy_eq_iff hdb).1 (hr.call hdb), .refl _ _⟩

/-- A write whose numbers are above all given ones leaves the copy behind, and a call catches up. -/
theorem Sound.step {e : Event} (hs : Sound t s) (hkeeps : KeepsCounter s e) :
    Sound t (step t s e) ∧ Increases s e ∧ Current t s e := by
  cases e with
  | call =>
    exact ⟨⟨hs.numbered, hs.given_le, hs.behind.of_call hs.numbered⟩, trivial,
      hs.behind.call hs.numbered⟩
  | write w =>
    rw [keepsCounter_write] at hkeeps
    have hgives := write_gives s.db w
    have hadv := write_advances s.db w
    rw [hkeeps] at hgives hadv
    refine ⟨⟨hadv.numbered hs.numbered, ?_, fun c hc => ?_⟩,
      ⟨hgives.sorted, fun n hn m hm => ?_⟩, trivial⟩
    · refine List.forall_mem_append.2 ⟨hgives.le_high, fun n hn => ?_⟩
      exact (hs.given_le n hn).trans hgives.mono
    · obtain ⟨hle, a, ha, hfollows⟩ := hs.behind c hc
      exact ⟨hle.trans hgives.mono, a, ha, hfollows.trans ((hadv.follows t).mono hle)⟩
    · exact (hs.given_le m hm).trans_lt (hgives.above n hn)

theorem sound_start (hdb : Numbered db) (t : DurableTable) : Sound t (.start db) :=
  ⟨hdb, fun _ => le_high, fun _ h => (nomatch h)⟩

/-- For every run of writes and calls: all numbers are above the earlier ones and the reader holds
the table after each call, exactly if no delete prunes the highest number in use. -/
theorem increasing_and_current_iff (db : Db) (hdb : Numbered db) (t : DurableTable)
    (es : List Event) :
    Along (step t) Increases (.start db) es ∧ Along (step t) (Current t) (.start db) es ↔
      Along (step t) KeepsCounter (.start db) es := by
  constructor
  · rintro ⟨hinc, -⟩
    exact hinc.imp (I := Recorded) (fun _ hn => hn) fun s e hs he => ⟨hs.step e, he.keepsCounter hs⟩
  · intro hkeeps
    rw [← along_and]
    exact hkeeps.imp (sound_start hdb t) fun s e hs he => hs.step he

def emptyDb : Db := ⟨fun _ => ∅, fun _ => ∅, 0, ∅, ∅, 0⟩

theorem numbered_emptyDb : Numbered emptyDb := by
  refine ⟨fun t k => iff_of_false ?_ ?_, fun t k e he => ?_⟩
  · exact not_mem_empty
  · rintro ⟨e, he, -⟩
    cases getElem?_empty.symm.trans he
  · cases getElem?_empty.symm.trans he

theorem increasing_and_current_one_row : Along (step .work) Increases (.start emptyDb)
        [.write (.insert .work "a" "payload"), .call, .write (.delete .work "a" 0), .call] ∧
      Along (step .work) (Current .work) (.start emptyDb)
        [.write (.insert .work "a" "payload"), .call, .write (.delete .work "a" 0), .call] :=
  (increasing_and_current_iff emptyDb numbered_emptyDb .work _).2
    ⟨trivial, trivial, fun _ => by decide +kernel, trivial, trivial⟩

/-- The last of two deletes prunes the tombstone of the first, which holds the highest number. It
gives that number again, and the reader, whose cursor is the number, does not learn of it. -/
theorem pruned_number_is_given_again : Numbered emptyDb ∧
    let s := [.write (.insert .work "a" "payload"), .write (.insert .work "b" "payload"),
      .write (.delete .work "a" 0), .call,
      .write (.delete .work "b" (tombstoneRetentionSeconds + 1)), .call].foldl (step .work)
        (.start emptyDb)
    s.given = [3, 3, 2, 1, 0] ∧ s.reader.copy["b"]? = some "payload" ∧
        (s.db.tables .work)["b"]? = none :=
  ⟨numbered_emptyDb, by decide +kernel⟩

/-! ## A call whose statements see different states -/

def writes (db : Db) (ws : List Write) : Db := ws.foldl (fun db w => (db.write w).1) db

/-- The writes give out only numbers above those in use. -/
def Rising (db : Db) (ws : List Write) : Prop :=
  Along (fun db w => (db.write w).1) (fun db w => ∀ n ∈ (db.write w).2, db.high < n) db ws

theorem rising_append {ws' : List Write} : Rising db (ws ++ ws') ↔
    Rising db ws ∧ Rising (writes db ws) ws' :=
  along_append

/-- What transactions do whose numbers rise. -/
theorem Rising.follows (hws : Rising db ws) (hdb : Numbered db) (t : DurableTable) :
    Numbered (writes db ws) ∧ db.high ≤ (writes db ws).high ∧
      Log.Follows db.high (db.log t) ((writes db ws).log t) := by
  refine hws.invariant (I := fun db' => Numbered db' ∧ db.high ≤ db'.high ∧
    Log.Follows db.high (db.log t) (db'.log t)) ⟨hdb, le_rfl, .refl _ _⟩ ?_
  rintro db' w ⟨hdb', hle, hfollows⟩ hrise
  have hbase : db'.base w = db'.high := (base_eq_or_mem db' w).elim id fun hmem =>
    le_antisymm (base_le_high db' w) (Nat.le_of_lt_succ (hrise _ hmem))
  have hadv := write_advances db' w
  have hgives := write_gives db' w
  rw [hbase] at hadv hgives
  exact ⟨hadv.numbered hdb', hle.trans hgives.mono, hfollows.trans ((hadv.follows t).mono hle)⟩

/-- A tombstone above the cursor that the call could read when it read the floor is gone when it
reads the tombstones, and nothing tells the reader later. -/
def Lost (db₀ : Db) (m : Moments) (db₅ : Db) (t : DurableTable) : Prop :=
  m.floor.floor ≤ db₀.high ∧ db₅.floor ≤ m.counter.high ∧
    ∃ (k : String) (e : Entry), k ∈ db₀.tables t ∧ (m.floor.rows t)[k]? = some e ∧
      e.deleted = true ∧
      db₀.high < e.seq ∧ e.seq ≤ m.counter.high ∧ (m.tombstones.rows t)[k]? = none ∧
        (db₅.rows t)[k]? = none

section
variable {db₀ db₅ : Db} {r : Reader} {m : Moments} {ws₁ ws₂ ws₃ ws₄ ws₅ : List Write}

/-- The states at the statements of a call, after the state that the copy is from and before that of
the next call: the numbers rise from one to the next. -/
structure Interleaving (db₀ : Db) (m : Moments) (db₅ : Db) (t : DurableTable) : Prop where
  numbered₀ : Numbered db₀
  numbered₂ : Numbered m.floor
  numbered₃ : Numbered m.tombstones
  numbered₄ : Numbered m.rows
  numbered₅ : Numbered db₅
  le₁ : db₀.high ≤ m.counter.high
  le₅ : m.counter.high ≤ db₅.high
  follows₀₁ : Log.Follows db₀.high (db₀.log t) (m.counter.log t)
  follows₁₂ : Log.Follows m.counter.high (m.counter.log t) (m.floor.log t)
  follows₂₃ : Log.Follows m.counter.high (m.floor.log t) (m.tombstones.log t)
  follows₃₄ : Log.Follows m.counter.high (m.tombstones.log t) (m.rows.log t)
  follows₄₅ : Log.Follows m.counter.high (m.rows.log t) (db₅.log t)

theorem Rising.interleaving (hdb : Numbered db₀)
    (hrise : Rising db₀ (ws₁ ++ ws₂ ++ ws₃ ++ ws₄ ++ ws₅)) (t : DurableTable) :
    Interleaving db₀ ⟨writes db₀ ws₁, writes (writes db₀ ws₁) ws₂,
      writes (writes (writes db₀ ws₁) ws₂) ws₃,
        writes (writes (writes (writes db₀ ws₁) ws₂) ws₃) ws₄⟩
      (writes (writes (writes (writes (writes db₀ ws₁) ws₂) ws₃) ws₄) ws₅) t := by
  have hwrites : ∀ ws ws', writes db₀ (ws ++ ws') = writes (writes db₀ ws) ws' :=
    fun _ _ => List.foldl_append
  simp only [rising_append, hwrites] at hrise
  obtain ⟨⟨⟨⟨hrise₁, hrise₂⟩, hrise₃⟩, hrise₄⟩, hrise₅⟩ := hrise
  obtain ⟨hdb₁, hle₁, h₀₁⟩ := hrise₁.follows hdb t
  obtain ⟨hdb₂, hle₂, h₁₂⟩ := hrise₂.follows hdb₁ t
  obtain ⟨hdb₃, hle₃, h₂₃⟩ := hrise₃.follows hdb₂ t
  obtain ⟨hdb₄, hle₄, h₃₄⟩ := hrise₄.follows hdb₃ t
  obtain ⟨hdb₅, hle₅, h₄₅⟩ := hrise₅.follows hdb₄ t
  have hle₁₃ := hle₂.trans hle₃
  have hle₁₄ := hle₁₃.trans hle₄
  exact ⟨hdb, hdb₂, hdb₃, hdb₄, hdb₅, hle₁, hle₁₄.trans hle₅, h₀₁, h₁₂, h₂₃.mono hle₂,
    h₃₄.mono hle₁₃, h₄₅.mono hle₁₄⟩

namespace Interleaving

/-- A key that a delta loses: the log's words for it. -/
theorem not_lost_iff (hi : Interleaving db₀ m db₅ t) (hfloor : m.floor.floor ≤ db₀.high)
    (hfloor' : db₅.floor ≤ m.counter.high) : ¬ Lost db₀ m db₅ t ↔
      ∀ k n, (db₀.log t).live k ≠ none → (m.floor.log t).entry k = some (n, none) → db₀.high < n →
        n ≤ m.counter.high → (m.tombstones.log t).entry k = none → (db₅.log t).entry k ≠ none := by
  have hmem : ∀ k : String, (db₀.tables t)[k]? ≠ none ↔ k ∈ db₀.tables t := fun k => by
    rw [← Option.isSome_iff_ne_none, isSome_getElem?_iff_mem]
  simp only [hi.numbered₀.live_log, hi.numbered₂.log_tombstone_iff, hmem, ne_eq,
    log_entry_eq_none_iff]
  constructor
  · rintro hnot k n hk ⟨e, he, hdeleted, rfl⟩ hlt hle hgone hgone'
    exact hnot ⟨hfloor, hfloor', k, e, hk, he, hdeleted, hlt, hle, hgone, hgone'⟩
  · rintro hall ⟨-, -, k, e, hk, he, hdeleted, hlt, hle, hgone, hgone'⟩
    exact hall k e.seq hk ⟨e, he, hdeleted, rfl⟩ hlt hle hgone hgone'

/-- The call gives a snapshot, which the next call brings to the present. -/
theorem patch_snapshot (hi : Interleaving db₀ m db₅ t) (hfloor' : db₅.floor ≤ m.counter.high) :
    patch (snapshot m.counter.high (m.rows.log t)) m.counter.high (db₅.log t) = (db₅.log t).live :=
  patch_eq_live (agrees_snapshot fun _ _ => hi.numbered₄.pos_log) hi.follows₄₅ hfloor'

theorem call_eq_iff (hi : Interleaving db₀ m db₅ t)
    (hr : ∀ c, r.cursor = some c → c = db₀.high ∧ r.copy = db₀.tables t) :
    ((r.callAt m t).call db₅ t).copy = db₅.tables t ↔ r.cursor = none ∨ ¬ Lost db₀ m db₅ t := by
  obtain ⟨hcursor, hreply⟩ := r.callAt_cases m t hi.numbered₃
  rw [call_copy_eq_iff hi.numbered₅, hcursor]
  simp only [some.injEq, forall_eq', hi.le₅, true_imp_iff]
  rcases hreply with ⟨hno, hsnapshot⟩ | ⟨c, hc, hfloor, -, hdelta⟩
  · rw [hsnapshot]
    refine iff_of_true hi.patch_snapshot ?_
    match hc : r.cursor with
    | none => exact .inl rfl
    | some c =>
      obtain ⟨rfl, -⟩ := hr c hc
      exact .inr fun hlost => hno _ hc ⟨hlost.1, hi.le₁⟩
  · obtain ⟨rfl, hcopy⟩ := hr c hc
    rw [hdelta, (copy_eq_iff hi.numbered₀).1 hcopy, hc, or_iff_right (fun h => (nomatch h))]
    by_cases hfloor' : db₅.floor ≤ m.counter.high
    · rw [hi.not_lost_iff hfloor hfloor', ← patch_scattered_iff hi.follows₀₁ hi.follows₁₂
        hi.follows₂₃ hi.follows₃₄ hi.follows₄₅ hi.le₁ hfloor hfloor']
      exact forall_prop_of_true hfloor'
    · exact iff_of_true (fun h => absurd h hfloor') fun hlost => hfloor' hlost.2.1

end Interleaving

/-- For every copy that is right at its cursor, if it has one, and all transactions before, between
and after the statements of a call: this call and one more give the table, exactly if no tombstone
is lost. -/
theorem callAt_call_eq_iff (ws₁ ws₂ ws₃ ws₄ ws₅ : List Write) (hdb : Numbered db₀)
    (hrise : Rising db₀ (ws₁ ++ ws₂ ++ ws₃ ++ ws₄ ++ ws₅))
    (hr : ∀ c, r.cursor = some c → c = db₀.high ∧ r.copy = db₀.tables t) :
    let db₁ := writes db₀ ws₁
    let db₂ := writes db₁ ws₂
    let db₃ := writes db₂ ws₃
    let db₄ := writes db₃ ws₄
    let db₅ := writes db₄ ws₅
    ((r.callAt ⟨db₁, db₂, db₃, db₄⟩ t).call db₅ t).copy = db₅.tables t ↔
      r.cursor = none ∨ ¬ Lost db₀ ⟨db₁, db₂, db₃, db₄⟩ db₅ t :=
  (hrise.interleaving hdb t).call_eq_iff hr

end

def twoRows : Db := writes emptyDb [.insert .work "a" "payload", .insert .work "b" "payload"]

theorem numbered_twoRows : Numbered twoRows := by
  have hrise : Rising emptyDb [.insert .work "a" "payload", .insert .work "b" "payload"] := by
    refine ⟨?_, ?_, trivial⟩
    · decide +kernel
    · decide +kernel
  exact (hrise.follows numbered_emptyDb .work).1

/-- Rows are inserted and deleted between the statements of a call, and no tombstone is pruned. -/
theorem callAt_call_undisturbed :
    let db₁ := writes twoRows [.delete .work "a" 0]
    let db₂ := writes db₁ [.insert .work "c" "payload"]
    let db₃ := writes db₂ [.delete .work "b" 0]
    let db₄ := writes db₃ [.insert .work "a" "again"]
    ((Reader.callAt ⟨some twoRows.high, twoRows.tables .work⟩ ⟨db₁, db₂, db₃, db₄⟩ .work).call db₄
      .work).copy = db₄.tables .work := by
  refine (callAt_call_eq_iff [.delete .work "a" 0] [.insert .work "c" "payload"]
    [.delete .work "b" 0] [.insert .work "a" "again"] [] numbered_twoRows ?_ ?_).2 (.inr ?_)
  · exact ⟨by decide +kernel, by decide +kernel, by decide +kernel, by decide +kernel, trivial⟩
  · intro c hc
    exact ⟨(some.inj hc).symm, rfl⟩
  · rintro ⟨-, -, k, e, -, he, -, -, -, hgone, -⟩
    have hkept : ∀ x ∈ ((writes twoRows [.delete .work "a" 0, .insert .work "c" "payload"]).rows
        .work).toList, (((writes twoRows [.delete .work "a" 0, .insert .work "c" "payload",
          .delete .work "b" 0]).rows .work)[x.1]?).isSome := by decide +kernel
    exact absurd hgone (isSome_iff_ne_none.1 (hkept (k, e) (mem_toList_iff_getElem?_eq_some.2 he)))

/-- The second delete prunes the tombstone of the first between the look at the floor, which is
still low, and the look at the tombstones. The reader keeps the first row: its cursor is above the
new floor. -/
theorem tombstone_lost_between_statements :
    let db₁ := writes twoRows [.delete .work "a" 0, .entity "collection" "id"]
    let db₃ := writes db₁ [.delete .work "b" (tombstoneRetentionSeconds + 1)]
    let r :=
      ((⟨some twoRows.high, twoRows.tables .work⟩ : Reader).callAt ⟨db₁, db₁, db₃, db₃⟩ .work).call
      db₃ .work
    Numbered twoRows ∧ Rising twoRows [.delete .work "a" 0, .entity "collection" "id",
        .delete .work "b" (tombstoneRetentionSeconds + 1)] ∧
      r.copy["a"]? = some "payload" ∧ (db₃.tables .work)["a"]? = none := by
  refine ⟨numbered_twoRows, ?_, by decide +kernel, by decide +kernel⟩
  refine ⟨by decide +kernel, by decide +kernel, by decide +kernel, trivial⟩

end Layr.Durable
