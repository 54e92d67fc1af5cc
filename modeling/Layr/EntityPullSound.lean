import Layr.EntityPull
import Layr.EntityScopeSound
import Layr.Lib.Runs

/-!
# Pulls of the global entities

`pulls_exact`: in every run of writes, prunings and pulls, a pull that reports the highest number
leaves the client with the live global entities, if the run is `Undisturbed`. The reply of the route
is one page (`pullEntities_cases`), which has all rows up to its checkpoint (`Db.Page.mem_of_le`),
and the client holds nothing under the tombstones that a page leaves out (`Ready`).

A run can be disturbed in two ways. A page of one row that begins with the prior agent has a
checkpoint above rows that were never sent (`prior_row_skips_others`). And the initial pull does not
look at the floor, so a tombstone that is made after its first page can be pruned before it is sent.
-/

namespace Layr.Entities

open Tables Paging Runs List Option

variable {env : Env} {hasDocument : EntityRow → Bool} {db db' : Db} {key : Key} {new e : Entity}
  {row : EntityRow} {after limit initialHigh : ℕ} {fresh : Bool} {priorityId : Option String}
  {held : Option (Option String)}

/-! ## The rows of a page -/

variable {rows : List EntityRow}

namespace Db

theorem key_of (key : Key) (e : Entity) : (EntityRow.of key e).key = key := rfl

theorem nodup_keys_pageRows (db : Db) (after : ℕ) (fresh : Bool) (initialHigh : ℕ)
    (priorityId : Option String) :
    ((db.pageRows after fresh initialHigh priorityId).map EntityRow.key).Nodup := by
  refine ((perm_insertionSort _ _).map _).nodup_iff.2 (nodup_select fun key e row hrow => ?_)
  split at hrow
  · rw [← some.inj hrow, key_of]
  · cases hrow

theorem eq_of_sequence_eq (hdb : db.Sound) {a b : EntityRow}
    (ha : a ∈ db.pageRows after fresh initialHigh priorityId)
        (hb : b ∈ db.pageRows after fresh initialHigh priorityId) (heq : a.sequence = b.sequence) :
    a = b := by
  obtain ⟨key, e, he, rfl, -⟩ := mem_pageRows.1 ha
  obtain ⟨key', e', he', rfl, -⟩ := mem_pageRows.1 hb
  obtain rfl := hdb.inj key key' e e' he he' heq
  rw [some.inj (he.symm.trans he')]

theorem rising_pageRows (hdb : db.Sound) :
    Rising (pageOrder priorityId) (db.pageRows after fresh initialHigh priorityId) := by
  have hmem : ∀ {row}, row ∈ select (fun key (e : Entity) =>
      if isGlobal key ∧ after < e.seq ∧ (e.deleted = false ∨ db.floor < e.seq) ∧
          (fresh = false ∨ e.deleted = false ∨ initialHigh < e.seq) then
        some (EntityRow.of key e)
      else none) db.entities → row ∈ db.pageRows after fresh initialHigh priorityId :=
    fun hrow => (perm_insertionSort _ _).mem_iff.2 hrow
  refine rising_insertionSort (fun a ha b hb heq => ?_) ?_
  · exact eq_of_sequence_eq hdb (hmem ha) (hmem hb) (Prod.ext_iff.1 (toLex_inj.1 heq)).2
  · exact (perm_insertionSort _ _).nodup_iff.1
      (nodup_keys_pageRows db after fresh initialHigh priorityId).of_map

/-- A full page ends with the row of the priority id only if that is all it has. -/
theorem length_eq_one_of_prior {last : EntityRow} (h : Rising (pageOrder priorityId) rows)
    (hnd : (rows.map EntityRow.key).Nodup) (hlast : rows.getLast? = some last)
    (hprior : last.Prior priorityId) :
    rows.length = 1 := by
  obtain ⟨init, rfl⟩ := getLast?_eq_some_iff.1 hlast
  cases init with
  | nil => rfl
  | cons row init =>
    rw [Rising, pairwise_append] at h
    have hlt := h.2.2 row (mem_cons_self ..) last (mem_singleton_self last)
    have hrow : row.Prior priorityId := by
      by_contra hnot
      rw [pageOrder, pageOrder, if_pos hprior, if_neg hnot, Prod.Lex.toLex_lt_toLex] at hlt
      omega
    have hkey : row.key = last.key := by
      refine Prod.ext (hrow.1.trans hprior.1.symm) (some.inj (hrow.2.trans hprior.2.symm))
    rw [map_append, nodup_append] at hnd
    exact absurd hkey (hnd.2.2 _ (mem_map_of_mem (mem_cons_self ..)) _ (mem_singleton_self _))

structure Page (db : Db) (after limit : ℕ) (fresh : Bool) (initialHigh : ℕ)
    (priorityId : Option String) (rows : List EntityRow) (checkpoint : ℕ) : Prop where
  eq : rows = (db.pageRows after fresh initialHigh priorityId).take (pageLimit limit)
  checkpoint_eq : checkpoint = if rows.length =
    pageLimit limit then (rows.getLast?.map (·.sequence)).getD after
    else max db.entitySequence db.floor

namespace Page

variable {rows : List EntityRow} {checkpoint : ℕ}

section

variable (h : Page db after limit fresh initialHigh priorityId rows checkpoint)
include h

theorem mem (hrow : row ∈ rows) : row ∈ db.pageRows after fresh initialHigh priorityId := by
  rw [h.eq] at hrow
  exact mem_of_mem_take hrow

/-- The page is the end, or its last row is the checkpoint. -/
theorem cases :
    (rows = db.pageRows after fresh initialHigh priorityId ∧
    checkpoint = max db.entitySequence db.floor) ∨
      ∃ last, rows.getLast? = some last ∧ rows.length = pageLimit limit ∧
        checkpoint = last.sequence := by
  by_cases hfull : rows.length = pageLimit limit
  · right
    match hlast : rows.getLast? with
    | none =>
      rw [getLast?_eq_none_iff.1 hlast, length_nil] at hfull
      exact absurd (pageLimit_pos limit) (hfull ▸ lt_irrefl _)
    | some last =>
      refine ⟨last, rfl, hfull, ?_⟩
      rw [h.checkpoint_eq, if_pos hfull, hlast]
      rfl
  · left
    refine ⟨h.eq.trans (take_of_length_le ?_), by rw [h.checkpoint_eq, if_neg hfull]⟩
    have hlength := congrArg List.length h.eq
    rw [length_take] at hlength
    omega

omit h in
theorem sequence_bounds (hrow : row ∈ db.pageRows after fresh initialHigh priorityId) :
    after < row.sequence ∧ row.sequence ≤ db.entitySequence := by
  obtain ⟨key, e, he, rfl, hglobal, hlt, -⟩ := mem_pageRows.1 hrow
  exact ⟨hlt, seq_le_entitySequence he (not_isTranscript_of_isGlobal hglobal)⟩

/-- The checkpoint does not go back, and moves if there are rows. -/
theorem checkpoint_bounds (hafter : after ≤ max db.entitySequence db.floor) :
    after ≤ checkpoint ∧ checkpoint ≤ max db.entitySequence db.floor ∧
      (rows ≠ [] → after < checkpoint) := by
  rcases h.cases with ⟨-, rfl⟩ | ⟨last, hlast, -, rfl⟩
  · refine ⟨hafter, le_rfl, fun hne => ?_⟩
    obtain ⟨row, hrow⟩ := exists_mem_of_ne_nil _ hne
    have hbounds := sequence_bounds (h.mem hrow)
    omega
  · have hbounds := sequence_bounds (h.mem (mem_of_getLast? hlast))
    omega

/-- A page has all rows up to its checkpoint, unless it has only a prior row that is not the lowest.
-/
theorem mem_of_le (hdb : db.Sound)
    (hlow : pageLimit limit = 1 → ∀ row ∈ db.pageRows after fresh initialHigh priorityId,
      row.Prior priorityId →
      ∀ row' ∈ db.pageRows after fresh initialHigh priorityId, row.sequence ≤ row'.sequence)
    (hrow : row ∈ db.pageRows after fresh initialHigh priorityId)
    (hle : row.sequence ≤ checkpoint) : row ∈ rows := by
  rcases h.cases with ⟨rfl, -⟩ | ⟨last, hlast, hfull, rfl⟩
  · exact hrow
  have hmem := h.mem (mem_of_getLast? hlast)
  by_cases hprior : last.Prior priorityId
  · have hone : pageLimit limit = 1 := by
      rw [← hfull]
      rw [h.eq] at hlast ⊢
      exact length_eq_one_of_prior ((rising_pageRows hdb).sublist (take_sublist ..))
        ((nodup_keys_pageRows ..).sublist ((take_sublist ..).map _)) hlast hprior
    have heq := eq_of_sequence_eq hdb hrow hmem
      (le_antisymm hle (hlow hone last hmem hprior row hrow))
    exact heq ▸ mem_of_getLast? hlast
  · rw [h.eq] at hlast ⊢
    refine (rising_pageRows hdb).mem_take hlast hrow ?_
    rw [pageOrder, pageOrder, if_neg hprior, Prod.Lex.toLex_le_toLex]
    split
    · exact .inl Nat.zero_lt_one
    · exact .inr ⟨rfl, hle⟩

end

end Page

def pullHigh (db : Db) (fresh : Bool) (passed : ℕ) : ℕ :=
  if fresh then (if 0 < passed then min (max db.entitySequence db.floor) passed
    else max db.entitySequence db.floor)
  else 0

theorem pullGlobalEntities_cases (db : Db) (after limit : ℕ) (fresh : Bool) (passed : ℕ)
    (priorityId : Option String) :
    let page := db.pullGlobalEntities after limit fresh passed true priorityId
    page.maxSequence = max db.entitySequence db.floor ∧
      page.initialHigh = db.pullHigh fresh passed ∧
      (page.reset = true ∨ (page.reset = false ∧ (fresh = false → 0 < after → db.floor ≤ after) ∧
        Page db after limit fresh (db.pullHigh fresh passed)
          (if after = 0 ∧ fresh then priorityId else none)
          page.rows page.checkpoint)) := by
  unfold pullGlobalEntities
  simp only
  split
  · exact ⟨rfl, rfl, .inl rfl⟩
  · next hreset =>
    refine ⟨rfl, rfl, .inr ⟨rfl, fun hfresh hpos => not_lt.1 fun hlt => ?_, rfl, rfl⟩⟩
    exact hreset ⟨trivial, hfresh, hpos, .inl hlt⟩

end Db

/-! ## The loop reads one page -/

/-- By induction on the rows, all of which the reply has room for. -/
theorem scanRows_eq {scan : Scan} (hdocs : ∀ row ∈ rows, hasDocument row = true)
    (hnd : (rows.map EntityRow.sequence).Nodup) (hseen : ∀ row ∈ rows, row.sequence ∉ scan.seen)
    (hlt : scan.documents.length < limit) (hle : scan.documents.length + rows.length ≤ limit) :
    ∃ seen, scanRows hasDocument limit rows scan = (⟨scan.documents ++ rows, seen,
      (rows.getLast?.map (·.sequence)).getD scan.checkpoint⟩,
        decide (scan.documents.length + rows.length = limit)) := by
  induction rows generalizing scan with
  | nil =>
    refine ⟨scan.seen, ?_⟩
    rw [scanRows, append_nil, length_nil, Nat.add_zero, decide_eq_false hlt.ne]
    rfl
  | cons row rows ih =>
    rw [map_cons, nodup_cons] at hnd
    rw [scanRows, if_neg (hseen row (mem_cons_self ..)), if_pos (hdocs row (mem_cons_self ..))]
    have hlast : (((row :: rows).getLast?.map (·.sequence)).getD scan.checkpoint) =
        (rows.getLast?.map (·.sequence)).getD row.sequence := by
      rw [getLast?_cons]
      cases rows.getLast? <;> rfl
    rw [length_cons] at hle
    have hlength : (scan.documents ++ [row]).length = scan.documents.length + 1 := length_append
    simp only [hlength, length_cons, hlast]
    split
    · next hfull =>
      obtain rfl : rows = [] := length_eq_zero_iff.1 (by omega)
      exact ⟨_, Prod.ext rfl (decide_eq_true hfull).symm⟩
    next hmore =>
    have hseen' : ∀ row' ∈ rows, row'.sequence ∉ row.sequence :: scan.seen := fun row' hrow' => by
      rw [mem_cons, not_or]
      exact ⟨fun heq => hnd.1 (heq ▸ mem_map_of_mem hrow'), hseen row' (mem_cons_of_mem _ hrow')⟩
    obtain ⟨seen, heq⟩ := @ih ⟨scan.documents ++ [row], row.sequence :: scan.seen, row.sequence⟩
      (fun row' hrow' => hdocs row' (mem_cons_of_mem _ hrow')) hnd.2 hseen'
      (lt_of_le_of_ne (hlength ▸ hlt) (hlength ▸ hmore)) (by rw [hlength]; omega)
    refine ⟨seen, heq.trans ?_⟩
    simp [hlength, Nat.add_assoc, Nat.add_comm 1]

def Documented (hasDocument : EntityRow → Bool) (db : Db) : Prop :=
  ∀ (key : Key) (e : Entity), db.entities[key]? = some e → isGlobal key = true →
    hasDocument (.of key e) = true

theorem pullPages_eq {page : EntityPage} (hdb : db.Sound) (hdocs : Documented hasDocument db)
    (h : Db.Page db after limit fresh initialHigh priorityId page.rows page.checkpoint) (high : ℕ)
    (hrows : ∀ row ∈ page.rows, row.sequence ≤ db.entitySequence) :
    let scan := pullPages hasDocument db limit fresh high true page hrows after ⟨[], [], after⟩
    scan.documents = page.rows ∧ scan.checkpoint = page.checkpoint := by
  have hdocuments : ∀ row ∈ page.rows, hasDocument row = true := fun row hrow => by
    obtain ⟨key, e, he, rfl, hglobal, -⟩ := Db.mem_pageRows.1 (h.mem hrow)
    exact hdocs key e he hglobal
  have hnd : (page.rows.map EntityRow.sequence).Nodup := by
    refine List.Nodup.map_on
      (fun a ha b hb heq => Db.eq_of_sequence_eq hdb (h.mem ha) (h.mem hb) heq) ?_
    rw [h.eq]
    exact ((Db.nodup_keys_pageRows ..).of_map).sublist (take_sublist ..)
  have hle : page.rows.length ≤ Db.pageLimit limit := by
    rw [h.eq]
    exact length_take_le ..
  obtain ⟨seen, heq⟩ := @scanRows_eq hasDocument (Db.pageLimit limit) page.rows
    ⟨[], [], after⟩ hdocuments hnd
    (fun _ _ => not_mem_nil) (Db.pageLimit_pos limit) (by simpa using hle)
  rw [pullPages, heq]
  simp only [nil_append, length_nil, Nat.zero_add]
  by_cases hfull : page.rows.length = Db.pageLimit limit
  · simp only [decide_eq_true hfull]
    exact ⟨trivial, (h.checkpoint_eq.trans (if_pos hfull)).symm⟩
  · have hlt : page.rows.length < Db.pageLimit limit := lt_of_le_of_ne hle hfull
    simp [decide_eq_false hfull, if_pos hlt]

/-- A pull of a database whose global rows have documents: a reset, or a page. -/
theorem pullEntities_cases (hdb : db.Sound) (hdocs : Documented hasDocument db) (after limit : ℕ)
    (fresh : Bool) (initialHigh : ℕ) (priorityId : Option String) :
    let response := pullEntities hasDocument db after limit fresh initialHigh true priorityId
    let high := db.pullHigh fresh initialHigh
    response.maxSequence = max db.entitySequence db.floor ∧ response.initialHigh = high ∧
      (response.reset = true ∨
        (response.reset = false ∧ (fresh = false → 0 < after → db.floor ≤ after) ∧
          Db.Page db after limit fresh high (if after = 0 ∧ fresh then priorityId else none)
          response.documents
          response.checkpoint)) := by
  intro response high
  obtain ⟨hmax, hhigh, hreset | ⟨hreset, hfloor, hpage⟩⟩ :=
    Db.pullGlobalEntities_cases db after limit fresh initialHigh priorityId
  · simp only [response, pullEntities, hreset, if_true]
    exact ⟨hmax, hhigh, .inl trivial⟩
  obtain ⟨hrows, hcheckpoint⟩ := pullPages_eq hdb hdocs hpage
    (db.pullGlobalEntities after limit fresh initialHigh true priorityId).initialHigh fun _ =>
      Db.sequence_le_of_mem
  simp only [response, pullEntities, hreset, Bool.false_eq_true, if_false]
  refine ⟨hmax, hhigh, .inr ⟨trivial, hfloor, ?_⟩⟩
  rw [hrows, hcheckpoint]
  exact hpage

/-! ## What a client holds -/

def Entity.shown (e : Entity) : Option (Option String) := if e.deleted then none else some e.payload

/-- What a client holds under a key: it is right up to `after`, and a tombstone up to `bound` is of
a key that it does not hold. -/
structure Held (bound after : ℕ) (held : Option (Option String)) (db : Db) (key : Key) : Prop where
  gone : db.entities[key]? = none → held = none
  kept : ∀ e : Entity, db.entities[key]? = some e → e.seq ≤ after → held = e.shown
  early : ∀ e : Entity, db.entities[key]? = some e → after < e.seq → e.seq ≤ bound →
    e.deleted = true → held = none

namespace Held

theorem congr {bound : ℕ} (h : Held bound after held db key)
    (hrow : db'.entities[key]? = db.entities[key]?) :
    Held bound after held db' key :=
  ⟨fun hnone => h.gone (hrow ▸ hnone), fun e he => h.kept e (hrow ▸ he),
    fun e he => h.early e (hrow ▸ he)⟩

/-- A write makes a row above all marks. -/
theorem put {bound : ℕ} (h : Held bound after held db key) {key' : Key}
    (hput : Db.Put env db key' new db') (hbound : bound < new.seq) (hafter : after < new.seq) :
    Held bound after held db' key := by
  by_cases hkey : key = key'
  · subst hkey
    have hself : ∀ e, db'.entities[key]? = some e → e = new := fun e he =>
      (some.inj (hput.getElem_self.symm.trans he)).symm
    refine ⟨fun hnone => ?_, fun e he hle => ?_, fun e he _ hle => ?_⟩
    · cases hput.getElem_self.symm.trans hnone
    · exact absurd (hself e he ▸ hle) (not_le.2 hafter)
    · exact absurd (hself e he ▸ hle) (not_le.2 hbound)
  · exact h.congr (hput.getElem_ne hkey)

/-- A pruning up to the bound removes tombstones of keys that the client does not hold. -/
theorem prune {bound : ℕ} (h : Held bound after held db key) (hprune : Db.Prune db db')
    (hfloor : db'.floor ≤ bound) :
    Held bound after held db' key := by
  rcases hprune.row key with ⟨hrow, -⟩ | ⟨hnone, e, he, hdeleted, hle⟩
  · exact h.congr hrow
  have hheld : held = none := by
    by_cases hkept : e.seq ≤ after
    · rw [h.kept e he hkept, Entity.shown, if_pos hdeleted]
    · exact h.early e he (not_le.1 hkept) (hle.trans hfloor) hdeleted
  have habsent : ∀ e, db'.entities[key]? ≠ some e := fun e he => nomatch hnone.symm.trans he
  exact ⟨fun _ => hheld, fun e he => absurd he (habsent e), fun e he => absurd he (habsent e)⟩

end Held

/-- What a client holds before a page: right up to `after`, and nothing under the tombstones that
the page leaves out. -/
structure Ready (after : ℕ) (fresh : Bool) (high : ℕ) (held : Option (Option String)) (db : Db)
    (key : Key) : Prop where
  gone : db.entities[key]? = none → held = none
  kept : ∀ e : Entity, db.entities[key]? = some e → e.seq ≤ after → held = e.shown
  skipped : ∀ e : Entity, db.entities[key]? = some e → after < e.seq → e.deleted = true →
    ¬ (db.floor < e.seq ∧ (fresh = true → high < e.seq)) → held = none

/-- A page brings the client to its checkpoint. -/
theorem Ready.accept {copy : Copy} {checkpoint high : ℕ}
    (h : Ready after fresh high copy[key]? db key) (hkey : isGlobal key = true)
    (hpage : Db.Page db after limit fresh high priorityId rows checkpoint)
    (hle : after ≤ checkpoint)
    (hrows : ∀ row ∈ db.pageRows after fresh high priorityId, row.sequence ≤ checkpoint →
      row ∈ rows) :
    Held (if fresh then high else checkpoint) checkpoint (copy.accept rows)[key]? db key := by
  by_cases hrow : ∃ row ∈ rows, row.key = key
  · obtain ⟨row, hrow, rfl⟩ := hrow
    obtain ⟨key, e, he, rfl, -⟩ := Db.mem_pageRows.1 (hpage.mem hrow)
    have hnd : (rows.map EntityRow.key).Nodup := by
      rw [hpage.eq]
      exact (Db.nodup_keys_pageRows ..).sublist ((take_sublist ..).map _)
    have hshown : (copy.accept rows)[key]? = e.shown := Copy.getElem?_accept_of_mem hnd hrow
    have hself : ∀ e', db.entities[key]? = some e' → e' = e :=
      fun e' he' => some.inj (he'.symm.trans he)
    rw [Db.key_of, hshown]
    refine ⟨fun hnone => ?_, fun e' he' _ => ?_, fun e' he' _ _ hdeleted => ?_⟩
    · cases hnone.symm.trans he
    · rw [hself e' he']
    · rw [Entity.shown, if_pos (hself e' he' ▸ hdeleted)]
  · have habsent : key ∉ rows.map EntityRow.key := fun hmem => by
      obtain ⟨row, hmem, heq⟩ := mem_map.1 hmem
      exact hrow ⟨row, hmem, heq⟩
    rw [Copy.getElem?_accept_of_notMem habsent]
    refine ⟨h.gone, fun e he hle' => ?_, fun e he hlt hhigh hdeleted => ?_⟩
    · by_cases hkept : e.seq ≤ after
      · exact h.kept e he hkept
      · have hout : ¬ ((e.deleted = false ∨ db.floor < e.seq) ∧
            (fresh = false ∨ e.deleted = false ∨ high < e.seq)) :=
          fun hin => hrow
            ⟨.of key e, hrows _ (Db.mem_pageRows.2 ⟨key, e, he, rfl, hkey, not_le.1 hkept, hin⟩)
            hle', rfl⟩
        have hdeleted : e.deleted = true := by
          by_contra hlive
          rw [Bool.not_eq_true] at hlive
          exact hout ⟨.inl hlive, .inr (.inl hlive)⟩
        rw [Entity.shown, if_pos hdeleted]
        refine h.skipped e he (not_le.1 hkept) hdeleted fun hin => hout ⟨.inr hin.1, ?_⟩
        cases hfresh : fresh with
        | false => exact .inl rfl
        | true => exact .inr (.inr (hin.2 hfresh))
    · refine h.skipped e he (hle.trans_lt hlt) hdeleted fun hin => ?_
      split at hhigh
      · next hfresh => exact absurd (hin.2 hfresh) (not_lt.2 hhigh)
      · exact absurd hlt (not_lt.2 hhigh)

theorem Db.getElem?_liveGlobal (db : Db) (key : Key) : db.liveGlobal[key]? =
    if isGlobal key then db.entities[key]?.bind Entity.shown else none := by
  rw [liveGlobal, getElem?_filterMap']
  rcases db.entities[key]? with _ | e
  · simp
  · cases hdeleted : e.deleted <;> simp [Entity.shown, hdeleted]

/-! ## Runs -/

/-- A page of one row does not begin with an agent that is not the lowest of the live rows. -/
def PriorLowest (db : Db) (limit : ℕ) (priorityId : Option String) : Prop :=
  limit ≤ 1 → ∀ (id : String) (e : Entity), priorityId = some id →
    db.entities[("agentSummary", id)]? = some e →
    e.deleted = false → ∀ (key : Key) (e' : Entity), db.entities[key]? = some e' →
      isGlobal key = true →
      e'.deleted = false → e.seq ≤ e'.seq

/-- What must not happen in a run: a write without a document, a page of only a prior agent, and the
pruning of a tombstone that was made since the initial pull began. -/
def World.Undisturbed (hasDocument : EntityRow → Bool) (w : World) : Event → Prop
  | .write (.put collection id payload deleted _) => isGlobal (collection, id) = true →
    ∀ sequence, hasDocument ⟨collection, id, sequence, some payload, deleted⟩ = true
  | .write .prune => True
  | .pull limit priorityId => w.client.fresh = true →
    (w.client.after = 0 → PriorLowest w.db limit priorityId) ∧
      (0 < w.client.after → w.db.floor ≤ w.client.initialHigh)

/-- The number up to which the client holds nothing under a tombstone. -/
def Client.bound (client : Client) : ℕ := if client.fresh then client.initialHigh else client.after

structure World.Inv (hasDocument : EntityRow → Bool) (w : World) : Prop where
  sound : w.db.Sound
  documented : Documented hasDocument w.db
  after_le : w.client.after ≤ w.db.entitySequence
  high_le : w.client.initialHigh ≤ w.db.entitySequence
  high_pos : w.client.fresh = true → 0 < w.client.after → 0 < w.client.initialHigh
  high_zero : w.client.fresh = true → w.client.after = 0 → w.client.initialHigh = 0
  zero : w.client.after = 0 → w.client.copy = ∅
  others : ∀ key, isGlobal key = false → w.client.copy[key]? = none
  held : w.client.bound < w.db.floor ∨
    ∀ key, isGlobal key = true → Held w.client.bound w.client.after w.client.copy[key]? w.db key

abbrev World.high (w : World) : ℕ := w.db.pullHigh w.client.fresh w.client.initialHigh

abbrev World.pageRows (w : World) : Option String → List EntityRow :=
  w.db.pageRows w.client.after w.client.fresh w.high

namespace World.Inv

variable {w : World}

section

variable (h : Inv hasDocument w)
include h

theorem bound_le : w.client.bound ≤ w.db.entitySequence := by
  unfold Client.bound
  split
  · exact h.high_le
  · exact h.after_le

theorem put (hput : Db.Put env w.db key new db')
    (hdoc : isGlobal key = true → hasDocument (.of key new) = true) :
    Inv hasDocument { w with db := db' } := by
  refine ⟨hput.sound h.sound, fun k e he hk => ?_, h.after_le.trans hput.entitySequence_le,
    h.high_le.trans hput.entitySequence_le, h.high_pos, h.high_zero, h.zero, h.others, ?_⟩
  · by_cases hkey : k = key
    · subst hkey
      rw [← some.inj (hput.getElem_self.symm.trans he)]
      exact hdoc hk
    · exact h.documented k e ((hput.getElem_ne hkey).symm.trans he) hk
  · refine h.held.imp (fun hlt => hput.floor.symm ▸ hlt) fun hheld k hk => ?_
    exact (hheld k hk).put hput (h.bound_le.trans_lt hput.lt_seq) (h.after_le.trans_lt hput.lt_seq)

theorem prune (hprune : Db.Prune w.db db') : Inv hasDocument { w with db := db' } := by
  refine ⟨hprune.sound h.sound, fun k e he hk => ?_, hprune.sequence ▸ h.after_le,
    hprune.sequence ▸ h.high_le, h.high_pos, h.high_zero, h.zero, h.others, ?_⟩
  · rcases hprune.row k with ⟨hrow, -⟩ | ⟨hnone, -⟩
    · exact h.documented k e (hrow ▸ he) hk
    · cases hnone.symm.trans he
  by_cases hfloor : w.client.bound < db'.floor
  · exact .inl hfloor
  · refine .inr fun k hk => ?_
    have hheld := h.held.resolve_left fun hlt => hfloor (hlt.trans_le hprune.floor_le)
    exact (hheld k hk).prune hprune (not_lt.1 hfloor)

theorem write {x : Write} (hx : w.Undisturbed hasDocument (.write x)) :
    Inv hasDocument { w with db := w.db.write env x } := by
  cases x with
  | put collection id payload deleted others =>
    rcases Db.put_cases env w.db collection id payload deleted
      others with heq | ⟨new, hpayload, hdeleted, hput⟩
    · rw [Db.write, heq]
      exact h
    · refine h.put hput fun hkey => ?_
      rw [EntityRow.of, hpayload, hdeleted]
      exact hx hkey new.seq
  | prune => exact h.prune (Db.prune_spec h.sound)

omit h in
theorem start (hdb : db.Sound) (hdocs : Documented hasDocument db) :
    Inv hasDocument ⟨db, .start⟩ := by
  have hempty : ∀ key : Key, Client.start.copy[key]? = none := fun key => getElem?_empty
  refine ⟨hdb, hdocs, Nat.zero_le _, Nat.zero_le _, fun _ hpos => hpos, fun _ _ => rfl,
    fun _ => rfl, fun key _ => hempty key, .inr fun key _ => ?_⟩
  exact ⟨fun _ => rfl, fun e he hle => absurd hle (not_le.2 (hdb.pos key e he)),
    fun _ _ _ _ _ => rfl⟩

theorem ready (hfresh : w.client.fresh = true → 0 < w.client.after →
    w.db.floor ≤ w.client.initialHigh)
    (hdelta : w.client.fresh = false → 0 < w.client.after → w.db.floor ≤ w.client.after)
    (hkey : isGlobal key = true) :
    Ready w.client.after w.client.fresh w.high w.client.copy[key]? w.db key := by
  rcases Nat.eq_zero_or_pos w.client.after with hzero | hpos
  · rw [h.zero hzero, getElem?_empty, hzero]
    exact ⟨fun _ => rfl, fun e he hle => absurd hle (not_le.2 (h.sound.pos key e he)),
      fun _ _ _ _ _ => rfl⟩
  have hbound : w.db.floor ≤ w.client.bound := by
    unfold Client.bound
    split
    · next hf => exact hfresh hf hpos
    · next hf => exact hdelta (Bool.not_eq_true _ ▸ hf) hpos
  have hheld := h.held.resolve_left (not_lt.2 hbound) key hkey
  refine ⟨hheld.gone, hheld.kept, fun e he hlt hdeleted hout => hheld.early e he hlt ?_ hdeleted⟩
  cases hf : w.client.fresh with
  | false =>
    rw [hf] at hout
    exact absurd ⟨(hdelta hf hpos).trans_lt hlt, fun hfalse => nomatch hfalse⟩ hout
  | true =>
    have hhigh : w.high = w.client.initialHigh := by
      rw [high, Db.pullHigh, if_pos hf, if_pos (h.high_pos hf hpos)]
      exact Nat.min_eq_right (h.high_le.trans (Nat.le_max_left _ _))
    rw [Client.bound, hf, if_pos rfl] at hbound ⊢
    rw [hf, hhigh] at hout
    by_contra hlt'
    exact hout ⟨hbound.trans_lt (not_le.1 hlt'), fun _ => not_le.1 hlt'⟩

variable {priorityId : Option String}

/-- The first page of an initial pull has all rows up to its checkpoint. -/
theorem prior_le (hlowest : w.client.fresh = true → w.client.after = 0 →
    PriorLowest w.db limit priorityId)
    (hone : Db.pageLimit limit = 1) {row row' : EntityRow} {p : Option String}
    (hp : p = if w.client.after = 0 ∧ w.client.fresh then priorityId else none)
    (hrow : row ∈ w.pageRows p) (hrow' : row' ∈ w.pageRows p) (hprior : row.Prior p) :
    row.sequence ≤ row'.sequence := by
  by_cases hfirst : w.client.after = 0 ∧ w.client.fresh = true
  · rw [if_pos hfirst] at hp
    subst hp
    have hhigh : w.high = max w.db.entitySequence w.db.floor := by
      rw [high, h.high_zero hfirst.2 hfirst.1, Db.pullHigh, if_pos hfirst.2, if_neg (lt_irrefl 0)]
    -- at the start no tombstone is above the highest number
    have hlive : ∀ {row}, row ∈ w.pageRows p →
        ∃ key e, w.db.entities[key]? = some e ∧ row = .of key e ∧ isGlobal key = true ∧
            e.deleted = false := by
      intro row hrow
      obtain ⟨key, e, he, rfl, hglobal, -, -, hshown⟩ := Db.mem_pageRows.1 hrow
      refine ⟨key, e, he, rfl, hglobal, ?_⟩
      rcases hshown with hf | hlive | hlt
      · cases hfirst.2.symm.trans hf
      · exact hlive
      · have hle := Db.seq_le_entitySequence he (Db.not_isTranscript_of_isGlobal hglobal)
        omega
    obtain ⟨key, e, he, rfl, -, hlive₁⟩ := hlive hrow
    obtain ⟨key', e', he', rfl, hglobal', hlive₂⟩ := hlive hrow'
    obtain ⟨hcollection, hid⟩ := hprior
    have hkey : key = ("agentSummary", key.2) := Prod.ext hcollection rfl
    rw [hkey] at he
    refine hlowest hfirst.2 hfirst.1 ?_ key.2 e hid.symm he hlive₁ key' e' he' hglobal' hlive₂
    unfold Db.pageLimit at hone
    simp only [syncEntityPageLimit] at hone
    omega
  · rw [hp, if_neg hfirst] at hprior
    cases hprior.2

/-- A page leaves the client in a good state, and right if it reports the highest number. -/
theorem accept {checkpoint : ℕ}
    (hready : ∀ key, isGlobal key = true →
      Ready w.client.after w.client.fresh w.high w.client.copy[key]? w.db key)
    (hpage : Db.Page w.db w.client.after limit w.client.fresh w.high priorityId rows checkpoint)
    (hrows : ∀ row ∈ w.pageRows priorityId, row.sequence ≤ checkpoint → row ∈ rows) :
    Inv hasDocument ⟨w.db, w.client.copy.accept rows, checkpoint, w.high,
      w.client.fresh && decide (checkpoint ≠ max w.db.entitySequence w.db.floor)⟩ ∧
    (checkpoint = max w.db.entitySequence w.db.floor →
      w.client.copy.accept rows = w.db.liveGlobal) := by
  have hmax : max w.db.entitySequence w.db.floor = w.db.entitySequence :=
    Nat.max_eq_left h.sound.floor_le
  obtain ⟨hle, hmax', hmoves⟩ := hpage.checkpoint_bounds (hmax.symm ▸ h.after_le)
  have hheld := fun key hkey => (hready key hkey).accept hkey hpage hle hrows
  have hothers : ∀ key, isGlobal key = false → (w.client.copy.accept rows)[key]? = none :=
      fun key hkey => by
    rw [Copy.getElem?_accept_of_notMem, h.others key hkey]
    intro hmem
    obtain ⟨row, hrow, rfl⟩ := mem_map.1 hmem
    obtain ⟨key, e, he, rfl, hglobal, -⟩ := Db.mem_pageRows.1 (hpage.mem hrow)
    cases hkey.symm.trans hglobal
  have hhigh : w.high ≤ w.db.entitySequence := by
    unfold high Db.pullHigh
    rw [hmax]
    split
    · split
      · exact Nat.min_le_left _ _
      · exact le_rfl
    · exact Nat.zero_le _
  have hempty : checkpoint = 0 → rows = [] := fun hzero => not_not.1 fun hne =>
    absurd (hmoves hne) (hzero ▸ Nat.not_lt_zero _)
  refine ⟨⟨h.sound, h.documented, hmax ▸ hmax', hhigh, fun hfresh hpos => ?_, fun hfresh hzero =>
    ?_, fun hzero => ?_, hothers, .inr fun key hkey => ?_⟩, fun hlast => ?_⟩
  · have hfresh : w.client.fresh = true := (Bool.and_eq_true_iff.1 hfresh).1
    have hpos : 0 < max w.db.entitySequence w.db.floor := lt_of_lt_of_le hpos hmax'
    simp only [Db.pullHigh, hfresh, if_true]
    split
    · next hhigh => exact lt_min hpos hhigh
    · exact hpos
  · have hmore := of_decide_eq_true (Bool.and_eq_true_iff.1 hfresh).2
    rcases hpage.cases with ⟨-, hlast⟩ | ⟨last, hlast, -, -⟩
    · exact absurd hlast hmore
    · rw [hempty hzero] at hlast
      cases hlast
  · have hafter : w.client.after = 0 := Nat.eq_zero_of_le_zero (hzero ▸ hle)
    rw [hempty hzero, h.zero hafter]
    rfl
  · unfold Client.bound
    cases hfresh : w.client.fresh && decide (checkpoint ≠ max w.db.entitySequence w.db.floor) with
    | true =>
      have hheld := hheld key hkey
      rw [if_pos (Bool.and_eq_true_iff.1 hfresh).1] at hheld
      exact hheld
    | false =>
      exact ⟨(hheld key hkey).gone, (hheld key hkey).kept, fun e _ hlt hle =>
        absurd hlt (not_lt.2 hle)⟩
  · refine ext_getElem? fun key => ?_
    rw [Db.getElem?_liveGlobal]
    cases hkey : isGlobal key with
    | false => exact hothers key hkey
    | true =>
      match he : w.db.entities[key]? with
      | none => exact (hheld key hkey).gone he
      | some e =>
        have hseq : e.seq ≤ checkpoint := by
          rw [hlast, hmax]
          exact Db.seq_le_entitySequence he (Db.not_isTranscript_of_isGlobal hkey)
        exact (hheld key hkey).kept e he hseq

/-- A pull keeps the state good, and is right if it reports the highest number. -/
theorem pull (hundisturbed : w.Undisturbed hasDocument (.pull limit priorityId)) :
    Inv hasDocument (w.step env hasDocument (.pull limit priorityId)) ∧
      w.Exact env hasDocument (.pull limit priorityId) := by
  obtain ⟨hmax, hhigh, hreset | ⟨hreset, hdelta, hpage⟩⟩ :=
    pullEntities_cases h.sound h.documented w.client.after limit
    w.client.fresh w.client.initialHigh priorityId
  · refine ⟨?_, fun hnot => ?_⟩
    · rw [step, reply, Client.receive, if_pos hreset]
      exact .start h.sound h.documented
    · cases hreset.symm.trans hnot
  have hready := fun key (hkey : isGlobal key = true) =>
    h.ready (fun hfresh => (hundisturbed hfresh).2) hdelta hkey
  obtain ⟨hinv, hexact⟩ := h.accept hready hpage fun row hrow hle => hpage.mem_of_le h.sound
    (fun hone row hrow hprior row' hrow' =>
      h.prior_le (fun hfresh => (hundisturbed hfresh).1) hone rfl hrow hrow' hprior)
    hrow hle
  have hstep : w.step env hasDocument (.pull limit priorityId) = ⟨w.db, w.client.copy.accept
      (w.reply hasDocument limit priorityId).documents,
        (w.reply hasDocument limit priorityId).checkpoint,
      w.high, w.client.fresh && decide
          ((w.reply hasDocument limit priorityId).checkpoint ≠
          max w.db.entitySequence w.db.floor)⟩ := by
    rw [step, reply, Client.receive, if_neg (hreset ▸ Bool.false_ne_true), hmax, hhigh]
  rw [Exact, hstep]
  exact ⟨hinv, fun _ hlast => hexact (hlast.trans hmax)⟩

end

end World.Inv

/-- In an undisturbed run each pull that reports the highest number leaves the client with the live
entities. -/
theorem pulls_exact (env : Env) (hasDocument : EntityRow → Bool) (events : List Event)
    (h : Along (World.step env hasDocument) (World.Undisturbed hasDocument) .start events) :
    Along (World.step env hasDocument) (World.Exact env hasDocument) .start events := by
  refine h.imp (I := World.Inv hasDocument) (.start Db.sound_empty fun key e he => ?_)
    fun w event hinv hevent => ?_
  · cases getElem?_empty.symm.trans he
  · cases event with
    | write x => exact ⟨hinv.write hevent, trivial⟩
    | pull limit priorityId => exact hinv.pull hevent

/-- A row that is deleted between the pages of an initial pull. -/
theorem pulls_exact_deleted :
    let step := World.step ⟨id, fun _ => none, fun _ => none⟩ fun _ => true
    let events : List Event :=
      [.write (.put "chat" "1" "a" false 0), .write (.put "chat" "2" "b" false 0),
        .write (.put "agentSummary" "ada" "c" false 0), .pull 2 (some "ada"),
        .write (.put "chat" "1" "" true 0), .pull 2 none, .pull 2 none]
    Along step (World.Undisturbed fun _ => true) .start events ∧
      Along step (World.Exact ⟨id, fun _ => none, fun _ => none⟩ fun _ => true) .start events := by
  intro step events
  have hundisturbed : Along step (World.Undisturbed fun _ => true) .start events := by
    refine ⟨fun _ _ => rfl, fun _ _ => rfl, fun _ _ => rfl,
      fun _ => ⟨fun _ hle => absurd hle (by decide), fun _ => ?_⟩, fun _ _ => rfl,
        fun _ => ⟨fun _ hle => absurd hle (by decide), fun _ => ?_⟩,
      fun _ => ⟨fun _ hle => absurd hle (by decide), fun _ => ?_⟩, trivial⟩
    all_goals exact le_of_eq_of_le (by decide +kernel) (Nat.zero_le _)
  exact ⟨hundisturbed, pulls_exact _ _ events hundisturbed⟩

/-- A first page of one row, the prior agent: its checkpoint is the highest number, and the chat
that was written before the agent is not in the copy. -/
theorem prior_row_skips_others :
    ¬ Along (World.step ⟨id, fun _ => none, fun _ => none⟩ fun _ => true)
    (World.Exact ⟨id, fun _ => none, fun _ => none⟩ fun _ => true) .start
    [.write (.put "chat" "1" "a" false 0), .write (.put "agentSummary" "ada" "b" false 0),
      .pull 1 (some "ada")] := by
  rintro ⟨-, -, hexact, -⟩
  have hcopy := congrArg (·[("chat", "1")]?) (hexact (by decide +kernel) (by decide +kernel))
  exact absurd hcopy (by decide +kernel)

end Layr.Entities
