import Layr.EntityScope

/-!
# Pages and fences of entity scopes

The pages of a transfer are the rows of the whole interval (`transferRows_eq`). The triggers keep
the fences: a live entity that leaves a scope raises one of the scope (`Put.le_fence_of_leaves`), an
agent that changes its root raises those of both roots (`Put.le_star`), and a deletion keeps the
fences of the entity (`Put.mem_provenance`) until a restoration outside the scope raises them
(`Put.le_fence_of_restores`).
-/

namespace Layr.Entities

open Tables Paging List Option

variable {env : Env} {db db' : Db} {key k : Key} {old new e : Entity} {scope : Scope}
  {payload : Option String} {snapshot : Bool} {after through limit c : ℕ} {interval : EntityPage}
  {f : Fence}

/-! ## Pages -/

namespace Scope

theorem rising_rows (hdb : db.Sound) :
    Rising EntityRow.sequence (scope.rows env db snapshot after through) := by
  have hmem : ∀ row, row ∈ select (fun key (e : Entity) =>
      if scope.covers key ∧ (scope.selects env db e.payload ∨ e.deleted) ∧ after < e.seq ∧
        e.seq ≤ through ∧
          (snapshot = true → e.deleted = false) then
        some (⟨key.1, key.2, e.seq, e.payload, e.deleted⟩ : EntityRow)
      else none) db.entities → row ∈ scope.rows env db snapshot after through :=
    fun row hrow => (perm_insertionSort _ _).mem_iff.2 hrow
  refine rising_insertionSort (fun a ha b hb heq => ?_) ?_
  · obtain ⟨e, he, hea⟩ := map_eq_some_iff.1 (mem_rows.1 (hmem a ha)).1
    obtain ⟨e', he', heb⟩ := map_eq_some_iff.1 (mem_rows.1 (hmem b hb)).1
    simp only [Prod.mk.injEq] at hea heb
    have hkey := hdb.inj _ _ e e' he he' (by rw [hea.1, heb.1, heq])
    rw [hkey] at he
    cases he.symm.trans he'
    obtain ⟨hcollection, hid⟩ := Prod.mk.inj hkey
    cases a
    simp_all
  · refine List.Nodup.of_map EntityRow.key (nodup_select fun key e row hrow => ?_)
    split at hrow
    · cases hrow
      rfl
    · cases hrow

theorem rows_filter (hdb : db.Sound) {mark : ℕ} (hle : after ≤ mark) :
    (scope.rows env db snapshot after through).filter (fun row => mark < row.sequence) =
      scope.rows env db snapshot mark through := by
  refine Rising.eq_of_mem_iff ((rising_rows hdb).sublist filter_sublist)
    (rising_rows hdb) fun row => ?_
  rw [mem_filter, mem_rows, mem_rows, decide_eq_true_eq]
  constructor
  · rintro ⟨⟨hrow, hcovers, hselects, -, hthrough, hsnapshot⟩, hlt⟩
    exact ⟨hrow, hcovers, hselects, hlt, hthrough, hsnapshot⟩
  · rintro ⟨hrow, hcovers, hselects, hlt, hthrough, hsnapshot⟩
    exact ⟨⟨hrow, hcovers, hselects, hle.trans_lt hlt, hthrough, hsnapshot⟩, hlt⟩

/-- A page is the last one, or it has the first rows of the interval and a checkpoint at the last of
them. -/
theorem continue_cases (scope : Scope) (env : Env) (limit : ℕ) (interval : EntityPage)
    (hdb : db.Sound) :
    let page := scope.continueEntityScope env db interval limit
    let rs := scope.rows env db interval.reset interval.checkpoint interval.maxSequence
    (page.rows = rs ∧ page.checkpoint = page.maxSequence) ∨
      ∃ n, page.rows = rs.take n ∧ interval.checkpoint < page.checkpoint ∧
        page.checkpoint < page.maxSequence ∧
        scope.rows env db page.reset page.checkpoint page.maxSequence = rs.drop n := by
  intro page rs
  obtain ⟨n, hpos, hrows, hcheckpoint⟩ : ∃ n, 0 < n ∧ page.rows = rs.take n ∧ page.checkpoint =
      if n < rs.length then ((rs.take n).getLast?.map (·.sequence)).getD interval.checkpoint
      else interval.maxSequence := by
    refine ⟨max 1 (min limit syncEntityStreamMaxDocuments), by omega, ?_⟩
    simp only [page, continueEntityScope, rs, take_take, length_take,
      Nat.min_eq_left (Nat.le_succ _)]
    refine ⟨trivial, if_congr ?_ rfl rfl⟩
    omega
  by_cases hmore : n < rs.length
  · right
    have hne : rs.take n ≠ [] := by
      rw [Ne, take_eq_nil_iff]
      rintro (hzero | hnil)
      · omega
      · rw [hnil] at hmore
        cases hmore
    have hlast := getLast?_eq_getLast_of_ne_nil hne
    generalize (rs.take n).getLast hne = last at hlast
    rw [if_pos hmore, hlast] at hcheckpoint
    have hcheckpoint : page.checkpoint = last.sequence := hcheckpoint
    obtain ⟨-, -, -, hlt, hthrough, -⟩ := mem_rows.1 (mem_of_mem_take (mem_of_getLast? hlast))
    have hdrop := (rising_rows hdb).filter_last hlast
    rw [rows_filter hdb hlt.le] at hdrop
    refine ⟨n, hrows, hcheckpoint ▸ hlt, ?_, ?_⟩
    · -- the next row is in the interval
      have hnext : rs.drop n ≠ [] := fun hnil => absurd (drop_eq_nil_iff.1 hnil) (not_le.2 hmore)
      obtain ⟨row, hrow⟩ := exists_mem_of_ne_nil _ hnext
      rw [← hdrop, mem_rows] at hrow
      rw [hcheckpoint]
      exact hrow.2.2.2.1.trans_le hrow.2.2.2.2.1
    · rw [hcheckpoint]
      exact hdrop
  · left
    rw [if_neg hmore] at hcheckpoint
    exact ⟨hrows.trans (take_of_length_le (not_lt.1 hmore)), hcheckpoint⟩

/-- All pages together are the rows of the interval. -/
theorem transferRows_eq (hdb : db.Sound) :
    scope.transferRows env db limit (scope.continueEntityScope env db interval limit) =
      scope.rows env db interval.reset interval.checkpoint interval.maxSequence := by
  induction hn : interval.maxSequence -
      interval.checkpoint using Nat.strongRecOn generalizing interval with
  | _ n ih =>
    rw [transferRows]
    rcases continue_cases scope env limit interval
      hdb with ⟨hrows, hlast⟩ | ⟨m, hrows, hlt, hmax, hrest⟩
    · rw [if_neg (hlast ▸ lt_irrefl _), hrows]
    · have hmax' : (scope.continueEntityScope env db interval limit).maxSequence =
        interval.maxSequence := rfl
      rw [if_pos hmax, ih _ (by omega) rfl, hrest, hrows, take_append_drop]

end Scope

/-! ## Applying rows -/

variable {rows : List EntityRow} {copy : Copy}

theorem Copy.getElem?_accept_of_notMem (h : k ∉ rows.map EntityRow.key) :
    (copy.accept rows)[k]? = copy[k]? := by
  induction rows generalizing copy with
  | nil => rfl
  | cons row rows ih =>
    rw [map_cons, mem_cons, not_or] at h
    rw [accept, foldl_cons, ← accept, ih h.2]
    split
    · exact getElem?_erase_ne (Ne.symm h.1)
    · exact Maps.getElem?_insert_ne (Ne.symm h.1)

theorem Copy.getElem?_accept_of_mem (hnd : (rows.map EntityRow.key).Nodup) {row : EntityRow}
    (hrow : row ∈ rows) :
    (copy.accept rows)[row.key]? = if row.deleted then none else some row.payload := by
  induction rows generalizing copy with
  | nil => cases hrow
  | cons row' rows ih =>
    rw [map_cons, nodup_cons] at hnd
    rw [accept, foldl_cons, ← accept]
    rcases mem_cons.1 hrow with rfl | hrow
    · rw [getElem?_accept_of_notMem hnd.1]
      split
      · exact getElem?_erase_self
      · exact getElem?_insert_self
    · exact ih hnd.2 hrow

/-! ## Fences -/

namespace Scope

def Relevant (scope : Scope) (collection : String) (f : Fence) : Prop :=
  f = [collection, scope.agent] ∨
    (scope.includeTeamMembers = true ∧ f = [collection, scope.agent, "team"])

/-- A payload is selected if one of its fences is relevant. -/
theorem selects_iff (collection : String) : scope.selects env db payload = true ↔
    ∃ f ∈ db.identities env collection payload, scope.Relevant collection f := by
  have hselects : scope.selects env db payload = true ↔ (scope.includeTeamMembers = true ∧
      scope.agent ∈ (env.agent payload).toList ++ db.rootsOf env (env.agent payload)) ∨
      scope.agent ∈ (env.rootId payload).toList := by
    simp [selects]
  rw [hselects]
  constructor
  · rintro (⟨hteam, hagent⟩ | hroot)
    · exact ⟨_, mem_append_right _ (mem_map_of_mem hagent), .inr ⟨hteam, rfl⟩⟩
    · exact ⟨_, mem_append_left _ (mem_map_of_mem hroot), .inl rfl⟩
  · rintro ⟨f, hf, hrelevant⟩
    rcases mem_append.1 hf with hf | hf <;> obtain ⟨s, hs, rfl⟩ := mem_map.1 hf
    · rcases hrelevant with heq | ⟨-, heq⟩
      · obtain rfl : s = scope.agent := by simpa using heq
        exact .inr hs
      · cases heq
    · rcases hrelevant with heq | ⟨hteam, heq⟩
      · cases heq
      · obtain rfl : s = scope.agent := by simpa using heq
        exact .inl ⟨hteam, hs⟩

theorem fence_le_revision {collection : String} (hmem : collection ∈ scope.collections)
    (hf : scope.Relevant collection f) : db.fences f ≤ scope.visibilityRevision db := by
  refine le_highest (mem_map_of_mem ?_)
  rcases hf with rfl | ⟨hteam, rfl⟩
  · exact mem_append_left _ (mem_map_of_mem hmem)
  · rw [hteam, if_pos rfl]
    exact mem_append_right _ (mem_append_left _ (mem_map_of_mem hmem))

theorem star_le_revision (hteam : scope.includeTeamMembers = true) :
    db.fences ["*", scope.agent] ≤ scope.visibilityRevision db := by
  refine le_highest (mem_map_of_mem ?_)
  rw [hteam, if_pos rfl]
  exact mem_append_right _ (mem_append_right _ (mem_singleton_self _))

theorem revision_mono (h : ∀ f, db.fences f ≤ db'.fences f) :
    scope.visibilityRevision db ≤ scope.visibilityRevision db' := by
  refine highest_le_iff.2 fun n hn => ?_
  obtain ⟨f, hf, rfl⟩ := mem_map.1 hn
  exact (h f).trans (le_highest (mem_map_of_mem hf))

end Scope

/-! ## What the triggers guarantee -/

namespace Db

theorem le_raise {keys : List Fence} {n : ℕ} (hf : f ∈ keys) : n ≤ (db.raise keys n).fences f := by
  simp only [raise, hf, if_true]
  exact Nat.le_max_right _ _

theorem rootsOf_congr {a : Option String}
    (h : ∀ agent : String, a = some agent →
      db'.entities[("agentSummary", agent)]? = db.entities[("agentSummary", agent)]?) :
    db'.rootsOf env a = db.rootsOf env a := by
  cases a with
  | none => rfl
  | some agent => simp [rootsOf, h agent rfl]

section

variable (hkey : key.1 ≠ "agentSummary") (hdb' : db'.entities = db.entities.insert key new)
include hkey hdb'

theorem rootsOf_insert (a : Option String) : db'.rootsOf env a = db.rootsOf env a := by
  refine rootsOf_congr fun agent _ => ?_
  rw [hdb', Maps.getElem?_insert_ne]
  rintro rfl
  exact hkey rfl

theorem identities_insert (collection : String) (payload : Option String) :
    db'.identities env collection payload = db.identities env collection payload := by
  rw [identities, identities, rootsOf_insert hkey hdb']

end

theorem mem_rootsOf {root agent : String} : root ∈ db.rootsOf env (some agent) ↔
    ∃ e, db.entities[("agentSummary", agent)]? = some e ∧ e.deleted = false ∧
      env.rootId e.payload = some root := by
  unfold rootsOf
  simp only
  split
  · next hnone => simp [hnone]
  · next e he =>
    cases hdeleted : e.deleted <;> simp [he, hdeleted]

/-- The condition of `sync_entity_scope_visibility_update`. -/
def Moves (env : Env) (key : Key) (old new : Entity) : Prop :=
  ((old.deleted = false ∧ new.deleted = false) ∧
    (env.agent old.payload ≠ env.agent new.payload ∨
      env.rootId old.payload ≠ env.rootId new.payload)) ∨
  (key.1 = "agentSummary" ∧ old.deleted ≠ new.deleted)

theorem visibilityUpdate_of_moves (h : Moves env key old new) :
    visibilityUpdate env db key old new =
    (db.raise (if old.deleted = false ∧ new.deleted = false then moved env db key.1 old new else [])
      new.seq).raise
      (if key.1 = "agentSummary" then (movedRoots env old new).map fun root => ["*", root] else [])
        new.seq :=
  if_pos h

theorem mem_movedRoots {root : String}
    (h : (old.deleted = false ∧ env.rootId old.payload = some root) ∨
      (new.deleted = false ∧ env.rootId new.payload = some root)) :
    root ∈ movedRoots env old new := by
  rcases h with ⟨hlive, hroot⟩ | ⟨hlive, hroot⟩
  · refine mem_append_left _ ?_
    rw [hlive, hroot]
    exact mem_singleton_self root
  · refine mem_append_right _ ?_
    rw [hlive, hroot]
    exact mem_singleton_self root

/-- A write of an agent raises the fence of a root that it leaves or enters. -/
theorem Put.le_star {agent root : String} (h : Put env db ("agentSummary", agent) new db')
    (hmoved : ¬ (root ∈ db'.rootsOf env (some agent) ↔ root ∈ db.rootsOf env (some agent))) :
    new.seq ≤ db'.fences ["*", root] := by
  simp only [mem_rootsOf, h.getElem_self, some.injEq, exists_eq_left'] at hmoved
  rw [h.eq]
  match hold : db.entities[("agentSummary", agent)]? with
  | none =>
    obtain ⟨hlive, hroot⟩ : new.deleted = false ∧ env.rootId new.payload = some root := by
      by_contra hnot
      exact hmoved (iff_of_false hnot fun ⟨e, he, _⟩ => (nomatch hold.symm.trans he))
    rw [upsert_insert hold, visibilityInsert, if_pos ⟨rfl, hlive⟩, hroot]
    exact le_raise (mem_singleton_self _)
  | some old =>
    simp only [hold, some.injEq, exists_eq_left'] at hmoved
    have hroot : root ∈ movedRoots env old new := by
      refine mem_movedRoots ?_
      by_contra hnot
      rw [not_or] at hnot
      exact hmoved (iff_of_false hnot.2 hnot.1)
    have hmoves : Moves env ("agentSummary", agent) old new := by
      by_contra hnot
      obtain ⟨hmove, hdeleted⟩ := not_or.1 hnot
      have hsame : old.deleted = new.deleted := not_not.1 fun hne => hdeleted ⟨rfl, hne⟩
      refine hmoved ?_
      rw [← hsame]
      refine and_congr_right fun hlive => ?_
      rw [not_not.1 fun hne => hmove ⟨⟨hlive, hsame ▸ hlive⟩, .inr hne⟩]
    rw [upsert_update hold, tombstoneUpdate, if_pos (.inr rfl), visibilityUpdate_of_moves hmoves,
      if_pos rfl]
    exact le_raise (mem_map_of_mem hroot)

theorem notMem_identities_of_not_selects (hkey : key.1 ≠ "agentSummary")
    (h : Put env db key new db') (hrelevant : scope.Relevant key.1 f)
    (hnot : scope.selects env db' new.payload = false) :
    f ∉ db.identities env key.1 new.payload := fun hmem => by
  rw [(Scope.selects_iff key.1).2
    ⟨f, identities_insert hkey h.entities key.1 new.payload ▸ hmem, hrelevant⟩] at hnot
  cases hnot

/-- A live entity that leaves a scope raises one of its fences. -/
theorem Put.le_fence_of_leaves (h : Put env db key new db') (hkey : key.1 ≠ "agentSummary")
    (hold : db.entities[key]? = some old) (hlive : old.deleted = false)
    (hlive' : new.deleted = false) (hselects : scope.selects env db old.payload = true)
    (hnot : scope.selects env db' new.payload = false) :
    ∃ f, scope.Relevant key.1 f ∧ new.seq ≤ db'.fences f := by
  obtain ⟨f, hf, hrelevant⟩ := (Scope.selects_iff key.1).1 hselects
  refine ⟨f, hrelevant, ?_⟩
  have hgone := notMem_identities_of_not_selects hkey h hrelevant hnot
  have hmem : f ∈ moved env (written db key new) key.1 old new := by
    have hroots : ∀ a, (written db key new).rootsOf env a = db.rootsOf env a :=
      rootsOf_insert hkey rfl
    unfold moved
    simp only [hroots]
    rcases mem_append.1 hf with hf | hf <;> obtain ⟨s, hs, rfl⟩ := mem_map.1 hf
    · refine mem_append_left _ (mem_map_of_mem ?_)
      rw [if_neg]
      · exact mem_append_left _ hs
      · intro heq
        rw [heq] at hs
        exact hgone (mem_append_left _ (mem_map_of_mem hs))
    · refine mem_append_right _ (mem_map_of_mem ?_)
      rw [if_neg]
      · rcases mem_append.1 hs with hs | hs
        · exact mem_append_left _ (mem_append_left _ (mem_append_left _ hs))
        · exact mem_append_left _ (mem_append_right _ hs)
      · intro heq
        rw [heq] at hs
        exact hgone (mem_append_right _ (mem_map_of_mem hs))
  have hmoves : Moves env key old new := by
    refine .inl ⟨⟨hlive, hlive'⟩, ?_⟩
    by_contra hnot
    obtain ⟨hagent, hroot⟩ := not_or.1 hnot
    unfold moved at hmem
    simp only [not_not.1 hagent, not_not.1 hroot, if_true, map_nil, append_nil] at hmem
    cases hmem
  have htouches :=
    (Touches.raise key
    ((written db key new).raise
      (if old.deleted = false ∧ new.deleted =
      false then moved env (written db key new) key.1 old new else []) new.seq)
      (if key.1 = "agentSummary" then (movedRoots env old new).map fun root => ["*", root] else [])
        new.seq).trans
    (touches_tombstoneUpdate env _ key old new)
  rw [h.eq, upsert_update hold, visibilityUpdate_of_moves hmoves]
  refine le_trans (le_raise ?_) (htouches.fences f)
  rw [if_pos ⟨hlive, hlive'⟩]
  exact hmem

theorem provenance_visibilityUpdate (env : Env) (db : Db) (key : Key) (old new : Entity) :
    (visibilityUpdate env db key old new).provenance = db.provenance := by
  unfold visibilityUpdate
  simp only
  split <;> rfl

theorem identities_visibilityUpdate (hkey : key.1 ≠ "agentSummary") (collection : String)
    (payload : Option String) :
    (visibilityUpdate env (written db key new) key old new).identities env collection payload =
      db.identities env collection payload := by
  have hentities : (visibilityUpdate env (written db key new) key old new).entities =
      db.entities.insert key new :=
    (touches_visibilityUpdate ..).entities
  exact identities_insert hkey hentities ..

/-- A deletion keeps the fences of the entity. -/
theorem Put.mem_provenance (h : Put env db key new db') (hkey : key.1 ≠ "agentSummary")
    (hold : db.entities[key]? = some old) (hlive : old.deleted = false)
    (hdeleted : new.deleted = true) (hf : f ∈ db.identities env key.1 old.payload) :
    f ∈ db'.provenance key := by
  have hflips : ¬ (old.deleted = new.deleted ∨ key.1 = "agentSummary") := by
    rw [hlive, hdeleted]
    exact not_or.2 ⟨Bool.false_ne_true, hkey⟩
  rw [h.eq, upsert_update hold, tombstoneUpdate, if_neg hflips, if_pos hdeleted,
    identities_visibilityUpdate hkey, if_neg (ne_nil_of_mem hf)]
  simp only [Function.update_self]
  exact hf

/-- While an entity is deleted, they stay. -/
theorem Put.provenance_deleted (h : Put env db key new db') (hold : db.entities[key]? = some old)
    (hdeleted : old.deleted = true) (hdeleted' : new.deleted = true) :
    db'.provenance key = db.provenance key := by
  rw [h.eq, upsert_update hold, tombstoneUpdate, if_pos (.inl (hdeleted.trans hdeleted'.symm)),
    provenance_visibilityUpdate]
  rfl

/-- A restoration outside a scope raises the fences that the deletion kept. -/
theorem Put.le_fence_of_restores (h : Put env db key new db') (hkey : key.1 ≠ "agentSummary")
    (hold : db.entities[key]? = some old) (hdeleted : old.deleted = true)
    (hlive : new.deleted = false) (hf : f ∈ db.provenance key) (hrelevant : scope.Relevant key.1 f)
    (hnot : scope.selects env db' new.payload = false) : new.seq ≤ db'.fences f := by
  have hflips : ¬ (old.deleted = new.deleted ∨ key.1 = "agentSummary") := by
    rw [hlive, hdeleted]
    exact not_or.2 ⟨Bool.true_eq_false.mp, hkey⟩
  have hgone : ∃ fence ∈ db.provenance key, fence ∉ db.identities env key.1 new.payload :=
    ⟨f, hf, notMem_identities_of_not_selects hkey h hrelevant hnot⟩
  rw [h.eq, upsert_update hold, tombstoneUpdate, if_neg hflips,
    if_neg (by rw [hlive]; exact Bool.false_ne_true), identities_visibilityUpdate hkey,
      provenance_visibilityUpdate]
  have hkept : (written db key new).provenance key = db.provenance key := rfl
  simp only [hkept, if_pos hgone]
  exact le_raise hf

end Db

end Layr.Entities
