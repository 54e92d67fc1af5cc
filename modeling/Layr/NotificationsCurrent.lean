import Layr.NotificationsGood

/-!
# Copies of notified resources

`copies_current`: after every undisturbed run, a subscriber that has finished a poll at the present
cursor has the present content of its resources. The steps of a poll keep the invariant of the last
module: a sample takes versions since which nothing changed (`Good.candidate`), a comparison with
the cache selects a resource or finds the copy right (`Polling.next`), and an entry that takes over
an old revision has the content of that revision (`Good.check`).

A poll that reads a resource after a change, for a version that it sampled before, puts the new
content under the old version into the cache. A subscriber that has read the old content at that
version is then not told of the change (`late_read_hides_change`).
-/

namespace Layr.Notifications

open Runs List

variable {Content Digest : Type} {kind : String → ResourceKind} {hash : Content → Digest}
  {w w' : World Content Digest} {asOf : String → ℕ → Content} {cover : String → ℕ}
  {sub : Subscriber Content Digest} {poll : Poll Digest}
  {view : ResourceChanges} {key : String} {s v c : ℕ}

/-! ## Samples -/

theorem Steady.mono {v' : ℕ} (h : Steady asOf w key v) (hle : v ≤ v') : Steady asOf w key v' :=
  ⟨h.published, fun n hn => h.same n (hle.trans hn)⟩

variable {after : Option ℕ}

section
variable {hub : ChangeSnapshot} {pubs : Publications} {resources : List String}

theorem mem_changesSince : (key, v) ∈ (changesSince kind hub pubs resources after).resources ↔
    key ∈ resources ∧
    ((∀ a ∈ after, a < versionOf kind hub pubs key) ∨ ∃ a ∈ after, a < pubs.prunedRevision) ∧
    v = if versionOf kind hub pubs key = 0 ∨ ∃ a ∈ after, a < pubs.prunedRevision then hub.revision
      else versionOf kind hub pubs key := by
  simp only [changesSince, mem_map, mem_filter, Bool.or_eq_true, Option.all_eq_true,
    Option.any_eq_true, decide_eq_true_eq, Option.mem_def]
  constructor
  · rintro ⟨_, ⟨hmem, hnew⟩, ⟨⟩⟩
    exact ⟨hmem, hnew, rfl⟩
  · rintro ⟨hmem, hnew, rfl⟩
    exact ⟨key, ⟨hmem, hnew⟩, rfl⟩

end

section
variable {resources : List String} (h : Good kind hash asOf cover w)
include h

/-- The resources that a sample finds changed are published and have not changed since their
versions. -/
theorem Good.candidate (hpruned : after = none → w.pubs.prunedRevision = 0) {x : String × ℕ}
    (hx : x ∈ (changesSince kind w.hub w.pubs resources after).resources)
    (hkind : (kind x.1).isEntity = false) (hpublished : w.pending x.1 = false) :
    (x.2 ≤ w.hub.revision ∧ ∀ a, after = some a → a < x.2) ∧ Steady asOf w x.1 x.2 := by
  have hle := h.version_le x.1 hkind
  have hversion := h.version x.1 hkind
  have hcover := h.cover_le x.1
  have hpruned_le := h.bounded.pruned
  obtain ⟨hbound, hrev, hafter⟩ : cover x.1 ≤ x.2 ∧ x.2 ≤ w.hub.revision ∧ ∀ a, after = some a →
      a < x.2 := by
    obtain ⟨-, hnew, hv⟩ := mem_changesSince.1 hx
    cases after with
    | none =>
      have hzero := hpruned rfl
      simp only [Option.mem_def, reduceCtorEq, false_and, exists_false, or_false] at hv
      split at hv
      · exact ⟨by omega, by omega, fun a ha => nomatch ha⟩
      · exact ⟨by omega, by omega, fun a ha => nomatch ha⟩
    | some a =>
      simp only [Option.mem_def, Option.some.injEq, forall_eq', exists_eq_left'] at hnew hv ⊢
      split at hv
      · exact ⟨by omega, by omega, by omega⟩
      · -- a version that is not above what was pruned is the last publication
        exact ⟨by omega, by omega, by omega⟩
  refine ⟨⟨hrev, hafter⟩, hpublished, fun n hn hn' => ?_⟩
  rw [h.constant x.1 n (hbound.trans hn) hn', h.settled x.1 hpublished]

/-- The others have no publication above the cursor. -/
theorem Good.not_candidate (hkey : key ∈ resources) (hkind : (kind key).isEntity = false)
    (hx : key ∉ (changesSince kind w.hub w.pubs resources after).resources.map (·.1)) :
    ∃ a, after = some a ∧ cover key ≤ a := by
  have hnot := fun hnew => hx (mem_map.2 ⟨(key, _), mem_changesSince.2 ⟨hkey, hnew, rfl⟩, rfl⟩)
  cases after with
  | none => exact absurd (.inl fun a ha => nomatch ha) hnot
  | some a =>
    simp only [Option.mem_def, Option.some.injEq, forall_eq', exists_eq_left', imp_false] at hnot
    have hversion := h.version key hkind
    exact ⟨a, rfl, by omega⟩

end

/-! ## Replies -/

/-- The reply of a closed hub is the whole view. -/
theorem subGood_reply_closed (hclosed : w.hub.closed = true)
    (hcursor : view.cursor.revision ≤ w.hub.revision)
    (hview : ∀ x ∈ view.resources, (kind x.1).isEntity = false → x.2 ≤ view.cursor.revision ∧
    Steady asOf w x.1 x.2)
    (hothers : ∀ key ∈ sub.resources, (kind key).isEntity = false → key ∉ view.resources.map (·.1) →
      sub.copy key = some (asOf key view.cursor.revision)) :
    SubGood kind hash asOf w (sub.reply view.cursor.revision view.resources) := by
  have hopen : w.hub.closed ≠ false := hclosed ▸ Bool.noConfusion
  refine ⟨fun _ => ⟨fun hnone => (nomatch hnone), fun c hc => ?_, fun c hc key hkey hkind => ?_,
    fun c hc key hmem hkind hkey => ?_⟩, fun poll hpoll => nomatch hpoll⟩ <;> cases hc
  · exact hcursor
  · obtain ⟨x, hx, rfl⟩ := mem_map.1 hkey
    obtain ⟨hle, hsteady⟩ := hview x hx hkind
    exact ⟨hsteady.mono hle, fun hc => absurd hc hopen⟩
  · exact ⟨hothers key hmem hkind hkey, fun hc => absurd hc hopen⟩

/-- The reply when all resources are compared. -/
theorem Polling.reply (h : Polling kind hash asOf w sub poll) (hrest : poll.rest = []) :
    SubGood kind hash asOf w (sub.reply poll.view.cursor.revision poll.selected) := by
  refine ⟨fun _ => ⟨fun hnone => (nomatch hnone), fun c hc => ?_, fun c hc key hkey hkind => ?_,
    fun c hc key hmem hkind hkey => ?_⟩, fun poll hpoll => nomatch hpoll⟩ <;> cases hc
  · exact h.cursor_le
  · obtain ⟨x, hx, rfl⟩ := mem_map.1 hkey
    obtain ⟨hview, hfresh⟩ := h.selected x hx
    obtain ⟨y, hy, heq⟩ := mem_map.1 hview
    rw [← heq] at hkind hfresh ⊢
    exact ⟨(h.steady y hy hkind).mono (h.version y hy hkind).1, fun _ => hfresh hkind⟩
  · by_cases hview : key ∈ poll.view.resources.map (·.1)
    · obtain ⟨x, hx, rfl⟩ := mem_map.1 hview
      rcases h.done x hx hkind with hrest' | hselected | hheld
      · rw [hrest] at hrest'
        cases hrest'
      · exact absurd hselected hkey
      · exact ⟨hheld.1, fun _ => hheld.2⟩
    · exact ⟨(h.unchanged key hmem hkind hview).1, fun _ => (h.unchanged key hmem hkind hview).2⟩

/-- Reading a selected resource again. -/
theorem Idle.fetch (h : Idle kind asOf w sub) (hpoll : sub.poll = none) (hkey : key ∈ sub.todo) :
    SubGood kind hash asOf w { sub with
      copy := Function.update sub.copy key (some (w.content key))
      todo := sub.todo.filter fun k => k ≠ key } := by
  have hmem : ∀ k, k ∈ (sub.todo.filter fun k => k ≠ key) ↔ k ∈ sub.todo ∧ k ≠ key := fun k => by
    rw [mem_filter, decide_eq_true_eq]
  refine ⟨fun _ =>
    ⟨fun hnone => ?_, h.after_le, fun c hc k hk hkind => ?_, fun c hc k hk hkind hnot => ?_⟩,
      fun poll hsome => nomatch hpoll.symm.trans hsome⟩
  · rw [h.start hnone] at hkey
    cases hkey
  · exact h.waiting c hc k ((hmem k).1 hk).1 hkind
  · by_cases heq : k = key
    · subst heq
      obtain ⟨hsteady, hfresh⟩ := h.waiting c hc k hkey hkind
      have hsame := hsteady.same c le_rfl (h.after_le c hc)
      refine ⟨?_, fun hclosed entry hentry hk' _ => ?_⟩
      · rw [hsame]
        exact Function.update_self ..
      · rw [hsame, hfresh hclosed entry hentry hk']
    · obtain ⟨hcopy, hfits⟩ := h.held c hc k hk hkind fun htodo => hnot ((hmem k).2 ⟨htodo, heq⟩)
      exact ⟨(Function.update_of_ne heq ..).trans hcopy, hfits⟩

/-! ## Samples begin a poll -/

section

variable (h : Good kind hash asOf cover w) (hpoll : (w.subs s).poll = none)
  (htodo : (w.subs s).todo = [])
include h hpoll htodo

/-- What a subscriber has when it samples. -/
theorem Good.sampled (hkey : key ∈ (w.subs s).resources) (hkind : (kind key).isEntity = false)
    (hview : key ∉
      (changesSince kind w.hub w.pubs (w.subs s).resources (w.subs s).after).resources.map (·.1)) :
    (w.subs s).copy key = some (asOf key w.hub.revision) ∧
      (w.hub.closed = false → Fits asOf w key w.hub.revision) := by
  have hidle := (h.subs s).idle hpoll
  obtain ⟨a, ha, hcover⟩ := h.not_candidate hkey hkind hview
  obtain ⟨hcopy, hfits⟩ := hidle.held a ha key hkey hkind (htodo ▸ not_mem_nil)
  have hsame := h.constant key a hcover (hidle.after_le a ha)
  refine ⟨by rw [hcopy, hsame], fun hclosed entry hentry hk hle => ?_⟩
  obtain ⟨hchecked, hrev⟩ := h.checked entry hentry
  by_cases hrevision : entry.revision ≤ a
  · rw [← hsame]
    exact hfits hclosed entry hentry hk hrevision
  · -- the entry was checked after the last publication
    exact (h.constant key _ (hcover.trans ((not_le.1 hrevision).le.trans hchecked)) hrev).symm

theorem Good.polling (hundisturbed : w.Undisturbed kind (.sample s))
    (hclosed : w.hub.closed = false) :
    Polling kind hash asOf w (w.subs s)
      ⟨changesSince kind w.hub w.pubs (w.subs s).resources (w.subs s).after,
      (changesSince kind w.hub w.pubs (w.subs s).resources (w.subs s).after).resources, [],
        .lookup⟩ := by
  have hidle := (h.subs s).idle hpoll
  have hmem :
    ∀ x ∈ (changesSince kind w.hub w.pubs (w.subs s).resources (w.subs s).after).resources,
      x.1 ∈ (w.subs s).resources := fun x hx => (mem_changesSince.1 hx).1
  have hview := fun x hx hkind => h.candidate hundisturbed.2 (x := x) hx hkind
    (hundisturbed.1 x.1 (hmem x hx) hkind)
  refine ⟨htodo, le_rfl, hidle.after_le, fun x hx hkind => (hview x hx hkind).1, fun x hx hkind =>
    (hview x hx hkind).2, fun key hkey hkind hnot => ?_, fun _ hx => hx, fun x hx hkind a ha => ?_,
      fun x hx => ?_, fun x hx _ => .inl hx,
    .inl rfl, fun d hd => nomatch hd⟩
  · obtain ⟨hcopy, hfits⟩ := h.sampled hpoll htodo hkey hkind hnot
    exact ⟨hcopy, hfits hclosed⟩
  · obtain ⟨hcopy, hfits⟩ := hidle.held a ha x.1 (hmem x hx) hkind (htodo ▸ not_mem_nil)
    exact ⟨hcopy, hfits hclosed⟩
  · cases hx

end

/-! ## The steps of a poll -/

theorem SubGood.of_polling (h : Polling kind hash asOf w sub poll) :
    SubGood kind hash asOf w { sub with poll := some poll } :=
  ⟨fun hnone => (nomatch hnone), fun _ hsome => Option.some.inj hsome ▸ { __ := h }⟩

section
variable {rest selected : List (String × ℕ)} {stage : Stage Digest} {revision : ℕ}
  (h : Polling kind hash asOf w sub ⟨view, (key, v) :: rest, selected, stage⟩)
include h

/-- The next resource is done: it is selected, or its copy is right. -/
theorem Polling.advance {selected' : List (String × ℕ)} (hsub : selected ⊆ selected')
    (hselected : ∀ x ∈ selected', x ∈ selected ∨ x.1 = key ∧
      ((kind key).isEntity = false → Fresh asOf w key))
    (hdone : (kind key).isEntity = false → key ∈ selected'.map (·.1) ∨
      (sub.copy key = some (asOf key view.cursor.revision) ∧
        Fits asOf w key view.cursor.revision)) :
    SubGood kind hash asOf w { sub with poll := some ⟨view, rest, selected', .lookup⟩ } := by
  refine .of_polling { h with
    rest := fun x hx => h.rest x (mem_cons_of_mem _ hx)
    waiting := fun x hx => h.waiting x (mem_cons_of_mem _ hx)
    selected := fun x hx => ?_
    done := fun x hx hkind => ?_
    reading := .inl rfl
    digest := fun d hd => nomatch hd }
  · rcases hselected x hx with hx | ⟨hkey, hfresh⟩
    · exact h.selected x hx
    · rw [hkey]
      exact ⟨mem_map_of_mem (h.rest _ (mem_cons_self ..)), hfresh⟩
  · rcases h.done x hx hkind with hrest | hselected | hheld
    · rcases mem_cons.1 hrest with rfl | hrest
      · exact .inr (hdone hkind)
      · exact .inl hrest
    · exact .inr (.inl (map_subset _ hsub hselected))
    · exact .inr (.inr hheld)

theorem Polling.select (hfresh : (kind key).isEntity = false → Fresh asOf w key) :
    SubGood kind hash asOf w
      { sub with poll := some ⟨view, rest, selected ++ [(key, revision)], .lookup⟩ } := by
  refine h.advance (subset_append_left ..) (fun x hx => (mem_append.1 hx).imp_right fun hx => ?_)
    fun _ => .inl ?_
  · rw [mem_singleton.1 hx]
    exact ⟨rfl, hfresh⟩
  · rw [map_append]
    exact mem_append_right _ (mem_singleton_self _)

/-- The next resource is compared: the cache has its content, and if its revision is not above the
cursor the copy is right. -/
theorem Polling.next (hkind : (kind key).isEntity = false)
    (hfresh : Fresh asOf w key)
    (hsame : ∀ a, sub.after = some a → revision ≤ a → asOf key a = w.content key) :
    SubGood kind hash asOf w (sub.next ⟨view, (key, v) :: rest, selected, stage⟩ key revision) := by
  have hview : (key, v) ∈ view.resources := h.rest _ (mem_cons_self ..)
  have hcursor : asOf key view.cursor.revision = w.content key :=
    (h.steady _ hview hkind).same _ (h.version _ hview hkind).1 h.cursor_le
  unfold Subscriber.next
  split
  · exact h.select fun _ => hfresh
  next hnew =>
  refine h.advance (List.Subset.refl _) (fun x hx => .inl hx) fun _ => .inr ?_
  obtain ⟨a, ha, hle⟩ : ∃ a, sub.after = some a ∧ revision ≤ a := by
    cases hafter : sub.after with
    | none => simp [hafter] at hnew
    | some a => exact ⟨a, rfl, by simpa [hafter] using hnew⟩
  obtain ⟨hcopy, -⟩ := h.waiting _ (mem_cons_self ..) hkind a ha
  refine ⟨?_, fun entry hentry hk _ => hcursor.trans (hfresh entry hentry hk).symm⟩
  rw [hcopy, hsame a ha hle, hcursor]

end

section
variable (h : Good kind hash asOf cover w)
include h

theorem Good.fresh {entry : ContentVersion Digest} (hentry : entry ∈ w.cache)
    (hkey : entry.key = key) (hcontent : asOf key entry.checkedRevision = w.content key) :
    Fresh asOf w key := by
  intro entry' hentry' hkey'
  rw [inj_on_of_nodup_map h.nodup hentry' hentry (hkey'.trans hkey.symm)]
  exact hcontent

/-- A lookup that finds the sampled version compares with it; otherwise the poll goes on to read. -/
theorem Good.lookup (s : ℕ) : Good kind hash asOf cover (w.lookup kind s) := by
  unfold World.lookup
  simp only
  split
  · next view key version rest selected hpoll =>
    have hpolling := (h.subs s).polling _ hpoll
    split
    · next hentity =>
      exact h.setSub s (hpolling.select fun hkind => nomatch hentity.symm.trans hkind)
    · next hentity =>
      have hkind : (kind key).isEntity = false := Bool.eq_false_iff.2 hentity
      have hview := hpolling.rest _ (mem_cons_self ..)
      have hsteady := hpolling.steady _ hview hkind
      split
      · next entry hentry =>
        -- the entry of the sampled version
        obtain ⟨hfind, hchecked⟩ := Option.filter_eq_some_iff.1 hentry
        have hchecked : entry.checkedRevision = version := of_decide_eq_true hchecked
        have hmem := mem_of_find?_eq_some hfind
        have hkey : entry.key = key := by simpa using find?_some hfind
        have hcontent : asOf key entry.checkedRevision = w.content key :=
          hsteady.same _ hchecked.ge (h.checked entry hmem).2
        refine h.setSub s (hpolling.next hkind (h.fresh hmem hkey hcontent) fun a ha hle => ?_)
        obtain ⟨-, hfits⟩ := hpolling.waiting _ (mem_cons_self ..) hkind a ha
        exact (hfits entry hmem hkey hle).trans hcontent
      · refine h.setSub s
          (.of_polling { hpolling with
          reading := .inr fun x hx => ?_, digest := fun d hd => nomatch hd })
        cases hx
        exact hkind
  · exact h

/-- The digest that a read leaves is the one of the present content. -/
theorem Good.read (s : ℕ) (computable : Bool) :
    Good kind hash asOf cover (w.read hash s computable) := by
  unfold World.read
  simp only
  split
  · next view key version rest selected hpoll =>
    have hpolling := (h.subs s).polling _ hpoll
    refine h.setSub s (.of_polling { hpolling with
      reading := .inr (hpolling.reading.resolve_left (fun hstage => nomatch hstage))
      digest := fun d hd x hx => ?_ })
    cases hx
    cases computable with
    | true => exact (Option.some.inj (Stage.update.inj hd)).symm
    | false => cases Stage.update.inj hd
  · exact h

end

/-! ## Updates of the cache -/

section
variable [DecidableEq Digest] {cache cache' : List (ContentVersion Digest)} {digest : Option Digest}
  {revision : ℕ}

theorem checkContent_eq_none (h : checkContent cache key v digest = none) :
    ∃ entry ∈ cache, entry.key = key ∧ v < entry.checkedRevision := by
  unfold checkContent at h
  simp only at h
  split at h
  · next hany =>
    match hfind : cache.find? fun entry => entry.key = key with
    | none =>
      rw [hfind] at hany
      cases hany
    | some entry =>
      rw [hfind] at hany
      exact ⟨entry, mem_of_find?_eq_some hfind, by simpa using find?_some hfind,
        of_decide_eq_true hany⟩
  · cases h

omit [DecidableEq Digest] in
theorem key_ne_of_mem_eraseP (key : String) (hnd : (cache.map (·.key)).Nodup) :
    ∀ entry ∈ cache.eraseP fun entry => entry.key = key, entry.key ≠ key := by
  induction cache with
  | nil => exact fun _ h => nomatch h
  | cons first cache ih =>
    rw [map_cons, nodup_cons] at hnd
    by_cases hkey : first.key = key
    · rw [eraseP_cons_of_pos (by simpa using hkey)]
      intro entry hentry heq
      exact hnd.1 (mem_map.2 ⟨entry, hentry, heq.trans hkey.symm⟩)
    rw [eraseP_cons_of_neg (by simpa using hkey)]
    intro entry hentry
    rcases mem_cons.1 hentry with rfl | hentry
    · exact hkey
    · exact ih hnd.2 entry hentry

/-- The entry of a sample takes the place of the one before; its revision is the sampled version, or
that of an entry with the same digest. -/
theorem checkContent_eq_some (hnd : (cache.map (·.key)).Nodup)
    (h : checkContent cache key v digest = some (cache', revision)) :
    (∃ old, old.Sublist cache ∧ (∀ entry ∈ old, entry.key ≠ key) ∧
      cache' = old ++ [⟨key, digest, v, revision⟩]) ∧
      (revision = v ∨ ∃ entry ∈ cache, entry.key = key ∧ entry.revision = revision ∧
        entry.checkedRevision ≤ v ∧
        entry.digest = digest ∧ digest.isSome) := by
  unfold checkContent at h
  simp only at h
  split at h
  · cases h
  next hany =>
  obtain ⟨hcache, hrevision⟩ := Prod.mk.inj (Option.some.inj h)
  have hne := key_ne_of_mem_eraseP key hnd
  refine ⟨?_, ?_⟩
  · rw [← hcache, ← hrevision]
    split
    · exact ⟨_, (tail_sublist _).trans (eraseP_sublist ..), fun entry hentry =>
        hne entry (mem_of_mem_tail hentry), rfl⟩
    · exact ⟨_, eraseP_sublist .., hne, rfl⟩
  · rw [← hrevision]
    match hfind : (cache.find? fun entry => entry.key = key).filter fun entry => digest.isSome ∧
        entry.digest = digest with
    | none =>
      rw [hfind]
      exact .inl rfl
    | some entry =>
      rw [hfind]
      obtain ⟨hfind, hsame⟩ := Option.filter_eq_some_iff.1 hfind
      obtain ⟨hsome, hdigest⟩ := of_decide_eq_true hsame
      rw [hfind] at hany
      exact .inr ⟨entry, mem_of_find?_eq_some hfind, by simpa using find?_some hfind, rfl,
        by simpa using hany, hdigest, hsome⟩

section

variable (hhash : hash.Injective) (h : Good kind hash asOf cover w)
include hhash h

omit [DecidableEq Digest] in
/-- An entry with the digest of the present content was checked with the same content. -/
theorem Good.same_digest (hkind : (kind key).isEntity = false)
    (hdigest : ∀ d, digest = some d → d = hash (w.content key)) {entry : ContentVersion Digest}
    (hentry : entry ∈ w.cache) (hkey : entry.key = key) (hd : entry.digest = digest)
    (hsome : digest.isSome) :
    asOf key entry.checkedRevision = w.content key := by
  obtain ⟨d, hd'⟩ := Option.isSome_iff_exists.1 hsome
  have hold := h.digest entry hentry (hkey ▸ hkind) d (hd.trans hd')
  rw [hkey] at hold
  exact hhash (hold.symm.trans (hdigest d hd'))

/-- A digest of the present content, read for a version since which nothing changed. -/
theorem Good.check (hkind : (kind key).isEntity = false)
    (hsteady : Steady asOf w key v) (hv : v ≤ w.hub.revision)
    (hdigest : ∀ d, digest = some d → d = hash (w.content key))
    (heq : checkContent w.cache key v digest = some (cache', revision)) :
    Good kind hash asOf cover { w with cache := cache' } := by
  obtain ⟨⟨old, hsub, hne, rfl⟩, hrevision⟩ := checkContent_eq_some h.nodup heq
  have hcontent : asOf key v = w.content key := hsteady.same v le_rfl hv
  have hcases : ∀ entry ∈ old ++ [⟨key, digest, v, revision⟩], entry ∈ w.cache ∨
      entry = ⟨key, digest, v, revision⟩ :=
    fun entry hentry => (mem_append.1 hentry).imp (fun h => hsub.subset h) mem_singleton.1
  refine { h with
    nodup := ?_
    checked := fun entry hentry => ?_
    digest := fun entry hentry hkind' d hd => ?_
    subs := fun s => (h.subs s).keeps
      ⟨le_rfl, id, fun _ _ _ => rfl, fun k m hm hfits entry hentry hk hle => ?_, fun _ _ _ _ hs =>
      ⟨hs.published, hs.same⟩, fun k _ hfresh entry hentry hk => ?_, fun _ _ => rfl⟩ }
  · rw [map_append, nodup_append]
    refine ⟨h.nodup.sublist (hsub.map _), nodup_singleton _, fun a ha b hb => ?_⟩
    obtain ⟨entry, hentry, rfl⟩ := mem_map.1 ha
    rw [map_singleton, mem_singleton] at hb
    exact hb ▸ hne entry hentry
  · rcases hcases entry hentry with hentry | rfl
    · exact h.checked entry hentry
    · refine ⟨?_, hv⟩
      rcases hrevision with rfl | ⟨found, hfound, -, rfl, hle, -⟩
      · exact le_rfl
      · exact (h.checked found hfound).1.trans hle
  · rcases hcases entry hentry with hentry | rfl
    · exact h.digest entry hentry hkind' d hd
    · exact (hdigest d hd).trans (congrArg hash hcontent.symm)
  · rcases hcases entry hentry with hentry | rfl
    · exact hfits entry hentry hk hle
    · obtain rfl : key = k := hk
      refine Eq.trans ?_ hcontent.symm
      rcases hrevision with rfl | ⟨found, hfound, hkey, rfl, -, hd, hsome⟩
      · exact hsteady.same m hle hm
      · exact (hfits found hfound hkey hle).trans
          (h.same_digest hhash hkind hdigest hfound hkey hd hsome)
  · rcases hcases entry hentry with hentry | rfl
    · exact hfresh entry hentry hk
    · obtain rfl : key = k := hk
      exact hcontent

/-- An update finds that a later sample was first, or puts an entry into the cache and compares with
it. What it compares with is the content at the sampled version, since which nothing changed. -/
theorem Good.update (s : ℕ) : Good kind hash asOf cover (w.update s) := by
  unfold World.update
  simp only
  split
  · next view key version rest selected digest hpoll =>
    have hpolling := (h.subs s).polling _ hpoll
    split
    · next hclosed =>
      exact h.setSub s (subGood_reply_closed hclosed hpolling.cursor_le
        (fun x hx hkind => ⟨(hpolling.version x hx hkind).1, hpolling.steady x hx hkind⟩)
        fun key hmem hkind hkey => (hpolling.unchanged key hmem hkind hkey).1)
    have hkind : (kind key).isEntity = false :=
      hpolling.reading.resolve_left (fun hstage => nomatch hstage) (key, version) rfl
    have hview := hpolling.rest _ (mem_cons_self ..)
    have hsteady : Steady asOf w key version := hpolling.steady _ hview hkind
    obtain ⟨hle, hafter⟩ := hpolling.version _ hview hkind
    have hdigest : ∀ d, digest = some d → d = hash (w.content key) := fun d hd =>
      hpolling.digest d (congrArg Stage.update hd) (key, version) rfl
    split
    · next hnone =>
      obtain ⟨entry, hentry, hkey, hlt⟩ := checkContent_eq_none hnone
      have hfresh := h.fresh hentry hkey (hsteady.same _ hlt.le (h.checked entry hentry).2)
      exact h.setSub s
        (hpolling.next hkind hfresh fun a ha hle => absurd hle (not_le.2 (hafter a ha)))
    · next cache revision hsome =>
      have hgood := h.check hhash hkind hsteady (hle.trans hpolling.cursor_le) hdigest hsome
      obtain ⟨⟨old, -, hne, hcache⟩, hrevision⟩ := checkContent_eq_some h.nodup hsome
      have hpolling' : Polling kind hash asOf { w with cache } (w.subs s) _ :=
        (hgood.subs s).polling _ hpoll
      refine hgood.setSub s (hpolling'.next hkind (fun entry hentry hkey => ?_) fun a ha hle' => ?_)
      · have hentry : entry ∈ old ++ [⟨key, digest, version, revision⟩] := hcache ▸ hentry
        rcases mem_append.1 hentry with hold | hnew
        · exact absurd hkey (hne entry hold)
        · rw [mem_singleton.1 hnew]
          exact hsteady.same version le_rfl (hle.trans hpolling.cursor_le)
      · rcases hrevision with rfl | ⟨found, hfound, hkey, rfl, -, hd, hdsome⟩
        · exact absurd hle' (not_le.2 (hafter a ha))
        · obtain ⟨-, hfits⟩ := hpolling.waiting _ (mem_cons_self ..) hkind a ha
          exact (hfits found hfound hkey hle').trans
            (h.same_digest hhash hkind hdigest hfound hkey hd hdsome)
  · exact h

end

end

/-! ## Runs -/

section
variable (h : Good kind hash asOf cover w)
include h

/-- A sample begins a poll, or a closed hub replies at once with all that changed. -/
theorem Good.sample (hundisturbed : w.Undisturbed kind (.sample s)) :
    Good kind hash asOf cover (w.sample kind s) := by
  unfold World.sample
  simp only
  split
  · next hready =>
    have hpoll := Option.isNone_iff_eq_none.1 hready.1
    split
    · next hclosed =>
      have hmem :
        ∀ x ∈ (changesSince kind w.hub w.pubs (w.subs s).resources (w.subs s).after).resources,
          x.1 ∈ (w.subs s).resources := fun x hx => (mem_changesSince.1 hx).1
      refine h.setSub s
        (subGood_reply_closed hclosed le_rfl (fun x hx hkind => ?_) fun key hkey hkind hnot => ?_)
      · obtain ⟨⟨hle, -⟩, hsteady⟩ :=
          h.candidate hundisturbed.2 hx hkind (hundisturbed.1 x.1 (hmem x hx) hkind)
        exact ⟨hle, hsteady⟩
      · exact (h.sampled hpoll hready.2 hkey hkind hnot).1
    · next hopen =>
      exact h.setSub s
        (.of_polling (h.polling hpoll hready.2 hundisturbed (Bool.eq_false_iff.2 hopen)))
  · exact h

theorem Good.reply (s : ℕ) : Good kind hash asOf cover (w.reply s) := by
  unfold World.reply
  simp only
  split
  · next hpoll => exact h.setSub s (((h.subs s).polling _ hpoll).reply rfl)
  · exact h

theorem Good.fetch (s : ℕ) (key : String) :
    Good kind hash asOf cover (w.fetch s key) := by
  unfold World.fetch
  simp only
  split
  · next hready =>
    have hpoll := Option.isNone_iff_eq_none.1 hready.1
    exact h.setSub s (((h.subs s).idle hpoll).fetch hpoll hready.2)
  · exact h

theorem Good.current : w.Current kind := by
  intro s hpoll htodo hafter key hkey hkind hpending
  obtain ⟨hcopy, -⟩ := ((h.subs s).idle (Option.isNone_iff_eq_none.1 hpoll)).held _ hafter key
    hkey hkind
    (htodo ▸ not_mem_nil)
  rw [hcopy, h.settled key hpending]

/-- An event that does not disturb the run keeps the invariant. -/
theorem Good.step [DecidableEq Digest] (hhash : hash.Injective) {event : Event Content}
    (hundisturbed : w.Undisturbed kind event) :
    ∃ asOf' cover', Good kind hash asOf' cover' (w.step kind hash event) := by
  cases event with
  | change key content => exact ⟨asOf, cover, h.change content hundisturbed⟩
  | publish requestId resources => exact h.request hundisturbed requestId resources
  | commit change => exact h.commit hundisturbed change
  | close => exact ⟨asOf, cover, h.close⟩
  | sample s => exact ⟨asOf, cover, h.sample hundisturbed⟩
  | lookup s => exact ⟨asOf, cover, h.lookup s⟩
  | read s computable => exact ⟨asOf, cover, h.read s computable⟩
  | update s => exact ⟨asOf, cover, h.update hhash s⟩
  | reply s => exact ⟨asOf, cover, h.reply s⟩
  | fetch s key => exact ⟨asOf, cover, h.fetch s key⟩

end

theorem good_start (content : String → Content) (resources : ℕ → List String) :
    Good kind hash (fun key _ => content key) (fun _ => 0) (World.start content resources) := by
  refine ⟨fun _ _ => rfl, fun _ _ _ _ => rfl, fun _ => le_rfl,
    ⟨nodup_nil, fun _ h => (nomatch h), le_rfl⟩, fun key hkind => ?_, fun _ _ => .inr le_rfl,
        nodup_nil, fun _ h => (nomatch h), fun _ h => (nomatch h), fun s =>
      ⟨fun _ => ⟨fun _ => rfl, fun _ h => (nomatch h), fun _ h => (nomatch h),
        fun _ h => (nomatch h)⟩, fun _ h => nomatch h⟩⟩
  rw [versionOf_eq hkind]
  unfold broadRevision
  cases kind key <;> exact le_rfl

/-- After every undisturbed run a subscriber that polled at the present cursor has the present
content of its resources. -/
theorem copies_current [DecidableEq Digest] (kind : String → ResourceKind) (hash : Content → Digest)
    (hhash : hash.Injective) (content : String → Content) (resources : ℕ → List String)
    (events : List (Event Content)) (h : Along (World.step kind hash) (World.Undisturbed kind)
      (World.start content resources) events) :
    (events.foldl (World.step kind hash) (World.start content resources)).Current kind := by
  obtain ⟨asOf, cover, hgood⟩ :=
    h.invariant (I := fun w => ∃ asOf cover, Good kind hash asOf cover w)
    ⟨_, _, good_start content resources⟩ fun w event ⟨_, _, hgood⟩ hevent => hgood.step hhash hevent
  exact hgood.current

def Event.poller : Event Content → Option ℕ
  | .sample s | .lookup s | .read s _ | .update s | .reply s | .fetch s _ => some s
  | _ => none

/-- A run leaves the subscribers alone that no event belongs to. -/
theorem subs_of_poller_ne [DecidableEq Digest] {events : List (Event Content)}
    (h : ∀ event ∈ events, event.poller ≠ some s) :
    (events.foldl (World.step kind hash) w).subs s = w.subs s := by
  induction events generalizing w with
  | nil => rfl
  | cons event events ih =>
    rw [forall_mem_cons] at h
    rw [foldl_cons, ih h.2]
    have hset : ∀ {s'} {w' : World Content Digest} {sub}, event.poller = some s' →
        (w'.setSub s' sub).subs s = w'.subs s := fun hs' =>
      World.subs_setSub_ne fun heq => h.1 (heq ▸ hs')
    cases event <;> simp only [World.step, World.sample, World.lookup, World.read, World.update,
      World.reply, World.fetch, World.change, World.publish, World.commit] <;> (repeat' split) <;>
      first | rfl | exact hset rfl

def bothPoll : List (Event String) :=
  [.sample 0, .sample 1, .lookup 0, .lookup 1, .read 1 true, .read 0 true, .update 0, .update 1,
    .reply 1, .reply 0, .fetch 0 "accounts", .fetch 1 "accounts"]

/-- Both subscribers poll before and after a change. -/
theorem copies_current_twice :
    let step := World.step (fun _ => .other) (id : String → String)
    let start : World String String := .start (fun _ => "a") fun _ => ["accounts"]
    let events := bothPoll ++ .change "accounts" "b" :: .commit .all :: bothPoll
    Along step (World.Undisturbed fun _ => .other) start events ∧
      (events.foldl step start).Current fun _ => .other := by
  intro step start events
  have hidle : ∀ s, ((bothPoll.foldl step start).subs s).poll.isNone ∧
      ((bothPoll.foldl step start).subs s).todo = [] := by
    rintro (_ | _ | s)
    · decide +kernel
    · decide +kernel
    · rw [subs_of_poller_ne (by simp [bothPoll, Event.poller])]
      exact ⟨rfl, rfl⟩
  have hundisturbed : Along step (World.Undisturbed fun _ => .other) start events := by
    refine along_append.2 ⟨⟨⟨by decide +kernel, by decide +kernel⟩,
      ⟨by decide +kernel, by decide +kernel⟩, trivial, trivial, trivial, trivial, trivial,
        trivial, trivial,
      trivial, trivial, trivial, trivial⟩, ?_, ?_, ⟨by decide +kernel, by decide +kernel⟩,
      ⟨by decide +kernel, by decide +kernel⟩, trivial, trivial, trivial, trivial, trivial,
        trivial, trivial,
      trivial, trivial, trivial, trivial⟩
    · rintro s (⟨poll, hpoll, -⟩ | htodo)
      · exact absurd hpoll (Option.isNone_iff_eq_none.1 (hidle s).1 ▸ nofun)
      · exact absurd htodo ((hidle s).2 ▸ not_mem_nil)
    · change _ + 2 ≤ maxSafeRevision
      decide +kernel
  exact ⟨hundisturbed, copies_current _ _ Function.injective_id _ _ events hundisturbed⟩

/-- The first subscriber samples, and reads the resource after it changed: the cache then has the
new content under the old revision. The second subscriber has the old content and the old revision
as its cursor, finds the content unchanged, and is not told. -/
theorem late_read_hides_change :
    ¬ (([.sample 0, .lookup 0, .sample 1, .lookup 1, .read 1 true, .update 1, .reply 1,
      .fetch 1 "accounts", .change "accounts" "b", .commit .all, .read 0 true, .update 0,
      .sample 1, .lookup 1, .read 1 true, .update 1, .reply 1] : List (Event String)).foldl
        (World.step (fun _ => .other) (id : String → String))
        (.start (fun _ => "a") fun _ => ["accounts"])).Current fun _ => .other := by
  intro hcurrent
  have hcopy := hcurrent 1 rfl rfl rfl "accounts" (mem_singleton_self _) rfl rfl
  exact absurd hcopy (by decide)

end Layr.Notifications
