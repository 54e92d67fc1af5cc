import Layr.Notifications

/-!
# What notified subscribers rely on

The invariant of a run without disturbance (`Good`): what the versions say about the last
publications, what the entries of the cache say about the published contents, and for each
subscriber what its copies and the open resources of its poll are (`Idle`, `Polling`). It is kept by
changes, publications and the closing of the hub; the steps of a poll are in the next module.
-/

namespace Layr.Notifications

open Runs List

variable {Content Digest : Type} {kind : String → ResourceKind} {hash : Content → Digest}
  {w w' : World Content Digest} {asOf asOf' : String → ℕ → Content} {cover : String → ℕ}
  {sub : Subscriber Content Digest} {poll : Poll Digest} {key : String} {s v c m : ℕ}

/-! ## What a subscriber may rely on

`asOf key n` is the content of a resource as it was published at revision `n`. -/

/-- A copy of the content at `m` stays right as long as the cache says that nothing changed since.
-/
def Fits (asOf : String → ℕ → Content) (w : World Content Digest) (key : String) (m : ℕ) : Prop :=
  ∀ entry ∈ w.cache, entry.key = key → entry.revision ≤ m →
    asOf key m = asOf key entry.checkedRevision

/-- The cache has the present content of a resource. -/
def Fresh (asOf : String → ℕ → Content) (w : World Content Digest) (key : String) : Prop :=
  ∀ entry ∈ w.cache, entry.key = key → asOf key entry.checkedRevision = w.content key

/-- A resource is published and has not changed since `v`. -/
structure Steady (asOf : String → ℕ → Content) (w : World Content Digest) (key : String) (v : ℕ) :
    Prop where
  published : w.pending key = false
  same : ∀ n, v ≤ n → n ≤ w.hub.revision → asOf key n = w.content key

structure Idle (kind : String → ResourceKind) (asOf : String → ℕ → Content)
    (w : World Content Digest) (sub : Subscriber Content Digest) : Prop where
  start : sub.after = none → sub.todo = []
  after_le : ∀ c, sub.after = some c → c ≤ w.hub.revision
  waiting : ∀ c, sub.after = some c → ∀ key ∈ sub.todo, (kind key).isEntity = false →
    Steady asOf w key c ∧ (w.hub.closed = false → Fresh asOf w key)
  held : ∀ c, sub.after = some c → ∀ key ∈ sub.resources, (kind key).isEntity = false →
    key ∉ sub.todo →
    sub.copy key = some (asOf key c) ∧ (w.hub.closed = false → Fits asOf w key c)

structure Polling (kind : String → ResourceKind) (hash : Content → Digest)
    (asOf : String → ℕ → Content) (w : World Content Digest) (sub : Subscriber Content Digest)
        (poll : Poll Digest) : Prop where
  todo : sub.todo = []
  cursor_le : poll.view.cursor.revision ≤ w.hub.revision
  after_le : ∀ a, sub.after = some a → a ≤ w.hub.revision
  version : ∀ x ∈ poll.view.resources, (kind x.1).isEntity = false →
    x.2 ≤ poll.view.cursor.revision ∧ ∀ a, sub.after = some a → a < x.2
  steady : ∀ x ∈ poll.view.resources, (kind x.1).isEntity = false → Steady asOf w x.1 x.2
  unchanged : ∀ key ∈ sub.resources, (kind key).isEntity = false →
    key ∉ poll.view.resources.map (·.1) →
    sub.copy key = some (asOf key poll.view.cursor.revision) ∧
      Fits asOf w key poll.view.cursor.revision
  rest : ∀ x ∈ poll.rest, x ∈ poll.view.resources
  waiting : ∀ x ∈ poll.rest, (kind x.1).isEntity = false → ∀ a, sub.after = some a →
    sub.copy x.1 = some (asOf x.1 a) ∧ Fits asOf w x.1 a
  selected : ∀ x ∈ poll.selected, x.1 ∈ poll.view.resources.map (·.1) ∧
    ((kind x.1).isEntity = false → Fresh asOf w x.1)
  done : ∀ x ∈ poll.view.resources, (kind x.1).isEntity = false →
    x ∈ poll.rest ∨ x.1 ∈ poll.selected.map (·.1) ∨
    (sub.copy x.1 = some (asOf x.1 poll.view.cursor.revision) ∧
      Fits asOf w x.1 poll.view.cursor.revision)
  reading : poll.stage = .lookup ∨ ∀ x ∈ poll.rest.head?, (kind x.1).isEntity = false
  digest : ∀ d, poll.stage = .update (some d) → ∀ x ∈ poll.rest.head?, d = hash (w.content x.1)

structure SubGood (kind : String → ResourceKind) (hash : Content → Digest)
    (asOf : String → ℕ → Content) (w : World Content Digest) (sub : Subscriber Content Digest) :
    Prop where
  idle : sub.poll = none → Idle kind asOf w sub
  polling : ∀ poll, sub.poll = some poll → Polling kind hash asOf w sub poll

/-- The subscriber has found the resource changed, and has not read it again. -/
def Subscriber.Open (sub : Subscriber Content Digest) (key : String) : Prop :=
  (∃ poll, sub.poll = some poll ∧ key ∈ poll.view.resources.map (·.1)) ∨ key ∈ sub.todo

/-- What the rest of the system must keep for a subscriber. -/
structure Keeps (asOf asOf' : String → ℕ → Content) (w w' : World Content Digest)
    (sub : Subscriber Content Digest) :
    Prop where
  revision_le : w.hub.revision ≤ w'.hub.revision
  closed : w'.hub.closed = false → w.hub.closed = false
  asOf_eq : ∀ key, ∀ m ≤ w.hub.revision, asOf' key m = asOf key m
  fits : ∀ key, ∀ m ≤ w.hub.revision, Fits asOf w key m → Fits asOf' w' key m
  steady : ∀ key, sub.Open key → ∀ v ≤ w.hub.revision, Steady asOf w key v → Steady asOf' w' key v
  fresh : ∀ key, sub.Open key → Fresh asOf w key → Fresh asOf' w' key
  content : ∀ key, sub.Open key → w'.content key = w.content key

/-- Publications, subscribers and the closing of the hub leave what was published and cached as it
is. -/
theorem Keeps.of_closed {pubs : Publications} {subs : ℕ → Subscriber Content Digest} {closed : Bool}
    (hclosed : closed = false → w.hub.closed = false) :
    Keeps asOf asOf w { w with hub := { w.hub with closed }, pubs, subs } sub :=
  ⟨le_rfl, hclosed, fun _ _ _ => rfl, fun _ _ _ hfits => hfits,
    fun _ _ _ _ hsteady => ⟨hsteady.published, hsteady.same⟩, fun _ _ hfresh => hfresh,
      fun _ _ => rfl⟩

theorem Idle.keeps (h : Idle kind asOf w sub) (hkeeps : Keeps asOf asOf' w w' sub) :
    Idle kind asOf' w' sub := by
  refine ⟨h.start, fun c hc => (h.after_le c hc).trans hkeeps.revision_le,
    fun c hc key hkey hkind => ?_, fun c hc key hmem hkind hkey => ?_⟩
  · obtain ⟨hsteady, hfresh⟩ := h.waiting c hc key hkey hkind
    exact ⟨hkeeps.steady key (.inr hkey) c (h.after_le c hc) hsteady,
      fun hclosed => hkeeps.fresh key (.inr hkey) (hfresh (hkeeps.closed hclosed))⟩
  · obtain ⟨hcopy, hfits⟩ := h.held c hc key hmem hkind hkey
    rw [hkeeps.asOf_eq key c (h.after_le c hc)]
    exact ⟨hcopy, fun hclosed => hkeeps.fits key c (h.after_le c hc)
      (hfits (hkeeps.closed hclosed))⟩

/-- What a poll knows of the resources that it has open stays so, whatever else happens. -/
theorem Polling.keeps (hpoll : sub.poll = some poll) (h : Polling kind hash asOf w sub poll)
    (hkeeps : Keeps asOf asOf' w w' sub) : Polling kind hash asOf' w' sub poll := by
  have hopen : ∀ x ∈ poll.view.resources, sub.Open x.1 :=
    fun x hx => .inl ⟨poll, hpoll, mem_map_of_mem hx⟩
  have hheld : ∀ key m, m ≤ w.hub.revision →
    (sub.copy key = some (asOf key m) ∧ Fits asOf w key m) →
      sub.copy key = some (asOf' key m) ∧ Fits asOf' w' key m := fun key m hm hheld => by
    rw [hkeeps.asOf_eq key m hm]
    exact ⟨hheld.1, hkeeps.fits key m hm hheld.2⟩
  refine ⟨h.todo, h.cursor_le.trans hkeeps.revision_le,
    fun a ha => (h.after_le a ha).trans hkeeps.revision_le, h.version, fun x hx hkind => ?_,
      fun key hmem hkind hkey => ?_, h.rest, fun x hx hkind a ha => ?_, fun x hx => ?_,
    fun x hx hkind => ?_, h.reading, fun d hd x hx => ?_⟩
  · exact hkeeps.steady x.1 (hopen x hx) x.2 ((h.version x hx hkind).1.trans h.cursor_le)
      (h.steady x hx hkind)
  · exact hheld key _ h.cursor_le (h.unchanged key hmem hkind hkey)
  · exact hheld x.1 a (h.after_le a ha) (h.waiting x hx hkind a ha)
  · obtain ⟨hview, hfresh⟩ := h.selected x hx
    exact ⟨hview, fun hkind => hkeeps.fresh x.1 (.inl ⟨poll, hpoll, hview⟩) (hfresh hkind)⟩
  · exact (h.done x hx hkind).imp_right (.imp_right (hheld x.1 _ h.cursor_le))
  · rw [hkeeps.content x.1 (hopen x (h.rest x (mem_of_mem_head? hx)))]
    exact h.digest d hd x hx

theorem SubGood.keeps (h : SubGood kind hash asOf w sub) (hkeeps : Keeps asOf asOf' w w' sub) :
    SubGood kind hash asOf' w' sub :=
  ⟨fun hpoll => (h.idle hpoll).keeps hkeeps, fun poll hpoll =>
    (h.polling poll hpoll).keeps hpoll hkeeps⟩

/-! ## Versions -/

namespace Publications

variable {pubs : Publications} {k : String} {e bound revision version : ℕ} {resources : List String}

/-- The versions of a resource: the one of its last publication, or none if that was pruned. -/
def Standing (pubs : Publications) (key : String) (e : ℕ) : Prop :=
  pubs.resourceRevision key = e ∨ (pubs.resourceRevision key = 0 ∧ e ≤ pubs.prunedRevision)

/-- Each resource has one version, and none is above the bound. -/
structure Bounded (pubs : Publications) (bound : ℕ) : Prop where
  nodup : (pubs.versions.map (·.1)).Nodup
  versions : ∀ x ∈ pubs.versions, x.2 ≤ bound
  pruned : pubs.prunedRevision ≤ bound

theorem Bounded.mono {bound' : ℕ} (h : pubs.Bounded bound) (hle : bound ≤ bound') :
    pubs.Bounded bound' :=
  ⟨h.nodup, fun x hx => (h.versions x hx).trans hle, h.pruned.trans hle⟩

variable {l : List (String × ℕ)}

theorem resourceRevision_append (hk : k ≠ key) :
    ((l ++ [(key, version)]).find? fun entry => entry.1 = k) = l.find? fun entry =>
      entry.1 = k := by
  rw [find?_append, find?_singleton, if_neg (by simpa using Ne.symm hk), Option.or_none]

theorem find_filter_ne (hk : k ≠ key) :
    ((l.filter fun entry => entry.1 ≠ key).find? fun entry => entry.1 = k) = l.find? fun entry =>
      entry.1 = k := by
  rw [find?_filter]
  congr 1
  funext entry
  by_cases h : entry.1 = k
  · simp [h, hk]
  · simp [h]

/-- What a publication does to the versions: the other ones stay, but for an oldest one that may be
pruned. -/
theorem record_eq (pubs : Publications) (revision version : ℕ) (kind : String → ResourceKind)
    (hkey : kind key ≠ .state) : ∃ (o : Option (String × ℕ)) (l : List (String × ℕ)),
      (pubs.versions.filter fun entry => entry.1 ≠ key) = o.toList ++ l ∧ (∀ x ∈ l, x.1 ≠ key) ∧
      pubs.record kind revision version key = { pubs with
        versions := l ++ [(key, version)]
        prunedRevision := max pubs.prunedRevision ((o.map (·.2)).getD 0) } := by
  have hne : ∀ x ∈ pubs.versions.filter fun entry => entry.1 ≠ key, x.1 ≠ key := fun x hx => by
    simpa using (mem_filter.1 hx).2
  unfold Publications.record
  rw [if_neg hkey]
  simp only
  split
  · refine ⟨_, _, ?_, fun x hx => hne x (mem_of_mem_tail hx), rfl⟩
    cases pubs.versions.filter fun entry => entry.1 ≠ key <;> rfl
  · exact ⟨none, _, rfl, hne, by simp⟩

theorem Bounded.record (h : pubs.Bounded bound) (kind : String → ResourceKind)
    (hversion : version ≤ bound) (key : String) :
    (pubs.record kind revision version key).Bounded bound := by
  by_cases hkey : kind key = .state
  · rw [Publications.record, if_pos hkey]
    exact { __ := h }
  obtain ⟨o, l, hl, hne, heq⟩ := record_eq pubs revision version kind hkey
  have hsub : (o.toList ++ l).Sublist pubs.versions := hl ▸ filter_sublist
  have hlsub := (sublist_append_right _ l).trans hsub
  rw [heq]
  refine ⟨?_, fun x hx => ?_, max_le h.pruned ?_⟩
  · rw [map_append, nodup_append]
    refine ⟨h.nodup.sublist (hlsub.map _), nodup_singleton _, fun a ha b hb => ?_⟩
    obtain ⟨x, hx, rfl⟩ := mem_map.1 ha
    rw [map_singleton, mem_singleton] at hb
    exact hb ▸ hne x hx
  · rcases mem_append.1 hx with hx | hx
    · exact h.versions x (hlsub.subset hx)
    · rw [mem_singleton.1 hx]
      exact hversion
  · cases o with
    | none => exact Nat.zero_le _
    | some x => exact h.versions x (hsub.subset mem_cons_self)

/-- A publication keeps the versions of other resources, or prunes them. -/
theorem Standing.record_ne (h : pubs.Standing k e) (hnd : (pubs.versions.map (·.1)).Nodup)
    (kind : String → ResourceKind) (hk : k ≠ key) :
    (pubs.record kind revision version key).Standing k e := by
  by_cases hkey : kind key = .state
  · rwa [Publications.record, if_pos hkey]
  obtain ⟨o, l, hl, hne, heq⟩ := record_eq pubs revision version kind hkey
  have hnodup : ((o.toList ++ l).map (·.1)).Nodup := hnd.sublist ((hl ▸ filter_sublist).map _)
  rw [heq]
  unfold Standing resourceRevision at h ⊢
  rw [← find_filter_ne hk, hl] at h
  simp only [resourceRevision_append hk]
  cases o with
  | none => simpa using h
  | some x =>
    by_cases hx : x.1 = k
    · -- the version itself is pruned
      have hnone : (l.find? fun entry => entry.1 = k) = none := by
        refine find?_eq_none.2 fun y hy => ?_
        rw [decide_eq_true_eq]
        intro hyk
        exact (nodup_cons.1 hnodup).1 (mem_map.2 ⟨y, hy, hyk.trans hx.symm⟩)
      rw [Option.toList_some, singleton_append, find?_cons_of_pos (by simpa using hx)] at h
      refine .inr ⟨by rw [hnone]; rfl, ?_⟩
      rcases h with rfl | ⟨-, hle⟩
      · exact Nat.le_max_right _ _
      · exact hle.trans (Nat.le_max_left _ _)
    · rw [Option.toList_some, singleton_append, find?_cons_of_neg (by simpa using hx)] at h
      exact h.imp_right fun h => ⟨h.1, h.2.trans (Nat.le_max_left _ _)⟩

theorem standing_record (kind : String → ResourceKind) (hkey : kind key ≠ .state) :
    (pubs.record kind revision version key).Standing key version := by
  obtain ⟨o, l, hl, hne, heq⟩ := record_eq pubs revision version kind hkey
  have hnone : (l.find? fun entry => entry.1 = key) = none :=
    find?_eq_none.2 fun x hx => by simpa using hne x hx
  rw [heq]
  left
  simp [resourceRevision, find?_append, hnone]

theorem Bounded.foldl (kind : String → ResourceKind) (revision : ℕ) (resources : List String)
    (h : pubs.Bounded bound) (hversion : version ≤ bound) :
    (resources.foldl (Publications.record kind revision version) pubs).Bounded bound :=
  List.foldlRecOn (motive := (Bounded · bound)) _ _ h fun _ h key _ => h.record kind hversion key

/-- What a request leaves: its resources have its version, the others theirs, or they are pruned. -/
theorem Standing.foldl (kind : String → ResourceKind) (h : pubs.Bounded bound)
    (hversion : version ≤ bound) (hk : kind k ≠ .state) (hstanding : pubs.Standing k e) :
    (resources.foldl (Publications.record kind revision version) pubs).Standing k
        (if k ∈ resources then version else e) := by
  induction resources generalizing pubs e with
  | nil => exact hstanding
  | cons key resources ih =>
    rw [foldl_cons]
    by_cases hkey : k = key
    · subst hkey
      simpa using ih (h.record kind hversion k) (standing_record kind hk)
    · have hfold := @ih (pubs.record kind revision version key) e (h.record kind hversion key)
        (hstanding.record_ne h.nodup kind hkey)
      simpa only [mem_cons, hkey, false_or] using hfold

theorem foldl_keeps (kind : String → ResourceKind) :
    (resources.foldl (Publications.record kind revision version) pubs).entityRevision =
      pubs.entityRevision ∧
      pubs.prunedRevision ≤
        (resources.foldl (Publications.record kind revision version) pubs).prunedRevision := by
  induction resources generalizing pubs with
  | nil => exact ⟨rfl, le_rfl⟩
  | cons key resources ih =>
    refine ⟨ih.1.trans ?_, le_trans ?_ ih.2⟩ <;> unfold Publications.record <;> simp only <;> split
    · rfl
    · split <;> rfl
    · exact le_rfl
    · split
      · exact Nat.le_max_left _ _
      · exact le_rfl

end Publications

/-- A request is refused, or a replay, or it is recorded. -/
theorem publishOnce_cases (kind : String → ResourceKind) (hub : ChangeSnapshot)
    (pubs : Publications) (requestId : String) (resources : List String) :
    let hasState := (resources.any fun key => decide (kind key = .state)).toNat
    let hasOthers := (resources.any fun key => decide (kind key ≠ .state)).toNat
    let hub' := hub.publish (hasState + hasOthers) false
    let pubs' := resources.foldl
      (Publications.record kind hub'.revision (hub'.revision - hasState)) pubs
    (∃ e, publishOnce kind hub pubs requestId resources = .error e) ∨
      (∃ receipts, publishOnce kind hub pubs requestId resources =
        .ok (hub.publish 0 false, { pubs with receipts }, false)) ∨
      ∃ receipts, publishOnce kind hub pubs requestId resources =
          .ok (hub', { pubs' with receipts }, true) := by
  intro hasState hasOthers hub' pubs'
  unfold publishOnce
  simp only
  split
  · exact .inl ⟨_, rfl⟩
  split
  · exact .inl ⟨_, rfl⟩
  split
  · exact .inr (.inl ⟨_, rfl⟩)
  · exact .inr (.inr ⟨_, rfl⟩)

def broadRevision (kind : String → ResourceKind) (hub : ChangeSnapshot) (pubs : Publications)
    (key : String) : ℕ :=
  match kind key with
  | .multiServer => 0
  | .other => hub.resourceRevision
  | _ => max hub.resourceRevision pubs.entityRevision

variable {pubs : Publications} {hub : ChangeSnapshot}

theorem ne_state (hkind : (kind key).isEntity = false) : kind key ≠ .state := fun heq => by
  rw [heq] at hkind
  cases hkind

theorem versionOf_eq (hkind : (kind key).isEntity = false) :
    versionOf kind hub pubs key = max (pubs.resourceRevision key)
      (broadRevision kind hub pubs key) := by
  unfold versionOf broadRevision
  rw [if_neg (ne_state hkind)]
  cases kind key <;> simp

/-! ## The invariant -/

/-- The contents that were published, the last publications, and what each subscriber relies on. -/
structure Good (kind : String → ResourceKind) (hash : Content → Digest)
    (asOf : String → ℕ → Content) (cover : String → ℕ) (w : World Content Digest) : Prop where
  settled : ∀ key, w.pending key = false → asOf key w.hub.revision = w.content key
  constant : ∀ key n, cover key ≤ n → n ≤ w.hub.revision → asOf key n = asOf key w.hub.revision
  cover_le : ∀ key, cover key ≤ w.hub.revision
  bounded : w.pubs.Bounded w.hub.revision
  version_le : ∀ key, (kind key).isEntity = false → versionOf kind w.hub w.pubs key ≤ cover key
  version : ∀ key, (kind key).isEntity = false →
    versionOf kind w.hub w.pubs key = cover key ∨ cover key ≤ w.pubs.prunedRevision
  nodup : (w.cache.map (·.key)).Nodup
  checked : ∀ entry ∈ w.cache, entry.revision ≤ entry.checkedRevision ∧
    entry.checkedRevision ≤ w.hub.revision
  digest : ∀ entry ∈ w.cache, (kind entry.key).isEntity = false → ∀ d, entry.digest = some d →
    d = hash (asOf entry.key entry.checkedRevision)
  subs : ∀ s, SubGood kind hash asOf w (w.subs s)

theorem World.subs_setSub_self : (w.setSub s sub).subs s = sub := Function.update_self ..

theorem World.subs_setSub_ne {s' : ℕ} (hs : s' ≠ s) : (w.setSub s sub).subs s' = w.subs s' :=
  Function.update_of_ne hs ..

namespace Good

section

variable (h : Good kind hash asOf cover w)
include h

/-- A publication of the resources that are covered, with a new number. -/
theorem publish {covered : String → Bool}
    {n : ℕ} (hlt : w.hub.revision < n) (hle : n ≤ hub.revision)
    (hclosed : hub.closed = w.hub.closed) (hbounded : pubs.Bounded hub.revision)
    (hversion : ∀ key, (kind key).isEntity = false →
      versionOf kind hub pubs key ≤ (if covered key then n else cover key) ∧
        (versionOf kind hub pubs key = (if covered key then n else cover key) ∨
          (if covered key then n else cover key) ≤ pubs.prunedRevision)) :
    ∃ asOf' cover', Good kind hash asOf' cover'
      { w with hub, pubs, pending := fun key => w.pending key && !covered key } := by
  have hrev : w.hub.revision < hub.revision := hlt.trans_le hle
  refine ⟨fun key m => if m ≤ w.hub.revision then asOf key m else
    if covered key then w.content key else asOf key w.hub.revision,
      fun key => if covered key then n else cover key,
    fun key hkey => ?_, fun key m hm hm' => ?_, fun key => ?_, hbounded, fun key hkind =>
      (hversion key hkind).1,
    fun key hkind => (hversion key hkind).2, h.nodup, fun entry hentry => ?_,
      fun entry hentry hkind d hd => ?_, fun s => ?_⟩
  · rw [if_neg (not_le.2 hrev)]
    split
    · rfl
    · next hcovered => exact h.settled key (by simpa [hcovered] using hkey)
  · simp only [if_neg (not_le.2 hrev)] at *
    split at hm
    · next hcovered => rw [if_neg (not_le.2 (hlt.trans_le hm)), if_pos hcovered]
    next hcovered =>
    split
    · next hm' => exact h.constant key m hm hm'
    · rfl
  · simp only
    split
    · exact hle
    · exact (h.cover_le key).trans hrev.le
  · exact ⟨(h.checked entry hentry).1, (h.checked entry hentry).2.trans hrev.le⟩
  · rw [if_pos (h.checked entry hentry).2]
    exact h.digest entry hentry hkind d hd
  · refine (h.subs s).keeps ⟨hrev.le, fun hc => hclosed ▸ hc, fun key m hm => if_pos hm,
      fun key m hm hfits entry hentry hkey hrevision => ?_, fun key _ v hv hsteady =>
        ⟨?_, fun m hm hm' => ?_⟩,
      fun key _ hfresh entry hentry hkey => ?_, fun _ _ => rfl⟩
    · rw [if_pos hm, if_pos (h.checked entry hentry).2]
      exact hfits entry hentry hkey hrevision
    · simp [hsteady.published]
    · split
      · next hm' => exact hsteady.same m hm hm'
      · split
        · rfl
        · exact hsteady.same _ hv le_rfl
    · rw [if_pos (h.checked entry hentry).2]
      exact hfresh entry hentry hkey

/-- A resource that no subscriber has open changes. -/
theorem change (content : Content) (hclosed : ∀ s, ¬ (w.subs s).Open key) :
    Good kind hash asOf cover (w.change key content) := by
  have hcontent : ∀ k, k ≠ key → (w.change key content).content k = w.content k :=
    fun k hk => Function.update_of_ne hk ..
  have hpending : ∀ k, k ≠ key → (w.change key content).pending k = w.pending k :=
    fun k hk => Function.update_of_ne hk ..
  refine { h with settled := fun k hk => ?_, subs := fun s => ?_ }
  · by_cases hkey : k = key
    · subst hkey
      simp [World.change] at hk
    · rw [hcontent k hkey]
      exact h.settled k (hpending k hkey ▸ hk)
  · have hne : ∀ k, (w.subs s).Open k → k ≠ key := fun k hk heq => hclosed s (heq ▸ hk)
    refine (h.subs s).keeps
      ⟨le_rfl, id, fun _ _ _ => rfl, fun _ _ _ hfits => hfits, fun k hk v _ hsteady => ?_,
        fun k hk hfresh => ?_, fun k hk => hcontent k (hne k hk)⟩
    · refine ⟨(hpending k (hne k hk)).trans hsteady.published, fun n hn hn' => ?_⟩
      rw [hcontent k (hne k hk)]
      exact hsteady.same n hn hn'
    · intro entry hentry hkey
      rw [hcontent k (hne k hk)]
      exact hfresh entry hentry hkey

theorem close : Good kind hash asOf cover { w with hub := { w.hub with closed := true } } :=
  { h with
    subs := fun s => (h.subs s).keeps (.of_closed fun hfalse => Bool.noConfusion hfalse) }

theorem setSub (s : ℕ) (hsub : SubGood kind hash asOf w sub) :
    Good kind hash asOf cover (w.setSub s sub) := by
  refine { h with subs := fun s' => ?_ }
  have hgood : SubGood kind hash asOf w ((w.setSub s sub).subs s') := by
    by_cases hs : s' = s
    · subst hs
      rw [World.subs_setSub_self]
      exact hsub
    · rw [World.subs_setSub_ne hs]
      exact h.subs s'
  exact hgood.keeps (.of_closed id)

theorem broad_le (hkind : (kind key).isEntity = false) :
    w.pubs.resourceRevision key ≤ w.hub.revision ∧
      broadRevision kind w.hub w.pubs key ≤ w.hub.revision := by
  have hle := (h.version_le key hkind).trans (h.cover_le key)
  rw [versionOf_eq hkind] at hle
  exact max_le_iff.1 hle

/-- The version of a resource after a publication with number `n`. -/
theorem version_step (hkind : (kind key).isEntity = false) {e n : ℕ} {covered : Bool}
    (hstanding : pubs.Standing key e) (hpruned : w.pubs.prunedRevision ≤ pubs.prunedRevision)
    (hcovered : covered = true → (e = n ∧ broadRevision kind hub pubs key ≤ n) ∨
      (broadRevision kind hub pubs key = n ∧ e ≤ n))
    (hother : covered = false → e = w.pubs.resourceRevision key ∧
      broadRevision kind hub pubs key = broadRevision kind w.hub w.pubs key) :
    versionOf kind hub pubs key ≤ (if covered then n else cover key) ∧
      (versionOf kind hub pubs key = (if covered then n else cover key) ∨
        (if covered then n else cover key) ≤ pubs.prunedRevision) := by
  rw [versionOf_eq hkind]
  cases covered with
  | true =>
    rw [if_pos rfl]
    rcases hcovered rfl with ⟨rfl, hbroad⟩ | ⟨hbroad, he⟩ <;>
      rcases hstanding with heq | ⟨heq, hle⟩ <;> rw [heq] <;> omega
  | false =>
    have hversion := h.version key hkind
    have hle := h.version_le key hkind
    rw [versionOf_eq hkind] at hversion hle
    obtain ⟨rfl, hbroad⟩ := hother rfl
    rw [if_neg Bool.false_ne_true, hbroad]
    rcases hstanding with heq | ⟨heq, hpruned'⟩ <;> rw [heq] <;> omega

/-- A commit is a publication of the resources that it covers. -/
theorem commit (hmax : w.hub.revision + 2 ≤ maxSafeRevision) (change : ResourceChange) :
    ∃ asOf' cover', Good kind hash asOf' cover' (w.commit kind change) := by
  unfold World.commit
  split
  · exact ⟨asOf, cover, h⟩
  next hclosed =>
  have hmin : min (w.hub.revision + 1) maxSafeRevision = w.hub.revision + 1 :=
    Nat.min_eq_left (by omega)
  cases change
  all_goals
    simp only [notifyStoreCommit, if_neg hclosed, ChangeSnapshot.publish, hmin]
    refine h.publish (Nat.lt_succ_self _) le_rfl rfl { __ := h.bounded.mono (Nat.le_succ _) }
      fun key hkind => ?_
    have hle := h.broad_le hkind
    have hbroad := hle.2
    refine h.version_step hkind (.inl rfl) le_rfl
      (fun hcovered => .inr ⟨?_, hle.1.trans (Nat.le_succ _)⟩)
      fun hcovered => ⟨rfl, ?_⟩
  · have hne : kind key ≠ .multiServer := of_decide_eq_true hcovered
    unfold broadRevision at hbroad ⊢
    cases hk : kind key <;> simp [hk] at hne hbroad ⊢ <;> omega
  · have hk : kind key = .multiServer := not_not.1 (of_decide_eq_false hcovered)
    simp [broadRevision, hk]
  · obtain ⟨hne, hne'⟩ : kind key ≠ .multiServer ∧ kind key ≠ .other := of_decide_eq_true hcovered
    unfold broadRevision at hbroad ⊢
    cases hk : kind key <;> simp [hk] at hne hne' hbroad ⊢ <;> omega
  · have hk : ¬ (kind key ≠ .multiServer ∧ kind key ≠ .other) := of_decide_eq_false hcovered
    unfold broadRevision
    cases hk' : kind key <;> simp [hk'] at hk ⊢

theorem receipts (receipts : List (String × Finset String)) :
    Good kind hash asOf cover { w with pubs := { w.pubs with receipts } } :=
  { h with
    bounded := ⟨h.bounded.nodup, h.bounded.versions, h.bounded.pruned⟩
    subs := fun s => (h.subs s).keeps (.of_closed id) }

/-- A request is a publication of its resources. -/
theorem request (hmax : w.hub.revision + 2 ≤ maxSafeRevision) (requestId : String)
    (resources : List String) : ∃ asOf' cover',
      Good kind hash asOf' cover' (w.publish kind requestId resources) := by
  unfold World.publish
  rcases publishOnce_cases kind w.hub w.pubs requestId
    resources with ⟨e, heq⟩ | ⟨receipts, heq⟩ | ⟨receipts, heq⟩
  · rw [heq]
    exact ⟨asOf, cover, h⟩
  · have hhub : w.hub.publish 0 false = w.hub := by
      unfold ChangeSnapshot.publish
      rw [Nat.add_zero, Nat.min_eq_left (by omega)]
      rfl
    rw [heq, hhub]
    exact ⟨asOf, cover, h.receipts receipts⟩
  · rw [heq]
    have hst : ∀ b : Bool, b.toNat ≤ 1 := fun b => by cases b <;> decide
    have hbounds := And.intro (hst (resources.any fun key => decide (kind key = .state)))
      (hst (resources.any fun key => decide (kind key ≠ .state)))
    have hany : ∀ p : String → Bool, ∀ key ∈ resources, p key = true →
        (resources.any p).toNat = 1 :=
      fun p key hkey hp => congrArg Bool.toNat (any_eq_true.2 ⟨key, hkey, hp⟩)
    have hothers := fun key hkey (hne : kind key ≠ .state) =>
      hany (kind · ≠ .state) key hkey (decide_eq_true hne)
    have hstate := fun key hkey (heq : kind key = .state) =>
      hany (kind · = .state) key hkey (decide_eq_true heq)
    generalize (resources.any fun key => decide (kind key = .state)).toNat = a at hbounds hstate
    generalize (resources.any fun key => decide (kind key ≠ .state)).toNat = b at hbounds hothers
    have hmin : min (w.hub.revision + (a + b)) maxSafeRevision = w.hub.revision + (a + b) :=
      Nat.min_eq_left (by omega)
    have hpending : (fun key => w.pending key && decide (key ∉ resources)) =
        fun key => w.pending key && !decide (key ∈ resources) := by
      funext key
      rw [decide_not]
    rw [hpending]
    simp only [ChangeSnapshot.publish, hmin, Bool.false_eq_true, if_false]
    rcases Nat.eq_zero_or_pos (a + b) with hzero | hpos
    · have hempty : resources = [] := by
        refine eq_nil_iff_forall_not_mem.2 fun key hkey => ?_
        by_cases hk : kind key = .state
        · have := hstate key hkey hk
          omega
        · have := hothers key hkey hk
          omega
      subst hempty
      simp only [hzero, Nat.add_zero, foldl_nil, not_mem_nil, decide_false, Bool.not_false,
        Bool.and_true]
      exact ⟨asOf, cover, h.receipts receipts⟩
    · have hversion : w.hub.revision + (a + b) - a ≤ w.hub.revision + (a + b) := Nat.sub_le _ _
      have hbounded := h.bounded.mono (Nat.le_add_right _ (a + b))
      have hfold := hbounded.foldl kind (w.hub.revision + (a + b)) resources hversion
      refine h.publish (Nat.lt_succ_self _) (Nat.add_le_add_left hpos _) rfl { __ := hfold }
        fun key hkind => ?_
      have hbroad : broadRevision kind
        ⟨w.hub.revision + (a + b), w.hub.resourceRevision, w.hub.closed⟩
          { resources.foldl
              (Publications.record kind (w.hub.revision + (a + b)) (w.hub.revision + (a + b) - a))
              w.pubs with
            receipts } key = broadRevision kind w.hub w.pubs key := by
        simp [broadRevision, (Publications.foldl_keeps kind).1]
      refine h.version_step hkind
        (Publications.Standing.foldl kind hbounded hversion (ne_state hkind) (.inl rfl))
        (Publications.foldl_keeps kind).2 (fun hcovered => .inl ?_) fun hcovered => ?_
      · have hmem : key ∈ resources := of_decide_eq_true hcovered
        have hone := hothers key hmem (ne_state hkind)
        rw [if_pos hmem, hbroad]
        exact ⟨by omega, (h.broad_le hkind).2.trans (Nat.le_succ _)⟩
      · rw [if_neg (of_decide_eq_false hcovered)]
        exact ⟨rfl, hbroad⟩

end

end Good

end Layr.Notifications
