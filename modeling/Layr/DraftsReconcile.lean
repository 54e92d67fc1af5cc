import Layr.DraftsMerge
import Layr.Lib.Tables

/-!
# No draft vanishes

`reconcile` shows the versions that a device holds: of each session the versions that no other
version has seen, the first of them as the draft and the rest as conflicts. A version that an edit
makes is later than every version that it has seen (`Timely`), so the latest version of a session is
never seen by another one and some version is always active (`exists_active`). What the loop over
the sessions shows is read off their active versions (`reads_foldl`).
-/

namespace Layr.Drafts

open Canonical Std Maps List

structure DraftView where
  drafts : BTreeMap String
  conflicts : List DraftVersion

/-- Has another version of the session seen this one? -/
def superseded (branches : List DraftVersion) (version : DraftVersion) : Bool :=
  branches.any fun other => other.id != version.id && replaced other version

/-- Later versions come first, then the order of the ids. -/
def before (a b : DraftVersion) : Prop := b.updated < a.updated ∨ a.updated = b.updated ∧
    a.id ≤ b.id

instance : DecidableRel before := fun _ _ => inferInstanceAs (Decidable (_ ∨ _))

/-- The versions of a session that no other one has seen. -/
def activeOf (branches : List DraftVersion) : List DraftVersion :=
  (branches.filter fun version => !superseded branches version).insertionSort before

def candidatesOf (text : String) (branch : DraftVersion) : List DraftVersion :=
  (if branch.text != "" && branch.text != text then [branch] else []) ++
    (branch.alternatives.filter fun alternate => alternate != "" && alternate != text).map
      fun alternate => { branch with id := branch.id ++ ":conflict", text := alternate }

/-- The view so far and the conflicts that it has, by id and text. -/
structure Showing where
  view : DraftView
  unique : List (String × String)

def showConflict (dismissed : List (String × String)) (acc : Showing) (conflict : DraftVersion) :
    Showing :=
  let key := (conflict.id, conflict.text)
  if key ∉ dismissed ∧ key ∉ acc.unique then
    { view := { acc.view with
      conflicts := acc.view.conflicts ++ [conflict] }, unique := acc.unique ++ [key] }
  else acc

/-- The text of the first active version that was not dismissed. -/
def draftOf (dismissed : List (String × String)) (active : List DraftVersion) : String :=
  ((active.find? fun version => (version.id, version.text) ∉ dismissed).map (·.text)).getD ""

def Showing.setDraft (acc : Showing) (session text : String) : Showing :=
  { acc with view := { acc.view with drafts := acc.view.drafts.insert session text } }

def showSession (pending : BTreeMap String) (dismissed : List (String × String)) (acc : Showing)
    (session : String × List DraftVersion) : Showing :=
  if pending.contains session.1 then acc
  else
    let active := activeOf session.2
    let text := draftOf dismissed active
    active.foldl (fun acc branch => (candidatesOf text branch).foldl (showConflict dismissed) acc)
      (acc.setDraft session.1 text)

def groupStep (sessions : BTreeMap (List DraftVersion)) (version : DraftVersion) :
    Except String (BTreeMap (List DraftVersion)) := do
  version.validate
  return sessions.insert version.session (sessions[version.session]?.getD [] ++ [version])

def reconcile (versions : List DraftVersion) (pending : BTreeMap String)
    (dismissed : List (String × String)) :
    Except String DraftView := do
  let sessions ← versions.foldlM groupStep ∅
  return (sessions.toList.foldl (showSession pending dismissed) ⟨⟨pending, []⟩, []⟩).view

/-! ## Edits are later than what they have seen -/

/-- A version has seen no branch beyond its own time, and the other branches only before it. -/
structure Timely (v : DraftVersion) : Prop where
  le : ∀ id n, Reaches v.seen id n → n ≤ v.updated
  lt : ∀ id n, id ≠ v.id → Reaches v.seen id n → n < v.updated

variable {text session : String}

theorem timely_edit {device : String} {versions : List DraftVersion} {now : Nat} {e : DraftVersion}
    (h : edit device session text versions now = .ok e) (hversions : ∀ u ∈ versions, Timely u) :
    Timely e := by
  simp only [edit, bind_eq_ok, exists_unit_eq_ok, pure_eq_ok] at h
  obtain ⟨⟨updated, seen⟩, hfold, -, rfl⟩ := h
  obtain ⟨-, hall, hreach⟩ := foldlM_editStep_ok hfold
  have hseen : ∀ id n, Reaches seen id n → n < updated := by
    intro id n hid
    rcases (hreach id n).1 hid with ⟨time, htime, -⟩ | ⟨u, hu, -, hshows⟩
    · simp at htime
    · rcases hshows with ⟨-, hn⟩ | hn
      · exact hn.trans_lt (hall u hu).2
      · exact ((hversions u hu).le id n hn).trans_lt (hall u hu).2
  have hother : ∀ id n, id ≠ device ++ ":" ++ session →
      Reaches (seen.insertIfNew (device ++ ":" ++ session) 0) id n → Reaches seen id n := by
    rintro id n hne ⟨time, htime, hn⟩
    rw [getElem?_insertIfNew, if_neg fun hk =>
      hne (LawfulEqCmp.compare_eq_iff_eq.1 hk.1).symm] at htime
    exact ⟨time, htime, hn⟩
  refine ⟨fun id n hid => ?_, fun id n hne hid => hseen id n (hother id n hne hid)⟩
  by_cases hne : id = device ++ ":" ++ session
  · subst hne
    rcases reaches_insertIfNew.1 hid with rfl | hid
    · exact Nat.zero_le _
    · exact (hseen _ _ hid).le
  · exact (hseen _ _ (hother id n hne hid)).le

/-- The versions that exist after some edits, each made from any of those that exist. -/
inductive Made : List DraftVersion → Prop where
  | none : Made []
  | edit {pool versions : List DraftVersion} {device session text : String} {now : Nat}
      {e : DraftVersion}
      (h : Made pool) (hversions : ∀ u ∈ versions, u ∈ pool)
      (he : Drafts.edit device session text versions now = .ok e) : Made (e :: pool)

/-- What all versions that edits make have in common. -/
structure Fresh (v : DraftVersion) : Prop where
  valid : v.validate = .ok ()
  timely : Timely v
  alternatives : v.alternatives = []

theorem Made.fresh {pool : List DraftVersion} (h : Made pool) : ∀ v ∈ pool, Fresh v := by
  induction h with
  | none => exact fun v hv => nomatch hv
  | edit h hversions he ih =>
    refine forall_mem_cons.2 ⟨?_, ih⟩
    obtain ⟨hvalid, -, -, halternatives, -⟩ := edit_ok he
    exact ⟨hvalid, timely_edit he fun u hu => (ih u (hversions u hu)).timely, halternatives⟩

/-! ## Active versions -/

variable {branches versions : List DraftVersion} {v : DraftVersion}
  {dismissed : List (String × String)} {pending : BTreeMap String}

def Saw (w v : DraftVersion) : Prop := w.id ≠ v.id ∧ Reaches w.seen v.id v.updated

theorem superseded_iff : superseded branches v = true ↔ ∃ w ∈ branches, Saw w v := by
  simp only [superseded, any_eq_true, Bool.and_eq_true, bne_iff_ne, replaced_iff]
  rfl

theorem mem_activeOf : v ∈ activeOf branches ↔ v ∈ branches ∧ ¬∃ w ∈ branches, Saw w v := by
  rw [activeOf, (perm_insertionSort _ _).mem_iff, mem_filter, Bool.not_eq_true', ← superseded_iff,
    Bool.not_eq_true]

theorem Saw.lt {w : DraftVersion} (h : Saw w v) (hw : Timely w) : v.updated < w.updated :=
  hw.lt v.id v.updated h.1.symm h.2

theorem exists_active (hbranches : ∀ w ∈ branches, Timely w) (hne : branches ≠ []) :
    ∃ v, v ∈ activeOf branches := by
  obtain ⟨v, hv, hmax⟩ : ∃ v ∈ branches, ∀ w ∈ branches, w.updated ≤ v.updated := by
    have hsome : branches.argmax DraftVersion.updated ≠ none := mt argmax_eq_none.1 hne
    obtain ⟨v, hv⟩ := Option.ne_none_iff_exists'.1 hsome
    exact ⟨v, argmax_mem hv, fun w hw => le_of_mem_argmax hw hv⟩
  refine ⟨v, mem_activeOf.2 ⟨hv, ?_⟩⟩
  rintro ⟨w, hw, hsaw⟩
  exact absurd (hsaw.lt (hbranches w hw)) (hmax w hw).not_gt

/-! ## Conflicts -/

def conflictKey (c : DraftVersion) : String × String := (c.id, c.text)

def Showing.Sound (acc : Showing) : Prop := ∀ key, key ∈ acc.unique ↔
    ∃ c ∈ acc.view.conflicts, conflictKey c = key

structure Adds (dismissed : List (String × String)) (acc acc' : Showing) (cs : List DraftVersion) :
    Prop where
  sound : acc'.Sound
  drafts : acc'.view.drafts = acc.view.drafts
  keep : ∀ c ∈ acc.view.conflicts, c ∈ acc'.view.conflicts
  origin : ∀ c ∈ acc'.view.conflicts, c ∈ acc.view.conflicts ∨ c ∈ cs
  shown : ∀ c ∈ cs, conflictKey c ∉ dismissed →
    ∃ c' ∈ acc'.view.conflicts, conflictKey c' = conflictKey c

variable {acc : Showing} {c : DraftVersion}

theorem adds_showConflict (h : acc.Sound) :
    Adds dismissed acc (showConflict dismissed acc c) [c] := by
  unfold showConflict
  simp only
  split
  · next hnew =>
    refine ⟨fun key => ?_, rfl, fun d hd => mem_append_left _ hd, fun d hd => mem_append.1 hd, ?_⟩
    · simp only [mem_append, mem_singleton, or_and_right, exists_or, exists_eq_left, h key]
      exact or_congr_right eq_comm
    · intro d hd _
      exact ⟨d, mem_append_right _ hd, rfl⟩
  · next hold =>
    refine ⟨h, rfl, fun d hd => hd, fun d hd => .inl hd, fun d hd hnot => ?_⟩
    obtain rfl := mem_singleton.1 hd
    exact (h _).1 (not_not.1 fun hunique => hold ⟨hnot, hunique⟩)

theorem adds_foldl (cs : List DraftVersion) (h : acc.Sound) :
    Adds dismissed acc (cs.foldl (showConflict dismissed) acc) cs := by
  induction cs generalizing acc with
  | nil => exact ⟨h, rfl, fun c hc => hc, fun c hc => .inl hc, fun c hc => nomatch hc⟩
  | cons c cs ih =>
    have hfirst : Adds dismissed acc (showConflict dismissed acc c) [c] := adds_showConflict h
    have hrest := ih hfirst.sound
    refine ⟨hrest.sound, hrest.drafts.trans hfirst.drafts,
      fun d hd => hrest.keep d (hfirst.keep d hd), fun d hd => ?_, fun d hd hnot => ?_⟩
    · rcases hrest.origin d hd with hd | hd
      · refine (hfirst.origin d hd).imp_right fun hd => ?_
        rw [mem_singleton.1 hd]
        exact mem_cons_self
      · exact .inr (mem_cons_of_mem _ hd)
    · rcases mem_cons.1 hd with rfl | hd
      · obtain ⟨d', hd', hkey⟩ := hfirst.shown d (mem_singleton_self d) hnot
        exact ⟨d', hrest.keep d' hd', hkey⟩
      · exact hrest.shown d hd hnot

/-! ## Sessions -/

def sessionCandidates (dismissed : List (String × String)) (branches : List DraftVersion) :
    List DraftVersion :=
  (activeOf branches).flatMap (candidatesOf (draftOf dismissed (activeOf branches)))

structure Reads (pending : BTreeMap String) (dismissed : List (String × String))
    (acc acc' : Showing) (sessions : List (String × List DraftVersion)) : Prop where
  sound : acc'.Sound
  keep : ∀ c ∈ acc.view.conflicts, c ∈ acc'.view.conflicts
  origin : ∀ c ∈ acc'.view.conflicts, c ∈ acc.view.conflicts ∨
    ∃ p ∈ sessions, c ∈ sessionCandidates dismissed p.2
  shown : ∀ p ∈ sessions, pending.contains p.1 = false → ∀ c ∈ sessionCandidates dismissed p.2,
    conflictKey c ∉ dismissed → ∃ c' ∈ acc'.view.conflicts, conflictKey c' = conflictKey c
  draft : ∀ p ∈ sessions, pending.contains p.1 = false →
    acc'.view.drafts[p.1]? = some (draftOf dismissed (activeOf p.2))
  other : ∀ session : String, session ∉ sessions.map (·.1) →
    acc'.view.drafts[session]? = acc.view.drafts[session]?

theorem showConflict_setDraft {session : String} :
    showConflict dismissed (acc.setDraft session text) c =
      (showConflict dismissed acc c).setDraft session text := by
  simp only [showConflict, Showing.setDraft]
  split
  · next h => exact if_pos h
  · next h => exact if_neg h

/-- The drafts and the conflicts of a list of sessions do not see each other. -/
theorem foldl_showSession (sessions : List (String × List DraftVersion)) :
    sessions.foldl (showSession pending dismissed) acc =
      let shown := sessions.filter fun p => !pending.contains p.1
      let all := (shown.flatMap fun p => sessionCandidates dismissed p.2).foldl
        (showConflict dismissed) acc
      { all with
          view.drafts := insertAll (·.1) (fun p => draftOf dismissed (activeOf p.2)) all.view.drafts
            shown } := by
  induction sessions generalizing acc with
  | nil => rfl
  | cons p sessions ih =>
    rw [foldl_cons, ih, showSession]
    cases hp : pending.contains p.1 with
    | true => simp [hp]
    | false =>
      simp only [hp, Bool.false_eq_true, if_false, Bool.not_false, filter_cons_of_pos, flatMap_cons,
        foldl_append]
      rw [← foldl_flatMap, foldl_hom (Showing.setDraft · p.1 _) fun _ _ => showConflict_setDraft,
        foldl_hom (Showing.setDraft · p.1 _) fun _ _ => showConflict_setDraft]
      rfl

theorem reads_foldl {sessions : List (String × List DraftVersion)} (h : acc.Sound)
    (hnodup : (sessions.map (·.1)).Nodup) :
    Reads pending dismissed acc (sessions.foldl (showSession pending dismissed) acc) sessions := by
  rw [foldl_showSession]
  have hsub : (sessions.filter fun p => !pending.contains p.1).Sublist sessions := filter_sublist
  have hshown : ∀ p ∈ sessions, pending.contains p.1 = false →
      p ∈ sessions.filter fun p => !pending.contains p.1 :=
    fun p hp hnot => mem_filter.2 ⟨hp, by rw [hnot]; rfl⟩
  have hadds := @adds_foldl dismissed _ ((sessions.filter fun p => !pending.contains p.1).flatMap
    fun p => sessionCandidates dismissed p.2) h
  refine ⟨hadds.sound, hadds.keep, fun c hc => ?_, fun p hp hnot c hc => ?_, fun p hp hnot => ?_,
    fun session hne => ?_⟩
  · refine (hadds.origin c hc).imp_right fun hc => ?_
    obtain ⟨p, hp, hc⟩ := mem_flatMap.1 hc
    exact ⟨p, hsub.subset hp, hc⟩
  · exact hadds.shown c (mem_flatMap.2 ⟨p, hshown p hp hnot, hc⟩)
  · exact getElem?_insertAll_of_mem (hnodup.sublist (hsub.map _)) (hshown p hp hnot)
  · rw [← hadds.drafts]
    exact getElem?_insertAll_of_notMem fun hmem => hne ((hsub.map _).subset hmem)

/-! ## Groups -/

abbrev ofSession (versions : List DraftVersion) (session : String) : List DraftVersion :=
  versions.filter fun v => v.session = session

/-- By induction on the versions: each session has its own, in order. -/
theorem groupStep_foldlM {sessions : BTreeMap (List DraftVersion)}
    (hvalid : ∀ v ∈ versions, v.validate = .ok ())
    (hne : ∀ session : String, sessions[session]? ≠ some []) :
    ∃ sessions', versions.foldlM groupStep sessions = .ok sessions' ∧
      (∀ session : String, sessions'[session]? ≠ some []) ∧
      ∀ session : String, sessions'[session]?.getD [] = sessions[session]?.getD [] ++
          ofSession versions session := by
  induction versions generalizing sessions with
  | nil => exact ⟨sessions, rfl, hne, fun session => by simp⟩
  | cons v versions ih =>
    obtain ⟨hv, hvalid⟩ := forall_mem_cons.1 hvalid
    have hstep : groupStep sessions v = .ok
        (sessions.insert v.session (sessions[v.session]?.getD [] ++ [v])) := by
      rw [groupStep, hv]
      rfl
    have hget : ∀ session : String,
      (sessions.insert v.session (sessions[v.session]?.getD [] ++ [v]))[session]?.getD [] =
        sessions[session]?.getD [] ++ ofSession [v] session := by
      intro session
      by_cases heq : v.session = session
      · subst heq
        simp
      · simp [getElem?_insert_ne heq, heq]
    have hne' : ∀ session : String,
        (sessions.insert v.session (sessions[v.session]?.getD [] ++ [v]))[session]? ≠ some [] := by
      intro session
      by_cases heq : v.session = session
      · subst heq
        simp
      · rw [getElem?_insert_ne heq]
        exact hne session
    obtain ⟨sessions', hfold, hdone, hall⟩ := ih hvalid hne'
    refine ⟨sessions', ?_, hdone, fun session => ?_⟩
    · rw [foldlM_cons, hstep]
      exact hfold
    · rw [hall, hget, append_assoc, ← filter_append, singleton_append]

/-! ## What is shown -/

/-- No other held version of the session has seen this one. -/
def Unseen (held : List DraftVersion) (v : DraftVersion) : Prop :=
  ¬∃ w ∈ held, w.session = v.session ∧ Saw w v

theorem mem_activeOf_ofSession :
    v ∈ activeOf (ofSession versions session) ↔ v ∈ versions ∧ v.session = session ∧
      Unseen versions v := by
  rw [mem_activeOf, mem_filter, decide_eq_true_eq, and_assoc]
  refine and_congr_right fun _ => and_congr_right fun hsession =>
    not_congr (exists_congr fun w => ?_)
  rw [mem_filter, decide_eq_true_eq, hsession, and_assoc]

theorem mem_candidatesOf (htext : v.text ≠ "") (hne : v.text ≠ text) : v ∈ candidatesOf text v := by
  simp [candidatesOf, htext, hne]

theorem candidatesOf_plain (hv : v.alternatives = []) (hc : c ∈ candidatesOf text v) : c = v := by
  simp only [candidatesOf, hv, filter_nil, map_nil, append_nil] at hc
  split at hc
  · exact mem_singleton.1 hc
  · cases hc

/-- The draft is the text of an active version, unless all of them were dismissed. -/
theorem draftOf_cases (active : List DraftVersion) :
    (∃ v ∈ active, (v.id, v.text) ∉ dismissed ∧ draftOf dismissed active = v.text) ∨
      (∀ v ∈ active, (v.id, v.text) ∈ dismissed) ∧ draftOf dismissed active = "" := by
  match hfind : active.find? fun version => (version.id, version.text) ∉ dismissed with
  | none =>
    refine .inr ⟨fun v hv => by simpa using find?_eq_none.1 hfind v hv, ?_⟩
    rw [draftOf, hfind]
    rfl
  | some v =>
    refine .inl ⟨v, mem_of_find?_eq_some hfind, by simpa using find?_some hfind, ?_⟩
    rw [draftOf, hfind]
    rfl

/-- The sessions of valid versions, each with its versions. -/
theorem exists_sessions (hvalid : ∀ v ∈ versions, v.validate = .ok ()) :
    ∃ sessions : BTreeMap (List DraftVersion), versions.foldlM groupStep ∅ = .ok sessions ∧
      ∀ p : String × List DraftVersion, p ∈ sessions.toList ↔ p.2 = ofSession versions p.1 ∧
        p.2 ≠ [] := by
  obtain ⟨sessions, hfold, hne, hall⟩ := @groupStep_foldlM _ ∅ hvalid (by simp)
  refine ⟨sessions, hfold, fun p => ?_⟩
  rw [mem_toList_iff_getElem?_eq_some]
  have hp := hall p.1
  simp only [getElem?_empty, Option.getD_none, nil_append] at hp
  constructor
  · intro hget
    rw [hget] at hp
    exact ⟨hp, fun hempty => hne p.1 (hempty ▸ hget)⟩
  · rintro ⟨heq, hnonempty⟩
    match hget : sessions[p.1]? with
    | none =>
      rw [hget] at hp
      exact absurd (heq.trans hp.symm) hnonempty
    | some branches =>
      rw [hget] at hp
      rw [heq, ← hp]
      rfl

/-- A device that holds versions made by edits, one of each branch, sees every text that no other
held version has seen and that was not dismissed, unless it has pending text of the session. It sees
no version that another one has seen, and of each session that it holds a version of, some version
is active. -/
theorem reconcile_shows {pool held : List DraftVersion} (hpool : Made pool)
    (hheld : ∀ v ∈ held, v ∈ pool) (hone : (held.map (·.id)).Nodup) (pending : BTreeMap String)
    (dismissed : List (String × String)) :
    ∃ view, reconcile held pending dismissed = .ok view ∧
      (∀ v ∈ held, v.text ≠ "" → Unseen held v → (v.id, v.text) ∉ dismissed →
        pending.contains v.session = false → view.drafts[v.session]? = some v.text ∨
          v ∈ view.conflicts) ∧
      (∀ c ∈ view.conflicts, c ∈ held ∧ Unseen held c) ∧
      (∀ session text, pending.contains session = false → view.drafts[session]? = some text →
        (∃ v ∈ held, v.session = session ∧ Unseen held v ∧ v.text = text) ∨ text = "") ∧
      ∀ v ∈ held, ∃ w ∈ held, w.session = v.session ∧ Unseen held w := by
  have hfresh : ∀ v ∈ held, Fresh v := fun v hv => hpool.fresh v (hheld v hv)
  obtain ⟨sessions, hfold, hsessions⟩ := exists_sessions fun v hv => (hfresh v hv).valid
  have hreads : Reads pending dismissed ⟨⟨pending, []⟩, []⟩
      (sessions.toList.foldl (showSession pending dismissed) ⟨⟨pending, []⟩, []⟩) sessions.toList :=
    reads_foldl (fun key => by simp) (Tables.nodup_keys sessions)
  have hsession : ∀ v ∈ held, (v.session, ofSession held v.session) ∈ sessions.toList := fun v hv =>
    (hsessions _).2 ⟨rfl, ne_nil_of_mem (mem_filter.2 ⟨hv, decide_eq_true rfl⟩)⟩
  have hcandidate : ∀ p ∈ sessions.toList, ∀ c ∈ sessionCandidates dismissed p.2, c ∈ held ∧
      Unseen held c := by
    intro p hp c hc
    rw [((hsessions p).1 hp).1] at hc
    obtain ⟨v, hv, hc⟩ := mem_flatMap.1 hc
    obtain ⟨hmem, -, hunseen⟩ := mem_activeOf_ofSession.1 hv
    rw [candidatesOf_plain (hfresh v hmem).alternatives hc]
    exact ⟨hmem, hunseen⟩
  have hconflicts :
    ∀ c ∈ (sessions.toList.foldl (showSession pending dismissed)
    ⟨⟨pending, []⟩, []⟩).view.conflicts,
      c ∈ held ∧ Unseen held c := by
    intro c hc
    rcases hreads.origin c hc with hc | ⟨p, hp, hc⟩
    · cases hc
    · exact hcandidate p hp c hc
  refine ⟨_, by rw [reconcile, hfold]; rfl, fun v hv htext hunseen hkey hpending => ?_, hconflicts,
    fun session text hpending hdraft => ?_, fun v hv => ?_⟩
  · have hactive : v ∈ activeOf (ofSession held v.session) :=
      mem_activeOf_ofSession.2 ⟨hv, rfl, hunseen⟩
    by_cases heq : v.text = draftOf dismissed (activeOf (ofSession held v.session))
    · exact .inl (heq ▸ hreads.draft _ (hsession v hv) hpending)
    · obtain ⟨c, hc, hsame⟩ := hreads.shown _ (hsession v hv) hpending v
        (mem_flatMap.2 ⟨v, hactive, mem_candidatesOf htext heq⟩) hkey
      rw [← inj_on_of_nodup_map hone (hconflicts c hc).1 hv (Prod.ext_iff.1 hsame).1]
      exact .inr hc
  · by_cases hmem : session ∈ sessions.toList.map (·.1)
    · obtain ⟨p, hp, rfl⟩ := mem_map.1 hmem
      rw [hreads.draft p hp hpending, Option.some_inj, ((hsessions p).1 hp).1] at hdraft
      rcases draftOf_cases (activeOf (ofSession held p.1)) with ⟨v, hv, -, heq⟩ | ⟨-, heq⟩
      · obtain ⟨hv, hsession, hunseen⟩ := mem_activeOf_ofSession.1 hv
        exact .inl ⟨v, hv, hsession, hunseen, heq.symm.trans hdraft⟩
      · exact .inr (hdraft.symm.trans heq)
    · rw [hreads.other session hmem] at hdraft
      have hcontains : pending.contains session = true := by
        rw [ExtTreeMap.contains_eq_isSome_getElem?, hdraft]
        rfl
      rw [hpending] at hcontains
      cases hcontains
  · have htimely : ∀ w ∈ ofSession held v.session, Timely w := fun w hw =>
      (hfresh w (mem_of_mem_filter hw)).timely
    obtain ⟨w, hw⟩ := exists_active htimely ((hsessions _).1 (hsession v hv)).2
    exact ⟨w, mem_activeOf_ofSession.1 hw⟩

def alone (device text : String) (now : Nat) : DraftVersion :=
  { id := device ++ ":" ++ "room", session := "room", device, text, updated := now,
    seen := (∅ : BTreeMap Nat).insertIfNew (device ++ ":" ++ "room") 0,
    alternatives := [], extra := ∅ }

/-- Two devices that do not know of each other. -/
theorem made_alone : Made [alone "b" "two" 7, alone "a" "one" 5] :=
  have first : Made [alone "a" "one" 5] := @Made.edit _ [] "a" "room" "one" 5 _ .none nofun rfl
  @Made.edit _ [] "b" "room" "two" 7 _ first nofun rfl

theorem reconcile_shows_alone : ∃ view, reconcile [alone "b" "two" 7, alone "a" "one" 5] ∅ [] =
    .ok view ∧
    (view.drafts["room"]? = some "one" ∨ alone "a" "one" 5 ∈ view.conflicts) := by
  obtain ⟨view, hview, hshown, -⟩ := reconcile_shows made_alone (fun v hv => hv) (by decide) ∅ []
  have hunseen : Unseen [alone "b" "two" 7, alone "a" "one" 5] (alone "a" "one" 5) := by
    rintro ⟨w, hw, -, hne, time, htime, -⟩
    rcases mem_cons.1 hw with rfl | hw
    · have hnone : (alone "b" "two" 7).seen[(alone "a" "one" 5).id]? = none := by decide +kernel
      cases htime
    · obtain rfl := mem_singleton.1 hw
      exact hne rfl
  exact ⟨view, hview, hshown (alone "a" "one" 5) (by simp) (by decide) hunseen (by simp) (by simp)⟩

end Layr.Drafts
