import Layr.Authority
import Layr.Lib.Maps
import Layr.Lib.Worklist

/-!
# The chain of manager changes

What `fromLines` decides does not depend on the order of the lines nor on the clocks of the
machines, and what it accepts is, for each overlay, one chain of manager changes from the creator
alone. Both rest on the link of each change to the one before it. A link is a record id, and nothing
makes the ids of the nested changes differ: a change that takes the id of its own predecessor leads
back to the point where it was taken, and two changes can then name the same predecessor in one
valid history.
-/

namespace Layr

open Worklist List

section

variable {c : Codec} {parent : String} {keys : BTreeMap c.Key}

/-! ## One change -/

/-- The change may follow: it is for this overlay, a manager before and after it signs it, and it
keeps what was retained. -/
structure Accepts (ids : BTreeMap (Option String)) (a : Authority) (p : Pending) : Prop where
  overlay : ∀ id, ids[p.change.name]? = some (some id) → id = p.change.overlay
  signerBefore : p.record.machine ∈ a.machines
  signerAfter : p.record.machine ∈ p.change.machines
  retained : ∀ (id hash : String), a.retained[id]? = some hash → p.change.retained[id]? = some hash
  digests : ∀ (id hash : String), p.change.retained[id]? = some hash →
    hash.utf8ByteSize = 64 ∧ allChars isHexDigit hash = true

variable {ids : BTreeMap (Option String)} {p : Pending} {s s' : BTreeMap Authority}

theorem applyChange_eq_ok : applyChange c ids s p = .ok s' ↔
      ∃ a, s[p.change.name]? = some a ∧ Accepts ids a p ∧
        s' = s.insert p.change.name (a.apply c p) := by
  have hretained : ∀ a : Authority, (∀ e ∈ a.retained.toList, p.change.retained[e.1]? = some e.2) ↔
        ∀ (id hash : String), a.retained[id]? = some hash → p.change.retained[id]? = some hash := by
    intro a
    simp
  have hids : (ids[p.change.name]?.bind fun id => id).all (· == p.change.overlay) = true ↔
      ∀ id, ids[p.change.name]? = some (some id) → id = p.change.overlay := by
    cases hid : ids[p.change.name]? with
    | none => simp
    | some o => cases o <;> simp
  simp only [applyChange, Authority.require, bind_eq_ok, context_eq_ok, ensure_eq_ok,
    exists_const, forM_eq_forM, forM_eq_ok, pure_eq_ok, beq_iff_eq, hretained, hids,
    all_eq_true, Bool.and_eq_true, Prod.forall, mem_toList_iff_getElem?_eq_some,
    Std.ExtTreeSet.contains_iff_mem]
  constructor
  · rintro ⟨a, ha, hid, hb, haft, hr, hd, rfl⟩
    exact ⟨a, ha, ⟨hid, hb, haft, hr, hd⟩, rfl⟩
  · rintro ⟨a, ha, ⟨hid, hb, haft, hr, hd⟩, rfl⟩
    exact ⟨a, ha, hid, hb, haft, hr, hd, rfl⟩

theorem follows_iff : follows s p = true ↔ ∃ a, s[p.change.name]? = some a ∧
    a.previous = p.change.previous := by
  unfold follows
  cases s[p.change.name]? <;> simp

def changeStep (c : Codec) (ids : BTreeMap (Option String)) (s : BTreeMap Authority)
    (p : Pending) : Option (BTreeMap Authority) := (applyChange c ids s p).toOption

theorem changeStep_eq_some : changeStep c ids s p = some s' ↔
      ∃ a, s[p.change.name]? = some a ∧ Accepts ids a p ∧
        s' = s.insert p.change.name (a.apply c p) := by
  rw [changeStep, toOption_eq_some, applyChange_eq_ok]

variable {t : BTreeMap Authority}

theorem applyPending_eq_ok_cons {pending : List Pending} (hne : pending ≠ []) :
    applyPending c ids s pending = .ok t ↔ ∃ (i : Nat) (hi : i < pending.length)
      (s' : BTreeMap Authority), pending.findIdx? (follows s) = some i ∧
        applyChange c ids s pending[i] = .ok s' ∧ applyPending c ids s' (pending.eraseIdx i) =
          .ok t := by
  rw [applyPending, if_neg hne]
  split
  · next h =>
    simp [h]
  next i h =>
  have hi : i < pending.length := (findIdx?_eq_some_iff_getElem.1 h).1
  simp only [h, some.injEq]
  constructor
  · intro hrest
    cases hs : applyChange c ids s pending[i] with
    | error e => simp [hs] at hrest
    | ok s' =>
      rw [hs] at hrest
      exact ⟨i, hi, s', rfl, hs, hrest⟩
  · rintro ⟨_, _, s', rfl, hs, hrest⟩
    rw [hs]
    exact hrest

/-- The loop over the pending changes is the worklist loop. -/
theorem applyPending_toOption (ids : BTreeMap (Option String)) (s : BTreeMap Authority)
    (pending : List Pending) :
    (applyPending c ids s pending).toOption = run follows (changeStep c ids) s pending := by
  induction hn : pending.length using Nat.strongRecOn generalizing s pending with
  | ind n ih =>
    by_cases hne : pending = []
    · subst hne
      rw [run_nil, applyPending, if_pos rfl]
      rfl
    ext t
    rw [toOption_eq_some, applyPending_eq_ok_cons hne, run_eq_some_cons hne]
    refine exists_congr fun i => exists_congr fun hi => exists_congr fun s' => ?_
    have hlen : (pending.eraseIdx i).length < n := by
      rw [length_eraseIdx_of_lt hi]
      omega
    rw [← ih _ hlen s' (pending.eraseIdx i) rfl, changeStep, toOption_eq_some, toOption_eq_some]
    refine and_congr_right fun hfind => ?_
    rw [and_iff_right (findIdx?_eq_some_iff_getElem.1 hfind).2.1]

/-! ## Changes that cannot fork -/

/-- The two changes are of different overlays or name different predecessors. -/
def Apart (p q : Pending) : Prop :=
  ¬ (p.change.name = q.change.name ∧ p.change.previous = q.change.previous)

/-- No two changes of one overlay name the same predecessor. -/
def ForkFree (ps : List Pending) : Prop := ps.Pairwise Apart

theorem Apart.symm (p q : Pending) (h : Apart p q) : Apart q p := fun ⟨hn, hp⟩ =>
  h ⟨hn.symm, hp.symm⟩

/-- Two changes that are apart can be exchanged: where both may follow, they are of different
overlays. -/
theorem Apart.exchange (p q : Pending) (h : Apart p q) :
    Exchange follows (changeStep c ids) p q := by
  intro s s₁ hp hq hs₁
  obtain ⟨a, ha, hap⟩ := follows_iff.1 hp
  obtain ⟨b, hb, hbq⟩ := follows_iff.1 hq
  have hne : p.change.name ≠ q.change.name := by
    intro hname
    rw [hname] at ha
    cases ha.symm.trans hb
    exact h ⟨hname, hap.symm.trans hbq⟩
  obtain ⟨a', ha', hacc, rfl⟩ := changeStep_eq_some.1 hs₁
  cases ha.symm.trans ha'
  refine ⟨follows_iff.2 ⟨b, ?_, hbq⟩, fun s₂ hs₂ => ?_⟩
  · rw [Maps.getElem?_insert_ne hne]
    exact hb
  · obtain ⟨b', hb', hbcc, rfl⟩ := changeStep_eq_some.1 hs₂
    rw [Maps.getElem?_insert_ne hne] at hb'
    have ha₂ : (s.insert q.change.name (b'.apply c q))[p.change.name]? = some a := by
      rw [Maps.getElem?_insert_ne hne.symm]
      exact ha
    refine ⟨_, changeStep_eq_some.2 ⟨b', hb', hbcc, rfl⟩, follows_iff.2 ⟨a, ha₂, hap⟩, ?_⟩
    exact changeStep_eq_some.2 ⟨a, ha₂, hacc, Maps.insert_comm hne⟩

/-! ## The chain of one overlay -/

/-- The changes lead from one authority to another: each is linked to the one before it, and signed
by a machine that is a manager before and after it. -/
inductive Chain (c : Codec) (ids : BTreeMap (Option String)) : Authority → List Pending →
    Authority → Prop where
  | nil (a : Authority) : Chain c ids a [] a
  | cons {a b : Authority} {p : Pending} {ps : List Pending}
      (hlink : p.change.previous = a.previous) (hacc : Accepts ids a p)
      (h : Chain c ids (a.apply c p) ps b) : Chain c ids a (p :: ps) b

def changesOfOverlay (name : String) (ps : List Pending) : List Pending :=
  ps.filter fun p => p.change.name = name

variable {ps : List Pending} {name : String}

/-- A valid order of all changes is a chain for each overlay. -/
theorem chain_of_exec (h : Exec follows (changeStep c ids) s ps t) {b : Authority}
    (hb : t[name]? = some b) :
    ∃ a, s[name]? = some a ∧ Chain c ids a (changesOfOverlay name ps) b := by
  induction h with
  | nil s => exact ⟨b, hb, .nil b⟩
  | @cons s s' t p ps hp hs h ih =>
    obtain ⟨a', ha', hchain⟩ := ih hb
    obtain ⟨a, ha, hprev⟩ := follows_iff.1 hp
    obtain ⟨_, h', hacc, rfl⟩ := changeStep_eq_some.1 hs
    cases ha.symm.trans h'
    rcases Maps.of_getElem?_insert ha' with ⟨rfl, rfl⟩ | ⟨hname, ha'⟩
    · refine ⟨a, ha, ?_⟩
      rw [changesOfOverlay, filter_cons_of_pos (by simp)]
      exact .cons hprev.symm hacc hchain
    · refine ⟨a', ha', ?_⟩
      rwa [changesOfOverlay, filter_cons_of_neg (by simpa using hname)]

/-- A valid order of changes only changes overlays that exist, and keeps them. -/
theorem exists_of_exec (h : Exec follows (changeStep c ids) s ps t) :
    (∀ p ∈ ps, ∃ a, s[p.change.name]? = some a) ∧
      ∀ (name : String) (a : Authority), s[name]? = some a → ∃ b, t[name]? = some b := by
  induction h with
  | nil s => exact ⟨by simp, fun _ a ha => ⟨a, ha⟩⟩
  | @cons s s' t p ps hp hs h ih =>
    obtain ⟨a, ha, hacc, rfl⟩ := changeStep_eq_some.1 hs
    -- The step leaves the names of the overlays as they are.
    have hkeep : ∀ name : String, (∃ b, s[name]? = some b) ↔
        ∃ b, (s.insert p.change.name (a.apply c p))[name]? = some b := by
      intro name
      by_cases hname : p.change.name = name
      · subst hname
        simp [ha]
      · rw [Maps.getElem?_insert_ne hname]
    refine ⟨?_, fun name b hb => ?_⟩
    · rw [forall_mem_cons]
      exact ⟨⟨a, ha⟩, fun q hq => (hkeep _).2 (ih.1 q hq)⟩
    · obtain ⟨b', hb'⟩ := (hkeep name).1 ⟨b, hb⟩
      exact ih.2 name b' hb'

variable {a b : Authority}

/-- The predecessor of a change in a chain is the start of the chain or another change of it. -/
theorem Chain.previous (h : Chain c ids a ps b) : ∀ p ∈ ps, p.change.previous = a.previous ∨
      ∃ q ∈ ps, p.change.previous = some q.record.id := by
  induction h with
  | nil a => simp
  | @cons a b p ps hlink hacc h ih =>
    rw [forall_mem_cons]
    refine ⟨.inl hlink, fun q hq => ?_⟩
    rcases ih q hq with hprev | ⟨q', hq', hprev⟩
    · exact .inr ⟨p, mem_cons_self, hprev⟩
    · exact .inr ⟨q', mem_cons_of_mem _ hq', hprev⟩

/-- The managers at the end of a chain are those of its last change. -/
theorem Chain.machines (h : Chain c ids a ps b) (ha : a.machines.isEmpty = false)
    (hps : ∀ p ∈ ps, p.change.machines.isEmpty = false) : b.machines.isEmpty = false := by
  induction h with
  | nil a => exact ha
  | @cons a b p ps hlink hacc h ih =>
    exact ih (hps p mem_cons_self) fun q hq => hps q (mem_cons_of_mem _ hq)

/-! ## The first pass over the records -/

def creation (c : Codec) (parent : String) (keys : BTreeMap c.Key) (r : Record) :
    Option (String × Option String × String) :=
  if r.op = "overlay.create" then
    (r.data.idx "name").asStr.bind fun name =>
      if (checkName "overlay" name).toBool then
        (creatorOf c parent keys r name (overlayId r name)).toOption.map
          fun creator => (name, overlayId r name, creator)
      else none
  else none

def changeOf (c : Codec) (parent : String) (keys : BTreeMap c.Key) (r : Record) : Option Pending :=
  if r.op = "overlay.create" then none else (managerProof c parent keys r).toOption

theorem toBool_iff {ε α : Type} {x : Except ε α} : x.toBool = true ↔ ∃ a, x = .ok a := by
  cases x <;> simp [Except.toBool]

variable {r : Record}

theorem foldRecord_eq_ok {s s' : FoldState} : foldRecord c parent keys s r = .ok s' ↔
      (∃ e, creation c parent keys r = some e ∧ s.authorities[e.1]? = none ∧
        s' = { s with ids := s.ids.insert e.1 e.2.1
                      authorities := s.authorities.insert e.1 (.created e.2.2) }) ∨
      ∃ p, changeOf c parent keys r = some p ∧ s' = { s with pending := s.pending ++ [p] } := by
  unfold foldRecord creation changeOf
  split
  · have hnone : ∀ name, (!s.authorities.contains name) = true ↔ s.authorities[name]? = none := by
      intro name
      simp [← Std.ExtTreeMap.contains_iff_mem]
    simp only [bind_eq_ok, context_eq_ok, ensure_eq_ok, pure_eq_ok, hnone, reduceCtorEq, false_and,
      exists_false, or_false, bind_eq_some_iff]
    constructor
    · rintro ⟨name, hname, ⟨⟩, hcheck, ⟨⟩, hnew, creator, hcreator, rfl⟩
      refine ⟨(name, overlayId r name, creator), ⟨name, hname, ?_⟩, hnew, rfl⟩
      rw [if_pos (toBool_iff.2 ⟨_, hcheck⟩), toOption_eq_some.2 hcreator]
      rfl
    · rintro ⟨e, ⟨name, hname, he⟩, hnew, rfl⟩
      split at he
      · next hcheck =>
        obtain ⟨⟨⟩, hcheck⟩ := toBool_iff.1 hcheck
        obtain ⟨creator, hcreator, rfl⟩ := map_eq_some_iff.1 he
        exact ⟨name, hname, (), hcheck, (), hnew, creator, toOption_eq_some.1 hcreator, rfl⟩
      · cases he
  · simp only [bind_eq_ok, pure_eq_ok, reduceCtorEq, false_and, exists_false, false_or,
      toOption_eq_some, eq_comm (a := s')]

/-- What the first pass reaches when nothing stands in its way. -/
def FoldState.extend (s : FoldState) (es : List (String × Option String × String))
    (ps : List Pending) : FoldState where
  authorities := Maps.insertAll (·.1) (fun e => .created e.2.2) s.authorities es
  ids := Maps.insertAll (·.1) (·.2.1) s.ids es
  pending := s.pending ++ ps

variable {rs : List Record}

/-- The first pass succeeds exactly when every record says something and every overlay is created
once. -/
theorem foldlM_foldRecord {s s' : FoldState} : rs.foldlM (foldRecord c parent keys) s = .ok s' ↔
      (∀ r ∈ rs, creation c parent keys r ≠ none ∨ changeOf c parent keys r ≠ none) ∧
      ((rs.filterMap (creation c parent keys)).map (·.1)).Nodup ∧
      (∀ e ∈ rs.filterMap (creation c parent keys), s.authorities[e.1]? = none) ∧
      s' = s.extend (rs.filterMap (creation c parent keys))
        (rs.filterMap (changeOf c parent keys)) := by
  induction rs generalizing s with
  | nil => simp [pure, Except.pure, FoldState.extend, Maps.insertAll, eq_comm]
  | cons r rs ih =>
    -- A record is a creation or a change, never both.
    have hboth : ∀ e p, creation c parent keys r = some e → changeOf c parent keys r ≠ some p := by
      intro e p he hp
      unfold creation at he
      unfold changeOf at hp
      split at he
      · next hop => simp [hop] at hp
      · cases he
    rw [foldlM_cons, bind_eq_ok]
    simp only [foldRecord_eq_ok]
    cases he : creation c parent keys r with
    | some e =>
      have hp : changeOf c parent keys r = none :=
        eq_none_iff_forall_ne_some.2 fun p => hboth e p he
      simp only [hp, reduceCtorEq, false_and, exists_false, or_false, some.injEq,
        exists_eq_left', filterMap_cons, he, map_cons, nodup_cons,
        forall_mem_cons]
      constructor
      · rintro ⟨s₁, ⟨hnew, rfl⟩, h⟩
        obtain ⟨hall, hnd, hfresh, rfl⟩ := ih.1 h
        have hne : ∀ d ∈ rs.filterMap (creation c parent keys), e.1 ≠ d.1 := by
          intro d hd heq
          have := hfresh d hd
          rw [← heq, getElem?_insert_self] at this
          cases this
        refine ⟨⟨by simp, hall⟩, ⟨?_, hnd⟩, ⟨hnew, fun d hd => ?_⟩, rfl⟩
        · rintro hmem
          obtain ⟨d, hd, heq⟩ := mem_map.1 hmem
          exact hne d hd heq.symm
        · have := hfresh d hd
          rwa [Maps.getElem?_insert_ne (hne d hd)] at this
      · rintro ⟨⟨-, hall⟩, ⟨hnot, hnd⟩, ⟨hnew, hfresh⟩, rfl⟩
        refine ⟨_, ⟨hnew, rfl⟩, ih.2 ⟨hall, hnd, fun d hd => ?_, rfl⟩⟩
        have hne : e.1 ≠ d.1 := fun heq => hnot (heq ▸ mem_map_of_mem hd)
        rw [Maps.getElem?_insert_ne hne]
        exact hfresh d hd
    | none =>
      cases hp : changeOf c parent keys r with
      | none => simp [he, hp]
      | some p =>
        have hassoc : ∀ es ps, FoldState.extend { s with pending := s.pending ++ [p] } es ps =
            s.extend es (p :: ps) := by
          intro es ps
          simp [FoldState.extend]
        simp only [reduceCtorEq, false_and, exists_false, false_or, some.injEq,
          exists_eq_left', exists_eq_left, filterMap_cons, he, hp, ih, hassoc,
          forall_mem_cons]
        simp

def Record.strip (r : Record) : Record := { r with time := 0 }

/-- No creation and no change of managers reads the time of the record that carries it. -/
theorem creation_strip (r : Record) : creation c parent keys r.strip = creation c parent keys r :=
  rfl

theorem changeOf_strip (r : Record) : changeOf c parent keys r.strip = changeOf c parent keys r :=
  rfl

/-- Two lists of records that differ in their order and times only. -/
def SameRecords (rs rs' : List Record) : Prop := (rs.map Record.strip).Perm (rs'.map Record.strip)

/-- What does not read the time gives the same for the records without their times. -/
theorem filterMap_strip {α : Type} {f : Record → Option α} (hf : ∀ r, f r.strip = f r)
    (rs : List Record) : (rs.map Record.strip).filterMap f = rs.filterMap f := by
  rw [filterMap_map]
  exact congrArg (List.filterMap · rs) (funext hf)

variable {rs rs' : List Record}

theorem SameRecords.filterMap {α : Type} {f : Record → Option α} (hf : ∀ r, f r.strip = f r)
    (h : SameRecords rs rs') : (rs.filterMap f).Perm (rs'.filterMap f) := by
  rw [← filterMap_strip hf rs, ← filterMap_strip hf rs']
  exact List.Perm.filterMap f h

variable {s : FoldState}

/-- The first pass reads the same authorities and ids from the same records in any order, at any
times, and the same changes up to their order. -/
theorem SameRecords.firstPass (h : SameRecords rs rs')
    (hs : rs.foldlM (foldRecord c parent keys) {} = .ok s) :
    ∃ s', rs'.foldlM (foldRecord c parent keys) {} = .ok s' ∧ s'.authorities = s.authorities ∧
      s'.ids = s.ids ∧ s'.pending = rs'.filterMap (changeOf c parent keys) ∧
        s'.pending.Perm s.pending := by
  obtain ⟨hall, hnd, -, rfl⟩ := foldlM_foldRecord.1 hs
  have hes := h.filterMap (@creation_strip c parent keys)
  have hps := h.filterMap (@changeOf_strip c parent keys)
  have hall' : ∀ r ∈ rs', creation c parent keys r ≠ none ∨ changeOf c parent keys r ≠ none := by
    intro r hr
    obtain ⟨r₀, hr₀, heq⟩ := mem_map.1 (h.symm.subset (mem_map_of_mem hr))
    rw [← creation_strip, ← changeOf_strip, ← heq]
    exact hall r₀ hr₀
  have hnd' := (hes.map (·.1)).nodup_iff.1 hnd
  refine ⟨_, foldlM_foldRecord.2 ⟨hall', hnd', fun e _ => ?_, rfl⟩, ?_, ?_, rfl, hps.symm⟩
  · exact getElem?_empty
  · exact Maps.insertAll_perm hes.symm hnd
  · exact Maps.insertAll_perm hes.symm hnd

/-! ## The lines of the parent -/

def recordOf (c : Codec) (parent : String) (keys : BTreeMap c.Key) (line : String) :
    Option Record :=
  (lineRecord c parent keys line).toOption.bind fun o => o

variable {lines : List String}

theorem authorityRecords_eq_ok : authorityRecords c parent lines keys = .ok rs ↔
      (∀ l ∈ lines, ∃ o, lineRecord c parent keys l = .ok o) ∧
        rs = lines.filterMap (recordOf c parent keys) := by
  rw [authorityRecords, foldlM_collect]
  rfl

/-- The manager changes that the lines carry, in the order of the lines. -/
def changesOf (c : Codec) (parent : String) (keys : BTreeMap c.Key) (lines : List String) :
    List Pending :=
  lines.filterMap fun l => (recordOf c parent keys l).bind (changeOf c parent keys)

/-- The machine that created the overlay, as one of the lines has it. -/
def CreatedBy (c : Codec) (parent : String) (keys : BTreeMap c.Key) (lines : List String)
    (name creator : String) : Prop :=
  ∃ l ∈ lines, ∃ r id, recordOf c parent keys l = some r ∧
    creation c parent keys r = some (name, id, creator)

/-- What the lines say before any change is applied, in the order of the lines. -/
def readLines (c : Codec) (parent : String) (keys : BTreeMap c.Key) (lines : List String) :
    Except String FoldState := do
  let records ← authorityRecords c parent lines keys
  records.foldlM (foldRecord c parent keys) {}

theorem readLines_pending (h : readLines c parent keys lines = .ok s) :
    s.pending = changesOf c parent keys lines := by
  obtain ⟨rs, hrs, hs⟩ := bind_eq_ok.1 h
  obtain ⟨-, rfl⟩ := authorityRecords_eq_ok.1 hrs
  obtain ⟨-, -, -, rfl⟩ := foldlM_foldRecord.1 hs
  simp [FoldState.extend, changesOf, filterMap_filterMap]

variable {a : Authority}

theorem readLines_authorities (h : readLines c parent keys lines = .ok s)
    (ha : s.authorities[name]? = some a) :
    ∃ creator, CreatedBy c parent keys lines name creator ∧ a = .created creator := by
  obtain ⟨rs, hrs, hs⟩ := bind_eq_ok.1 h
  obtain ⟨-, rfl⟩ := authorityRecords_eq_ok.1 hrs
  obtain ⟨-, hnd, -, rfl⟩ := foldlM_foldRecord.1 hs
  obtain ⟨e, he, rfl, rfl⟩ := (Maps.getElem?_insertAll_empty hnd).1 ha
  obtain ⟨r, hr, hcr⟩ := mem_filterMap.1 he
  obtain ⟨l, hl, hlr⟩ := mem_filterMap.1 hr
  exact ⟨e.2.2, ⟨l, hl, r, e.2.1, hlr, hcr⟩, rfl⟩

/-- In a valid order of the changes, those of the overlay of each change are a chain from its
creator. -/
theorem chain_of_change (hs : readLines c parent keys lines = .ok s) {t : BTreeMap Authority}
    (h : Exec follows (changeStep c s.ids) s.authorities ps t) (hp : p ∈ ps) :
    ∃ creator b, CreatedBy c parent keys lines p.change.name creator ∧
      Chain c s.ids (.created creator) (changesOfOverlay p.change.name ps) b := by
  obtain ⟨hex, hkeep⟩ := exists_of_exec h
  obtain ⟨a, ha⟩ := hex p hp
  obtain ⟨b, hb⟩ := hkeep _ a ha
  obtain ⟨a₀, ha₀, hchain⟩ := chain_of_exec h hb
  obtain ⟨creator, hcreated, rfl⟩ := readLines_authorities hs ha₀
  exact ⟨creator, b, hcreated, hchain⟩

/-- The records at other times: the `i`-th one at the time `τ i`. -/
def retime (τ : Nat → Int) (rs : List Record) : List Record :=
  rs.mapIdx fun i r => { r with time := τ i }

/-- `fromLines` where the records that the lines carry have other times. -/
def fromLinesAt (c : Codec) (parent : String) (lines : List String) (keys : BTreeMap c.Key)
    (τ : Nat → Int) : Except String (BTreeMap Authority) := do
  let records ← authorityRecords c parent lines keys
  foldRecords c parent (retime τ records) keys

theorem retime_map_strip (τ : Nat → Int) (rs : List Record) :
    (retime τ rs).map Record.strip = rs.map Record.strip := by
  refine ext_getElem (by simp [retime]) fun i _ _ => ?_
  simp only [retime, getElem_map, getElem_mapIdx]
  rfl

theorem SameRecords.sort (h : SameRecords rs rs') :
    SameRecords rs (rs'.insertionSort (recordLe · ·)) :=
  h.trans ((perm_insertionSort (recordLe · ·) rs').symm.map _)

/-- The records of the same lines in another order, at other times, are the same. -/
theorem sameRecords_of_perm {lines lines' : List String} (hp : lines'.Perm lines)
    (hrs : authorityRecords c parent lines keys = .ok rs) :
    ∃ rs', authorityRecords c parent lines' keys = .ok rs' ∧
      ∀ τ, SameRecords rs (retime τ rs') := by
  obtain ⟨hall, rfl⟩ := authorityRecords_eq_ok.1 hrs
  refine ⟨_, authorityRecords_eq_ok.2 ⟨fun l hl => hall l (hp.subset hl), rfl⟩, fun τ => ?_⟩
  rw [SameRecords, retime_map_strip]
  exact (hp.symm.filterMap _).map _

/-- The result over records that are the same as those of the lines: the loop over their changes,
from what the lines say. -/
theorem foldRecords_toOption (hrs : authorityRecords c parent lines keys = .ok rs)
    (hs : readLines c parent keys lines = .ok s) (h : SameRecords rs rs') :
    (foldRecords c parent rs' keys).toOption = run follows (changeStep c s.ids) s.authorities
        ((rs'.insertionSort (recordLe · ·)).filterMap (changeOf c parent keys)) ∧
    ((rs'.insertionSort (recordLe · ·)).filterMap (changeOf c parent keys)).Perm s.pending := by
  have hs' : rs.foldlM (foldRecord c parent keys) {} = .ok s := by
    obtain ⟨rs₀, hrs₀, hs⟩ := bind_eq_ok.1 hs
    cases hrs.symm.trans hrs₀
    exact hs
  obtain ⟨s', hfold, hauth, hids, hpend, hperm⟩ := h.sort.firstPass hs'
  refine ⟨?_, hpend ▸ hperm⟩
  rw [← hpend, ← hauth, ← hids, ← applyPending_toOption, foldRecords, hfold]
  rfl

/-- Whatever the order and the times, a result comes out of the loop over the changes in some
order. -/
theorem fromLinesAt_run {lines lines' : List String} (hp : lines'.Perm lines) (τ : Nat → Int)
    (hs : readLines c parent keys lines = .ok s) :
    ∃ ps, ps.Perm s.pending ∧ (fromLinesAt c parent lines' keys τ).toOption =
      run follows (changeStep c s.ids) s.authorities ps := by
  obtain ⟨rs, hrs, -⟩ := bind_eq_ok.1 hs
  obtain ⟨rs', hrs', hsame⟩ := sameRecords_of_perm hp hrs
  obtain ⟨hrun, hperm⟩ := foldRecords_toOption hrs hs (hsame τ)
  refine ⟨_, hperm, ?_⟩
  rw [← hrun, fromLinesAt, hrs']
  rfl

variable {t : BTreeMap Authority}

/-- Whatever the order and the times, a result comes out only if the lines can be read. -/
theorem readLines_of_fromLinesAt {lines lines' : List String} (hp : lines'.Perm lines)
    {τ : Nat → Int} (h : fromLinesAt c parent lines' keys τ = .ok t) :
    ∃ s, readLines c parent keys lines = .ok s := by
  obtain ⟨rs', hrs', hfold⟩ := bind_eq_ok.1 h
  obtain ⟨s', hs', -⟩ := bind_eq_ok.1 hfold
  obtain ⟨rs, hrs, -⟩ := sameRecords_of_perm hp.symm hrs'
  obtain ⟨rs₂, hrs₂, hsame⟩ := sameRecords_of_perm hp hrs
  cases hrs'.symm.trans hrs₂
  obtain ⟨s, hs, -⟩ := SameRecords.firstPass (hsame τ).sort.symm hs'
  exact ⟨s, by rw [readLines, hrs]; exact hs⟩

theorem exists_fromLinesAt (c : Codec) (parent : String) (lines : List String)
    (keys : BTreeMap c.Key) :
    ∃ τ, fromLines c parent lines keys = fromLinesAt c parent lines keys τ := by
  cases hrs : authorityRecords c parent lines keys with
  | error e => exact ⟨fun _ => 0, by rw [fromLines, fromLinesAt, hrs]; rfl⟩
  | ok rs =>
    refine ⟨fun i => (rs[i]?.map (·.time)).getD 0, ?_⟩
    have hself : retime (fun i => (rs[i]?.map (·.time)).getD 0) rs = rs := by
      refine ext_getElem (by simp [retime]) fun i _ hi => ?_
      simp [retime, getElem?_eq_getElem hi]
    rw [fromLines, fromLinesAt, hrs]
    simp [bind, Except.bind, hself]

theorem insertionSort_retime (rs : List Record) :
    (retime (fun i => i) rs).insertionSort (recordLe · ·) = retime (fun i => i) rs := by
  refine List.Pairwise.insertionSort_eq (pairwise_iff_getElem.2 fun i j hi hj hij => ?_)
  simp only [retime, getElem_mapIdx, recordLe, Bool.or_eq_true, decide_eq_true_eq]
  left
  exact_mod_cast hij

/-- Every order of the changes is the order of the loop for some order and times of the lines. -/
theorem exists_fromLinesAt_run (hs : readLines c parent keys lines = .ok s)
    (hps : ps.Perm s.pending) :
    ∃ lines' τ, lines'.Perm lines ∧ (fromLinesAt c parent lines' keys τ).toOption =
      run follows (changeStep c s.ids) s.authorities ps := by
  rw [readLines_pending hs] at hps
  obtain ⟨lines', hp, rfl⟩ := exists_perm_filterMap hps
  obtain ⟨rs, hrs, -⟩ := bind_eq_ok.1 hs
  obtain ⟨rs', hrs', hsame⟩ := sameRecords_of_perm hp hrs
  refine ⟨lines', fun i => i, hp, ?_⟩
  obtain ⟨hrun, -⟩ := foldRecords_toOption hrs hs (hsame fun i => i)
  obtain ⟨-, rfl⟩ := authorityRecords_eq_ok.1 hrs'
  have hchanges : ((retime (fun i => i) (lines'.filterMap (recordOf c parent keys))).filterMap
      (changeOf c parent keys)) =
      lines'.filterMap fun l => (recordOf c parent keys l).bind (changeOf c parent keys) := by
    rw [← filterMap_strip changeOf_strip, retime_map_strip, filterMap_strip changeOf_strip,
      filterMap_filterMap]
  rw [insertionSort_retime, hchanges] at hrun
  rw [← hrun, fromLinesAt, hrs']
  rfl

/-! ## The law of the authority -/

/-- The lines hold a valid history: the changes they carry, in an order in which each one follows
the changes before it and is accepted. -/
def ValidHistory (c : Codec) (parent : String) (keys : BTreeMap c.Key) (lines : List String)
    (ps : List Pending) : Prop :=
  ∃ s t, readLines c parent keys lines = .ok s ∧ ps.Perm (changesOf c parent keys lines) ∧
    Exec follows (changeStep c s.ids) s.authorities ps t

/-- What the authority of the overlays of a parent is meant to be. -/
structure AuthorityLaw (c : Codec) (parent : String) (keys : BTreeMap c.Key) (lines : List String) :
    Prop where
  /-- Neither the order of the lines nor the times of their records decide anything. -/
  order : ∀ lines' τ, lines'.Perm lines →
    (fromLinesAt c parent lines' keys τ).toOption = (fromLines c parent lines keys).toOption
  /-- The managers are reached from the creator alone by one chain of changes. -/
  chain : ∀ t, fromLines c parent lines keys = .ok t → ∀ (name : String) (a : Authority),
    t[name]? = some a →
      a.machines.isEmpty = false ∧ ∃ ids creator ps, CreatedBy c parent keys lines name creator ∧
        ps.Perm (changesOfOverlay name (changesOf c parent keys lines)) ∧
        Chain c ids (.created creator) ps a
  /-- Two changes of one overlay with the same predecessor make it fail. -/
  fork : ¬ ForkFree (changesOf c parent keys lines) → ∀ t, fromLines c parent lines keys ≠ .ok t
  /-- A change of an overlay that is not created makes it fail. -/
  unknown : ∀ p ∈ changesOf c parent keys lines,
    (∀ creator, ¬ CreatedBy c parent keys lines p.change.name creator) →
      ∀ t, fromLines c parent lines keys ≠ .ok t
  /-- A change whose predecessor is missing makes it fail. -/
  gap : ∀ p ∈ changesOf c parent keys lines, ∀ id, p.change.previous = some id →
    (∀ q ∈ changesOf c parent keys lines, q.change.name = p.change.name → q.record.id ≠ id) →
      ∀ t, fromLines c parent lines keys ≠ .ok t

section

variable (h : fromLines c parent lines keys = .ok t)
include h

/-- What `fromLines` accepts is a valid history. -/
theorem validHistory_of_ok : ∃ s ps, readLines c parent keys lines = .ok s ∧
    ps.Perm (changesOf c parent keys lines) ∧
      Exec follows (changeStep c s.ids) s.authorities ps t := by
  obtain ⟨τ, hτ⟩ := exists_fromLinesAt c parent lines keys
  rw [hτ] at h
  obtain ⟨s, hs⟩ := readLines_of_fromLinesAt (.refl _) h
  obtain ⟨ps, hp, hrun⟩ := fromLinesAt_run (.refl _) τ hs
  rw [toOption_eq_some.2 h] at hrun
  obtain ⟨qs, hq, hexec⟩ := run_sound hrun.symm
  rw [readLines_pending hs] at hp
  exact ⟨s, qs, hs, hq.trans hp, hexec⟩

omit h in
theorem ForkFree.perm {ps qs : List Pending} (h : ForkFree ps) (hp : qs.Perm ps) : ForkFree qs :=
  pairwise_perm Apart.symm h hp

omit h in
/-- The managers that a signed change names are never none. -/
theorem changeOf_machines (h : changeOf c parent keys r = some p) :
    p.change.machines.isEmpty = false := by
  unfold changeOf managerProof at h
  split at h
  · cases h
  · simp only [toOption_eq_some, bind_eq_ok, ensure_eq_ok, pure_eq_ok, Bool.and_eq_true,
      Bool.not_eq_true'] at h
    obtain ⟨_, _, _, _, _, _, _, _, _, _, _, _, _, _, _, hb, rfl⟩ := h
    exact hb.1.1.2

omit h in
theorem machines_of_mem_changesOf (hp : p ∈ changesOf c parent keys lines) :
    p.change.machines.isEmpty = false := by
  obtain ⟨l, -, hl⟩ := mem_filterMap.1 hp
  obtain ⟨r, -, hr⟩ := bind_eq_some_iff.1 hl
  exact changeOf_machines hr

/-- Accepted managers are reached from the creator alone by one chain of changes. -/
theorem fromLines_chain (ha : t[name]? = some a) :
    a.machines.isEmpty = false ∧ ∃ ids creator ps, CreatedBy c parent keys lines name creator ∧
      ps.Perm (changesOfOverlay name (changesOf c parent keys lines)) ∧
      Chain c ids (.created creator) ps a := by
  obtain ⟨s, ps, hs, hperm, hexec⟩ := validHistory_of_ok h
  obtain ⟨a₀, ha₀, hchain⟩ := chain_of_exec hexec ha
  obtain ⟨creator, hcreated, rfl⟩ := readLines_authorities hs ha₀
  refine ⟨hchain.machines ?_ fun p hp => ?_, s.ids, creator, _, hcreated, hperm.filter _, hchain⟩
  · simp [Authority.created]
  · exact machines_of_mem_changesOf (hperm.subset (mem_filter.1 hp).1)

/-- Accepted lines create the overlay of every change they carry. -/
theorem fromLines_created (hp : p ∈ changesOf c parent keys lines) :
    ∃ creator, CreatedBy c parent keys lines p.change.name creator := by
  obtain ⟨s, ps, hs, hperm, hexec⟩ := validHistory_of_ok h
  obtain ⟨creator, _, hcreated, -⟩ := chain_of_change hs hexec (hperm.symm.subset hp)
  exact ⟨creator, hcreated⟩

/-- Accepted lines carry the predecessor of every change they carry. -/
theorem fromLines_predecessor
    (hp : p ∈ changesOf c parent keys lines) {id : String} (hid : p.change.previous = some id) :
    ∃ q ∈ changesOf c parent keys lines, q.change.name = p.change.name ∧ q.record.id = id := by
  obtain ⟨s, ps, hs, hperm, hexec⟩ := validHistory_of_ok h
  obtain ⟨creator, b, -, hchain⟩ := chain_of_change hs hexec (hperm.symm.subset hp)
  have hmem : p ∈ changesOfOverlay p.change.name ps :=
    mem_filter.2 ⟨hperm.symm.subset hp, by simp⟩
  rcases hchain.previous p hmem with hprev | ⟨q, hq, hprev⟩
  · rw [hid] at hprev
    cases hprev
  · obtain ⟨hq, hname⟩ := mem_filter.1 hq
    rw [hid] at hprev
    cases hprev
    exact ⟨q, hperm.subset hq, by simpa using hname, rfl⟩

end

/-- Without a fork in any valid history, a result for one order and times is the result for all. -/
theorem fromLinesAt_eq_ok {lines l₁ l₂ : List String} {τ₁ τ₂ : Nat → Int}
    (hvalid : ∀ ps, ValidHistory c parent keys lines ps → ForkFree ps)
    (h₁ : l₁.Perm lines) (h₂ : l₂.Perm lines) (h : fromLinesAt c parent l₁ keys τ₁ = .ok t) :
    fromLinesAt c parent l₂ keys τ₂ = .ok t := by
  obtain ⟨s, hs⟩ := readLines_of_fromLinesAt h₁ h
  have hpend := readLines_pending hs
  -- Both results are the loop over some order of the same changes.
  obtain ⟨ps₁, hp₁, hrun₁⟩ := fromLinesAt_run h₁ τ₁ hs
  obtain ⟨ps₂, hp₂, hrun₂⟩ := fromLinesAt_run h₂ τ₂ hs
  rw [toOption_eq_some.2 h] at hrun₁
  obtain ⟨qs, hq, hexec⟩ := run_sound hrun₁.symm
  have hff : ForkFree ps₁ := (hvalid qs ⟨s, t, hs, hpend ▸ hq.trans hp₁, hexec⟩).perm hq.symm
  rw [← toOption_eq_some, hrun₂, hrun₁]
  exact run_perm Apart.symm (fun p q h => h.exchange) hff (hp₂.trans hp₁.symm)

/-- The law holds exactly when no valid history of the lines forks. The only way to such a history
is a change that takes a record id a second time. -/
theorem authorityLaw_iff (c : Codec) (parent : String) (keys : BTreeMap c.Key)
    (lines : List String) :
    AuthorityLaw c parent keys lines ↔ ∀ ps, ValidHistory c parent keys lines ps → ForkFree ps := by
  constructor
  · rintro hlaw ps ⟨s, t, hs, hperm, hexec⟩
    by_contra hfork
    -- The history is the order of the loop for some order and times, so it is accepted for all.
    obtain ⟨lines', τ, hp, hrun⟩ := exists_fromLinesAt_run hs (readLines_pending hs ▸ hperm)
    rw [hlaw.order lines' τ hp, run_of_exec hexec, toOption_eq_some] at hrun
    exact hlaw.fork (fun hff => hfork (hff.perm hperm)) t hrun
  · intro hvalid
    refine ⟨fun lines' τ hp => ?_, fun t ht name a => fromLines_chain ht, fun hfork t ht => ?_,
      fun p hp hun t ht => ?_, fun p hp id hid hgap t ht => ?_⟩
    · obtain ⟨τ₀, hτ₀⟩ := exists_fromLinesAt c parent lines keys
      rw [hτ₀]
      refine Option.ext fun t => ?_
      rw [toOption_eq_some, toOption_eq_some]
      exact ⟨fromLinesAt_eq_ok hvalid hp (.refl _), fromLinesAt_eq_ok hvalid (.refl _) hp⟩
    · obtain ⟨s, ps, hs, hperm, hexec⟩ := validHistory_of_ok ht
      exact hfork ((hvalid ps ⟨s, t, hs, hperm, hexec⟩).perm hperm.symm)
    · obtain ⟨creator, hcreated⟩ := fromLines_created ht hp
      exact hun creator hcreated
    · obtain ⟨q, hq, hname, hqid⟩ := fromLines_predecessor ht hp hid
      exact hgap q hq hname hqid

/-- In a chain of changes with different ids, no two changes name the same predecessor. -/
theorem Chain.previous_ne (h : Chain c ids a ps b)
    (hstart : ∀ p ∈ ps, a.previous ≠ some p.record.id)
    (hids : ps.Pairwise fun p q => p.record.id ≠ q.record.id) :
    ps.Pairwise fun p q => p.change.previous ≠ q.change.previous := by
  induction h with
  | nil a => exact .nil
  | @cons a b p ps hlink hacc h ih =>
    obtain ⟨hp, hids⟩ := pairwise_cons.1 hids
    refine pairwise_cons.2 ⟨fun q hq heq => ?_, ih (fun q hq => ?_) hids⟩
    · rw [hlink] at heq
      rcases h.previous q hq with hprev | ⟨q', hq', hprev⟩
      · exact hstart p mem_cons_self (heq.trans hprev)
      · exact hstart q' (mem_cons_of_mem _ hq') (heq.trans hprev)
    · exact fun heq => hp q hq (some.inj heq)

/-- Changes with different ids have no valid history that forks. -/
theorem ValidHistory.forkFree (h : ValidHistory c parent keys lines ps)
    (hids : ps.Pairwise fun p q => p.change.name = q.change.name → p.record.id ≠ q.record.id) :
    ForkFree ps := by
  obtain ⟨s, t, hs, hperm, hexec⟩ := h
  have hchains : ∀ name, (changesOfOverlay name ps).Pairwise fun p q => p.change.previous ≠
      q.change.previous := by
    intro name
    by_cases hnil : changesOfOverlay name ps = []
    · rw [hnil]
      exact .nil
    obtain ⟨p, hp⟩ := exists_mem_of_ne_nil _ hnil
    obtain ⟨hp, hname⟩ := mem_filter.1 hp
    obtain ⟨creator, b, -, hchain⟩ := chain_of_change hs hexec hp
    rw [show p.change.name = name by simpa using hname] at hchain
    refine hchain.previous_ne (fun q _ heq => by cases heq) ?_
    refine (hids.sublist filter_sublist).imp_of_mem fun {q q'} hq hq' hne => hne ?_
    rw [show q.change.name = name by simpa using (mem_filter.1 hq).2,
      show q'.change.name = name by simpa using (mem_filter.1 hq').2]
  exact (Maps.pairwise_of_key hchains).imp fun hne ⟨hname, hprev⟩ => hne hname hprev

end

/-! ## A reused id -/

namespace ReusedId

def manager : String := "01a12290-0000-7000-8000-000000000001"

def parentId : String := "01a12290-0000-7000-8000-000000000002"

def overlay : String := "01a12290-0000-7000-8000-000000000003"

/-- The id of the first change, and again of the second. -/
def firstId : String := "01a12290-0000-7000-8000-000000000004"

def thirdId : String := "01a12290-0000-7000-8000-000000000005"

def create : Record where
  id := "01a12290-0000-7000-8000-000000000006"
  machine := manager
  seq := 1
  time := 1
  op := "overlay.create"
  project := parentId
  data := .obj [("config", .obj [("overlay.secrets", .obj [("id", .str overlay)])]),
    ("name", .str "secrets")]

def change (id : String) (seq : Nat) (previous : Json) : Record where
  id := id
  machine := manager
  seq := seq
  time := seq
  op := "overlay.managers"
  project := overlay
  data := .obj [("machines", .arr [.str manager]), ("name", .str "secrets"),
    ("overlay", .str overlay), ("parent", .str parentId), ("previous", previous),
    ("retained", .obj [])]

def carry (id : String) (seq : Nat) (signed : String) : Record where
  id := id
  machine := manager
  seq := seq
  time := seq
  op := "overlay.authority"
  project := parentId
  data := .obj [("authority", .str signed), ("name", .str "secrets")]

def texts : List (String × Record) :=
  [("create", create), ("change 1", change firstId 1 .null),
    ("change 2", change firstId 2 (.str firstId)), ("change 3", change thirdId 3 (.str firstId)),
    ("carry 1", carry "01a12290-0000-7000-8000-000000000007" 2 "change 1"),
    ("carry 2", carry "01a12290-0000-7000-8000-000000000008" 3 "change 2"),
    ("carry 3", carry "01a12290-0000-7000-8000-000000000009" 4 "change 3")]

/-- A codec that knows these texts; all of them verify under the manager's key. -/
def codec : Codec :=
  { Codec.silent with
    body := fun l => texts.lookup l, verifies := fun _ _ => true, decodeKey := fun _ => some () }

def keys : BTreeMap codec.Key := (∅ : BTreeMap Unit).insert manager ()

def lines : List String := ["create", "carry 1", "carry 2", "carry 3"]

def otherTimes (i : Nat) : Int := if i = 3 then 2 else if i = 2 then 9 else i

/-- The second change takes the id of the first again, and the third names the same predecessor as
the second. The parent's lines are accepted, although two changes fork, and they are refused when
the clocks put the third change before the second. -/
theorem not_authorityLaw : (fromLines codec parentId lines keys).toBool = true ∧
      (fromLinesAt codec parentId lines keys otherTimes).toBool = false ∧
      ¬ AuthorityLaw codec parentId keys lines := by
  have hok : (fromLines codec parentId lines keys).toBool = true := by decide +kernel
  have herr : (fromLinesAt codec parentId lines keys otherTimes).toBool = false := by
    decide +kernel
  refine ⟨hok, herr, fun hlaw => ?_⟩
  have heq := hlaw.order lines otherTimes (.refl _)
  obtain ⟨t, ht⟩ := toBool_iff.1 hok
  rw [ht, Except.toOption, toOption_eq_some] at heq
  rw [heq] at herr
  cases herr

/-- Without the change that takes the id again. -/
theorem forkFree_others : ∃ ps, ValidHistory codec parentId keys
    ["create", "carry 1", "carry 3"] ps ∧ ForkFree ps := by
  obtain ⟨t, ht⟩ := toBool_iff.1
    (show (fromLines codec parentId ["create", "carry 1", "carry 3"] keys).toBool =
      true by decide +kernel)
  obtain ⟨s, ps, hs, hperm, hexec⟩ := validHistory_of_ok ht
  have hvalid : ValidHistory _ _ _ _ ps := ⟨s, t, hs, hperm, hexec⟩
  refine ⟨ps, hvalid, hvalid.forkFree ((hperm.pairwise_iff fun h heq => (h heq.symm).symm).2 ?_)⟩
  decide +kernel

end ReusedId

end Layr
