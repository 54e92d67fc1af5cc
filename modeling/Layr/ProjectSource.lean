import Layr.Lib.Replay
import Layr.ProjectLines

/-!
# Source history in the read model

The fold checks the parents of a state and the head of a line against the states that came before
(`Shows.statesOk`). What comes later is not checked again. So a project is clean, with no cache or
derived state as a parent or as a head, exactly when no state names itself or a later cache or
derived state as a parent, and no head that stays is one (`clean_iff`). Which records come later is
a matter of the clocks of different machines.
-/

namespace Layr

open List Option

namespace Project

variable {c : Codec} {id here j : String} {p p' : Project} {r : Record} {rs o : List Record}

/-! ## States -/

/-- The table of states shows the recorded states, which were checked one after the other. -/
structure Shows (m : BTreeMap StateView) (ss : List StateRec) : Prop where
  states : ∀ id : String, m[id]?.map (·.source) = (ss.find? (·.id == id)).map fun s =>
    (s.kind, s.parents)
  nodup : (ss.map (·.id)).Nodup
  parents : ss.Pairwise fun q s => q.id ∈ s.parents → q.kind.auxiliary = false

variable {ss : List StateRec}

theorem Shows.congr {m m' : BTreeMap StateView} (h : Shows m ss)
    (hm : ∀ id : String, m'[id]?.map (·.source) = m[id]?.map (·.source)) : Shows m' ss :=
  ⟨fun id => (hm id).trans (h.states id), h.nodup, h.parents⟩

variable {m : BTreeMap StateView} {s : StateRec}

theorem Shows.find? (h : Shows m ss) (hs : s ∈ ss) : ss.find? (·.id == s.id) = some s := by
  have hsome : (ss.find? (·.id == s.id)).isSome = true := find?_isSome.2 ⟨s, hs, by simp⟩
  obtain ⟨t, ht⟩ := isSome_iff_exists.1 hsome
  have hid : t.id = s.id := by simpa using find?_some ht
  rw [ht, inj_on_of_nodup_map h.nodup (mem_of_find?_eq_some ht) hs hid]

variable {id : String}

theorem Shows.mem_iff (h : Shows m ss) : id ∈ m ↔ ∃ s ∈ ss, s.id = id := by
  rw [← isSome_getElem?_iff_mem, ← isSome_map (f := StateView.source), h.states, isSome_map,
    find?_isSome]
  simp

theorem Shows.exists_of_getElem? (h : Shows m ss) {v : StateView} (hv : m[id]? = some v) :
    ∃ s ∈ ss, s.id = id ∧ v.source = (s.kind, s.parents) := by
  have hstates := h.states id
  rw [hv, map_some] at hstates
  obtain ⟨s, hs, heq⟩ := map_eq_some_iff.1 hstates.symm
  exact ⟨s, mem_of_find?_eq_some hs, by simpa using find?_some hs, heq.symm⟩

theorem Shows.getElem?_of_mem (h : Shows m ss)
    (hs : s ∈ ss) : ∃ v, m[s.id]? = some v ∧ v.source = (s.kind, s.parents) := by
  have hstates := h.states s.id
  rw [h.find? hs, map_some] at hstates
  exact map_eq_some_iff.1 hstates

theorem Shows.notAux_iff (h : Shows m ss) : NotAux m id ↔ ∀ s ∈ ss, s.id = id →
    s.kind.auxiliary = false := by
  constructor
  · rintro hn s hs rfl
    obtain ⟨v, hv, hsource⟩ := h.getElem?_of_mem hs
    exact (congrArg (fun e => e.1.auxiliary) hsource).symm.trans (hn v hv)
  · intro hall v hv
    obtain ⟨s, hs, hid, hsource⟩ := h.exists_of_getElem? hv
    exact (congrArg (fun e => e.1.auxiliary) hsource).trans (hall s hs hid)

/-- A new state whose parents are part of source history. -/
theorem Shows.insert (h : Shows m ss) {machine : String} (hnew : s.id ∉ m)
    (hpar : ∀ q ∈ s.parents, NotAux m q) :
    Shows (m.insert s.id ⟨s, machine, false⟩) (ss ++ [s]) := by
  have hfresh : ∀ t ∈ ss, t.id ≠ s.id := fun t ht hid => hnew (h.mem_iff.2 ⟨t, ht, hid⟩)
  refine ⟨fun id => ?_, ?_, ?_⟩
  · rw [find?_append, find?_singleton]
    by_cases hid : s.id = id
    · subst hid
      have hnone : ss.find? (·.id == s.id) = none :=
        find?_eq_none.2 fun t ht => by simpa using hfresh t ht
      rw [getElem?_insert_self, hnone, beq_self_eq_true]
      rfl
    · rw [Maps.getElem?_insert_ne hid, h.states, beq_eq_false_iff_ne.2 hid]
      simp
  · rw [map_append, nodup_append']
    refine ⟨h.nodup, nodup_singleton _, disjoint_left.2 fun id hid hid' => ?_⟩
    obtain ⟨t, ht, rfl⟩ := mem_map.1 hid
    exact hfresh t ht (mem_singleton.1 hid')
  · refine pairwise_append.2 ⟨h.parents, pairwise_singleton _ _, fun q hq t ht hin => ?_⟩
    rw [mem_singleton.1 ht] at hin
    exact h.notAux_iff.1 (hpar q.id hin) q hq rfl

theorem Shows.statesOk {ss ts : List StateRec} (h : Shows m ss) (hts : StatesOk r m ts) :
    Shows (ts.foldl (fun m s => m.insert s.id ⟨s, r.machine, false⟩) m) (ss ++ ts) := by
  induction ts generalizing m ss with
  | nil => simpa using h
  | cons s ts ih =>
    obtain ⟨hnew, hpar, hrest⟩ := hts
    have hins := ih (h.insert hnew hpar) hrest
    rwa [append_assoc] at hins

def recorded (o : List Record) : List StateRec := o.flatMap (·.states)

theorem recorded_append (o o' : List Record) : recorded (o ++ o') = recorded o ++ recorded o' :=
  flatMap_append

structure Checked (o : List Record) (p : Project) : Prop where
  shows : Shows p.states (recorded o)
  heads : ∀ l r l', o = l ++ r :: l' → ∀ j a, update j r = some a →
    ∀ s ∈ recorded (l ++ [r]), s.id = a.head → s.kind.auxiliary = false

theorem checked_of_fold (h : fold c id here o = .ok p) : Checked o p := by
  refine fold_induction (P := Checked) ?_ ?_ h
  · refine ⟨⟨fun id => ?_, nodup_nil, List.Pairwise.nil⟩, fun l r l' ho => ?_⟩
    · simp [recorded]
    · simp at ho
  · intro o p r p' hp ih hd
    obtain ⟨hacc, hder⟩ := derived_of_derive hd
    have hshows : Shows (addStates r p.states) (recorded (o ++ [r])) := by
      simpa [recorded, addStates] using ih.shows.statesOk hacc.added
    refine ⟨hshows.congr hder.sources, fun l s l' ho j a ha => ?_⟩
    rcases Replay.append_singleton_eq_append_cons ho with ⟨-, rfl, rfl⟩ | ⟨l₃, -, ho⟩
    · obtain ⟨ch, hch, hafter⟩ := bind_eq_some_iff.1 ha
      exact hshows.notAux_iff.1
        (hacc.heads (j, ch) (mem_toList_iff_getElem?_eq_some.2 hch) a hafter)
    · exact ih.heads l s l₃ ho j a ha

/-! ## Heads that stay -/

/-- The machine that has a line after some records. -/
def holder (here j : String) (o : List Record) : Option String := o.foldl (holderStep here j) none

theorem machineOf_foldl (o : List Record) :
    machineOf (o.foldl (viewAt here j) none) = holder here j o := by
  induction o using List.reverseRecOn with
  | nil => rfl
  | append_singleton o r ih =>
    rw [holder, foldl_concat, foldl_concat, machineOf_viewAt, ih]
    rfl

/-- The record may change the line after the records before it. -/
def Open (here j : String) (l : List Record) (r : Record) : Prop :=
  ¬ (r.machine ≠ here ∧ holder here j l = some here)

structure LastChange (here j : String) (l : List Record) (r : Record) (l' : List Record) :
    Prop where
  takes : Open here j l r
  last : ∀ l₁ s l₂, l' = l₁ ++ s :: l₂ → (s.lines[j]?).isSome = true →
    ¬ Open here j (l ++ r :: l₁) s

theorem LastChange.init {l l' : List Record} {s : Record} (h : LastChange here j l r (l' ++ [s])) :
    LastChange here j l r l' :=
  ⟨h.takes, fun l₁ t l₂ ht => h.last l₁ t (l₂ ++ [s]) (by simp [ht])⟩

theorem LastChange.append {l l' : List Record} {s : Record} (h : LastChange here j l r l')
    (hs : (s.lines[j]?).isSome = true → ¬ Open here j (l ++ r :: l') s) :
    LastChange here j l r (l' ++ [s]) := by
  refine ⟨h.takes, fun l₁ t l₂ ht hsome => ?_⟩
  rcases Replay.append_singleton_eq_append_cons ht with ⟨-, rfl, rfl⟩ | ⟨l₃, -, ht⟩
  · exact hs hsome
  · exact h.last l₁ t l₃ ht hsome

/-- An active line is as the last record that changes it says. -/
theorem shown_eq_iff {line : Line} : (o.foldl (viewAt here j) none).map LineView.shown =
    some (line, false) ↔
      ∃ l r l' a, o = l ++ r :: l' ∧ update j r = some a ∧ a.line j = line ∧
        LastChange here j l r l' := by
  induction o using List.reverseRecOn with
  | nil => simp
  | append_singleton o s ih =>
    rw [foldl_concat]
    have hopen : Open here j o s ↔ ¬ Blocked here (o.foldl (viewAt here j) none) s := by
      unfold Open Blocked
      rw [← machineOf_foldl]
      rfl
    by_cases hs : (s.lines[j]?).isSome = true ∧ Open here j o s
    · obtain ⟨ch, hch⟩ := isSome_iff_exists.1 hs.1
      rw [shown_of_change (hopen.1 hs.2) hch]
      constructor
      · intro h
        obtain ⟨hline, hnone⟩ := Prod.mk.inj (some.inj h)
        cases hafter : ch.after with
        | none => rw [hafter] at hnone; cases hnone
        | some a =>
          rw [hafter] at hline
          refine ⟨o, s, [], a, rfl, by simp [update, hch, hafter], hline, hs.2,
            fun l₁ t l₂ ht => ?_⟩
          simp at ht
      · rintro ⟨l, r, l', a, ho, ha, hline, hlast⟩
        rcases Replay.append_singleton_eq_append_cons ho with ⟨rfl, rfl, rfl⟩ | ⟨l', rfl, rfl⟩
        · have hafter : ch.after = some a := by simpa [update, hch] using ha
          rw [hafter, ← hline]
          rfl
        · exact absurd hs.2 (hlast.last l' s [] (by simp) hs.1)
    · have hsame : (viewAt here j (o.foldl (viewAt here j) none) s).map LineView.shown =
          (o.foldl (viewAt here j) none).map LineView.shown := by
        cases hch : s.lines[j]? with
        | none => rw [viewAt_none hch]
        | some ch =>
          rw [hopen, hch] at hs
          exact shown_of_blocked (not_not.1 fun h => hs ⟨rfl, h⟩)
      rw [hsame, ih]
      constructor
      · rintro ⟨l, r, l', a, rfl, ha, hline, hlast⟩
        exact ⟨l, r, l' ++ [s], a, by simp, ha, hline, hlast.append fun hsome hop =>
          hs ⟨hsome, hop⟩⟩
      · rintro ⟨l, r, l', a, ho, ha, hline, hlast⟩
        rcases Replay.append_singleton_eq_append_cons ho with ⟨-, rfl, rfl⟩ | ⟨l', rfl, rfl⟩
        · obtain ⟨ch, hch, -⟩ := bind_eq_some_iff.1 ha
          exact absurd ⟨by rw [hch]; rfl, hlast.takes⟩ hs
        · exact ⟨l, r, l', a, rfl, ha, hline, hlast.init⟩

def headBy (j m : String) (r : Record) : Option String :=
  if r.machine = m then (update j r).map (·.head) else none

/-- The head of a machine is the one that the last record of that machine set. -/
theorem heads_eq_iff {m h : String} :
    (o.foldl (viewAt here j) none).bind (fun v => v.heads[m]?) = some h ↔
      ∃ l r l', o = l ++ r :: l' ∧ headBy j m r = some h ∧ ∀ s ∈ l', headBy j m s = none := by
  have hfold : (o.foldl (viewAt here j) none).bind (fun v => v.heads[m]?) =
      o.reverse.findSome? (headBy j m) := by
    induction o using List.reverseRecOn with
    | nil => rfl
    | append_singleton o r ih =>
      rw [foldl_concat, heads_viewAt, ih, reverse_append, reverse_singleton, singleton_append,
        findSome?_cons, headBy]
      by_cases hm : r.machine = m
      · rw [if_pos hm, if_pos hm]
        cases (update j r).map (·.head) <;> rfl
      · rw [if_neg hm, if_neg hm]
  rw [hfold, findSome?_eq_some_iff]
  constructor
  · rintro ⟨l₁, r, l₂, ho, hr, hnone⟩
    refine ⟨l₂.reverse, r, l₁.reverse, ?_, hr, fun s hs => hnone s (mem_reverse.1 hs)⟩
    have hrev := congrArg List.reverse ho
    simpa using hrev
  · rintro ⟨l, r, l', rfl, hr, hnone⟩
    exact ⟨l'.reverse, r, l.reverse, by simp, hr, fun s hs => hnone s (mem_reverse.1 hs)⟩

/-! ## Clean projects -/

def SetOnly (c : Codec) (id here : String) (rs : List Record) : Prop :=
  ∀ rs', (∀ r, r ∈ rs' ↔ r ∈ rs) → SameOutcome (fromRecords c id rs here)
    (fromRecords c id rs' here)

/-- No state has a cache or derived state as a parent, and neither the head of an active line nor
the head of a machine is one. -/
structure Clean (p : Project) : Prop where
  parents : ∀ (id : String) (v : StateView), p.states[id]? = some v →
    ∀ q ∈ v.state.parents, NotAux p.states q
  heads : ∀ (j : String) (v : LineView), p.lines[j]? = some v →
    (v.deleted = false → NotAux p.states v.line.head) ∧
      ∀ m h : String, v.heads[m]? = some h → NotAux p.states h

/-- The head that a record gives a line stays: no later record of its machine updates the line, or
no later record changes the line. -/
def Stays (here j : String) (l : List Record) (r : Record) (l' : List Record) : Prop :=
  (∀ s ∈ l', s.machine = r.machine → update j s = none) ∨ LastChange here j l r l'

/-- No cache or derived state comes after what names it: as the parent of a state, or as a head that
stays. -/
structure NamedFirst (here : String) (o : List Record) : Prop where
  parents : ∀ l s l', recorded o = l ++ s :: l' → ∀ q ∈ s :: l', q.id ∈ s.parents →
    q.kind.auxiliary = false
  heads : ∀ l r l', o = l ++ r :: l' → ∀ j a, update j r = some a → Stays here j l r l' →
    ∀ q ∈ recorded l', q.id = a.head → q.kind.auxiliary = false

/-- The parents of the recorded states are clean exactly when no state names itself or a later cache
or derived state. -/
theorem Shows.parents_iff (h : Shows m ss) :
    (∀ (id : String) (v : StateView), m[id]? = some v → ∀ q ∈ v.state.parents, NotAux m q) ↔
      ∀ l s l', ss = l ++ s :: l' → ∀ q ∈ s :: l', q.id ∈ s.parents → q.kind.auxiliary = false := by
  constructor
  · intro hclean l s l' hss q hq hin
    have hs : s ∈ ss := by rw [hss]; simp
    have hqs : q ∈ ss := by rw [hss]; exact mem_append_right _ hq
    obtain ⟨v, hv, hsource⟩ := h.getElem?_of_mem hs
    have hparents : v.state.parents = s.parents := congrArg Prod.snd hsource
    exact h.notAux_iff.1 (hclean s.id v hv q.id (hparents ▸ hin)) q hqs rfl
  · intro hord id v hv q hq
    obtain ⟨s, hs, -, hsource⟩ := h.exists_of_getElem? hv
    have hparents : v.state.parents = s.parents := congrArg Prod.snd hsource
    rw [hparents] at hq
    obtain ⟨l, l', rfl⟩ := append_of_mem hs
    rw [h.notAux_iff]
    rintro t ht rfl
    rcases mem_append.1 ht with ht | ht
    · exact (pairwise_append.1 h.parents).2.2 t ht s mem_cons_self hq
    · exact hord l s l' rfl t ht hq

/-- A project is clean exactly when no cache or derived state comes after what names it. -/
theorem clean_iff (h : fold c id here o = .ok p) : Clean p ↔ NamedFirst here o := by
  have hc := checked_of_fold h
  have hlines := fold_lines h
  -- What a record names is checked against the states up to it; the rest is the later states.
  have hlater : ∀ {l r l'}, o = l ++ r :: l' → ∀ {j a}, update j r = some a →
      (NotAux p.states a.head ↔ ∀ q ∈ recorded l', q.id = a.head → q.kind.auxiliary = false) := by
    intro l r l' ho j a ha
    have hrec : recorded o = recorded (l ++ [r]) ++ recorded l' := by
      rw [← recorded_append, ho]
      simp
    rw [hc.shows.notAux_iff, hrec]
    constructor
    · exact fun hall q hq => hall q (mem_append_right _ hq)
    · intro hall q hq
      rcases mem_append.1 hq with hq | hq
      · exact hc.heads l r l' ho j a ha q hq
      · exact hall q hq
  constructor
  · intro hclean
    refine ⟨hc.shows.parents_iff.1 hclean.parents, fun l r l' ho j a ha hstays => ?_⟩
    rw [← hlater ho ha]
    rcases hstays with hlast | hlast
    · have hhead : (o.foldl (viewAt here j) none).bind (fun v => v.heads[r.machine]?) =
          some a.head := by
        refine heads_eq_iff.2 ⟨l, r, l', ho, by rw [headBy, if_pos rfl, ha]; rfl, fun s hs => ?_⟩
        unfold headBy
        split
        · next hm => rw [hlast s hs hm]; rfl
        · rfl
      obtain ⟨v, hv, hm⟩ := bind_eq_some_iff.1 hhead
      exact (hclean.heads j v ((hlines j).trans hv)).2 r.machine a.head hm
    · have hshown := shown_eq_iff.2 ⟨l, r, l', a, ho, ha, rfl, hlast⟩
      obtain ⟨v, hv, hvs⟩ := map_eq_some_iff.1 hshown
      obtain ⟨hline, hdel⟩ := Prod.mk.inj hvs
      have hnot := (hclean.heads j v ((hlines j).trans hv)).1 hdel
      rwa [hline] at hnot
  · intro hord
    refine ⟨hc.shows.parents_iff.2 hord.parents, fun j v hv => ⟨fun hdel => ?_, fun m hd hm => ?_⟩⟩
    · have hshown : (o.foldl (viewAt here j) none).map LineView.shown = some (v.line, false) := by
        rw [← hlines j, hv, map_some, LineView.shown, hdel]
      obtain ⟨l, r, l', a, ho, ha, hline, hlast⟩ := shown_eq_iff.1 hshown
      rw [← hline]
      exact (hlater ho ha).2 (hord.heads l r l' ho j a ha (.inr hlast))
    · have hhead : (o.foldl (viewAt here j) none).bind (fun v => v.heads[m]?) = some hd := by
        rw [← hlines j, hv]
        exact hm
      obtain ⟨l, r, l', ho, hr, hlast⟩ := heads_eq_iff.1 hhead
      unfold headBy at hr
      split at hr
      · next hmr =>
        obtain ⟨a, ha, rfl⟩ := map_eq_some_iff.1 hr
        refine (hlater ho ha).2 (hord.heads l r l' ho j a ha (.inl fun s hs hsm => ?_))
        have hnone := hlast s hs
        rw [headBy, if_pos (hsm.trans hmr)] at hnone
        exact map_eq_none_iff.1 hnone
      · cases hr

/-- The outcome depends on the set of records alone if no two of them differ in the sign of zeros
only, and for records that make a project it does not otherwise. A project that comes out is clean
exactly when no cache or derived state comes after what names it in the order of the fold. -/
theorem fromRecords_outcome (c : Codec) (id here : String) (rs : List Record) :
    (ZerosAgree rs → SetOnly c id here rs) ∧ ∀ p, fromRecords c id rs here = .ok p →
      (SetOnly c id here rs → ZerosAgree rs) ∧ (Clean p ↔ NamedFirst here (foldOrder rs)) := by
  refine ⟨fun hz rs' hmem => fromRecords_congr hz hmem, fun p hp => ⟨zerosAgree_of_same hp, ?_⟩⟩
  obtain ⟨-, q, hq, rfl⟩ := fromRecords_eq_ok.1 hp
  rw [← clean_iff hq]
  exact ⟨fun h => ⟨h.parents, h.heads⟩, fun h => ⟨h.parents, h.heads⟩⟩

/-! ## Two inputs that do not fit

One machine names a state as a parent. The record of another machine that records this state as a
cache is dated later, so it is folded after the check of the parent. And an approval comes in two
copies whose texts have 0.0 and -0.0: the first one is kept, and the digest of its text.
-/

namespace LateCache

def cached : String := "01a12290-0000-7000-8000-000000000011"

def saved : String := "01a12290-0000-7000-8000-000000000010"

def child : Record where
  id := "01a12290-0000-7000-8000-000000000001"
  machine := "01a12290-0000-7000-8000-00000000000a"
  seq := 1
  time := 1
  op := "save"
  states := [{ id := saved, kind := .commit, parents := [cached] }]

def cache : Record where
  id := "01a12290-0000-7000-8000-000000000002"
  machine := "01a12290-0000-7000-8000-00000000000b"
  seq := 1
  time := 2
  op := "cache"
  states := [{ id := cached, kind := .cache }]

theorem valid : ∀ r ∈ [child, cache], validate .silent r = .ok () := by decide +kernel

theorem cached_parent : ((fromRecords .silent "" [child, cache] "").toOption.map fun p =>
    (p.states[saved]?.map (·.state.parents), p.states[cached]?.map (·.state.kind))) =
      some (some [cached], some .cache) := by decide +kernel

def approval (bits : UInt64) : Record where
  id := "01a12290-0000-7000-8000-000000000003"
  machine := "01a12290-0000-7000-8000-00000000000a"
  seq := 2
  time := 3
  op := "approve"
  data := .obj [("state", .str saved), ("zero", .float bits)]

def codec : Codec :=
  { Codec.silent with jsonText := fun j => if j.idx "zero" = .float 0 then "0.0" else "-0.0" }

/-- The digest in the attestation is that of the approval that comes first. -/
theorem first_digest : (∀ r ∈ [approval 0, approval (2 ^ 63)], validate codec r = .ok ()) ∧
    [[approval 0, approval (2 ^ 63)], [approval (2 ^ 63), approval 0]].map (fun rs =>
      (fromRecords codec "" rs "").toOption.map fun p => p.attestations.map (·.2.payloadDigest)) =
        [some ["0.0"], some ["-0.0"]] := by decide +kernel

theorem lateCache_not_clean :
    (¬ ∀ (c : Codec) (id here : String) (rs : List Record), (∀ r ∈ rs, validate c r = .ok ()) →
      SetOnly c id here rs) ∧
    ¬ ∀ (c : Codec) (id here : String) (rs : List Record), (∀ r ∈ rs, validate c r = .ok ()) →
      ∀ p, fromRecords c id rs here = .ok p → Clean p := by
  constructor
  · intro h
    obtain ⟨hvalid, hdigests⟩ := first_digest
    have hsame : SameOutcome _ _ := h codec "" "" _ hvalid [approval (2 ^ 63), approval 0] fun r =>
      by simp [or_comm]
    rw [map_cons, map_cons, hsame] at hdigests
    exact absurd ((cons.inj hdigests).1.symm.trans (cons.inj (cons.inj hdigests).2).1) (by decide)
  · intro h
    obtain ⟨p, hp, heq⟩ := map_eq_some_iff.1 cached_parent
    obtain ⟨hparents, hkind⟩ := Prod.mk.inj heq
    have hclean := h .silent "" "" [child, cache] valid p (toOption_eq_some.1 hp)
    obtain ⟨v, hv, hvp⟩ := map_eq_some_iff.1 hparents
    obtain ⟨w, hw, hwk⟩ := map_eq_some_iff.1 hkind
    have hnot := hclean.parents saved v hv cached (by rw [hvp]; simp) w hw
    rw [hwk] at hnot
    exact absurd hnot (by decide)

end LateCache

end Project

end Layr
