import Layr.ProjectFold

/-!
# Lines in the read model

What the fold leaves of one line is a fold over the changes of that line (`fold_lines`). A record of
another machine leaves a line of this machine as it is, but for its own head (`shown_of_blocked`).
So this machine keeps a line from the record on in which it takes it until it gives it away itself.
It does not follow that a line of this machine was made here: a record of another machine that
brings a line which is not known yet may put it at any machine.
-/

namespace Layr

open List Option

/-- What a reader sees of a line, but for the heads per machine. -/
def LineView.shown (v : LineView) : Line × Bool := (v.line, v.deleted)

def LineState.line (j : String) (a : LineState) : Line :=
  ⟨j, a.name, a.head, a.owner, a.machine⟩

namespace Project

variable {c : Codec} {id here j : String} {p p' : Project} {r : Record} {rs o : List Record}

/-! ## One line -/

def viewAt (here j : String) (x : Option LineView) (r : Record) : Option LineView :=
  match r.lines[j]? with
  | none => x
  | some ch => some (lineViewStep here r x (j, ch))

variable {x : Option LineView}

theorem viewAt_none (h : r.lines[j]? = none) : viewAt here j x r = x := by
  rw [viewAt, h]

variable {ch : LineChange}

theorem viewAt_some (h : r.lines[j]? = some ch) :
    viewAt here j x r = some (lineViewStep here r x (j, ch)) := by
  rw [viewAt, h]

/-- A record changes the view of each line it has, once. -/
theorem getElem?_changeLines (r : Record) (lines : BTreeMap LineView) :
    (changeLines here r lines r.lines.toList)[j]? = viewAt here j lines[j]? r := by
  unfold changeLines viewAt
  rw [Maps.getElem?_foldl_toList (fun m e k h => Maps.getElem?_insert_ne h)
    (g := fun x e => some (lineViewStep here r x e)) fun m e => getElem?_insert_self]
  cases r.lines[j]? <;> rfl

theorem fold_machine (h : fold c id here o = .ok p) : p.machine = here :=
  fold_induction (P := fun _ p => p.machine = here) rfl
    (fun _ _ _ _ _ ih hd => (derived_of_derive hd).2.machine.trans ih) h

theorem fold_lines (h : fold c id here o = .ok p) (j : String) :
    p.lines[j]? = o.foldl (viewAt here j) none := by
  refine fold_induction (P := fun o p => p.lines[j]? = o.foldl (viewAt here j) none) ?_ ?_ h
  · exact getElem?_empty
  · intro o p r p' hp ih hd
    rw [(derived_of_derive hd).2.lines, fold_machine hp, getElem?_changeLines, ih, foldl_append]
    rfl

def Blocked (here : String) (x : Option LineView) (r : Record) : Prop :=
  r.machine ≠ here ∧ x.map (·.line.machine) = some here

/-- A record of another machine leaves a line of this machine as it is. -/
theorem shown_of_blocked (hb : Blocked here x r) :
    (viewAt here j x r).map LineView.shown = x.map LineView.shown := by
  obtain ⟨hforeign, hx⟩ := hb
  obtain ⟨v, rfl, hv⟩ := map_eq_some_iff.1 hx
  cases hch : r.lines[j]? with
  | none => rw [viewAt_none hch]
  | some ch =>
    rw [viewAt_some hch]
    cases hafter : ch.after <;> simp [lineViewStep, hafter, hforeign, hv, LineView.shown]

def lineBefore (j : String) (x : Option LineView) (r : Record) : Line :=
  (x.map (·.line)).getD ⟨j, "", "", 0, r.machine⟩

theorem shown_of_change (hb : ¬ Blocked here x r)
    (hch : r.lines[j]? = some ch) : (viewAt here j x r).map LineView.shown =
      some ((ch.after.map (·.line j)).getD (lineBefore j x r), ch.after.isNone) := by
  have hopen : (r.machine != here && (lineBefore j x r).machine == here) = false := by
    rw [Bool.eq_false_iff]
    intro h
    simp only [Bool.and_eq_true, bne_iff_ne, ne_eq, beq_iff_eq] at h
    cases x with
    | none => exact h.1 h.2
    | some v => exact hb ⟨h.1, congrArg some h.2⟩
  rw [viewAt_some hch, map_some]
  cases x with
  | none | some =>
    simp only [lineBefore, map_none, map_some, getD_none, getD_some] at hopen
    cases hafter : ch.after <;>
      simp [lineViewStep, hafter, hopen, LineView.shown, lineBefore, LineState.line]

def update (j : String) (r : Record) : Option LineState := r.lines[j]?.bind (·.after)

/-- The heads of a line: an update sets the head of the record's machine. -/
theorem heads_viewAt (x : Option LineView) (m : String) :
    (viewAt here j x r).bind (fun v => v.heads[m]?) =
      if r.machine = m then ((update j r).map (·.head)).or (x.bind fun v => v.heads[m]?)
      else x.bind fun v => v.heads[m]? := by
  have hstep : ∀ ch : LineChange, (lineViewStep here r x (j, ch)).heads =
      ch.after.elim ((x.map LineView.heads).getD ∅) fun a =>
        ((x.map LineView.heads).getD ∅).insert r.machine a.head := by
    intro ch
    cases x <;> cases hafter : ch.after <;> simp only [lineViewStep, hafter] <;> split <;> rfl
  have hheads : x.bind (fun v => v.heads[m]?) = ((x.map LineView.heads).getD ∅)[m]? := by
    cases x <;> simp
  rw [hheads]
  unfold update
  cases hch : r.lines[j]? with
  | none =>
    rw [viewAt_none hch, hheads]
    simp
  | some ch =>
    rw [viewAt_some hch, bind_some, hstep, bind_some]
    cases hafter : ch.after with
    | none => simp
    | some a =>
      simp only [map_some, some_or, elim_some]
      by_cases hm : r.machine = m
      · subst hm
        rw [if_pos rfl, getElem?_insert_self]
      · rw [if_neg hm, Maps.getElem?_insert_ne hm]

/-! ## Lines of this machine -/

def ownUpdate (here j : String) (r : Record) : Option LineState :=
  if r.machine = here then update j r else none

def lastOwn (here j : String) (o : List Record) : Option LineState :=
  (o.filterMap (ownUpdate here j)).getLast?

theorem lastOwn_append_singleton : lastOwn here j (o ++ [r]) =
    (ownUpdate here j r).or (lastOwn here j o) := by
  unfold lastOwn
  cases h : ownUpdate here j r <;> simp [h]

def machineOf (x : Option LineView) : Option String := x.map (·.line.machine)

theorem machineOf_congr {x y : Option LineView} (h : x.map LineView.shown = y.map LineView.shown) :
    machineOf x = machineOf y := by
  have hshown : ∀ z : Option LineView, machineOf z = (z.map LineView.shown).map (·.1.machine) :=
    fun z => by cases z <;> rfl
  rw [hshown, hshown, h]

def holderStep (here j : String) (x : Option String) (r : Record) : Option String :=
  match r.lines[j]? with
  | none => x
  | some ch =>
    if r.machine ≠ here ∧ x = some here then x
    else some ((ch.after.map (·.machine)).getD (x.getD r.machine))

theorem machineOf_viewAt (x : Option LineView) :
    machineOf (viewAt here j x r) = holderStep here j (machineOf x) r := by
  unfold holderStep
  cases hch : r.lines[j]? with
  | none => rw [viewAt_none hch]
  | some ch =>
    simp only
    split
    · next hb => exact machineOf_congr (shown_of_blocked hb)
    next hb =>
    obtain ⟨v, hv, hvs⟩ := map_eq_some_iff.1 (shown_of_change (x := x) hb hch)
    have hline : v.line = _ := congrArg Prod.fst hvs
    rw [hv, machineOf, map_some, hline]
    cases ch.after <;> cases x <;> rfl

/-- An update of this machine puts the line where it says. -/
theorem machineOf_ownUpdate {a : LineState} (h : ownUpdate here j r = some a) :
    machineOf (viewAt here j x r) = some a.machine := by
  obtain ⟨hm, h⟩ := ite_none_right_eq_some.1 h
  obtain ⟨ch, hch, ha⟩ := bind_eq_some_iff.1 h
  simp [machineOf_viewAt, holderStep, hch, ha, hm]

/-- A line stays at this machine while this machine does not update it. -/
theorem machineOf_stays (hx : machineOf x = some here)
    (h : ownUpdate here j r = none) : machineOf (viewAt here j x r) = some here := by
  rw [machineOf_viewAt, hx, holderStep]
  cases hch : r.lines[j]? with
  | none => rfl
  | some ch =>
    by_cases hm : r.machine = here
    · have hafter : ch.after = none := by simpa [ownUpdate, hm, update, hch] using h
      simp [hm, hafter]
    · simp [hm]

/-- A line is at this machine when the last update of this machine says so, whatever others do. -/
theorem machineOf_lastOwn {a : LineState} (ha : lastOwn here j o = some a) (hm : a.machine = here) :
    machineOf (o.foldl (viewAt here j) none) = some here := by
  induction o using List.reverseRecOn with
  | nil => cases ha
  | append_singleton o r ih =>
    rw [foldl_concat]
    rw [lastOwn_append_singleton] at ha
    cases hown : ownUpdate here j r with
    | none =>
      rw [hown, none_or] at ha
      exact machineOf_stays (ih ha) hown
    | some b =>
      rw [hown, some_or] at ha
      cases ha
      rw [machineOf_ownUpdate hown, hm]

/-- A record of this machine brought the line as it is: an update, or the delete of a line that was
not known. -/
def MadeBy (here j : String) (o : List Record) (line : Line) : Prop :=
  ∃ r ∈ o, r.machine = here ∧ ((update j r).map (·.line j) = some line ∨
    (line = ⟨j, "", "", 0, here⟩ ∧ ∃ ch, r.lines[j]? = some ch ∧ ch.after = none))

/-- This machine updates the line and keeps it. -/
def Takes (here j : String) (r : Record) : Prop :=
  ∃ a, ownUpdate here j r = some a ∧ a.machine = here

/-- This machine has the line: the last update it made of the line says so. -/
def Has (here j : String) (o : List Record) : Prop :=
  ∃ a, lastOwn here j o = some a ∧ a.machine = here

/-- What other machines may do to the lines that this machine has or had. -/
structure HandsOff (here : String) (o : List Record) : Prop where
  /-- Another machine puts a line here only when this machine has it already. -/
  brought : ∀ l s l', o = l ++ s :: l' → s.machine ≠ here → ∀ j a, update j s = some a →
    a.machine = here → Has here j l
  /-- Another machine changes a line that this machine took only while this machine has it. -/
  given : ∀ l s l', o = l ++ s :: l' → s.machine ≠ here → ∀ j, (s.lines[j]?).isSome = true →
    (∃ r ∈ l, Takes here j r) → Has here j l

theorem HandsOff.init (h : HandsOff here (o ++ [r])) : HandsOff here o where
  brought l s l' ho := h.brought l s (l' ++ [r]) (by simp [ho])
  given l s l' ho := h.given l s (l' ++ [r]) (by simp [ho])

/-- While others put no lines here, the lines of this machine are as a record of this machine
brought them. -/
theorem HandsOff.madeBy (h : HandsOff here o) {v : LineView}
    (hv : o.foldl (viewAt here j) none = some v) (hm : v.line.machine = here) :
    MadeBy here j o v.line := by
  induction o using List.reverseRecOn generalizing v with
  | nil => cases hv
  | append_singleton o r ih =>
    rw [foldl_concat] at hv
    have hinit : ∀ w, o.foldl (viewAt here j) none = some w → w.line = v.line →
        MadeBy here j (o ++ [r]) v.line := by
      intro w hw hline
      obtain ⟨s, hs, hmade⟩ := ih h.init hw (hline ▸ hm)
      exact ⟨s, mem_append_left _ hs, hline ▸ hmade⟩
    have hlast : r ∈ o ++ [r] := mem_append_right _ (mem_singleton_self _)
    by_cases hb : Blocked here (o.foldl (viewAt here j) none) r
    · have hshown := shown_of_blocked (j := j) hb
      rw [hv] at hshown
      obtain ⟨w, hw, hws⟩ := map_eq_some_iff.1 hshown.symm
      exact hinit w hw (congrArg Prod.fst hws)
    cases hch : r.lines[j]? with
    | none =>
      rw [viewAt_none hch] at hv
      exact hinit v hv rfl
    | some ch =>
      have hshown := shown_of_change hb hch
      rw [hv, map_some, some.injEq] at hshown
      have hline : v.line = (ch.after.map (·.line j)).getD
        (lineBefore j (o.foldl (viewAt here j) none) r) := congrArg Prod.fst hshown
      cases hafter : ch.after with
      | some a =>
        rw [hafter, map_some, getD_some] at hline
        have hupdate : update j r = some a := by simp [update, hch, hafter]
        refine ⟨r, hlast, ?_, .inl (by rw [hupdate, map_some, hline])⟩
        -- Another machine that puts the line here meets a line that is here already.
        by_contra hforeign
        rw [hline] at hm
        obtain ⟨b, hown, hbm⟩ := h.brought o r [] rfl hforeign j a hupdate hm
        exact hb ⟨hforeign, machineOf_lastOwn hown hbm⟩
      | none =>
        rw [hafter, map_none, getD_none] at hline
        cases hx : o.foldl (viewAt here j) none with
        | some w =>
          rw [hx] at hline
          exact hinit w hx hline.symm
        | none =>
          rw [hx] at hline
          rw [hline] at hm
          refine ⟨r, hlast, hm, .inr ⟨?_, ch, hch, hafter⟩⟩
          rw [hline, ← hm]
          rfl

/-! ## Settings of other machines -/

theorem settingKey_foreign (h : r.machine ≠ here) (key : String) :
    settingKey { id := "", machine := here } r key = key ++ "@" ++ r.machine := by
  unfold settingKey
  rw [if_pos (by simpa using h)]

/-- A record of another machine writes settings under its own name only. -/
theorem config_foreign (h : r.machine ≠ here) (config : BTreeMap Json) (k : String) :
    (stackStep here r (configStep here r config))[k]? = config[k]? ∨
      ∃ key, k = key ++ "@" ++ r.machine := by
  by_cases hk : ∃ key, k = key ++ "@" ++ r.machine
  · exact .inr hk
  have hne : ∀ key, settingKey { id := "", machine := here } r key ≠ k := by
    intro key heq
    exact hk ⟨key, by rw [← heq, settingKey_foreign h]⟩
  have hfold : ∀ (es : List (String × Json)) (m : BTreeMap Json), (es.foldl (fun m e =>
      m.insert (settingKey { id := "", machine := here } r e.1) e.2) m)[k]? = m[k]? := fun es m =>
    Maps.getElem?_insertAll_of_notMem (by simp [hne])
  have hconfig : (configStep here r config)[k]? = config[k]? := by
    unfold configStep
    split
    · exact hfold _ _
    · rfl
  refine .inl (Eq.trans ?_ hconfig)
  unfold stackStep
  split
  · rfl
  · split
    · rw [Maps.getElem?_insert_ne (hne _)]
    · rfl

/-! ## The law -/

/-- What this machine can rely on in a project that is made of some records. -/
structure OwnLines (c : Codec) (id here : String) (rs : List Record) : Prop where
  /-- A line of this machine was made by a record of this machine. -/
  made : ∀ p, fromRecords c id rs here = .ok p → ∀ (j : String) (v : LineView),
    p.lines[j]? = some v → v.line.machine = here → MadeBy here j rs v.line
  /-- Once a record of this machine took a line, no record of another machine changes what is shown
  of it. -/
  kept : ∀ l s l', foldOrder rs = l ++ s :: l' → s.machine ≠ here → ∀ p p',
    fold c id here l = .ok p → fold c id here (l ++ [s]) = .ok p' →
      ∀ j : String, (∃ r ∈ l, Takes here j r) →
      p'.lines[j]?.map LineView.shown = p.lines[j]?.map LineView.shown
  /-- Of a line of this machine, a record of another machine changes its own head only. -/
  foreign : ∀ l s l', foldOrder rs = l ++ s :: l' → s.machine ≠ here → ∀ p p',
    fold c id here l = .ok p → fold c id here (l ++ [s]) = .ok p' →
    (∀ (j : String) (v : LineView), p.lines[j]? = some v → v.line.machine = here →
      ∃ v' : LineView, p'.lines[j]? = some v' ∧ v'.shown = v.shown ∧
        ∀ m : String, m ≠ s.machine → v'.heads[m]? = v.heads[m]?) ∧
    ∀ k : String, p'.config[k]? = p.config[k]? ∨ ∃ key, k = key ++ "@" ++ s.machine

theorem fold_lines_append (h : fold c id here o = .ok p) (h' : fold c id here (o ++ [r]) = .ok p')
    (j : String) : p'.lines[j]? = viewAt here j p.lines[j]? r := by
  rw [fold_lines h', fold_lines h, foldl_append]
  rfl

theorem fold_config_append (h : fold c id here o = .ok p)
    (h' : fold c id here (o ++ [r]) = .ok p') :
    p'.config = stackStep here r (configStep here r p.config) := by
  obtain ⟨q, hq, hd⟩ := fold_append_singleton.1 h'
  cases h.symm.trans hq
  rw [(derived_of_derive hd).2.config, fold_machine h]

/-- While other machines keep their hands off, this machine can rely on its lines. -/
theorem ownLines_of_handsOff (h : HandsOff here (foldOrder rs)) : OwnLines c id here rs where
  made p hp j v hv hm := by
    obtain ⟨-, q, hq, rfl⟩ := fromRecords_eq_ok.1 hp
    obtain ⟨r, hr, hmade⟩ := h.madeBy ((fold_lines hq j).symm.trans hv) hm
    exact ⟨r, mem_of_mem_foldOrder hr, hmade⟩
  kept l s l' ho hs p p' hp hp' j htake := by
    rw [fold_lines_append hp hp']
    cases hch : s.lines[j]? with
    | none => rw [viewAt_none hch]
    | some ch =>
      obtain ⟨a, ha, hm⟩ := h.given l s l' ho hs j (by rw [hch]; rfl) htake
      refine shown_of_blocked ⟨hs, ?_⟩
      rw [fold_lines hp]
      exact machineOf_lastOwn ha hm
  foreign l s l' ho hs p p' hp hp' := by
    refine ⟨fun j v hv hm => ?_, fun k => ?_⟩
    · have hview := fold_lines_append hp hp' j
      have hb : Blocked here p.lines[j]? s := ⟨hs, by rw [hv, map_some, hm]⟩
      have hshown := shown_of_blocked (j := j) hb
      have hheads : ∀ m, (viewAt here j p.lines[j]? s).bind (fun v => v.heads[m]?) = _ :=
        heads_viewAt p.lines[j]?
      rw [← hview, hv] at hshown
      obtain ⟨v', hv', hvs⟩ := map_eq_some_iff.1 hshown
      refine ⟨v', hv', hvs, fun m hne => ?_⟩
      have hm' := hheads m
      rw [← hview, hv', hv, if_neg (Ne.symm hne)] at hm'
      exact hm'
    · rw [fold_config_append hp hp']
      exact config_foreign hs p.config k

/-! ## A line that another machine brings

Another machine records a line that is not known yet, and says that it is at this machine.
-/

namespace Brought

def machineA : String := "01a12290-0000-7000-8000-00000000000a"

def machineB : String := "01a12290-0000-7000-8000-00000000000b"

def main : String := "01a12290-0000-7000-8000-000000000010"

/-- A record that sets the line `main` and says that it is at machine A. -/
def setMain (id machine head : String) (time : Int) : Record where
  id := id
  machine := machine
  seq := 1
  time := time
  op := "line"
  lines := (∅ : BTreeMap LineChange).insert main
    ⟨none, some ⟨"main", head, 0, machineA⟩, none, none⟩

def brought : Record := setMain "01a12290-0000-7000-8000-000000000002" machineB
    "01a12290-0000-7000-8000-000000000021" 2

def own : Record := setMain "01a12290-0000-7000-8000-000000000001" machineA
    "01a12290-0000-7000-8000-000000000020" 1

theorem valid : ∀ r ∈ [own, brought], validate .silent r = .ok () := by decide +kernel

theorem brought_line : ((fromRecords .silent "" [brought] machineA).toOption.bind fun p =>
    p.lines[main]?).map (·.line.machine) = some machineA := by decide +kernel

theorem brought_not_ownLines : ¬ ∀ (c : Codec) (id here : String) (rs : List Record),
    (∀ r ∈ rs, validate c r = .ok ()) → OwnLines c id here rs := by
  intro h
  have hlaw := h .silent "" machineA [brought] fun r hr => valid r (mem_cons_of_mem _ hr)
  obtain ⟨v, hv, hm⟩ := map_eq_some_iff.1 brought_line
  obtain ⟨p, hp, hline⟩ := bind_eq_some_iff.1 hv
  obtain ⟨r, hr, hmachine, -⟩ := hlaw.made p (toOption_eq_some.1 hp) main v hline hm
  rw [mem_singleton.1 hr] at hmachine
  exact absurd hmachine (by decide)

theorem getElem?_setMain {id machine head j : String} {time : Int}
    (h : (setMain id machine head time).lines[j]? = some ch) : j = main := by
  by_contra hj
  have hget : (setMain id machine head time).lines[j]? = none := by
    unfold setMain
    rw [Maps.getElem?_insert_ne (Ne.symm hj), getElem?_empty]
  rw [hget] at h
  cases h

theorem has_main : Has machineA main [own] :=
  ⟨⟨"main", "01a12290-0000-7000-8000-000000000020", 0, machineA⟩, by decide +kernel, rfl⟩

/-- The other machine may change the line after this machine made it. -/
theorem handsOff : HandsOff machineA (foldOrder [own, brought]) := by
  have horder : foldOrder [own, brought] = [own, brought] := by decide +kernel
  have hforeign : ∀ l s l', [own, brought] = l ++ s :: l' → s.machine ≠ machineA →
      l = [own] ∧ s = brought := by
    intro l s l' hl hs
    rcases l with _ | ⟨a, _ | ⟨b, l⟩⟩
    · obtain ⟨rfl, -⟩ := List.cons.inj hl
      exact absurd rfl hs
    · obtain ⟨rfl, hrest⟩ := List.cons.inj hl
      exact ⟨rfl, (List.cons.inj hrest).1.symm⟩
    · simp at hl
  refine ⟨fun l s l' hl hs j a hupdate _ => ?_, fun l s l' hl hs j hsome _ => ?_⟩
  · obtain ⟨rfl, rfl⟩ := hforeign l s l' hl hs
    obtain ⟨ch, hch, -⟩ := bind_eq_some_iff.1 hupdate
    exact getElem?_setMain hch ▸ has_main
  · obtain ⟨rfl, rfl⟩ := hforeign l s l' hl hs
    obtain ⟨ch, hch⟩ := isSome_iff_exists.1 hsome
    exact getElem?_setMain hch ▸ has_main

theorem ownLines_of_brought_later : OwnLines .silent "" machineA [own, brought] :=
  ownLines_of_handsOff handsOff

end Brought

end Project

end Layr
