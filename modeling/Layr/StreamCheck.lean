import Layr.Stream

/-!
# What a checked stream can hold

The check reads the first attribute of each kind of a command (`Recv.get`). Another reader may take
another one: the map of `stream::parse` has the last. So what the check has seen is what a reader
finds (`check_ok`) exactly when each later attribute of a kind would have passed as well.
-/

namespace Layr

open List Option

namespace Recv

variable {e : Expect} {os : Os} {version : Nat} {st st' : State} {c first : Command}
  {rest : List Command} {src out out' : Bytes} {ats : List Attr} {k : Nat} {v : Bytes}

/-! ## The commands of a stream -/

def readCommands (version : Nat) (src : Bytes) : Option (List Command) :=
  if src.length < 10 then none
  else if (src.drop 10).length < le32 src then none
  else
    match attrs version ((src.drop 10).take (le32 src)) with
    | .error _ => none
    | .ok ats =>
      if le16 (src.drop 4) = endCmd then
        if ((src.drop 10).drop (le32 src)).isEmpty then some [⟨le16 (src.drop 4), ats⟩] else none
      else (readCommands version ((src.drop 10).drop (le32 src))).map
        (⟨le16 (src.drop 4), ats⟩ :: ·)
termination_by src.length
decreasing_by
  simp only [length_drop]
  omega

def readStream (src : Bytes) : Option (Nat × List Command) :=
  if src.length < 17 ∨ src.take 13 ≠ magic then none
  else (readCommands (le32 (src.drop 13)) (src.drop 17)).map fun cs => (le32 (src.drop 13), cs)

theorem readCommands_ne_nil : readCommands version src ≠ some [] := by
  intro h
  unfold readCommands at h
  split at h
  · cases h
  split at h
  · cases h
  split at h
  · cases h
  split at h
  · split at h <;> simp at h
  · simp at h

/-- A loop that succeeds has copied what it read, and every command has passed. -/
theorem checkLoop_ok {p : Option String} (h : checkLoop e os version st src out = (out', .ok p)) :
    out' = out ++ src ∧ ∃ cs, readCommands version src = some cs ∧
      ∃ st', cs.foldlM (checkCommand e os) st = .ok st' ∧ st'.parentPath = p := by
  induction hn : src.length using Nat.strongRecOn generalizing src st out with
  | ind n ih =>
    unfold checkLoop at h
    unfold readCommands
    by_cases hlen : src.length < 10
    · rw [if_pos hlen] at h
      cases h
    rw [if_neg hlen] at h ⊢
    by_cases hmax : maxCmd < le32 src
    · simp only [if_pos hmax] at h
      cases h
    by_cases hcode : le16 (src.drop 4) = 0 ∨ lastCmd < le16 (src.drop 4)
    · simp only [if_neg hmax, if_pos hcode] at h
      cases h
    by_cases hrest : (src.drop 10).length < le32 src
    · simp only [if_neg hmax, if_neg hcode, if_pos hrest] at h
      cases h
    simp only [if_neg hmax, if_neg hcode, if_neg hrest] at h ⊢
    have hsrc : src = src.take 10 ++
        ((src.drop 10).take (le32 src) ++ (src.drop 10).drop (le32 src)) := by
      rw [take_append_drop, take_append_drop]
    cases hattrs : attrs version ((src.drop 10).take (le32 src)) with
    | error m =>
      rw [hattrs] at h
      cases h
    | ok ats =>
      simp only [hattrs] at h ⊢
      cases hcmd : checkCommand e os st ⟨le16 (src.drop 4), ats⟩ with
      | error m =>
        rw [hcmd] at h
        cases h
      | ok st₁ =>
        simp only [hcmd] at h
        by_cases hend : le16 (src.drop 4) = endCmd
        · simp only [if_pos hend] at h ⊢
          by_cases hnil : ((src.drop 10).drop (le32 src)).isEmpty = true
          · rw [if_pos hnil] at h ⊢
            rw [List.isEmpty_iff.1 hnil, append_nil] at hsrc
            cases h
            refine ⟨?_, _, rfl, st₁, ?_, rfl⟩
            · rw [append_assoc, ← hsrc]
            · rw [foldlM_cons, hcmd]
              rfl
          · rw [if_neg hnil] at h
            cases h
        · simp only [if_neg hend] at h ⊢
          have hlt : ((src.drop 10).drop (le32 src)).length < n := by
            simp only [length_drop]
            omega
          obtain ⟨rfl, cs, hcs, st', hfold, hp⟩ := ih _ hlt h rfl
          refine ⟨?_, _, by rw [hcs]; rfl, st', ?_, hp⟩
          · rw [append_assoc, append_assoc, ← hsrc]
          · rw [foldlM_cons, hcmd]
            exact hfold

/-! ## Readers -/

/-- A reader of the attributes of a command: for each kind it takes one that is there, if there is
one. -/
def Reads (ats : List Attr) (f : Nat → Option Bytes) : Prop :=
  ∀ k, match f k with
    | some v => (k, v) ∈ ats
    | none => ∀ v, (k, v) ∉ ats

/-- `stream::parse` takes the last attribute of a kind, which is there. -/
theorem reads_streamGet (ats : List Attr) : Reads ats (Stream.get ats) := by
  intro k
  rw [Stream.get]
  cases hfind : ats.reverse.find? fun a => a.1 == k with
  | none => exact fun v hv => by simpa using find?_eq_none.1 hfind (k, v) (mem_reverse.2 hv)
  | some a =>
    obtain rfl : a.1 = k := by simpa using find?_some hfind
    exact mem_reverse.1 (mem_of_find?_eq_some hfind)

variable {body : Bytes}

/-- In a stream of version 1, `stream::parse` finds the same attributes as the check. -/
theorem streamAttrs_eq (h : attrs 1 body = .ok ats) : Stream.attrs body = ats := by
  induction hn : body.length using Nat.strongRecOn generalizing body ats with
  | ind n ih =>
    unfold attrs at h
    unfold Stream.attrs
    by_cases hnil : body.length = 0
    · rw [if_pos hnil] at h
      rw [if_pos (by omega)]
      exact Except.ok.inj h
    by_cases htwo : body.length < 2
    · rw [if_neg hnil, if_pos htwo] at h
      cases h
    by_cases hfour : body.length < 4
    · rw [if_neg hnil, if_neg htwo, if_neg (by omega), if_pos hfour] at h
      cases h
    by_cases hfit : body.length < 4 + le16 (body.drop 2)
    · rw [if_neg hnil, if_neg htwo, if_neg (by omega), if_neg hfour, if_pos hfit] at h
      cases h
    rw [if_neg hnil, if_neg htwo, if_neg (by omega), if_neg hfour, if_neg hfit, bind_eq_ok] at h
    obtain ⟨as, has, h⟩ := h
    cases h
    rw [if_neg hfour, if_neg hfit, ih _ (by rw [length_drop]; omega) has rfl]

/-- So `stream::parse` is a reader of what the check has seen. -/
theorem parse_reads (h : attrs 1 body = .ok ats) : Reads ats (Stream.get (Stream.attrs body)) := by
  rw [streamAttrs_eq h]
  exact reads_streamGet ats

theorem parse_reads_twice :
    Reads [(1, [7]), (1, [8])] (Stream.get (Stream.attrs [1, 0, 1, 0, 7, 1, 0, 1, 0, 8])) :=
  parse_reads (by decide +kernel)

def later (ats : List Attr) (k : Nat) : List Bytes :=
  ((ats.filter fun a => a.1 == k).map (·.2)).tail

theorem get_eq_head? (ats : List Attr) (k : Nat) :
    get ats k = ((ats.filter fun a => a.1 == k).map (·.2)).head? := by
  rw [get, ← head?_filter, head?_map]

theorem mem_attrs_iff : (k, v) ∈ ats ↔ get ats k = some v ∨ v ∈ later ats k := by
  have hmem : (k, v) ∈ ats ↔ v ∈ (ats.filter fun a => a.1 == k).map (·.2) := by simp
  rw [hmem, get_eq_head?, later]
  cases (ats.filter fun a => a.1 == k).map (·.2) with
  | nil => simp
  | cons x xs => simp [eq_comm]

/-! ## What a command has to be -/

/-- The new subvolume, as a reader of its command sees it. -/
def subvolOf (f : Nat → Option Bytes) : Source := ((f aUuid).getD [], (f aCtransid).getD [])

/-- The source of a clone or of a snapshot, as a reader sees it. -/
def sourceOf (f : Nat → Option Bytes) : Source :=
  ((f aCloneUuid).getD [], (f aCloneCtransid).getD [])

def ParentOk (e : Expect) (s : Source) : Prop :=
  ∃ t path, uuidText s.1 = .ok t ∧ e.parent t = some path

def CloneOk (e : Expect) (s : Source) : Prop :=
  ∃ u t, uuidText s.1 = .ok u ∧ transid s.2 = .ok t ∧ ∃ c ∈ e.clones, isClone u t c = true

/-- A clone comes from the new subvolume, its parent or an extra source, as a reader `f₀` of the
first command and a reader `f` of the clone command see them. -/
def Allowed (e : Expect) (first : Command) (f₀ f : Nat → Option Bytes) : Prop :=
  sourceOf f = subvolOf f₀ ∨
  (first.code = snapshot ∧ sourceOf f = sourceOf f₀ ∧ ParentOk e (sourceOf f)) ∨
  CloneOk e (sourceOf f)

/-- The attributes that are paths in every command. -/
def pathAttrs : List Nat := [aPath, aPathTo, aClonePath]

def Command.isSubvol (c : Command) : Prop := c.code = subvol ∨ c.code = snapshot

theorem forM_path_ok (h : forM [aPath, aPathTo, aClonePath] (fun k =>
    match get ats k with
    | some p => checkPath os p
    | none => .ok ()) = (.ok () : Except String Unit)) :
    ∀ k ∈ pathAttrs, ∀ p, get ats k = some p → safePath p = true := by
  intro k hk p hp
  have hcheck := forM_eq_ok.1 h k hk
  rw [hp] at hcheck
  exact ensure_eq_ok.1 hcheck

theorem checkSubvol_ok {code : Nat} (h : checkSubvol e st code ats = .ok st') :
    st.own = none ∧ get ats aPath = some e.name.toUTF8.toList ∧
    (∃ u, get ats aUuid = some u ∧ uuidText u = .ok e.uuid) ∧ st'.own = some (subvolOf (get ats)) ∧
    (st'.parent = st.parent ∨
      (code = snapshot ∧ st'.parent = some (sourceOf (get ats)) ∧
        ParentOk e (sourceOf (get ats)))) := by
  unfold checkSubvol at h
  simp only [bind_eq_ok, exists_const, ensure_eq_ok, context_eq_ok, Option.isNone_iff_eq_none,
    beq_iff_eq] at h
  obtain ⟨hown, hname, u, hu, t, htext, rfl, h⟩ := h
  have hsub : (u, (get ats aCtransid).getD []) = subvolOf (get ats) :=
    by rw [subvolOf, hu, Option.getD_some]
  rw [hsub] at h
  refine ⟨hown, hname, ⟨u, hu, htext⟩, ?_⟩
  by_cases hcode : code = snapshot
  · rw [if_pos hcode] at h
    simp only [bind_eq_ok, context_eq_ok, pure_eq_ok] at h
    obtain ⟨pu, hpu, t, ht, path, hpath, rfl⟩ := h
    have hsource : (pu, (get ats aCloneCtransid).getD []) = sourceOf (get ats) := by
      rw [sourceOf, hpu, Option.getD_some]
    refine ⟨rfl, .inr ⟨hcode, by rw [hsource], t, path, ?_, hpath⟩⟩
    rw [← hsource]
    exact ht
  · rw [if_neg hcode, pure_eq_ok] at h
    subst h
    exact ⟨rfl, .inl rfl⟩

theorem checkClone_ok (h : checkClone e os st ats = .ok ()) :
    some (sourceOf (get ats)) = st.own ∨ some (sourceOf (get ats)) = st.parent ∨
      CloneOk e (sourceOf (get ats)) := by
  unfold checkClone at h
  by_cases hown : some (sourceOf (get ats)) = st.own
  · exact .inl hown
  by_cases hparent : some (sourceOf (get ats)) = st.parent
  · exact .inr (.inl hparent)
  rw [if_pos ⟨hown, hparent⟩] at h
  simp only [bind_eq_ok, context_eq_ok] at h
  obtain ⟨u, hu, t, ht, c, hc, -⟩ := h
  exact .inr (.inr ⟨u, t, hu, ht, c, mem_of_find?_eq_some hc, find?_some hc⟩)

/-- What the check has seen of a stream that passes: the property of the first attributes. -/
structure Seen (e : Expect) (first : Command) (rest : List Command) : Prop where
  subvol : first.isSubvol
  others : ∀ c ∈ rest, ¬c.isSubvol
  paths : ∀ c ∈ first :: rest, ∀ k ∈ pathAttrs, ∀ p, get c.attrs k = some p → safePath p = true
  links : ∀ c ∈ rest, c.code = link → ∀ p, get c.attrs aPathLink = some p → safePath p = true
  name : get first.attrs aPath = some e.name.toUTF8.toList
  uuid : ∃ u, get first.attrs aUuid = some u ∧ uuidText u = .ok e.uuid
  clones : ∀ c ∈ rest, c.code = clone → Allowed e first (get first.attrs) (get c.attrs)

/-- A later command: the state stays. -/
theorem checkCommand_rest (hown : st.own.isSome = true) (h : checkCommand e os st c = .ok st') :
    st' = st ∧ ¬c.isSubvol ∧ (∀ k ∈ pathAttrs, ∀ p, get c.attrs k = some p → safePath p = true) ∧
    (c.code = link → ∀ p, get c.attrs aPathLink = some p → safePath p = true) ∧
    (c.code = clone → some (sourceOf (get c.attrs)) = st.own ∨
      some (sourceOf (get c.attrs)) = st.parent ∨ CloneOk e (sourceOf (get c.attrs))) := by
  unfold checkCommand at h
  rw [bind_eq_ok, exists_unit_eq_ok] at h
  obtain ⟨hpaths, h⟩ := h
  by_cases hsub : c.code = subvol ∨ c.code = snapshot
  · rw [if_pos hsub] at h
    rw [(checkSubvol_ok h).1] at hown
    cases hown
  rw [if_neg hsub] at h
  simp only [bind_eq_ok, ensure_eq_ok, exists_const] at h
  have hne : clone ≠ link := by decide
  by_cases hlink : c.code = link
  · rw [if_pos hlink, bind_eq_ok, exists_unit_eq_ok, pure_eq_ok] at h
    refine ⟨h.2.2.symm, hsub, forM_path_ok hpaths, fun _ p hp => ?_, fun hclone => ?_⟩
    · have hcheck := ensure_eq_ok.1 h.2.1
      rwa [hp] at hcheck
    · exact absurd (hclone.symm.trans hlink) hne
  rw [if_neg hlink] at h
  by_cases hclone : c.code = clone
  · rw [if_pos hclone, bind_eq_ok, exists_unit_eq_ok, pure_eq_ok] at h
    exact ⟨h.2.2.symm, hsub, forM_path_ok hpaths, fun h => absurd h hlink,
      fun _ => checkClone_ok h.2.1⟩
  · rw [if_neg hclone, bind_eq_ok, exists_unit_eq_ok, pure_eq_ok] at h
    exact ⟨h.2.2.symm, hsub, forM_path_ok hpaths, fun h => absurd h hlink, fun h => absurd h hclone⟩

/-- The first command: a subvolume with the expected name and UUID. -/
theorem checkCommand_first (h : checkCommand e os ⟨none, none, none⟩ c = .ok st') :
    c.isSubvol ∧ (∀ k ∈ pathAttrs, ∀ p, get c.attrs k = some p → safePath p = true) ∧
    get c.attrs aPath = some e.name.toUTF8.toList ∧
    (∃ u, get c.attrs aUuid = some u ∧ uuidText u = .ok e.uuid) ∧
      st'.own = some (subvolOf (get c.attrs)) ∧
    (st'.parent = none ∨ (c.code = snapshot ∧ st'.parent = some (sourceOf (get c.attrs)) ∧
      ParentOk e (sourceOf (get c.attrs)))) := by
  unfold checkCommand at h
  rw [bind_eq_ok, exists_unit_eq_ok] at h
  obtain ⟨hpaths, h⟩ := h
  by_cases hsub : c.code = subvol ∨ c.code = snapshot
  · rw [if_pos hsub] at h
    exact ⟨hsub, forM_path_ok hpaths, (checkSubvol_ok h).2⟩
  · rw [if_neg hsub, bind_eq_ok] at h
    obtain ⟨u, hu, -⟩ := h
    cases ensure_eq_ok.1 hu

/-- The commands that pass, one by one from the first. -/
theorem seen_of_foldlM
    (h : (first :: rest).foldlM (checkCommand e os) ⟨none, none, none⟩ = .ok st') :
    Seen e first rest := by
  rw [foldlM_cons, bind_eq_ok] at h
  obtain ⟨st₁, hfirst, h⟩ := h
  obtain ⟨hsub, hpaths, hname, huuid, hown, hparent⟩ := checkCommand_first hfirst
  have hsome : st₁.own.isSome = true := by rw [hown]; rfl
  -- The state is the one after the first command all along.
  have hrest : ∀ c ∈ rest, ∃ st', checkCommand e os st₁ c = .ok st' := by
    induction rest with
    | nil => simp
    | cons c rest ih =>
      rw [foldlM_cons, bind_eq_ok] at h
      obtain ⟨st₂, hc, h⟩ := h
      obtain rfl := (checkCommand_rest hsome hc).1
      exact forall_mem_cons.2 ⟨⟨_, hc⟩, ih h⟩
  refine ⟨hsub, fun c hc => ?_, fun c hc => ?_, fun c hc => ?_, hname, huuid, fun c hc hclone => ?_⟩
  · obtain ⟨st₂, hst⟩ := hrest c hc
    exact (checkCommand_rest hsome hst).2.1
  · rcases mem_cons.1 hc with rfl | hc
    · exact hpaths
    · obtain ⟨st₂, hst⟩ := hrest c hc
      exact (checkCommand_rest hsome hst).2.2.1
  · obtain ⟨st₂, hst⟩ := hrest c hc
    exact (checkCommand_rest hsome hst).2.2.2.1
  · obtain ⟨st₂, hst⟩ := hrest c hc
    rcases (checkCommand_rest hsome hst).2.2.2.2 hclone with hs | hs | hs
    · exact .inl (some.inj (hs.trans hown))
    · rcases hparent with hnone | ⟨hcode, hp, hok⟩
      · rw [hnone] at hs
        cases hs
      · have heq := some.inj (hs.trans hp)
        exact .inr (.inl ⟨hcode, heq, heq ▸ hok⟩)
    · exact .inr (.inr hs)

/-! ## What every reader finds -/

/-- What a checked stream should be, whichever attribute of a kind its reader takes: every path
stays inside, so does the target of every link, the first command is the one subvolume and names
nothing but what is expected, and clones come from allowed sources only. -/
structure Good (e : Expect) (first : Command) (rest : List Command) : Prop where
  subvol : first.isSubvol
  others : ∀ c ∈ rest, ¬c.isSubvol
  paths : ∀ c ∈ first :: rest, ∀ k ∈ pathAttrs, ∀ p, (k, p) ∈ c.attrs → safePath p = true
  links : ∀ c ∈ rest, c.code = link → ∀ p, (aPathLink, p) ∈ c.attrs → safePath p = true
  name : ∀ p, (aPath, p) ∈ first.attrs ↔ p = e.name.toUTF8.toList
  uuid : (∃ u, (aUuid, u) ∈ first.attrs) ∧ ∀ u, (aUuid, u) ∈ first.attrs → uuidText u = .ok e.uuid
  clones : ∀ c ∈ rest, c.code = clone → ∀ f₀ f, Reads first.attrs f₀ → Reads c.attrs f →
    Allowed e first f₀ f

/-- Every attribute after the first of its kind passes as well. -/
structure LaterOk (e : Expect) (first : Command) (rest : List Command) : Prop where
  paths : ∀ c ∈ first :: rest, ∀ k ∈ pathAttrs, ∀ p ∈ later c.attrs k, safePath p = true
  links : ∀ c ∈ rest, c.code = link → ∀ p ∈ later c.attrs aPathLink, safePath p = true
  name : ∀ p ∈ later first.attrs aPath, p = e.name.toUTF8.toList
  uuid : ∀ u ∈ later first.attrs aUuid, uuidText u = .ok e.uuid
  clones : ∀ c ∈ rest, c.code = clone → ∀ f₀ f, Reads first.attrs f₀ → Reads c.attrs f →
    ¬(f₀ = get first.attrs ∧ f = get c.attrs) → Allowed e first f₀ f

theorem good_iff (h : Seen e first rest) : Good e first rest ↔ LaterOk e first rest := by
  constructor
  · intro hg
    exact ⟨fun c hc k hk p hp => hg.paths c hc k hk p (mem_attrs_iff.2 (.inr hp)),
      fun c hc hl p hp => hg.links c hc hl p (mem_attrs_iff.2 (.inr hp)),
      fun p hp => (hg.name p).1 (mem_attrs_iff.2 (.inr hp)),
      fun u hu => hg.uuid.2 u (mem_attrs_iff.2 (.inr hu)),
      fun c hc hcl f₀ f hf₀ hf _ => hg.clones c hc hcl f₀ f hf₀ hf⟩
  · intro hl
    refine ⟨h.subvol, h.others, fun c hc k hk p hp => ?_, fun c hc hcode p hp => ?_,
      fun p => ?_, ?_, fun c hc hcl f₀ f hf₀ hf => ?_⟩
    · exact (mem_attrs_iff.1 hp).elim (h.paths c hc k hk p) (hl.paths c hc k hk p)
    · exact (mem_attrs_iff.1 hp).elim (h.links c hc hcode p) (hl.links c hc hcode p)
    · rw [mem_attrs_iff]
      refine ⟨fun hp => hp.elim (fun hp => ?_) (hl.name p), fun hp => .inl (hp ▸ h.name)⟩
      exact some.inj (hp.symm.trans h.name)
    · obtain ⟨u, hu, htext⟩ := h.uuid
      refine ⟨⟨u, mem_attrs_iff.2 (.inl hu)⟩, fun v hv => (mem_attrs_iff.1 hv).elim (fun hv => ?_)
        (hl.uuid v)⟩
      rwa [← some.inj (hu.symm.trans hv)]
    · by_cases hboth : f₀ = get first.attrs ∧ f = get c.attrs
      · rw [hboth.1, hboth.2]
        exact h.clones c hc hcl
      · exact hl.clones c hc hcl f₀ f hf₀ hf hboth

/-- A stream that passes is copied as it is, and has one subvolume, in its first command. It is what
it should be for every reader exactly when each later attribute of a kind passes as well. -/
theorem check_ok {p : Option String} (h : check e os src = (out, .ok p)) :
    out = src ∧ ∃ version first rest, readStream src = some (version, first :: rest) ∧
      Seen e first rest ∧ (Good e first rest ↔ LaterOk e first rest) := by
  unfold check at h
  by_cases hlen : src.length < 17
  · rw [if_pos hlen] at h
    cases h
  by_cases hmagic : src.take 13 ≠ magic
  · rw [if_neg hlen, if_pos hmagic] at h
    cases h
  simp only [if_neg hlen, if_neg hmagic] at h
  by_cases hversion : le32 (src.drop 13) < 1 ∨ 3 < le32 (src.drop 13)
  · rw [if_pos hversion] at h
    cases h
  rw [if_neg hversion] at h
  obtain ⟨rfl, cs, hcs, st', hfold, -⟩ := checkLoop_ok h
  refine ⟨take_append_drop 17 src, le32 (src.drop 13), ?_⟩
  have hread : readStream src = some (le32 (src.drop 13), cs) := by
    rw [readStream, if_neg (by simp [hlen, hmagic]), hcs, Option.map_some]
  cases cs with
  | nil => exact absurd hcs readCommands_ne_nil
  | cons first rest =>
    have hseen := seen_of_foldlM hfold
    exact ⟨first, rest, hread, hseen, good_iff hseen⟩

namespace Repeated

/-- A command with its header. The checksum is not looked at. -/
def command (code : UInt8) (ats : List (UInt8 × Bytes)) : Bytes :=
  let body := ats.flatMap fun a => [a.1, 0, a.2.length.toUInt8, 0] ++ a.2
  [body.length.toUInt8, 0, 0, 0, code, 0, 0, 0, 0, 0] ++ body

def ofUuid : Bytes := List.replicate 16 1

def expect : Expect where
  name := "s"
  uuid := "01010101-0101-0101-0101-010101010101"
  parent := fun _ => none
  clones := []

def anyOs : Os where
  symlinkMetadata := fun _ _ => .error "not found"
  debug := fun _ => ""

/-- A new subvolume, and a new file with two paths: `a` and `..`. -/
def stream : Bytes :=
  magic ++ [1, 0, 0, 0] ++ command 1 [(15, [115]), (1, ofUuid)] ++
    command 3 [(15, [97]), (15, [46, 46])] ++ command 21 []

def newSubvol : Command := ⟨1, [(15, [115]), (1, ofUuid)]⟩

def newFile : Command := ⟨3, [(15, [97]), (15, [46, 46])]⟩

theorem check_stream : check expect anyOs stream = (stream, .ok none) := by
  refine Prod.ext (by decide +kernel) (toOption_eq_some.1 ?_)
  decide +kernel

/-- The stream passes, but one of the paths leaves the subvolume, and `stream::parse` takes that
one. -/
theorem repeated_not_good : check expect anyOs stream = (stream, .ok none) ∧
    readStream stream = some (1, newSubvol :: [newFile, ⟨21, []⟩]) ∧
    ¬Good expect newSubvol [newFile, ⟨21, []⟩] ∧
      Stream.get newFile.attrs aPath = some [46, 46] := by
  refine ⟨check_stream, by decide +kernel, fun h => ?_, by decide⟩
  have hpath := h.paths newFile (by simp) aPath (by decide) [46, 46] (by decide)
  exact absurd hpath (by decide)

end Repeated

/-- The stream with a path twice is not good, so a later attribute of it does not pass. -/
theorem check_ok_repeated : ∃ version first rest,
    readStream Repeated.stream = some (version, first :: rest) ∧ Seen Repeated.expect first rest ∧
    (Good Repeated.expect first rest ↔ LaterOk Repeated.expect first rest) :=
  (check_ok Repeated.check_stream).2

end Recv

end Layr
