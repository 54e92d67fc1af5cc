import Layr.Format
import Layr.Push

/-!
# What holds of the machines that push

An invariant of a store says something of the chains of frames that a machine knows, of the parts
that its journal has, and of the trees in its index. Such facts (`Facts`) hold of a machine in all
of its phases (`MachineOk`). Here it is shown for all steps but those of an upload, from what the
facts have to say about the trees and parts of the store (`Facts.Sound`).
-/

namespace Layr

namespace Push

open Format Maps List Option

/-! ## Known contents -/

/-- What holds of the chains in `entries`, of those in `tentative` with their times, and of the
entries of the pending parts. The chains in `dirty` are some of those in `entries`. -/
structure ContentHashes.Holds (P : String → List Link → Prop) (T : String → List Link → Int → Prop)
    (R : String → Entry → Prop) (h : ContentHashes) : Prop where
  entries : Every P h.entries
  dirty : Every (fun sha chain => h.entries[sha]? = some chain) h.dirty
  tentative : Every (fun sha v => T sha v.1 v.2) h.tentative
  pending : Every (fun object es => ∀ e ∈ es, R object e) h.pending

namespace ContentHashes.Holds

variable {P P' : String → List Link → Prop} {T T' : String → List Link → Int → Prop}
  {R R' : String → Entry → Prop} {h : ContentHashes} {sha object : String} {chain : List Link}
  {t : Tree}

section

variable (hh : h.Holds P T R)
include hh

theorem imp (hP : ∀ sha chain, P sha chain → P' sha chain)
    (hT : ∀ sha chain m, T sha chain m → T' sha chain m)
    (hR : ∀ object e, R object e → R' object e) :
    h.Holds P' T' R' where
  entries := hh.entries.imp hP
  dirty := hh.dirty
  tentative := hh.tentative.imp fun _ _ => hT _ _ _
  pending := hh.pending.imp fun _ _ hes e he => hR _ _ (hes e he)

theorem insert (hchain : P sha chain) : (h.insert sha chain).Holds P T R where
  entries := hh.entries.insert hchain
  dirty := by
    intro k c hk
    by_cases heq : sha = k
    · subst heq
      rwa [ContentHashes.insert, getElem?_insert_self] at hk ⊢
    · rw [ContentHashes.insert, getElem?_insert_ne heq] at hk ⊢
      exact hh.dirty k c hk
  __ := hh

theorem seed (hchain : P sha chain) : (h.seed sha chain).Holds P T R := by
  unfold ContentHashes.seed
  split
  · exact hh
  · exact hh.insert hchain

theorem seedTree (ht : Every (fun _ e => P e.sha e.chain) t.files) :
    (h.seedTree t).Holds P T R := by
  refine List.foldlRecOn _ _ hh fun h hh e he => hh.seed ?_
  exact ht e.1 e.2 (mem_toList_iff_getElem?_eq_some.1 he)

theorem pendingPart {es : List Entry} {m : Int} (hR : ∀ e ∈ es, R object e)
    (hT : ∀ e ∈ es, T e.sha e.chain m) : (h.pendingPart object m es).Holds P T R where
  __ := hh
  tentative := Every.foldl (fun t e he ht => by
    split
    · exact ht
    · exact ht.insert (hT e he)) hh.tentative
  pending := hh.pending.insert hR

theorem protectEntry {e : Entry} (he : P e.sha e.chain) : (h.protectEntry e).Holds P T R :=
  Holds.seed { hh with tentative := hh.tentative.erase } he

/-- The entries of a part that is published are known from then on. -/
theorem protectPart (hobject : ∀ e, R object e → P e.sha e.chain) :
    (h.protectPart object).Holds P T R := by
  have hes : ∀ e ∈ h.pending[object]?.getD [], P e.sha e.chain := fun e he => by
    cases hp : h.pending[object]? with
    | none =>
      rw [hp] at he
      cases he
    | some es =>
      rw [hp] at he
      exact hobject e (hh.pending object es hp e he)
  refine List.foldlRecOn _ _ ?_ fun h hh e he => hh.protectEntry (hes e he)
  exact { hh with pending := hh.pending.erase }

/-- The parts that a tree refers to are no longer tentative. -/
theorem protect (ht : ∀ object ∈ objects t, ∀ e, R object e → P e.sha e.chain) :
    (h.protect t).Holds P T R := by
  refine List.foldlRecOn _ _ hh fun h' hh' object ho => hh'.protectPart (ht object ?_)
  rw [referredParts, mem_filter] at ho
  exact contains_iff_mem.1 ho.2

theorem clearDirty : ({ h with dirty := ∅ } : ContentHashes).Holds P T R :=
  { hh with dirty := Every.empty }

theorem dirty_holds : Every P h.dirty :=
  hh.dirty.imp fun _ _ hk => hh.entries _ _ hk

end

end ContentHashes.Holds

/-! ## The journal -/

structure Rows.Holds (P : String → List Link → Prop) (R : String → Entry → Prop)
    (C : String → String × Nat → Prop) (r : Rows) : Prop where
  hashes : Every P r.hashes
  pending : Every (fun object row => ∀ e ∈ row.entries, R object e) r.pending
  completed : Every C r.completed

/-- It holds of the rows that the push sees, and of those that a crash leaves. -/
structure Journal.Holds (P : String → List Link → Prop) (R : String → Entry → Prop)
    (C : String → String × Nat → Prop) (j : Journal) : Prop where
  rows : j.rows.Holds P R C
  committed : j.committed.Holds P R C

variable {attempt state : String} {depth : Nat}

namespace Journal.Holds

variable {P P' : String → List Link → Prop} {R R' : String → Entry → Prop}
  {C C' : String → String × Nat → Prop} {j : Journal}

theorem empty : Journal.Holds P R C {} :=
  ⟨⟨.empty, .empty, .empty⟩, ⟨.empty, .empty, .empty⟩⟩

section

variable (hj : j.Holds P R C)
include hj

theorem imp (hP : ∀ sha chain, P sha chain → P' sha chain)
    (hR : ∀ object e, R object e → R' object e) (hC : ∀ id d, C id d → C' id d) :
    j.Holds P' R' C' := by
  have himp : ∀ r : Rows, r.Holds P R C → r.Holds P' R' C' := fun r hr =>
    ⟨hr.hashes.imp hP, hr.pending.imp fun _ _ hes e he => hR _ _ (hes e he), hr.completed.imp hC⟩
  exact ⟨himp _ hj.rows, himp _ hj.committed⟩

theorem rollback : j.rollback.Holds P R C := ⟨hj.committed, hj.committed⟩

/-- Each state of the rows that a transaction leaves, committed or not, is one that it was applied
to. -/
theorem transaction (state commit : Bool) {apply : Rows → Rows}
    (happly : ∀ r : Rows, r.Holds P R C → (apply r).Holds P R C) :
    (j.transaction state commit apply).Holds P R C := by
  unfold Journal.transaction
  dsimp only
  split
  · exact ⟨happly _ hj.rows, happly _ hj.rows⟩
  · exact ⟨happly _ hj.rows, hj.committed⟩

theorem preparePart {part : Nat} {entries : List Entry}
    (hR : ∀ e ∈ entries, R (dataName state attempt (.ofNat part)) e) :
    (j.preparePart state attempt part entries).Holds P R C :=
  hj.transaction _ _ fun _ hr => { hr with pending := hr.pending.insert hR }

theorem validatePart (object : String) (modified : Int) :
    (j.validatePart object modified).Holds P R C := by
  refine hj.transaction _ _ fun r hr => ?_
  cases hrow : r.pending[object]? with
  | none => exact hr
  | some row =>
    exact { hr with
      pending := hr.pending.insert (v := { row with modified := some modified })
        (hr.pending object row hrow) }

theorem discardPart (object : String) : (j.discardPart object).Holds P R C :=
  hj.transaction _ _ fun _ hr => { hr with pending := hr.pending.erase }

theorem checkpoint {hashes : BTreeMap (List Link)} (referred : List String)
    (hhashes : Every P hashes) (hC : C state (attempt, depth)) :
    (j.checkpoint state attempt depth hashes referred).Holds P R C := by
  refine hj.transaction _ _ fun r hr => ⟨?_, ?_, hr.completed.insert hC⟩
  · refine Every.foldl (fun m e he hm => hm.insertIfNew ?_) hr.hashes
    exact hhashes e.1 e.2 (mem_toList_iff_getElem?_eq_some.1 he)
  · exact Every.foldl (fun _ _ _ hm => hm.erase) hr.pending.filter

end

end Journal.Holds

/-! ## Machines -/

structure Facts where
  /-- A chain that is known for a hash. -/
  chain : String → List Link → Prop
  /-- A chain of an unpublished part that was uploaded at a time. -/
  tentative : String → List Link → Int → Prop
  /-- An entry of a part in the journal. -/
  row : String → Entry → Prop
  /-- An entry of an unpublished part that was read again. -/
  part : String → Entry → Prop
  /-- A state that the journal says is published. -/
  completed : String → String × Nat → Prop
  /-- A state in the index. -/
  cached : String → Cached → Prop
  upload : Session → Upload → List (String × Meta) → Prop
  checked : Session → Upload → Int → Prop
  published : Session → Upload → Prop

/-- A published state as it is in the index. -/
def Pushed.cached (p : Pushed) : Cached := ⟨p.attempt, p.depth, some p.tree⟩

variable (F : Facts)

def Facts.Hashes (h : ContentHashes) : Prop := h.Holds F.chain F.tentative F.part

structure SessionOk (s : Session) : Prop where
  hashes : F.Hashes s.hashes
  index : Every F.cached s.index
  base : ∀ b, s.base = some b → F.cached b.1 b.2.cached

def PhaseOk : Phase → Prop
  | .idle => True
  | .opening s _ _ => SessionOk F s
  | .seeding s pending _ => SessionOk F s ∧ ∀ e ∈ pending, ∀ entry ∈ e.2.entries, F.row e.1 entry
  | .ready s => SessionOk F s
  | .uploading s u todo => F.upload s u todo
  | .putting s u todo => F.upload s u todo
  | .checked s u time => F.checked s u time
  | .published s u => F.published s u

structure MachineOk (m : Machine) : Prop where
  journal : ∀ j, m.journal = some j → j.Holds F.chain F.row F.completed
  saved : Every F.cached m.saved
  phase : PhaseOk F m.phase

structure Facts.Sound (env : Env) (w : World) : Prop where
  /-- The frames of a tree are known. -/
  files : ∀ id c t, F.cached id c → c.tree = some t →
    Every (fun _ (e : Entry) => F.chain e.sha e.chain) t.files
  /-- The frames of a part that a tree refers to are known. -/
  referred : ∀ id c t, F.cached id c → c.tree = some t →
    ∀ object ∈ objects t, ∀ e, F.part object e → F.chain e.sha e.chain
  /-- A part of an earlier attempt can be read. -/
  valid : ∀ object o (es : List Entry), w.parts[object]? = some o → (∀ e ∈ es, F.row object e) →
    (∀ e ∈ es, (read env w.parts e).isSome = true) →
    ∀ e ∈ es, F.tentative e.sha e.chain o.modified ∧ F.part object e
  /-- A tree of the store is published. -/
  tree : ∀ id c p depth, F.cached id c → w.trees[treeName id c.attempt]? = some p →
    treeDepth w.trees fullTreeEvery (id, c.attempt) = some depth →
    F.cached id ⟨c.attempt, depth, some p.tree⟩ ∧ F.completed id (c.attempt, depth)
  listed : ∀ id attempt, w.complete id = some attempt →
    F.cached id ⟨attempt, fullTreeEvery - 1, none⟩
  depth : ∀ id c depth, F.cached id c →
    treeDepth w.trees fullTreeEvery (id, c.attempt) = some depth →
      F.cached id { c with depth := depth }
  completed : ∀ id attempt depth c, F.completed id (attempt, depth) →
    (∀ t, c = some t → ∃ d, F.cached id ⟨attempt, d, some t⟩) → F.cached id ⟨attempt, depth, c⟩

variable {F} {env : Env} {repo : Repo} {w : World} {m m' : Machine} {s : Session}

section

variable (hm : MachineOk F m)
include hm

theorem MachineOk.rows : m.rows.Holds F.chain F.row F.completed := by
  unfold Machine.rows
  cases hj : m.journal with
  | none => exact Journal.Holds.empty.rows
  | some j => exact (hm.journal j hj).rows

variable {phase : Phase}

theorem MachineOk.phaseOf (h : m.phase = phase) : PhaseOk F phase :=
  h ▸ hm.phase

theorem MachineOk.setPhase (hp : PhaseOk F phase) : MachineOk F { m with phase := phase } :=
  ⟨hm.journal, hm.saved, hp⟩

/-- A crash leaves the committed rows of the journal and the index file. -/
theorem MachineOk.abort : MachineOk F m.abort where
  journal j hj := by
    obtain ⟨j', hj', rfl⟩ := map_eq_some_iff.1 hj
    exact (hm.journal j' hj').rollback
  saved := hm.saved
  phase := trivial

/-- What a write keeps of the rows it keeps of the machine. -/
theorem MachineOk.write {f : Journal → Journal} (hf : ∀ j : Journal,
    j.Holds F.chain F.row F.completed → (f j).Holds F.chain F.row F.completed) :
    MachineOk F (m.write f) where
  journal j hj := by
    cases hj
    refine hf _ ?_
    cases hjournal : m.journal with
    | none => exact .empty
    | some j => exact hm.journal j hjournal
  __ := hm

end

structure Facts.Imp (F F' : Facts) : Prop where
  chain : ∀ sha chain, F.chain sha chain → F'.chain sha chain
  tentative : ∀ sha chain t, F.tentative sha chain t → F'.tentative sha chain t
  row : ∀ object e, F.row object e → F'.row object e
  part : ∀ object e, F.part object e → F'.part object e
  completed : ∀ id done, F.completed id done → F'.completed id done
  cached : ∀ id c, F.cached id c → F'.cached id c
  upload : ∀ s u todo, F.upload s u todo → F'.upload s u todo
  checked : ∀ s u t, F.checked s u t → F'.checked s u t
  published : ∀ s u, F.published s u → F'.published s u

variable {F' : Facts}

theorem SessionOk.imp (himp : F.Imp F') (hs : SessionOk F s) : SessionOk F' s where
  hashes := hs.hashes.imp himp.chain himp.tentative himp.part
  index := hs.index.imp himp.cached
  base b hb := himp.cached _ _ (hs.base b hb)

theorem MachineOk.imp (himp : F.Imp F') (hm : MachineOk F m) : MachineOk F' m where
  journal j hj := (hm.journal j hj).imp himp.chain himp.row himp.completed
  saved := hm.saved.imp himp.cached
  phase := by
    have hphase := hm.phase
    cases hp : m.phase with
    | idle => trivial
    | opening s r l | ready s =>
      rw [hp] at hphase
      exact SessionOk.imp himp hphase
    | seeding s pending l =>
      rw [hp] at hphase
      exact ⟨hphase.1.imp himp, fun e he entry hentry => himp.row _ _ (hphase.2 e he entry hentry)⟩
    | uploading s u l | putting s u l =>
      rw [hp] at hphase
      exact himp.upload s u l hphase
    | checked s u t =>
      rw [hp] at hphase
      exact himp.checked s u t hphase
    | published s u =>
      rw [hp] at hphase
      exact himp.published s u hphase

/-- The machines after a step of one of them. -/
theorem MachineOk.update {machines : String → Machine} {i : String} (himp : F.Imp F')
    (h : ∀ j, MachineOk F (machines j)) (hm : MachineOk F' m) (j : String) :
    MachineOk F' (Function.update machines i m j) := by
  refine (Function.forall_update_iff machines fun _ => MachineOk F').2 ⟨hm, fun j _ => ?_⟩ j
  exact (h j).imp himp

/-- Frames that are the content after a zero byte, and the content as its own hash. -/
def Env.stored : Env where
  sha data := String.ofList (data.map Char.ofUInt8)
  compress data _ := 0 :: data
  decompress frame _ := some frame.tail

/-! ## One file of an upload -/

def Node.bytes : Node → Option Bytes
  | .file _ data => some data
  | .symlink target => some target
  | _ => none

theorem bytes_of_content {root : Snapshot} {path mode : String} {data : Bytes}
    (h : content root path mode = some data) : root[path]?.bind Node.bytes = some data := by
  unfold content at h
  split at h
  case h_1 target hnode =>
    rw [hnode]
    split at h
    · exact h
    · cases h
  case h_2 _ hnode =>
    rw [hnode]
    split at h
    · cases h
    · exact h
  case h_3 => cases h

/-- A frame is the content alone, or its delta to the content that the base has at the path. -/
theorem frame_cases (env : Env) (repo : Repo) (base : Option (String × Pushed)) (path : String)
    (data : Bytes) : frame env repo base path data = (env.compress data none, []) ∨
      ∃ b previous old, base = some b ∧ b.2.tree.files[path]? = some previous ∧
        previous.chain.length ≤ maxFileDeltas ∧ previous.size.toNat ≤ deltaLimit ∧
        content (repo.root b.1) path previous.mode = some old ∧ old ≠ [] ∧
          env.sha old = previous.sha ∧
        frame env repo base path data = (env.compress data (some old), previous.chain) := by
  simp only [frame, bind_eq_bind]
  cases hd : (base.bind _ : Option (Bytes × List Link)) with
  | none => exact .inl rfl
  | some delta =>
    simp only [bind_eq_some_iff, guard_eq_some', exists_const] at hd
    obtain ⟨b, hbase, previous, hprevious, ⟨hlength, -, hsize⟩, old, hold, ⟨hne, hsha⟩, -,
      hdelta⟩ := hd
    cases hdelta
    exact .inr ⟨b, previous, old, hbase, hprevious, hlength, hsize, hold, hne, hsha, rfl⟩

inductive Visited (env : Env) (repo : Repo) (h : ContentHashes) (u : Upload) (path : String)
    (m : Meta) : Option (ContentHashes × Upload) → Prop
  | skipped : (skipPath path || m.ftype == .dir) = true → Visited env repo h u path m (some (h, u))
  | known (data : Bytes) (chain : List Link) : (skipPath path || m.ftype == .dir) = false →
      content (repo.root u.state) path m.gitMode = some data →
      h.get (env.sha data) = some chain →
      Visited env repo h u path m (some (h, { u with
        files := u.files.insert path ⟨m.gitMode, .ofNat data.length, env.sha data, chain⟩ }))
  | full : u.current ≠ [] → Visited env repo h u path m none
  | added (data : Bytes) (f : Bytes × List Link) : (skipPath path || m.ftype == .dir) = false →
      content (repo.root u.state) path m.gitMode = some data →
      h.get (env.sha data) = none → frame env repo u.base path data = f → full u f.1 = false →
      Visited env repo h u path m
        (some (h.insert (env.sha data) (nextLink u f.1 f.2 :: f.2), addFrame u path f.1
          ⟨m.gitMode, .ofNat data.length, env.sha data, nextLink u f.1 f.2 :: f.2⟩))

variable {h : ContentHashes}

/-- The outcomes of a visit that does not fail, one for each branch of `visit`. -/
theorem visited_of_visit {u : Upload} {path : String} {m : Meta}
    {r : Option (ContentHashes × Upload)} (hv : visit env repo h u path m = .ok r) :
    Visited env repo h u path m r := by
  unfold visit at hv
  by_cases hskip : (skipPath path || m.ftype == .dir) = true
  · rw [if_pos hskip] at hv
    cases hv
    exact .skipped hskip
  rw [if_neg hskip] at hv
  simp only [bind_eq_ok, ensure_eq_ok, exists_const] at hv
  obtain ⟨-, -, hv⟩ := hv
  rw [Bool.not_eq_true] at hskip
  split at hv
  case h_1 => cases hv
  case h_2 data hdata =>
    split at hv
    case h_1 chain hget =>
      cases hv
      exact .known data chain hskip hdata hget
    case h_2 hget =>
      by_cases hfull : Push.full u (frame env repo u.base path data).1 = true
      · rw [if_pos hfull] at hv
        cases hv
        refine .full fun hempty => ?_
        simp [Push.full, hempty] at hfull
      · rw [if_neg hfull] at hv
        cases hv
        exact .added data _ hskip hdata hget rfl (Bool.not_eq_true _ ▸ hfull)

/-! ## The steps between uploads -/

section

variable (hF : F.Sound env w)
include hF

/-- The states that the journal says are published are added to the index. -/
theorem openIndex_holds {saved : BTreeMap Cached} {completed : BTreeMap (String × Nat)}
    (hsaved : Every F.cached saved) (hdone : Every F.completed completed) :
    Every F.cached (openIndex saved completed) := by
  refine Every.filter (Every.foldl (fun index done hmem hindex => hindex.insert ?_) hsaved)
  have hc := hdone done.1 done.2 (mem_toList_iff_getElem?_eq_some.1 hmem)
  refine hF.completed _ _ _ _ hc fun t ht => ?_
  obtain ⟨c, hfilter, hct⟩ := bind_eq_some_iff.1 ht
  obtain ⟨hget, hattempt⟩ := filter_eq_some_iff.1 hfilter
  have hcached := hindex done.1 c hget
  obtain ⟨attempt, depth, tree⟩ := c
  obtain rfl : attempt = done.2.1 := beq_iff_eq.1 hattempt
  obtain rfl : tree = some t := hct
  exact ⟨depth, hcached⟩

section

variable (hm : MachineOk F m)
include hm

/-- The known chains are empty, and the index gets what the journal has completed. -/
theorem openPush_ok (h : openPush m = some m') : MachineOk F m' := by
  unfold openPush at h
  split at h
  case h_2 => cases h
  cases h
  refine (hm.write fun j hj => hj).setPhase ⟨⟨.empty, .empty, .empty, .empty⟩, ?_, fun b hb => ?_⟩
  · exact openIndex_holds hF hm.saved hm.rows.completed
  · cases hb

omit hF in
/-- A state can only leave the index. -/
theorem recheck_ok {tip : String} (h : recheck w m tip = some m') : MachineOk F m' := by
  unfold recheck at h
  split at h
  case h_2 => cases h
  case h_1 s resuming recovered hphase =>
    have hs : SessionOk F s := hm.phaseOf hphase
    cases h
    refine hm.setPhase ?_
    change SessionOk F (if _ then _ else _)
    split
    · exact { hs with index := hs.index.erase }
    · exact hs

variable {id : String}

/-- A state that the store has a tree of comes into the index. -/
theorem discover_ok (h : discover w m id = some m') : MachineOk F m' := by
  unfold discover at h
  split at h
  case h_2 => cases h
  case h_1 s resuming recovered hphase =>
    have hs : SessionOk F s := hm.phaseOf hphase
    split at h
    · cases h
    cases hc : w.complete id with
    | none =>
      rw [hc] at h
      cases h
      exact hm
    | some attempt =>
      rw [hc] at h
      cases h
      exact hm.setPhase { hs with index := hs.index.insert (hF.listed id attempt hc) }

omit hF in
/-- The chains and the parts of the journal are taken over. -/
theorem loadHashes_ok (h : loadHashes m = some m') : MachineOk F m' := by
  unfold loadHashes at h
  split at h
  case h_2 => cases h
  case h_1 s resuming recovered hphase =>
    have hs : SessionOk F s := hm.phaseOf hphase
    cases h
    refine hm.setPhase ⟨{ hs with hashes := ⟨hm.rows.hashes, .empty, .empty, .empty⟩ }, ?_⟩
    intro e he
    exact hm.rows.pending e.1 e.2 (mem_toList_iff_getElem?_eq_some.1 he)

/-- The entries of a part count again if all of them are read back; otherwise the part is given up.
-/
theorem validate_ok (h : validate env w m = some m') : MachineOk F m' := by
  unfold validate at h
  split at h
  case h_2 => cases h
  case h_1 s object row pending recovered hphase =>
    obtain ⟨hs, hrows⟩ : PhaseOk F (.seeding s _ _) := hm.phaseOf hphase
    have hrow : ∀ e ∈ row.entries, F.row object e := hrows _ mem_cons_self
    have hrest := fun e he => hrows e (mem_cons_of_mem _ he)
    dsimp only at h
    split at h
    case h_1 modified hmodified =>
      cases h
      obtain ⟨hmodified, hread⟩ := filter_eq_some_iff.1 hmodified
      obtain ⟨hmodified, -⟩ := filter_eq_some_iff.1 hmodified
      obtain ⟨o, ho, rfl⟩ := map_eq_some_iff.1 hmodified
      have hvalid := hF.valid object o row.entries ho hrow (all_eq_true.1 hread)
      refine (hm.write fun j hj => hj.validatePart object o.modified).setPhase ⟨?_, hrest⟩
      exact { hs with
        hashes := hs.hashes.pendingPart (fun e he => (hvalid e he).2) fun e he => (hvalid e he).1 }
    case h_2 =>
      cases h
      exact (hm.write fun j hj => hj.discardPart object).setPhase ⟨hs, hrest⟩

omit hm hF in
/-- The known chains after a tree is published, and the journal that has them. -/
theorem checkpointTree_ok (referred : List String)
    (hm : MachineOk F m) (hh : F.Hashes h) (hdone : F.completed id (attempt, depth)) :
    MachineOk F (checkpointTree m s id attempt depth h referred).1 ∧
      F.Hashes (checkpointTree m s id attempt depth h referred).2.hashes :=
  ⟨hm.write fun _ hj => hj.checkpoint referred hh.dirty_holds hdone, hh.clearDirty⟩

/-- A published tree makes the parts that it refers to known, in memory and in the journal. -/
theorem recover_ok (h : recover w m = some m') : MachineOk F m' := by
  unfold recover at h
  split at h
  case h_2 => cases h
  case h_1 s id recovered hphase =>
    have hp : PhaseOk F (.seeding s _ _) := hm.phaseOf hphase
    obtain ⟨c, hc, h⟩ := bind_eq_some_iff.1 h
    split at h
    case h_2 =>
      cases h
      exact hm.abort
    case h_1 p depth hpub hdepth =>
      cases h
      obtain ⟨hcached, hdone⟩ := hF.tree id c p depth (hp.1.index id c hc) hpub hdepth
      have hh : F.Hashes ((s.hashes.protect p.tree).seedTree p.tree) :=
        (hp.1.hashes.protect (hF.referred _ _ _ hcached rfl)).seedTree (hF.files _ _ _ hcached rfl)
      obtain ⟨hm', hh'⟩ := checkpointTree_ok (s := s) (s.hashes.referredParts p.tree) hm hh hdone
      have hindex := hp.1.index.insert (hF.depth id c depth (hp.1.index id c hc) hdepth)
      exact hm'.setPhase ⟨⟨hh', hindex, hp.1.base⟩, fun e he => nomatch he⟩

omit hF in
theorem ready_ok (h : ready m = some m') : MachineOk F m' := by
  unfold ready at h
  split at h
  case h_2 => cases h
  case h_1 s hphase =>
    have hp : PhaseOk F (.seeding s _ _) := hm.phaseOf hphase
    cases h
    exact hm.setPhase hp.1

omit hm in
theorem hydrate_ok {c : Cached} {p : Pushed} (hc : F.cached id c)
    (h : hydrate w id c = some p) : F.cached id p.cached := by
  obtain ⟨attempt, depth, tree⟩ := c
  unfold hydrate at h
  split at h
  case h_1 t ht =>
    cases h
    obtain rfl : tree = some t := ht
    exact hc
  case h_2 ht =>
    obtain ⟨pub, hpub, h⟩ := bind_eq_some_iff.1 h
    obtain ⟨d, hd, h⟩ := bind_eq_some_iff.1 h
    cases h
    exact (hF.tree _ _ _ _ hc hpub hd).1

/-- The tree of the parent is read from the index or the store, and its chains are known. -/
theorem selectParent_ok (h : selectParent w m id = some m') : MachineOk F m' := by
  unfold selectParent at h
  split at h
  case h_2 => cases h
  case h_1 s hphase =>
    have hs : SessionOk F s := hm.phaseOf hphase
    obtain ⟨c, hc, h⟩ := bind_eq_some_iff.1 h
    split at h
    case h_1 =>
      cases h
      exact hm.abort
    case h_2 p hp =>
      cases h
      have hcached := hydrate_ok hF (hs.index id c hc) hp
      have hh := hs.hashes.seedTree (hF.files _ _ _ hcached rfl)
      refine hm.setPhase ⟨hh, hs.index.insert hcached, fun b hb => ?_⟩
      cases hb
      exact hcached

end

end

theorem savedIndex_holds {index : BTreeMap Cached} (h : Every F.cached index) :
    Every F.cached (savedIndex index) :=
  h.ofList_of_subset (drop_sublist _ _)

theorem saveIndex_ok (hm : MachineOk F m) (h : saveIndex m = some m') : MachineOk F m' := by
  unfold saveIndex at h
  split at h
  case h_2 => cases h
  case h_1 s hphase =>
    have hs : SessionOk F s := hm.phaseOf hphase
    cases h
    exact ⟨hm.journal, savedIndex_holds hs.index, hm.phase⟩

/-- What is left of a push that is done is the index file. -/
theorem finish_ok (hm : MachineOk F m) (h : finish m = some m') : MachineOk F m' := by
  unfold finish at h
  split at h
  case h_2 => cases h
  case h_1 s hphase =>
    have hs : SessionOk F s := hm.phaseOf hphase
    cases h
    exact ⟨fun j hj => (nomatch hj), savedIndex_holds hs.index, trivial⟩

/-! ## The steps of an upload -/

structure Facts.Uploads (F : Facts) (env : Env) (repo : Repo) (w : World) : Prop where
  start : ∀ s state attempt base order, SessionOk F s → isUuid state = true →
    validAttempt attempt = true → (base = s.base ∨ base = none) →
      order.Perm (visits repo state base) →
        F.upload s (startUpload repo state attempt w.now base) order
  visit : ∀ s u path m todo h u', F.upload s u ((path, m) :: todo) →
    Visited env repo s.hashes u path m (some (h, u')) → F.upload { s with hashes := h } u' todo
  part : ∀ s u todo, F.upload s u todo → ∀ e ∈ u.partEntries,
    F.row (dataName u.state u.attempt (.ofNat u.part)) e
  check : ∀ s u, F.upload s u [] → u.current = [] → w.now < s.hashes.deadline u.tree u.startedAt →
    F.checked s u w.now
  published : ∀ s u, F.published s u → SessionOk F s ∧ F.cached u.state u.pushed.cached ∧
    F.completed u.state (u.attempt, u.pushed.depth)

section

variable (hU : F.Uploads env repo w)
include hU

section

variable (hm : MachineOk F m)
include hm

/-- The upload starts from the parent or from nothing. -/
theorem beginUpload_ok {useBase : Bool} {order : List (String × Meta)}
    (h : beginUpload repo w m state attempt useBase order = some m') : MachineOk F m' := by
  unfold beginUpload at h
  split at h
  case h_2 => cases h
  case h_1 s hphase =>
    have hs : SessionOk F s := hm.phaseOf hphase
    simp only [bind_eq_bind, bind_eq_some_iff, guard_eq_some', exists_const, Bool.and_eq_true] at h
    obtain ⟨⟨⟨hstate, hattempt⟩, -⟩, hperm, h⟩ := h
    cases h
    refine hm.setPhase (hU.start _ _ _ _ _ hs hstate hattempt ?_ (isPerm_iff.1 hperm))
    cases useBase
    · exact .inr rfl
    · exact .inl rfl

/-- The entries of the current part are in the journal before the part is in the store. -/
theorem prepare_ok {u : Upload} {todo : List (String × Meta)} (hu : F.upload s u todo) :
    MachineOk F (prepare m s u todo) :=
  (hm.write fun _ hj => hj.preparePart (hU.part s u todo hu)).setPhase hu

/-- A visit fails, finds the part full, or is one of those that `Uploads.visit` is about. -/
theorem visitNext_ok (h : visitNext env repo m = some m') : MachineOk F m' := by
  unfold visitNext at h
  split at h
  case h_2 => cases h
  case h_1 s u path file todo hphase =>
    have hu : F.upload s u ((path, file) :: todo) := hm.phaseOf hphase
    split at h
    case h_1 =>
      cases h
      exact hm.abort
    case h_2 =>
      cases h
      exact prepare_ok hU hm hu
    case h_3 hashes u' hv =>
      cases h
      exact hm.setPhase (hU.visit s u path file todo hashes u' hu (visited_of_visit hv))

theorem flush_ok (h : flush m = some m') : MachineOk F m' := by
  unfold flush at h
  split at h
  case h_2 => cases h
  case h_1 s u hphase =>
    split at h
    · cases h
    · cases h
      exact prepare_ok hU hm (hm.phaseOf hphase)

/-- The upload goes on to its tree while none of the parts it refers to is too old. -/
theorem checkDeadline_ok (h : checkDeadline w m = some m') : MachineOk F m' := by
  unfold checkDeadline at h
  split at h
  case h_2 => cases h
  case h_1 s u hphase =>
    by_cases hcurrent : (!u.current.isEmpty) = true
    · rw [if_pos hcurrent] at h
      cases h
    rw [if_neg hcurrent] at h
    split at h
    case isTrue =>
      cases h
      exact hm.abort
    case isFalse hdeadline =>
      cases h
      rw [not_or, not_le, not_le] at hdeadline
      refine hm.setPhase (hU.check s u (hm.phaseOf hphase) ?_ hdeadline.2)
      simpa using hcurrent

end

end

/-- A published state: the journal and the index have it, and its frames are known. -/
theorem checkpoint_ok (hF : F.Sound env w) (hU : F.Uploads env repo w) (hm : MachineOk F m)
    (h : checkpoint m = some m') : MachineOk F m' := by
  unfold checkpoint at h
  split at h
  case h_2 => cases h
  case h_1 s u hphase =>
    obtain ⟨hs, hcached, hdone⟩ := hU.published s u (hm.phaseOf hphase)
    cases h
    have hh : F.Hashes (s.hashes.protect u.tree) :=
      hs.hashes.protect (hF.referred _ _ _ hcached rfl)
    obtain ⟨hm', hh'⟩ := checkpointTree_ok (s := s) (s.hashes.referredParts u.tree) hm hh hdone
    have hindex := hs.index.insert hcached
    refine ⟨hm'.journal, ?_, hh', hindex, fun b hb => ?_⟩
    · dsimp only
      split
      · exact savedIndex_holds hindex
      · exact hm'.saved
    · cases hb
      exact hcached

/-- The facts hold of a machine after each of its steps. -/
theorem act_ok (hF : F.Sound env w) (hU : F.Uploads env repo w) (hm : MachineOk F m) {a : Action}
    (h : act env repo w m a = some m') : MachineOk F m' := by
  cases a with
  | openPush => exact openPush_ok hF hm h
  | recheck tip => exact recheck_ok hm h
  | discover id => exact discover_ok hF hm h
  | loadHashes => exact loadHashes_ok hm h
  | validate => exact validate_ok hF hm h
  | recover => exact recover_ok hF hm h
  | ready => exact ready_ok hm h
  | selectParent id => exact selectParent_ok hF hm h
  | beginUpload state attempt useBase order => exact beginUpload_ok hU hm h
  | visitNext => exact visitNext_ok hU hm h
  | flush => exact flush_ok hU hm h
  | checkDeadline => exact checkDeadline_ok hU hm h
  | checkpoint => exact checkpoint_ok hF hU hm h
  | saveIndex => exact saveIndex_ok hm h
  | finish => exact finish_ok hm h
  | crash =>
    cases h
    exact hm.abort

end Push

end Layr
