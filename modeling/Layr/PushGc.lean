import Layr.Lib.Tables
import Layr.PushFacts

/-!
# A collection deletes no part in use

A tree is published at most 23 hours after the upload of each part that only it refers to, and a
collection deletes parts that are older than 24 hours. The hour between has to cover two delays that
the code does not bound: that between the list of objects and the cutoff of a collection, and that
between the check of the deadline and the upload of a tree. When they take an hour at most
(`promptRun`), no part that a published tree refers to is deleted, in any run
(`deleted_unreferenced`). Without that a part can be lost (`Slow.run_deletes`).

What carries the proof: an object that a tree refers to is `Kept`, that is, a tree that refers to it
was published in time after the upload of the object. Objects of that kind are known to every
collection whose cutoff has reached them, and an object whose time is over can never become one.
-/

namespace Layr

namespace Push

open Format Maps List Option

/-! ## Objects in use -/

section

variable (d : Int) (w : World)

def UploadedAt (k : String) (t : Int) : Prop := ∃ o, w.uploaded[k]? = some o ∧ o.modified = t

def Kept (k : String) : Prop :=
  ∃ (t : Int) (key : String) (p : Published), UploadedAt w k t ∧ w.trees[key]? = some p ∧
    k ∈ objects p.tree ∧ p.modified ≤ t + 82799 + d

def KeptChain (chain : List Link) : Prop := ∀ l ∈ chain, Kept d w l.object

def KeptTree (t : Tree) : Prop := ∀ k ∈ objects t, Kept d w k

/-- The frames of an unpublished part: in the part, or in objects in use. -/
def KeptRow (object : String) (e : Entry) : Prop := ∀ l ∈ e.chain, l.object = object ∨
    Kept d w l.object

/-- The chain of an unpublished part that was uploaded at a time. -/
def KeptTentative (chain : List Link) (t : Int) : Prop :=
  ∀ l ∈ chain, Kept d w l.object ∨ UploadedAt w l.object t

def KeptCached (c : Cached) : Prop := ∀ t, c.tree = some t → KeptTree d w t

/-- An object of the upload itself: in the store since the upload began, or the current part. -/
def Own (u : Upload) (k : String) : Prop :=
  (∃ t, UploadedAt w k t ∧ u.startedAt ≤ t) ∨ k = dataName u.state u.attempt (.ofNat u.part) ∧
    u.current ≠ []

/-- An object that a file of the upload is read from. -/
def LinkOk (h : ContentHashes) (u : Upload) (sha k : String) : Prop :=
  Kept d w k ∨ Own w u k ∨ ∃ v, h.tentative[sha]? = some v ∧ UploadedAt w k v.2

def InFiles (env : Env) (repo : Repo) (u : Upload) (sha : String) (chain : List Link) : Prop :=
  ∃ (path : String) (e : Entry) (mode : String) (data : Bytes), u.files[path]? = some e ∧
    e.sha = sha ∧ e.chain = chain ∧
    content (repo.root u.state) path mode = some data ∧ env.sha data = sha

structure UploadOk (env : Env) (repo : Repo) (s : Session) (u : Upload) : Prop where
  hashes : s.hashes.Holds (fun sha chain => KeptChain d w chain ∨ InFiles env repo u sha chain)
    (fun _ => KeptTentative d w) (KeptRow d w)
  index : Every (fun _ => KeptCached d w) s.index
  sessionBase : ∀ b, s.base = some b → KeptTree d w b.2.tree
  base : ∀ b, u.base = some b → KeptTree d w b.2.tree
  names : isUuid u.state = true ∧ validAttempt u.attempt = true
  started : u.startedAt ≤ w.now
  files : Every (fun _ e => ∀ l ∈ e.chain, LinkOk d w s.hashes u e.sha l.object) u.files
  part : ∀ e ∈ u.partEntries, KeptRow d w (dataName u.state u.attempt (.ofNat u.part)) e

def gcFacts (env : Env) (repo : Repo) : Facts where
  chain _ := KeptChain d w
  tentative _ := KeptTentative d w
  row := KeptRow d w
  part := KeptRow d w
  completed _ _ := True
  cached _ := KeptCached d w
  upload s u _ := UploadOk d w env repo s u
  checked s u t := UploadOk d w env repo s u ∧ u.current = [] ∧
    t < s.hashes.deadline u.tree u.startedAt
  published s u := s.hashes.Holds (fun _ => KeptChain d w) (fun _ => KeptTentative d w)
    (KeptRow d w) ∧
    Every (fun _ => KeptCached d w) s.index ∧ (∀ b, s.base = some b → KeptTree d w b.2.tree) ∧
      KeptTree d w u.tree

end

variable {k : String} {t : Tree}

theorem mem_objects :
    k ∈ objects t ↔ ∃ (path : String) (e : Entry), t.files[path]? = some e ∧
      ∃ l ∈ e.chain, l.object = k := by
  simp [objects]

variable {d : Int} {w w' : World} {env : Env} {repo : Repo} {m m' : Machine} {s : Session}
  {u : Upload}

theorem KeptTree.files (h : KeptTree d w t) : Every (fun _ e => KeptChain d w e.chain) t.files :=
  fun path e he l hl => h _ (mem_objects.2 ⟨path, e, he, l, hl, rfl⟩)

/-! ## More in the store -/

structure Grows (w w' : World) : Prop where
  now : w.now ≤ w'.now
  uploaded : ∀ (k : String) o, w.uploaded[k]? = some o → w'.uploaded[k]? = some o
  trees : ∀ (k : String) p, w.trees[k]? = some p → w'.trees[k]? = some p

variable {chain : List Link} {sha : String} {e : Entry}

namespace Grows

variable (g : Grows w w')
include g

theorem uploadedAt {t : Int} (h : UploadedAt w k t) : UploadedAt w' k t := by
  obtain ⟨o, ho, ht⟩ := h
  exact ⟨o, g.uploaded k o ho, ht⟩

theorem kept (h : Kept d w k) : Kept d w' k := by
  obtain ⟨t, key, p, hat, hp, hk, ht⟩ := h
  exact ⟨t, key, p, g.uploadedAt hat, g.trees key p hp, hk, ht⟩

theorem keptChain (h : KeptChain d w chain) : KeptChain d w' chain :=
  fun l hl => g.kept (h l hl)

theorem keptTree (h : KeptTree d w t) : KeptTree d w' t := fun k hk => g.kept (h k hk)

theorem keptRow {object : String} (h : KeptRow d w object e) : KeptRow d w' object e :=
  fun l hl => (h l hl).imp id g.kept

theorem keptTentative {t : Int} (h : KeptTentative d w chain t) : KeptTentative d w' chain t :=
  fun l hl => (h l hl).imp g.kept g.uploadedAt

theorem keptCached {c : Cached} (h : KeptCached d w c) : KeptCached d w' c :=
  fun t ht => g.keptTree (h t ht)

theorem own (h : Own w u k) : Own w' u k := by
  rcases h with ⟨t, hat, ht⟩ | h
  · exact .inl ⟨t, g.uploadedAt hat, ht⟩
  · exact .inr h

theorem linkOk {h : ContentHashes} {k : String} (hl : LinkOk d w h u sha k) :
    LinkOk d w' h u sha k := by
  rcases hl with hk | ho | ⟨v, hv, hat⟩
  · exact .inl (g.kept hk)
  · exact .inr (.inl (g.own ho))
  · exact .inr (.inr ⟨v, hv, g.uploadedAt hat⟩)

theorem uploadOk (h : UploadOk d w env repo s u) : UploadOk d w' env repo s u where
  hashes := h.hashes.imp (fun _ _ => Or.imp_left g.keptChain)
    (fun _ _ _ => g.keptTentative) fun _ _ => g.keptRow
  index := h.index.imp fun _ _ => g.keptCached
  sessionBase b hb := g.keptTree (h.sessionBase b hb)
  base b hb := g.keptTree (h.base b hb)
  names := h.names
  started := h.started.trans g.now
  files := h.files.imp fun _ _ he l hl => g.linkOk (he l hl)
  part e he := g.keptRow (h.part e he)

theorem facts_imp : (gcFacts d w env repo).Imp (gcFacts d w' env repo) where
  chain _ _ := g.keptChain
  tentative _ _ _ := g.keptTentative
  row _ _ := g.keptRow
  part _ _ := g.keptRow
  completed _ _ := id
  cached _ _ := g.keptCached
  upload _ _ _ := g.uploadOk
  checked _ _ _ := And.imp_left g.uploadOk
  published s u := by
    rintro ⟨hh, hi, hb, ht⟩
    exact ⟨hh.imp (fun _ _ => g.keptChain) (fun _ _ _ => g.keptTentative) fun _ _ => g.keptRow,
      hi.imp fun _ _ => g.keptCached, fun b hb' => g.keptTree (hb b hb'), g.keptTree ht⟩

end Grows

/-! ## Uploads -/

theorem gcFacts_sound (hparts : ∀ (k : String) o, w.parts[k]? = some o → w.uploaded[k]? = some o)
    (htrees : Every (fun _ p => KeptTree d w p.tree) w.trees) :
    (gcFacts d w env repo).Sound env w where
  files _ _ t hc ht := (hc t ht).files
  referred _ _ t hc ht object ho e he l hl := by
    rcases he l hl with hobject | hk
    · rw [hobject]
      exact hc t ht object ho
    · exact hk
  valid object o es ho hrow _ e he := by
    refine ⟨fun l hl => ?_, hrow e he⟩
    rcases hrow e he l hl with hobject | hk
    · exact .inr ⟨o, by rw [hobject]; exact hparts object o ho, rfl⟩
    · exact .inl hk
  tree id c p depth _ hp _ := by
    refine ⟨fun t ht => ?_, trivial⟩
    cases ht
    exact htrees _ p hp
  listed _ _ _ t ht := by cases ht
  depth _ _ _ hc _ := hc
  completed id attempt depth c _ hc t ht := by
    obtain ⟨_, hcached⟩ := hc t ht
    exact hcached t rfl

theorem content_unique {root : Snapshot} {path mode mode' : String} {data data' : Bytes}
    (h : content root path mode = some data) (h' : content root path mode' = some data') :
    data = data' :=
  some.inj ((bytes_of_content h).symm.trans (bytes_of_content h'))

/-- A known chain of an upload: its objects are in use, of the upload, or tentative. -/
theorem UploadOk.linkOk_of_get (hu : UploadOk d w env repo s u)
    (hget : s.hashes.get sha = some chain) : ∀ l ∈ chain, LinkOk d w s.hashes u sha l.object := by
  intro l hl
  rcases or_eq_some_iff.1 hget with hentries | ⟨-, htentative⟩
  · rcases hu.hashes.entries sha chain hentries with hk | ⟨path, e, mode, data, he, rfl, rfl, -⟩
    · exact .inl (hk l hl)
    · exact hu.files path e he l hl
  · obtain ⟨v, hv, rfl⟩ := map_eq_some_iff.1 htentative
    rcases hu.hashes.tentative sha v hv l hl with hk | hat
    · exact .inl hk
    · exact .inr (.inr ⟨v, hv, hat⟩)

variable {data : Bytes}

/-- The chains of the upload's files stay known when a file is written. -/
theorem InFiles.insert {path mode : String}
    (h : InFiles env repo u sha chain) (hdata : content (repo.root u.state) path mode = some data)
    (hsame : env.sha data = sha → e.sha = sha ∧ e.chain = chain) :
    InFiles env repo { u with files := u.files.insert path e } sha chain := by
  obtain ⟨path', e', mode', data', he', hsha, hchain, hdata', hsha'⟩ := h
  by_cases heq : path = path'
  · subst heq
    obtain rfl := content_unique hdata hdata'
    obtain ⟨hes, hec⟩ := hsame hsha'
    exact ⟨path, e, mode', data, getElem?_insert_self, hes, hec, hdata', hsha'⟩
  · exact ⟨path', e', mode', data', by rw [getElem?_insert_ne heq]; exact he', hsha, hchain,
      hdata', hsha'⟩

variable {size : UInt64}

theorem UploadOk.known (hu : UploadOk d w env repo s u) {path mode : String}
    (hdata : content (repo.root u.state) path mode = some data)
    (hget : s.hashes.get (env.sha data) = some chain) : UploadOk d w env repo s
      { u with files := u.files.insert path ⟨mode, size, env.sha data, chain⟩ } where
  hashes :=
    { hu.hashes with
      entries := by
        intro sha c hc
        rcases hu.hashes.entries sha c hc with hk | hin
        · exact .inl hk
        · refine .inr (hin.insert hdata fun hsha => ⟨hsha, ?_⟩)
          rw [ContentHashes.get, hsha, hc] at hget
          exact (some.inj hget).symm }
  __ := hu
  files := hu.files.insert fun l hl => hu.linkOk_of_get hget l hl

theorem UploadOk.frame_kept (hu : UploadOk d w env repo s u) (path : String) (data : Bytes) :
    KeptChain d w (frame env repo u.base path data).2 := by
  rcases frame_cases env repo u.base path
    data with heq | ⟨b, previous, _, hb, hprev, -, -, -, -, -, heq⟩
  · rw [heq]
    exact fun l hl => nomatch hl
  · rw [heq]
    exact (hu.base b hb).files path previous hprev

/-- The frame of a new content is in the current part, and its base is in objects in use. -/
theorem UploadOk.added (hframe : ∀ data base, env.compress data base ≠ [])
    (hu : UploadOk d w env repo s u) {path mode : String} {f : Bytes × List Link}
    (hdata : content (repo.root u.state) path mode = some data)
    (hget : s.hashes.get (env.sha data) = none) (hf : frame env repo u.base path data = f) :
    UploadOk d w env repo
      { s with hashes := s.hashes.insert (env.sha data) (nextLink u f.1 f.2 :: f.2) }
      (addFrame u path f.1 ⟨mode, size, env.sha data, nextLink u f.1 f.2 :: f.2⟩) := by
  set entry : Entry := ⟨mode, size, env.sha data, nextLink u f.1 f.2 :: f.2⟩
  have hkept : KeptChain d w f.2 := by
    rw [← hf]
    exact hu.frame_kept path data
  have hne : f.1 ≠ [] := by
    rw [← hf]
    rcases frame_cases env repo u.base path data with heq | ⟨_, _, _, -, -, -, -, -, -, -, heq⟩ <;>
    · rw [heq]
      exact hframe _ _
  have hentries : s.hashes.entries[env.sha data]? = none := (or_eq_none_iff.1 hget).1
  have hown : ∀ k, Own w u k → Own w (addFrame u path f.1 entry) k := fun k hk => by
    rcases hk with hk | ⟨hk, -⟩
    · exact .inl hk
    · exact .inr ⟨hk, fun h => hne (append_eq_nil_iff.1 h).2⟩
  have hcurrent : (addFrame u path f.1 entry).current ≠ [] := fun h =>
    hne (append_eq_nil_iff.1 h).2
  refine { hu with hashes := ?_, files := ?_, part := ?_ }
  · have hin : InFiles env repo (addFrame u path f.1 entry) (env.sha data)
        (nextLink u f.1 f.2 :: f.2) :=
      ⟨path, _, mode, data, getElem?_insert_self, rfl, rfl, hdata, rfl⟩
    refine ContentHashes.Holds.insert { hu.hashes with entries := ?_ } (.inr hin)
    intro sha c hc
    rcases hu.hashes.entries sha c hc with hk | hc'
    · exact .inl hk
    · refine .inr (hc'.insert hdata fun hsha => ?_)
      rw [← hsha, hentries] at hc
      cases hc
  · have hfiles : Every (fun _ e => ∀ l ∈ e.chain, LinkOk d w
        (s.hashes.insert (env.sha data) (nextLink u f.1 f.2 :: f.2))
          (addFrame u path f.1 entry) e.sha l.object)
          u.files :=
      hu.files.imp fun _ e he l hl => (he l hl).imp id (Or.imp_left (hown _))
    refine hfiles.insert fun l hl => ?_
    rcases mem_cons.1 hl with rfl | hl
    · exact .inr (.inl (.inr ⟨rfl, hcurrent⟩))
    · exact .inl (hkept l hl)
  · intro e he l hl
    rcases mem_append.1 he with he | he
    · exact hu.part e he l hl
    · obtain rfl := mem_singleton.1 he
      rcases mem_cons.1 hl with rfl | hl
      · exact .inl rfl
      · exact .inr (hkept l hl)

theorem keptFiles_kept (ht : KeptTree d w t) (changes : List Change) :
    Every (fun _ e => KeptChain d w e.chain) (keptFiles t.files changes) := by
  refine Every.foldl (fun files change _ hfiles => Every.erase ?_) ht.files
  cases change.oldPath with
  | none => exact hfiles
  | some old => exact hfiles.erase

theorem uploadOk_start (hs : SessionOk (gcFacts d w env repo) s) {state attempt : String}
    {base : Option (String × Pushed)} (hbase : base = s.base ∨ base = none)
    (hnames : isUuid state = true ∧ validAttempt attempt = true) :
    UploadOk d w env repo s (startUpload repo state attempt w.now base) := by
  have hkept : ∀ b, base = some b → KeptTree d w b.2.tree := fun b hb => by
    rcases hbase with rfl | rfl
    · exact hs.base b hb _ rfl
    · cases hb
  have hhashes : s.hashes.Holds (fun sha chain => KeptChain d w chain ∨
      InFiles env repo (startUpload repo state attempt w.now base) sha chain)
      (fun _ => KeptTentative d w) (KeptRow d w) :=
    hs.hashes.imp (fun _ _ => .inl) (fun _ _ _ => id) fun _ _ => id
  refine ⟨hhashes, hs.index, fun b hb => hs.base b hb _ rfl, hkept, hnames, le_refl _, ?_,
    fun e he => nomatch he⟩
  intro path e he l hl
  unfold startUpload at he
  split at he
  case h_1 b hb =>
    exact .inl (keptFiles_kept (hkept b (filter_eq_some_iff.1 hb).1) _ path e he l hl)
  case h_2 =>
    cases he

theorem gcFacts_uploads (hframe : ∀ data base, env.compress data base ≠ []) :
    (gcFacts d w env repo).Uploads env repo w where
  start s state attempt base order hs hstate hattempt hbase _ :=
    uploadOk_start hs hbase ⟨hstate, hattempt⟩
  visit s u path m todo h u' hu hv := by
    cases hv with
    | skipped => exact hu
    | known data chain _ hdata hget => exact hu.known hdata hget
    | added data f _ hdata hget hf _ => exact hu.added hframe hdata hget hf
  part s u todo hu := hu.part
  check s u hu hcurrent hdeadline := ⟨hu, hcurrent, hdeadline⟩
  published s u hp := by
    obtain ⟨hh, hi, hb, ht⟩ := hp
    refine ⟨⟨hh, hi, fun b hb' t htree => ?_⟩, fun t htree => ?_, trivial⟩
    · cases htree
      exact hb b hb'
    · cases htree
      exact ht

/-- The deadline is at most 23 hours after the start, and after each tentative part. -/
theorem deadline_le (h : ContentHashes) (t : Tree) (started : Int) :
    h.deadline t started ≤ started + 82800 ∧ ∀ (path : String) (e : Entry) v,
      t.files[path]? = some e →
      h.tentative[e.sha]? = some v → h.deadline t started ≤ v.2 + 82800 := by
  unfold ContentHashes.deadline
  generalize hts : (t.files.toList.filterMap fun e => h.tentative[e.2.sha]?.map (·.2)) = ts
  obtain ⟨hle, hmem⟩ : ts.foldl min started ≤ started ∧ ∀ v ∈ ts, ts.foldl min started ≤ v :=
    (Tables.foldl_max_le_iff (α := Intᵒᵈ)).1 le_rfl
  refine ⟨by omega, fun path e v he hv => ?_⟩
  have hv' :=
    hmem v.2
    (hts ▸ mem_filterMap.2 ⟨(path, e), mem_toList_iff_getElem?_eq_some.2 he, by rw [hv]; rfl⟩)
  omega

variable {key : String}

/-- A tree that was checked is published in time for each of its objects. -/
theorem UploadOk.kept_of_publish (hu : UploadOk d w env repo s u) (hcurrent : u.current = [])
    {t : Int} (ht : t < s.hashes.deadline u.tree u.startedAt) (hd : w.now ≤ t + d) (g : Grows w w')
    {p : Published} (hp : w'.trees[key]? = some p) (htree : p.tree = u.tree)
    (hmodified : p.modified = w.now) : KeptTree d w' u.tree := by
  obtain ⟨hstart, htentative⟩ := deadline_le s.hashes u.tree u.startedAt
  intro k hk
  obtain ⟨path, e, he, l, hl, rfl⟩ := mem_objects.1 hk
  rw [← htree] at hk
  rcases hu.files path e he l hl with hkept | (⟨t', hat, hle⟩ | ⟨-, hne⟩) | ⟨v, hv, hat⟩
  · exact g.kept hkept
  · exact ⟨t', key, p, g.uploadedAt hat, hp, hk, by omega⟩
  · exact absurd hcurrent hne
  · have := htentative path e v he hv
    exact ⟨v.2, key, p, g.uploadedAt hat, hp, hk, by omega⟩

/-! ## Collections -/

section

variable (c d : Int) (w : World)

def FoundOk (found : List (String × Int)) : Prop :=
  ∀ e ∈ found, (parseDataName e.1).isSome = true → UploadedAt w e.1 e.2

/-- The collection knows the objects of the trees that were published before it listed them. -/
def Covers (listed : Int) (referenced : List String) (p : Published) : Prop :=
  listed ≤ p.modified ∨ objects p.tree ⊆ referenced

structure SweepOk (cutoff listed : Int) (found : List (String × Int)) (referenced : List String) :
    Prop where
  listed_le : listed ≤ cutoff + 86400
  cutoff_le : cutoff + 86400 ≤ listed + c
  past : cutoff + 86400 ≤ w.now
  found : FoundOk w found
  trees : Every (fun _ p => Covers listed referenced p) w.trees

def CollectionOk : Collection → Prop
  | .idle => True
  | .reading listed found todo referenced => listed ≤ w.now ∧ FoundOk w found ∧
    Every (fun key p => key ∈ todo ∨ Covers listed referenced p) w.trees
  | .sweeping cutoff found referenced => ∃ listed, SweepOk c w cutoff listed found referenced
  | .deleting cutoff key found referenced => ∃ listed, SweepOk c w cutoff listed found referenced ∧
    key ∉ referenced ∧ ∃ t, UploadedAt w key t ∧ t < cutoff

end

variable {c : Int}

theorem UploadedAt.unique {t t' : Int} (h : UploadedAt w k t) (h' : UploadedAt w k t') :
    t = t' := by
  obtain ⟨o, ho, rfl⟩ := h
  obtain ⟨o', ho', rfl⟩ := h'
  rw [ho] at ho'
  cases ho'
  rfl

variable {referenced : List String} {found : List (String × Int)}

/-- What a collection deletes was in use by no tree, and its time is over. -/
theorem not_kept_of_sweep (hcd : c + d ≤ 3601) {cutoff listed : Int}
    (hs : SweepOk c w cutoff listed found referenced) (hk : k ∉ referenced) {t : Int}
    (hat : UploadedAt w k t) (ht : t < cutoff) :
    ¬Kept d w k ∧ t + 82799 + d < w.now := by
  obtain ⟨hle, hcut, hpast, -, htrees⟩ := hs
  refine ⟨?_, by omega⟩
  rintro ⟨t', key, p, hat', hp, hmem, hmodified⟩
  obtain rfl := hat.unique hat'
  rcases htrees key p hp with hlate | hsub
  · omega
  · exact hk (hsub hmem)

variable {x : Collection}

namespace Grows

variable (g : Grows w w') (hlate : ∀ (key : String) p, w'.trees[key]? = some p →
  w.trees[key]? = some p ∨ w.now ≤ p.modified)
include g hlate

theorem sweepOk {cutoff listed : Int}
    (h : SweepOk c w cutoff listed found referenced) :
    SweepOk c w' cutoff listed found referenced where
  __ := h
  past := h.past.trans g.now
  found e he hdata := g.uploadedAt (h.found e he hdata)
  trees key p hp := by
    rcases hlate key p hp with hold | hnew
    · exact h.trees key p hold
    · have := h.past
      have := h.listed_le
      exact .inl (by omega)

/-- A tree that is published later is no concern of a collection. -/
theorem collectionOk (h : CollectionOk c w x) : CollectionOk c w' x := by
  cases x with
  | idle => trivial
  | reading listed found todo referenced =>
    obtain ⟨hle, hfound, htrees⟩ := h
    refine ⟨hle.trans g.now, fun e he hdata => g.uploadedAt (hfound e he hdata), fun key p hp => ?_⟩
    rcases hlate key p hp with hold | hnew
    · exact htrees key p hold
    · exact .inr (.inl (hle.trans hnew))
  | sweeping cutoff found referenced =>
    obtain ⟨listed, hs⟩ := h
    exact ⟨listed, g.sweepOk hlate hs⟩
  | deleting cutoff key found referenced =>
    obtain ⟨listed, hs, hk, t, hat, ht⟩ := h
    exact ⟨listed, g.sweepOk hlate hs, hk, t, g.uploadedAt hat, ht⟩

/-- No new tree keeps an object whose time is over. -/
theorem gone (h : ¬Kept d w k ∧ ∃ t, UploadedAt w k t ∧ t + 82799 + d < w.now) :
    ¬Kept d w' k ∧ ∃ t, UploadedAt w' k t ∧ t + 82799 + d < w'.now := by
  obtain ⟨hnot, t, hat, ht⟩ := h
  refine ⟨?_, t, g.uploadedAt hat, ht.trans_le g.now⟩
  rintro ⟨t', key, p, hat', hp, hmem, hmodified⟩
  obtain rfl := (g.uploadedAt hat).unique hat'
  rcases hlate key p hp with hold | hnow
  · exact hnot ⟨t, key, p, hat, hold, hmem, hmodified⟩
  · omega

end Grows

/-! ## All of it -/

structure GcInv (c d : Int) (env : Env) (repo : Repo) (w : World) : Prop where
  parts : ∀ (k : String) o, w.parts[k]? = some o → w.uploaded[k]? = some o
  names : Every (fun key _ => (parseTreeName key).isSome = true) w.trees
  trees : Every (fun _ p => KeptTree d w p.tree) w.trees
  machines : ∀ i, MachineOk (gcFacts d w env repo) (w.machines i)
  collections : ∀ i, CollectionOk c w (w.collections i)
  deleted : ∀ k ∈ w.deleted, ¬Kept d w k ∧ ∃ t, UploadedAt w k t ∧ t + 82799 + d < w.now

/-- The delays that the hour between the deadline and the cutoff has to cover, and names that are
not used again. A collection takes its cutoff at most `c` seconds after it listed the objects; a
tree is uploaded at most `d` seconds after it was checked; and no part is uploaded under the name of
a deleted one, which a second attempt of the same random name would do. -/
def prompt (c d : Int) (w : World) : Label → Bool
  | .putPart i =>
    match (w.machines i).phase with
    | .putting _ u _ => !w.uploaded.contains (dataName u.state u.attempt (.ofNat u.part))
    | _ => true
  | .publish i =>
    match (w.machines i).phase with
    | .checked _ _ time => w.now ≤ time + d
    | _ => true
  | .takeCutoff i =>
    match w.collections i with
    | .reading listed _ _ _ => w.now ≤ listed + c
    | _ => true
  | _ => true

def promptRun (env : Env) (repo : Repo) (c d : Int) : World → List Label → Bool
  | _, [] => true
  | w, l :: labels => prompt c d w l && (step env repo w l).all (promptRun env repo c d · labels)

variable {i : String}

theorem grows_same (machines : String → Machine) (collections : String → Collection) :
    Grows w { w with machines := machines, collections := collections } :=
  ⟨le_refl _, fun _ _ ho => ho, fun _ _ hp => hp⟩

section

variable (h : GcInv c d env repo w)
include h

/-- A step that changes nothing but a machine. -/
theorem GcInv.setMachine (hm : MachineOk (gcFacts d w env repo) m) :
    GcInv c d env repo (w.setMachine i m) := by
  have g : Grows w (w.setMachine i m) := grows_same _ _
  refine ⟨h.parts, h.names, h.trees, .update g.facts_imp h.machines (hm.imp g.facts_imp),
    fun j => ?_, h.deleted⟩
  exact g.collectionOk (fun _ _ hp => .inl hp) (h.collections j)

/-- A step that changes nothing but a collection. -/
theorem GcInv.setCollection (hx : CollectionOk c w x) :
    GcInv c d env repo (w.setCollection i x) := by
  have g : Grows w (w.setCollection i x) := grows_same _ _
  refine ⟨h.parts, h.names, h.trees, fun j => (h.machines j).imp g.facts_imp, ?_, h.deleted⟩
  refine (Function.forall_update_iff _ fun _ => CollectionOk c _).2 ⟨?_, fun j _ => ?_⟩
  · exact g.collectionOk (fun _ _ hp => .inl hp) hx
  · exact g.collectionOk (fun _ _ hp => .inl hp) (h.collections j)

theorem GcInv.tick (n : Nat) : GcInv c d env repo { w with now := w.now + n } := by
  have g : Grows w { w with now := w.now + n } :=
    ⟨by simp, fun _ _ ho => ho, fun _ _ hp => hp⟩
  refine ⟨h.parts, h.names, h.trees, fun i => (h.machines i).imp g.facts_imp, fun i => ?_,
    fun k hk => ?_⟩
  · exact g.collectionOk (fun _ _ hp => .inl hp) (h.collections i)
  · exact g.gone (fun _ _ hp => .inl hp) (h.deleted k hk)

theorem GcInv.act (hframe : ∀ data base, env.compress data base ≠ []) {a : Action}
    (hs : act env repo w (w.machines i) a = some m') : GcInv c d env repo (w.setMachine i m') :=
  h.setMachine (act_ok (gcFacts_sound h.parts h.trees) (gcFacts_uploads hframe) (h.machines i) hs)

omit h in
/-- The upload after its current part is in the store. -/
theorem UploadOk.put (hu : UploadOk d w env repo s u) (g : Grows w w')
    (hat : UploadedAt w' (dataName u.state u.attempt (.ofNat u.part)) w.now) :
    UploadOk d w' env repo s { u with current := [], partEntries := [], part := u.part + 1 } := by
  have hu' := g.uploadOk hu
  refine { hu' with files := ?_, part := fun e he => nomatch he }
  refine hu'.files.imp fun _ e he l hl => ?_
  rcases he l hl with hk | (hown | ⟨hname, -⟩) | htentative
  · exact .inl hk
  · exact .inr (.inl (.inl hown))
  · exact .inr (.inl (.inl ⟨w.now, hname ▸ hat, hu.started⟩))
  · exact .inr (.inr htentative)

omit h in
theorem grows_insert (o : Object) (hnew : key ∉ w.uploaded) (machines : String → Machine) :
    Grows w { w with
      machines, parts := w.parts.insert key o
      uploaded := w.uploaded.insert key o } where
  now := le_refl _
  uploaded _ _ := getElem?_insert_of_new hnew
  trees _ _ hp := hp

/-- The name of the new part was never in use, so the times of other uploads stay. -/
theorem GcInv.putPart (hprompt : prompt c d w (.putPart i) = true)
    (hs : putPart w i = some w') : GcInv c d env repo w' := by
  unfold Push.putPart at hs
  dsimp only at hs
  split at hs
  case h_2 => cases hs
  case h_1 s u todo hphase =>
    have hu : UploadOk d w env repo s u := (h.machines i).phaseOf hphase
    simp only [prompt, hphase, Bool.not_eq_true', ← Bool.not_eq_true,
      Std.ExtTreeMap.contains_iff_mem] at hprompt
    split at hs
    case isTrue =>
      cases hs
      exact h.setMachine (h.machines i).abort
    case isFalse =>
      cases hs
      have g := grows_insert (w := w) ⟨u.current, w.now⟩ hprompt (Function.update w.machines i
        { w.machines i with
          phase :=
            .uploading s { u with current := [], partEntries := [], part := u.part + 1 } todo })
      have hat := (⟨_, getElem?_insert_self, rfl⟩ : UploadedAt { w with
        uploaded := w.uploaded.insert (dataName u.state u.attempt (.ofNat u.part))
          ⟨u.current, w.now⟩ } _ _)
      refine ⟨fun k o ho => ?_, h.names, h.trees.imp fun _ _ => g.keptTree, ?_, fun j => ?_,
        fun k hk => ?_⟩
      · rw [World.setMachine] at ho ⊢
        by_cases hkey : dataName u.state u.attempt (.ofNat u.part) = k
        · subst hkey
          rwa [getElem?_insert_self] at ho ⊢
        · rw [getElem?_insert_ne hkey] at ho ⊢
          exact h.parts k o ho
      · exact .update g.facts_imp h.machines
          (((h.machines i).imp g.facts_imp).setPhase (hu.put g hat))
      · exact g.collectionOk (fun _ _ hp => .inl hp) (h.collections j)
      · exact g.gone (fun _ _ hp => .inl hp) (h.deleted k hk)

omit h in
/-- The chains of an upload are in use once its tree is published. -/
theorem UploadOk.publish (hu : UploadOk d w env repo s u) (g : Grows w w')
    (ht : KeptTree d w' u.tree) :
    (gcFacts d w' env repo).published s u := by
  have hu' := g.uploadOk hu
  refine ⟨hu'.hashes.imp (fun sha chain hc => ?_) (fun _ _ _ => id) (fun _ _ => id), hu'.index,
    hu'.sessionBase, ht⟩
  rcases hc with hc | ⟨path, e, -, -, he, -, rfl, -⟩
  · exact hc
  · exact ht.files path e he

/-- The tree is published in time for each of its objects, and no collection has to know it. -/
theorem GcInv.publish (hprompt : prompt c d w (.publish i) = true)
    (hs : publish w i = some w') : GcInv c d env repo w' := by
  unfold Push.publish at hs
  dsimp only at hs
  split at hs
  case h_2 => cases hs
  case h_1 s u time hphase =>
    obtain ⟨hu, hcurrent, htime⟩ : (gcFacts d w env repo).checked s u time :=
      (h.machines i).phaseOf hphase
    simp only [prompt, hphase, decide_eq_true_eq] at hprompt
    split at hs
    case isTrue =>
      cases hs
      exact h.setMachine (h.machines i).abort
    case isFalse hnew =>
      cases hs
      obtain ⟨p, hp, htree, hmodified⟩ : ∃ p : Published, p = ⟨u.state, u.attempt,
        u.deltaBase.map fun b => (b.1, b.2.attempt), u.tree, w.now⟩ ∧ p.tree = u.tree ∧
            p.modified = w.now :=
        ⟨_, rfl, rfl, rfl⟩
      rw [← hp]
      have g : Grows w { w.setMachine i { w.machines i with phase := .published s u } with
          trees := w.trees.insert (treeName u.state u.attempt) p } :=
        ⟨le_refl _, fun _ _ ho => ho, fun _ _ =>
          getElem?_insert_of_new fun hmem => hnew (Std.ExtTreeMap.contains_iff_mem.2 hmem)⟩
      have hlate : ∀ (key : String) p', (w.trees.insert (treeName u.state u.attempt) p)[key]? =
        some p' →
          w.trees[key]? = some p' ∨ w.now ≤ p'.modified := fun key p' hp' => by
        rcases of_getElem?_insert hp' with ⟨-, rfl⟩ | ⟨-, hp'⟩
        · exact .inr hmodified.ge
        · exact .inl hp'
      have hkept := hu.kept_of_publish hcurrent htime hprompt g getElem?_insert_self htree hmodified
      refine ⟨h.parts, ?_, ?_, ?_, fun j => g.collectionOk hlate (h.collections j), fun k hk => ?_⟩
      · refine h.names.insert ?_
        rw [parseTreeName_treeName hu.names.1 hu.names.2]
        rfl
      · exact (h.trees.imp fun _ _ => g.keptTree).insert (htree ▸ hkept)
      · exact .update g.facts_imp h.machines
          (((h.machines i).imp g.facts_imp).setPhase (hu.publish g hkept))
      · exact g.gone hlate (h.deleted k hk)

/-- All trees are in the list, and each data object is there with the time of its upload. -/
theorem GcInv.listObjects (hs : listObjects w i = some w') : GcInv c d env repo w' := by
  unfold Push.listObjects at hs
  split at hs
  case h_2 => cases hs
  case h_1 =>
    cases hs
    refine h.setCollection ⟨le_refl _, fun e he hdata => ?_, fun key p hp => .inl ?_⟩
    · rcases mem_append.1 he with he | he
      · -- The name of a tree is not that of a data object.
        obtain ⟨x, hx, rfl⟩ := mem_map.1 he
        have hname : (parseTreeName x.1).isSome = true :=
          h.names x.1 x.2 (mem_toList_iff_getElem?_eq_some.1 hx)
        obtain ⟨v, hv⟩ := isSome_iff_exists.1 hdata
        rw [show parseTreeName x.1 = none from parseTreeName_eq_none hv] at hname
        cases hname
      · obtain ⟨x, hx, rfl⟩ := mem_map.1 he
        have ho := mem_toList_iff_getElem?_eq_some.1 hx
        exact ⟨x.2, h.parts x.1 x.2 ho, rfl⟩
    · obtain ⟨v, hv⟩ := isSome_iff_exists.1 (h.names key p hp)
      refine mem_filterMap.2 ⟨(key, p.modified), mem_append_left _ ?_, by rw [hv]; rfl⟩
      exact mem_map.2 ⟨(key, p), mem_toList_iff_getElem?_eq_some.2 hp, rfl⟩

theorem GcInv.readTree (hs : readTree w i = some w') : GcInv c d env repo w' := by
  unfold Push.readTree at hs
  split at hs
  case h_2 => cases hs
  case h_1 listed found key todo referenced hc =>
    obtain ⟨hle, hfound, htrees⟩ : CollectionOk c w
        (.reading listed found (key :: todo) referenced) :=
      hc ▸ h.collections i
    split at hs
    case h_2 =>
      cases hs
      exact h.setCollection trivial
    case h_1 p hp =>
      cases hs
      refine h.setCollection ⟨hle, hfound, fun key' p' hp' => ?_⟩
      rcases htrees key' p' hp' with hmem | hlate | hsub
      · rcases mem_cons.1 hmem with rfl | hmem
        · rw [hp] at hp'
          cases hp'
          exact .inr (.inr (subset_append_left _ _))
        · exact .inl hmem
      · exact .inr (.inl hlate)
      · exact .inr (.inr (subset_append_of_subset_right _ hsub))

/-- All listed trees are read, so what they do not refer to can only be in a later one. -/
theorem GcInv.takeCutoff (hprompt : prompt c d w (.takeCutoff i) = true)
    (hs : takeCutoff w i = some w') : GcInv c d env repo w' := by
  unfold Push.takeCutoff at hs
  split at hs
  case h_2 => cases hs
  case h_1 listed found referenced hc =>
    obtain ⟨hle, hfound, htrees⟩ : CollectionOk c w (.reading listed found [] referenced) :=
      hc ▸ h.collections i
    simp only [prompt, hc, decide_eq_true_eq] at hprompt
    cases hs
    refine h.setCollection ⟨listed, by omega, by omega, by omega, hfound, fun key p hp => ?_⟩
    exact (htrees key p hp).resolve_left fun hmem => nomatch hmem

theorem GcInv.examine (hs : examine w i = some w') : GcInv c d env repo w' := by
  unfold Push.examine at hs
  split at hs
  case h_1 =>
    cases hs
    exact h.setCollection trivial
  case h_3 => cases hs
  case h_2 cutoff key modified found referenced hc =>
    obtain ⟨listed, hsweep⟩ : CollectionOk c w
        (.sweeping cutoff ((key, modified) :: found) referenced) :=
      hc ▸ h.collections i
    have hrest : SweepOk c w cutoff listed found referenced :=
      { hsweep with found := fun e he => hsweep.found e (mem_cons_of_mem _ he) }
    split at hs
    case isTrue =>
      cases hs
      exact h.setCollection ⟨listed, hrest⟩
    case isFalse hkeeps =>
      cases hs
      unfold keeps at hkeeps
      split at hkeeps
      case h_1 => exact absurd rfl hkeeps
      case h_2 state attempt part hname =>
        simp only [Bool.or_eq_true, decide_eq_true_eq, not_or, not_le, contains_iff_mem] at hkeeps
        have hat := hsweep.found (key, modified) mem_cons_self (by rw [hname]; rfl)
        exact h.setCollection ⟨listed, hrest, hkeeps.1.2, modified, hat, hkeeps.1.1⟩

/-- The two delays leave no time for a tree that refers to the object. -/
theorem GcInv.deleteObject (hcd : c + d ≤ 3601) (hs : deleteObject w i = some w') :
    GcInv c d env repo w' := by
  unfold Push.deleteObject at hs
  split at hs
  case h_2 => cases hs
  case h_1 cutoff key found referenced hc =>
    obtain ⟨listed, hsweep, hk, t, hat, ht⟩ :
        CollectionOk c w (.deleting cutoff key found referenced) :=
      hc ▸ h.collections i
    cases hs
    have hdel := not_kept_of_sweep hcd hsweep hk hat ht
    have h' : GcInv c d env repo (w.setCollection i (.sweeping cutoff found referenced)) :=
      h.setCollection ⟨listed, hsweep⟩
    have g : Grows (w.setCollection i (.sweeping cutoff found referenced))
        { w.setCollection i (.sweeping cutoff found referenced) with
          parts := w.parts.erase key, deleted := key :: w.deleted } :=
      ⟨le_refl _, fun _ _ ho => ho, fun _ _ hp => hp⟩
    refine ⟨fun k o ho => h.parts k o ?_, h'.names, h'.trees,
      fun j => (h'.machines j).imp g.facts_imp,
        fun j => g.collectionOk (fun _ _ hp => .inl hp) (h'.collections j), fun k hmem => ?_⟩
    · exact (of_getElem?_erase ho).2
    · rcases mem_cons.1 hmem with rfl | hmem
      · exact ⟨hdel.1, t, hat, hdel.2⟩
      · exact h.deleted k hmem

/-! ## Every run -/

/-- Every step that is not late keeps the invariant. -/
theorem GcInv.step (hframe : ∀ data base, env.compress data base ≠ []) (hcd : c + d ≤ 3601)
    {l : Label} (hprompt : prompt c d w l = true) (hs : step env repo w l = some w') :
    GcInv c d env repo w' := by
  cases l with
  | tick n =>
    cases hs
    exact h.tick n
  | act i a =>
    obtain ⟨m', hm', rfl⟩ := map_eq_some_iff.1 hs
    exact h.act hframe hm'
  | putPart i => exact h.putPart hprompt hs
  | publish i => exact h.publish hprompt hs
  | listObjects i => exact h.listObjects hs
  | readTree i => exact h.readTree hs
  | takeCutoff i => exact h.takeCutoff hprompt hs
  | examine i => exact h.examine hs
  | deleteObject i => exact h.deleteObject hcd hs

end

theorem GcInv.init : GcInv c d env repo {} where
  parts _ _ ho := by
    cases ho
  names := .empty
  trees := .empty
  machines _ := ⟨fun _ hj => (nomatch hj), .empty, trivial⟩
  collections _ := trivial
  deleted _ hk := nomatch hk

/-- And so does a run, by induction on its steps. -/
theorem GcInv.run (hframe : ∀ data base, env.compress data base ≠ []) (hcd : c + d ≤ 3601)
    {labels : List Label} (h : GcInv c d env repo w)
    (hprompt : promptRun env repo c d w labels = true) (hr : run env repo w labels = some w') :
    GcInv c d env repo w' := by
  induction labels generalizing w with
  | nil =>
    cases hr
    exact h
  | cons l labels ih =>
    obtain ⟨w₁, hs, hr⟩ := bind_eq_some_iff.1 hr
    rw [promptRun, hs, Bool.and_eq_true] at hprompt
    exact ih (h.step hframe hcd hprompt.1 hs) hprompt.2 hr

/-- Pushes and collections in any interleaving, with crashes and attempts that use unpublished parts
again: when the two delays are an hour together, no deleted object is one that a published tree
refers to, whichever came first. -/
theorem deleted_unreferenced (hframe : ∀ data base, env.compress data base ≠ [])
    (hcd : c + d ≤ 3601) {labels : List Label} (hprompt : promptRun env repo c d {} labels = true)
    (hr : run env repo {} labels = some w) :
    ∀ k ∈ w.deleted, ∀ (key : String) p, w.trees[key]? = some p → k ∉ objects p.tree := by
  have h := GcInv.init.run hframe hcd hprompt hr
  intro k hk key p hp hmem
  exact (h.deleted k hk).1 (h.trees key p hp k hmem)

/-! ## A slow collection -/

namespace Slow

def single : Repo where
  root _ := (∅ : Snapshot).insert "a" (.file false [1])
  subvolume _ := false
  changes _ _ := []

def state : String := "01a12290-0000-7000-8000-000000000003"

def part : String := dataName state "00000000" 0

def stopped : List Label :=
  [.act "m" .openPush, .act "m" .loadHashes, .act "m" .ready,
    .act "m" (.beginUpload state "00000000" false [("a", ⟨.file, false⟩)]), .act "m" .visitNext,
    .act "m" .flush, .putPart "m", .act "m" .crash]

def resumed : List Label :=
  [.act "m" .openPush, .act "m" .loadHashes, .act "m" .validate, .act "m" .ready,
    .act "m" (.beginUpload state "00000001" false [("a", ⟨.file, false⟩)]), .act "m" .visitNext]

/-- The collection lists the objects an hour after the upload of the part. A tree that refers to the
part is published, and the cutoff is taken a day later. -/
def slow : List Label :=
  stopped ++ [.tick 3600, .listObjects "g"] ++ resumed ++
    [.act "m" .checkDeadline, .publish "m", .tick 86401, .takeCutoff "g", .examine "g",
      .deleteObject "g"]

theorem run_deletes :
    (∀ data base, Env.stored.decompress (Env.stored.compress data base) base = some data) ∧
    ∃ w, run Env.stored single {} slow = some w ∧ part ∈ w.deleted ∧
      ∃ (key : String) (p : Published), w.trees[key]? = some p ∧ part ∈ objects p.tree := by
  refine ⟨fun data base => rfl, ?_⟩
  have heval : (run Env.stored single {} slow).any (fun w => w.deleted.contains part &&
      w.trees[treeName state "00000001"]?.any fun p => (objects p.tree).contains part) = true := by
    decide +kernel
  obtain ⟨w, hw, hlost⟩ := (any_eq_true _ _).1 heval
  rw [Bool.and_eq_true] at hlost
  obtain ⟨p, hp, hmem⟩ := (any_eq_true _ _).1 hlost.2
  exact ⟨w, hw, contains_iff_mem.1 hlost.1, _, p, hp, contains_iff_mem.1 hmem⟩

/-- The collection runs through a day after the part was left, and the push is opened again. -/
def quick : List Label :=
  stopped ++ [.tick 90000, .listObjects "g", .takeCutoff "g", .examine "g", .deleteObject "g"] ++
    resumed ++
    [.act "m" .flush, .putPart "m", .act "m" .checkDeadline, .publish "m"]

theorem deleted_unreferenced_quick : ∃ w, run Env.stored single {} quick = some w ∧
    part ∈ w.deleted ∧
    w.trees.contains (treeName state "00000001") = true ∧
    ∀ k ∈ w.deleted, ∀ (key : String) p, w.trees[key]? = some p → k ∉ objects p.tree := by
  have heval : (run Env.stored single {} quick).any (fun w => w.deleted.contains part &&
      w.trees.contains (treeName state "00000001")) = true := by
    decide +kernel
  obtain ⟨w, hw, hdone⟩ := (any_eq_true _ _).1 heval
  rw [Bool.and_eq_true] at hdone
  refine ⟨w, hw, contains_iff_mem.1 hdone.1, hdone.2, ?_⟩
  exact deleted_unreferenced (c := 0) (d := 0) (fun _ _ => cons_ne_nil _ _) (by decide)
    (by decide +kernel) hw

end Slow

end Push

end Layr
