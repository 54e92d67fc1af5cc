import Layr.PushFacts

/-!
# A published tree is the state

Whatever a push takes from earlier ones (frames of equal contents, deltas to a base, a base tree
with a list of changes, parts of an attempt that crashed), each entry of a tree that it publishes is
read back as the content of its path (`published_reads`), its chain is at most `maxFileDeltas`
deltas on a full frame, and the tree is a delta of fewer than `fullTreeEvery` others.

The tree also has the files that a walk of the whole state gives, if the walk reaches every file
whose own path is not skipped. A walk does not go into a folder that has the name of a cache
journal; a list of changes names the files below it all the same, and they get into the tree
(`Pair.hidden_published`).

No object is deleted in the runs of this module.
-/

namespace Layr

namespace Push

open Format Maps List Option

/-! ## What is assumed -/

/-- `zstd` and SHA-256. A frame is not empty, and it is not much longer than its content. -/
structure Env.Lawful (env : Env) : Prop where
  decompress_compress : ∀ data base, env.decompress (env.compress data base) base = some data
  sha_injective : ∀ data data', env.sha data = env.sha data' → data = data'
  frame_ne : ∀ data base, env.compress data base ≠ []
  frame_length : ∀ data base, data.length < 2 ^ 62 → (env.compress data base).length < 2 ^ 63

def fileAt (root : Snapshot) (path : String) : Option Node :=
  root[path]?.filter fun node => node.meta.ftype != .dir

/-- A complete list of changes: it says what is at each path it names, and the other paths are as
they were. -/
structure Complete (a b : Snapshot) (changes : List Change) : Prop where
  new : ∀ c ∈ changes, c.new = (fileAt b c.path).map Node.meta
  moved : ∀ c ∈ changes, ∀ p, c.oldPath = some p → fileAt b p = none ∨ ∃ c' ∈ changes, c'.path = p
  same : ∀ p, (∀ c ∈ changes, c.path ≠ p ∧ c.oldPath ≠ some p) → fileAt a p = fileAt b p

/-- The lists of changes are complete, and the contents fit into the memory. -/
structure Repo.Lawful (repo : Repo) : Prop where
  complete : ∀ a b, Complete (repo.root a) (repo.root b) (repo.changes a b)
  fits : ∀ state (path : String) data, (repo.root state)[path]?.bind Node.bytes = some data →
    data.length < 2 ^ 62

/-! ## Chains that are read back -/

section

variable (env : Env) (parts : BTreeMap Object)

def Shaped : List Link → Prop
  | [] => False
  | [l] => l.kind = "full"
  | l :: chain => l.kind = "delta" ∧ Shaped chain

def Decodes (chain : List Link) (data : Bytes) : Prop :=
  ∀ limit, data.length ≤ limit → readChain env parts limit chain = some data

structure GoodChain (sha : String) (chain : List Link) : Prop where
  shaped : Shaped chain
  length : chain.length ≤ maxFileDeltas + 1
  decodes : ∃ data, env.sha data = sha ∧ Decodes env parts chain data

end

variable {env : Env} {repo : Repo} {parts parts' : BTreeMap Object} {w w' : World} {m m' : Machine}
  {s : Session} {u : Upload} {sha : String} {chain : List Link}

theorem readChain_cons (limit : Nat) (l : Link) (chain : List Link) :
    readChain env parts limit (l :: chain) =
      (readChain env parts decodeLimit chain).bind fun base =>
      (readFrame parts l).bind fun frame =>
        env.decompressWithLimit frame (if l.kind == "delta" then some base else none) limit := rfl

section

variable (hp : ∀ (k : String) o, parts[k]? = some o → parts'[k]? = some o)
include hp

theorem readFrame_mono {l : Link}
    {frame : Bytes} (h : readFrame parts l = some frame) : readFrame parts' l = some frame := by
  obtain ⟨o, ho, h⟩ := bind_eq_some_iff.1 h
  exact bind_eq_some_iff.2 ⟨o, hp _ _ ho, h⟩

variable {data : Bytes}

theorem readChain_mono {limit : Nat} (h : readChain env parts limit chain = some data) :
    readChain env parts' limit chain = some data := by
  induction chain generalizing limit data with
  | nil => exact h
  | cons l chain ih =>
    rw [readChain_cons] at h ⊢
    obtain ⟨base, hbase, h⟩ := bind_eq_some_iff.1 h
    obtain ⟨frame, hframe, h⟩ := bind_eq_some_iff.1 h
    rw [ih hbase, bind_some, readFrame_mono hp hframe, bind_some, h]

theorem GoodChain.mono (h : GoodChain env parts sha chain) : GoodChain env parts' sha chain := by
  obtain ⟨data, hsha, hdata⟩ := h.decodes
  exact ⟨h.shaped, h.length, data, hsha, fun limit hl => readChain_mono hp (hdata limit hl)⟩

end

/-- The limit does nothing but refuse a content that is too long. -/
theorem decodes_of_readChain {limit : Nat} (hshaped : Shaped chain)
    (h : readChain env parts limit chain = some data) : Decodes env parts chain data := by
  cases chain with
  | nil => cases hshaped
  | cons l chain =>
    intro limit' hlimit
    rw [readChain_cons] at h ⊢
    obtain ⟨base, hbase, h⟩ := bind_eq_some_iff.1 h
    obtain ⟨frame, hframe, h⟩ := bind_eq_some_iff.1 h
    rw [hbase, bind_some, hframe, bind_some]
    obtain ⟨hdata, -⟩ := filter_eq_some_iff.1 h
    exact filter_eq_some_iff.2 ⟨hdata, decide_eq_true hlimit⟩

variable {e : Entry}

theorem goodChain_of_read (hshaped : Shaped e.chain)
    (hlength : e.chain.length ≤ maxFileDeltas + 1) (h : (read env parts e).isSome = true) :
    GoodChain env parts e.sha e.chain := by
  obtain ⟨data, h⟩ := isSome_iff_exists.1 h
  obtain ⟨data', hread, h⟩ := bind_eq_some_iff.1 h
  obtain ⟨_, hguard, -⟩ := bind_eq_some_iff.1 h
  rw [guard_eq_some'] at hguard
  exact ⟨hshaped, hlength, data', hguard.2, decodes_of_readChain hshaped hread⟩

theorem GoodChain.read_eq (henv : env.Lawful) (h : GoodChain env parts e.sha e.chain)
    (hsha : e.sha = env.sha data) (hsize : e.size.toNat = data.length) :
    read env parts e = some data := by
  obtain ⟨data', hsha', hdata⟩ := h.decodes
  obtain rfl := henv.sha_injective data' data (hsha'.trans hsha)
  unfold read
  rw [hsize, hdata _ (le_refl _)]
  simp [hsha]

/-! ## Depths -/

section

variable {trees trees' : BTreeMap Published} {fuel fuel' n : Nat} {x b : String × String}
  {p : Published}

theorem treeDepth_full (hp : trees[treeName x.1 x.2]? = some p) (hbase : p.base = none) :
    treeDepth trees (fuel + 1) x = some 0 := by
  simp [treeDepth, hp, hbase]

theorem treeDepth_delta (hp : trees[treeName x.1 x.2]? = some p) (hbase : p.base = some b) :
    treeDepth trees (fuel + 1) x = (treeDepth trees fuel b).map (· + 1) := by
  simp only [treeDepth, hp, bind_eq_bind, bind_some, hbase]
  cases treeDepth trees fuel b <;> rfl

/-- A tree has its own depth, or one more than its base. -/
theorem treeDepth_cases (h : treeDepth trees (fuel + 1) x = some n) :
    ∃ p, trees[treeName x.1 x.2]? = some p ∧ (p.base = none ∧ n = 0 ∨
      ∃ b k, p.base = some b ∧ treeDepth trees fuel b = some k ∧ n = k + 1) := by
  obtain ⟨p, hp, -⟩ := bind_eq_some_iff.1 h
  refine ⟨p, hp, ?_⟩
  cases hbase : p.base with
  | none =>
    rw [treeDepth_full hp hbase] at h
    exact .inl ⟨rfl, (some.inj h).symm⟩
  | some b =>
    rw [treeDepth_delta hp hbase] at h
    obtain ⟨k, hk, rfl⟩ := map_eq_some_iff.1 h
    exact .inr ⟨b, k, rfl, hk, rfl⟩

theorem treeDepth_lt (h : treeDepth trees fuel x = some n) : n < fuel := by
  induction fuel generalizing x n with
  | zero => cases h
  | succ fuel ih =>
    obtain ⟨p, -, ⟨-, rfl⟩ | ⟨b, k, -, hk, rfl⟩⟩ := treeDepth_cases h
    · omega
    · have := ih hk
      omega

theorem treeDepth_mono (ht : ∀ (k : String) p, trees[k]? = some p → trees'[k]? = some p)
    (h : treeDepth trees fuel x = some n) (hfuel : n < fuel') :
    treeDepth trees' fuel' x = some n := by
  induction fuel generalizing x n fuel' with
  | zero => cases h
  | succ fuel ih =>
    obtain ⟨fuel', rfl⟩ := Nat.exists_eq_succ_of_ne_zero (Nat.ne_of_gt (Nat.zero_lt_of_lt hfuel))
    obtain ⟨p, hp, ⟨hbase, rfl⟩ | ⟨b, k, hbase, hk, rfl⟩⟩ := treeDepth_cases h
    · exact treeDepth_full (ht _ _ hp) hbase
    · rw [Nat.succ_eq_add_one, treeDepth_delta (ht _ _ hp) hbase, ih hk (by omega)]
      rfl

end

/-! ## The files of a state -/

def Node.core (env : Env) (node : Node) : Option (String × UInt64 × String) :=
  node.bytes.map fun data => (node.meta.gitMode, .ofNat data.length, env.sha data)

def coreOf (e : Entry) : String × UInt64 × String := (e.mode, e.size, e.sha)

/-- The files that a walk of the whole state finds. -/
def walkFiles (env : Env) (root : Snapshot) : BTreeMap (String × UInt64 × String) :=
  root.filterMap fun path node => if reached root path node && !skipPath path then node.core env
    else none

/-- The walk reaches every file whose own path is not skipped. -/
def Reaches (repo : Repo) : Prop :=
  ∀ state (path : String) node, (repo.root state)[path]? = some node → node.meta.ftype ≠ .dir →
    skipPath path = false → reached (repo.root state) path node = true

def EntryAt (env : Env) (root : Snapshot) (path : String) (e : Entry) : Prop :=
  ∃ node, fileAt root path = some node ∧ node.core env = some (coreOf e)

variable {node : Node}

theorem ftype_of_bytes (h : node.bytes = some data) : node.meta.ftype ≠ .dir := by
  cases node <;> simp [Node.bytes, Node.meta] at h ⊢

variable {path : String}

theorem fileAt_eq_some {root : Snapshot} :
    fileAt root path = some node ↔ root[path]? = some node ∧ node.meta.ftype ≠ .dir := by
  simp [fileAt]

/-- The entry of a file says its length and its hash. -/
theorem Repo.Lawful.entryAt (hrepo : repo.Lawful) {state : String}
    (h : EntryAt env (repo.root state) path e) :
    ∃ data, (repo.root state)[path]?.bind Node.bytes = some data ∧ e.size.toNat = data.length ∧
      e.sha = env.sha data := by
  obtain ⟨node, hnode, hcore⟩ := h
  obtain ⟨data, hbytes, hcore⟩ := map_eq_some_iff.1 hcore
  simp only [coreOf, Prod.mk.injEq] at hcore
  have hdata : (repo.root state)[path]?.bind Node.bytes = some data := by
    rw [(fileAt_eq_some.1 hnode).1]
    exact hbytes
  refine ⟨data, hdata, ?_, hcore.2.2.symm⟩
  rw [← hcore.2.1, UInt64.toNat_ofNat_of_lt']
  exact (hrepo.fits _ _ _ hdata).trans (by decide)

theorem getElem?_walkFiles (root : Snapshot) (path : String) : (walkFiles env root)[path]? =
    (fileAt root path).bind fun node =>
      if reached root path node && !skipPath path then node.core env else none := by
  rw [walkFiles, Std.ExtTreeMap.getElem?_filterMap]
  simp only [Std.ExtTreeMap.getKey_eq, pbind_eq_bind, fileAt]
  cases root[path]? with
  | none => rfl
  | some node =>
    cases node with
    | dir => exact ite_self _
    | _ => rfl

/-! ## What a push knows -/

section

variable (env : Env) (repo : Repo) (w : World)

def OwnChain (u : Upload) (sha : String) (chain : List Link) : Prop :=
  ∃ l rest data base, chain = l :: rest ∧ l.object = dataName u.state u.attempt (.ofNat u.part) ∧
    l.offset.toNat + l.length.toNat ≤ u.current.length ∧
    (u.current.drop l.offset.toNat).take l.length.toNat = env.compress data base ∧
    env.sha data = sha ∧ rest.length ≤ maxFileDeltas ∧
    (rest = [] ∧ base = none ∧ l.kind = "full" ∨
      ∃ old, base = some old ∧ l.kind = "delta" ∧ Shaped rest ∧ old.length ≤ decodeLimit ∧
        Decodes env w.parts rest old)

structure PublishedOk (p : Published) : Prop where
  files : Every (fun path e => EntryAt env (repo.root p.state) path e ∧
    GoodChain env w.parts e.sha e.chain) p.tree.files
  depth : ∃ depth, treeDepth w.trees fullTreeEvery (p.state, p.attempt) = some depth
  walk : Reaches repo → ∀ path : String, p.tree.files[path]?.map coreOf =
    (walkFiles env (repo.root p.state))[path]?

/-- A state in the index is published, with the tree and the depth that the index says. -/
def CachedOk (id : String) (c : Cached) : Prop :=
  ∃ p, w.trees[treeName id c.attempt]? = some p ∧ p.state = id ∧ p.attempt = c.attempt ∧
    ∀ t, c.tree = some t → t = p.tree ∧ treeDepth w.trees fullTreeEvery (id, c.attempt) =
      some c.depth

/-- A visited path that is not skipped is a file of the state, and the walk reaches it. -/
def VisitOk (state path : String) (m : Meta) : Prop :=
  (skipPath path || m.ftype == .dir) = false → ∃ node, (repo.root state)[path]? = some node ∧
    node.meta = m ∧ (Reaches repo → reached (repo.root state) path node = true)

/-- What is still to be visited: with it the files are those of a walk. -/
structure TodoOk (state : String) (files : BTreeMap Entry) (todo : List (String × Meta)) :
    Prop where
  visits : ∀ v ∈ todo, VisitOk repo state v.1 v.2
  walk : Reaches repo → ∀ path : String, files[path]?.map coreOf =
    (walkFiles env (repo.root state))[path]? ∨
      ∃ m, (path, m) ∈ todo ∧ (skipPath path || m.ftype == .dir) = false

abbrev KnownChain (u : Upload) (sha : String) (chain : List Link) : Prop :=
  GoodChain env w.parts sha chain ∨ OwnChain env w u sha chain

abbrev TreesOk : Prop := Every (fun _ p => PublishedOk env repo w p) w.trees

structure UploadGood (s : Session) (u : Upload) (todo : List (String × Meta)) : Prop where
  hashes : s.hashes.Holds
    (fun sha chain => GoodChain env w.parts sha chain ∨ OwnChain env w u sha chain)
    (fun sha chain _ => GoodChain env w.parts sha chain) fun _ e =>
      GoodChain env w.parts e.sha e.chain
  index : Every (CachedOk w) s.index
  sessionBase : ∀ b, s.base = some b → CachedOk w b.1 b.2.cached
  base : ∀ b, u.base = some b → CachedOk w b.1 b.2.cached
  names : isUuid u.state = true ∧ validAttempt u.attempt = true
  current : u.current.length < 2 ^ 63
  files : Every (fun path e => EntryAt env (repo.root u.state) path e ∧
    (GoodChain env w.parts e.sha e.chain ∨ OwnChain env w u e.sha e.chain)) u.files
  part : ∀ e ∈ u.partEntries, Shaped e.chain ∧ e.chain.length ≤ maxFileDeltas + 1
  todo : TodoOk env repo u.state u.files todo

def contentFacts : Facts where
  chain := GoodChain env w.parts
  tentative sha chain _ := GoodChain env w.parts sha chain
  row _ e := Shaped e.chain ∧ e.chain.length ≤ maxFileDeltas + 1
  part _ e := GoodChain env w.parts e.sha e.chain
  completed id done := ∃ p, w.trees[treeName id done.1]? = some p ∧ p.state = id ∧
    p.attempt = done.1 ∧
    treeDepth w.trees fullTreeEvery (id, done.1) = some done.2
  cached := CachedOk w
  upload := UploadGood env repo w
  checked s u _ := UploadGood env repo w s u [] ∧ u.current = []
  published s u := s.hashes.Holds (GoodChain env w.parts)
    (fun sha chain _ => GoodChain env w.parts sha chain)
      (fun _ e => GoodChain env w.parts e.sha e.chain) ∧
    Every (CachedOk w) s.index ∧ (∀ b, s.base = some b → CachedOk w b.1 b.2.cached) ∧
    CachedOk w u.state u.pushed.cached

end

/-! ## More in the store -/

structure Extends (w w' : World) : Prop where
  parts : ∀ (k : String) o, w.parts[k]? = some o → w'.parts[k]? = some o
  trees : ∀ (k : String) p, w.trees[k]? = some p → w'.trees[k]? = some p

variable {todo : List (String × Meta)} {p : Published}

namespace Extends

variable (g : Extends w w')
include g

theorem goodChain (h : GoodChain env w.parts sha chain) : GoodChain env w'.parts sha chain :=
  h.mono g.parts

theorem treeDepth {x : String × String} {n : Nat}
    (h : Push.treeDepth w.trees fullTreeEvery x = some n) :
    Push.treeDepth w'.trees fullTreeEvery x = some n :=
  treeDepth_mono g.trees h (treeDepth_lt h)

theorem ownChain (h : OwnChain env w u sha chain) : OwnChain env w' u sha chain := by
  obtain ⟨l, rest, data, base, hchain, hl, hbound, hframe, hsha, hlength, hrest⟩ := h
  refine ⟨l, rest, data, base, hchain, hl, hbound, hframe, hsha, hlength, hrest.imp id ?_⟩
  rintro ⟨old, hbase, hkind, hshaped, hold, hdecodes⟩
  exact ⟨old, hbase, hkind, hshaped, hold, fun limit hlimit =>
    readChain_mono g.parts (hdecodes limit hlimit)⟩

theorem publishedOk (h : PublishedOk env repo w p) : PublishedOk env repo w' p where
  files := h.files.imp fun _ _ he => ⟨he.1, g.goodChain he.2⟩
  depth := h.depth.imp fun _ => g.treeDepth
  walk := h.walk

theorem cachedOk {id : String} {c : Cached} (h : CachedOk w id c) : CachedOk w' id c := by
  obtain ⟨p, hp, hstate, hattempt, htree⟩ := h
  exact ⟨p, g.trees _ p hp, hstate, hattempt, fun t ht => (htree t ht).imp_right g.treeDepth⟩

theorem uploadGood (h : UploadGood env repo w s u todo) : UploadGood env repo w' s u todo where
  hashes := h.hashes.imp (fun _ _ => Or.imp g.goodChain g.ownChain)
    (fun _ _ _ => g.goodChain) fun _ _ => g.goodChain
  index := h.index.imp fun _ _ => g.cachedOk
  sessionBase b hb := g.cachedOk (h.sessionBase b hb)
  base b hb := g.cachedOk (h.base b hb)
  __ := h
  files := h.files.imp fun _ _ he => ⟨he.1, he.2.imp g.goodChain g.ownChain⟩

theorem facts_imp : (contentFacts env repo w).Imp (contentFacts env repo w') where
  chain _ _ := g.goodChain
  tentative _ _ _ := g.goodChain
  row _ _ := id
  part _ _ := g.goodChain
  completed id done h := by
    obtain ⟨p, hp, hstate, hattempt, hdepth⟩ := h
    exact ⟨p, g.trees _ p hp, hstate, hattempt, g.treeDepth hdepth⟩
  cached _ _ := g.cachedOk
  upload _ _ _ := g.uploadGood
  checked _ _ _ := And.imp_left g.uploadGood
  published s u := by
    rintro ⟨hh, hi, hb, hc⟩
    exact ⟨hh.imp (fun _ _ => g.goodChain) (fun _ _ _ => g.goodChain) fun _ _ => g.goodChain,
      hi.imp fun _ _ => g.cachedOk, fun b hb' => g.cachedOk (hb b hb'), g.cachedOk hc⟩

end Extends

/-! ## The facts and the store -/

def TreeNamed (key : String) (p : Published) : Prop :=
  key = treeName p.state p.attempt ∧ isUuid p.state = true ∧ validAttempt p.attempt = true

theorem contentFacts_sound (hnames : Every TreeNamed w.trees) (htrees : TreesOk env repo w) :
    (contentFacts env repo w).Sound env w where
  files id c t hc ht := by
    obtain ⟨p, hp, -, -, htree⟩ := hc
    obtain ⟨rfl, -⟩ := htree t ht
    exact (htrees _ p hp).files.imp fun _ _ he => he.2
  referred _ _ _ _ _ _ _ _ he := he
  valid object o es _ hrow hread e he := by
    have hgood := goodChain_of_read (hrow e he).1 (hrow e he).2 (hread e he)
    exact ⟨hgood, hgood⟩
  tree id c p depth hc hp hdepth := by
    obtain ⟨p', hp', hstate, hattempt, -⟩ := hc
    rw [hp] at hp'
    cases hp'
    refine ⟨⟨p, hp, hstate, hattempt, fun t ht => ?_⟩, p, hp, hstate, hattempt, hdepth⟩
    exact ⟨(some.inj ht).symm, hdepth⟩
  listed id attempt h := by
    obtain ⟨found, hfind, rfl⟩ := map_eq_some_iff.1 h
    have hid := find?_some hfind
    obtain ⟨e, he, hparse⟩ := mem_filterMap.1 (mem_of_find?_eq_some hfind)
    have hp := mem_toList_iff_getElem?_eq_some.1 he
    obtain ⟨hkey, hstate, hattempt⟩ := hnames e.1 e.2 hp
    rw [hkey, parseTreeName_treeName hstate hattempt] at hparse
    cases hparse
    obtain rfl : e.2.state = id := beq_iff_eq.1 hid
    exact ⟨e.2, hkey ▸ hp, rfl, rfl, fun t ht => nomatch ht⟩
  depth id c depth hc hdepth := by
    obtain ⟨p, hp, hstate, hattempt, htree⟩ := hc
    exact ⟨p, hp, hstate, hattempt, fun t ht => ⟨(htree t ht).1, hdepth⟩⟩
  completed id attempt depth c hdone hc := by
    obtain ⟨p, hp, hstate, hattempt, hdepth⟩ := hdone
    refine ⟨p, hp, hstate, hattempt, fun t ht => ⟨?_, hdepth⟩⟩
    obtain ⟨_, p', hp', -, -, htree⟩ := hc t ht
    rw [show w.trees[treeName id attempt]? = some p from hp] at hp'
    cases hp'
    exact (htree t rfl).1

/-! ## The start of an upload -/

variable {files : BTreeMap Entry}

theorem getElem?_keptFiles {changes : List Change} : (keptFiles files changes)[path]? =
      if ∀ c ∈ changes, c.path ≠ path ∧ c.oldPath ≠ some path then files[path]? else none := by
  induction changes generalizing files with
  | nil => simp [keptFiles]
  | cons c changes ih =>
    have hstep : (((c.oldPath.map files.erase).getD files).erase c.path)[path]? =
        if c.path ≠ path ∧ c.oldPath ≠ some path then files[path]? else none := by
      rw [getElem?_erase]
      by_cases hpath : c.path = path
      · simp [hpath]
      cases hold : c.oldPath with
      | none => simp [hpath]
      | some old =>
        by_cases heq : old = path
        · simp [hpath, heq]
        · simp [hpath, heq, getElem?_erase]
    rw [keptFiles, foldl_cons, ← keptFiles, ih, hstep]
    by_cases hc : c.path ≠ path ∧ c.oldPath ≠ some path
    · simp only [forall_mem_cons, if_pos hc]
      congr 1
      exact propext ⟨fun h => ⟨hc, h⟩, fun h => h.2⟩
    · rw [if_neg hc, ite_self, if_neg fun h => hc (h c mem_cons_self)]

variable {path : String}

/-- A path that the list does not name has the same file, and the walk finds it in both states. -/
theorem walkFiles_same (hrepo : repo.Lawful) (hreach : Reaches repo) {a b : String}
    (hsame : ∀ c ∈ repo.changes a b, c.path ≠ path ∧ c.oldPath ≠ some path) :
    (walkFiles env (repo.root a))[path]? = (walkFiles env (repo.root b))[path]? := by
  have hfile := (hrepo.complete a b).same path hsame
  rw [getElem?_walkFiles, getElem?_walkFiles, ← hfile]
  cases hnode : fileAt (repo.root a) path with
  | none => rfl
  | some node =>
    have hnode' := hnode
    rw [hfile] at hnode'
    obtain ⟨ha, hdir⟩ := fileAt_eq_some.1 hnode
    obtain ⟨hb, -⟩ := fileAt_eq_some.1 hnode'
    simp only [bind_some]
    cases hskip : skipPath path with
    | true => simp
    | false => rw [hreach a path node ha hdir hskip, hreach b path node hb hdir hskip]

/-- A path that the list names: its file, if it has one, is visited. -/
theorem mem_visits_of_named (hrepo : repo.Lawful) {a b : String} {c : Change}
    (hc : c ∈ repo.changes a b) (hnamed : c.path = path ∨ c.oldPath = some path)
    (hnode : fileAt (repo.root b) path = some node) :
    ∃ c' ∈ repo.changes a b, c'.path = path ∧ c'.new = some node.meta := by
  have hcomplete := hrepo.complete a b
  have hpath : ∃ c' ∈ repo.changes a b, c'.path = path := by
    rcases hnamed with hpath | hold
    · exact ⟨c, hc, hpath⟩
    · rcases hcomplete.moved c hc path hold with hnone | h
      · rw [hnone] at hnode
        cases hnode
      · exact h
  obtain ⟨c', hc', rfl⟩ := hpath
  refine ⟨c', hc', rfl, ?_⟩
  rw [hcomplete.new c' hc', hnode]
  rfl

theorem todoOk_walk (state : String) : TodoOk env repo state ∅ (walkState (repo.root state)) where
  visits v hv _ := by
    obtain ⟨e, he, rfl⟩ := mem_map.1 hv
    rw [mem_filter, mem_toList_iff_getElem?_eq_some] at he
    exact ⟨e.2, he.1, rfl, fun _ => he.2⟩
  walk _ path := by
    rw [getElem?_empty, getElem?_walkFiles]
    cases hnode : fileAt (repo.root state) path with
    | none => exact .inl rfl
    | some node =>
      obtain ⟨hget, hdir⟩ := fileAt_eq_some.1 hnode
      by_cases hwalk : (reached (repo.root state) path node && !skipPath path) = true
      · rw [Bool.and_eq_true, Bool.not_eq_true'] at hwalk
        refine .inr ⟨node.meta, mem_map.2 ⟨(path, node), mem_filter.2 ⟨?_, hwalk.1⟩, rfl⟩, ?_⟩
        · exact mem_toList_iff_getElem?_eq_some.2 hget
        · simp [hwalk.2, hdir]
      · rw [bind_some, if_neg hwalk]
        exact .inl rfl

/-- The tree of a base and the changes since. -/
theorem todoOk_delta (hrepo : repo.Lawful) (hp : PublishedOk env repo w p) (state : String) :
    TodoOk env repo state (keptFiles p.tree.files (repo.changes p.state state))
      ((repo.changes p.state state).filterMap fun c => c.new.map fun m => (c.path, m)) where
  visits v hv hskip := by
    obtain ⟨c, hc, hv⟩ := mem_filterMap.1 hv
    obtain ⟨m, hm, rfl⟩ := map_eq_some_iff.1 hv
    rw [(hrepo.complete p.state state).new c hc] at hm
    obtain ⟨node, hnode, rfl⟩ := map_eq_some_iff.1 hm
    obtain ⟨hget, hdir⟩ := fileAt_eq_some.1 hnode
    rw [Bool.or_eq_false_iff] at hskip
    exact ⟨node, hget, rfl, fun hreach => hreach state c.path node hget hdir hskip.1⟩
  walk hreach path := by
    rw [getElem?_keptFiles]
    split
    case isTrue hsame =>
      rw [hp.walk hreach path]
      exact .inl (walkFiles_same hrepo hreach hsame)
    case isFalse hnamed =>
      rw [getElem?_walkFiles]
      cases hnode : fileAt (repo.root state) path with
      | none => exact .inl rfl
      | some node =>
        simp only [not_forall, not_and_or, not_not] at hnamed
        obtain ⟨c, hc, hnamed⟩ := hnamed
        obtain ⟨c', hc', hpath, hnew⟩ := mem_visits_of_named hrepo hc hnamed hnode
        cases hskip : skipPath path with
        | true => simp
        | false =>
          refine .inr ⟨node.meta, mem_filterMap.2 ⟨c', hc', ?_⟩, ?_⟩
          · rw [hnew, hpath]
            rfl
          · simp [(fileAt_eq_some.1 hnode).2]

variable {state : String}

theorem TodoOk.perm {todo todo' : List (String × Meta)}
    (h : TodoOk env repo state files todo) (hp : todo'.Perm todo) :
    TodoOk env repo state files todo' where
  visits v hv := h.visits v (hp.mem_iff.1 hv)
  walk hreach path := (h.walk hreach path).imp id fun ⟨m, hm, hskip⟩ => ⟨m, hp.mem_iff.2 hm, hskip⟩

variable {base : Option (String × Pushed)}

/-- The files that an upload starts from, and what it visits. -/
theorem startFiles_ok (hrepo : repo.Lawful) (htrees : TreesOk env repo w)
    (hcached : ∀ b, base = some b → CachedOk w b.1 b.2.cached) (state attempt : String)
    (now : Int) :
    Every (fun path e => EntryAt env (repo.root state) path e ∧ GoodChain env w.parts e.sha e.chain)
        (startUpload repo state attempt now base).files ∧
      TodoOk env repo state (startUpload repo state attempt now base).files
        (visits repo state base) := by
  simp only [startUpload, visits]
  cases hdelta : deltaRoot repo state base with
  | none => exact ⟨Every.empty, todoOk_walk state⟩
  | some b =>
    obtain ⟨p, hp, hstate, -, htree⟩ := hcached b (filter_eq_some_iff.1 hdelta).1
    obtain ⟨htree, -⟩ := htree b.2.tree rfl
    simp only [htree, ← hstate]
    have hpub := htrees _ p hp
    refine ⟨fun path e he => ?_, todoOk_delta hrepo hpub state⟩
    rw [getElem?_keptFiles] at he
    split at he
    case isFalse => cases he
    case isTrue hsame =>
      obtain ⟨⟨node, hnode, hcore⟩, hgood⟩ := hpub.files path e he
      rw [(hrepo.complete p.state state).same path hsame] at hnode
      exact ⟨⟨node, hnode, hcore⟩, hgood⟩

theorem uploadGood_start (hrepo : repo.Lawful) (htrees : TreesOk env repo w)
    (hs : SessionOk (contentFacts env repo w) s) {attempt : String} {order : List (String × Meta)}
    (hbase : base = s.base ∨ base = none)
    (hnames : isUuid state = true ∧ validAttempt attempt = true)
    (horder : order.Perm (visits repo state base)) :
    UploadGood env repo w s (startUpload repo state attempt w.now base) order := by
  have hcached : ∀ b, base = some b → CachedOk w b.1 b.2.cached := fun b hb => by
    rcases hbase with rfl | rfl
    · exact hs.base b hb
    · cases hb
  have hhashes : s.hashes.Holds (KnownChain env w (startUpload repo state attempt w.now base))
      (fun sha chain _ => GoodChain env w.parts sha chain) fun _ e =>
          GoodChain env w.parts e.sha e.chain :=
    hs.hashes.imp (fun _ _ => .inl) (fun _ _ _ => id) fun _ _ => id
  obtain ⟨hfiles, htodo⟩ := startFiles_ok hrepo htrees hcached state attempt w.now
  exact ⟨hhashes, hs.index, hs.base, hcached, hnames, Nat.two_pow_pos _,
    hfiles.imp fun _ _ he => ⟨he.1, .inl he.2⟩, fun e he => (nomatch he), htodo.perm horder⟩

/-! ## A visited file -/

variable {file : Meta}

variable (env) in
/-- The file at a visited path has the entry that the visit makes. -/
theorem VisitOk.entry (hv : VisitOk repo state path file)
    (hskip : (skipPath path || file.ftype == .dir) = false)
    (hdata : content (repo.root state) path file.gitMode = some data) : ∃ node,
      fileAt (repo.root state) path = some node ∧
      node.core env = some (file.gitMode, .ofNat data.length, env.sha data) ∧
      (Reaches repo → reached (repo.root state) path node = true) := by
  obtain ⟨node, hnode, rfl, hreached⟩ := hv hskip
  have hbytes := bytes_of_content hdata
  rw [hnode, bind_some] at hbytes
  refine ⟨node, fileAt_eq_some.2 ⟨hnode, ftype_of_bytes hbytes⟩, ?_, hreached⟩
  rw [Node.core, hbytes]
  rfl

theorem TodoOk.visited (h : TodoOk env repo state files ((path, file) :: todo))
    (hskip : (skipPath path || file.ftype == .dir) = false)
    (hdata : content (repo.root state) path file.gitMode = some data)
    (he : coreOf e = (file.gitMode, .ofNat data.length, env.sha data)) :
    TodoOk env repo state (files.insert path e) todo where
  visits v hv := h.visits v (mem_cons_of_mem _ hv)
  walk hreach path' := by
    by_cases hpath : path = path'
    · subst hpath
      obtain ⟨node, hnode, hcore, hreached⟩ :=
        (h.visits _ mem_cons_self).entry env hskip hdata
      rw [Bool.or_eq_false_iff] at hskip
      left
      rw [getElem?_insert_self, getElem?_walkFiles, hnode, bind_some, hreached hreach, hskip.1,
        map_some, he]
      exact hcore.symm
    · rw [getElem?_insert_ne hpath]
      rcases h.walk hreach path' with hdone | ⟨m, hm, hskip'⟩
      · exact .inl hdone
      · rcases mem_cons.1 hm with heq | hm
        · exact absurd (congrArg Prod.fst heq).symm hpath
        · exact .inr ⟨m, hm, hskip'⟩

theorem TodoOk.skipped (h : TodoOk env repo state files ((path, file) :: todo))
    (hskip : (skipPath path || file.ftype == .dir) = true) : TodoOk env repo state files todo where
  visits v hv := h.visits v (mem_cons_of_mem _ hv)
  walk hreach path' := by
    rcases h.walk hreach path' with hdone | ⟨m, hm, hskip'⟩
    · exact .inl hdone
    rcases mem_cons.1 hm with heq | hm
    · obtain ⟨rfl, rfl⟩ := Prod.mk.inj heq
      rw [hskip] at hskip'
      cases hskip'
    · exact .inr ⟨m, hm, hskip'⟩

theorem UploadGood.known (hu : UploadGood env repo w s u ((path, file) :: todo))
    (hskip : (skipPath path || file.ftype == .dir) = false)
    (hdata : content (repo.root u.state) path file.gitMode = some data)
    (hget : s.hashes.get (env.sha data) = some chain) : UploadGood env repo w s
      { u with
        files := u.files.insert path ⟨file.gitMode, .ofNat data.length, env.sha data, chain⟩ }
          todo := by
  have hchain : KnownChain env w u (env.sha data) chain := by
    rcases or_eq_some_iff.1 hget with hentries | ⟨-, htentative⟩
    · exact hu.hashes.entries _ _ hentries
    · obtain ⟨v, hv, rfl⟩ := map_eq_some_iff.1 htentative
      exact .inl (hu.hashes.tentative _ v hv)
  obtain ⟨node, hnode, hcore, -⟩ :=
    (hu.todo.visits _ mem_cons_self).entry env hskip hdata
  exact { hu with
    files := hu.files.insert ⟨⟨node, hnode, hcore⟩, hchain⟩
    todo := hu.todo.visited hskip hdata rfl }

/-- What is in the current part stays there when a frame is put after it. -/
theorem OwnChain.append (h : OwnChain env w u sha chain) (frame : Bytes) :
    OwnChain env w (addFrame u path frame e) sha chain := by
  obtain ⟨l, rest, data, base, hchain, hl, hbound, hframe, hrest⟩ := h
  refine ⟨l, rest, data, base, hchain, hl, ?_, ?_, hrest⟩
  · have : (u.current ++ frame).length = u.current.length + frame.length := length_append
    change _ ≤ (u.current ++ frame).length
    omega
  · change ((u.current ++ frame).drop l.offset.toNat).take l.length.toNat = _
    rw [drop_append_of_le_length (by omega), take_append_of_le_length, hframe]
    rw [length_drop]
    omega

theorem OwnChain.shape (h : OwnChain env w u sha chain) :
    Shaped chain ∧ chain.length ≤ maxFileDeltas + 1 := by
  obtain ⟨l, rest, _, _, rfl, -, -, -, -, hlength, hrest⟩ := h
  refine ⟨?_, by rw [length_cons]; omega⟩
  rcases hrest with ⟨rfl, -, hkind⟩ | ⟨_, -, hkind, hshaped, -, -⟩
  · exact hkind
  · cases rest with
    | nil => cases hshaped
    | cons => exact ⟨hkind, hshaped⟩

section

variable (henv : env.Lawful) (hrepo : repo.Lawful) (htrees : TreesOk env repo w)
include henv hrepo htrees

/-- The chain that the base has at a path can be the base of a delta. -/
theorem UploadGood.base_chain (hu : UploadGood env repo w s u todo) {b : String × Pushed}
    {previous : Entry} {old : Bytes} (hb : u.base = some b)
    (hprevious : b.2.tree.files[path]? = some previous)
    (hsize : previous.size.toNat ≤ deltaLimit) (hsha : env.sha old = previous.sha) :
    Shaped previous.chain ∧ old.length ≤ decodeLimit ∧ Decodes env w.parts previous.chain old := by
  obtain ⟨p, hp, -, -, htree⟩ := hu.base b hb
  obtain ⟨htree, -⟩ := htree b.2.tree rfl
  rw [htree] at hprevious
  obtain ⟨hat, hgood⟩ := (htrees _ p hp).files path previous hprevious
  obtain ⟨data, hdata, hdecodes⟩ := hgood.decodes
  obtain rfl := henv.sha_injective data old (hdata.trans hsha.symm)
  obtain ⟨data', -, hlength, hsha'⟩ := hrepo.entryAt hat
  obtain rfl := henv.sha_injective data data' (hsha.trans hsha')
  refine ⟨hgood.shaped, ?_, hdecodes⟩
  rw [← hlength]
  exact hsize.trans (by decide)

variable {f : Bytes × List Link}

/-- The chain of a new frame. -/
theorem UploadGood.ownChain_next (hu : UploadGood env repo w s u todo)
    (hfits : data.length < 2 ^ 62) (hf : frame env repo u.base path data = f) :
    OwnChain env w (addFrame u path f.1 e) (env.sha data) (nextLink u f.1 f.2 :: f.2) := by
  have hcurrent := hu.current
  have hoffset : (nextLink u f.1 f.2).offset.toNat = u.current.length :=
    UInt64.toNat_ofNat_of_lt' (hcurrent.trans (by decide))
  have hnext : ∀ base, f.1 = env.compress data base →
      (nextLink u f.1 f.2).offset.toNat + (nextLink u f.1 f.2).length.toNat ≤
        (u.current ++ f.1).length ∧
      ((u.current ++ f.1).drop (nextLink u f.1 f.2).offset.toNat).take
        (nextLink u f.1 f.2).length.toNat =
        env.compress data base := fun base hframe => by
    have hlength : (nextLink u f.1 f.2).length.toNat = f.1.length := by
      refine UInt64.toNat_ofNat_of_lt' ?_
      rw [hframe]
      exact (henv.frame_length data base hfits).trans (by decide)
    rw [hoffset, hlength, drop_left, take_length, length_append]
    exact ⟨le_refl _, hframe⟩
  rcases frame_cases env repo u.base path data with
    heq | ⟨b, previous, old, hb, hprevious, hlength, hsize, -, -, hsha, heq⟩
  · rw [hf] at heq
    subst heq
    obtain ⟨hbound, hframe⟩ := hnext none rfl
    exact ⟨_, [], data, none, rfl, rfl, hbound, hframe, rfl, Nat.zero_le _, .inl ⟨rfl, rfl, rfl⟩⟩
  rw [hf] at heq
  subst heq
  obtain ⟨hbound, hframe⟩ := hnext (some old) rfl
  obtain ⟨hshaped, hold, hdecodes⟩ := hu.base_chain henv hrepo htrees hb hprevious hsize hsha
  have hkind : (nextLink u (env.compress data (some old)) previous.chain).kind = "delta" := by
    cases hchain : previous.chain with
    | nil =>
      rw [hchain] at hshaped
      cases hshaped
    | cons => rfl
  exact ⟨_, previous.chain, data, some old, rfl, rfl, hbound, hframe, rfl, hlength,
    .inr ⟨old, rfl, hkind, hshaped, hold, hdecodes⟩⟩

/-- The frame of a new content is read back from the end of the current part, which has room for it.
-/
theorem UploadGood.added (hu : UploadGood env repo w s u ((path, file) :: todo))
    (hskip : (skipPath path || file.ftype == .dir) = false)
    (hdata : content (repo.root u.state) path file.gitMode = some data)
    (hf : frame env repo u.base path data = f) (hfull : full u f.1 = false) : UploadGood env repo w
      { s with hashes := s.hashes.insert (env.sha data) (nextLink u f.1 f.2 :: f.2) }
      (addFrame u path f.1
          ⟨file.gitMode, .ofNat data.length, env.sha data, nextLink u f.1 f.2 :: f.2⟩) todo := by
  generalize he : Entry.mk file.gitMode (.ofNat data.length) (env.sha data)
    (nextLink u f.1 f.2 :: f.2) = e
  have hfits := hrepo.fits u.state path data (bytes_of_content hdata)
  have hown := hu.ownChain_next henv hrepo htrees (e := e) hfits hf
  have hmono : ∀ sha chain, KnownChain env w u sha chain →
      KnownChain env w (addFrame u path f.1 e) sha chain :=
    fun _ _ => Or.imp_right (·.append f.1)
  obtain ⟨node, hnode, hcore, -⟩ := (hu.todo.visits _ mem_cons_self).entry env hskip hdata
  refine ⟨?_, hu.index, hu.sessionBase, hu.base, hu.names, ?_, ?_, ?_, ?_⟩
  · exact (hu.hashes.imp hmono (fun _ _ _ => id) fun _ _ => id).insert (.inr hown)
  · change (u.current ++ f.1).length < 2 ^ 63
    rw [length_append]
    rcases hcurrent : u.current with _ | ⟨x, xs⟩
    · have hlt : f.1.length < 2 ^ 63 := by
        rw [← hf]
        rcases frame_cases env repo u.base path
          data with heq | ⟨_, _, _, -, -, -, -, -, -, -, heq⟩ <;>
        · rw [heq]
          exact henv.frame_length _ _ hfits
      simpa using hlt
    · have hroom : (x :: xs).length + f.1.length ≤ partLimit := by
        simpa [full, hcurrent] using hfull
      exact lt_of_le_of_lt hroom (by decide)
  · subst he
    refine (hu.files.imp fun path' e' he' => ⟨he'.1, hmono _ _ he'.2⟩).insert
      ⟨⟨node, hnode, hcore⟩, .inr hown⟩
  · intro e' he'
    rcases mem_append.1 he' with he' | he'
    · exact hu.part e' he'
    · obtain rfl := mem_singleton.1 he'
      subst he
      exact hown.shape
  · subst he
    exact hu.todo.visited hskip hdata rfl

theorem contentFacts_uploads : (contentFacts env repo w).Uploads env repo w where
  start s state attempt base order hs hstate hattempt hbase horder :=
    uploadGood_start hrepo htrees hs hbase ⟨hstate, hattempt⟩ horder
  visit s u path m todo h u' hu hv := by
    cases hv with
    | skipped hskip => exact { hu with todo := hu.todo.skipped hskip }
    | known data chain hskip hdata hget => exact hu.known hskip hdata hget
    | added data f hskip hdata _ hf hfull => exact hu.added henv hrepo htrees hskip hdata hf hfull
  part s u todo hu := hu.part
  check s u hu hcurrent _ := ⟨hu, hcurrent⟩
  published s u hp := by
    obtain ⟨hh, hi, hb, hc⟩ := hp
    refine ⟨⟨hh, hi, hb⟩, hc, ?_⟩
    obtain ⟨p, hp, hstate, hattempt, htree⟩ := hc
    exact ⟨p, hp, hstate, hattempt, (htree u.tree rfl).2⟩

end

/-! ## Every run -/

structure ContentInv (env : Env) (repo : Repo) (w : World) : Prop where
  names : Every TreeNamed w.trees
  trees : Every (fun _ p => PublishedOk env repo w p) w.trees
  machines : ∀ i, MachineOk (contentFacts env repo w) (w.machines i)

variable {i : String}

/-- A step that leaves the store as it is. -/
theorem ContentInv.setMachine (h : ContentInv env repo w)
    (hm : MachineOk (contentFacts env repo w) m) :
    ContentInv env repo (w.setMachine i m) := by
  have g : Extends w (w.setMachine i m) := ⟨fun _ _ ho => ho, fun _ _ hp => hp⟩
  exact ⟨h.names, h.trees.imp fun _ _ => g.publishedOk,
    .update g.facts_imp h.machines (hm.imp g.facts_imp)⟩

/-- A step of a collection that deletes nothing, or of the clock. -/
theorem ContentInv.same (h : ContentInv env repo w) (now : Int)
    (collections : String → Collection) :
    ContentInv env repo { w with now := now, collections := collections } := by
  have g : Extends w { w with now := now, collections := collections } :=
    ⟨fun _ _ ho => ho, fun _ _ hp => hp⟩
  exact ⟨h.names, h.trees.imp fun _ _ => g.publishedOk, fun j => (h.machines j).imp g.facts_imp⟩

/-- A frame of the current part is read back once the part is in the store. -/
theorem OwnChain.put (henv : env.Lawful) (hcurrent : u.current.length < 2 ^ 63)
    (h : OwnChain env w u sha chain) (g : Extends w w') {time : Int}
    (hput : w'.parts[dataName u.state u.attempt (.ofNat u.part)]? = some ⟨u.current, time⟩) :
    GoodChain env w'.parts sha chain := by
  obtain ⟨hshaped, hlength⟩ := h.shape
  obtain ⟨l, rest, data, base, rfl, hl, hbound, hframe, hsha, -, hrest⟩ := g.ownChain h
  refine ⟨hshaped, hlength, data, hsha, fun limit hlimit => ?_⟩
  have hread : readFrame w'.parts l = some (env.compress data base) := by
    have hstop : l.offset.toNat + l.length.toNat < 2 ^ 64 ∧
        l.offset.toNat + l.length.toNat ≤ u.current.length := ⟨by omega, hbound⟩
    refine bind_eq_some_iff.2
      ⟨_, hl ▸ hput, bind_eq_some_iff.2 ⟨(), (guard_eq_some' _).2 hstop, ?_⟩⟩
    rw [← hframe]
    rfl
  have hdecode : env.decompressWithLimit (env.compress data base) base limit = some data :=
    filter_eq_some_iff.2 ⟨henv.decompress_compress data base, decide_eq_true hlimit⟩
  rw [readChain_cons, hread]
  rcases hrest with ⟨rfl, rfl, hkind⟩ | ⟨old, rfl, hkind, -, hold, hdecodes⟩
  · rw [hkind]
    exact hdecode
  · rw [hdecodes _ hold, hkind]
    exact hdecode

/-- The chains that lead into the current part are good once it is in the store. -/
theorem UploadGood.put (henv : env.Lawful) (hu : UploadGood env repo w s u todo) (g : Extends w w')
    {time : Int} (hput : w'.parts[dataName u.state u.attempt (.ofNat u.part)]? =
      some ⟨u.current, time⟩) :
    UploadGood env repo w' s { u with current := [], partEntries := [], part := u.part + 1 }
        todo := by
  have hgood : ∀ sha chain, KnownChain env w u sha chain →
      GoodChain env w'.parts sha chain := fun sha chain h =>
    h.elim g.goodChain fun h => h.put henv hu.current g hput
  have hu' := g.uploadGood hu
  refine { hu' with
    hashes := ?_, current := Nat.two_pow_pos _, files := ?_, part := fun e he => (nomatch he) }
  · exact hu.hashes.imp (fun sha chain h => .inl (hgood sha chain h))
      (fun _ _ _ => g.goodChain) fun _ _ => g.goodChain
  · exact hu.files.imp fun _ _ he => ⟨he.1, .inl (hgood _ _ he.2)⟩

variable {key : String}

theorem extends_insert (o : Object) (hnew : key ∉ w.parts) (machines : String → Machine) :
    Extends w { w with
      machines, parts := w.parts.insert key o
      uploaded := w.uploaded.insert key o } where
  parts _ _ := getElem?_insert_of_new hnew
  trees _ _ hp := hp

theorem ContentInv.putPart (henv : env.Lawful) (h : ContentInv env repo w)
    (hs : putPart w i = some w') : ContentInv env repo w' := by
  unfold Push.putPart at hs
  dsimp only at hs
  split at hs
  case h_2 => cases hs
  case h_1 s u todo hphase =>
    have hu : UploadGood env repo w s u todo := (h.machines i).phaseOf hphase
    split at hs
    case isTrue =>
      cases hs
      exact h.setMachine (h.machines i).abort
    case isFalse hnew =>
      cases hs
      have g := extends_insert (w := w) ⟨u.current, w.now⟩ (fun hmem =>
        hnew (.inr (Std.ExtTreeMap.contains_iff_mem.2 hmem))) (Function.update w.machines i
        { w.machines i with
          phase :=
            .uploading s { u with current := [], partEntries := [], part := u.part + 1 } todo })
      refine ⟨h.names, h.trees.imp fun _ _ => g.publishedOk, .update g.facts_imp h.machines ?_⟩
      exact ((h.machines i).imp g.facts_imp).setPhase (hu.put henv g getElem?_insert_self)

/-- Nothing of the upload is missing in the store when the current part is empty. -/
theorem goodChain_of_current (henv : env.Lawful) (hcurrent : u.current = [])
    (h : KnownChain env w u sha chain) : GoodChain env w.parts sha chain := by
  refine h.resolve_right ?_
  rintro ⟨l, rest, data, base, -, -, -, hframe, -⟩
  rw [hcurrent, drop_nil, take_nil] at hframe
  exact henv.frame_ne data base hframe.symm

theorem treeDepth_publish (hu : UploadGood env repo w s u todo)
    (g : Extends w w') (hp : w'.trees[treeName u.state u.attempt]? = some p)
    (hbase : p.base = u.deltaBase.map fun b => (b.1, b.2.attempt)) :
    treeDepth w'.trees fullTreeEvery (u.state, u.attempt) = some u.pushed.depth := by
  change treeDepth w'.trees (31 + 1) _ = _
  cases hdelta : u.deltaBase with
  | none =>
    rw [hdelta] at hbase
    rw [treeDepth_full (x := (u.state, u.attempt)) hp hbase, Upload.pushed, hdelta]
    rfl
  | some b =>
    rw [hdelta] at hbase
    obtain ⟨hb, hdepth⟩ := filter_eq_some_iff.1 hdelta
    have hlt : b.2.depth + 1 < 32 := of_decide_eq_true hdepth
    obtain ⟨p', -, -, -, htree⟩ := hu.base b hb
    have hb' : treeDepth w'.trees 31 (b.1, b.2.attempt) = some b.2.depth :=
      treeDepth_mono g.trees (htree b.2.tree rfl).2 (show b.2.depth < 31 by omega)
    rw [treeDepth_delta (x := (u.state, u.attempt)) hp hbase, hb', Upload.pushed, hdelta]
    rfl

/-- Nothing of the upload is missing in the store, and nothing is left to be visited. -/
theorem ContentInv.publish (henv : env.Lawful) (h : ContentInv env repo w)
    (hs : publish w i = some w') : ContentInv env repo w' := by
  unfold Push.publish at hs
  dsimp only at hs
  split at hs
  case h_2 => cases hs
  case h_1 s u time hphase =>
    obtain ⟨hu, hcurrent⟩ : (contentFacts env repo w).checked s u time :=
      (h.machines i).phaseOf hphase
    split at hs
    case isTrue =>
      cases hs
      exact h.setMachine (h.machines i).abort
    case isFalse hnew =>
      cases hs
      have g : Extends w { w.setMachine i { w.machines i with phase := .published s u } with
          trees := w.trees.insert (treeName u.state u.attempt) ⟨u.state, u.attempt,
            u.deltaBase.map fun b => (b.1, b.2.attempt), u.tree, w.now⟩ } :=
        ⟨fun _ _ ho => ho, fun _ _ => getElem?_insert_of_new fun hmem =>
          hnew (Std.ExtTreeMap.contains_iff_mem.2 hmem)⟩
      have hdepth := treeDepth_publish hu g getElem?_insert_self rfl
      have hgood : ∀ sha chain, KnownChain env w u sha chain →
          GoodChain env w.parts sha chain := fun _ _ => goodChain_of_current henv hcurrent
      refine ⟨h.names.insert ⟨rfl, hu.names⟩, ?_, ?_⟩
      · refine (h.trees.imp fun _ _ => g.publishedOk).insert
          ⟨?_, ⟨_, hdepth⟩, fun hreach path => ?_⟩
        · exact hu.files.imp fun _ _ he => ⟨he.1, hgood _ _ he.2⟩
        · exact (hu.todo.walk hreach path).resolve_right fun ⟨m, hm, _⟩ => nomatch hm
      · refine .update g.facts_imp h.machines
          (((h.machines i).imp g.facts_imp).setPhase ⟨?_, ?_, ?_, ?_⟩)
        · exact hu.hashes.imp hgood (fun _ _ _ => id) fun _ _ => id
        · exact hu.index.imp fun _ _ => g.cachedOk
        · exact fun b hb => g.cachedOk (hu.sessionBase b hb)
        · refine ⟨_, getElem?_insert_self, rfl, rfl, fun t ht => ⟨?_, hdepth⟩⟩
          exact (some.inj ht).symm

def Label.keeps : Label → Bool
  | .deleteObject _ => false
  | _ => true

/-- What a collection does besides is nothing but its own. -/
theorem collection_step {i : String} (hs : listObjects w i = some w' ∨ readTree w i = some w' ∨
    takeCutoff w i = some w' ∨ examine w i = some w') : ∃ x, w' = w.setCollection i x := by
  rcases hs with hs | hs | hs | hs
  · unfold listObjects at hs
    split at hs
    case h_1 => exact ⟨_, (some.inj hs).symm⟩
    case h_2 => cases hs
  · unfold readTree at hs
    split at hs
    case h_1 => split at hs <;> exact ⟨_, (some.inj hs).symm⟩
    case h_2 => cases hs
  · unfold takeCutoff at hs
    split at hs
    case h_1 => exact ⟨_, (some.inj hs).symm⟩
    case h_2 => cases hs
  unfold examine at hs
  split at hs
  case h_1 => exact ⟨_, (some.inj hs).symm⟩
  case h_2 => split at hs <;> exact ⟨_, (some.inj hs).symm⟩
  case h_3 => cases hs

/-- Every step that deletes nothing keeps the invariant. -/
theorem ContentInv.step (henv : env.Lawful) (hrepo : repo.Lawful) (h : ContentInv env repo w)
    {l : Label} (hl : l.keeps = true) (hs : step env repo w l = some w') :
    ContentInv env repo w' := by
  cases l with
  | tick n =>
    cases hs
    exact h.same _ _
  | act i a =>
    obtain ⟨m', hm', rfl⟩ := map_eq_some_iff.1 hs
    exact h.setMachine (act_ok (contentFacts_sound h.names h.trees)
      (contentFacts_uploads henv hrepo h.trees) (h.machines i) hm')
  | putPart i => exact h.putPart henv hs
  | publish i => exact h.publish henv hs
  | listObjects i | readTree i | takeCutoff i | examine i =>
    rw [Push.step] at hs
    obtain ⟨x, rfl⟩ := @collection_step w w' i (by tauto)
    exact h.same _ _
  | deleteObject i => cases hl

theorem ContentInv.init : ContentInv env repo {} where
  names := .empty
  trees := .empty
  machines _ := ⟨fun _ hj => (nomatch hj), .empty, trivial⟩

theorem ContentInv.run (henv : env.Lawful) (hrepo : repo.Lawful) {labels : List Label}
    (h : ContentInv env repo w) (hl : ∀ l ∈ labels, l.keeps = true)
    (hr : run env repo w labels = some w') : ContentInv env repo w' := by
  induction labels generalizing w with
  | nil =>
    cases hr
    exact h
  | cons l labels ih =>
    obtain ⟨w₁, hs, hr⟩ := bind_eq_some_iff.1 hr
    exact ih (h.step henv hrepo (hl l mem_cons_self) hs)
      (fun l' hl' => hl l' (mem_cons_of_mem _ hl')) hr

/-- Every tree that some push has published, in any run: its entries are read back as the contents
of their paths through chains of at most `maxFileDeltas` deltas on a full frame, and it is a delta
of fewer than `fullTreeEvery` trees. If the walk reaches every file whose own path is not skipped,
the files are those of a walk of the whole state, also when the upload started from a base and a
list of changes. -/
theorem published_reads (henv : env.Lawful) (hrepo : repo.Lawful) {labels : List Label}
    (hl : ∀ l ∈ labels, l.keeps = true) (hr : run env repo {} labels = some w) {key : String}
    {p : Published} (hp : w.trees[key]? = some p) :
      (∀ (path : String) (e : Entry), p.tree.files[path]? = some e →
      e.chain.length ≤ maxFileDeltas + 1 ∧ Shaped e.chain ∧
      ∃ data, (repo.root p.state)[path]?.bind Node.bytes = some data ∧
        read env w.parts e = some data) ∧
    (∃ depth < fullTreeEvery, treeDepth w.trees fullTreeEvery (p.state, p.attempt) = some depth) ∧
    (Reaches repo → ∀ path : String, p.tree.files[path]?.map coreOf =
      (walkFiles env (repo.root p.state))[path]?) := by
  have hpub := (ContentInv.init.run henv hrepo hl hr).trees key p hp
  refine ⟨fun path e he => ?_, ?_, hpub.walk⟩
  · obtain ⟨hat, hgood⟩ := hpub.files path e he
    obtain ⟨data, hdata, hsize, hsha⟩ := hrepo.entryAt hat
    exact ⟨hgood.length, hgood.shaped, data, hdata, hgood.read_eq henv hsha hsize⟩
  · obtain ⟨depth, hdepth⟩ := hpub.depth
    exact ⟨depth, treeDepth_lt hdepth, hdepth⟩

theorem Env.stored_lawful : Env.stored.Lawful where
  decompress_compress _ _ := rfl
  sha_injective data data' h := by
    have hchar : Function.Injective Char.ofUInt8 := fun a b hab =>
      UInt8.toUInt32_inj.1 (congrArg Char.val hab)
    exact map_injective_iff.2 hchar (String.ofList_injective h)
  frame_ne _ _ := cons_ne_nil _ _
  frame_length data _ h := by
    change data.length + 1 < 2 ^ 63
    omega

/-! ## Two states

The second state has one file more, and it is pushed with the first one as its base. -/

namespace Pair

def stateA : String := "01a12290-0000-7000-8000-000000000001"
def stateB : String := "01a12290-0000-7000-8000-000000000002"

def root (base : Snapshot) (file id : String) : Snapshot :=
  if id = stateB then base.insert file (.file false [2]) else base

def states (base : Snapshot) (file : String) : Repo where
  root := root base file
  subvolume _ := true
  changes a b :=
    if a = stateB ↔ b = stateB then []
    else [⟨file, none, if b = stateB then some ⟨.file, false⟩ else none⟩]

/-- The steps of an upload that fits into one part. -/
def upload (state attempt : String) (useBase : Bool) (order : List (String × Meta)) : List Label :=
  .act "m" (.beginUpload state attempt useBase order) :: order.map (fun _ => .act "m" .visitNext) ++
    [.act "m" .flush, .putPart "m", .act "m" .checkDeadline, .publish "m"]

def labels (base : Snapshot) (file : String) : List Label :=
  [.act "m" .openPush, .act "m" .loadHashes, .act "m" .ready] ++
    upload stateA "00000000" false (walkState base) ++ [.act "m" .checkpoint] ++
    upload stateB "00000001" true [(file, ⟨.file, false⟩)]

variable {base : Snapshot} {file : String}

theorem fileAt_insert {root : Snapshot} {node : Node} : fileAt (root.insert key node) path =
    if path = key then (some node).filter fun node =>
      node.meta.ftype != .dir else fileAt root path := by
  unfold fileAt
  by_cases h : path = key
  · rw [if_pos h, h, getElem?_insert_self]
  · rw [if_neg h, getElem?_insert_ne (Ne.symm h)]

theorem fileAt_root (path id : String) : fileAt (root base file id) path =
    if id = stateB ∧ path = file then some (.file false [2]) else fileAt base path := by
  unfold root
  by_cases hid : id = stateB
  · simp only [hid, true_and, if_true, fileAt_insert]
    rfl
  · rw [if_neg hid, if_neg fun h => hid h.1]

theorem states_lawful (hfile : fileAt base file = none)
    (hfits : ∀ (path : String) node data, fileAt base path = some node → node.bytes = some data →
      data.length < 2 ^ 62) : (states base file).Lawful where
  complete a b := by
    by_cases hab : a = stateB ↔ b = stateB
    · have hchanges : (states base file).changes a b = [] := if_pos hab
      rw [hchanges]
      refine ⟨fun c hc => (nomatch hc), fun c hc => (nomatch hc), fun p _ => ?_⟩
      change fileAt (root base file a) p = fileAt (root base file b) p
      simp [fileAt_root, hab]
    have hchanges : (states base file).changes a b = _ := if_neg hab
    rw [hchanges]
    refine ⟨fun c hc => ?_, fun c hc p hp => ?_, fun p hp => ?_⟩
    · obtain rfl := mem_singleton.1 hc
      change _ = (fileAt (root base file b) file).map Node.meta
      rw [fileAt_root, hfile]
      by_cases hb : b = stateB
      · rw [if_pos hb, if_pos ⟨hb, rfl⟩]
        rfl
      · rw [if_neg hb, if_neg fun h => hb h.1]
        rfl
    · obtain rfl := mem_singleton.1 hc
      cases hp
    · have hne : p ≠ file := fun h => (hp _ mem_cons_self).1 h.symm
      change fileAt (root base file a) p = fileAt (root base file b) p
      rw [fileAt_root, fileAt_root, if_neg fun h => hne h.2, if_neg fun h => hne h.2]
  fits id path data h := by
    obtain ⟨node, hnode, hdata⟩ := bind_eq_some_iff.1 h
    have hat : fileAt (root base file id) path = some node :=
      fileAt_eq_some.2 ⟨hnode, ftype_of_bytes hdata⟩
    rw [fileAt_root] at hat
    split at hat
    case isTrue =>
      cases hat
      cases hdata
      decide
    case isFalse => exact hfits path node data hat hdata

def one : Snapshot := (∅ : Snapshot).insert "a" (.file false [1])

theorem fileAt_one (path : String) : fileAt one path = if path = "a" then some (.file false [1])
    else none := by
  rw [one, fileAt_insert, fileAt, getElem?_empty]
  rfl

theorem one_fits (path : String) (node : Node) (data : Bytes) (h : fileAt one path = some node)
    (hdata : node.bytes = some data) : data.length < 2 ^ 62 := by
  rw [fileAt_one] at h
  split at h
  case isTrue =>
    cases h
    cases hdata
    decide
  case isFalse => cases h

theorem reaches_one : Reaches (states one "b") := by
  intro id path node hnode hdir _
  have hat : fileAt (root one "b" id) path = some node := fileAt_eq_some.2 ⟨hnode, hdir⟩
  rw [fileAt_root, fileAt_one] at hat
  have hpath : path = "a" ∨ path = "b" := by
    by_contra hne
    rw [not_or] at hne
    rw [if_neg fun h => hne.2 h.2, if_neg hne.1] at hat
    cases hat
  have hfolders : (parents path).filter (· ≠ "") = [] := by
    rcases hpath with rfl | rfl <;> decide +kernel
  rw [reached, hfolders, all_nil, Bool.and_true, bne_iff_ne]
  rintro rfl
  exact hdir rfl

theorem published_reads_pair : ∃ w, run .stored (states one "b") {} (labels one "b") = some w ∧
    ∃ (key : String) (p : Published), w.trees[key]? = some p ∧ "b" ∈ p.tree.files ∧
    (∀ (path : String) (e : Entry), p.tree.files[path]? = some e →
      e.chain.length ≤ maxFileDeltas + 1 ∧ Shaped e.chain ∧
      ∃ data, ((states one "b").root p.state)[path]?.bind Node.bytes = some data ∧
        read .stored w.parts e = some data) ∧
    (∃ depth < fullTreeEvery, treeDepth w.trees fullTreeEvery (p.state, p.attempt) = some depth) ∧
    (∀ path : String, p.tree.files[path]?.map coreOf =
      (walkFiles .stored ((states one "b").root p.state))[path]?) := by
  have heval : (run .stored (states one "b") {} (labels one "b")).any (fun w =>
      w.trees[treeName stateB "00000001"]?.any fun p => p.tree.files.contains "b") = true := by
    decide +kernel
  obtain ⟨w, hw, hp⟩ := (any_eq_true _ _).1 heval
  obtain ⟨p, hp, hfile⟩ := (any_eq_true _ _).1 hp
  have hlawful : (states one "b").Lawful := states_lawful (by rw [fileAt_one]; decide) one_fits
  obtain ⟨hreads, hdepth, hwalk⟩ := published_reads Env.stored_lawful hlawful
    (by decide +kernel) hw hp
  exact ⟨w, hw, _, p, hp, Std.ExtTreeMap.contains_iff_mem.1 hfile, hreads, hdepth,
    hwalk reaches_one⟩

/-! A folder with the name of a cache journal. -/

def folder : String :=
  ".layr-cache-replace-0000000000000000000000000000000000000000000000000000000000000000.json"

def hidden : String := folder ++ "/x"

def journaled : Snapshot := one.insert folder (.dir false)

theorem fileAt_hiding (path : String) : fileAt journaled path = fileAt one path := by
  rw [journaled, fileAt_insert]
  split
  · next h =>
    rw [h, fileAt_one]
    decide +kernel
  · rfl

/-- The tree of the second state has the file below the folder, and a walk of that state does not
find it. -/
theorem hidden_published : Env.stored.Lawful ∧ (states journaled hidden).Lawful ∧
    (∀ l ∈ labels journaled hidden, l.keeps = true) ∧
    ∃ w, run .stored (states journaled hidden) {} (labels journaled hidden) = some w ∧
      ∃ (key : String) (p : Published), w.trees[key]? = some p ∧ p.state = stateB ∧
        hidden ∈ p.tree.files ∧
          (walkFiles .stored ((states journaled hidden).root stateB))[hidden]? = none := by
  have hlawful : (states journaled hidden).Lawful := by
    refine states_lawful ?_ fun path node data h => one_fits path node data (fileAt_hiding path ▸ h)
    decide +kernel
  refine ⟨Env.stored_lawful, hlawful, by decide +kernel, ?_⟩
  have heval : (run .stored (states journaled hidden) {} (labels journaled hidden)).any (fun w =>
      w.trees[treeName stateB "00000001"]?.any fun p => p.state == stateB &&
        p.tree.files.contains hidden) =
      true := by
    decide +kernel
  obtain ⟨w, hw, hp⟩ := (any_eq_true _ _).1 heval
  obtain ⟨p, hp, hfile⟩ := (any_eq_true _ _).1 hp
  rw [Bool.and_eq_true] at hfile
  refine ⟨w, hw, _, p, hp, beq_iff_eq.1 hfile.1, Std.ExtTreeMap.contains_iff_mem.1 hfile.2, ?_⟩
  decide +kernel

end Pair

end Push

end Layr
