import Layr.Lib.Fallible
import Layr.Lib.Texts

/-!
# The layer between two trees

A thin state keeps the entries that differ from a base state and the paths that it removes. Such a
layer holds the entries of a tree that the other one lacks or has in another way, and it removes the
topmost paths that the tree lacks or has with another type. Laid over the other tree it gives the
tree again: an entry that is not written is the same in both, a removed path hides no entry that
both have, and an entry that only the other tree has is hidden.

Names are those of a volume that tells them apart.
-/

namespace Layr.Thin

open List
open Std (ExtTreeMap ExtTreeSet)

inductive FType where
  | file
  | dir
  | symlink
  | special
  deriving DecidableEq

/-- What the volume tells of the data of a file. -/
structure DataIdentity where
  generation : Option ℕ
  cloneId : Option ℕ

structure ScanEntry where
  ftype : FType
  mode : ℕ
  uid : ℕ
  gid : ℕ
  size : ℕ
  mtime : ℤ
  mtimeNsec : ℤ
  data : Option DataIdentity

abbrev Scan := ExtTreeMap String ScanEntry compare

def kind (m : Scan) (k : String) : Option FType := m[k]?.map (·.ftype)

/-- The path starts with the other one and a slash. -/
def Under (r k : String) : Prop := Paths.Under '/' r.toList k.toList

instance (r k : String) : Decidable (Under r k) := inferInstanceAs (Decidable (_ <+: _))

/-- The ancestors of a path, nearest to the root first, without the root. -/
def ancestors (rel : String) : List String :=
  (rel.toList.inits.filter fun a => a ++ ['/'] <+: rel.toList).map String.ofList

structure IsTree (m : Scan) : Prop where
  relative : ∀ k ∈ m, ¬Under "" k
  folders : ∀ a k, Under a k → k ∈ m → kind m a = some .dir

/-- The keys that start with a path and a slash follow each other in the map. -/
def removeSubtree (m : Scan) (rel : String) : Scan :=
  (m.erase rel).filter fun k _ => !decide (Under rel k)

/-- Entries over others, of which some paths are removed. -/
def overlay (removed : ExtTreeSet String compare) (entries m : Scan) : Scan :=
  removed.toList.foldl removeSubtree m ∪ entries

structure Diff where
  write : ExtTreeSet String compare
  removed : ExtTreeSet String compare

/-- Two files with a known generation share their clone. -/
def sameData : Option DataIdentity → Option DataIdentity → Bool
  | some x, some y => x.generation.isSome && y.generation.isSome && x.cloneId.isSome && x.cloneId ==
      y.cloneId
  | _, _ => false

/-- Two entries have the same type, metadata and data. Unknown data differs, and the size of a
folder counts the entries of one layer only. -/
def same (a b : ScanEntry) (link : Except String Bool) : Except String Bool :=
  if a.ftype != b.ftype || a.mode != b.mode || a.uid != b.uid || a.gid != b.gid ||
      (a.size != b.size && a.ftype != .dir) || a.mtime != b.mtime ||
        a.mtimeNsec != b.mtimeNsec then .ok false
  else match a.ftype with
    | .dir => .ok true
    | .file => .ok (a.size == 0 || sameData a.data b.data)
    | .symlink => link
    | .special => .ok false

variable (old : Scan) (link : String → Except String Bool) (new : Scan)

/-- The round for an entry of the new tree; `link` compares what two links read. -/
def diffEntry (d : Diff) (e : String × ScanEntry) : Except String Diff :=
  if e.1 = "" then .ok d
  else match old[e.1]? with
    | none => .ok { d with write := d.write.insert e.1 }
    | some o =>
      if o.ftype ≠ e.2.ftype then .ok ⟨d.write.insert e.1, d.removed.insert e.1⟩
      else do
        if ← same o e.2 (link e.1) then return d
        else return { d with write := d.write.insert e.1 }

def below (removed : ExtTreeSet String compare) (k : String) : Bool :=
  (ancestors k).any fun a => removed.contains a

def diffGone (removed : ExtTreeSet String compare) (k : String) : ExtTreeSet String compare :=
  if k != "" && !new.contains k && !below removed k then removed.insert k else removed

def diff : Except String Diff := do
  let d ← new.toList.foldlM (diffEntry old link) ⟨∅, ∅⟩
  let removed := old.keys.foldl (diffGone new) d.removed
  return { d with removed := removed.filter fun k => !below removed k }

/-- The entries of the layer: those to write, and the folders above what is written or removed. -/
def Diff.entries (d : Diff) : Scan :=
  new.filter fun k _ => k == "" || d.write.contains k ||
    (d.write.toList ++ d.removed.toList).any fun x => Under k x

def view {C : Type} (content : ScanEntry → C) (e : ScanEntry) :=
  (e.ftype, e.mode, e.uid, e.gid, e.mtime, e.mtimeNsec,
    if e.ftype = .dir then none else some (e.size, content e))

variable {old link new} {m : Scan} {es : List (String × ScanEntry)} {ks : List String} {d d' : Diff}
  {a k r : String}

/-! ## Paths and entries -/

theorem Under.trans (h : Under a r) (h' : Under r k) : Under a k := Paths.Under.trans h h'

theorem mem_ancestors : a ∈ ancestors k ↔ Under a k := by
  simp only [ancestors, mem_map, mem_filter, mem_inits, decide_eq_true_eq]
  constructor
  · rintro ⟨p, ⟨-, hp⟩, rfl⟩
    rwa [Under, String.toList_ofList]
  · intro h
    exact ⟨a.toList, ⟨(prefix_append _ _).trans h, h⟩, String.ofList_toList⟩

theorem mem_of_kind {s : FType} (h : kind m k = some s) : k ∈ m := by
  obtain ⟨e, he, -⟩ := Option.map_eq_some_iff.1 h
  exact ExtTreeMap.mem_iff_isSome_getElem?.2 (he ▸ rfl)

theorem getElem?_removeSubtree : (removeSubtree m r)[k]? = if k = r ∨
    Under r k then none else m[k]? := by
  rw [removeSubtree, ExtTreeMap.getElem?_filter', ExtTreeMap.getElem?_erase]
  by_cases hkr : r = k
  · simp [hkr]
  · by_cases hu : Under r k
    · simp [hu]
    · cases hm : m[k]? <;> simp [hkr, Ne.symm hkr, hu, Option.filter]

theorem getElem?_foldl_removeSubtree {rs : List String} :
    (rs.foldl removeSubtree m)[k]? = if ∃ r ∈ rs, k = r ∨ Under r k then none else m[k]? := by
  induction rs generalizing m with
  | nil => simp
  | cons r rs ih =>
    rw [foldl_cons, ih, getElem?_removeSubtree]
    by_cases hr : k = r ∨ Under r k <;> simp [hr]

/-! ## The loops -/

variable {s : ExtTreeSet String compare}

theorem below_iff : below s k = true ↔ ∃ a ∈ s, Under a k := by
  simp only [below, any_eq_true, mem_ancestors, ExtTreeSet.contains_iff_mem]
  exact exists_congr fun a => and_comm

/-- The entry was found the same in both trees. -/
def Unchanged (old : Scan) (link : String → Except String Bool) (x : String × ScanEntry) : Prop :=
  ∃ o, old[x.1]? = some o ∧ o.ftype = x.2.ftype ∧ same o x.2 (link x.1) = .ok true

/-- The entry has another type in the other tree. -/
def Retyped (old : Scan) (x : String × ScanEntry) : Prop :=
  x.1 ≠ "" ∧ ∃ o, old[x.1]? = some o ∧ o.ftype ≠ x.2.ftype

theorem diffEntry_eq_ok {q : String × ScanEntry} (h : diffEntry old link d q = .ok d') :
    (∀ x ∈ d.write, x ∈ d'.write) ∧ (q.1 = "" ∨ q.1 ∈ d'.write ∨ Unchanged old link q) ∧
      ∀ x ∈ d'.removed, x ∈ d.removed ∨ x = q.1 ∧ Retyped old q := by
  have hgrow : ∀ x ∈ d.write, x ∈ d.write.insert q.1 :=
    fun x hx => ExtTreeSet.mem_insert.2 (.inr hx)
  rw [diffEntry] at h
  split at h
  · next hroot =>
    cases h
    exact ⟨fun _ hx => hx, .inl hroot, fun _ hx => .inl hx⟩
  next hroot =>
  split at h
  · cases h
    exact ⟨hgrow, .inr (.inl ExtTreeSet.mem_insert_self), fun _ hx => .inl hx⟩
  next o ho =>
  split at h
  · next htype =>
    cases h
    refine ⟨hgrow, .inr (.inl ExtTreeSet.mem_insert_self), fun x hx => ?_⟩
    rcases ExtTreeSet.mem_insert.1 hx with heq | hx
    · exact .inr ⟨(compare_eq_iff_eq.1 heq).symm, hroot, o, ho, htype⟩
    · exact .inl hx
  next htype =>
  obtain ⟨eq, heq, h⟩ := bind_eq_ok.1 h
  cases eq with
  | true =>
    cases h
    exact ⟨fun _ hx => hx, .inr (.inr ⟨o, ho, not_not.1 htype, heq⟩), fun _ hx => .inl hx⟩
  | false =>
    cases h
    exact ⟨hgrow, .inr (.inl ExtTreeSet.mem_insert_self), fun _ hx => .inl hx⟩

/-- An entry that is not written is the same in both trees, and what is removed has another type. -/
theorem foldlM_diffEntry (h : es.foldlM (diffEntry old link) d = .ok d') :
    (∀ x ∈ d.write, x ∈ d'.write) ∧ (∀ x ∈ es, x.1 = "" ∨ x.1 ∈ d'.write ∨ Unchanged old link x) ∧
      ∀ x ∈ d'.removed, x ∈ d.removed ∨ ∃ e, (x, e) ∈ es ∧ Retyped old (x, e) := by
  induction es generalizing d with
  | nil =>
    cases h
    exact ⟨fun _ hx => hx, nofun, fun _ hx => .inl hx⟩
  | cons q es ih =>
    rw [foldlM_cons, bind_eq_ok] at h
    obtain ⟨d₁, hq, h⟩ := h
    obtain ⟨hgrow, hes, hremoved⟩ := ih h
    obtain ⟨hgrow₁, hq, hremoved₁⟩ := diffEntry_eq_ok hq
    refine ⟨fun x hx => hgrow x (hgrow₁ x hx), forall_mem_cons.2 ⟨?_, hes⟩, fun x hx => ?_⟩
    · exact hq.imp_right (Or.imp_left (hgrow _))
    · rcases hremoved x hx with hx | ⟨e, he, hre⟩
      · rcases hremoved₁ x hx with hx | ⟨rfl, hre⟩
        · exact .inl hx
        · exact .inr ⟨q.2, mem_cons_self, hre⟩
      · exact .inr ⟨e, mem_cons_of_mem _ he, hre⟩

theorem diffGone_spec (new : Scan) (s : ExtTreeSet String compare) (q : String) :
    (∀ x ∈ s, x ∈ diffGone new s q) ∧
      (q = "" ∨ q ∈ new ∨ ∃ r ∈ diffGone new s q, q = r ∨ Under r q) ∧
      ∀ x ∈ diffGone new s q, x ∈ s ∨ x = q ∧ x ∉ new := by
  rw [diffGone]
  split
  · next hcond =>
    simp only [Bool.and_eq_true, bne_iff_ne, Bool.not_eq_true', ← Bool.not_eq_true,
      ExtTreeMap.contains_iff_mem] at hcond
    refine ⟨fun x hx => ExtTreeSet.mem_insert.2 (.inr hx),
      .inr (.inr ⟨q, ExtTreeSet.mem_insert_self, .inl rfl⟩), fun x hx => ?_⟩
    rcases ExtTreeSet.mem_insert.1 hx with heq | hx
    · cases compare_eq_iff_eq.1 heq
      exact .inr ⟨rfl, hcond.1.2⟩
    · exact .inl hx
  · next hcond =>
    refine ⟨fun x hx => hx, ?_, fun x hx => .inl hx⟩
    by_contra hno
    simp only [not_or, not_exists, not_and] at hno
    refine hcond ?_
    have hbelow : below s q = false := Bool.eq_false_iff.2 fun h => by
      obtain ⟨r, hr, hu⟩ := below_iff.1 h
      exact (hno.2.2 r hr).2 hu
    have hnew : new.contains q = false :=
      Bool.eq_false_iff.2 fun h => hno.2.1 (ExtTreeMap.contains_iff_mem.1 h)
    simp [hno.1, hnew, hbelow]

/-- A path that the new tree lacks is removed, or a path above it is. -/
theorem foldl_diffGone (new : Scan) (ks : List String) (s : ExtTreeSet String compare) :
    (∀ x ∈ s, x ∈ ks.foldl (diffGone new) s) ∧
      (∀ x ∈ ks, x = "" ∨ x ∈ new ∨ ∃ r ∈ ks.foldl (diffGone new) s, x = r ∨ Under r x) ∧
      ∀ x ∈ ks.foldl (diffGone new) s, x ∈ s ∨ x ∈ ks ∧ x ∉ new := by
  induction ks generalizing s with
  | nil => exact ⟨fun _ hx => hx, nofun, fun _ hx => .inl hx⟩
  | cons q ks ih =>
    obtain ⟨hgrow, hks, hback⟩ := ih (diffGone new s q)
    obtain ⟨hgrow₁, hq, hback₁⟩ := diffGone_spec new s q
    refine ⟨fun x hx => hgrow x (hgrow₁ x hx), forall_mem_cons.2 ⟨?_, hks⟩, fun x hx => ?_⟩
    · exact hq.imp_right (Or.imp_right fun ⟨r, hr, hqr⟩ => ⟨r, hgrow r hr, hqr⟩)
    · rcases hback x hx with hx | ⟨hx, hno⟩
      · rcases hback₁ x hx with hx | ⟨rfl, hno⟩
        · exact .inl hx
        · exact .inr ⟨mem_cons_self, hno⟩
      · exact .inr ⟨mem_cons_of_mem _ hx, hno⟩

/-- Every path of a set is at or under one that is under no other. -/
theorem exists_topmost (hr : r ∈ s) : ∃ x ∈ s, below s x = false ∧ (r = x ∨ Under x r) := by
  induction hn : r.toList.length using Nat.strongRecOn generalizing r with
  | ind n ih =>
    cases hb : below s r with
    | false => exact ⟨r, hr, hb, .inl rfl⟩
    | true =>
      obtain ⟨a, ha, hu⟩ := below_iff.1 hb
      obtain ⟨x, hx, htop, hax⟩ := ih _ (hn ▸ Paths.Under.length_lt hu) ha rfl
      refine ⟨x, hx, htop, .inr ?_⟩
      rcases hax with rfl | hax
      · exact hu
      · exact hax.trans hu

theorem view_eq {C : Type} {content : ScanEntry → C} {o e : ScanEntry} {l : Except String Bool}
    (h : same o e l = .ok true)
    (hfile : o.ftype = .file → o.size = e.size → o.size = 0 ∨ sameData o.data e.data = true →
      content o = content e)
    (hlink : o.ftype = .symlink → l = .ok true → content o = content e) :
    view content o = view content e := by
  rw [same] at h
  split at h
  · cases h
  next hmeta =>
  simp only [Bool.or_eq_true, bne_iff_ne, Bool.and_eq_true, not_or, not_not, not_and] at hmeta
  obtain ⟨⟨⟨⟨⟨⟨htype, hmode⟩, huid⟩, hgid⟩, hsize⟩, hmtime⟩, hnsec⟩ := hmeta
  simp only [view, hmode, huid, hgid, hmtime, hnsec, ← htype]
  split
  · rfl
  next hdir =>
  have hsize : o.size = e.size := not_not.1 fun hne => hdir (hsize hne)
  have hcontent : content o = content e := by
    cases ht : o.ftype with
    | file =>
      rw [ht] at h
      exact hfile ht hsize (by simpa using h)
    | symlink =>
      rw [ht] at h
      exact hlink ht h
    | dir => exact absurd ht hdir
    | special =>
      rw [ht] at h
      cases h
  rw [hsize, hcontent]

/-- The layer of a tree over another one, laid over it, gives the tree, and no path that it removes
is under another. -/
theorem diff_round_trip {C : Type} (content : ScanEntry → C) (hold : IsTree old) (hnew : IsTree new)
    (hroot : "" ∈ new) (h : diff old link new = .ok d)
    (hfile : ∀ (k : String) o e, old[k]? = some o → new[k]? = some e → o.ftype = .file →
      o.size = e.size →
      o.size = 0 ∨ sameData o.data e.data = true → content o = content e)
    (hlink : ∀ (k : String) o e, old[k]? = some o → new[k]? = some e → o.ftype = .symlink →
      link k = .ok true →
      content o = content e) :
    (∀ k : String, (overlay d.removed (d.entries new) old)[k]?.map (view content) =
      new[k]?.map (view content)) ∧
      ∀ r ∈ d.removed, ∀ r' ∈ d.removed, ¬Under r r' := by
  simp only [diff, bind_eq_ok, pure_eq_ok] at h
  obtain ⟨d₁, hd₁, rfl⟩ := h
  obtain ⟨-, hsame, hre⟩ := foldlM_diffEntry hd₁
  obtain ⟨-, hgone, hback⟩ := foldl_diffGone new old.keys d₁.removed
  set removed := old.keys.foldl (diffGone new) d₁.removed
  have htop : ∀ x, x ∈ removed.filter (fun k => !below removed k) ↔
      x ∈ removed ∧ below removed x = false := by
    intro x
    simp [ExtTreeSet.mem_filter]
  constructor
  · intro k
    rw [overlay, ExtTreeMap.getElem?_union, getElem?_foldl_removeSubtree, Diff.entries,
      ExtTreeMap.getElem?_filter']
    cases hk : new[k]? with
    | none =>
      have hno : k ∉ new := fun hmem => by simp [ExtTreeMap.mem_iff_isSome_getElem?, hk] at hmem
      rw [Option.filter_none, Option.none_or, ite_eq_left_iff.2]
      intro hvis
      refine ExtTreeMap.getElem?_eq_none fun hmem => ?_
      rcases hgone k (ExtTreeMap.mem_keys.2 hmem) with rfl | hmem | ⟨r, hr, hkr⟩
      · exact hno hroot
      · exact hno hmem
      obtain ⟨x, hx, hbelow, hrx⟩ := exists_topmost hr
      refine hvis ⟨x, ExtTreeSet.mem_toList.2 ((htop x).2 ⟨hx, hbelow⟩), ?_⟩
      rcases hkr with rfl | hkr
      · exact hrx
      · rcases hrx with rfl | hrx
        · exact .inr hkr
        · exact .inr (hrx.trans hkr)
    | some e =>
      rw [Option.filter_some]
      split
      · rfl
      next hout =>
      simp only [Bool.or_eq_true, beq_iff_eq, not_or, ExtTreeSet.contains_iff_mem] at hout
      rcases hsame (k, e) (ExtTreeMap.mem_toList_iff_getElem?_eq_some.2 hk) with hempty | hw | ⟨o,
        ho, htype, heq⟩
      · exact absurd hempty hout.1.1
      · exact absurd hw hout.1.2
      have hvis : ¬∃ r ∈ (removed.filter fun k => !below removed k).toList, k = r ∨ Under r k := by
        rintro ⟨r, hr, hkr⟩
        -- Both trees have the path, and with the same type: a removal of it would be of neither
        -- kind.
        have hkind : ∃ s, kind old r = some s ∧ kind new r = some s := by
          rcases hkr with rfl | hu
          · exact ⟨o.ftype, by rw [kind, ho]; rfl, by rw [kind, hk, htype]; rfl⟩
          · exact ⟨.dir, hold.folders r k hu (ExtTreeMap.mem_iff_isSome_getElem?.2 (ho ▸ rfl)),
              hnew.folders r k hu (ExtTreeMap.mem_iff_isSome_getElem?.2 (hk ▸ rfl))⟩
        obtain ⟨s, hs, hs'⟩ := hkind
        rcases hback r ((htop r).1 (ExtTreeSet.mem_toList.1 hr)).1 with hr | ⟨-, hno⟩
        · rcases hre r hr with hr | ⟨e', he', -, o', ho', hne⟩
          · exact ExtTreeSet.not_mem_empty hr
          · rw [kind, ho'] at hs
            rw [kind, ExtTreeMap.mem_toList_iff_getElem?_eq_some.1 he', ← hs] at hs'
            exact hne (Option.some.inj hs').symm
        · exact hno (mem_of_kind hs')
      rw [Option.none_or, if_neg hvis, ho]
      exact congrArg some (view_eq heq (hfile k o e ho hk) (hlink k o e ho hk))
  · intro r hr r' hr' hu
    have hbelow := ((htop r').1 hr').2
    rw [below_iff.2 ⟨r, ((htop r).1 hr).1, hu⟩] at hbelow
    cases hbelow

theorem IsTree.of_all (h : m.keys.all fun k => !decide (Under "" k) &&
    (ancestors k).all fun a => kind m a == some .dir) : IsTree m := by
  simp only [all_eq_true, ExtTreeMap.mem_keys, Bool.and_eq_true, mem_ancestors, beq_iff_eq,
    Bool.not_eq_true', decide_eq_false_iff_not] at h
  exact ⟨fun k hk => (h k hk).1, fun a k ha hk => (h k hk).2 a ha⟩

def entryOf (ftype : FType) : ScanEntry := ⟨ftype, 0, 0, 0, 0, 0, 0, none⟩

def folderOld : Scan := .ofList [("", entryOf .dir), ("a", entryOf .dir), ("a/x", entryOf .file)]

def fileNew : Scan := .ofList [("", entryOf .dir), ("a", entryOf .file)]

theorem diff_round_trip_file : ∃ d, diff folderOld (fun _ => .ok false) fileNew = .ok d ∧
    (∀ k : String, (overlay d.removed (d.entries fileNew) folderOld)[k]?.map (view (·.size)) =
      fileNew[k]?.map (view (·.size))) ∧ ∀ r ∈ d.removed, ∀ r' ∈ d.removed, ¬Under r r' := by
  have hold : IsTree folderOld := .of_all (by decide +kernel)
  have hnew : IsTree fileNew := .of_all (by decide +kernel)
  have hok : (diff folderOld (fun _ => .ok false) fileNew).isOk = true := by decide +kernel
  cases h : diff folderOld (fun _ => .ok false) fileNew with
  | error e =>
    rw [h] at hok
    cases hok
  | ok d =>
    exact ⟨d, rfl, diff_round_trip (·.size) hold hnew (by decide +kernel) h
      (fun _ _ _ _ _ _ hsize _ => hsize) fun _ _ _ _ _ _ => nofun⟩

end Layr.Thin
