import Layr.IndexCommit
import Layr.Lib.Tables

/-!
# Recovery of a commit

Wherever a commit stops, the staged tree is at one of two places, and the journal says which tree it
is (`Phase`). So a recovery that succeeds leaves the index as it was, or the immutable state if the
record was written (`recover_total`), and a recovery that no fault comes in the way of succeeds.
What is not the tree of the journal is never touched (`recover_keeps`).
-/

namespace Layr

namespace IndexCommit

open Function List Option
open Crash (Prog Triple Keeps Total writeAll Fault)

variable {B : World} {x src dst : Place} {T : Tree} {φ ψ : Tree → Prop}

/-! ## One tree at one place -/

/-- What stays of a tree while flags and modes change. -/
def Tree.core (t : Tree) : Tree :=
  { t with
    readonly := false
    mode := 0#12
    immutable := false
    entries := t.entries.map fun e => { e with immutable := false } }

def World.put (w : World) (x : Place) (t : Tree) : World :=
  { w with trees := update w.trees x (some t) }

/-- The tree is at the place, as far as flags and modes do not matter, and all else is as in `B`. -/
def Holds (B : World) (x : Place) (T : Tree) (φ : Tree → Prop) (w : World) : Prop :=
  ∃ t, t.core = T.core ∧ φ t ∧ w = B.put x t

def Any (_ : Tree) : Prop := True

variable {w : World}

theorem Holds.mono (h : ∀ t, φ t → ψ t) (hw : Holds B x T φ w) : Holds B x T ψ w :=
  hw.imp fun t ht => ⟨ht.1, h t ht.2.1, ht.2.2⟩

theorem Holds.any (hw : Holds B x T φ w) : Holds B x T Any w := hw.mono fun _ _ => trivial

@[simp] theorem trees_put_self (w : World) (x : Place) (t : Tree) :
    (w.put x t).trees x = some t := by
  simp [World.put]

variable {t : Tree}

theorem trees_put_of_ne {x y : Place} (h : y ≠ x) : (w.put x t).trees y = w.trees y := by
  simp [World.put, h]

theorem modify_put (f : Tree → Tree) (t : Tree) : (B.put x t).modify x f = B.put x (f t) := by
  simp [World.put, World.modify]

/-- The calls take the tree from `φ` to `ψ`, and wherever they stop, it is at its place. -/
abbrev Turns (B : World) (x : Place) (T : Tree) (φ : Tree → Prop) (p : Prog World Unit)
    (ψ : Tree → Prop) : Prop :=
  Total (Holds B x T φ) p (fun _ => Holds B x T ψ) (Holds B x T Any)

variable {f : Tree → Tree} {allowed : Tree → Bool}

/-- A call that changes flags or modes of the tree. -/
theorem change_total (hcore : ∀ t, (f t).core = t.core)
    (hallowed : ∀ t, φ t → allowed t = true) (hψ : ∀ t, φ t → ψ (f t)) :
    Turns B x T φ (change x allowed f) ψ := by
  refine Total.write (g := fun w => w.modify x f) (fun _ => Holds.any) ?_
  rintro w ⟨t, ht, hφ, rfl⟩
  have hput : Holds B x T ψ ((B.put x t).modify x f) :=
    ⟨f t, (hcore t).trans ht, hψ t hφ, modify_put f t⟩
  refine ⟨?_, hput.any, hput⟩
  rw [trees_put_self, bind_some, if_pos (hallowed t hφ)]

variable {E : World → Prop}

theorem Holds.of_eq (hφ : φ t) (hw : Holds B x T (· = t) w) : Holds B x T φ w := by
  obtain ⟨_, ht, rfl, hput⟩ := hw
  exact ⟨_, ht, hφ, hput⟩

/-- What goes on from a look at the tree knows which one it is. -/
theorem treeAt_bind {α : Type} {k : Tree → Prog World α} {R : α → World → Prop}
    (hE : ∀ w, Holds B x T φ w → E w)
    (h : ∀ t, t.core = T.core → φ t → Total (Holds B x T (· = t)) (k t) R E) :
    Total (Holds B x T φ) (treeAt x >>= k) R E := by
  refine (Total.read (Q := fun t w => (t.core = T.core ∧ φ t) ∧ Holds B x T (· = t) w) hE ?_).bind
    fun t => ?_
  · rintro w ⟨t, ht, hφ, rfl⟩
    exact ⟨t, trees_put_self B x t, ⟨ht, hφ⟩, t, ht, rfl, rfl⟩
  · exact Total.of_imp (fun _ hw => hw.1) fun ht => (h t ht.1 ht.2).pre fun _ hw => hw.2

variable {v : Bool}

/-- The flag of the root is set whatever the mode of the tree is. -/
theorem setFlag_total (h : ∀ t, φ t → ψ { t with immutable := v }) :
    Turns B x T φ (setFlag x v) ψ :=
  change_total (fun _ => rfl) (fun _ _ => rfl) h

variable {mode : BitVec 12}

/-- The mode is set unless the root is immutable. -/
theorem setPermissions_total (hflag : ∀ t, φ t → t.immutable = false)
    (h : ∀ t, φ t → ψ { t with mode := mode }) :
    Turns B x T φ (setPermissions x mode) ψ :=
  change_total (fun _ => rfl) (fun t ht => by rw [hflag t ht]; rfl) h

variable {P : World → Prop}

/-- A sync writes nothing, so what holds before it holds wherever it stops. -/
theorem sync_total (hE : ∀ w, P w → E w) : Total P sync (fun _ => P) E := by
  refine Total.act fun w hw => ⟨[], rfl, fun us hus => ?_, hw⟩
  rw [sublist_nil.1 hus]
  exact hE w hw

/-- The mode that a tree is opened with lets its owner write. -/
theorem or_ownerWrite (m : BitVec 12) : ((m ||| ownerWrite) &&& ownerWrite != 0#12) = true := by
  have hbit : ((m ||| ownerWrite) &&& ownerWrite).getLsbD 7 = true := by
    rw [BitVec.getLsbD_and, BitVec.getLsbD_or]
    have hw : ownerWrite.getLsbD 7 = true := by decide
    rw [hw, Bool.or_true, Bool.and_true]
  rw [bne_iff_ne]
  intro h
  rw [h] at hbit
  exact absurd hbit (by decide)

/-- A call that changes one tree keeps what that change keeps, also when it fails. -/
theorem keeps_change (h : ∀ w, P w → P (w.modify x f)) : Keeps P (change x allowed f) := by
  refine Keeps.act fun w ws heq g hg => ?_
  obtain ⟨t, -, ht⟩ := bind_eq_some_iff.1 heq
  obtain ⟨-, ⟨⟩⟩ := ite_none_right_eq_some.1 ht
  obtain rfl := mem_singleton.1 hg
  exact h

/-- A call that may fail leaves the tree at its place all the same. -/
theorem change_triple (hcore : ∀ t, (f t).core = t.core) :
    Keeps (Holds B x T Any) (change x allowed f) := by
  refine keeps_change ?_
  rintro w ⟨t, ht, -, rfl⟩
  exact ⟨f t, (hcore t).trans ht, trivial, modify_put f t⟩

theorem setPermissions_triple : Keeps (Holds B x T Any) (setPermissions x mode) :=
  change_triple fun _ => rfl

variable {readonly : Bool}

/-- The marker is written into a root that is neither immutable nor closed to its owner. -/
theorem writeMarker_total
    (hallowed : ∀ t, φ t → t.immutable = false ∧ (t.mode &&& ownerWrite != 0#12) = true)
    (h : ∀ t, φ t → ψ { t with readonly := readonly }) :
    Turns B x T φ (writeMarker x readonly) ψ := by
  refine change_total (fun _ => rfl) (fun t ht => ?_) h
  rw [(hallowed t ht).1, (hallowed t ht).2]
  rfl

/-- The marker is written, and the mode is as before. -/
theorem updateReadonly_total
    (h : ∀ t, φ t → ψ { t with readonly := readonly, immutable := false }) :
    Turns B x T φ (updateReadonly x readonly) ψ := by
  refine treeAt_bind (fun _ => Holds.any) fun t _ hφ => ?_
  refine (setFlag_total (ψ := (· = { t with immutable := false })) ?_).bind fun _ => ?_
  · rintro _ rfl
    rfl
  refine treeAt_bind (fun _ => Holds.any) ?_
  rintro _ - rfl
  have hmode : Turns B x T (· = { t with immutable := false })
    (setPermissions x (t.mode ||| ownerWrite))
      (· = { t with immutable := false, mode := t.mode ||| ownerWrite }) := by
    refine setPermissions_total ?_ ?_ <;>
    · rintro _ rfl
      rfl
  have hwrite : Turns B x T (· = { t with immutable := false, mode := t.mode ||| ownerWrite })
    (writeMarker x readonly)
      (· = { t with immutable := false, mode := t.mode ||| ownerWrite, readonly := readonly }) := by
    refine writeMarker_total ?_ ?_
    · rintro _ rfl
      exact ⟨rfl, or_ownerWrite t.mode⟩
    · rintro _ rfl
      rfl
  refine hmode.bind fun _ => (hwrite.onError (fun _ => id) setPermissions_triple).bind fun _ => ?_
  refine setPermissions_total ?_ ?_
  · rintro _ rfl
    rfl
  · rintro _ rfl
    exact h t hφ

/-! ## Flags of the entries -/

def Tree.mark (t : Tree) (s : Entry → Bool) (v : Bool) : Tree :=
  { t with entries := t.entries.map fun e => if s e then { e with immutable := v } else e }

theorem core_mark (t : Tree) (s : Entry → Bool) (v : Bool) : (t.mark s v).core = t.core := by
  have hentries : ((t.mark s v).entries.map fun e => { e with immutable := false }) =
      t.entries.map fun e => { e with immutable := false } := by
    rw [Tree.mark, List.map_map]
    refine map_congr_left fun e _ => ?_
    change ({ (if s e then { e with immutable := v } else e) with immutable := false } : Entry) = _
    split <;> rfl
  unfold Tree.core
  rw [hentries]
  rfl

/-- The flag of one entry after another. -/
theorem writeAll_mark (es : List Entry) (v : Bool) (t : Tree) :
    writeAll
    (es.map fun e => fun w : World => w.modify x fun t => { t with entries := t.entries.map fun d =>
        if d.folder = e.folder ∧ d.name = e.name then { d with immutable := v } else d })
          (B.put x t) =
    B.put x
        (t.mark (fun d => es.any fun e => decide (d.folder = e.folder ∧ d.name = e.name)) v) := by
  induction es generalizing t with
  | nil => simp [writeAll, Tree.mark]
  | cons e es ih =>
    change writeAll _ ((B.put x t).modify x _) = _
    rw [modify_put, ih]
    congr 1
    unfold Tree.mark
    simp only [List.map_map]
    congr 1
    refine map_congr_left fun d _ => ?_
    by_cases hd : d.folder = e.folder ∧ d.name = e.name
    · simp [hd]
    · simp [hd]

variable {p : Entry → Bool}

/-- The chosen entries get the flag, and no entry loses it. -/
theorem setFlags_total
    (h : ∀ t s, φ t → (∀ e ∈ t.entries, p e = true → s e = true) → ψ (t.mark s v)) :
    Turns B x T φ (setFlags x p v) ψ := by
  refine Total.act ?_
  rintro w ⟨t, ht, hφ, rfl⟩
  refine ⟨_, by rw [trees_put_self, map_some], fun us hus => ?_, ?_⟩
  · obtain ⟨es, -, rfl⟩ := sublist_map_iff.1 hus
    rw [writeAll_mark]
    exact ⟨_, (core_mark t _ v).trans ht, trivial, rfl⟩
  · rw [writeAll_mark]
    refine ⟨_, (core_mark t _ v).trans ht, h t _ hφ fun e he hpe => ?_, rfl⟩
    exact List.any_eq_true.2 ⟨e, mem_filter.2 ⟨he, hpe⟩, by simp⟩

/-- The flag of all entries of some levels and kinds, with the rest as it was. -/
structure Marked (v : Bool) (c : Nat → Bool → Prop) (t₀ t : Tree) : Prop where
  core : t.core = t₀.core
  readonly : t.readonly = t₀.readonly
  mode : t.mode = t₀.mode
  immutable : t.immutable = t₀.immutable
  entries : ∀ e ∈ t.entries, c e.folder.length e.isDir → e.immutable = v

variable {c : Nat → Bool → Prop}

/-- A pass over some levels and kinds adds them to those that have the flag. -/
theorem Marked.mark {t₀ t : Tree} (h : Marked v c t₀ t) {q : Nat → Bool → Bool} {s : Entry → Bool}
    (hs : ∀ e ∈ t.entries, q e.folder.length e.isDir = true → s e = true) :
    Marked v (fun n d => c n d ∨ q n d = true) t₀ (t.mark s v) := by
  refine { h with core := (core_mark t s v).trans h.core, entries := fun e he hc => ?_ }
  obtain ⟨d, hd, rfl⟩ := List.mem_map.1 he
  by_cases hsd : s d = true
  · simp [hsd]
  · rw [if_neg hsd] at hc ⊢
    rcases hc with hc | hq
    · exact h.entries d hd hc
    · exact absurd (hs d hd hq) hsd

theorem setFlags_marked (q : Nat → Bool → Bool) :
    Turns B x T (Marked v c t) (setFlags x (fun e => q e.folder.length e.isDir) v)
      (Marked v (fun n d => c n d ∨ q n d = true) t) :=
  setFlags_total fun _ _ ht hs => ht.mark hs

theorem depth_core (t : Tree) : t.core.depth = t.depth := by
  simp [Tree.depth, Tree.core, comp_def]

theorem length_lt_depth {e : Entry} (he : e ∈ t.entries) : e.folder.length < t.depth :=
  Tables.le_highest (List.mem_map.2 ⟨e, he, rfl⟩)

def AllFlags (v : Bool) (t : Tree) : Prop := t.immutable = v ∧ ∀ e ∈ t.entries, e.immutable = v

/-- The root first, then level by level from the top, with files before folders: the levels that are
done have no flag left. -/
theorem openTree_total (h : ∀ t t', φ t → t'.mode = t.mode → t'.readonly = t.readonly →
      AllFlags false t' → ψ t') : Turns B x T φ (openTree x) ψ := by
  refine treeAt_bind (fun _ => Holds.any) fun t _ hφ => ?_
  refine (setFlag_total
    (ψ := Marked false (fun n _ => n ∈ ([] : List Nat)) { t with immutable := false }) ?_).bind
      fun _ => ?_
  · rintro _ rfl
    exact ⟨rfl, rfl, rfl, rfl, by simp⟩
  -- The levels so far are open.
  have hloop := Total.forM (E := Holds B x T Any)
    (I := fun l => Holds B x T (Marked false (fun n _ => n ∈ l) { t with immutable := false }))
    (f := fun d => do
      setFlags x (fun e => !e.isDir && e.folder.length == d) false
      setFlags x (fun e => e.isDir && e.folder.length == d) false)
    (fun l d => ?_) [] (List.range t.depth)
  · refine hloop.mono (fun _ => id) (fun _ w hw => hw.mono fun t' ht' => ?_) fun _ => id
    refine h t t' hφ ht'.mode ht'.readonly ⟨ht'.immutable, fun e he => ht'.entries e he ?_⟩
    have hdepth : t'.depth = t.depth := by
      rw [← depth_core, ht'.core, depth_core]
      rfl
    exact mem_range.2 (hdepth ▸ length_lt_depth he)
  · refine (setFlags_marked fun n isDir => !isDir && n == d).bind fun _ => ?_
    refine (setFlags_marked fun n isDir => isDir && n == d).mono (fun _ => id)
      (fun _ w hw => hw.mono fun t' ht' =>
        { ht' with entries := fun e he hmem => ht'.entries e he ?_ }) fun _ => id
    rcases mem_append.1 hmem with hmem | hmem
    · exact .inl (.inl hmem)
    · cases hdir : e.isDir <;> simp [mem_singleton.1 hmem]

/-- The files, then the folders from the deepest level up, and the root last, so that no flag is in
the way of a later one. -/
theorem closeTree_total (hdir : T.isDir = true)
    (h : ∀ t t', φ t → t'.mode = t.mode → t'.readonly = t.readonly → AllFlags true t' → ψ t') :
    Turns B x T φ (closeTree x) ψ := by
  refine treeAt_bind (fun _ => Holds.any) fun t hcore hφ => ?_
  have htdir : t.isDir = true := (congrArg Tree.isDir hcore).trans hdir
  rw [if_pos htdir]
  have hfiles := setFlags_marked (B := B) (x := x) (T := T) (v := true)
    (c := fun _ _ => False) (t := t)
    fun _ isDir => !isDir
  have hstart : ∀ w, Holds B x T (Marked true (fun _ isDir => False ∨ (!isDir) = true) t) w →
      Holds B x T (Marked true (fun n isDir => isDir = false ∨ n ∈ ([] : List Nat)) t) w := by
    refine fun w hw => hw.mono fun t' ht' => { ht' with entries := ?_ }
    rintro e he (hfile | hnil)
    · exact ht'.entries e he (.inr (by rw [hfile]; rfl))
    · cases hnil
  -- The files are closed, and the folders of the levels so far.
  have hloop := Total.forM (E := Holds B x T Any)
    (I := fun l => Holds B x T (Marked true (fun n isDir => isDir = false ∨ n ∈ l) t))
    (f := fun d => setFlags x (fun e => e.isDir && e.folder.length == d) true)
    (fun l d => ?_) [] (List.range t.depth).reverse
  · have hread : Marked true (fun _ _ => False) t t := ⟨rfl, rfl, rfl, rfl, fun _ _ => False.elim⟩
    refine (hfiles.pre fun _ => Holds.of_eq hread).bind fun _ => (hloop.pre hstart).bind fun _ =>
      setFlag_total fun t' ht' => ?_
    refine h t _ hφ ht'.mode ht'.readonly ⟨rfl, fun e he => ht'.entries e he ?_⟩
    have hdepth : t'.depth = t.depth := by rw [← depth_core, ht'.core, depth_core]
    exact .inr (mem_reverse.2 (mem_range.2 (hdepth ▸ length_lt_depth he)))
  · refine (setFlags_marked fun n isDir => isDir && n == d).mono (fun _ => id)
      (fun _ w hw => hw.mono fun t' ht' =>
        { ht' with entries := fun e he hmem => ht'.entries e he ?_ }) fun _ => id
    rcases hmem with hfile | hmem
    · exact .inl (.inl hfile)
    rcases mem_append.1 hmem with hmem | hmem
    · exact .inl (.inr hmem)
    · cases hdir : e.isDir <;> simp [mem_singleton.1 hmem]

theorem updateReadonly_triple : Keeps (Holds B x T Any) (updateReadonly x readonly) :=
  (updateReadonly_total fun _ _ => trivial).triple

structure Sealed (mode : BitVec 12) (t : Tree) : Prop where
  mode : t.mode = mode
  readonly : t.readonly = true
  flags : AllFlags true t

structure Writable (t : Tree) : Prop where
  readonly : t.readonly = false
  flags : AllFlags false t

/-- The marker, then the flags. A marker that is written before a failing flag is taken back. -/
theorem setReadonly_total (hdir : T.isDir = true) (h : ∀ t, φ t → t.mode = mode) :
    Turns B x T φ (setReadonly x) (Sealed mode) := by
  refine (updateReadonly_total (ψ := fun t => t.mode = mode ∧ t.readonly = true) ?_).bind
    fun _ => ?_
  · exact fun t ht => ⟨h t ht, rfl⟩
  · refine Total.onError (closeTree_total hdir ?_) (fun _ => id) updateReadonly_triple
    rintro t t' ⟨hm, hr⟩ hm' hr' hflags
    exact ⟨hm'.trans hm, hr'.trans hr, hflags⟩

/-- The flags, then the marker, whatever the tree was before. -/
theorem setWritable_total : Turns B x T φ (setWritable x) Writable := by
  refine (openTree_total (ψ := AllFlags false) fun _ _ _ _ _ h => h).bind fun _ => ?_
  exact updateReadonly_total fun t ht => ⟨rfl, rfl, ht.2⟩

/-! ## The move -/

def Either (B : World) (src dst : Place) (T : Tree) (w : World) : Prop :=
  Holds B src T Any w ∨ Holds B dst T Any w

theorem Either.left (hw : Holds B src T φ w) : Either B src dst T w := .inl hw.any

theorem Either.right (hw : Holds B dst T φ w) : Either B src dst T w := .inr hw.any

/-- A renamed tree is gone from its old place. -/
theorem publish_put (hsrc : B.trees src = none) (t : Tree) : { B.put src t with
      trees := update (update (B.put src t).trees src none) dst ((B.put src t).trees src) } =
    B.put dst t := by
  have htrees : update (B.put src t).trees src none = B.trees := by
    rw [World.put, update_idem, ← hsrc, update_eq_self]
  rw [htrees, trees_put_self]
  rfl

/-- The rename is one write, so it leaves the tree at one of the two places. -/
theorem publish_total (hne : src ≠ dst) (hsrc : B.trees src = none) (hdst : B.trees dst = none)
    (h : ∀ t, φ t → t.immutable = false ∧ (t.mode &&& ownerWrite != 0#12) = true) :
    Total (Holds B src T φ) (publish src dst) (fun _ => Holds B dst T φ) (Either B src dst T) := by
  refine Total.write (g := fun w => { w with
    trees := update (update w.trees src none) dst (w.trees src) })
    (fun _ => .left) ?_
  rintro w ⟨t, ht, hφ, rfl⟩
  have hput : Holds B dst T φ (B.put dst t) := ⟨t, ht, hφ, rfl⟩
  have hfree : (B.put src t).trees dst = none := by rw [trees_put_of_ne hne.symm, hdst]
  refine ⟨?_, ?_, ?_⟩
  · rw [trees_put_self, bind_some, hfree, (h t hφ).1, (h t hφ).2]
    rfl
  · rw [publish_put hsrc]
    exact .right hput
  · rw [publish_put hsrc]
    exact hput

/-- A move opens the root for the rename and gives it its mode at the new place. -/
theorem moveTree_total (hne : src ≠ dst) (hsrc : B.trees src = none)
    (hdst : B.trees dst = none) (h : ∀ t, φ t → ψ { t with immutable := false, mode := mode }) :
    Total (Holds B src T φ) (moveTree src dst mode) (fun _ => Holds B dst T ψ)
        (Either B src dst T) := by
  refine ((setFlag_total (ψ := fun t => ∃ t₀, φ t₀ ∧ t = { t₀ with immutable := false }) ?_).err
    fun _ => .left).bind fun _ => ?_
  · exact fun t ht => ⟨t, ht, rfl⟩
  refine ((setPermissions_total (ψ := fun t => ∃ t₀, φ t₀ ∧
    t = { t₀ with immutable := false, mode := mode ||| ownerWrite }) ?_ ?_).err
      fun _ => .left).bind fun _ => ?_
  · rintro t ⟨t₀, -, rfl⟩
    rfl
  · rintro t ⟨t₀, ht₀, rfl⟩
    exact ⟨t₀, ht₀, rfl⟩
  refine (publish_total hne hsrc hdst ?_).bind fun _ => ?_
  · rintro t ⟨t₀, -, rfl⟩
    exact ⟨rfl, or_ownerWrite mode⟩
  refine ((setPermissions_total (ψ := ψ) ?_ ?_).err fun _ => .right).bind fun _ => ?_
  · rintro t ⟨t₀, -, rfl⟩
    rfl
  · rintro t ⟨t₀, ht₀, rfl⟩
    exact h t₀ ht₀
  exact (sync_total fun _ => .right).bind fun _ => sync_total fun _ => .right

/-! ## Recovery -/

structure Started (project : String) (B : World) (j : Journal) (T : Tree) : Prop where
  journal : B.journal = some j
  valid : j.valid project = true
  stage : B.trees (.stage j.line) = none
  target : B.trees (target j) = none
  names : j.names T = true
  mode : BitVec.ofNat 12 j.mode = T.mode
  record : B.states j.state = none

def World.closed (B : World) : World := { B with journal := none }

def World.recorded (B : World) (j : Journal) (base : Bool) : World :=
  { B with
    states := update B.states j.state (some ⟨j.subvol, some j.line⟩)
    base := update B.base j.line base }

/-- The index is as it was, up to flags that a recovery has cleared. -/
def Restored (T t : Tree) : Prop := t = T ∨ t.mode = T.mode ∧ Writable t

/-- Where a commit or a recovery can stop. -/
inductive Phase (B : World) (j : Journal) (T : Tree) : World → Prop where
  | moving {w : World} (h : Either B (.stage j.line) (target j) T w) : Phase B j T w
  | index {w : World} (h : Holds B.closed (.stage j.line) T (Restored T) w) : Phase B j T w
  | recorded {w : World} (base : Bool)
      (h : Holds (B.recorded j base) (target j) T (Sealed T.mode) w) : Phase B j T w
  | state {w : World} (h : Holds (B.recorded j false).closed (target j) T (Sealed T.mode) w) :
      Phase B j T w

inductive Settled (B : World) (j : Journal) (T : Tree) : World → Prop where
  | index {w : World} (h : Holds B.closed (.stage j.line) T (Restored T) w) : Settled B j T w
  | state {w : World} (h : Holds (B.recorded j false).closed (target j) T (Sealed T.mode) w) :
      Settled B j T w

theorem Settled.phase {j : Journal} (h : Settled B j T w) : Phase B j T w := by
  cases h with
  | index h => exact .index h
  | state h => exact .state h

theorem stage_ne_target (line : String) (j : Journal) : Place.stage line ≠ target j := by
  unfold target
  split <;> simp

theorem names_core (j : Journal) (t : Tree) : j.names t.core = j.names t := rfl

/-- The look at the journal's tree succeeds: its identity does not depend on flags and modes. -/
theorem verifyTree_total {j : Journal} (hT : j.names T = true) (hE : ∀ w, Holds B x T φ w → E w) :
    Total (Holds B x T φ) (verifyTree x j) (fun _ => Holds B x T φ) E := by
  refine treeAt_bind hE fun t hcore hφ => (Total.guard_true ?_ hE).pre fun _ => Holds.of_eq hφ
  rw [← names_core, hcore, names_core, hT]

variable {E : World → Prop}

theorem exists_total {b : Bool} (hE : ∀ w, P w → E w)
    (h : ∀ w, P w → (w.trees x).isSome = b) : Total P (exists? x) (fun a w => a = b ∧ P w) E :=
  Total.read_eq hE fun w hw => by rw [h w hw]

theorem Holds.isSome (hw : Holds B x T φ w) : (w.trees x).isSome = true := by
  obtain ⟨t, -, -, rfl⟩ := hw
  rw [trees_put_self]
  rfl

theorem Holds.isSome_of_ne {y : Place} (hy : y ≠ x) (hB : B.trees y = none)
    (hw : Holds B x T φ w) : (w.trees y).isSome = false := by
  obtain ⟨t, -, -, rfl⟩ := hw
  rw [trees_put_of_ne hy, hB]
  rfl

variable {project : String} {j : Journal}

theorem recorded_recorded (B : World) (j : Journal) (b c : Bool) :
    { B.recorded j b with base := update (B.recorded j b).base j.line c } = B.recorded j c := by
  simp [World.recorded]

variable {o : Option Journal}

/-- A valid journal is read, and nothing changes. -/
theorem readJournal_total (hE : ∀ w, P w → E w)
    (ho : o.all (Journal.valid project) = true) (h : ∀ w, P w → w.journal = o) :
    Total P (readJournal project) (fun a w => a = o ∧ P w) E := by
  refine (Total.read_eq hE fun w hw => by rw [h w hw]).bind_eq ?_
  exact (Total.guard_true ho hE).bind fun _ => Total.pure.pre fun _ hw => ⟨rfl, hw⟩

/-- The journal goes once the tree is in its place. -/
theorem removeJournal_total (hE : ∀ w, Holds B x T φ w ∨ Holds B.closed x T φ w → E w) :
    Total (Holds B x T φ) (do removeJournal; sync) (fun _ => Holds B.closed x T φ) E := by
  refine (Total.write (g := fun w => { w with journal := none }) (fun w hw => hE w (.inl hw))
    (Q := fun _ => Holds B.closed x T φ) ?_).bind fun _ => sync_total fun w hw => hE w (.inr hw)
  rintro w ⟨t, ht, hφ, rfl⟩
  have hput : Holds B.closed x T φ { B.put x t with journal := none } := ⟨t, ht, hφ, rfl⟩
  exact ⟨rfl, hE _ (.inr hput), hput⟩

/-- A recovery of a project without a journal does nothing. -/
theorem recover_none (hE : ∀ w, P w → E w) (h : ∀ w, P w → w.journal = none) :
    Total P (recover project) (fun _ => P) E :=
  (readJournal_total hE rfl h).bind_eq (Total.pure (Q := fun _ => P) (a := ()))

theorem Holds.journal (hw : Holds B x T φ w) : w.journal = B.journal := by
  obtain ⟨t, -, -, rfl⟩ := hw
  rfl

theorem Holds.states (hw : Holds B x T φ w) : w.states = B.states := by
  obtain ⟨t, -, -, rfl⟩ := hw
  rfl

section

variable (hs : Started project B j T)
include hs

/-- The end of `recoverIndex`, with the tree at the index. -/
theorem restore_total : Total (Holds B (.stage j.line) T φ)
      (do
        setWritable (.stage j.line)
        setPermissions (.stage j.line) (.ofNat 12 j.mode)
        sync
        sync)
      (fun _ => Holds B (.stage j.line) T (Restored T))
        (Either B (.stage j.line) (target j) T) := by
  refine (setWritable_total.err fun _ => .left).bind fun _ => ?_
  refine ((setPermissions_total (ψ := Restored T) (fun t ht => ht.flags.1) fun t ht => ?_).err
    fun _ => .left).bind fun _ => ?_
  · exact .inr ⟨hs.mode, ht.readonly, ht.flags⟩
  exact (sync_total fun _ => .left).bind fun _ => sync_total fun _ => .left

/-- The tree goes back to the index, wherever it is. -/
theorem recoverIndex_total : Total (Either B (.stage j.line) (target j) T) (recoverIndex j)
      (fun _ => Holds B (.stage j.line) T (Restored T))
        (Either B (.stage j.line) (target j) T) := by
  have hne := stage_ne_target j.line j
  refine Total.or_pre ?_ ?_
  · refine (exists_total (fun _ => .left) fun w hw => hw.isSome).bind_eq ?_
    refine (exists_total (fun _ => .left) fun w hw => hw.isSome_of_ne hne.symm hs.target).bind_eq ?_
    exact (verifyTree_total hs.names fun _ => .left).bind fun _ => restore_total hs
  · refine (exists_total (fun _ => .right) fun w hw => hw.isSome_of_ne hne hs.stage).bind_eq ?_
    refine (exists_total (fun _ => .right) fun w hw => hw.isSome).bind_eq ?_
    refine (verifyTree_total hs.names fun _ => .right).bind fun _ => ?_
    refine (setWritable_total.err fun _ => .right).bind fun _ => ?_
    exact ((moveTree_total (ψ := Any) hne.symm hs.target hs.stage fun _ _ => trivial).err
      fun _ => Or.symm).bind fun _ => restore_total hs

/-- The base file of the index goes, and nothing else changes. -/
theorem recoverSaved_total (b : Bool) :
    Total (Holds (B.recorded j b) (target j) T (Sealed T.mode))
      (recoverSaved j ⟨j.subvol, some j.line⟩)
      (fun _ => Holds (B.recorded j false) (target j) T (Sealed T.mode))
      (fun w => ∃ b, Holds (B.recorded j b) (target j) T (Sealed T.mode) w) := by
  have hE : ∀ w, Holds (B.recorded j b) (target j) T (Sealed T.mode) w →
      ∃ b, Holds (B.recorded j b) (target j) T (Sealed T.mode) w := fun w hw => ⟨b, hw⟩
  have hstage : (B.recorded j b).trees (.stage j.line) = none := hs.stage
  refine (exists_total hE fun w hw => hw.isSome_of_ne (stage_ne_target j.line j) hstage).bind_eq ?_
  refine (Total.guard_true (by simp) hE).bind fun _ => ?_
  refine (verifyTree_total hs.names hE).bind fun _ => ?_
  refine treeAt_bind hE fun t _ hsealed =>
    ((Total.guard_true hsealed.readonly hE).pre fun _ => Holds.of_eq hsealed).bind fun _ => ?_
  refine (Total.write (g := fun w => { w with base := update w.base j.line false }) hE
    (Q := fun _ => Holds (B.recorded j false) (target j) T (Sealed T.mode)) ?_).bind fun _ =>
    sync_total fun w hw => ⟨false, hw⟩
  rintro w ⟨t, ht, hsealed, rfl⟩
  have hput : Holds (B.recorded j false) (target j) T (Sealed T.mode)
      { (B.recorded j b).put (target j) t with
        base := update ((B.recorded j b).put (target j) t).base j.line false } := by
    refine ⟨t, ht, hsealed, ?_⟩
    rw [← recorded_recorded B j b false]
    rfl
  exact ⟨rfl, ⟨false, hput⟩, hput⟩

/-- Without a record the tree goes back to the index, and then the journal goes. -/
theorem recover_moving : Total (Either B (.stage j.line) (target j) T) (recover project)
      (fun _ => Holds B.closed (.stage j.line) T (Restored T)) (Phase B j T) := by
  refine (readJournal_total (o := some j) (fun _ => .moving) hs.valid fun w hw => ?_).bind_eq ?_
  · exact hw.elim (fun hw => hw.journal.trans hs.journal) fun hw => hw.journal.trans hs.journal
  refine (Total.read_eq (a := none) (fun _ => .moving) fun w hw => ?_).bind_eq ?_
  · rw [hw.elim Holds.states Holds.states, hs.record]
  refine ((recoverIndex_total hs).err fun _ => .moving).bind fun _ => removeJournal_total ?_
  rintro w (hw | hw)
  · exact .moving (.left hw)
  · exact .index hw

/-- With a record the tree stays where it is, and then the journal goes. -/
theorem recover_recorded (b : Bool) : Total (Holds (B.recorded j b) (target j) T (Sealed T.mode))
    (recover project)
    (fun _ => Holds (B.recorded j false).closed (target j) T (Sealed T.mode)) (Phase B j T) := by
  refine (readJournal_total (o := some j) (fun _ => .recorded b) hs.valid fun w hw =>
    hw.journal.trans hs.journal).bind_eq ?_
  refine (Total.read_eq (a := some ⟨j.subvol, some j.line⟩) (fun _ => .recorded b) fun w hw =>
    ?_).bind_eq ?_
  · rw [hw.states]
    simp [World.recorded]
  refine ((recoverSaved_total hs b).err fun _ ⟨b, hw⟩ => .recorded b hw).bind fun _ =>
    removeJournal_total ?_
  rintro w (hw | hw)
  · exact .recorded false hw
  · exact .state hw

/-- Wherever the last commit or recovery stopped, a recovery settles it or stops at such a place.
What is recorded stays recorded, and nothing else is. -/
theorem recover_total (S : String → Option Saved) :
    Total (fun w => Phase B j T w ∧ w.states = S) (recover project)
      (fun _ w => Settled B j T w ∧ w.states = S) (Phase B j T) := by
  have hsettled : Total (fun w => Settled B j T w ∧ w.states = S) (recover project)
      (fun _ w => Settled B j T w ∧ w.states = S) (Phase B j T) := by
    refine recover_none (fun _ hw => hw.1.phase) fun w hw => ?_
    cases hw.1 with
    | index h | state h => exact h.journal
  have hphase : ∀ w, Phase B j T w ∧ w.states = S → ∃ P : World → Prop, P w ∧
      Total P (recover project) (fun _ w => Settled B j T w ∧ w.states = S) (Phase B j T) := by
    rintro w ⟨hw, rfl⟩
    cases hw with
    | moving h =>
      refine ⟨_, h, (recover_moving hs).mono (fun _ => id)
        (fun _ w' hw' => ⟨.index hw', ?_⟩) fun _ => id⟩
      exact hw'.states.trans (h.elim Holds.states Holds.states).symm
    | index h => exact ⟨_, ⟨.index h, rfl⟩, hsettled⟩
    | recorded b h =>
      refine ⟨_, h, (recover_recorded hs b).mono (fun _ => id)
        (fun _ w' hw' => ⟨.state hw', ?_⟩) fun _ => id⟩
      exact hw'.states.trans h.states.symm
    | state h => exact ⟨_, ⟨.state h, rfl⟩, hsettled⟩
  refine ⟨fun fs w hw => ?_, fun w hw => ?_⟩
  · obtain ⟨P, hP, htotal⟩ := hphase w hw
    exact htotal.triple fs w hP
  · obtain ⟨P, hP, htotal⟩ := hphase w hw
    exact htotal.runs w hP

/-- A recovery that is interrupted again stops at such a place. -/
theorem recover_triple : Triple (Phase B j T) (recover project) (fun _ => Phase B j T)
    (Phase B j T) :=
  fun fs w hw => ((recover_total hs w.states).triple fs w ⟨hw, rfl⟩).mono
    (fun _ _ h => h.1.phase) fun _ => id

end

/-! ## The commit -/

variable {line id : String} {w₀ : World}

/-- A project with an index to commit. The id of the new state is not in use. -/
structure Staged (project line id : String) (T : Tree) (w₀ : World) : Prop where
  journal : w₀.journal = none
  stage : w₀.trees (.stage line) = some T
  isDir : T.isDir = true
  readonly : T.readonly = false
  target : w₀.trees (target (journalOf project line id T)) = none
  record : w₀.states id = none
  isUuid_line : isUuid line = true
  isUuid_id : isUuid id = true
  isUuid_subvol : isUuid T.uuid = true

/-- The project once the journal is written, without the tree. -/
def World.started (w₀ : World) (j : Journal) : World :=
  { w₀ with trees := update w₀.trees (.stage j.line) none, journal := some j }

theorem put_started (h : w₀.trees (.stage j.line) = some T) :
    (w₀.started j).put (.stage j.line) T = { w₀ with journal := some j } := by
  have htrees : update (w₀.started j).trees (.stage j.line) (some T) = w₀.trees := by
    rw [World.started, update_idem, ← h, update_eq_self]
  rw [World.put, htrees]
  rfl

/-- The record is written with the id of the tree. -/
theorem saveRecord_total (hsubvol : T.uuid = j.subvol) :
    Total (Holds B (target j) T (Sealed T.mode)) (saveRecord j)
      (fun _ => Holds (B.recorded j (B.base j.line)) (target j) T (Sealed T.mode))
        (Phase B j T) := by
  have hE : ∀ w, Holds B (target j) T (Sealed T.mode) w → Phase B j T w :=
    fun w hw => .moving (.inr hw.any)
  refine Total.write (g := fun w => { w with
    states := update w.states j.state (some ⟨j.subvol, some j.line⟩) }) hE ?_
  rintro w ⟨t, ht, hsealed, rfl⟩
  have huuid : t.uuid = j.subvol := (congrArg Tree.uuid ht).trans hsubvol
  have hput : Holds (B.recorded j (B.base j.line)) (target j) T (Sealed T.mode)
      { B.put (target j) t with
      states := update (B.put (target j) t).states j.state (some ⟨j.subvol, some j.line⟩) } := by
    refine ⟨t, ht, hsealed, ?_⟩
    simp [World.put, World.recorded]
  refine ⟨?_, .recorded _ hput, hput⟩
  rw [trees_put_self, map_some, huuid]

section

variable (h : Staged project line id T w₀) (hj : j = journalOf project line id T)
include h hj

theorem Staged.started : Started project (w₀.started j) j T where
  journal := rfl
  valid := by simp [Journal.valid, hj, journalOf, h.isUuid_line, h.isUuid_id, h.isUuid_subvol,
    T.mode.isLt]
  stage := by simp [World.started]
  target := (update_of_ne (stage_ne_target _ _).symm _ _).trans (hj ▸ h.target)
  names := by simp [Journal.names, hj, journalOf, h.isDir]
  mode := by simp [hj, journalOf]
  record := hj ▸ h.record

/-- The start is the index as it was. -/
theorem Staged.holds : Holds (w₀.started j).closed (.stage j.line) T (Restored T) w₀ := by
  subst hj
  refine ⟨T, rfl, .inl rfl, ?_⟩
  have hput := congrArg World.closed (put_started (j := journalOf project line id T) h.stage)
  change _ = { w₀ with journal := none } at hput
  rw [← h.journal] at hput
  exact hput.symm

/-- The index is moved and made immutable, or the commit stops on the way. -/
theorem prepare_total : Total (· = w₀) (prepare project line id)
      (fun a w => a = j ∧ Holds (w₀.started j) (target j) T (Sealed T.mode) w)
        (Phase (w₀.started j) j T) := by
  have hs := h.started hj
  have hstart : ∀ w, w = w₀ → Phase (w₀.started j) j T w := by
    rintro w rfl
    exact .index (h.holds hj)
  have hright : ∀ w, Holds (w₀.started j) (target j) T Any w → Phase (w₀.started j) j T w :=
    fun _ hw => .moving (.inr hw)
  subst hj
  refine (Total.read_eq hstart fun w hw => by rw [hw, h.journal]).bind_eq ?_
  refine (Total.guard_true (by simp [h.isUuid_line]) hstart).bind fun _ => ?_
  refine (Total.read_eq hstart fun w hw => by rw [hw, h.stage]).bind_eq ?_
  refine (Total.guard_true (by simp [h.isDir, h.readonly]) hstart).bind fun _ => ?_
  -- From here on the journal is there.
  refine (Total.write (g := fun w => { w with journal := some (journalOf project line id T) })
    (Q := fun _ => Holds (w₀.started (journalOf project line id T)) (.stage line) T (· = T))
    hstart ?_).bind fun _ => ?_
  · rintro w rfl
    have hput := put_started (j := journalOf project line id T) h.stage
    exact ⟨rfl, .moving (.inl ⟨T, rfl, trivial, hput.symm⟩), T, rfl, rfl, hput.symm⟩
  refine Total.onError_same ?_ (recover_triple hs)
  refine ((moveTree_total (ψ := fun t => t.mode = T.mode) (stage_ne_target _ _) hs.stage hs.target
    fun t _ => hs.mode).err fun _ => .moving).bind fun _ => ?_
  refine ((setReadonly_total h.isDir fun _ ht => ht).err hright).bind fun _ => ?_
  refine (sync_total fun w hw => hright w hw.any).bind fun _ => ?_
  refine (sync_total fun w hw => hright w hw.any).bind fun _ => ?_
  exact Total.pure.pre fun _ hw => ⟨rfl, hw⟩

/-- Wherever a commit stops, a recovery can go on from there. -/
theorem commit_total (save : Bool) : Total (· = w₀) (commit project line id save)
    (fun _ => Settled (w₀.started j) j T) (Phase (w₀.started j) j T) := by
  have hs := h.started hj
  refine (prepare_total h hj).bind fun a => Total.of_imp (C := a = j)
    (fun _ hw => hw.1) fun ha => ?_
  subst ha hj
  refine Total.onError_same ?_ (recover_triple hs)
  cases save with
  | false =>
    exact (recover_moving hs).mono (fun _ hw => .inr hw.2.any) (fun _ _ => .index) fun _ hw => hw
  | true =>
    refine ((saveRecord_total rfl).pre fun _ hw => hw.2).bind fun _ => ?_
    refine (Total.read_eq (a := some ⟨T.uuid, some line⟩) (fun _ => .recorded _) fun w hw =>
      ?_).bind_eq ?_
    · rw [hw.states]
      simp [World.recorded, journalOf]
    refine (Total.guard_true rfl fun _ => .recorded _).bind fun _ => ?_
    exact (recover_recorded hs _).mono (fun _ hw => hw) (fun _ _ => .state) fun _ hw => hw

end

/-! ## Other trees -/

section Others

variable {y : Place} {t : Tree}

def At (y : Place) (t : Tree) (w : World) : Prop := w.trees y = some t

theorem At.modify (hne : y ≠ x) (h : At y t w) : At y t (w.modify x f) :=
  (update_of_ne hne _ _).trans h

theorem change_keeps (hne : y ≠ x) : Keeps (At y t) (change x allowed f) :=
  keeps_change fun _ => At.modify hne

/-- The flags of one tree are none of another one's. -/
theorem setFlags_keeps (hne : y ≠ x) : Keeps (At y t) (setFlags x p v) := by
  refine Keeps.act fun w ws heq g hg => ?_
  obtain ⟨t', -, rfl⟩ := map_eq_some_iff.1 heq
  obtain ⟨e, -, rfl⟩ := List.mem_map.1 hg
  exact fun w hw => hw.modify hne

/-- A rename touches its two places only. -/
theorem publish_keeps (hsrc : y ≠ src) (hdst : y ≠ dst) : Keeps (At y t) (publish src dst) := by
  refine Keeps.act fun w ws heq g hg => ?_
  obtain ⟨t', -, ht'⟩ := bind_eq_some_iff.1 heq
  obtain ⟨-, ⟨⟩⟩ := ite_none_right_eq_some.1 ht'
  obtain rfl := mem_singleton.1 hg
  exact fun w hw => (update_of_ne hdst _ _).trans ((update_of_ne hsrc _ _).trans hw)

theorem sync_keeps : Keeps P sync := by
  refine Keeps.act fun w ws heq g hg => ?_
  cases heq
  cases hg

/-- Each call of the update is on the one tree, those after a failure too. -/
theorem updateReadonly_keeps (hne : y ≠ x) : Keeps (At y t) (updateReadonly x readonly) :=
  Keeps.read.bind fun _ => (change_keeps hne).bind fun _ => Keeps.read.bind fun _ =>
    (change_keeps hne).bind fun _ => ((change_keeps hne).onError (change_keeps hne)).bind fun _ =>
      change_keeps hne

theorem setWritable_keeps (hne : y ≠ x) : Keeps (At y t) (setWritable x) := by
  have hopen : Keeps (At y t) (openTree x) :=
    Keeps.read.bind fun _ => (change_keeps hne).bind fun _ =>
      Keeps.forM (fun _ => (setFlags_keeps hne).bind fun _ => setFlags_keeps hne) _
  exact hopen.bind fun _ => updateReadonly_keeps hne

/-- The calls of a move are on its two places. -/
theorem moveTree_keeps (hsrc : y ≠ src) (hdst : y ≠ dst) : Keeps (At y t) (moveTree src dst mode) :=
  (change_keeps hsrc).bind fun _ => (change_keeps hsrc).bind fun _ =>
      (publish_keeps hsrc hdst).bind fun _ =>
    (change_keeps hdst).bind fun _ => sync_keeps.bind fun _ => sync_keeps

/-- A tree that is not the one of the journal is not taken for it. -/
theorem verifyTree_refuses (hnames : j.names t = false) :
    Triple (At x t) (verifyTree x j) (fun _ _ => False) (At x t) := by
  refine (Triple.read (Q := fun a w => a = t ∧ At x t w) (fun _ => id) fun w a hw ha => ?_).bind
    fun a => ?_
  · exact ⟨some.inj (ha.symm.trans hw), hw⟩
  · refine Triple.guard (fun _ hw => hw.2) fun hb w hw => ?_
    rw [hw.1, hnames] at hb
    cases hb

theorem exists_at : Triple (At x t) (exists? x) (fun b w => b = true ∧ At x t w) (At x t) := by
  refine Triple.read (fun _ => id) fun w b hw hb => ⟨?_, hw⟩
  rw [← some.inj hb, hw]
  rfl

/-- The tree is at neither place of the journal and no call is on it, or it is at one of them: then
the look at it fails before the first write. -/
theorem recoverIndex_keeps (hnames : j.names t = false) : Keeps (At y t) (recoverIndex j) := by
  have hend : ∀ {b : Prog World Unit}, Triple (fun _ => False) b (fun _ => At y t) (At y t) :=
    fun _ _ => False.elim
  by_cases hstage : y = .stage j.line
  · -- A tree at the index that is not the journal's: nothing is done.
    subst hstage
    refine exists_at.bind fun staged => ?_
    cases staged with
    | false => exact fun _ _ hw => nomatch hw.1
    | true =>
      refine (Triple.pre Keeps.read fun _ hw => hw.2).bind fun moved => ?_
      cases moved with
      | false => exact (verifyTree_refuses hnames).bind fun _ => hend
      | true => exact (Triple.fail (Q := fun _ _ => False) fun _ => id).bind fun _ => hend
  · by_cases htarget : y = target j
    · subst htarget
      refine Keeps.read.bind fun staged => exists_at.bind fun moved => ?_
      cases moved with
      | false => exact fun _ _ hw => nomatch hw.1
      | true =>
        cases staged with
        | false => exact ((verifyTree_refuses hnames).pre fun _ hw => hw.2).bind fun _ => hend
        | true => exact (Triple.fail (Q := fun _ _ => False) fun _ hw => hw.2).bind fun _ => hend
    · have hrest : Keeps (At y t) (do
          setWritable (.stage j.line)
          setPermissions (.stage j.line) (.ofNat 12 j.mode)
          sync
          sync) :=
        (setWritable_keeps hstage).bind fun _ => (change_keeps hstage).bind fun _ =>
          sync_keeps.bind fun _ => sync_keeps
      have hverify : ∀ x, Keeps (At y t) (verifyTree x j) :=
        fun _ => Keeps.read.bind fun _ => Keeps.guard
      refine Keeps.read.bind fun staged => Keeps.read.bind fun moved => ?_
      cases staged with
      | true =>
        cases moved with
        | false => exact (hverify _).bind fun _ => hrest
        | true => exact Keeps.fail.bind fun _ => hrest
      | false =>
        cases moved with
        | false => exact Keeps.fail.bind fun _ => hrest
        | true =>
          exact (hverify _).bind fun _ => (setWritable_keeps htarget).bind fun _ =>
            (moveTree_keeps htarget hstage).bind fun _ => hrest

/-- Once the state is recorded a recovery writes no tree. -/
theorem recoverSaved_keeps {rec : Saved} : Keeps (At y t) (recoverSaved j rec) := by
  have hbase : Keeps (At y t) (removeBase j.line) := by
    refine Keeps.act fun w ws heq g hg => ?_
    cases heq
    obtain rfl := mem_singleton.1 hg
    exact fun _ hw => hw
  exact Keeps.read.bind fun _ => Keeps.guard.bind fun _ =>
    Keeps.bind (Keeps.read.bind fun _ => Keeps.guard) fun _ => Keeps.read.bind fun _ =>
      Keeps.guard.bind fun _ => hbase.bind fun _ => sync_keeps

/-- From any start and whatever comes in the way, a recovery leaves every tree as it is that is not
the one of the journal. -/
theorem recover_keeps (hnames : ∀ j, o = some j → j.names t = false) :
    Triple (fun w => At y t w ∧ w.journal = o) (recover project) (fun _ => At y t) (At y t) := by
  have hread : Triple (fun w => At y t w ∧ w.journal = o) (readJournal project)
      (fun a w => a = o ∧ At y t w) (At y t) := by
    refine (Triple.read (Q := fun a w => a = o ∧ At y t w) (fun _ hw => hw.1) fun w a hw ha =>
      ?_).bind fun a => ?_
    · exact ⟨(some.inj ha).symm.trans hw.2, hw.1⟩
    · exact (Triple.guard (Q := fun _ w => a = o ∧ At y t w) (fun _ hw => hw.2) fun _ _ => id).bind
        fun _ => Triple.pure (Q := fun a w => a = o ∧ At y t w)
  have hremove : Keeps (At y t) (do removeJournal; sync) := by
    refine Keeps.bind (Keeps.act fun w ws heq g hg => ?_) fun _ => sync_keeps
    cases heq
    obtain rfl := mem_singleton.1 hg
    exact fun _ hw => hw
  refine hread.bind fun a fs w hw => ?_
  obtain ⟨rfl, hw⟩ := hw
  cases a with
  | none => exact hw
  | some j =>
    refine Keeps.bind (P := At y t) (Keeps.read (f := fun w => some (w.states j.state)))
      (fun rec => ?_) fs w hw
    cases rec with
    | some rec => exact recoverSaved_keeps.bind fun _ => hremove
    | none => exact (recoverIndex_keeps (hnames j rfl)).bind fun _ => hremove

end Others

/-! ## Any number of interruptions -/

def recoveries (project : String) (rs : List (List Fault)) (w : World) : World :=
  rs.foldl (fun w fs => (recover project fs w).2.2) w

/-- Any number of recoveries, each stopped somewhere, stays within the phases. -/
theorem phase_recoveries (hs : Started project B j T) (rs : List (List Fault))
    (hw : Phase B j T w) : Phase B j T (recoveries project rs w) :=
  List.foldlRecOn _ _ hw fun _ hw fs _ => (recover_triple hs).final fs hw

/-- One copy of the staged tree: the state, immutable and without an index, if it is recorded, and
otherwise the index, writable and with its mode. The identity of a tree is in its `core`. -/
structure OneCopy (project line id : String) (T : Tree) (w₀ w : World) : Prop where
  journal : w.journal = none
  saved : (w.states id).isSome = true → w.states id = some ⟨T.uuid, some line⟩ ∧
    w.trees (.stage line) = none ∧
    ∃ t, w.trees (target (journalOf project line id T)) = some t ∧ t.core = T.core ∧ Sealed T.mode t
  index : w.states id = none → w.trees (target (journalOf project line id T)) = none ∧
    ∃ t, w.trees (.stage line) = some t ∧ t.core = T.core ∧ t.mode = T.mode ∧ t.readonly = false ∧
      (t = T ∨ AllFlags false t)
  trees : ∀ y, y ≠ .stage line → y ≠ target (journalOf project line id T) → w.trees y = w₀.trees y
  states : ∀ id', id' ≠ id → w.states id' = w₀.states id'

/-- What a settled world has, in the words of the project: each of the two ends gives its half. -/
theorem Settled.oneCopy (h : Staged project line id T w₀) (hj : j = journalOf project line id T)
    (hw : Settled (w₀.started j) j T w) : OneCopy project line id T w₀ w := by
  have hne := stage_ne_target line j
  subst hj
  have hs := h.started rfl
  cases hw with
  | index hw =>
    obtain ⟨t, hcore, hrest, rfl⟩ := hw
    refine ⟨rfl, fun hsome => ?_, fun _ => ⟨(trees_put_of_ne hne.symm).trans hs.target, t,
      trees_put_self _ _ t, hcore, ?_⟩, fun y hy _ =>
        (trees_put_of_ne hy).trans (update_of_ne hy _ _),
      fun _ _ => rfl⟩
    · exact absurd hsome (not_isSome_iff_eq_none.2 h.record)
    · rcases hrest with rfl | ⟨hmode, hw⟩
      · exact ⟨rfl, h.readonly, .inl rfl⟩
      · exact ⟨hmode, hw.readonly, .inr hw.flags⟩
  | state hw =>
    obtain ⟨t, hcore, hsealed, rfl⟩ := hw
    have hrecord := update_self id (some (⟨T.uuid, some line⟩ : Saved)) w₀.states
    refine ⟨rfl, fun _ =>
      ⟨hrecord, (trees_put_of_ne hne).trans hs.stage, t, trees_put_self _ _ t, hcore, hsealed⟩,
        fun hnone => ?_, fun y hy hy' => (trees_put_of_ne hy').trans (update_of_ne hy _ _),
      fun id' hid => update_of_ne hid _ _⟩
    cases hrecord.symm.trans hnone

/-- A commit is interrupted anywhere, and so is any number of recoveries after it. The next recovery
that succeeds leaves one copy of the staged tree and no journal, and what was recorded before it
stays; one that nothing comes in the way of succeeds. And no recovery, from any start, touches a
tree that is not the one of the journal. -/
theorem recover_of_commit (h : Staged project line id T w₀) (save : Bool) (fs : List Fault)
    (rs : List (List Fault)) :
    (∀ gs gs' w, recover project gs
      (recoveries project rs (commit project line id save fs w₀).2.2) =
        (.ok (), gs', w) → OneCopy project line id T w₀ w ∧
      w.states = (recoveries project rs (commit project line id save fs w₀).2.2).states) ∧
    (∃ w, recover project [] (recoveries project rs (commit project line id save fs w₀).2.2) =
      (.ok (), [], w)) ∧ ∀ (w : World) (gs : List Fault) (y : Place) (t : Tree),
        w.trees y = some t →
      (∀ j, w.journal = some j → j.names t = false) →
        (recover project gs w).2.2.trees y = some t := by
  have hs := h.started rfl
  have hcommit := ((commit_total h rfl save).triple.mono (fun _ hw => hw) (fun _ _ => Settled.phase)
    fun _ hw => hw).final fs rfl
  have hphase := phase_recoveries hs rs hcommit
  have htotal := recover_total hs
    (recoveries project rs (commit project line id save fs w₀).2.2).states
  refine ⟨fun gs gs' w heq => ?_, ?_, fun w gs y t hy hnames => ?_⟩
  · have hend := htotal.triple gs _ ⟨hphase, rfl⟩
    rw [heq] at hend
    exact ⟨hend.1.oneCopy h rfl, hend.2⟩
  · obtain ⟨⟨⟩, w, heq⟩ := htotal.runs _ ⟨hphase, rfl⟩
    exact ⟨w, heq⟩
  · exact (recover_keeps hnames).final gs ⟨hy, rfl⟩

namespace Interrupted

def ofLine : String := "0a8f1c9e-6f0b-4d7a-9a51-0d2f4f7b1c11"
def ofState : String := "5d3c2b1a-1f2e-4c3d-8b4a-9e8f7d6c5b4a"

/-- An index whose root is not writable, with one file. -/
def index : Tree where
  isDir := true
  device := 1
  inode := 7
  uuid := "c0ffee00-0000-4000-8000-000000000001"
  base := none
  readonly := false
  mode := 0o555#12
  immutable := false
  entries := [⟨[], "file", false, false⟩]

def start : World where
  trees := update (fun _ => none) (.stage ofLine) (some index)
  base := fun _ => true
  journal := none
  states := fun _ => none

theorem staged_start : Staged "p" ofLine ofState index start where
  journal := rfl
  stage := by simp [start]
  isDir := rfl
  readonly := rfl
  target := by decide +kernel
  record := rfl
  isUuid_line := by decide +kernel
  isUuid_id := by decide +kernel
  isUuid_subvol := by decide +kernel

end Interrupted

/-- A commit that stops while the tree is made immutable, and a recovery that stops as it begins. -/
theorem recover_of_commit_stopped : ∃ w, recover "p" [] (recoveries "p" [[.crash fun _ => true]]
    (commit "p" Interrupted.ofLine Interrupted.ofState true
      (List.replicate 14 .none ++ [.crash fun _ => false]) Interrupted.start).2.2) =
        (.ok (), [], w) ∧
      OneCopy "p" Interrupted.ofLine Interrupted.ofState Interrupted.index Interrupted.start w := by
  obtain ⟨hone, ⟨w, hw⟩, -⟩ := recover_of_commit Interrupted.staged_start true
    (List.replicate 14 .none ++ [.crash fun _ => false]) [[.crash fun _ => true]]
  exact ⟨w, hw, (hone [] [] w hw).1⟩

end IndexCommit

end Layr
