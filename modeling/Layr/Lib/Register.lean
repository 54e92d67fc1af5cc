import Mathlib

/-!
# Last-writer-wins registers

A register keeps the value with the largest stamp it was written with. Writes with different stamps
commute, so the order in which they come does not matter (`foldl_write_perm`). A table of registers
is written key by key, a list of writes with one stamp at a time, where the first write of a key
counts (`getElem?_putAll`).
-/

namespace Layr.Register

open List

structure Stamped (O V : Type*) where
  ord : O
  val : V
deriving DecidableEq

namespace Stamped

def map {O V W : Type*} (f : V → W) (s : Stamped O V) : Stamped O W := ⟨s.ord, f s.val⟩

@[simp] theorem map_ord {O V W : Type*} (f : V → W) (s : Stamped O V) : (s.map f).ord = s.ord := rfl

@[simp] theorem map_val {O V W : Type*} (f : V → W) (s : Stamped O V) : (s.map f).val = f s.val :=
  rfl

end Stamped

/-! ## One register -/

section

variable {O V : Type*} [LinearOrder O]

/-- Write a register: a newer value replaces an older one. -/
def write (x : Option (Stamped O V)) (s : Stamped O V) : Option (Stamped O V) :=
  match x with
  | none => some s
  | some old => if old.ord < s.ord then some s else some old

@[simp] theorem write_none (s : Stamped O V) : write none s = some s := rfl

theorem write_some_of_lt {old s : Stamped O V} (h : old.ord < s.ord) :
    write (some old) s = some s := if_pos h

theorem write_some_of_le {old s : Stamped O V} (h : s.ord ≤ old.ord) :
    write (some old) s = some old := if_neg (not_lt.2 h)

/-- A newer write hides an older one, whichever comes first. -/
theorem write_write_of_lt {s t : Stamped O V} (h : s.ord < t.ord) (x : Option (Stamped O V)) :
    write (write x s) t = write x t := by
  cases x with
  | none => exact write_some_of_lt h
  | some old =>
    rcases lt_or_ge old.ord s.ord with hs | hs
    · rw [write_some_of_lt hs, write_some_of_lt h, write_some_of_lt (hs.trans h)]
    · rw [write_some_of_le hs]

theorem write_write_of_gt {s t : Stamped O V} (h : s.ord < t.ord) (x : Option (Stamped O V)) :
    write (write x t) s = write x t := by
  cases x with
  | none => exact write_some_of_le h.le
  | some old =>
    rcases lt_or_ge old.ord t.ord with ht | ht
    · rw [write_some_of_lt ht, write_some_of_le h.le]
    · rw [write_some_of_le ht, write_some_of_le (h.le.trans ht)]

/-- A second write with the same stamp does nothing. -/
theorem write_write_of_eq {s t : Stamped O V} (h : s.ord = t.ord) (x : Option (Stamped O V)) :
    write (write x s) t = write x s := by
  cases x with
  | none => exact write_some_of_le h.ge
  | some old =>
    rcases lt_or_ge old.ord s.ord with hs | hs
    · rw [write_some_of_lt hs, write_some_of_le h.ge]
    · rw [write_some_of_le hs, write_some_of_le (h.ge.trans hs)]

theorem write_comm {s t : Stamped O V} (h : s.ord ≠ t.ord) (x : Option (Stamped O V)) :
    write (write x s) t = write (write x t) s := by
  rcases lt_or_gt_of_ne h with h | h
  · rw [write_write_of_lt h, write_write_of_gt h]
  · rw [write_write_of_lt h, write_write_of_gt h]

/-- Writes with different stamps give the same value in any order. -/
theorem foldl_write_perm {ws ws' : List (Stamped O V)} (hp : ws.Perm ws')
    (hd : ∀ s ∈ ws, ∀ t ∈ ws, s ≠ t → s.ord ≠ t.ord) (x : Option (Stamped O V)) :
    ws.foldl write x = ws'.foldl write x := by
  refine hp.foldl_eq' (fun s hs t ht z => ?_) x
  by_cases hst : s = t
  · rw [hst]
  · exact write_comm (hd s hs t ht hst) z

/-- Write a register, when there is something to write. -/
def writeOpt (x : Option (Stamped O V)) (ord : O) : Option V → Option (Stamped O V)
  | none => x
  | some v => write x ⟨ord, v⟩

/-- A loop over writers of which only some write. -/
theorem foldl_writeOpt {α : Type*} (ord : α → O) (f : α → Option V) (rs : List α)
    (x : Option (Stamped O V)) : rs.foldl (fun x r => writeOpt x (ord r) (f r)) x =
      (rs.filterMap fun r => (f r).map fun v => Stamped.mk (ord r) v).foldl write x := by
  rw [foldl_filterMap]
  congr 1
  funext x r
  cases f r <;> rfl

/-- Writers with different stamps of their own can come in any order. -/
theorem foldl_write_filterMap_perm {α : Type*} {ord : α → O} {rs rs' : List α} (hp : rs.Perm rs')
    (hd : ∀ a ∈ rs, ∀ b ∈ rs, ord a = ord b → a = b) (f : α → Option V) (x : Option (Stamped O V)) :
    (rs.filterMap fun r => (f r).map fun v => Stamped.mk (ord r) v).foldl write x =
      (rs'.filterMap fun r => (f r).map fun v => Stamped.mk (ord r) v).foldl write x := by
  refine foldl_write_perm (hp.filterMap _) (fun s hs t ht hne heq => hne ?_) x
  obtain ⟨a, ha, hs⟩ := mem_filterMap.1 hs
  obtain ⟨b, hb, ht⟩ := mem_filterMap.1 ht
  obtain ⟨v, hv, rfl⟩ := Option.map_eq_some_iff.1 hs
  obtain ⟨w, hw, rfl⟩ := Option.map_eq_some_iff.1 ht
  obtain rfl := hd a ha b hb heq
  rw [Option.some.inj (hv.symm.trans hw)]

end

/-! ## Tables of registers -/

section

open Std (ExtTreeMap TransCmp LawfulEqCmp)

variable {O V W κ α : Type*} [LinearOrder O] {cmp : κ → κ → Ordering} [TransCmp cmp]
  [LawfulEqCmp cmp] [DecidableEq κ]

/-- Write one key: a new row, or a change of an older row. -/
def upsert (m : ExtTreeMap κ (Stamped O V) cmp) (k : κ) (ord : O) (fresh : V) (change : V → V) :
    ExtTreeMap κ (Stamped O V) cmp :=
  match m[k]? with
  | none => m.insert k ⟨ord, fresh⟩
  | some row => if row.ord < ord then m.insert k ⟨ord, change row.val⟩ else m

/-- Write one key with a value that replaces the row. -/
def put (m : ExtTreeMap κ (Stamped O V) cmp) (k : κ) (ord : O) (v : V) :
    ExtTreeMap κ (Stamped O V) cmp :=
  upsert m k ord v fun _ => v

/-- Write several keys with one stamp, from left to right. -/
def putAll (ord : O) (m : ExtTreeMap κ (Stamped O V) cmp) (es : List (κ × V)) :
    ExtTreeMap κ (Stamped O V) cmp :=
  es.foldl (fun m e => put m e.1 ord e.2) m

/-- What a reader sees of a written table, when it sees the same of a new and of a changed row. -/
theorem getElem?_upsert (view : V → W) {m : ExtTreeMap κ (Stamped O V) cmp} {k j : κ} {ord : O}
    {fresh : V} {change : V → V} (hview : ∀ v, view (change v) = view fresh) :
    (upsert m k ord fresh change)[j]?.map (Stamped.map view) =
      if k = j then write (m[j]?.map (Stamped.map view)) ⟨ord, view fresh⟩
      else m[j]?.map (Stamped.map view) := by
  unfold upsert
  by_cases hk : k = j
  · subst hk
    cases hm : m[k]? with
    | none => simp [Stamped.map]
    | some row =>
      simp only [Option.map_some]
      by_cases hlt : row.ord < ord
      · rw [if_pos hlt, write_some_of_lt (by exact hlt)]
        simp [Stamped.map, hview]
      · rw [if_neg hlt, write_some_of_le (by exact not_lt.1 hlt)]
        simp [hm]
  · rw [if_neg hk]
    have hne : ¬ cmp k j = .eq := fun h => hk (LawfulEqCmp.eq_of_compare h)
    split
    · rw [ExtTreeMap.getElem?_insert, if_neg hne]
    · split
      · rw [ExtTreeMap.getElem?_insert, if_neg hne]
      · rfl

theorem getElem?_put {m : ExtTreeMap κ (Stamped O V) cmp} {k j : κ} {ord : O} {v : V} :
    (put m k ord v)[j]? = if k = j then write m[j]? ⟨ord, v⟩ else m[j]? := by
  have h := @getElem?_upsert O V V κ _ cmp _ _ _ id m k j ord v (fun _ => v) fun _ => rfl
  have hid : (Stamped.map id : Stamped O V → Stamped O V) = id := rfl
  rw [hid, Option.map_id_fun] at h
  exact h

/-- Of the writes with one stamp the first of a key counts. -/
theorem getElem?_putAll {ord : O} {es : List (κ × V)} {m : ExtTreeMap κ (Stamped O V) cmp} {j : κ} :
    (putAll ord m es)[j]? = match es.find? (·.1 = j) with
      | none => m[j]?
      | some e => write m[j]? ⟨ord, e.2⟩ := by
  induction es generalizing m with
  | nil => rfl
  | cons e es ih =>
    rw [putAll, foldl_cons, ← putAll, ih, getElem?_put, find?_cons]
    by_cases he : e.1 = j
    · simp only [he, if_true, decide_true]
      split
      · rfl
      · next d _ => exact write_write_of_eq (s := ⟨ord, e.2⟩) (t := ⟨ord, d.2⟩) rfl m[j]?
    · simp [he]

/-- What a key holds after several writers, each with a stamp of its own. -/
theorem getElem?_foldl_putAll (ord : α → O) (writes : α → List (κ × V)) (rs : List α)
    (m : ExtTreeMap κ (Stamped O V) cmp) (j : κ) :
    (rs.foldl (fun m r => putAll (ord r) m (writes r)) m)[j]? =
    (rs.filterMap fun r => (((writes r).find? (·.1 = j)).map (·.2)).map fun v =>
      Stamped.mk (ord r) v).foldl write m[j]? := by
  induction rs generalizing m with
  | nil => rfl
  | cons r rs ih =>
    rw [foldl_cons, ih, getElem?_putAll, filterMap_cons]
    cases (writes r).find? (·.1 = j) <;> rfl

/-- Writers with different stamps leave the same table in any order. -/
theorem foldl_putAll_perm {ord : α → O} {writes : α → List (κ × V)} {rs rs' : List α}
    (hp : rs.Perm rs') (hd : ∀ a ∈ rs, ∀ b ∈ rs, ord a = ord b → a = b)
    (m : ExtTreeMap κ (Stamped O V) cmp) :
    rs.foldl (fun m r => putAll (ord r) m (writes r)) m =
      rs'.foldl (fun m r => putAll (ord r) m (writes r)) m := by
  refine ExtTreeMap.ext_getElem? fun j => ?_
  rw [getElem?_foldl_putAll, getElem?_foldl_putAll]
  exact foldl_write_filterMap_perm hp hd _ _

end

end Layr.Register
