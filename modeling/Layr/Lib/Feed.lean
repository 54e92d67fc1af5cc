import Mathlib

/-!
# Change feeds

A log numbers the changes of a table: each key has the number of its last change, and a deleted key
leaves a tombstone with the number of its deletion. Tombstones can be forgotten; the floor is then
at least as high as their numbers.

A reader that holds the table as it was at a number asks for what changed since. If the numbers
given since are higher (`Log.Follows`) and the floor is not above its number, the changes bring the
reader to the present (`patch_eq_live`). The changes of one answer may be read at different moments:
what is lost then is a deletion whose tombstone is forgotten between the look at the floor and the
look at the tombstones (`patch_scattered_iff`).
-/

namespace Layr.Feed

/-- The last change of each key, and the number up to which tombstones may be forgotten. -/
structure Log (κ V : Type*) where
  entry : κ → Option (ℕ × Option V)
  floor : ℕ

variable {κ V : Type*} {a b c s₀ s₁ s₂ s₃ s₄ s₅ : Log κ V} {h h' mark : ℕ}
  {copy : κ → Option V} {k : κ}

namespace Log

def live (a : Log κ V) (k : κ) : Option V := (a.entry k).bind (·.2)

/-- The second log comes after the first, and the numbers given in between are above `h`: a key is
unchanged, or changed, or forgotten. -/
structure Follows (h : ℕ) (a b : Log κ V) : Prop where
  floor_le : a.floor ≤ b.floor
  entry : ∀ k, b.entry k = a.entry k ∨ (∃ e, b.entry k = some e ∧ h < e.1) ∨
    (b.entry k = none ∧ (h < b.floor ∨ ∃ n, a.entry k = some (n, none) ∧ n ≤ b.floor))

/-- A copy is right where the log has no later change than `h`. -/
def Agrees (h : ℕ) (copy : κ → Option V) (a : Log κ V) : Prop :=
  ∀ k, (a.entry k = none → copy k = none) ∧ ∀ n v, a.entry k = some (n, v) → n ≤ h → copy k = v

end Log

open Log

variable {e : ℕ × Option V}

theorem live_eq (he : a.entry k = some e) : a.live k = e.2 := by
  rw [live, he]
  rfl

theorem live_eq_none (he : a.entry k = none) : a.live k = none := by
  rw [live, he]
  rfl

theorem agrees_live (h : ℕ) (a : Log κ V) : Agrees h a.live a :=
  fun _ => ⟨live_eq_none, fun _ _ he _ => live_eq he⟩

namespace Log.Follows

theorem refl (h : ℕ) (a : Log κ V) : Follows h a a := ⟨le_rfl, fun _ => .inl rfl⟩

theorem mono (hf : Follows h a b) (hle : h' ≤ h) : Follows h' a b := by
  refine ⟨hf.floor_le, fun k => ?_⟩
  rcases hf.entry k with heq | ⟨e, he, hlt⟩ | ⟨hnone, hlt | hold⟩
  · exact .inl heq
  · exact .inr (.inl ⟨e, he, hle.trans_lt hlt⟩)
  · exact .inr (.inr ⟨hnone, .inl (hle.trans_lt hlt)⟩)
  · exact .inr (.inr ⟨hnone, .inr hold⟩)

theorem trans (hab : Follows h a b) (hbc : Follows h b c) : Follows h a c := by
  refine ⟨hab.floor_le.trans hbc.floor_le, fun k => ?_⟩
  rcases hbc.entry k with heq | hnew | ⟨hnone, hgone⟩
  · rw [heq]
    rcases hab.entry k with heq' | hnew | ⟨hnone, hgone⟩
    · exact .inl heq'
    · exact .inr (.inl hnew)
    · refine .inr
        (.inr ⟨hnone, hgone.imp (fun hlt => hlt.trans_le hbc.floor_le) fun ⟨n, hn, hle⟩ => ?_⟩)
      exact ⟨n, hn, hle.trans hbc.floor_le⟩
  · exact .inr (.inl hnew)
  · refine .inr (.inr ⟨hnone, ?_⟩)
    rcases hgone with hlt | ⟨n, hn, hle⟩
    · exact .inl hlt
    rcases hab.entry k with heq | ⟨e, he, hlt⟩ | ⟨hnone', -⟩
    · exact .inr ⟨n, heq.symm.trans hn, hle⟩
    · -- the tombstone was made in between
      cases he.symm.trans hn
      exact .inl (hlt.trans_le hle)
    · rw [hnone'] at hn
      cases hn

/-- What has no later number now had no other one before. -/
theorem entry_eq (hf : Follows h a b) (he : b.entry k = some e) (hle : e.1 ≤ h) :
    a.entry k = some e := by
  rcases hf.entry k with heq | ⟨e', he', hlt⟩ | ⟨hnone, -⟩
  · rw [← heq, he]
  · cases he'.symm.trans he
    exact absurd hle (not_le.2 hlt)
  · rw [hnone] at he
    cases he

/-- While the floor is low, only a tombstone with a low number can be forgotten. -/
theorem eq_none (hf : Follows h a b) (hfloor : b.floor ≤ h) (hb : b.entry k = none) :
    a.entry k = none ∨ ∃ n, a.entry k = some (n, none) ∧ n ≤ b.floor := by
  rcases hf.entry k with heq | ⟨e, he, -⟩ | ⟨-, hlt | hold⟩
  · exact .inl (heq.symm.trans hb)
  · rw [hb] at he
    cases he
  · exact absurd hfloor (not_le.2 hlt)
  · exact .inr hold

end Log.Follows

/-! ## One answer -/

/-- Bring a copy to the state of a log by its changes above a mark. -/
def patch (copy : κ → Option V) (mark : ℕ) (b : Log κ V) (k : κ) : Option V :=
  match b.entry k with
  | some (n, v) => if mark < n then v else copy k
  | none => copy k

theorem patch_none (hb : b.entry k = none) : patch copy mark b k = copy k := by
  rw [patch, hb]

variable {n : ℕ} {v : Option V}

theorem patch_of_lt (hb : b.entry k = some (n, v)) (hlt : mark < n) : patch copy mark b k = v := by
  rw [patch, hb]
  exact if_pos hlt

theorem patch_of_le (hb : b.entry k = some (n, v)) (hle : n ≤ mark) :
    patch copy mark b k = copy k := by
  rw [patch, hb]
  exact if_neg (not_lt.2 hle)

/-- A copy that is right up to the mark is brought to the present. -/
theorem patch_eq_live (hcopy : Agrees h copy a) (hf : Follows h a b) (hfloor : b.floor ≤ h) :
    patch copy h b = b.live := by
  funext k
  match hb : b.entry k with
  | none =>
    rw [patch_none hb, live_eq_none hb]
    rcases hf.eq_none hfloor hb with hnone | ⟨n, hn, hle⟩
    · exact (hcopy k).1 hnone
    · exact (hcopy k).2 n none hn (hle.trans hfloor)
  | some (n, v) =>
    rw [live_eq hb]
    by_cases hlt : h < n
    · exact patch_of_lt hb hlt
    · have hle : n ≤ h := not_lt.1 hlt
      rw [patch_of_le hb hle]
      exact (hcopy k).2 n v (hf.entry_eq hb hle) hle

/-! ## An answer read at several moments -/

/-- Take out the keys whose tombstones are above the mark and not above `h`. -/
def dropTombstones (copy : κ → Option V) (mark h : ℕ) (a : Log κ V) (k : κ) : Option V :=
  match a.entry k with
  | some (n, none) => if mark < n ∧ n ≤ h then none else copy k
  | _ => copy k

/-- Put in the rows that are above the mark and not above `h`. -/
def putRows (copy : κ → Option V) (mark h : ℕ) (a : Log κ V) (k : κ) : Option V :=
  match a.entry k with
  | some (n, some v) => if mark < n ∧ n ≤ h then some v else copy k
  | _ => copy k

def snapshot (h : ℕ) (a : Log κ V) : κ → Option V := putRows (fun _ => none) 0 h a

theorem putRows_of_ne (hne : ∀ n v, a.entry k = some (n, some v) → ¬ (mark < n ∧ n ≤ h)) :
    putRows copy mark h a k = copy k := by
  unfold putRows
  split
  · next n v he => exact if_neg (hne n v he)
  · rfl

theorem putRows_of_entry {v : V} (he : a.entry k = some (n, some v)) (hn : mark < n ∧ n ≤ h) :
    putRows copy mark h a k = some v := by
  rw [putRows, he]
  exact if_pos hn

theorem dropTombstones_of_entry (he : a.entry k = some (n, none)) (hn : mark < n ∧ n ≤ h) :
    dropTombstones copy mark h a k = none := by
  rw [dropTombstones, he]
  exact if_pos hn

theorem dropTombstones_of_ne (hne : ∀ n, a.entry k = some (n, none) → ¬ (mark < n ∧ n ≤ h)) :
    dropTombstones copy mark h a k = copy k := by
  unfold dropTombstones
  split
  · next n he => exact if_neg (hne n he)
  · rfl

/-- Read at one moment whose numbers are not above `h`, both together are the patch. -/
theorem putRows_dropTombstones (hmax : ∀ k e, a.entry k = some e → e.1 ≤ h) :
    putRows (dropTombstones copy mark h a) mark h a = patch copy mark a := by
  funext k
  match ha : a.entry k with
  | none =>
    rw [patch_none ha, putRows, ha]
    simp [dropTombstones, ha]
  | some (n, v) =>
    have hle : n ≤ h := hmax k _ ha
    by_cases hlt : mark < n
    · rw [patch_of_lt ha hlt]
      cases v with
      | none =>
        rw [putRows_of_ne fun m v hm => by rw [ha] at hm; cases hm]
        exact dropTombstones_of_entry ha ⟨hlt, hle⟩
      | some v => exact putRows_of_entry ha ⟨hlt, hle⟩
    · have hnot : ∀ m : ℕ, m = n → ¬ (mark < m ∧ m ≤ h) := fun m hm hlt' => hlt (hm ▸ hlt'.1)
      rw [patch_of_le ha (not_lt.1 hlt), putRows_of_ne fun m v hm => hnot m ?_,
        dropTombstones_of_ne fun m hm => hnot m ?_]
      · rw [ha] at hm
        cases hm
        rfl
      · rw [ha] at hm
        cases hm
        rfl

theorem snapshot_eq_live (hmax : ∀ k e, a.entry k = some e → 0 < e.1 ∧ e.1 ≤ h) :
    snapshot h a = a.live := by
  funext k
  match ha : a.entry k with
  | none =>
    rw [live_eq_none ha]
    exact putRows_of_ne fun m v hm => by rw [ha] at hm; cases hm
  | some (n, none) =>
    rw [live_eq ha]
    exact putRows_of_ne fun m v hm => by rw [ha] at hm; cases hm
  | some (n, some v) =>
    rw [live_eq ha]
    exact putRows_of_entry ha (hmax k _ ha)

/-- A snapshot is right up to its mark, also when the log has gone on. -/
theorem agrees_snapshot (hpos : ∀ k e, a.entry k = some e → 0 < e.1) :
    Agrees h (snapshot h a) a := by
  refine fun k => ⟨fun hnone => ?_, fun n v he hle => ?_⟩
  · exact putRows_of_ne fun m v hm => by rw [hnone] at hm; cases hm
  · cases v with
    | none => exact putRows_of_ne fun m v hm => by rw [he] at hm; cases hm
    | some v => exact putRows_of_entry he ⟨hpos k _ he, hle⟩

/-- A key that was changed after `h` is not forgotten while the floor is not above `h`. -/
theorem Log.Follows.ne_none (hf : Follows h a b) (hfloor : b.floor ≤ h)
    (he : a.entry k = some e) (hlt : h < e.1) : b.entry k ≠ none := by
  intro hb
  rcases hf.eq_none hfloor hb with hnone | ⟨n, hn, hle⟩
  · rw [hnone] at he
    cases he
  · cases he.symm.trans hn
    exact absurd (hle.trans hfloor) (not_le.2 hlt)

section

variable (h₀₁ : Follows mark s₀ s₁) (h₁₂ : Follows h s₁ s₂) (h₂₃ : Follows h s₂ s₃)
include h₀₁ h₁₂ h₂₃

/-- A key of the copy that is gone at the end: its tombstone was there when the floor was read, and
was forgotten, or was read, when the tombstones were. -/
theorem tombstone_of_gone (h₃₅ : Follows h s₃ s₅) (hle : mark ≤ h) (hfloor : s₂.floor ≤ mark)
    (hfloor' : s₅.floor ≤ h) (hlive : s₀.live k ≠ none) (hgone : s₅.entry k = none) :
    ∃ n, s₂.entry k = some (n, none) ∧ mark < n ∧ n ≤ h ∧
        (s₃.entry k = some (n, none) ∨ s₃.entry k = none) := by
  -- at the first moment the key has its old row or a newer change
  obtain ⟨e₁, he₁, hnew⟩ : ∃ e, s₁.entry k = some e ∧ (e.2 = none → mark < e.1) := by
    rcases h₀₁.entry k with heq | ⟨e, he, hlt⟩ | ⟨-, hlt | ⟨n, hn, -⟩⟩
    · match he₀ : s₀.entry k with
      | none => exact absurd (live_eq_none he₀) hlive
      | some e =>
        refine ⟨e, heq.trans he₀, fun hnone => absurd ?_ hlive⟩
        rw [live_eq he₀, hnone]
    · exact ⟨e, he, fun _ => hlt⟩
    · exact absurd (h₁₂.floor_le.trans hfloor) (not_le.2 hlt)
    · exact absurd (live_eq hn) hlive
  have h₂₅ := h₂₃.trans h₃₅
  -- it is still there at the second moment
  obtain ⟨e₂, he₂⟩ : ∃ e, s₂.entry k = some e := by
    match he₂ : s₂.entry k with
    | some e => exact ⟨e, rfl⟩
    | none =>
      rcases h₁₂.eq_none (hfloor.trans hle) he₂ with hnone | ⟨n, hn, hn'⟩
      · rw [hnone] at he₁
        cases he₁
      · cases he₁.symm.trans hn
        exact absurd (hn'.trans hfloor) (not_le.2 (hnew rfl))
  have hle₂ : e₂.1 ≤ h := not_lt.1 fun hlt => h₂₅.ne_none hfloor' he₂ hlt hgone
  -- so it is the same entry, and a tombstone, for only those are forgotten
  cases he₁.symm.trans (h₁₂.entry_eq he₂ hle₂)
  rcases h₂₅.eq_none hfloor' hgone with hnone | ⟨n, hn, -⟩
  · rw [hnone] at he₂
    cases he₂
  cases he₂.symm.trans hn
  refine ⟨n, hn, hnew rfl, hle₂, ?_⟩
  rcases h₂₃.entry k with heq | ⟨e, he, hlt⟩ | ⟨hnone, -⟩
  · exact .inl (heq.trans hn)
  · exact absurd hgone (h₃₅.ne_none hfloor' he hlt)
  · exact .inr hnone

/-- An answer whose mark, floor, tombstones and rows are read one after another, and the answer
after it: together they bring the copy to the present, unless a tombstone is forgotten between the
look at the floor and the look at the tombstones. -/
theorem patch_scattered_iff (h₃₄ : Follows h s₃ s₄) (h₄₅ : Follows h s₄ s₅) (hle : mark ≤ h)
    (hfloor : s₂.floor ≤ mark) (hfloor' : s₅.floor ≤ h) :
    patch (putRows (dropTombstones s₀.live mark h s₃) mark h s₄) h s₅ = s₅.live ↔
    ∀ k n, s₀.live k ≠ none → s₂.entry k = some (n, none) → mark < n → n ≤ h →
      s₃.entry k = none → s₅.entry k ≠ none := by
  have h₃₅ := h₃₄.trans h₄₅
  constructor
  · -- a key that is gone without a trace stays in the copy
    intro heq k n hlive hn hlt hnh hnone₃ hnone₅
    refine hlive ?_
    have hk := congrFun heq k
    rw [patch_none hnone₅, live_eq_none hnone₅, putRows_of_ne, dropTombstones_of_ne] at hk
    · exact hk
    · intro m hm
      rw [hnone₃] at hm
      cases hm
    intro m v hm
    rcases h₃₄.entry k with heq' | ⟨e, he, hlt'⟩ | ⟨hnone, -⟩
    · rw [heq', hnone₃] at hm
      cases hm
    · cases he.symm.trans hm
      exact fun hm' => absurd hm'.2 (not_le.2 hlt')
    · rw [hnone] at hm
      cases hm
  · intro hkept
    funext k
    match he₅ : s₅.entry k with
    | some (n, v) =>
      rw [live_eq he₅]
      by_cases hlt : h < n
      · exact patch_of_lt he₅ hlt
      -- an entry that is not above `h` was there at all moments
      have hnh : n ≤ h := not_lt.1 hlt
      have he₄ := h₄₅.entry_eq he₅ hnh
      have he₃ := h₃₄.entry_eq he₄ hnh
      rw [patch_of_le he₅ hnh]
      by_cases hmark : mark < n
      · cases v with
        | none =>
          rw [putRows_of_ne fun m v hm => by rw [he₄] at hm; cases hm]
          exact dropTombstones_of_entry he₃ ⟨hmark, hnh⟩
        | some v => exact putRows_of_entry he₄ ⟨hmark, hnh⟩
      have he₀ := h₀₁.entry_eq (h₁₂.entry_eq (h₂₃.entry_eq he₃ hnh) hnh) (not_lt.1 hmark)
      rw [putRows_of_ne, dropTombstones_of_ne, live_eq he₀]
      · intro m hm hm'
        rw [he₃] at hm
        cases hm
        exact hmark hm'.1
      · intro m w hm hm'
        rw [he₄] at hm
        cases hm
        exact hmark hm'.1
    | none =>
      rw [patch_none he₅, live_eq_none he₅, putRows_of_ne]
      · by_contra hcopy
        have hlive : s₀.live k ≠ none := by
          intro hnone
          refine hcopy ?_
          unfold dropTombstones
          split
          · split
            · rfl
            · exact hnone
          · exact hnone
        obtain ⟨n, hn, hlt, hnh, hn₃ | hnone₃⟩ :=
          tombstone_of_gone h₀₁ h₁₂ h₂₃ h₃₅ hle hfloor hfloor' hlive he₅
        · exact hcopy (dropTombstones_of_entry hn₃ ⟨hlt, hnh⟩)
        · exact hkept k n hlive hn hlt hnh hnone₃ he₅
      · intro m v hm
        rcases h₄₅.eq_none hfloor' he₅ with hnone | ⟨n, hn, -⟩
        · rw [hnone] at hm
          cases hm
        · rw [hn] at hm
          cases hm

end

end Layr.Feed
