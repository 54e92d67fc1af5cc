import Layr.Project
import Layr.Store

/-!
# Merge bases

The best common ancestor of two states, as the model of a project finds it and as the service does.
Both take the first common ancestor, in the order of a breadth-first walk from the first state, that
is a proper ancestor of no other. The project searches from every common ancestor, the service once
from the parents of all of them. The walks of the service stop at a cache or derived state.
-/

namespace Layr

open List Bool
open Relation (TransGen)

namespace Project

variable (p : Project) (a b : String)

/-- The common ancestors, in the order of the walk from the first state. -/
def common : List String := (p.ancestors a).filter ((p.ancestors b).contains ·)

def mergeBase : Option String :=
  (p.common a b).find? fun c => !(p.common a b).any fun d => d != c && (p.ancestors d).contains c

/-- Both states are the state or descend from it. -/
def Common (c : String) : Prop := p.history.Reaches a c ∧ p.history.Reaches b c

def Acyclic : Prop := ∀ x, ¬TransGen p.history.Step x x

def isAuxiliary (id : String) : Bool := (p.state id).any (·.kind.auxiliary)

end Project

namespace Repo

variable (p : Project)

def kindStr : StateKind → String
  | .commit => "commit"
  | .auto => "auto"
  | .stash => "stash"
  | .import => "import"
  | .cache => "cache"
  | .derived => "derived"

/-- The error of `source_state` for an auxiliary state. -/
def outside (id : String) : String :=
  "state " ++ String.ofList ((displayId id).toList.take 7) ++ " is " ++
    ((p.state id).map (kindStr ·.kind)).getD "" ++
    "; cache and derived states are outside source history, diff, merge and Git export"

/-- All ancestors of the seeds, breadth first. The first auxiliary state ends the walk. -/
def ancestorsOf (seeds : List String) : Except String (List String) :=
  let order := p.history.search .breadth [] seeds
  match order.find? p.isAuxiliary with
  | some x => .error (outside p x)
  | none => .ok order

def mergeBase (a b : String) : Except String (Option String) := do
  let aa ← ancestorsOf p [a]
  let bs ← ancestorsOf p [b]
  let common := aa.filter (bs.contains ·)
  let below ← ancestorsOf p (common.flatMap p.history.next)
  return common.find? fun c => !below.contains c

end Repo

namespace Project

variable {p : Project} {a b c : String}

theorem mem_common : c ∈ p.common a b ↔ p.Common a b c := by
  simp [common, ancestors, Search.Graph.mem_search, Common]

theorem any_common_iff (hacyclic : p.Acyclic) :
    ((p.common a b).any fun d => d != c && (p.ancestors d).contains c) = true ↔
      ∃ d, p.Common a b d ∧ TransGen p.history.Step d c := by
  simp only [any_eq_true, mem_common, and_eq_true, bne_iff_ne, contains_iff_mem]
  refine exists_congr fun d => and_congr_right fun _ => ?_
  rw [ancestors, Search.Graph.mem_search]
  constructor
  · rintro ⟨hne, hreach⟩
    exact (Relation.reflTransGen_iff_eq_or_transGen.1 hreach).resolve_left fun heq => hne heq.symm
  · intro h
    exact ⟨fun heq => hacyclic d (heq ▸ h), h.to_reflTransGen⟩

theorem mem_below_iff : c ∈ p.history.search .breadth [] ((p.common a b).flatMap p.history.next) ↔
    ∃ d, p.Common a b d ∧ TransGen p.history.Step d c := by
  simp only [Search.Graph.mem_search_list, mem_flatMap, mem_common]
  constructor
  · rintro ⟨x, ⟨d, hd, hx⟩, hreach⟩
    exact ⟨d, hd, .head' hx hreach⟩
  · rintro ⟨d, hd, h⟩
    obtain ⟨x, hx, hreach⟩ := TransGen.head'_iff.1 h
    exact ⟨x, ⟨d, hd, hx⟩, hreach⟩

/-- The one walk below all common ancestors leaves out what the searches from each of them do. -/
theorem mergeBase_eq (hacyclic : p.Acyclic) : p.mergeBase a b = (p.common a b).find? fun c =>
    !(p.history.search .breadth [] ((p.common a b).flatMap p.history.next)).contains c := by
  rw [mergeBase]
  congr 1
  funext c
  rw [Bool.eq_iff_iff, not_eq_true', not_eq_true', ← not_eq_true, ← not_eq_true,
    any_common_iff hacyclic, contains_iff_mem, mem_below_iff]

theorem ancestorsOf_eq_ok {seeds l : List String} : Repo.ancestorsOf p seeds = .ok l ↔
    (∀ s ∈ seeds, ∀ x, p.history.Reaches s x → p.isAuxiliary x = false) ∧
      l = p.history.search .breadth [] seeds := by
  have hnone : (p.history.search .breadth [] seeds).find? p.isAuxiliary = none ↔
      ∀ s ∈ seeds, ∀ x, p.history.Reaches s x → p.isAuxiliary x = false := by
    simp only [find?_eq_none, Search.Graph.mem_search_list, not_eq_true]
    exact ⟨fun h s hs x hx => h x ⟨s, hs, hx⟩, fun h x ⟨s, hs, hx⟩ => h s hs x hx⟩
  rw [Repo.ancestorsOf, ← hnone]
  cases (p.history.search .breadth [] seeds).find? p.isAuxiliary <;> simp [eq_comm]

/-- The project finds a common ancestor that is below no other, if there is one. The service finds
the same, unless one of the two states has an auxiliary ancestor: then it fails. -/
theorem merge_bases (hacyclic : p.Acyclic) : ((p.mergeBase a b).isSome ↔ ∃ c, p.Common a b c) ∧
      (∀ m, p.mergeBase a b = some m → p.Common a b m ∧ ∀ c, p.Common a b c →
        ¬TransGen p.history.Step c m) ∧
      ∀ m, Repo.mergeBase p a b = .ok m ↔
        (∀ x, p.history.Reaches a x ∨ p.history.Reaches b x → p.isAuxiliary x = false) ∧
          m = p.mergeBase a b := by
  refine ⟨?_, fun m hm => ?_, fun m => ?_⟩
  · rw [mergeBase, find?_isSome]
    simp only [mem_common, not_eq_true', ← not_eq_true, any_common_iff hacyclic]
    refine ⟨fun ⟨c, hc, _⟩ => ⟨c, hc⟩, fun ⟨c, hc⟩ => ?_⟩
    obtain ⟨m, hm, htop⟩ := Search.Graph.exists_top hacyclic (ne_nil_of_mem (mem_common.2 hc))
    exact ⟨m, mem_common.1 hm, fun ⟨d, hd, h⟩ => htop d (mem_common.2 hd) h⟩
  · have htop := find?_some hm
    rw [not_eq_true', ← not_eq_true, any_common_iff hacyclic] at htop
    exact ⟨mem_common.1 (mem_of_find?_eq_some hm), fun c hc h => htop ⟨c, hc, h⟩⟩
  · simp only [Repo.mergeBase, bind_eq_ok, ancestorsOf_eq_ok, pure_eq_ok, forall_mem_singleton]
    constructor
    · rintro ⟨_, ⟨ha, rfl⟩, _, ⟨hb, rfl⟩, _, ⟨-, rfl⟩, rfl⟩
      exact ⟨fun x hx => hx.elim (ha x) (hb x), (mergeBase_eq hacyclic).symm⟩
    · rintro ⟨hnone, rfl⟩
      refine ⟨_, ⟨fun x hx => hnone x (.inl hx), rfl⟩, _, ⟨fun x hx => hnone x (.inr hx), rfl⟩, _,
        ⟨fun s hs x hx => ?_, rfl⟩, (mergeBase_eq hacyclic).symm⟩
      -- What is below a common ancestor is an ancestor of the first state.
      obtain ⟨d, hd, hs⟩ := mem_flatMap.1 hs
      exact hnone x (.inl (((mem_common.1 hd).1.tail hs).trans hx))

/-- Two states are each merged into the other: a criss-cross history, with a missing and a repeated
parent. The parents have shorter ids. -/
def crissCross : Project where
  id := "p"
  machine := "m"
  states := Std.ExtTreeMap.ofList ([("r", []), ("a1", ["r"]), ("b1", ["r", "m"]),
    ("ab1", ["a1", "b1"]), ("ba1", ["b1", "a1", "b1"])].map fun e =>
      (e.1, StateView.mk { id := e.1, kind := .commit, parents := e.2 } "m" false))

theorem merge_bases_crissCross :
    crissCross.Acyclic ∧ (∀ c ∈ ["r", "a1", "b1"], crissCross.Common "ab1" "ba1" c) ∧
      ∃ m, crissCross.mergeBase "ab1" "ba1" = some m ∧
        (∀ c, crissCross.Common "ab1" "ba1" c → ¬TransGen crissCross.history.Step c m) ∧
        Repo.mergeBase crissCross "ab1" "ba1" = .ok (some m) := by
  have hstates : ∀ e ∈ crissCross.states.toList, e.2.state.kind.auxiliary = false ∧
      ∀ q ∈ e.2.state.parents, q.length < e.1.length := by decide +kernel
  have hat : ∀ {x : String} {v}, crissCross.states[x]? = some v →
      (x, v) ∈ crissCross.states.toList := Std.ExtTreeMap.mem_toList_iff_getElem?_eq_some.2
  have hstep : ∀ x y, crissCross.history.Step x y → y.length < x.length := fun x y h => by
    simp only [Search.Graph.Step, history, state] at h
    cases hx : crissCross.states[x]? with
    | none => simp [hx] at h
    | some v => exact (hstates _ (hat hx)).2 y (by simpa [hx] using h)
  have hshort : ∀ {x y}, TransGen crissCross.history.Step x y → y.length < x.length := fun h => by
    induction h with
    | single h => exact hstep _ _ h
    | tail _ h ih => exact (hstep _ _ h).trans ih
  have hacyclic : crissCross.Acyclic := fun x h => lt_irrefl _ (hshort h)
  have hreach : ∀ e ∈ [("ab1", "a1"), ("ab1", "b1"), ("ba1", "a1"), ("ba1", "b1"), ("a1", "r")],
      crissCross.history.Reaches e.1 e.2 := fun e he =>
    .single ((by decide +kernel : ∀ e ∈ [("ab1", "a1"), ("ab1", "b1"), ("ba1", "a1"), ("ba1", "b1"),
      ("a1", "r")], e.2 ∈ crissCross.history.next e.1) e he)
  simp only [forall_mem_cons] at hreach ⊢
  obtain ⟨haa, hab, hba, hbb, har, -⟩ := hreach
  obtain ⟨hsome, htop, hrepo⟩ := merge_bases (a := "ab1") (b := "ba1") hacyclic
  obtain ⟨m, hm⟩ := Option.isSome_iff_exists.1 (hsome.2 ⟨"a1", haa, hba⟩)
  refine ⟨hacyclic, ⟨⟨haa.trans har, hba.trans har⟩, ⟨haa, hba⟩, ⟨hab, hbb⟩, nofun⟩, m, hm,
    (htop m hm).2, (hrepo _).2 ⟨fun x _ => ?_, hm.symm⟩⟩
  rw [isAuxiliary, state]
  cases hx : crissCross.states[x]? with
  | none => rfl
  | some v => exact (hstates _ (hat hx)).1

def derivedOnly : Project where
  id := "p"
  machine := "m"
  states := (∅ : BTreeMap StateView).insert "d" ⟨{ id := "d", kind := .derived }, "m", false⟩

/-- A derived state is an ancestor of itself, but the service finds no merge base for it. -/
theorem derivedOnly_fails : derivedOnly.Common "d" "d" "d" ∧
    ∀ m, Repo.mergeBase derivedOnly "d" "d" ≠ .ok m := by
  refine ⟨⟨.refl, .refl⟩, fun m h => ?_⟩
  obtain ⟨_, haa, -⟩ := bind_eq_ok.1 h
  exact absurd ((ancestorsOf_eq_ok.1 haa).1 "d" (mem_singleton_self _) "d" .refl)
    (by decide +kernel)

end Project

end Layr
