import Mathlib

/-!
# Searching a graph

A graph with finitely many nodes that have successors is searched from a start with a list of nodes
still to visit, as a queue or as a stack. The search visits exactly the nodes that can be reached
from the start (`mem_search`), in either order, whatever cycles the graph has.
-/

namespace Layr.Search

open List

variable {α : Type*} [DecidableEq α]

/-- A graph where only the listed nodes have successors. -/
structure Graph (α : Type*) where
  next : α → List α
  nodes : List α
  mem_nodes : ∀ x, next x ≠ [] → x ∈ nodes

/-- Whether new nodes are visited last (a queue) or first (a stack). -/
inductive Order where
  | breadth
  | depth

/-- The nodes still to visit after new ones are added. A stack takes the last of them first. -/
def Order.push (o : Order) (new rest : List α) : List α :=
  match o with
  | .breadth => rest ++ new
  | .depth => new.reverse ++ rest

variable {o : Order}

omit [DecidableEq α] in
@[simp] theorem Order.mem_push {new rest : List α} {x : α} : x ∈ o.push new rest ↔
    x ∈ new ∨ x ∈ rest := by
  cases o <;> simp [push, or_comm]

omit [DecidableEq α] in
@[simp] theorem Order.length_push (o : Order) (new rest : List α) :
    (o.push new rest).length = new.length + rest.length := by
  cases o <;> simp [push, Nat.add_comm]

namespace Graph

/-- A bound on the visits that the nodes outside `seen` can still cause. -/
def todo (g : Graph α) (seen : List α) : Nat :=
  ((g.nodes.filter (· ∉ seen)).map fun x => (g.next x).length + 1).sum

/-- The bound pays for the successors of a node that becomes visited. -/
theorem todo_append (g : Graph α) {seen : List α} {x : α} (hx : x ∉ seen) :
    g.todo (seen ++ [x]) + (g.next x).length ≤ g.todo seen := by
  have hsum : ∀ l : List α, ((l.filter (· ∉ seen ++ [x])).map fun y => (g.next y).length + 1).sum +
        (if x ∈ l then (g.next x).length else 0) ≤
      ((l.filter (· ∉ seen)).map fun y => (g.next y).length + 1).sum := by
    intro l
    induction l with
    | nil => simp
    | cons y l ih =>
      by_cases hyx : y = x
      · subst hyx
        rw [filter_cons_of_neg (by simp), filter_cons_of_pos (by simpa using hx)]
        simp only [mem_cons, true_or, if_true, map_cons, sum_cons]
        omega
      have hmem : x ∈ y :: l ↔ x ∈ l := by simp [Ne.symm hyx]
      by_cases hy : y ∈ seen
      · rw [filter_cons_of_neg (by simp [hy]), filter_cons_of_neg (by simp [hy])]
        simpa only [hmem] using ih
      · rw [filter_cons_of_pos (by simp [hy, hyx]), filter_cons_of_pos (by simp [hy])]
        simp only [hmem, map_cons, sum_cons]
        omega
  have h := hsum g.nodes
  unfold todo
  by_cases hnil : g.next x = []
  · rw [hnil] at h ⊢
    simpa using h
  · rwa [if_pos (g.mem_nodes x hnil)] at h

/-- Visit the pending nodes and all they lead to; the result lists the nodes in the order of their
first visit. -/
def search (g : Graph α) (o : Order) (seen pending : List α) : List α :=
  match pending with
  | [] => seen
  | x :: rest =>
    if x ∈ seen then g.search o seen rest
    else g.search o (seen ++ [x]) (o.push (g.next x) rest)
termination_by g.todo seen + pending.length
decreasing_by
  · simp only [length_cons]
    omega
  · next hx =>
    have := g.todo_append hx
    simp only [Order.length_push, length_cons]
    omega

def Step (g : Graph α) (a b : α) : Prop := b ∈ g.next a

def Reaches (g : Graph α) : α → α → Prop := Relation.ReflTransGen g.Step

/-- Every visited node was visited before or can be reached from a pending one. -/
theorem search_sound (g : Graph α) (o : Order) (seen pending : List α) {y : α}
    (h : y ∈ g.search o seen pending) : y ∈ seen ∨ ∃ x ∈ pending, g.Reaches x y := by
  fun_induction search g o seen pending with
  | case1 seen => exact .inl h
  | case2 seen x rest hx ih =>
    rcases ih h with hy | ⟨z, hz, hreach⟩
    · exact .inl hy
    · exact .inr ⟨z, mem_cons_of_mem _ hz, hreach⟩
  | case3 seen x rest hx ih =>
    rcases ih h with hy | ⟨z, hz, hreach⟩
    · rcases mem_append.1 hy with hy | hy
      · exact .inl hy
      · rw [mem_singleton] at hy
        exact .inr ⟨x, mem_cons_self, hy ▸ .refl⟩
    · rcases Order.mem_push.1 hz with hz | hz
      · exact .inr ⟨x, mem_cons_self, .head hz hreach⟩
      · exact .inr ⟨z, mem_cons_of_mem _ hz, hreach⟩

/-- When what the visited nodes lead to is visited or pending, the result is closed and holds the
visited and the pending nodes. -/
theorem search_closed (g : Graph α) (o : Order) (seen pending : List α)
    (hinv : ∀ x ∈ seen, ∀ y ∈ g.next x, y ∈ seen ∨ y ∈ pending) :
    (∀ x, x ∈ seen ∨ x ∈ pending → x ∈ g.search o seen pending) ∧
      ∀ x ∈ g.search o seen pending, ∀ y ∈ g.next x, y ∈ g.search o seen pending := by
  fun_induction search g o seen pending with
  | case1 seen =>
    refine ⟨by simp, fun x hx y hy => ?_⟩
    simpa using hinv x hx y hy
  | case2 seen x rest hx ih =>
    obtain ⟨hmem, hclosed⟩ := ih fun z hz y hy => by
      rcases hinv z hz y hy with h | h
      · exact .inl h
      · rcases mem_cons.1 h with rfl | h
        · exact .inl hx
        · exact .inr h
    refine ⟨fun z hz => hmem z ?_, hclosed⟩
    rcases hz with h | h
    · exact .inl h
    · rcases mem_cons.1 h with rfl | h
      · exact .inl hx
      · exact .inr h
  | case3 seen x rest hx ih =>
    obtain ⟨hmem, hclosed⟩ := ih fun z hz y hy => by
      rcases mem_append.1 hz with hz | hz
      · rcases hinv z hz y hy with h | h
        · exact .inl (mem_append_left _ h)
        · rcases mem_cons.1 h with rfl | h
          · exact .inl (by simp)
          · exact .inr (Order.mem_push.2 (.inr h))
      · rw [mem_singleton] at hz
        exact .inr (Order.mem_push.2 (.inl (hz ▸ hy)))
    refine ⟨fun z hz => hmem z ?_, hclosed⟩
    rcases hz with h | h
    · exact .inl (mem_append_left _ h)
    · rcases mem_cons.1 h with rfl | h
      · exact .inl (by simp)
      · exact .inr (Order.mem_push.2 (.inr h))

/-- The search visits exactly what its start can reach. -/
theorem mem_search_list {g : Graph α} {start : List α} {y : α} :
    y ∈ g.search o [] start ↔ ∃ x ∈ start, g.Reaches x y := by
  constructor
  · intro h
    exact (g.search_sound o [] start h).resolve_left not_mem_nil
  · rintro ⟨x, hx, h⟩
    obtain ⟨hmem, hclosed⟩ := g.search_closed o [] start (by simp)
    induction h with
    | refl => exact hmem x (.inr hx)
    | tail _ hstep ih => exact hclosed _ ih _ hstep

/-- The search from a node visits exactly what the node can reach. -/
theorem mem_search {g : Graph α} {start y : α} : y ∈ g.search o [] [start] ↔ g.Reaches start y := by
  simp [mem_search_list]

omit [DecidableEq α] in
/-- Without cycles, some node of a list is reached from no other. -/
theorem exists_top {g : Graph α} (hacyclic : ∀ x, ¬Relation.TransGen g.Step x x) {l : List α}
    (hl : l ≠ []) :
    ∃ c ∈ l, ∀ d ∈ l, ¬Relation.TransGen g.Step d c := by
  induction l with
  | nil => exact absurd rfl hl
  | cons x l ih =>
    by_cases hnil : l = []
    · exact ⟨x, mem_cons_self, by simpa [hnil] using hacyclic x⟩
    obtain ⟨c, hc, htop⟩ := ih hnil
    by_cases hx : Relation.TransGen g.Step x c
    · refine ⟨x, mem_cons_self, forall_mem_cons.2
        ⟨hacyclic x, fun d hd hdx => htop d hd (hdx.trans hx)⟩⟩
    · exact ⟨c, mem_cons_of_mem _ hc, forall_mem_cons.2 ⟨hx, htop⟩⟩

end Graph

end Layr.Search
