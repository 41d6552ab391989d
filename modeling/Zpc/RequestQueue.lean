import Mathlib.Algebra.BigOperators.Group.List.Basic
import Mathlib.Algebra.Order.Ring.Nat
import Mathlib.Data.List.Nodup

/-!
# Marking nodes through a queue of requests

A request taken from the queue marks the nodes that serve it, and each node when it is
marked queues the requests it makes itself. Marks are kept by key. When the queue is empty
the marked nodes are exactly those needed for the first requests.
-/
namespace RequestQueue
variable {ν ρ κ : Type*}

structure State (ρ κ : Type*) where
  queue : List ρ
  marked : List κ

/-- The nodes, the requests each node serves, those it makes, and its key. -/
structure Graph (ν ρ κ : Type*) where
  nodes : List ν
  serves : ν → ρ → Bool
  asks : ν → List ρ
  key : ν → κ

namespace Graph
variable [DecidableEq κ] (g : Graph ν ρ κ)

def visit (r : ρ) (s : State ρ κ) (n : ν) : State ρ κ :=
  if g.key n ∈ s.marked then s
  else if g.serves n r then ⟨s.queue ++ g.asks n, g.key n :: s.marked⟩ else s

def step (s : State ρ κ) : State ρ κ :=
  match s.queue with
  | [] => s
  | r :: rest => g.nodes.foldl (g.visit r) {s with queue := rest}

/-- Every node queues its requests at most once. -/
def requests (initial : List ρ) : ℕ := initial.length + (g.nodes.map fun n => (g.asks n).length).sum

/-- Run until the queue is empty. -/
def run (initial : List ρ) : State ρ κ := g.step^[g.requests initial] ⟨initial, []⟩

/-- A node that serves one of the first requests, or a request of a needed node. -/
inductive Needed (initial : List ρ) : ν → Prop
  | root {n : ν} {r : ρ} (hn : n ∈ g.nodes) (hr : r ∈ initial) (hs : g.serves n r = true) : Needed initial n
  | pull {m n : ν} {r : ρ} (hm : Needed initial m) (hn : n ∈ g.nodes) (hr : r ∈ g.asks m)
      (hs : g.serves n r = true) : Needed initial n

variable {g} {initial : List ρ} {s : State ρ κ} {n m : ν} {r : ρ}

omit [DecidableEq κ] in
theorem Needed.mem (h : g.Needed initial n) : n ∈ g.nodes := by
  cases h with
  | root hn => exact hn
  | pull _ hn => exact hn

/-- The nodes that a request marks. -/
def fresh (g : Graph ν ρ κ) (r : ρ) (marked : List κ) (nodes : List ν) : List ν :=
  nodes.filter fun n => g.key n ∉ marked ∧ g.serves n r = true

theorem mem_fresh {marked : List κ} {nodes : List ν} :
    n ∈ g.fresh r marked nodes ↔ n ∈ nodes ∧ g.key n ∉ marked ∧ g.serves n r = true := by
  simp [fresh]

theorem foldl_visit {nodes : List ν} (hn : (nodes.map g.key).Nodup) (s : State ρ κ) :
    nodes.foldl (g.visit r) s = ⟨s.queue ++ (g.fresh r s.marked nodes).flatMap g.asks,
      ((g.fresh r s.marked nodes).map g.key).reverse ++ s.marked⟩ := by
  induction nodes generalizing s with
  | nil => simp [fresh]
  | cons n nodes ih =>
    obtain ⟨hfirst, hn⟩ := List.nodup_cons.mp hn
    rw [List.foldl_cons, ih hn]
    by_cases hm : g.key n ∈ s.marked
    · simp [visit, fresh, hm]
    · by_cases hs : g.serves n r = true
      · have hsame : g.fresh r (g.key n :: s.marked) nodes = g.fresh r s.marked nodes := by
          refine List.filter_congr fun m hmem => ?_
          have hne : g.key m ≠ g.key n := fun he => hfirst (List.mem_map.mpr ⟨m, hmem, he⟩)
          simp [hne]
        have hcons : g.fresh r s.marked (n :: nodes) = n :: g.fresh r s.marked nodes := by
          simp [fresh, hm, hs]
        rw [visit, if_neg hm, if_pos hs, hcons, hsame]
        simp
      · simp [visit, fresh, hm, hs]

theorem step_cons (hk : (g.nodes.map g.key).Nodup) {rest : List ρ} (hq : s.queue = r :: rest) :
    g.step s = ⟨rest ++ (g.fresh r s.marked g.nodes).flatMap g.asks,
      ((g.fresh r s.marked g.nodes).map g.key).reverse ++ s.marked⟩ := by
  rw [step, hq]
  exact foldl_visit hk _

theorem step_nil (hq : s.queue = []) : g.step s = s := by
  rw [step, hq]

structure Invariant (g : Graph ν ρ κ) (initial : List ρ) (s : State ρ κ) : Prop where
  marked : ∀ k ∈ s.marked, ∃ n, g.key n = k ∧ g.Needed initial n
  queued : ∀ r ∈ s.queue, r ∈ initial ∨ ∃ n, g.Needed initial n ∧ r ∈ g.asks n
  served : ∀ r, (r ∈ initial ∨ ∃ n ∈ g.nodes, g.key n ∈ s.marked ∧ r ∈ g.asks n) →
    r ∈ s.queue ∨ ∀ n ∈ g.nodes, g.serves n r = true → g.key n ∈ s.marked

omit [DecidableEq κ] in
theorem invariant_start : g.Invariant initial ⟨initial, []⟩ :=
  ⟨by simp, fun r hr => .inl hr, fun r hr => .inl (by simpa using hr)⟩

omit [DecidableEq κ] in
theorem key_inj (hk : (g.nodes.map g.key).Nodup) (hn : n ∈ g.nodes) (hm : m ∈ g.nodes) (he : g.key n = g.key m) :
    n = m :=
  List.inj_on_of_nodup_map hk hn hm he

theorem invariant_step (hk : (g.nodes.map g.key).Nodup) (h : g.Invariant initial s) :
    g.Invariant initial (g.step s) := by
  cases hq : s.queue with
  | nil => rwa [step_nil hq]
  | cons r rest =>
    rw [step_cons hk hq]
    have hneeded : ∀ n ∈ g.fresh r s.marked g.nodes, g.Needed initial n := by
      intro n hn
      obtain ⟨hn, -, hs⟩ := mem_fresh.mp hn
      rcases h.queued r (by simp [hq]) with hr | ⟨m, hm, hr⟩
      · exact .root hn hr hs
      · exact .pull hm hn hr hs
    have hkeep : ∀ k, k ∈ s.marked → k ∈ ((g.fresh r s.marked g.nodes).map g.key).reverse ++ s.marked :=
      fun k hk => List.mem_append_right _ hk
    constructor
    · intro k hk
      rcases List.mem_append.mp hk with hk | hk
      · obtain ⟨n, hn, rfl⟩ := List.mem_map.mp (List.mem_reverse.mp hk)
        exact ⟨n, rfl, hneeded n hn⟩
      · exact h.marked k hk
    · intro r' hr
      rcases List.mem_append.mp hr with hr | hr
      · exact h.queued r' (by simp [hq, hr])
      · obtain ⟨n, hn, hr⟩ := List.mem_flatMap.mp hr
        exact .inr ⟨n, hneeded n hn, hr⟩
    · intro r' hr
      have hserved : r' ∈ s.queue ∨ (∀ n ∈ g.nodes, g.serves n r' = true → g.key n ∈ s.marked) ∨
          ∃ n ∈ g.fresh r s.marked g.nodes, r' ∈ g.asks n := by
        rcases hr with hr | ⟨n, hn, hmark, hr⟩
        · exact (h.served r' (.inl hr)).imp_right .inl
        · rcases List.mem_append.mp hmark with hmark | hmark
          · obtain ⟨m, hm, he⟩ := List.mem_map.mp (List.mem_reverse.mp hmark)
            obtain rfl := key_inj hk (mem_fresh.mp hm).1 hn he
            exact .inr (.inr ⟨m, hm, hr⟩)
          · exact (h.served r' (.inr ⟨n, hn, hmark, hr⟩)).imp_right .inl
      rcases hserved with hserved | hserved | ⟨n, hn, hr⟩
      · rw [hq] at hserved
        rcases List.mem_cons.mp hserved with rfl | hserved
        · -- the request just taken: whoever serves it is marked now
          refine .inr fun n hn hs => ?_
          by_cases hm : g.key n ∈ s.marked
          · exact hkeep _ hm
          · refine List.mem_append_left _ (List.mem_reverse.mpr (List.mem_map_of_mem ?_))
            exact mem_fresh.mpr ⟨hn, hm, hs⟩
        · exact .inl (List.mem_append_left _ hserved)
      · exact .inr fun n hn hs => hkeep _ (hserved n hn hs)
      · exact .inl (List.mem_append_right _ (List.mem_flatMap.mpr ⟨n, hn, hr⟩))

/-- The requests that unmarked nodes have still to make. -/
def pending (g : Graph ν ρ κ) (marked : List κ) : ℕ :=
  (g.nodes.map fun n => if g.key n ∈ marked then 0 else (g.asks n).length).sum

theorem length_flatMap_fresh (marked : List κ) : ((g.fresh r marked g.nodes).flatMap g.asks).length =
    (g.nodes.map fun n => if g.key n ∉ marked ∧ g.serves n r = true then (g.asks n).length else 0).sum := by
  rw [List.length_flatMap, fresh]
  induction g.nodes with
  | nil => rfl
  | cons n nodes ih =>
    by_cases hn : g.key n ∉ marked ∧ g.serves n r = true
    · rw [List.filter_cons_of_pos (by simpa using hn), List.map_cons, List.map_cons, List.sum_cons, List.sum_cons,
        ih, if_pos hn]
    · rw [List.filter_cons_of_neg (by simpa using hn), List.map_cons, List.sum_cons, ih, if_neg hn, Nat.zero_add]

/-- A node marked has made its requests. -/
theorem pending_fresh (hk : (g.nodes.map g.key).Nodup) (marked : List κ) :
    g.pending (((g.fresh r marked g.nodes).map g.key).reverse ++ marked) +
      ((g.fresh r marked g.nodes).flatMap g.asks).length = g.pending marked := by
  rw [length_flatMap_fresh, pending, pending, ← List.sum_map_add]
  congr 1
  refine List.map_congr_left fun n hn => ?_
  have hmem : g.key n ∈ ((g.fresh r marked g.nodes).map g.key).reverse ↔ g.key n ∉ marked ∧ g.serves n r = true := by
    rw [List.mem_reverse, List.mem_map]
    constructor
    · rintro ⟨m, hm, he⟩
      obtain ⟨hm, h⟩ := mem_fresh.mp hm
      rwa [← key_inj hk hm hn he]
    · exact fun h => ⟨n, mem_fresh.mpr ⟨hn, h⟩, rfl⟩
  simp only [List.mem_append, hmem]
  by_cases hm : g.key n ∈ marked
  · simp [hm]
  · by_cases hs : g.serves n r = true <;> simp [hm, hs]

/-- A step takes one request more, until the queue is empty. -/
theorem iterate_requests (hk : (g.nodes.map g.key).Nodup) (initial : List ρ) (k : ℕ) :
    (g.step^[k] ⟨initial, []⟩).queue = [] ∨
      k + (g.step^[k] ⟨initial, []⟩).queue.length + g.pending (g.step^[k] ⟨initial, []⟩).marked =
        g.requests initial := by
  induction k with
  | zero => simp [requests, pending]
  | succ k ih =>
    rw [Function.iterate_succ_apply']
    generalize g.step^[k] ⟨initial, []⟩ = s at ih ⊢
    cases hq : s.queue with
    | nil =>
      rw [step_nil hq]
      exact .inl hq
    | cons r rest =>
      have hp := pending_fresh (r := r) hk s.marked
      rw [hq, List.length_cons] at ih
      rw [step_cons hk hq, List.length_append]
      have hold := ih.resolve_left (by simp)
      refine .inr ?_
      simp only
      omega

theorem queue_run (hk : (g.nodes.map g.key).Nodup) (initial : List ρ) : (g.run initial).queue = [] := by
  rcases iterate_requests hk initial (g.requests initial) with h | h
  · exact h
  · exact List.length_eq_zero_iff.mp (by unfold run; omega)

theorem invariant_run (hk : (g.nodes.map g.key).Nodup) (initial : List ρ) : g.Invariant initial (g.run initial) := by
  unfold run
  induction g.requests initial with
  | zero => exact invariant_start
  | succ k ih =>
    rw [Function.iterate_succ_apply']
    exact invariant_step hk ih

/-- The nodes marked in the end are those needed. -/
theorem mem_marked_run (hk : (g.nodes.map g.key).Nodup) (hn : n ∈ g.nodes) :
    g.key n ∈ (g.run initial).marked ↔ g.Needed initial n := by
  have hi := invariant_run hk initial
  have hserved := fun r hr => (hi.served r hr).resolve_left (by simp [queue_run hk])
  constructor
  · intro h
    obtain ⟨m, he, hm⟩ := hi.marked _ h
    rwa [← key_inj hk hm.mem hn he]
  · intro h
    induction h with
    | root hn hr hs => exact hserved _ (.inl hr) _ hn hs
    | pull hm hn hr hs ih => exact hserved _ (.inr ⟨_, hm.mem, ih hm.mem, hr⟩) _ hn hs

end Graph

end RequestQueue
