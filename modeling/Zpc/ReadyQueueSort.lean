import Mathlib.Algebra.Order.Ring.Int
import Mathlib.Data.List.Perm.Lattice
import Mathlib.Data.List.Perm.Subperm
import Mathlib.Tactic.Ring

/-!
# Sorting a graph through a queue of ready nodes

Each node carries the number of its predecessors not yet sorted. A step takes the
node that a choice function singles out of the ready queue, appends it to the order
and queues the successors whose counter reaches zero. The order respects every edge
whatever the choice, and it is complete exactly when no cycle is left over.
-/
namespace ReadyQueueSort
variable {α : Type*}

/-- Counting one more element of a list without duplicates. -/
theorem countP_add_one {l : List α} (hn : l.Nodup) {v : α} (hv : v ∈ l) {p q : α → Bool} (hp : p v = true)
    (hq : q v = false) (h : ∀ u, u ≠ v → p u = q u) : l.countP p = l.countP q + 1 := by
  obtain ⟨before, after, rfl⟩ := List.append_of_mem hv
  have hd := List.nodup_cons.mp (List.nodup_middle.mp hn)
  have hc : ∀ l' : List α, v ∉ l' → l'.countP p = l'.countP q := fun l' hl =>
    List.countP_congr fun u hu => by rw [h u (ne_of_mem_of_not_mem hu hl)]
  simp only [List.mem_append, not_or] at hd
  simp only [List.countP_append, List.countP_cons, hc _ hd.1.1, hc _ hd.1.2, hp, hq]
  simp [Nat.add_assoc]

structure Graph (nodes : List α) (succs : α → List α) : Prop where
  nodup : nodes.Nodup
  succs_nodup : ∀ u, (succs u).Nodup
  closed : ∀ u ∈ nodes, ∀ v ∈ succs u, v ∈ nodes

/-- What the sort guarantees of every graph. -/
structure Sorts (nodes : List α) (succs : α → List α) (sorted : List α) : Prop where
  nodup : sorted.Nodup
  subset : ∀ v ∈ sorted, v ∈ nodes
  mem_iff : ∀ v ∈ nodes, v ∈ sorted ↔ ∀ u ∈ nodes, v ∈ succs u → u ∈ sorted
  ordered : ∀ before v after, sorted = before ++ v :: after → ∀ u ∈ nodes, v ∈ succs u → u ∈ before

variable {nodes : List α} {succs : α → List α} {sorted : List α}

theorem Sorts.before (h : Sorts nodes succs sorted) {u v : α} (hu : u ∈ nodes) (hv : v ∈ sorted) (he : v ∈ succs u) :
    List.Sublist [u, v] sorted := by
  obtain ⟨before, after, rfl⟩ := List.append_of_mem hv
  have hb := h.ordered before v after rfl u hu he
  exact (List.singleton_sublist.mpr hb).append (List.singleton_sublist.mpr List.mem_cons_self)

theorem Sorts.not_mem_of_self (h : Sorts nodes succs sorted) {v : α} (hv : v ∈ nodes) (he : v ∈ succs v) : v ∉ sorted :=
  fun hs => by simpa using h.nodup.sublist (h.before hv hs he)

theorem Sorts.perm (h : Sorts nodes succs sorted) (hl : sorted.length = nodes.length) :
    sorted.Perm nodes :=
  (h.nodup.subperm fun v hv => h.subset v hv).perm_of_length_le hl.ge

/-- A graph whose edges all climb in some rank is sorted completely. -/
theorem Sorts.perm_of_rank (hg : Graph nodes succs) (h : Sorts nodes succs sorted) (rank : α → ℕ)
    (hr : ∀ u ∈ nodes, ∀ v ∈ succs u, rank u < rank v) : sorted.Perm nodes := by
  have hall : ∀ n, ∀ v ∈ nodes, rank v = n → v ∈ sorted := by
    intro n
    induction n using Nat.strong_induction_on with
    | _ n ih =>
      intro v hv hn
      refine (h.mem_iff v hv).mpr fun u hu he => ?_
      exact ih (rank u) (hn ▸ hr u hu v he) u hu rfl
  exact (List.perm_ext_iff_of_nodup h.nodup hg.nodup).mpr fun v => ⟨h.subset v, fun hv => hall _ v hv rfl⟩

structure State (α : Type*) where
  inDegree : α → ℤ
  ready : List α
  sorted : List α

/-- Exchange the first element with the one at place `i`. -/
def toHead (i : ℕ) (l : List α) : List α :=
  match l[0]?, l[i]? with
  | some a, some b => (l.set 0 b).set i a
  | _, _ => l

theorem toHead_perm (i : ℕ) (l : List α) : (toHead i l).Perm l := by
  unfold toHead
  split
  · rename_i a b ha hb
    obtain ⟨h0, rfl⟩ := List.getElem?_eq_some_iff.mp ha
    obtain ⟨hi, rfl⟩ := List.getElem?_eq_some_iff.mp hb
    exact List.set_set_perm h0 hi
  · exact .refl l

variable [DecidableEq α]

/-- Take one from the counter of each listed node and queue those that reach zero. -/
def release (s : State α) : List α → State α
  | [] => s
  | v :: vs => release {s with
      inDegree := Function.update s.inDegree v (s.inDegree v - 1)
      ready := if s.inDegree v - 1 = 0 then s.ready ++ [v] else s.ready} vs

def step (pick : List α → ℕ) (succs : α → List α) (s : State α) : State α :=
  match toHead (pick s.ready) s.ready with
  | [] => s
  | v :: rest => release {s with ready := rest, sorted := s.sorted ++ [v]} (succs v)

def initial (nodes : List α) (inDegree : α → ℤ) : State α :=
  ⟨inDegree, nodes.filter (fun v => inDegree v = 0), []⟩

/-- Run until the queue is empty: every node is taken at most once. -/
def sort (pick : List α → ℕ) (nodes : List α) (succs : α → List α) (inDegree : α → ℤ) : List α :=
  ((step pick succs)^[nodes.length] (initial nodes inDegree)).sorted

theorem release_sorted (s : State α) (vs : List α) : (release s vs).sorted = s.sorted := by
  induction vs generalizing s with
  | nil => rfl
  | cons v vs ih => rw [release, ih]

theorem release_inDegree (s : State α) {vs : List α} (hn : vs.Nodup) (w : α) :
    (release s vs).inDegree w = s.inDegree w - if w ∈ vs then 1 else 0 := by
  induction vs generalizing s with
  | nil => simp [release]
  | cons v vs ih =>
    obtain ⟨hv, hn⟩ := List.nodup_cons.mp hn
    rw [release, ih _ hn]
    by_cases hw : w = v
    · subst hw
      simp [hv]
    · simp [hw]

theorem release_ready (s : State α) {vs : List α} (hn : vs.Nodup) :
    (release s vs).ready = s.ready ++ vs.filter (fun w => s.inDegree w = 1) := by
  induction vs generalizing s with
  | nil => simp [release]
  | cons v vs ih =>
    obtain ⟨hv, hn⟩ := List.nodup_cons.mp hn
    have hd : s.inDegree v - 1 = 0 ↔ s.inDegree v = 1 := by omega
    have hf : vs.filter (fun w => Function.update s.inDegree v (s.inDegree v - 1) w = 1) =
        vs.filter (fun w => s.inDegree w = 1) := by
      refine List.filter_congr fun w hw => ?_
      rw [Function.update_of_ne (ne_of_mem_of_not_mem hw hv)]
    rw [release, ih _ hn, hf, List.filter_cons]
    simp only [hd, decide_eq_true_eq]
    split_ifs <;> simp

/-- The predecessors of a node not yet sorted. -/
def waiting (nodes : List α) (succs : α → List α) (sorted : List α) (v : α) : ℕ :=
  nodes.countP (fun u => u ∉ sorted ∧ v ∈ succs u)

structure Invariant (nodes : List α) (succs : α → List α) (s : State α) : Prop where
  nodup : (s.sorted ++ s.ready).Nodup
  subset : ∀ v ∈ s.sorted ++ s.ready, v ∈ nodes
  count : ∀ v, s.inDegree v = waiting nodes succs s.sorted v
  ready_iff : ∀ v ∈ nodes, v ∈ s.sorted ++ s.ready ↔ s.inDegree v = 0
  ordered : ∀ before v after, s.sorted = before ++ v :: after → ∀ u ∈ nodes, v ∈ succs u → u ∈ before

variable {pick : List α → ℕ} {inDegree : α → ℤ} {s : State α}

theorem waiting_eq_zero {sorted : List α} {v : α} :
    waiting nodes succs sorted v = 0 ↔ ∀ u ∈ nodes, v ∈ succs u → u ∈ sorted := by
  simp only [waiting, List.countP_eq_zero, decide_eq_true_eq, not_and]
  exact forall₂_congr fun u _ => ⟨fun h hv => by_contra fun hn => h hn hv, fun h hn hv => hn (h hv)⟩

/-- Sorting a node leaves one predecessor less to each of its successors. -/
theorem waiting_snoc (succs : α → List α) (hn : nodes.Nodup) {sorted : List α} {v : α} (hv : v ∈ nodes) (hs : v ∉ sorted) (w : α) :
    waiting nodes succs (sorted ++ [v]) w + (if w ∈ succs v then 1 else 0) = waiting nodes succs sorted w := by
  by_cases hw : w ∈ succs v
  · rw [if_pos hw]
    exact (countP_add_one hn hv (by simp [hs, hw]) (by simp) fun u hu => by simp [hu]).symm
  · rw [if_neg hw]
    refine List.countP_congr fun u _ => ?_
    by_cases hu : u = v <;> simp [hu, hw]

theorem invariant_initial (hg : Graph nodes succs)
    (hd : ∀ v, inDegree v = nodes.countP (fun u => v ∈ succs u)) : Invariant nodes succs (initial nodes inDegree) := by
  refine ⟨by simpa [initial] using hg.nodup.filter _, by simp +contextual [initial], fun v => ?_, by simp +contextual [initial],
    fun before v after h => ?_⟩
  · simp [initial, waiting, hd]
  · simp [initial] at h

theorem invariant_step (hg : Graph nodes succs) (h : Invariant nodes succs s) :
    Invariant nodes succs (step pick succs s) := by
  have hp := toHead_perm (pick s.ready) s.ready
  unfold step
  split
  · exact h
  · rename_i v rest hr
    rw [hr] at hp
    have hmem : ∀ w, w ∈ s.ready ↔ w = v ∨ w ∈ rest := fun w => by rw [← hp.mem_iff, List.mem_cons]
    have hn : (s.sorted ++ v :: rest).Nodup := (hp.append_left s.sorted).nodup_iff.mpr h.nodup
    have hv : v ∈ nodes := h.subset v (by simp [hmem])
    have hvs : v ∉ s.sorted := fun hv => List.disjoint_of_nodup_append hn hv (by simp)
    have hzero : ∀ w ∈ nodes, w ∈ s.sorted ++ s.ready → ∀ u ∈ nodes, w ∈ succs u → u ∈ s.sorted := by
      intro w hw hr
      have h0 := (h.ready_iff w hw).mp hr
      rw [h.count] at h0
      exact waiting_eq_zero.mp (by exact_mod_cast h0)
    have hold : ∀ w ∈ nodes, w ∈ s.sorted ++ s.ready → w ∉ succs v := fun w hw hr hs => hvs (hzero w hw hr v hv hs)
    constructor
    · rw [release_sorted, release_ready _ (hg.succs_nodup v), List.append_assoc, List.singleton_append,
        ← List.cons_append, ← List.append_assoc]
      refine hn.append ((hg.succs_nodup v).filter _) fun w hw hw' => ?_
      have hs := (List.mem_filter.mp hw').1
      exact hold w (hg.closed v hv w hs) (by simpa [hmem] using hw) hs
    · intro w hw
      rw [release_sorted, release_ready _ (hg.succs_nodup v)] at hw
      simp only [List.mem_append, List.mem_singleton, List.mem_filter] at hw
      rcases hw with (hw | rfl) | hw | hw
      · exact h.subset w (by simp [hw])
      · exact hv
      · exact h.subset w (by simp [hmem, hw])
      · exact hg.closed v hv w hw.1
    · intro w
      have hw := waiting_snoc succs hg.nodup hv hvs w
      rw [release_inDegree _ (hg.succs_nodup v), release_sorted]
      simp only [h.count]
      split_ifs at hw ⊢ <;> omega
    · intro w hw
      rw [release_inDegree _ (hg.succs_nodup v), release_sorted, release_ready _ (hg.succs_nodup v)]
      have hiff := h.ready_iff w hw
      by_cases ho : w ∈ s.sorted ++ s.ready
      · rw [if_neg (hold w hw ho)]
        simp only [List.mem_append, hmem] at ho
        simp only [List.mem_append, List.mem_singleton, sub_zero]
        refine iff_of_true ?_ (hiff.mp (by simpa [hmem] using ho))
        tauto
      · have ho' : w ∉ s.sorted ∧ w ≠ v ∧ w ∉ rest := by simpa [hmem] using ho
        have hne : s.inDegree w ≠ 0 := fun h0 => ho (hiff.mpr h0)
        simp only [List.mem_append, List.mem_singleton, List.mem_filter, ho', decide_eq_true_eq, false_or]
        split_ifs with hs <;> simp [hs] <;> omega
    · intro before w after hs u hu hw
      rw [release_sorted] at hs
      rcases List.eq_nil_or_concat after with rfl | ⟨after, z, rfl⟩
      · obtain ⟨rfl, hw'⟩ := List.append_inj' hs rfl
        obtain rfl := (List.cons.inj hw').1
        exact hzero v hv (by simp [hmem]) u hu hw
      · have hs' : s.sorted ++ [v] = (before ++ w :: after) ++ [z] := by simpa using hs
        exact h.ordered before w after (List.append_inj' hs' rfl).1 u hu hw

theorem invariant_iterate (pick : List α → ℕ) (hg : Graph nodes succs) (h : Invariant nodes succs s) (n : ℕ) :
    Invariant nodes succs ((step pick succs)^[n] s) := by
  induction n with
  | zero => exact h
  | succ n ih =>
    rw [Function.iterate_succ_apply']
    exact invariant_step hg ih

theorem step_of_empty {s : State α} (hr : s.ready = []) : step pick succs s = s := by
  unfold step
  simp [hr, toHead]

theorem step_length {s : State α} (hr : s.ready ≠ []) :
    (step pick succs s).sorted.length = s.sorted.length + 1 := by
  have hp := toHead_perm (pick s.ready) s.ready
  unfold step
  split
  · rename_i hh
    rw [hh] at hp
    exact absurd hp.nil_eq.symm hr
  · simp [release_sorted]

/-- Every step sorts one more node until the queue is empty. -/
theorem iterate_length (pick : List α → ℕ) (succs : α → List α) (s : State α) (n : ℕ) : ((step pick succs)^[n] s).ready = [] ∨
    ((step pick succs)^[n] s).sorted.length = s.sorted.length + n := by
  induction n with
  | zero => exact .inr rfl
  | succ n ih =>
    rw [Function.iterate_succ_apply']
    by_cases hr : ((step pick succs)^[n] s).ready = []
    · rw [step_of_empty hr]
      exact .inl hr
    · rw [step_length hr, ih.resolve_left hr, Nat.add_assoc]
      exact .inr rfl

/-- After as many steps as there are nodes the queue is empty. -/
theorem ready_eq_nil (pick : List α → ℕ) (hg : Graph nodes succs) (hd : ∀ v, inDegree v = nodes.countP (fun u => v ∈ succs u)) :
    ((step pick succs)^[nodes.length] (initial nodes inDegree)).ready = [] := by
  have hi := invariant_iterate pick hg (invariant_initial hg hd) nodes.length
  rcases iterate_length pick succs (initial nodes inDegree) nodes.length with hr | hl
  · exact hr
  · have hle := (hi.nodup.subperm fun v hv => hi.subset v hv).length_le
    have h0 : (initial nodes inDegree).sorted.length = 0 := rfl
    rw [List.length_append, hl] at hle
    exact List.length_eq_zero_iff.mp (by omega)

theorem sorts_sort (hg : Graph nodes succs) (hd : ∀ v, inDegree v = nodes.countP (fun u => v ∈ succs u)) :
    Sorts nodes succs (sort pick nodes succs inDegree) := by
  have hi := invariant_iterate pick hg (invariant_initial hg hd) nodes.length
  have hr := ready_eq_nil pick hg hd
  obtain ⟨hnodup, hsubset, hcount, hready, hordered⟩ := hi
  rw [hr, List.append_nil] at hnodup
  simp only [hr, List.append_nil] at hsubset hready
  refine ⟨hnodup, hsubset, fun v hv => ?_, hordered⟩
  refine (hready v hv).trans ?_
  rw [hcount]
  exact Nat.cast_eq_zero.trans waiting_eq_zero

end ReadyQueueSort
