import Zpc.CommutingActions
import Zpc.CpuGraphExecutor

/-!
# What an executed graph computes

The bodies of the passes as actions on the registered resources that they declare. Conflicting passes never overlap,
and whatever the workers do, the result is that of the passes one after the other as they were added.
-/
namespace Zpc.CpuGraphExecutor
open Interleaving CommutingActions ExecutionGraph

variable {g : ExecutionGraph} {c : Config Execution Frame} {p q workers : ℕ}

def reads (g : ExecutionGraph) (p : ℕ) : Set ResourceHandle :=
  {r | r ∈ g.resources ∧ ∃ a ∈ (g.pass p).accesses, a.resource = r ∧ a.mode.involvesRead = true}

def writes (g : ExecutionGraph) (p : ℕ) : Set ResourceHandle :=
  {r | r ∈ g.resources ∧ ∃ a ∈ (g.pass p).accesses, a.resource = r ∧ a.mode.involvesWrite = true}

theorem conflict_of_write_read {r : ResourceHandle} (hp : r ∈ writes g p) (hq : r ∈ reads g q) : Conflict g p q := by
  obtain ⟨hr, a, ha, har, hw⟩ := hp
  obtain ⟨-, b, hb, hbr, hread⟩ := hq
  refine ⟨r, hr, a, ha, b, hb, har, hbr, ?_⟩
  cases hbw : b.mode.involvesWrite <;> simp [classifyHazard, hw, hread, hbw]

theorem conflict_of_write {r : ResourceHandle} (hp : r ∈ reads g p ∪ writes g p) (hq : r ∈ writes g q) : Conflict g p q := by
  obtain ⟨hr, b, hb, hbr, hw⟩ := hq
  obtain ⟨a, ha, har⟩ : ∃ a ∈ (g.pass p).accesses, a.resource = r := by
    rcases hp with ⟨-, a, ha, har, -⟩ | ⟨-, a, ha, har, -⟩
    · exact ⟨a, ha, har⟩
    · exact ⟨a, ha, har⟩
  refine ⟨r, hr, a, ha, b, hb, har, hbr, ?_⟩
  cases haw : a.mode.involvesWrite <;> simp [classifyHazard, hw, haw]

theorem commute_of_not_conflict {V : Type*} {body : ℕ → (ResourceHandle → V) → ResourceHandle → V}
    (hp : Confined (body p) (reads g p) (writes g p)) (hq : Confined (body q) (reads g q) (writes g q))
    (h : ¬ Conflict g p q) : Function.Commute (body p) (body q) := by
  refine hp.commute hq ?_ ?_ ?_
  · exact Set.disjoint_left.mpr fun r hq hp => h (conflict_of_write (.inl hp) hq)
  · exact Set.disjoint_left.mpr fun r hp hq => h (conflict_of_write_read hp hq)
  · exact Set.disjoint_left.mpr fun r hp hq => h (conflict_of_write (.inr hp) hq)

/-- When a pass has started, the earlier ones that it conflicts with are over. -/
theorem Invariant.conflict_finished (hv : g.compile.valid = true) (hi : Invariant g.compile c) (hpq : p < q)
    (hq : q ∈ c.mem.started) (hc : Conflict g p q) : p ∈ c.mem.finished := by
  obtain ⟨hp, hs, _, _, _, _, he⟩ := compile_of_valid hv
  have hlt : q < g.numPasses :=
    List.mem_range.mp (hp.mem_iff.mp (hs ▸ hi.started_sorted (executable_compile hv) hq))
  obtain ⟨e, hraw, rfl, rfl⟩ := rawEdge_of_conflict hpq hlt hc
  exact hi.sources_finished hq (syncEdge _ e) (he ▸ List.mem_map_of_mem hraw) rfl

theorem finished_step {compiled : CompiledGraph} {c' : Config Execution Frame} {f : Frame} {x : ℕ}
    (h : Step (code compiled) c f x c') : c'.mem.finished = c.mem.finished ∨
      ∃ u, f = .callback u ∧ c'.mem.finished = u :: c.mem.finished := by
  obtain ⟨fs, he⟩ := h.runs_code
  have ha := acts_of_code he
  generalize c'.mem = m' at ha ⊢
  cases ha with
  | callback u => exact .inr ⟨u, rfl, rfl⟩
  | _ => exact .inl rfl

/-- The finished passes, newest first, have conflicting ones in the order in which they were added. -/
theorem finished_ordered (hv : g.compile.valid = true)
    (h : Reaches (code g.compile) (launchesRoots g.compile) (start g.compile workers) c) (hpq : p < q)
    (hc : Conflict g p q) : ¬ List.Sublist [p, q] c.mem.finished := by
  have hx := executable_compile hv
  induction h with
  | refl => exact nofun
  | step hr _ hs ih =>
    have hi := invariant_reaches hx hr
    rcases finished_step hs with he | ⟨u, rfl, he⟩
    · rwa [he]
    · rw [he]
      intro hsub
      cases hsub with
      | cons _ hsub => exact ih hsub
      | cons_cons _ hsub =>
        have hq := hi.finished_started (List.singleton_sublist.mp hsub)
        exact hi.not_finished hx hs.mem_frame (hi.conflict_finished hv hpq hq hc)

/-- Of two conflicting passes the later one starts when the earlier one is over, and once the event is completed the
memory is what the passes make of it one after the other. -/
theorem execute_computes_in_order (hv : g.compile.valid = true)
    (h : Reaches (code g.compile) (launchesRoots g.compile) (start g.compile workers) c) :
    (∀ p q, p < q → Conflict g p q → q ∈ c.mem.started → p ∈ c.mem.finished) ∧
    (0 < c.mem.completions → ∀ (V : Type) (body : ℕ → (ResourceHandle → V) → ResourceHandle → V),
      (∀ p < g.numPasses, Confined (body p) (reads g p) (writes g p)) → ∀ m,
        c.mem.finished.reverse.foldl (fun m p => body p m) m = (List.range g.numPasses).foldl (fun m p => body p m) m) := by
  have hx := executable_compile hv
  have hi := invariant_reaches hx h
  refine ⟨fun p q hpq hc hq => hi.conflict_finished hv hpq hq hc, fun hdone V body hb m => ?_⟩
  obtain ⟨hp, hs, -⟩ := compile_of_valid hv
  have hperm : c.mem.finished.reverse.Perm (List.range g.numPasses) :=
    (List.reverse_perm _).trans ((hi.completed_finished hx hdone).trans (hs ▸ hp))
  refine foldl_eq_of_perm hperm (fun q p hqp hpq => ?_) m
  have hlt : p < q := List.pairwise_iff_forall_sublist.mp List.pairwise_lt_range hpq
  have hbp := hb p (List.mem_range.mp (hpq.subset List.mem_cons_self))
  have hbq := hb q (List.mem_range.mp (hperm.subset (hqp.subset List.mem_cons_self)))
  refine (commute_of_not_conflict hbp hbq fun hc => finished_ordered hv h hlt hc ?_).symm
  exact List.reverse_sublist.mp (by simpa using hqp)

theorem execute_computes_in_order_inOrder : ∃ c, Reaches (code writeThenRead.compile)
    (launchesRoots writeThenRead.compile) (start writeThenRead.compile 1) c ∧
    ∀ (body : ℕ → (ResourceHandle → ℕ) → ResourceHandle → ℕ),
      (∀ p < 2, Confined (body p) (reads writeThenRead p) (writes writeThenRead p)) →
        ∀ m, c.mem.finished.reverse.foldl (fun m p => body p m) m = body 1 (body 0 m) := by
  have he : (runs (code writeThenRead.compile) (launchesRoots writeThenRead.compile) (start writeThenRead.compile 1)
      ([0, 0, 0, 0, 1, 1, 1, 1, 1, 1, 1, 1, 1, 1, 1, 1, 1].map (·, 0))).map (·.mem.completions) = some 1 := rfl
  obtain ⟨c, hc, he⟩ := Option.map_eq_some_iff.mp he
  exact ⟨c, reaches_of_runs hc, (execute_computes_in_order (by decide) (reaches_of_runs hc)).2 (he ▸ Nat.one_pos) ℕ⟩

end Zpc.CpuGraphExecutor
