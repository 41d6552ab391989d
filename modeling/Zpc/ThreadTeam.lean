import Mathlib.Algebra.BigOperators.Group.Finset.Piecewise
import Mathlib.Algebra.Order.BigOperators.Group.Finset

/-!
# Teams of threads that meet at barriers

Between two barriers each thread of a team runs its own list of atomic actions on the
common state, interleaved in any order with the actions of the others; private
variables are parts of the state that one thread alone touches. What a segment
establishes is shown thread by thread: every action of a thread meets the thread's
guarantee, and no assertion of a thread is broken by the guarantees of the others.
-/
namespace ThreadTeam
variable {S : Type*} {n : ℕ}

/-- What each thread runs between two barriers. -/
abbrev Segment (S : Type*) := ℕ → List (S → S)

/-- Any interleaving of the threads `0 … n-1` through one segment. -/
inductive Runs (n : ℕ) : Segment S → S → S → Prop
  | finished {p : Segment S} {s : S} (h : ∀ t < n, p t = []) : Runs n p s s
  | act {p : Segment S} {s s' : S} {t : ℕ} {f : S → S} {k : List (S → S)} (ht : t < n) (hp : p t = f :: k)
      (h : Runs n (Function.update p t k) (f s) s') : Runs n p s s'

/-- A run through several segments, all threads meeting at the barrier after each. -/
inductive Passes (n : ℕ) : List (Segment S) → S → S → Prop
  | nil (s : S) : Passes n [] s s
  | cons {p : Segment S} {ps : List (Segment S)} {s s₁ s' : S} (h : Runs n p s s₁) (h' : Passes n ps s₁ s') :
      Passes n (p :: ps) s s'

/-- What one thread runs for the whole team. -/
def single (f : S → S) : Segment S := fun t => if t = 0 then [f] else []

/-- A parallel loop: the iterations `0 … n-1` in any order. -/
def ParallelFor (n : ℕ) (body : ℕ → S → S) : S → S → Prop := Runs n fun i => [body i]

theorem exists_runs (n : ℕ) (p : Segment S) (s : S) : ∃ s', Runs n p s s' := by
  -- by the number of actions left
  induction hm : ∑ t ∈ Finset.range n, (p t).length generalizing p s with
  | zero =>
    refine ⟨s, .finished fun t ht => List.eq_nil_of_length_eq_zero ?_⟩
    exact Finset.sum_eq_zero_iff.mp hm t (Finset.mem_range.mpr ht)
  | succ m ih =>
    obtain ⟨t, ht, hne⟩ : ∃ t ∈ Finset.range n, (p t).length ≠ 0 :=
      Finset.exists_ne_zero_of_sum_ne_zero (by rw [hm]; exact m.succ_ne_zero)
    obtain ⟨f, k, hp⟩ := List.exists_cons_of_length_pos (Nat.pos_of_ne_zero hne)
    have hlen : ∀ u ∈ Finset.range n, (Function.update p t k u).length + (if u = t then 1 else 0) = (p u).length := by
      intro u _
      rcases eq_or_ne u t with rfl | hu
      · rw [Function.update_self, if_pos rfl, hp, List.length_cons]
      · rw [Function.update_of_ne hu, if_neg hu, Nat.add_zero]
    have hsum : ∑ u ∈ Finset.range n, (Function.update p t k u).length = m := by
      have h := Finset.sum_congr rfl hlen
      rw [Finset.sum_add_distrib, Finset.sum_ite_eq', if_pos ht, hm] at h
      exact Nat.succ_injective h
    obtain ⟨s', h⟩ := ih (Function.update p t k) (f s) hsum
    exact ⟨s', .act (Finset.mem_range.mp ht) hp h⟩

theorem exists_passes (n : ℕ) (ps : List (Segment S)) (s : S) : ∃ s', Passes n ps s s' := by
  induction ps generalizing s with
  | nil => exact ⟨s, .nil s⟩
  | cons p ps ih =>
    obtain ⟨s₁, h⟩ := exists_runs n p s
    obtain ⟨s', h'⟩ := ih s₁
    exact ⟨s', .cons h h'⟩

/-- An assertion that steps of the others cannot break. -/
def Stable (rely : S → S → Prop) (P : S → Prop) : Prop := ∀ s s', P s → rely s s' → P s'

/-- What thread `t` may see the others do. -/
def rely (n : ℕ) (guar : ℕ → S → S → Prop) (t : ℕ) (s s' : S) : Prop := ∃ u < n, u ≠ t ∧ guar u s s'

/-- The proof outline of one thread: a stable assertion after each action, which meets the guarantee. -/
inductive Outline (rely guar : S → S → Prop) : (S → Prop) → List (S → S) → (S → Prop) → Prop
  | nil {P Q : S → Prop} (h : ∀ s, P s → Q s) : Outline rely guar P [] Q
  | cons {P Q R : S → Prop} {f : S → S} {k : List (S → S)} (hq : Stable rely Q)
      (hf : ∀ s, P s → guar s (f s) ∧ Q (f s)) (h : Outline rely guar Q k R) : Outline rely guar P (f :: k) R

section Rules
variable {rely guar : S → S → Prop} {P Q R : S → Prop} {k k' : List (S → S)}

/-- Any assertion may be weakened before the first action. -/
theorem Outline.weaken (hp : ∀ s, P s → Q s) (h : Outline rely guar Q k R) : Outline rely guar P k R := by
  cases h with
  | nil h => exact .nil fun s hs => h s (hp s hs)
  | cons hq hf h => exact .cons hq (fun s hs => hf s (hp s hs)) h

/-- … and after the last one. -/
theorem Outline.mono {R' : S → Prop} (h : Outline rely guar P k R) (hr : ∀ s, R s → R' s) :
    Outline rely guar P k R' := by
  induction h with
  | nil hp => exact .nil fun s hs => hr s (hp s hs)
  | cons hq hf _ ih => exact .cons hq hf (ih hr)

theorem Outline.append (h : Outline rely guar P k Q) (h' : Outline rely guar Q k' R) :
    Outline rely guar P (k ++ k') R := by
  induction h with
  | nil hp => exact h'.weaken hp
  | cons hq hf _ ih => exact .cons hq hf (ih h')

theorem Outline.single {f : S → S} (hq : Stable rely Q) (hf : ∀ s, P s → guar s (f s) ∧ Q (f s)) :
    Outline rely guar P [f] Q :=
  .cons hq hf (.nil fun _ h => h)

/-- A loop over `a, a+1, …` with the assertion `I i` before its `i`-th pass. -/
theorem Outline.loop {I : ℕ → S → Prop} {f : ℕ → S → S} (hI : ∀ i, Stable rely (I i)) {a m : ℕ}
    (hf : ∀ i s, a ≤ i → i < a + m → I i s → guar s (f i s) ∧ I (i+1) (f i s)) :
    Outline rely guar (I a) ((List.range' a m).map f) (I (a+m)) := by
  induction m generalizing a with
  | zero => exact .nil fun _ h => h
  | succ m ih =>
    refine .cons (hI (a+1)) (fun s => hf a s le_rfl (by omega)) ?_
    rw [show a + (m+1) = a + 1 + m by omega]
    exact ih fun i s hi hi' => hf i s (by omega) (by omega)

/-- The same loop from the last value down to the first. -/
theorem Outline.loopDown {I : ℕ → S → Prop} {f : ℕ → S → S} (hI : ∀ i, Stable rely (I i)) {a m : ℕ}
    (hf : ∀ i s, a ≤ i → i < a + m → I (i+1) s → guar s (f i s) ∧ I i (f i s)) :
    Outline rely guar (I (a+m)) ((List.range' a m).reverse.map f) (I a) := by
  induction m with
  | zero => exact .nil fun _ h => h
  | succ m ih =>
    rw [List.range'_concat, List.reverse_append, List.reverse_singleton, List.singleton_append, List.map_cons, Nat.one_mul]
    exact .cons (hI (a+m)) (fun s => hf (a+m) s (by omega) (by omega)) (ih fun i s hi hi' => hf i s hi (by omega))

end Rules

/-- Each thread establishes what its outline ends with. -/
theorem Runs.establishes {p : Segment S} {s s' : S} (h : Runs n p s s') (guar : ℕ → S → S → Prop)
    (pre : ℕ → S → Prop) {post : ℕ → S → Prop} (hpre : ∀ t < n, pre t s) (hst : ∀ t < n, Stable (rely n guar t) (pre t))
    (ho : ∀ t < n, Outline (rely n guar t) (guar t) (pre t) (p t) (post t)) : ∀ t < n, post t s' := by
  induction h generalizing pre with
  | finished hp =>
    intro t ht
    have hot := ho t ht
    rw [hp t ht] at hot
    cases hot with
    | nil h => exact h _ (hpre t ht)
  | @act p s s' t f k ht hp _ ih =>
    have hot := ho t ht
    rw [hp] at hot
    cases hot with
    | @cons _ Q _ _ _ hq hf hk =>
      obtain ⟨hg, hQ⟩ := hf s (hpre t ht)
      refine ih (Function.update pre t Q) ?_ ?_ ?_
      · intro u hu
        rcases eq_or_ne u t with rfl | hut
        · rwa [Function.update_self]
        · rw [Function.update_of_ne hut]
          exact hst u hu s (f s) (hpre u hu) ⟨t, ht, hut.symm, hg⟩
      · intro u hu
        rcases eq_or_ne u t with rfl | hut
        · rwa [Function.update_self]
        · rw [Function.update_of_ne hut]
          exact hst u hu
      · intro u hu
        rcases eq_or_ne u t with rfl | hut
        · rwa [Function.update_self, Function.update_self]
        · rw [Function.update_of_ne hut, Function.update_of_ne hut]
          exact ho u hu

/-- One action for each thread: a part of the state that the other threads leave alone is
where thread `t` has found it and as it has left it. -/
theorem Runs.owned {f : ℕ → S → S} {s s' : S} (h : Runs n (fun u => [f u]) s s')
    (same : S → S → Prop) {t : ℕ} (ht : t < n) (hrefl : ∀ s, same s s) (htrans : ∀ a b c, same a b → same b c → same a c)
    (hkeep : ∀ u < n, u ≠ t → ∀ s, same s (f u s)) : ∃ s₁, same s s₁ ∧ same (f t s₁) s' := by
  have hout : ∀ u < n, Outline (rely n (fun u a b => u ≠ t → same a b) u) (fun a b => u ≠ t → same a b)
      (fun a => u = t → same s a) [f u] fun b => u = t → ∃ a, same s a ∧ same (f t a) b := by
    intro u hu
    refine .single ?_ fun a ha => ⟨fun hut => hkeep u hu hut a, ?_⟩
    · rintro a b ha ⟨v, _, hvu, hab⟩ rfl
      obtain ⟨c, hc, hca⟩ := ha rfl
      exact ⟨c, hc, htrans _ _ _ hca (hab hvu)⟩
    · rintro rfl
      exact ⟨a, ha rfl, hrefl _⟩
  refine h.establishes _ (fun u a => u = t → same s a) (fun _ _ _ => hrefl s) ?_ hout t ht rfl
  rintro u _ a b ha ⟨v, _, hvu, hab⟩ rfl
  exact htrans _ _ _ (ha rfl) (hab hvu)

theorem runs_single {f : S → S} {s s' : S} (hn : 0 < n) (h : Runs n (single f) s s') : s' = f s := by
  -- only thread 0 acts, so the others may be promised anything
  have hout : ∀ t < n, Outline (rely n (fun t _ _ => t = 0) t) (fun _ _ => t = 0) (fun s₁ => t = 0 → s₁ = s)
      (single f t) fun s₁ => t = 0 → s₁ = f s := by
    intro t _
    rcases eq_or_ne t 0 with rfl | ht
    · refine .single ?_ fun s₁ hs => ⟨rfl, fun _ => congrArg f (hs rfl)⟩
      rintro s₁ s₂ hs ⟨u, _, hu, rfl⟩ _
      exact absurd rfl hu
    · rw [single, if_neg ht]
      exact .nil fun s₁ _ h0 => absurd h0 ht
  refine h.establishes (fun t _ _ => t = 0) (fun t s₁ => t = 0 → s₁ = s) (fun _ _ _ => rfl) ?_ hout 0 hn rfl
  rintro t _ s₁ s₂ hs ⟨u, _, hu, rfl⟩ rfl
  exact absurd rfl hu

/-- Iterations that each write an entry of their own. -/
theorem parallelFor_update {V : Type*} {v : ℕ → V} {g g' : ℕ → V}
    (h : ParallelFor n (fun i g => Function.update g i (v i)) g g') (k : ℕ) : g' k = if k < n then v k else g k := by
  -- over the iterations that are left
  have hrest : ∀ {p : Segment (ℕ → V)} {g g' : ℕ → V}, Runs n p g g' →
      (∀ t, p t = [] ∨ p t = [fun g => Function.update g t (v t)]) →
      g' k = if k < n ∧ p k ≠ [] then v k else g k := by
    intro p g g' h
    induction h with
    | finished hp =>
      intro _
      exact (if_neg fun hk => hk.2 (hp k hk.1)).symm
    | @act p g g' t f k' ht hp _ ih =>
      intro hall
      obtain ⟨rfl, rfl⟩ : f = (fun g => Function.update g t (v t)) ∧ k' = [] := by
        have ht := (hall t).resolve_left (by rw [hp]; exact List.cons_ne_nil _ _)
        rw [hp] at ht
        exact List.cons.inj ht
      rw [ih fun u => ?_]
      · rcases eq_or_ne k t with rfl | hk
        · rw [if_neg (by rw [Function.update_self]; exact fun h => h.2 rfl)]
          refine (Function.update_self _ _ _).trans (if_pos ⟨ht, ?_⟩).symm
          rw [hp]
          exact List.cons_ne_nil _ _
        · rw [Function.update_of_ne hk]
          exact if_congr Iff.rfl rfl (Function.update_of_ne hk _ _)
      · rcases eq_or_ne u t with rfl | hu
        · exact .inl (Function.update_self _ _ _)
        · rw [Function.update_of_ne hu]
          exact hall u
  rw [hrest h fun t => .inr rfl]
  exact if_congr (and_iff_left (List.cons_ne_nil _ _)) rfl rfl

end ThreadTeam
