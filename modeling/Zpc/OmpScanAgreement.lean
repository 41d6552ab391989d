import Zpc.OmpScanResult

/-!
# When the OpenMP scans agree with the sequential ones

The rounds combine each thread's value with those of earlier threads on its right, and
`init` enters at the start of every block; this is harmless exactly when the operation
forgives it.
-/
namespace Zpc
open ThreadTeam DoublingScan

variable {α : Type*} {op : α → α → α} {init : α} {first : ℕ → α} {dist n : ℕ}

namespace SequentialExecutionPolicy
theorem inclusiveLoop_apply (m i : ℕ) (prev : α) (dFirst : ℕ → α) (hprev : prev = span op first i)
    (k : ℕ) : inclusiveLoop op first m (i+1) prev dFirst k =
      if i < k ∧ k ≤ i + m then span op first k else dFirst k := by
  induction m generalizing i prev dFirst with
  | zero => exact (if_neg (by omega)).symm
  | succ m ih =>
    have hnext : op prev (first (i+1)) = span op first (i+1) := by rw [hprev]; rfl
    rw [inclusiveLoop, ih (i+1) _ _ hnext, hnext]
    rcases eq_or_ne k (i+1) with rfl | hk
    · rw [if_neg (by omega), if_pos (by omega), Function.update_self]
    · rw [Function.update_of_ne hk]
      exact if_congr (by omega) rfl rfl

theorem inclusiveScan_apply (dFirst : ℕ → α) (k : ℕ) :
    inclusiveScan op first dist dFirst k = if k < dist then span op first k else dFirst k := by
  rcases Nat.eq_zero_or_pos dist with rfl | hd
  · simp [inclusiveScan]
  · rw [inclusiveScan, if_neg hd.ne']
    refine (inclusiveLoop_apply (dist-1) 0 _ _ rfl k).trans ?_
    rcases eq_or_ne k 0 with rfl | hk
    · rw [if_neg (by omega), Function.update_self, if_pos hd]
      rfl
    · rw [Function.update_of_ne hk]
      exact if_congr (by omega) rfl rfl

theorem reduceLoop_span (ha : ∀ a b c, op (op a b) c = op a (op b c)) (m i : ℕ) (init : α) :
    reduceLoop op first (m+1) i init = op init (span op (fun j => first (i+j)) m) := by
  induction m with
  | zero => rfl
  | succ m ih => rw [OmpExecutionPolicy.reduceLoop_succ, ih, ha]; rfl

theorem exclusiveLoop_apply (m i : ℕ) (prev : α) (dFirst : ℕ → α) (hprev : prev = reduceLoop op first i 0 init)
    (k : ℕ) : exclusiveLoop op first m i prev dFirst k =
      if i < k ∧ k ≤ i + m then reduceLoop op first k 0 init else dFirst k := by
  induction m generalizing i prev dFirst with
  | zero => exact (if_neg (by omega)).symm
  | succ m ih =>
    have hnext : op prev (first i) = reduceLoop op first (i+1) 0 init := by
      rw [OmpExecutionPolicy.reduceLoop_succ, hprev, Nat.zero_add]
    rw [exclusiveLoop, ih (i+1) _ _ hnext, hnext]
    rcases eq_or_ne k (i+1) with rfl | hk
    · rw [if_neg (by omega), if_pos (by omega), Function.update_self]
    · rw [Function.update_of_ne hk]
      exact if_congr (by omega) rfl rfl

theorem exclusiveScan_apply (dFirst : ℕ → α) (k : ℕ) :
    exclusiveScan op init first dist dFirst k = if k < dist then reduceLoop op first k 0 init else dFirst k := by
  rcases Nat.eq_zero_or_pos dist with rfl | hd
  · simp [exclusiveScan]
  · rw [exclusiveScan, if_neg hd.ne']
    refine (exclusiveLoop_apply (dist-1) 0 _ _ rfl k).trans ?_
    rcases eq_or_ne k 0 with rfl | hk
    · rw [if_neg (by omega), Function.update_self, if_pos hd]
      rfl
    · rw [Function.update_of_ne hk]
      exact if_congr (by omega) rfl rfl

end SequentialExecutionPolicy

namespace OmpExecutionPolicy
/-- With up to `dop` threads every run writes what the sequential policy writes. -/
def InclusiveAgrees (op : α → α → α) (dop : ℕ) : Prop := ∀ first dist nths s s', Team dop (dop < dist) nths →
  Passes nths (inclusiveScan op first dist nths) s s' →
    s'.dFirst = SequentialExecutionPolicy.inclusiveScan op first dist s.dFirst

def ExclusiveAgrees (op : α → α → α) (init : α) (dop : ℕ) : Prop := ∀ first dist nths s s', Team dop (dop < dist) nths →
  Passes nths (exclusiveScan op init first dist nths) s s' →
    s'.dFirst = SequentialExecutionPolicy.exclusiveScan op init first dist s.dFirst

def ReduceAgrees (op : α → α → α) (init : α) (dop : ℕ) : Prop := ∀ first dist nths s s', Team dop (dop < dist) nths →
  Passes nths (reduce op init first dist nths) s s' →
    s'.dFirst = SequentialExecutionPolicy.reduce op init first dist s.dFirst

theorem blockTotal_full (hn : 0 < n) {t : ℕ} (hact : Active dist n (t+1)) :
    blockTotal op first dist n t = span op (fun i => first (nwork dist n * t + i)) (nwork dist n - 1) := by
  rw [blockTotal, ed_of_active hn hact, st, st, Nat.mul_succ, Nat.add_sub_cancel_left]

/-- What precedes the block of thread `t`, although taken in the other direction, is the
span of the entries before it, of which there are at least two. -/
theorem earlier_eq (hn : 0 < n) (ha : ∀ a b c, op (op a b) c = op a (op b c))
    (hc : ∀ x a b, op x (op a b) = op (op a b) x) (hd : n < dist) {t : ℕ} (hact : Active dist n (t+1)) :
    earlier op first dist n (t+1) = span op first (st dist n (t+1) - 1) ∧ 2 ≤ st dist n (t+1) := by
  have h2 := two_le_nwork hn hd
  have hfull : ∀ u ≤ t, blockTotal op first dist n u =
      span op (fun i => first (nwork dist n * u + i)) (nwork dist n - 1) := fun u hu =>
    blockTotal_full hn (hact.mono hn (by omega))
  refine ⟨?_, h2.trans (Nat.le_mul_of_pos_right _ t.succ_pos)⟩
  calc earlier op first dist n (t+1)
      = span op (fun i => blockTotal op first dist n (t-i)) t := rfl
    _ = span op (blockTotal op first dist n) t := by
      refine span_reverse ha fun u hu x => ?_
      rw [hfull u hu, show nwork dist n - 1 = nwork dist n - 2 + 1 by omega]
      exact hc x _ _
    _ = span op (fun u => span op (fun i => first (nwork dist n * u + i)) (nwork dist n - 1)) t := span_congr hfull
    _ = span op first (st dist n (t+1) - 1) := span_blocks ha (by omega) t

theorem span_split (ha : ∀ a b c, op (op a b) c = op a (op b c)) {a j : ℕ} (h : 0 < a) :
    op (span op first (a-1)) (span op (fun i => first (a+i)) j) = span op first (a+j) := by
  have hs := span_append (w := first) ha (a-1) j
  rwa [Nat.sub_add_cancel h] at hs

/-- A position after the first block lies in the block of a later thread. -/
theorem later_owner (hn : 0 < n) {k : ℕ} (hk : k < dist) (h0 : k / nwork dist n ≠ 0) :
    ∃ t, k / nwork dist n = t + 1 ∧ Active dist n (t+1) ∧ 1 < n ∧ st dist n (t+1) + k % nwork dist n = k := by
  have hown : Owns dist n (k / nwork dist n) k := (owns_iff hn).mpr ⟨hk, rfl⟩
  have hlt := owner_lt hn hk
  have hsum := Nat.div_add_mod k (nwork dist n)
  obtain ⟨t, ht⟩ := Nat.exists_eq_succ_of_ne_zero h0
  rw [ht] at hown hlt hsum
  exact ⟨t, ht, active_of_owns hown, by omega, hsum⟩

theorem offset_first {k : ℕ} (h0 : k / nwork dist n = 0) : k % nwork dist n = k := by
  have h := Nat.div_add_mod k (nwork dist n)
  rwa [h0, Nat.mul_zero, Nat.zero_add] at h

theorem team_lt {dop nths : ℕ} (h : Team dop (dop < dist) nths) (h1 : 1 < nths) : nths < dist := by
  obtain ⟨-, hle, hd | rfl⟩ := h
  · omega
  · omega

theorem inclusiveAgrees_of (ha : ∀ a b c, op (op a b) c = op a (op b c)) {dop : ℕ}
    (hc : dop = 1 ∨ ∀ x a b, op x (op a b) = op (op a b) x) : InclusiveAgrees op dop := by
  intro first dist nths s s' hteam h
  have hn := hteam.1
  rw [inclusive_output hn ha h]
  funext k
  rw [SequentialExecutionPolicy.inclusiveScan_apply, applied, inclusiveBlock]
  by_cases hk : k < dist
  · simp only [hk, true_and, if_true]
    split
    next h0 =>
      obtain ⟨t, ht, hact, h1, hsum⟩ := later_owner hn hk h0
      have hc := hc.resolve_left fun hdop => by have := hteam.2.1; omega
      obtain ⟨he, h2⟩ := earlier_eq hn ha hc (team_lt hteam h1) hact
      rw [ht, he, show st dist nths (t+1) - 1 = st dist nths (t+1) - 2 + 1 by omega]
      refine (hc _ _ _).trans ?_
      show op (span op first (st dist nths (t+1) - 2 + 1)) _ = _
      rw [show st dist nths (t+1) - 2 + 1 = st dist nths (t+1) - 1 by omega, span_split ha (by omega), hsum]
    next h0 =>
      rw [not_not] at h0
      rw [h0, offset_first h0]
      exact span_congr fun i _ => by rw [st, Nat.mul_zero, Nat.zero_add]
  · simp only [hk, false_and, if_false]

theorem reduceLoop_of_identity (ha : ∀ a b c, op (op a b) c = op a (op b c)) (he : ∀ x, op init x = x) {k : ℕ}
    (hk : 0 < k) : SequentialExecutionPolicy.reduceLoop op first k 0 init = span op first (k-1) := by
  obtain ⟨m, rfl⟩ := Nat.exists_eq_succ_of_ne_zero hk.ne'
  rw [SequentialExecutionPolicy.reduceLoop_span ha, he]
  exact span_congr fun i _ => congrArg first (Nat.zero_add i)

theorem exclusiveAgrees_of (ha : ∀ a b c, op (op a b) c = op a (op b c)) {dop : ℕ} (he : ∀ x, op init x = x)
    (hc : dop = 1 ∨ ∀ a b, op a b = op b a) : ExclusiveAgrees op init dop := by
  intro first dist nths s s' hteam h
  have hn := hteam.1
  rw [exclusive_output hn ha h]
  funext k
  rw [SequentialExecutionPolicy.exclusiveScan_apply, applied, exclusiveBlock]
  by_cases hk : k < dist
  · simp only [hk, true_and, if_true]
    split
    next h0 =>
      obtain ⟨t, ht, hact, h1, hsum⟩ := later_owner hn hk h0
      have hc := hc.resolve_left fun hdop => by have := hteam.2.1; omega
      obtain ⟨hearlier, h2⟩ := earlier_eq hn ha (fun x a b => hc x (op a b)) (team_lt hteam h1) hact
      rw [ht, hearlier, reduceLoop_of_identity ha he (by omega)]
      split
      next hj => rw [he, show st dist nths (t+1) = k by omega]
      next hj => rw [hc, span_split ha (by omega), ← Nat.add_sub_assoc (by omega), hsum]
    next h0 =>
      rw [not_not] at h0
      rw [h0, offset_first h0]
      split
      next hk0 => rw [hk0]; rfl
      next hk0 =>
        rw [reduceLoop_of_identity ha he (by omega)]
        exact span_congr fun i _ => by rw [st, Nat.mul_zero, Nat.zero_add]
  · simp only [hk, false_and, if_false]

/-- The blocks of the threads up to the last with work, each after another `init`. -/
theorem reduceBlocks_active (hn : 0 < n) (ha : ∀ a b c, op (op a b) c = op a (op b c))
    (hc : ∀ a b c, op (op (op (op init a) b) init) c = op (op (op init a) b) c) (hd : n < dist) {t : ℕ}
    (hact : Active dist n t) :
    span op (reduceBlock op init first dist n) t = op init (span op first (ed dist n t - 1)) := by
  have h2 := two_le_nwork hn hd
  have hblock : ∀ t, Active dist n t → reduceBlock op init first dist n t = op init (blockTotal op first dist n t) := by
    intro t ht
    have hlt : st dist n t < ed dist n t := ht
    rw [reduceBlock, show ed dist n t - st dist n t = ed dist n t - st dist n t - 1 + 1 by omega,
      SequentialExecutionPolicy.reduceLoop_span ha, blockTotal]
  induction t with
  | zero =>
    refine (hblock 0 hact).trans ?_
    rw [blockTotal, st, Nat.mul_zero, Nat.sub_zero]
    exact congrArg (op init) (span_congr fun i _ => congrArg first (Nat.zero_add i))
  | succ t ih =>
    have hlt : st dist n (t+1) < ed dist n (t+1) := hact
    have hpos : 2 ≤ st dist n (t+1) := h2.trans (Nat.le_mul_of_pos_right _ t.succ_pos)
    have hprev : st dist n (t+1) - 1 = st dist n (t+1) - 2 + 1 := by omega
    calc span op (reduceBlock op init first dist n) (t+1)
        = op (span op (reduceBlock op init first dist n) t) (reduceBlock op init first dist n (t+1)) := rfl
      _ = op (op init (span op first (st dist n (t+1) - 2 + 1))) (op init (blockTotal op first dist n (t+1))) := by
        rw [ih (hact.mono hn t.le_succ), hblock _ hact, ed_of_active hn hact, hprev]
      _ = op (op init (span op first (st dist n (t+1) - 2 + 1))) (blockTotal op first dist n (t+1)) := by
        rw [span, ← ha (op init _) init, ← ha init, hc, ha init]
      _ = op init (span op first (ed dist n (t+1) - 1)) := by
        rw [← hprev, ha, blockTotal, span_split ha (by omega)]
        congr 2
        omega

/-- Threads without work still bring an `init`. -/
theorem reduceBlocks_all (hn : 0 < n) (ha : ∀ a b c, op (op a b) c = op a (op b c))
    (hc : ∀ a b c, op (op (op (op init a) b) init) c = op (op (op init a) b) c)
    (hd' : ∀ a b c d, op (op (op (op (op init a) b) c) d) init = op (op (op (op init a) b) c) d) (hd : n < dist) :
    span op (reduceBlock op init first dist n) (n-1) = op init (span op first (dist-1)) := by
  have h2 := two_le_nwork hn hd
  have hle : dist ≤ nwork dist n * n := dist_le hn
  have hall : ∀ t < n, (Active dist n t → ed dist n t = dist) →
      span op (reduceBlock op init first dist n) t = op init (span op first (dist-1)) := by
    intro t htn ht
    induction t with
    | zero =>
      have hact : Active dist n 0 := (active_iff hn).mpr (by omega)
      rw [reduceBlocks_active hn ha hc hd hact, ht hact]
    | succ t ih =>
      by_cases hact : Active dist n (t+1)
      · rw [reduceBlocks_active hn ha hc hd hact, ht hact]
      · have hlast : Active dist n t → ed dist n t = dist := by
          intro _
          rw [active_iff hn] at hact
          rw [ed, st, ← Nat.mul_succ]
          exact Nat.min_eq_right (Nat.le_of_not_lt hact)
        have hidle : reduceBlock op init first dist n (t+1) = init := by
          have hge : ed dist n (t+1) - st dist n (t+1) = 0 := Nat.sub_eq_zero_of_le (Nat.le_of_not_lt hact)
          rw [reduceBlock, hge]
          rfl
        -- two threads both have work
        have h4 : dist - 1 = dist - 4 + 3 := by
          have hne : n ≠ 2 := by
            rintro rfl
            rw [active_iff hn, nwork, show t + 1 = 1 by omega] at hact
            omega
          omega
        rw [span, ih (by omega) hlast, hidle, h4, span, span, span, ← ha init, ← ha init, ← ha init, hd']
  refine hall (n-1) (by omega) fun _ => ?_
  rw [ed, st, ← Nat.mul_succ, show (n-1).succ = n by omega]
  exact Nat.min_eq_right hle

theorem reduceAgrees_of (ha : ∀ a b c, op (op a b) c = op a (op b c)) {dop : ℕ}
    (hc : dop = 1 ∨ (∀ a b c, op (op (op (op init a) b) init) c = op (op (op init a) b) c) ∧
      ∀ a b c d, op (op (op (op (op init a) b) c) d) init = op (op (op (op init a) b) c) d) :
    ReduceAgrees op init dop := by
  intro first dist nths s s' hteam h
  have hn := hteam.1
  rw [reduce_output hn ha h, SequentialExecutionPolicy.reduce]
  congr 1
  rcases Nat.lt_or_ge 1 nths with h1 | h1
  · obtain ⟨hc, hd'⟩ := hc.resolve_left fun hdop => by have := hteam.2.1; omega
    have hd := team_lt hteam h1
    rw [reduceBlocks_all hn ha hc hd' hd]
    obtain ⟨m, rfl⟩ := Nat.exists_eq_succ_of_ne_zero (show dist ≠ 0 by omega)
    rw [SequentialExecutionPolicy.reduceLoop_span ha]
    exact congrArg (op init) (span_congr fun i _ => congrArg first (Nat.zero_add i).symm)
  · obtain rfl : nths = 1 := by omega
    show reduceBlock op init first dist 1 0 = _
    rw [reduceBlock, st, Nat.mul_zero, ed, st, nwork]
    congr 1
    omega

theorem team_double {dop : ℕ} (hd : 2 ≤ dop) : Team dop (dop < 2 * dop) dop ∧ nwork (2*dop) dop = 2 := by
  refine ⟨⟨by omega, le_rfl, .inl (by omega)⟩, ?_⟩
  rw [nwork, Nat.div_eq_iff (by omega)]
  omega

theorem team_single {dop dist : ℕ} (hd : 0 < dop) : Team dop (dop < dist) 1 := ⟨Nat.one_pos, hd, .inr rfl⟩

/-- The first three entries of an input. -/
def three (a b x : α) : ℕ → α
  | 0 => a
  | 1 => b
  | _ => x

theorem earlier_one (h2 : nwork dist n = 2) (hd : 2 ≤ dist) : earlier op first dist n 1 = op (first 0) (first 1) := by
  have hed : ed dist n 0 = 2 := by
    rw [ed, st, h2]
    omega
  have hst : st dist n 0 = 0 := Nat.mul_zero _
  show span op (fun i => first (st dist n 0 + i)) (ed dist n 0 - st dist n 0 - 1) = _
  rw [hed, hst]
  rfl

theorem of_inclusiveAgrees (ha : ∀ a b c, op (op a b) c = op a (op b c)) {dop : ℕ} (hd : 2 ≤ dop)
    (h : InclusiveAgrees op dop) (x a b : α) : op x (op a b) = op (op a b) x := by
  obtain ⟨hteam, h2⟩ := team_double hd
  let s : ScanState α := ⟨fun _ => x, fun _ => x, fun _ => x, fun _ => x⟩
  obtain ⟨s', hs⟩ := exists_passes dop (inclusiveScan op (three a b x) (2*dop) dop) s
  have heq := congrFun (h _ _ _ _ _ hteam hs) 2
  have hlt : 2 < 2 * dop := by omega
  rw [inclusive_output (by omega) ha hs, SequentialExecutionPolicy.inclusiveScan_apply, if_pos hlt, applied,
    if_pos ⟨hlt, by rw [h2]; decide⟩, inclusiveBlock, if_pos hlt, h2, earlier_one h2 hlt.le, st, h2] at heq
  exact heq

theorem of_exclusiveAgrees_single (ha : ∀ a b c, op (op a b) c = op a (op b c)) {dop : ℕ} (hd : 0 < dop)
    (h : ExclusiveAgrees op init dop) (x : α) : op init x = x := by
  let s : ScanState α := ⟨fun _ => x, fun _ => x, fun _ => x, fun _ => x⟩
  obtain ⟨s', hs⟩ := exists_passes 1 (exclusiveScan op init (three x x x) 2 1) s
  have heq := congrFun (h _ _ _ _ _ (team_single hd) hs) 1
  have hw : nwork 2 1 = 2 := rfl
  rw [exclusive_output Nat.one_pos ha hs, SequentialExecutionPolicy.exclusiveScan_apply, if_pos (by decide), applied,
    if_neg (by decide), exclusiveBlock, if_pos (by decide), hw, if_neg (by decide), st] at heq
  exact heq.symm

theorem of_exclusiveAgrees (ha : ∀ a b c, op (op a b) c = op a (op b c)) {dop : ℕ} (hd : 2 ≤ dop)
    (h : ExclusiveAgrees op init dop) (a b : α) : op a b = op b a := by
  have he : ∀ x, op init x = x := of_exclusiveAgrees_single ha (by omega) h
  obtain ⟨hteam, h2⟩ := team_double hd
  let s : ScanState α := ⟨fun _ => a, fun _ => a, fun _ => a, fun _ => a⟩
  obtain ⟨s', hs⟩ := exists_passes dop (exclusiveScan op init (three init b a) (2*dop) dop) s
  have heq := congrFun (h _ _ _ _ _ hteam hs) 3
  have hlt : 3 < 2 * dop := by omega
  rw [exclusive_output (by omega) ha hs, SequentialExecutionPolicy.exclusiveScan_apply, if_pos hlt, applied,
    if_pos ⟨hlt, by rw [h2]; decide⟩, exclusiveBlock, if_pos hlt, h2, if_neg (by decide),
    earlier_one h2 (by omega), st, h2] at heq
  calc op a b = op a (op init b) := by rw [he]
    _ = op (op (op init init) b) a := heq
    _ = op b a := by rw [he, he]

theorem of_reduceAgrees_two (ha : ∀ a b c, op (op a b) c = op a (op b c)) (h : ReduceAgrees op init 2) (a b c : α) :
    op (op (op (op init a) b) init) c = op (op (op init a) b) c := by
  let s : ScanState α := ⟨fun _ => a, fun _ => a, fun _ => a, fun _ => a⟩
  obtain ⟨s', hs⟩ := exists_passes 2 (reduce op init (three a b c) 3 2) s
  have heq := congrFun (h _ _ _ _ _ ⟨by decide, le_rfl, .inl (by decide)⟩ hs) 0
  rw [reduce_output (by decide) ha hs, SequentialExecutionPolicy.reduce, Function.update_self, Function.update_self] at heq
  exact (ha _ _ _).trans heq

theorem of_reduceAgrees_three (ha : ∀ a b c, op (op a b) c = op a (op b c)) (h2 : ReduceAgrees op init 2)
    (h3 : ReduceAgrees op init 3) (a b c d : α) :
    op (op (op (op (op init a) b) c) d) init = op (op (op (op init a) b) c) d := by
  have hc := of_reduceAgrees_two ha h2
  let s : ScanState α := ⟨fun _ => a, fun _ => a, fun _ => a, fun _ => a⟩
  obtain ⟨s', hs⟩ := exists_passes 3 (reduce op init (fun i => if i = 3 then d else three a b c i) 4 3) s
  have heq := congrFun (h3 _ _ _ _ _ ⟨by decide, le_rfl, .inl (by decide)⟩ hs) 0
  rw [reduce_output (by decide) ha hs, SequentialExecutionPolicy.reduce, Function.update_self, Function.update_self] at heq
  -- three threads on four entries: the last one has nothing but `init`
  calc op (op (op (op (op init a) b) c) d) init
      = op (op (op (op (op (op init a) b) init) c) d) init := by rw [hc]
    _ = op (op (op (op init a) b) (op (op init c) d)) init := by rw [ha _ init, ha _ (op init c)]
    _ = op (op (op (op init a) b) c) d := heq

/-- Which operations and initial values the OpenMP versions treat like the sequential
ones: for each number of threads in the scans, for all of them in the reduction. -/
theorem agrees_iff (ha : ∀ a b c, op (op a b) c = op a (op b c)) :
    (∀ dop, 0 < dop → (InclusiveAgrees op dop ↔ dop = 1 ∨ ∀ x a b, op x (op a b) = op (op a b) x)) ∧
    (∀ dop, 0 < dop → (ExclusiveAgrees op init dop ↔ (∀ x, op init x = x) ∧ (dop = 1 ∨ ∀ a b, op a b = op b a))) ∧
    ReduceAgrees op init 1 ∧
    ((∀ dop, ReduceAgrees op init dop) ↔
      (∀ a b c, op (op (op (op init a) b) init) c = op (op (op init a) b) c) ∧
      ∀ a b c d, op (op (op (op (op init a) b) c) d) init = op (op (op (op init a) b) c) d) := by
  refine ⟨fun dop hd => ⟨fun h => ?_, inclusiveAgrees_of ha⟩, fun dop hd => ⟨fun h => ?_, ?_⟩,
    reduceAgrees_of ha (.inl rfl), fun h => ?_, fun hc dop => reduceAgrees_of ha (.inr hc)⟩
  · rcases Nat.lt_or_ge 1 dop with h1 | h1
    · exact .inr (of_inclusiveAgrees ha h1 h)
    · exact .inl (by omega)
  · refine ⟨of_exclusiveAgrees_single ha hd h, ?_⟩
    rcases Nat.lt_or_ge 1 dop with h1 | h1
    · exact .inr (of_exclusiveAgrees ha h1 h)
    · exact .inl (by omega)
  · rintro ⟨he, hc⟩
    exact exclusiveAgrees_of ha he hc
  · exact ⟨of_reduceAgrees_two ha (h 2), of_reduceAgrees_three ha (h 2) (h 3)⟩

theorem agrees_iff_sum :
    (∀ dop, 0 < dop → (InclusiveAgrees (fun a b : ℕ => a + b) dop ↔ dop = 1 ∨ ∀ x a b : ℕ, x + (a + b) = a + b + x)) ∧
    (∀ dop, 0 < dop → (ExclusiveAgrees (fun a b : ℕ => a + b) 0 dop ↔
      (∀ x : ℕ, 0 + x = x) ∧ (dop = 1 ∨ ∀ a b : ℕ, a + b = b + a))) ∧
    ReduceAgrees (fun a b : ℕ => a + b) 0 1 ∧
    ((∀ dop, ReduceAgrees (fun a b : ℕ => a + b) 0 dop) ↔
      (∀ a b c : ℕ, 0 + a + b + 0 + c = 0 + a + b + c) ∧ ∀ a b c d : ℕ, 0 + a + b + c + d + 0 = 0 + a + b + c + d) :=
  agrees_iff Nat.add_assoc

/-- One thread on the entries 1 and 2 with initial value 5: the second output is 1, not 6. -/
theorem exclusive_without_init : ¬ ∀ s s' : ScanState ℕ, Team 1 (1 < 2) 1 →
    Passes 1 (exclusiveScan (fun a b => a + b) 5 (three 1 2 0) 2 1) s s' →
      s'.dFirst = SequentialExecutionPolicy.exclusiveScan (fun a b => a + b) 5 (three 1 2 0) 2 s.dFirst := by
  intro h
  obtain ⟨s', hs⟩ := exists_passes 1 (exclusiveScan (fun a b => a + b) 5 (three 1 2 0) 2 1)
    (⟨fun _ => 0, fun _ => 0, fun _ => 0, fun _ => 0⟩ : ScanState ℕ)
  have hout := congrFun (exclusive_output Nat.one_pos Nat.add_assoc hs) 1
  have heq := congrFun (h _ _ (team_single Nat.one_pos) hs) 1
  rw [hout] at heq
  revert heq
  decide

end OmpExecutionPolicy

end Zpc
