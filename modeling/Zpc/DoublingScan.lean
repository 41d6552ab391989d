import Mathlib.Order.Nat
import Mathlib.Tactic.Common

/-!
# Spans of a sequence under an associative operation

`span op w m` combines `w 0, …, w m` in this order. Doubling scans keep at each place
the span of the nearest entries and combine it with the one that lies a stride away.
-/
namespace DoublingScan
variable {α : Type*} {op : α → α → α} {w : ℕ → α}

def span (op : α → α → α) (w : ℕ → α) : ℕ → α
  | 0 => w 0
  | m + 1 => op (span op w m) (w (m+1))

theorem span_congr {w' : ℕ → α} {m : ℕ} (h : ∀ i ≤ m, w i = w' i) : span op w m = span op w' m := by
  induction m with
  | zero => exact h 0 le_rfl
  | succ m ih =>
    unfold span
    rw [ih fun i hi => h i (by omega), h (m+1) le_rfl]

/-- The first entry may be split off. -/
theorem span_succ (ha : ∀ a b c, op (op a b) c = op a (op b c)) (m : ℕ) :
    span op w (m+1) = op (w 0) (span op (fun i => w (i+1)) m) := by
  induction m with
  | zero => rfl
  | succ m ih =>
    calc span op w (m+2) = op (span op w (m+1)) (w (m+2)) := rfl
      _ = op (op (w 0) (span op (fun i => w (i+1)) m)) (w (m+2)) := by rw [ih]
      _ = op (w 0) (span op (fun i => w (i+1)) (m+1)) := ha _ _ _

theorem span_append (ha : ∀ a b c, op (op a b) c = op a (op b c)) (m k : ℕ) :
    op (span op w m) (span op (fun i => w (m+1+i)) k) = span op w (m+1+k) := by
  induction k with
  | zero => rfl
  | succ k ih =>
    calc op (span op w m) (op (span op (fun i => w (m+1+i)) k) (w (m+1+(k+1))))
        = op (op (span op w m) (span op (fun i => w (m+1+i)) k)) (w (m+1+(k+1))) := (ha _ _ _).symm
      _ = op (span op w (m+1+k)) (w (m+1+(k+1))) := by rw [ih]
      _ = span op w (m+1+(k+1)) := rfl

/-- One round: the nearest `s` entries and what the place `s` further on has gathered. -/
theorem span_double (ha : ∀ a b c, op (op a b) c = op a (op b c)) {s b : ℕ} (hs : 0 < s) (hb : s ≤ b) :
    op (span op w (s-1)) (span op (fun i => w (s+i)) (min (b-s) (s-1))) = span op w (min b (s*2-1)) := by
  have h := span_append (w := w) ha (s-1) (min (b-s) (s-1))
  rw [Nat.sub_add_cancel hs] at h
  rw [h]
  congr 1
  omega

/-- Spans of consecutive blocks of `c` entries make up the span of all of them. -/
theorem span_blocks (ha : ∀ a b c, op (op a b) c = op a (op b c)) {c : ℕ} (hc : 0 < c) (t : ℕ) :
    span op (fun u => span op (fun i => w (c*u+i)) (c-1)) t = span op w (c*(t+1)-1) := by
  induction t with
  | zero => simp [span]
  | succ t ih =>
    have hpos : c * (t+1) - 1 + 1 = c * (t+1) := Nat.sub_add_cancel (Nat.mul_pos hc t.succ_pos)
    have h := span_append (w := w) ha (c*(t+1)-1) (c-1)
    rw [hpos] at h
    rw [show c * (t+1+1) - 1 = c * (t+1) + (c-1) by rw [Nat.mul_succ c (t+1)]; omega, ← h, ← ih]
    rfl

/-- Entries that commute with everything may be taken in the other direction. -/
theorem span_reverse (ha : ∀ a b c, op (op a b) c = op a (op b c)) {m : ℕ}
    (hw : ∀ i ≤ m, ∀ x, op x (w i) = op (w i) x) : span op (fun i => w (m-i)) m = span op w m := by
  induction m with
  | zero => rfl
  | succ m ih =>
    have hcongr : span op (fun i => w (m+1-(i+1))) m = span op (fun i => w (m-i)) m :=
      span_congr fun i _ => by rw [Nat.add_sub_add_right]
    rw [span_succ ha, hcongr, ih fun i hi => hw i (by omega)]
    exact (hw (m+1) le_rfl _).symm

end DoublingScan
