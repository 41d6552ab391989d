import Mathlib

/-!
# Ring buffers

Positions that count up without end, kept in words that wrap around and in slots that are used again. Inside a window no
longer than the ring, words tell the distance of two positions and slots tell them apart.
-/
namespace RingBuffer
variable {M n a b i j : ℕ}

/-- The difference of two wrapping words. -/
def distance (M a b : ℕ) : ℕ := (a + M - b) % M

theorem distance_mod (hb : b ≤ a) (ha : a < b + M) : distance M (a % M) (b % M) = a - b := by
  have hM : 0 < M := by omega
  have hlt := Nat.mod_lt a hM
  have hlt' := Nat.mod_lt b hM
  have hsplit := Nat.div_add_mod a M
  have hsplit' := Nat.div_add_mod b M
  unfold distance
  -- the window holds at most one multiple of the word size
  have hdiv : b / M ≤ a / M := Nat.div_le_div_right hb
  have hdiv' : a / M ≤ b / M + 1 := by
    have hle : a / M ≤ (b + M) / M := Nat.div_le_div_right (Nat.le_of_lt ha)
    rwa [Nat.add_div_right _ hM] at hle
  by_cases he : a / M = b / M
  · rw [he] at hsplit
    rw [show a % M + M - b % M = a - b + M by omega, Nat.add_mod_right, Nat.mod_eq_of_lt (by omega)]
  · have hsucc : a / M = b / M + 1 := by omega
    rw [hsucc, Nat.mul_succ] at hsplit
    rw [show a % M + M - b % M = a - b by omega, Nat.mod_eq_of_lt (by omega)]

theorem mod_inj_window (hi : b ≤ i) (hi' : i < b + n) (hj : b ≤ j) (hj' : j < b + n) (h : i % n = j % n) : i = j := by
  have hi'' := distance_mod hi hi'
  have hj'' := distance_mod hj hj'
  rw [h] at hi''
  omega

/-- A slot of a ring of `2 ^ k` slots in chunks of `2 ^ c`. -/
def slot (k c position : ℕ) : ℕ × ℕ := (position % 2 ^ k / 2 ^ c, position % 2 ^ k % 2 ^ c)

theorem slot_inj_window {k c w : ℕ} (hk : k ≤ w) (hi : b ≤ i) (hi' : i < b + 2 ^ k) (hj : b ≤ j) (hj' : j < b + 2 ^ k)
    (h : slot k c (i % 2 ^ w) = slot k c (j % 2 ^ w)) : i = j := by
  apply mod_inj_window hi hi' hj hj'
  have hdvd : 2 ^ k ∣ 2 ^ w := Nat.pow_dvd_pow 2 hk
  simp only [slot, Nat.mod_mod_of_dvd _ hdvd, Prod.mk.injEq] at h
  rw [← Nat.div_add_mod (i % 2 ^ k) (2 ^ c), h.1, h.2, Nat.div_add_mod]

theorem slot_lt {k c : ℕ} (hc : c ≤ k) (position : ℕ) :
    (slot k c position).1 < 2 ^ (k - c) ∧ (slot k c position).2 < 2 ^ c := by
  refine ⟨?_, Nat.mod_lt _ (Nat.two_pow_pos c)⟩
  apply Nat.div_lt_of_lt_mul
  rw [← Nat.pow_add, Nat.add_sub_cancel' hc]
  exact Nat.mod_lt _ (Nat.two_pow_pos k)

theorem add_one_mod (hn : 0 < n) : (a + 1) % n = if a % n + 1 = n then 0 else a % n + 1 := by
  have hlt := Nat.mod_lt a hn
  rw [← Nat.mod_add_mod]
  split
  next heq => rw [heq, Nat.mod_self]
  next hne => exact Nat.mod_eq_of_lt (by omega)

/-- One slot of a ring is reached from another by going back, around the end if need be. -/
theorem sub_mod_window {k : ℕ} (hk : k ≤ a) (hkn : k ≤ n) (hn : 0 < n) :
    (a - k) % n = if k ≤ a % n then a % n - k else a % n + n - k := by
  have hsplit := Nat.div_add_mod a n
  have hlt := Nat.mod_lt a hn
  split
  next hle =>
    rw [show a - k = a % n - k + n * (a / n) by omega, Nat.add_mul_mod_self_left, Nat.mod_eq_of_lt (by omega)]
  next hgt =>
    have hpos : 0 < a / n := by
      rw [Nat.pos_iff_ne_zero]
      intro hzero
      rw [hzero] at hsplit
      omega
    have hturn : n * (a / n) = n * (a / n - 1) + n := by
      rw [← Nat.mul_succ, Nat.succ_eq_add_one, Nat.sub_add_cancel hpos]
    rw [show a - k = a % n + n - k + n * (a / n - 1) by omega, Nat.add_mul_mod_self_left, Nat.mod_eq_of_lt (by omega)]

section Window
variable {α : Type*} {read read' : ℕ → Option α} {start : ℕ} {l : List α} {x : α}

/-- The slots from `start` on, around the ring, hold the elements of a list. -/
structure Window (n : ℕ) (read : ℕ → Option α) (start : ℕ) (l : List α) : Prop where
  le : l.length ≤ n
  get (i : ℕ) (hi : i < l.length) : read ((start + i) % n) = some l[i]

namespace Window
theorem nil (n : ℕ) (read : ℕ → Option α) (start : ℕ) : Window n read start [] :=
  ⟨Nat.zero_le n, fun _ hi => absurd hi (Nat.not_lt_zero _)⟩

theorem dropLast (h : Window n read start l) : Window n read start l.dropLast where
  le := Nat.le_trans (by rw [List.length_dropLast]; omega) h.le
  get i hi := by
    rw [List.length_dropLast] at hi
    rw [h.get i (by omega), List.getElem_dropLast]

theorem push (h : Window n read start l) (hn : 0 < n)
    (hread : ∀ i < n, read' i = if i = (start + l.length) % n then some x else read i) :
    Window n read' (start + (l.length + 1 - n)) ((l ++ [x]).rtake n) := by
  have hlen : (l ++ [x]).length = l.length + 1 := List.length_append
  rw [List.rtake, hlen]
  refine ⟨?_, fun i hi => ?_⟩
  · rw [List.length_drop, hlen]
    omega
  rw [List.length_drop, hlen] at hi
  have hle := h.le
  rw [hread _ (Nat.mod_lt _ hn), List.getElem_drop, Nat.add_assoc]
  by_cases hlast : l.length + 1 - n + i = l.length
  · rw [if_pos (by rw [hlast])]
    simp only [hlast, List.getElem_concat_length]
  · -- another slot of the ring than the one written
    rw [if_neg, h.get _ (by omega), List.getElem_append_left]
    intro heq
    have hsame : start + (l.length + 1 - n + i) = start + l.length :=
      mod_inj_window (b := start + (l.length + 1 - n)) (by omega) (by omega) (by omega) (by omega) heq
    omega

end Window
end Window

end RingBuffer
