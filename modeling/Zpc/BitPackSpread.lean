import Zpc.MaskedBits
import Zpc.WordBits

/-!
# Packing and spreading bits along a mask

`bit_pack` gathers the bits of a word at the set bits of a mask and `bit_spread` puts them back. Both reverse the mask,
walk its gaps with leading-zero counts and finish with a reversal and a shift. A shift by the width of the word or more
has no result in the language, so every shift of the source is one that may fail here.
-/
namespace Zpc.Bits
open MaskedBits WordBits

inductive Stop | shift | fuel
  deriving DecidableEq, Repr

/-- `x << n` on 64 bits. -/
def shl (x : BitVec 64) (n : ℕ) : Except Stop (BitVec 64) := if n < 64 then .ok (x <<< n) else .error .shift

/-- `x >> n` on 64 bits. -/
def shr (x : BitVec 64) (n : ℕ) : Except Stop (BitVec 64) := if n < 64 then .ok (x >>> n) else .error .shift

/-- `binary_reverse(data, loc)`, where the first argument is `loc + 1`; a negative `loc` is no shift count. -/
def binaryReverseFrom : ℕ → BitVec 64 → Except Stop (BitVec 64)
  | 0, data => if data = 0#64 then .ok 0#64 else .error .shift
  | loc + 1, data =>
    if data = 0#64 then .ok 0#64
    else do
      let top ← shl (data &&& 1#64) loc
      let rest ← binaryReverseFrom loc (data >>> 1)
      return top ||| rest

def binaryReverse (data : BitVec 64) : Except Stop (BitVec 64) := binaryReverseFrom 64 data

def leadingLoop : ℕ → BitVec 64 → ℕ → Except Stop ℕ
  | 0, _, _ => .error .fuel
  | n + 1, data, res => if data &&& 1#64 = 0#64 then leadingLoop n (data >>> 1) (res + 1) else .ok res

/-- `count_leading_zeros(data)`. -/
def countLeadingZeros (k : ℕ) (data : BitVec 64) : Except Stop ℕ := do
  let data ← binaryReverse data
  if data = 0#64 then return 64
  leadingLoop k data 0

def packLoop (k : ℕ) : ℕ → BitVec 64 → BitVec 64 → BitVec 64 → ℕ → Except Stop (BitVec 64 × ℕ)
  | 0, _, _, _, _ => .error .fuel
  | n + 1, rmask, uldata, ulresult, count =>
    if rmask = 0#64 then .ok (ulresult, count)
    else do
      let lz ← countLeadingZeros k rmask
      let uldata ← shr uldata lz
      let ulresult ← shl ulresult 1
      let ulresult := ulresult ||| (uldata &&& 1#64)
      let uldata ← shr uldata 1
      let rmask ← shl rmask (lz + 1)
      packLoop k n rmask uldata ulresult (count + 1)

/-- `bit_pack(mask, data)`; every loop has `k` iterations to spend. -/
def bitPack (k : ℕ) (mask data : BitVec 64) : Except Stop (BitVec 32) := do
  let rmask ← binaryReverse mask
  let (ulresult, count) ← packLoop k k rmask data 0#64 0
  let ulresult ← shl ulresult (64 - count)
  let ulresult ← binaryReverse ulresult
  return ulresult.setWidth 32

def spreadLoop (k : ℕ) : ℕ → BitVec 64 → BitVec 32 → BitVec 64 → Except Stop (BitVec 64)
  | 0, _, _, _ => .error .fuel
  | n + 1, rmask, dat, result =>
    if rmask = 0#64 then .ok result
    else do
      let lz ← countLeadingZeros k rmask
      let lz := lz + 1
      let shifted ← shl result lz
      let result := shifted ||| (dat &&& 1#32).setWidth 64
      let dat := dat.sshiftRight 1
      let rmask ← shl rmask lz
      spreadLoop k n rmask dat result

/-- `bit_spread(mask, data)`. -/
def bitSpread (k : ℕ) (mask : BitVec 64) (data : BitVec 32) : Except Stop (BitVec 64) := do
  let rmask ← binaryReverse mask
  let result ← spreadLoop k k rmask data 0#64
  let result ← binaryReverse result
  let lz ← countLeadingZeros k mask
  shr result lz

/-- With enough iterations the computation returns `r`: no loop runs on and no shift fails. -/
def Returns {α : Type} (f : ℕ → Except Stop α) (r : α) : Prop := ∃ N, ∀ k, N ≤ k → f k = .ok r

/-- The low `n` bits of a word. -/
def lowBits (n : ℕ) (d : BitVec 32) : BitVec 32 := d &&& BitVec.ofNat 32 (2 ^ n - 1)

/-- Packing and spreading along the mask are inverse to each other, and both return. -/
def Inverse (mask : BitVec 64) : Prop :=
  (∀ d, ∃ s, Returns (bitSpread · mask d) s ∧ Returns (bitPack · mask s) (lowBits (ones mask) d)) ∧
  (∀ x, ∃ p, Returns (bitPack · mask x) p ∧ Returns (bitSpread · mask p) (x &&& mask))

section Reverse
variable {x : BitVec 64} {n t res k : ℕ}

@[simp] theorem shl_of_lt (h : n < 64) : shl x n = .ok (x <<< n) := if_pos h

@[simp] theorem shr_of_lt (h : n < 64) : shr x n = .ok (x >>> n) := if_pos h

theorem getLsbD_one (i : ℕ) : (1#64).getLsbD i = decide (i = 0) := by
  rw [BitVec.getLsbD_one]
  cases i <;> simp

theorem and_one_eq_zero_iff : x &&& 1#64 = 0#64 ↔ x.getLsbD 0 = false := by
  rw [eq_zero_iff]
  constructor
  · intro h
    simpa [getLsbD_one] using h 0 (by decide)
  · intro h r _
    rw [BitVec.getLsbD_and, getLsbD_one]
    cases r with
    | zero => rw [h, Bool.false_and]
    | succ r => simp

/-- `binary_reverse` puts bit `j` at `loc - j`. -/
theorem binaryReverseFrom_spec (hn : n ≤ 64) (hx : ∀ i, n ≤ i → x.getLsbD i = false) :
    ∃ y, binaryReverseFrom n x = .ok y ∧ ∀ i, y.getLsbD i = (decide (i < n) && x.getLsbD (n - 1 - i)) := by
  induction n generalizing x with
  | zero =>
    have hzero : x = 0#64 := eq_zero_iff.mpr fun r _ => hx r (Nat.zero_le r)
    exact ⟨0#64, by rw [binaryReverseFrom, if_pos hzero], fun i => by simp⟩
  | succ n ih =>
    by_cases hzero : x = 0#64
    · exact ⟨0#64, by rw [binaryReverseFrom, if_pos hzero], fun i => by simp [hzero]⟩
    · obtain ⟨y, hy, hbits⟩ := ih (x := x >>> 1) (by omega) fun i hi => by
        rw [BitVec.getLsbD_ushiftRight]
        exact hx _ (by omega)
      refine ⟨(x &&& 1#64) <<< n ||| y, ?_, fun i => ?_⟩
      · rw [binaryReverseFrom, if_neg hzero, shl_of_lt (by omega), hy]
        rfl
      · rw [BitVec.getLsbD_or, hbits, BitVec.getLsbD_shiftLeft, BitVec.getLsbD_and, BitVec.getLsbD_ushiftRight,
          getLsbD_one]
        rcases Nat.lt_trichotomy i n with h | h | h
        · simp [h, show i < n + 1 by omega, show 1 + (n - 1 - i) = n - i by omega]
        · subst h
          simp [show i < 64 by omega]
        · simp [show ¬ i < n by omega, show ¬ i < n + 1 by omega, show i - n ≠ 0 by omega]

theorem binaryReverse_eq (x : BitVec 64) : binaryReverse x = .ok x.reverse := by
  obtain ⟨y, hy, hbits⟩ := binaryReverseFrom_spec (n := 64) (x := x) le_rfl fun i hi => BitVec.getLsbD_of_ge _ _ hi
  rw [binaryReverse, hy]
  refine congrArg _ (BitVec.eq_of_getLsbD_eq fun i hi => ?_)
  rw [hbits, BitVec.getLsbD_reverse, BitVec.getMsbD_eq_getLsbD]

theorem leadingLoop_eq (hk : t < k) (hlow : ∀ r < t, x.getLsbD r = false) (ht : x.getLsbD t = true) :
    leadingLoop k x res = .ok (res + t) := by
  induction t generalizing x res k with
  | zero =>
    obtain ⟨k, rfl⟩ := Nat.exists_eq_add_of_lt hk
    have hone : ¬ x &&& 1#64 = 0#64 := by
      rw [and_one_eq_zero_iff, ht]
      exact fun h => Bool.noConfusion h
    rw [Nat.zero_add, leadingLoop, if_neg hone]
    rfl
  | succ t ih =>
    obtain ⟨k, rfl⟩ := Nat.exists_eq_add_of_le' (Nat.one_le_of_lt hk)
    rw [leadingLoop, if_pos (and_one_eq_zero_iff.mpr (hlow 0 (Nat.succ_pos t))),
      ih (by omega) (fun r hr => by rw [BitVec.getLsbD_ushiftRight]; exact hlow _ (by omega))
        (by rw [BitVec.getLsbD_ushiftRight, Nat.add_comm]; exact ht)]
    exact congrArg _ (by omega)

theorem reverse_zero : (0#64).reverse = 0#64 :=
  eq_zero_iff.mpr fun r _ => by rw [BitVec.getLsbD_reverse, BitVec.getMsbD_zero]

theorem countLeadingZeros_eq (hk : 64 ≤ k) (hhigh : ∀ r < t, x.getMsbD r = false) (ht : x.getMsbD t = true) :
    countLeadingZeros k x = .ok t := by
  have ht64 : t < 64 := by
    by_contra h
    rw [BitVec.getMsbD_of_ge _ _ (by omega)] at ht
    exact Bool.false_ne_true ht
  have hne : x.reverse ≠ 0#64 := fun h => by
    rw [← BitVec.getLsbD_reverse, h, BitVec.getLsbD_zero] at ht
    exact Bool.false_ne_true ht
  have hloop : leadingLoop k x.reverse 0 = .ok (0 + t) := leadingLoop_eq (by omega)
    (fun r hr => by rw [BitVec.getLsbD_reverse, hhigh r hr]) (by rw [BitVec.getLsbD_reverse, ht])
  rw [Nat.zero_add] at hloop
  simp [countLeadingZeros, binaryReverse_eq, hne, hloop, bind, Except.bind]

end Reverse

section Gap
variable {mask x : BitVec 64} {s p k : ℕ} {ps : List ℕ}

/-- The positions of the mask from `s` on. -/
abbrev rest (mask : BitVec 64) (s : ℕ) : List ℕ := positionsFrom mask.getLsbD 64 s

theorem getMsbD_remaining (r : ℕ) : (mask.reverse <<< s).getMsbD r = mask.getLsbD (r + s) := by
  rw [BitVec.getMsbD_shiftLeft, BitVec.getMsbD_reverse]

theorem remaining_eq_zero (h : rest mask s = []) : mask.reverse <<< s = 0#64 := by
  refine BitVec.eq_of_getMsbD_eq fun r _ => ?_
  rw [getMsbD_remaining, BitVec.getMsbD_zero]
  rcases Nat.lt_or_ge (r + s) 64 with hlt | hge
  · exact of_positionsFrom_nil h _ (Nat.le_add_left s r) hlt
  · exact BitVec.getLsbD_of_ge _ _ hge

theorem remaining_ne_zero (h : rest mask s = p :: ps) : mask.reverse <<< s ≠ 0#64 := by
  obtain ⟨hs, -, hp, -⟩ := of_positionsFrom_cons h
  intro hzero
  have hbit : (mask.reverse <<< s).getMsbD (p - s) = _ := getMsbD_remaining (p - s)
  rw [hzero, Nat.sub_add_cancel hs, hp, BitVec.getMsbD_zero] at hbit
  exact Bool.false_ne_true hbit

/-- The leading zeros of what is left of the reversed mask are the gap up to the next position. -/
theorem countLeadingZeros_remaining (hk : 64 ≤ k) (h : rest mask s = p :: ps) :
    countLeadingZeros k (mask.reverse <<< s) = .ok (p - s) := by
  obtain ⟨hs, -, hp, hclear, -⟩ := of_positionsFrom_cons h
  refine countLeadingZeros_eq hk (fun r hr => ?_) ?_
  · rw [getMsbD_remaining]
    exact hclear _ (Nat.le_add_left s r) (by omega)
  · rw [getMsbD_remaining, Nat.sub_add_cancel hs, hp]

theorem length_rest_le : (rest mask s).length ≤ 64 := by
  refine (List.length_filter_le _ _).trans ?_
  rw [List.length_range']
  exact Nat.sub_le 64 s

def bit (b : Bool) : BitVec 64 := (BitVec.ofBool b).setWidth 64

theorem getLsbD_bit (b : Bool) (i : ℕ) : (bit b).getLsbD i = (decide (i = 0) && b) := by
  rw [bit, BitVec.getLsbD_setWidth, BitVec.getLsbD_ofBool]
  cases i <;> simp

theorem shifted_and_one : (x >>> p) &&& 1#64 = bit (x.getLsbD p) := by
  refine BitVec.eq_of_getLsbD_eq fun i _ => ?_
  rw [BitVec.getLsbD_and, BitVec.getLsbD_ushiftRight, getLsbD_one, getLsbD_bit, Bool.and_comm]
  by_cases hi : i = 0
  · simp [hi]
  · simp [hi]

end Gap

section Pack
variable {mask x : BitVec 64} {s p k n c : ℕ} {ps : List ℕ}

def pushBits (r : BitVec 64) (l : List Bool) : BitVec 64 := l.foldl (fun r b => r <<< 1 ||| bit b) r

theorem getLsbD_pushBits (l : List Bool) {i : ℕ} (hi : i < 64) :
    (pushBits 0#64 l).getLsbD i = l.reverse[i]?.getD false := by
  induction l using List.reverseRecOn generalizing i with
  | nil => rw [pushBits, List.foldl_nil, BitVec.getLsbD_zero]; rfl
  | append_singleton l b ih =>
    have hpush : pushBits 0#64 (l ++ [b]) = pushBits 0#64 l <<< 1 ||| bit b := by
      rw [pushBits, List.foldl_append]
      rfl
    rw [hpush, List.reverse_append, List.reverse_singleton, List.singleton_append, BitVec.getLsbD_or, getLsbD_bit,
      BitVec.getLsbD_shiftLeft]
    cases i with
    | zero => simp
    | succ i => simp [hi, ih (i := i) (by omega)]

/-- One run of the loop of `bit_pack` pushes the bits at the positions that are left. -/
theorem packLoop_eq (hk : 64 ≤ k) (hps : rest mask s = ps) (hn : ps.length < n)
    (htop : s = 0 → ps.head? ≠ some 63) (r : BitVec 64) : packLoop k n (mask.reverse <<< s) (x >>> s) r c =
      .ok (pushBits r (ps.map x.getLsbD), c + ps.length) := by
  induction ps generalizing s r c n with
  | nil =>
    obtain ⟨n, rfl⟩ := Nat.exists_eq_add_of_le' (Nat.one_le_of_lt hn)
    rw [packLoop, if_pos (remaining_eq_zero hps)]
    rfl
  | cons p ps ih =>
    obtain ⟨n, rfl⟩ := Nat.exists_eq_add_of_le' (Nat.one_le_of_lt hn)
    obtain ⟨hs, hp64, -, -, hrest⟩ := of_positionsFrom_cons hps
    have hgap : p - s + 1 < 64 := by
      rcases Nat.eq_zero_or_pos s with rfl | hpos
      · have : p ≠ 63 := fun h => htop rfl (by rw [List.head?_cons, h])
        omega
      · omega
    have hmask : mask.reverse <<< s <<< (p - s + 1) = mask.reverse <<< (p + 1) := by
      rw [← BitVec.shiftLeft_add, show s + (p - s + 1) = p + 1 by omega]
    have hdata : x >>> s >>> (p - s) = x >>> p := by
      rw [← BitVec.shiftRight_add, show s + (p - s) = p by omega]
    have hrec := ih (c := c + 1) hrest (Nat.lt_of_succ_lt_succ hn) (fun h => absurd h (Nat.succ_ne_zero p))
      (r <<< 1 ||| bit (x.getLsbD p))
    rw [packLoop, if_neg (remaining_ne_zero hps), countLeadingZeros_remaining hk hps]
    simp only [bind, Except.bind, shr_of_lt (show p - s < 64 by omega), shl_of_lt (show 1 < 64 by decide),
      shr_of_lt (show 1 < 64 by decide), shl_of_lt hgap, hmask, hdata, shifted_and_one]
    rw [← BitVec.shiftRight_add, hrec, List.map_cons, List.length_cons, Nat.add_right_comm c 1, Nat.add_assoc c]
    rfl

/-- The word that `bit_pack` gathers. -/
def gathered (mask x : BitVec 64) : BitVec 64 :=
  (pushBits 0#64 ((rest mask 0).map x.getLsbD) <<< (64 - (rest mask 0).length)).reverse

/-- Bit `j` of the gathered word is the bit at position number `j` of the mask. -/
theorem getLsbD_gathered {j : ℕ} : (gathered mask x).getLsbD j = ((rest mask 0)[j]?.map x.getLsbD).getD false := by
  have hlen : (rest mask 0).length ≤ 64 := length_rest_le
  rw [gathered, BitVec.getLsbD_reverse, BitVec.getMsbD_shiftLeft]
  rcases Nat.lt_or_ge j (rest mask 0).length with hj | hj
  · have hi : 64 - 1 - (j + (64 - (rest mask 0).length)) = (rest mask 0).length - 1 - j := by omega
    rw [BitVec.getMsbD_eq_getLsbD, decide_eq_true (show j + (64 - (rest mask 0).length) < 64 by omega), Bool.true_and,
      hi, getLsbD_pushBits _ (by omega), List.getElem?_reverse (by rw [List.length_map]; omega), List.length_map,
      show (rest mask 0).length - 1 - ((rest mask 0).length - 1 - j) = j by omega, List.getElem?_map]
  · rw [BitVec.getMsbD_of_ge _ _ (by omega), List.getElem?_eq_none hj]
    rfl

theorem bitPack_eq (hne : mask ≠ 0#64) (htop : (rest mask 0).head? ≠ some 63) (hk : 65 ≤ k) :
    bitPack k mask x = .ok ((gathered mask x).setWidth 32) := by
  have hlen : (rest mask 0).length ≤ 64 := length_rest_le
  have hpos : 0 < (rest mask 0).length := by
    refine Nat.pos_of_ne_zero fun h => hne ?_
    have := remaining_eq_zero (List.length_eq_zero_iff.mp h)
    rw [BitVec.shiftLeft_zero] at this
    rw [← BitVec.reverse_reverse_eq (x := mask), this, reverse_zero]
  have hloop := packLoop_eq (x := x) (c := 0) (k := k) (n := k) (by omega) (rfl : rest mask 0 = _) (by omega)
    (fun _ => htop) 0#64
  rw [BitVec.shiftLeft_zero, BitVec.ushiftRight_zero, Nat.zero_add] at hloop
  rw [bitPack, binaryReverse_eq]
  simp only [bind, Except.bind, hloop, shl_of_lt (show 64 - (rest mask 0).length < 64 by omega), binaryReverse_eq]
  rfl

end Pack

section Spread
variable {mask r : BitVec 64} {d : BitVec 32} {s p k n : ℕ} {ps : List ℕ}

/-- The bits of `d` are spread over the positions below `s`, the last of them at bit zero. -/
def Spread (mask : BitVec 64) (d : BitVec 32) (s : ℕ) (r : BitVec 64) : Prop :=
  ∀ i < 64, r.getLsbD i = (decide (i < s) &&
    (mask.getLsbD (s - 1 - i) && d.getLsbD (rank mask.getLsbD (s - 1 - i))))

theorem Spread.zero : Spread mask d 0 0#64 := fun i _ => by simp

theorem Spread.step (h : Spread mask d s r) (hps : rest mask s = p :: ps) :
    Spread mask d (p + 1) (r <<< (p - s + 1) ||| bit (d.getLsbD (rank mask.getLsbD s))) := by
  obtain ⟨hs, hp64, hp, hclear, -⟩ := of_positionsFrom_cons hps
  intro i hi
  rw [BitVec.getLsbD_or, BitVec.getLsbD_shiftLeft, getLsbD_bit, Nat.add_sub_cancel, decide_eq_true hi, Bool.true_and]
  rcases Nat.eq_zero_or_pos i with rfl | hpos
  · rw [← rank_eq_of_clear hs hclear]
    simp [hp]
  · rw [decide_eq_false (Nat.ne_of_gt hpos), Bool.false_and, Bool.or_false]
    rcases Nat.lt_or_ge i (p - s + 1) with hlt | hge
    · rw [decide_eq_true hlt, hclear (p - i) (by omega) (by omega)]
      simp
    · rw [decide_eq_false (Nat.not_lt.mpr hge), h _ (by omega), Bool.not_false, Bool.true_and]
      by_cases hip : i < p + 1
      · rw [decide_eq_true hip, decide_eq_true (show i - (p - s + 1) < s by omega),
          show s - 1 - (i - (p - s + 1)) = p - i by omega]
      · rw [decide_eq_false hip, decide_eq_false (show ¬ i - (p - s + 1) < s by omega)]
        rfl

theorem and_one_setWidth (dat : BitVec 32) : (dat &&& 1#32).setWidth 64 = bit (dat.getLsbD 0) := by
  refine BitVec.eq_of_getLsbD_eq fun i hi => ?_
  rw [BitVec.getLsbD_setWidth, BitVec.getLsbD_and, getLsbD_bit, BitVec.getLsbD_one]
  cases i <;> simp

theorem getLsbD_sshiftRight_zero (hn : n < 32) : (d.sshiftRight n).getLsbD 0 = d.getLsbD n := by
  rw [BitVec.getLsbD_sshiftRight, Nat.add_zero, if_pos hn]
  rfl

/-- The loop of `bit_spread` ends just above the last position, with the bits spread below it. -/
theorem spreadLoop_spec (hk : 64 ≤ k) (hones : rank mask.getLsbD 64 ≤ 31) (hps : rest mask s = ps) (hn : ps.length < n)
    (htop : s = 0 → ps.head? ≠ some 63) (hlast : s = 0 ∨ s ≤ 64 ∧ mask.getLsbD (s - 1) = true)
    (h : Spread mask d s r) : ∃ s' r',
      spreadLoop k n (mask.reverse <<< s) (d.sshiftRight (rank mask.getLsbD s)) r = .ok r' ∧ Spread mask d s' r' ∧
      rest mask s' = [] ∧ (s' = 0 ∨ s' ≤ 64 ∧ mask.getLsbD (s' - 1) = true) := by
  induction ps generalizing s r n with
  | nil =>
    obtain ⟨n, rfl⟩ := Nat.exists_eq_add_of_le' (Nat.one_le_of_lt hn)
    refine ⟨s, r, ?_, h, hps, hlast⟩
    rw [spreadLoop, if_pos (remaining_eq_zero hps)]
  | cons p ps ih =>
    obtain ⟨n, rfl⟩ := Nat.exists_eq_add_of_le' (Nat.one_le_of_lt hn)
    obtain ⟨hs, hp64, hp, hclear, hrest⟩ := of_positionsFrom_cons hps
    have hgap : p - s + 1 < 64 := by
      rcases Nat.eq_zero_or_pos s with rfl | hpos
      · have : p ≠ 63 := fun h => htop rfl (by rw [List.head?_cons, h])
        omega
      · omega
    have hrank : rank mask.getLsbD (p + 1) = rank mask.getLsbD s + 1 := by
      rw [rank_succ, if_pos hp, rank_eq_of_clear hs hclear]
    have hbound : rank mask.getLsbD s < 32 := by
      have := rank_mono (m := mask.getLsbD) (show p + 1 ≤ 64 by omega)
      omega
    have hmask : mask.reverse <<< s <<< (p - s + 1) = mask.reverse <<< (p + 1) := by
      rw [← BitVec.shiftLeft_add, show s + (p - s + 1) = p + 1 by omega]
    obtain ⟨s', r', hrun, hspread, hend, hlast'⟩ := ih hrest (Nat.lt_of_succ_lt_succ hn)
      (fun h => absurd h (Nat.succ_ne_zero p)) (Or.inr ⟨by omega, hp⟩) (h.step hps)
    refine ⟨s', r', ?_, hspread, hend, hlast'⟩
    rw [spreadLoop, if_neg (remaining_ne_zero hps), countLeadingZeros_remaining hk hps]
    simp only [bind, Except.bind, shl_of_lt hgap, hmask, and_one_setWidth, getLsbD_sshiftRight_zero hbound]
    rw [← BitVec.sshiftRight_add, ← hrank, hrun]

/-- The word that `bit_spread` scatters: at every position of the mask the bit of its rank. -/
def Scattered (mask : BitVec 64) (d : BitVec 32) (w : BitVec 64) : Prop :=
  ∀ i, w.getLsbD i = (mask.getLsbD i && d.getLsbD (rank mask.getLsbD i))

theorem bitSpread_eq (hne : mask ≠ 0#64) (htop : (rest mask 0).head? ≠ some 63) (hones : rank mask.getLsbD 64 ≤ 31)
    (d : BitVec 32) : ∃ w, (∀ k, 65 ≤ k → bitSpread k mask d = .ok w) ∧ Scattered mask d w := by
  have hlen : (rest mask 0).length ≤ 64 := length_rest_le
  have hrun : ∀ k, 65 ≤ k → ∃ w, bitSpread k mask d = .ok w ∧ Scattered mask d w := by
    intro k hk
    obtain ⟨s, r, hloop, hspread, hend, hlast⟩ := spreadLoop_spec (k := k) (n := k) (s := 0) (by omega) hones rfl
      (by omega) (fun _ => htop) (Or.inl rfl) (Spread.zero (d := d))
    have hlast : 0 < s ∧ s ≤ 64 ∧ mask.getLsbD (s - 1) = true := by
      rcases hlast with rfl | ⟨hs, hbit⟩
      · have := remaining_eq_zero hend
        rw [BitVec.shiftLeft_zero] at this
        exact absurd (by rw [← BitVec.reverse_reverse_eq (x := mask), this, reverse_zero]) hne
      · refine ⟨Nat.pos_of_ne_zero ?_, hs, hbit⟩
        rintro rfl
        rw [of_positionsFrom_nil hend 0 le_rfl (by decide)] at hbit
        exact Bool.false_ne_true hbit
    have hzeros : countLeadingZeros k mask = .ok (64 - s) := by
      refine countLeadingZeros_eq (by omega) (fun i hi => ?_) ?_
      · rw [BitVec.getMsbD_eq_getLsbD, of_positionsFrom_nil hend _ (by omega) (by omega), Bool.and_false]
      · rw [BitVec.getMsbD_eq_getLsbD, decide_eq_true (by omega), show 64 - 1 - (64 - s) = s - 1 by omega, hlast.2.2]
        rfl
    refine ⟨r.reverse >>> (64 - s), ?_, fun i => ?_⟩
    · rw [BitVec.shiftLeft_zero, show rank mask.getLsbD 0 = 0 from rfl, BitVec.sshiftRight_zero] at hloop
      rw [bitSpread, binaryReverse_eq]
      simp only [bind, Except.bind, hloop, binaryReverse_eq, hzeros]
      exact shr_of_lt (by omega)
    · rw [BitVec.getLsbD_ushiftRight, BitVec.getLsbD_reverse]
      rcases Nat.lt_or_ge i s with hi | hi
      · rw [BitVec.getMsbD_eq_getLsbD, decide_eq_true (show 64 - s + i < 64 by omega), hspread _ (by omega),
          decide_eq_true (show 64 - 1 - (64 - s + i) < s by omega),
          show s - 1 - (64 - 1 - (64 - s + i)) = i by omega]
        rfl
      · rw [BitVec.getMsbD_of_ge _ _ (by omega)]
        rcases Nat.lt_or_ge i 64 with h64 | h64
        · rw [of_positionsFrom_nil hend i hi h64, Bool.false_and]
        · rw [BitVec.getLsbD_of_ge _ _ h64, Bool.false_and]
  obtain ⟨w, -, hw⟩ := hrun 65 le_rfl
  refine ⟨w, fun k hk => ?_, hw⟩
  obtain ⟨v, hv, hbits⟩ := hrun k hk
  rw [hv, BitVec.eq_of_getLsbD_eq fun i _ => (hbits i).trans (hw i).symm]

end Spread

section RoundTrip
variable {mask w x : BitVec 64} {d : BitVec 32} {k : ℕ}

/-- The mask of the top bit alone. -/
def topBit : BitVec 64 := 0x8000000000000000#64

theorem getLsbD_lowBits {n j : ℕ} (hj : j < 32) : (lowBits n d).getLsbD j = (d.getLsbD j && decide (j < n)) := by
  rw [lowBits, BitVec.getLsbD_and, BitVec.getLsbD_ofNat, decide_eq_true hj, Bool.true_and, Nat.testBit_two_pow_sub_one]

/-- What was scattered along the mask is gathered again. -/
theorem gathered_scattered (h : Scattered mask d w) : (gathered mask w).setWidth 32 = lowBits (ones mask) d := by
  refine BitVec.eq_of_getLsbD_eq fun j hj => ?_
  rw [BitVec.getLsbD_setWidth, decide_eq_true hj, Bool.true_and, getLsbD_gathered, getLsbD_lowBits hj]
  have hlen : (rest mask 0).length = ones mask := length_positions
  rcases hp : (rest mask 0)[j]? with _ | p
  · rw [← hlen, decide_eq_false (Nat.not_lt.mpr (List.getElem?_eq_none_iff.mp hp)), Bool.and_false]
    rfl
  · obtain ⟨hlt, -⟩ := List.getElem?_eq_some_iff.mp hp
    have hmem := mem_positionsFrom.mp (List.mem_of_getElem? hp)
    rw [← hlen, decide_eq_true hlt, Bool.and_true, Option.map_some, Option.getD_some, h, hmem.2.2, rank_of_getElem? hp]
    rfl

/-- What was gathered along the mask is scattered back to its place. -/
theorem scattered_gathered (hones : ones mask ≤ 31) (h : Scattered mask ((gathered mask x).setWidth 32) w) :
    w = x &&& mask := by
  refine BitVec.eq_of_getLsbD_eq fun i hi => ?_
  rw [h, BitVec.getLsbD_and, Bool.and_comm]
  rcases hm : mask.getLsbD i with _ | _
  · rw [Bool.and_false, Bool.and_false]
  · have hrank : rank mask.getLsbD i < 32 := by
      have := rank_mono (m := mask.getLsbD) (show i + 1 ≤ 64 by omega)
      rw [rank_succ, if_pos hm] at this
      have : rank mask.getLsbD 64 ≤ 31 := hones
      omega
    have hget : (rest mask 0)[rank mask.getLsbD i]? = some i := getElem?_rank hi hm
    rw [BitVec.getLsbD_setWidth, decide_eq_true hrank, getLsbD_gathered, hget]
    rfl

theorem eq_topBit_of_head? (h : (rest mask 0).head? = some 63) : mask = topBit := by
  obtain ⟨ps, hps⟩ := List.head?_eq_some_iff.mp h
  obtain ⟨-, -, hp, hclear, -⟩ := of_positionsFrom_cons hps
  refine BitVec.eq_of_getLsbD_eq fun i hi => ?_
  have htop : topBit.getLsbD i = decide (i = 63) := by
    rw [show topBit = BitVec.twoPow 64 63 by decide, BitVec.getLsbD_twoPow]
    simp [eq_comm]
  rw [htop]
  rcases Nat.lt_or_ge i 63 with hlt | hge
  · rw [hclear i (Nat.zero_le i) hlt, decide_eq_false (Nat.ne_of_lt hlt)]
  · rw [show i = 63 by omega, hp]
    rfl

/-- The empty mask leaves a shift by all 64 bits. -/
theorem bitPack_zero (k : ℕ) (x : BitVec 64) : bitPack (k + 1) 0#64 x = .error .shift := by
  rw [bitPack, binaryReverse_eq, reverse_zero]
  rfl

/-- The top bit alone leaves a gap whose skipping takes a shift by all 64 bits. -/
theorem bitPack_topBit (hk : 64 ≤ k) (x : BitVec 64) : bitPack k topBit x = .error .shift := by
  obtain ⟨k, rfl⟩ := Nat.exists_eq_add_of_le' (show 1 ≤ k by omega)
  have hrest : rest topBit 0 = 63 :: [] := by decide
  have hloop : packLoop (k + 1) (k + 1) topBit.reverse x 0#64 0 = .error .shift := by
    have hne := remaining_ne_zero hrest
    have hzeros := countLeadingZeros_remaining hk hrest
    rw [BitVec.shiftLeft_zero] at hne hzeros
    rw [packLoop, if_neg hne, hzeros]
    rfl
  rw [bitPack, binaryReverse_eq]
  simp only [bind, Except.bind, hloop]

theorem not_returns {α : Type} {f : ℕ → Except Stop α} {r : α} {N : ℕ} (h : ∀ k, N ≤ k → f k = .error .shift) :
    ¬ Returns f r := by
  rintro ⟨M, hM⟩
  have := hM _ (Nat.le_max_left M N)
  rw [h _ (Nat.le_max_right M N)] at this
  cases this

theorem Inverse.ne_zero (h : Inverse mask) : mask ≠ 0#64 := by
  rintro rfl
  obtain ⟨p, hp, -⟩ := h.2 0#64
  refine not_returns (N := 1) (fun k hk => ?_) hp
  obtain ⟨k, rfl⟩ := Nat.exists_eq_add_of_le' hk
  exact bitPack_zero k 0#64

theorem Inverse.ne_topBit (h : Inverse mask) : mask ≠ topBit := by
  rintro rfl
  obtain ⟨p, hp, -⟩ := h.2 0#64
  exact not_returns (N := 64) (fun k hk => bitPack_topBit hk 0#64) hp

/-- Along a mask of at most 31 bits packing and spreading are inverse, and return, unless the mask is empty or the top
bit alone. -/
theorem inverse_iff (hones : ones mask ≤ 31) : Inverse mask ↔ mask ≠ 0#64 ∧ mask ≠ topBit := by
  refine ⟨fun h => ⟨h.ne_zero, h.ne_topBit⟩, ?_⟩
  rintro ⟨hne, htop⟩
  have hhead : (rest mask 0).head? ≠ some 63 := fun h => htop (eq_topBit_of_head? h)
  constructor
  · intro d
    obtain ⟨w, hrun, hw⟩ := bitSpread_eq hne hhead hones d
    refine ⟨w, ⟨65, hrun⟩, 65, fun k hk => ?_⟩
    exact (bitPack_eq hne hhead hk).trans (congrArg _ (gathered_scattered hw))
  · intro x
    obtain ⟨w, hrun, hw⟩ := bitSpread_eq hne hhead hones ((gathered mask x).setWidth 32)
    refine ⟨_, ⟨65, fun k hk => bitPack_eq hne hhead hk⟩, 65, fun k hk => ?_⟩
    exact (hrun k hk).trans (congrArg _ (scattered_gathered hones hw))

theorem not_inverse_topBit : ones topBit ≤ 31 ∧ ¬ Inverse topBit ∧ ones 0#64 ≤ 31 ∧ ¬ Inverse 0#64 :=
  ⟨by decide, fun h => h.ne_topBit rfl, by decide, fun h => h.ne_zero rfl⟩

theorem inverse_iff_nibble : ones 0xF0#64 ≤ 31 ∧ (Inverse 0xF0#64 ↔ 0xF0#64 ≠ 0#64 ∧ 0xF0#64 ≠ topBit) :=
  ⟨by decide, inverse_iff (by decide)⟩

end RoundTrip

end Zpc.Bits
