import Zpc.LBvh
import Zpc.SplitTree
import Mathlib.Data.Prod.Lex
import Mathlib.Data.LawfulXor.Basic

/-!
# The inner nodes that `build` finds

Neighbouring leaves are told apart by the number of low bits in which their codes differ, and equal neighbours by
their place. With these weights the range and the split that `_build_build_topo` finds for an id are the inner node of
that number in the tree of splits.
-/
namespace Zpc.LBvh
open SplitTree

def diff (x y : BitVec 32) : ℕ := 32 - countLz (x ^^^ y)

theorem countLz_le (x : BitVec 32) : countLz x ≤ 32 := by
  rw [countLz]
  split
  · exact le_rfl
  · exact BitVec.clz_le

theorem lt_countLz_iff {x : BitVec 32} {n : ℕ} (hn : n < 32) : n < countLz x ↔ x.toNat < 2 ^ (31 - n) := by
  rw [countLz]
  split
  case isTrue h =>
    rw [h]
    exact iff_of_true hn (Nat.two_pow_pos _)
  case isFalse h =>
    constructor
    · intro hlt
      exact BitVec.toNat_lt_two_pow_sub_clz.trans_le (Nat.pow_le_pow_right Nat.two_pos (by omega))
    · intro hlt
      by_contra hle
      have hlow := BitVec.two_pow_sub_clz_le_toNat_of_ne_zero (by decide) h
      have hpow : 2 ^ (31 - n) ≤ 2 ^ (32 - 1 - x.clz.toNat) := Nat.pow_le_pow_right Nat.two_pos (by omega)
      omega

theorem diff_le_iff {x y : BitVec 32} {k : ℕ} : diff x y ≤ k ↔ x.toNat / 2 ^ k = y.toNat / 2 ^ k := by
  have hle := countLz_le (x ^^^ y)
  rcases Nat.lt_or_ge k 32 with hk | hk
  · have hn : 31 - k < 32 := by omega
    have hkk : 31 - (31 - k) = k := by omega
    calc diff x y ≤ k ↔ 31 - k < countLz (x ^^^ y) := by rw [diff]; omega
      _ ↔ (x ^^^ y).toNat < 2 ^ k := by rw [lt_countLz_iff hn, hkk]
      _ ↔ (x.toNat ^^^ y.toNat) / 2 ^ k = 0 := by
        rw [BitVec.toNat_xor, Nat.div_eq_zero_iff_lt (Nat.two_pow_pos k)]
      _ ↔ x.toNat / 2 ^ k = y.toNat / 2 ^ k := by rw [Nat.xor_div_two_pow, xor_eq_zero_iff]
  · have hpow : 2 ^ 32 ≤ 2 ^ k := Nat.pow_le_pow_right Nat.two_pos hk
    have hx : x.toNat / 2 ^ k = 0 := Nat.div_eq_of_lt (x.isLt.trans_le hpow)
    have hy : y.toNat / 2 ^ k = 0 := Nat.div_eq_of_lt (y.isLt.trans_le hpow)
    rw [hx, hy, diff]
    exact iff_of_true (by omega) rfl

theorem diff_comm (x y : BitVec 32) : diff x y = diff y x := by
  rw [diff, diff, BitVec.xor_comm]

theorem diff_eq_zero_iff {x y : BitVec 32} : diff x y = 0 ↔ x = y := by
  rw [← Nat.le_zero, diff_le_iff, pow_zero, Nat.div_one, Nat.div_one]
  exact BitVec.toNat_inj

theorem lt_countLz_xor_iff {x y : BitVec 32} {n : ℕ} (hn : n < 32) : n < countLz (x ^^^ y) ↔ diff x y ≤ 31 - n := by
  rw [diff]
  omega

section Weights
variable (mcs : ℕ → BitVec 32)

/-- The number of low bits in which the codes on both sides of a split differ. -/
def bits (g : ℕ) : ℕ := diff (mcs g) (mcs (g + 1))

/-- The weight of a split: of two splits with the same bits the left one is heavier. -/
def weight (g : ℕ) : ℕ ×ₗ ℕᵒᵈ := toLex (bits mcs g, OrderDual.toDual g)

theorem weight_lt_iff {a b : ℕ} :
    weight mcs a < weight mcs b ↔ bits mcs a < bits mcs b ∨ (bits mcs a = bits mcs b ∧ b < a) :=
  Prod.Lex.toLex_lt_toLex

theorem weight_injective : Function.Injective (weight mcs) := by
  intro a b h
  have h2 := congrArg (fun x => (ofLex x).2) h
  exact h2

end Weights

/-- The codes of the leaves `0..m` ascend. -/
def Ascending (mcs : ℕ → BitVec 32) (m : ℕ) : Prop := ∀ a b, a ≤ b → b ≤ m → (mcs a).toNat ≤ (mcs b).toNat

section Ascending
variable {mcs : ℕ → BitVec 32} {m a b i j k g n idx left L : ℕ} (h : Ascending mcs m)

include h

theorem diff_le_iff_forall (hab : a ≤ b) (hb : b ≤ m) :
    diff (mcs a) (mcs b) ≤ k ↔ ∀ g, a ≤ g → g < b → bits mcs g ≤ k := by
  constructor
  · intro hd g hag hgb
    rw [diff_le_iff] at hd
    rw [bits, diff_le_iff]
    have h1 := Nat.div_le_div_right (c := 2 ^ k) (h a g hag (hgb.le.trans hb))
    have h2 := Nat.div_le_div_right (c := 2 ^ k) (h g (g + 1) g.le_succ (Nat.le_trans hgb hb))
    have h3 := Nat.div_le_div_right (c := 2 ^ k) (h (g + 1) b hgb hb)
    omega
  · intro hall
    induction b, hab using Nat.le_induction with
    | base => exact diff_le_iff.mpr rfl
    | succ b hab ih =>
      have hd := ih (Nat.le_of_succ_le hb) fun g hag hgb => hall g hag (Nat.lt_succ_of_lt hgb)
      have hlast := hall b hab (Nat.lt_succ_self b)
      rw [diff_le_iff] at hd ⊢
      rw [bits, diff_le_iff] at hlast
      exact hd.trans hlast

/-- Between two splits with the same bits, not all codes equal, one has more. -/
theorem exists_heavier (hab : a < b) (hb : b < m) (heq : bits mcs a = bits mcs b) (hpos : 0 < bits mcs a)
    (hall : ∀ g, a < g → g < b → bits mcs g < bits mcs a) : False := by
  obtain ⟨k, hk⟩ := Nat.exists_eq_succ_of_ne_zero hpos.ne'
  rw [hk] at heq hall
  have hmid : diff (mcs (a + 1)) (mcs b) ≤ k :=
    (diff_le_iff_forall h hab hb.le).mpr fun g hag hgb => Nat.le_of_lt_succ (hall g hag hgb)
  have ha : ¬ bits mcs a ≤ k := by omega
  have ha' : bits mcs a ≤ k + 1 := by omega
  have hb1 : ¬ bits mcs b ≤ k := by omega
  have hb' : bits mcs b ≤ k + 1 := by omega
  rw [bits, diff_le_iff] at ha ha' hb1 hb'
  rw [diff_le_iff] at hmid
  rw [pow_succ, ← Nat.div_div_eq_div_mul, ← Nat.div_div_eq_div_mul] at ha' hb'
  have h1 := Nat.div_le_div_right (c := 2 ^ k) (h a (a + 1) a.le_succ (Nat.le_trans hab hb.le))
  have h2 := Nat.div_le_div_right (c := 2 ^ k) (h b (b + 1) b.le_succ hb)
  omega

theorem shares_right_iff (hn : n < 32) (left e : ℕ) : shares mcs m left n (left + e * 1) = true ↔
    left + e ≤ m ∧ ∀ g, left ≤ g → g < left + e → bits mcs g ≤ 31 - n := by
  rw [shares, mul_one]
  have hnat : ((left : ℤ) + e).toNat = left + e := by omega
  split
  case isTrue hin =>
    have hle : left + e ≤ m := by omega
    rw [decide_eq_true_eq, hnat, lt_countLz_xor_iff hn, diff_comm, diff_le_iff_forall h (Nat.le_add_right _ _) hle]
    exact (and_iff_right hle).symm
  case isFalse hin => exact iff_of_false Bool.false_ne_true fun hc => hin (by omega)

theorem shares_left_iff (hn : n < 32) (hleft : left ≤ m) {e : ℕ} : shares mcs m left n (left + e * (-1)) = true ↔
    e ≤ left ∧ ∀ g, left - e ≤ g → g < left → bits mcs g ≤ 31 - n := by
  rw [shares]
  split
  case isTrue hin =>
    have hle : e ≤ left := by omega
    have hnat : ((left : ℤ) + e * (-1)).toNat = left - e := by omega
    rw [decide_eq_true_eq, hnat, lt_countLz_xor_iff hn, diff_le_iff_forall h (Nat.sub_le _ _) hleft]
    exact (and_iff_right hle).symm
  case isFalse hin => exact iff_of_false Bool.false_ne_true fun hc => hin (by omega)

end Ascending

section Search
variable {more : ℕ → Bool} {L : ℕ}

/-- A condition that holds up to some distance and not for all. -/
theorem exists_greatest {P : ℕ → Prop} {m : ℕ} (h0 : P 0) (hdown : ∀ e, P (e + 1) → P e) (hm : ∀ e, P e → e ≤ m) :
    ∃ L, L ≤ m ∧ ∀ e, P e ↔ e ≤ L := by
  classical
  refine ⟨Nat.findGreatest P m, Nat.findGreatest_le m,
    fun e => ⟨fun he => Nat.le_findGreatest (hm e he) he, fun he => ?_⟩⟩
  have htop : P (Nat.findGreatest P m) := Nat.findGreatest_spec m.zero_le h0
  revert he
  generalize Nat.findGreatest P m = top at htop
  intro he
  induction top, he using Nat.le_induction with
  | base => exact htop
  | succ top _ ih => exact ih (hdown top htop)

variable (hmore : ∀ e, more e = true ↔ e ≤ L)

include hmore

theorem expand_spec (fuel step : ℕ) (hL : L < step * 2 ^ fuel) :
    ∃ p, expand more (fuel + 1) step = some (step * 2 ^ p) ∧ L < step * 2 ^ p := by
  induction fuel generalizing step with
  | zero =>
    rw [pow_zero, mul_one] at hL
    refine ⟨0, ?_, by rwa [pow_zero, mul_one]⟩
    rw [expand, if_neg (by rw [hmore]; omega), pow_zero, mul_one]
  | succ fuel ih =>
    rw [expand]
    split
    case isTrue =>
      obtain ⟨p, hp, hlt⟩ := ih (2 * step) (by rwa [pow_succ', ← mul_assoc, mul_comm step] at hL)
      have heq : 2 * step * 2 ^ p = step * 2 ^ (p + 1) := by ring
      exact ⟨p + 1, by rw [hp, heq], heq ▸ hlt⟩
    case isFalse hnot =>
      refine ⟨0, by rw [pow_zero, mul_one], ?_⟩
      rw [hmore] at hnot
      rw [pow_zero, mul_one]
      omega

theorem narrow_spec (p : ℕ) {len : ℕ} (hlen : len ≤ L) (hL : L < len + 2 ^ (p + 1)) : narrow more (2 ^ p) len = L := by
  induction p generalizing len with
  | zero =>
    rw [narrow, pow_zero, if_pos le_rfl, narrow, if_neg (by decide)]
    split
    case isTrue h =>
      rw [hmore] at h
      omega
    case isFalse h =>
      rw [hmore] at h
      omega
  | succ p ih =>
    have hhalf : 2 ^ (p + 1) / 2 = 2 ^ p := by rw [pow_succ, Nat.mul_div_cancel _ Nat.two_pos]
    rw [narrow, if_pos Nat.one_le_two_pow, hhalf]
    rw [pow_succ] at hL
    split
    case isTrue h => exact ih ((hmore _).mp h) (by omega)
    case isFalse h =>
      rw [hmore] at h
      exact ih hlen (by omega)

end Search

theorem rangeLen_spec {mcs : ℕ → BitVec 32} {m left n L : ℕ} {dir : ℤ}
    (hmore : ∀ e : ℕ, shares mcs m left n (left + e * dir) = true ↔ e ≤ L) (hL : L ≤ m) :
    rangeLen mcs m left n dir = some L := by
  have hfuel : L < 2 * 2 ^ (m + 1) := by
    have := Nat.lt_two_pow_self (n := m + 1)
    omega
  obtain ⟨p, hp, hlt⟩ := expand_spec hmore (m + 1) 2 hfuel
  rw [rangeLen, hp, Option.map_some, Nat.mul_div_cancel_left _ Nat.two_pos]
  refine congrArg some (narrow_spec hmore p L.zero_le ?_)
  rwa [Nat.zero_add, pow_succ, mul_comm]

section Topology
variable {mcs : ℕ → BitVec 32} {m i j idx : ℕ}

theorem runEnd_spec (mcs : ℕ → BitVec 32) {m : ℕ} (right : ℕ) (hr : right ≤ m) :
    right ≤ runEnd mcs m right ∧ runEnd mcs m right ≤ m ∧
    (∀ g, right ≤ g → g < runEnd mcs m right → bits mcs g = 0) ∧
    (runEnd mcs m right < m → bits mcs (runEnd mcs m right) ≠ 0) := by
  induction hn : m - right generalizing right with
  | zero =>
    rw [runEnd, if_neg (by omega)]
    exact ⟨le_rfl, hr, fun g h1 h2 => by omega, fun hlt => by omega⟩
  | succ n ih =>
    rw [runEnd, if_pos (by omega)]
    split
    case isTrue hne =>
      exact ⟨le_rfl, hr, fun g h1 h2 => by omega, fun _ h0 => hne (diff_eq_zero_iff.mp h0)⟩
    case isFalse heq =>
      obtain ⟨h1, h2, h3, h4⟩ := ih (right + 1) (by omega) (by omega)
      refine ⟨by omega, h2, fun g hg hg' => ?_, h4⟩
      rcases hg.eq_or_lt with rfl | hlt
      · exact diff_eq_zero_iff.mpr (not_not.mp heq)
      · exact h3 g hlt hg'

variable (h : Ascending mcs m)

include h

omit h in
/-- Equal neighbours on both sides: the range is the rest of the run. -/
theorem numbered_run {b : ℕ} (hb : b + 1 < m) (h₁ : bits mcs b = 0) (h₂ : bits mcs (b + 1) = 0) :
    Numbered (weight mcs) m (b + 1) (b + 1) (runEnd mcs m (b + 1 + 1)) := by
  obtain ⟨hle, hlem, hzero, hend⟩ := runEnd_spec mcs (b + 1 + 1) hb
  have hall : ∀ g, b + 1 ≤ g → g < runEnd mcs m (b + 1 + 1) → bits mcs g = 0 := by
    intro g hg hg'
    rcases hg.eq_or_lt with rfl | hlt
    · exact h₂
    · exact hzero g hlt hg'
  refine .atLeft ⟨by omega, hlem, ?_, ?_⟩ (by omega) (fun hc => absurd hc b.succ_ne_zero) ?_
  · intro a ha x hx hx'
    rw [Nat.succ.inj ha, weight_lt_iff, hall x hx hx', h₁]
    exact .inr ⟨rfl, hx⟩
  · intro hlt x hx hx'
    rw [weight_lt_iff, hall x hx hx']
    exact .inl (Nat.pos_of_ne_zero (hend hlt))
  · intro hlt a ha
    rw [Nat.succ.inj ha, weight_lt_iff, h₁]
    exact .inl (Nat.pos_of_ne_zero (hend hlt))

/-- The right neighbour is the more different one: the range ends at the id. -/
theorem rangeLen_left {b n : ℕ} (hb : b + 1 < m) (hn : n < 32) (hlim : 31 - n + 1 = bits mcs (b + 1))
    (hbits : bits mcs b < bits mcs (b + 1)) :
    ∃ len, rangeLen mcs m (b + 1) n (-1) = some len ∧ Numbered (weight mcs) m (b + 1) (b + 1 - len) (b + 1) := by
  obtain ⟨len, hlen, hiff⟩ := exists_greatest
    (P := fun e => e ≤ b + 1 ∧ ∀ g, b + 1 - e ≤ g → g < b + 1 → bits mcs g ≤ 31 - n)
    ⟨Nat.zero_le _, fun g h1 h2 => by omega⟩
    (fun e he => ⟨by omega, fun g h1 h2 => he.2 g (by omega) h2⟩) fun e he => he.1
  have hmax := (hiff len).mpr le_rfl
  have hone : 1 ≤ len := by
    apply (hiff 1).mp ⟨by omega, fun g h1 h2 => ?_⟩
    obtain rfl : g = b := by omega
    omega
  have hin : ∀ x, b + 1 - len ≤ x → x < b + 1 → bits mcs x < bits mcs (b + 1) := by
    intro x hx hx'
    have := hmax.2 x hx hx'
    omega
  have hout : ∀ a, a + 1 = b + 1 - len → bits mcs (b + 1) ≤ bits mcs a := by
    intro a ha
    by_contra hcon
    have : len + 1 ≤ len := by
      apply (hiff (len + 1)).mp ⟨by omega, fun g h1 h2 => ?_⟩
      rcases Nat.lt_or_ge g (b + 1 - len) with hg | hg
      · obtain rfl : g = a := by omega
        omega
      · exact hmax.2 g hg h2
    omega
  refine ⟨len, rangeLen_spec (fun e => (shares_left_iff h hn hb.le).trans (hiff e)) (hlen.trans hb.le),
    .atRight ⟨by omega, hb.le, ?_, ?_⟩ (by omega) hb ?_⟩
  · intro a ha x hx hx'
    rw [weight_lt_iff]
    exact .inl ((hin x hx hx').trans_le (hout a ha))
  · intro _ x hx hx'
    rw [weight_lt_iff]
    exact .inl (hin x hx hx')
  · intro a ha
    rw [weight_lt_iff]
    rcases (hout a ha).lt_or_eq with hlt | heq
    · exact .inl hlt
    · exact .inr ⟨heq, by omega⟩

/-- The left neighbour is no less different: the range starts at the id. -/
theorem rangeLen_right {b n : ℕ} (hb : b + 1 < m) (hn : n < 32) (hlim : 31 - n + 1 = bits mcs b)
    (hbits : bits mcs (b + 1) ≤ bits mcs b) :
    ∃ len, rangeLen mcs m (b + 1) n 1 = some len ∧ Numbered (weight mcs) m (b + 1) (b + 1) (b + 1 + len) := by
  have hpos : 0 < bits mcs b := by omega
  obtain ⟨len, hlen, hiff⟩ := exists_greatest
    (P := fun e => b + 1 + e ≤ m ∧ ∀ g, b + 1 ≤ g → g < b + 1 + e → bits mcs g ≤ 31 - n)
    ⟨hb.le, fun g h1 h2 => by omega⟩
    (fun e he => ⟨by omega, fun g h1 h2 => he.2 g h1 (by omega)⟩) fun e he => (Nat.le_add_left _ _).trans he.1
  have hmax := (hiff len).mpr le_rfl
  have hin : ∀ x, b + 1 ≤ x → x < b + 1 + len → bits mcs x < bits mcs b := by
    intro x hx hx'
    have := hmax.2 x hx hx'
    omega
  have hout : b + 1 + len < m → bits mcs b < bits mcs (b + 1 + len) := by
    intro hlt
    rcases lt_trichotomy (bits mcs b) (bits mcs (b + 1 + len)) with hb' | heq | hb'
    · exact hb'
    · exact (exists_heavier h (by omega) hlt heq hpos fun g hg hg' => hin g hg hg').elim
    · have : len + 1 ≤ len := by
        apply (hiff (len + 1)).mp ⟨by omega, fun g h1 h2 => ?_⟩
        rcases Nat.lt_or_ge g (b + 1 + len) with hg | hg
        · exact hmax.2 g h1 hg
        · obtain rfl : g = b + 1 + len := by omega
          omega
      omega
  have hone : 1 ≤ len := by
    rcases hbits.eq_or_lt with heq | hlt
    · exact (exists_heavier h (Nat.lt_succ_self b) hb heq.symm hpos fun g h1 h2 => by omega).elim
    · apply (hiff 1).mp ⟨by omega, fun g h1 h2 => ?_⟩
      obtain rfl : g = b + 1 := by omega
      omega
  refine ⟨len, rangeLen_spec (fun e => (shares_right_iff h hn (b + 1) e).trans (hiff e)) hlen,
    .atLeft ⟨by omega, hmax.1, ?_, ?_⟩ (by omega) (fun hc => absurd hc b.succ_ne_zero) ?_⟩
  · intro a ha x hx hx'
    rw [Nat.succ.inj ha, weight_lt_iff]
    exact .inl (hin x hx hx')
  · intro hlt x hx hx'
    rw [weight_lt_iff]
    exact .inl ((hin x hx hx').trans (hout hlt))
  · intro hlt a ha
    rw [Nat.succ.inj ha, weight_lt_iff]
    exact .inl (hout hlt)

theorem determineRange_spec (hidx : idx < m) : ∃ i j, determineRange mcs m idx = some (i, j) ∧
    Numbered (weight mcs) m idx i j := by
  rw [determineRange]
  split
  case isTrue h0 =>
    refine ⟨0, m, rfl, ?_⟩
    rw [h0]
    exact .atLeft spans_root (Nat.zero_lt_of_lt hidx) (fun _ => rfl) fun hlt => absurd hlt (lt_irrefl m)
  case isFalse h0 =>
    obtain ⟨b, rfl⟩ := Nat.exists_eq_succ_of_ne_zero h0
    have hpre : bits mcs b = 32 - countLz (mcs b ^^^ mcs (b + 1)) := rfl
    have hnxt : bits mcs (b + 1) = 32 - countLz (mcs (b + 1 + 1) ^^^ mcs (b + 1)) := diff_comm _ _
    have hle₁ := countLz_le (mcs b ^^^ mcs (b + 1))
    have hle₂ := countLz_le (mcs (b + 1 + 1) ^^^ mcs (b + 1))
    rw [Nat.succ_eq_add_one, Nat.add_sub_cancel]
    dsimp only
    split
    case isTrue hrun =>
      exact ⟨_, _, rfl, numbered_run hidx (diff_eq_zero_iff.mpr hrun.1) (diff_eq_zero_iff.mpr hrun.2)⟩
    case isFalse hrun =>
      have hnot : ¬ (bits mcs b = 0 ∧ bits mcs (b + 1) = 0) :=
        fun hc => hrun ⟨diff_eq_zero_iff.mp hc.1, diff_eq_zero_iff.mp hc.2⟩
      split
      case isTrue hlt =>
        obtain ⟨len, hlen, hnumbered⟩ := rangeLen_left h hidx (by omega)
          (show 31 - countLz (mcs (b + 1 + 1) ^^^ mcs (b + 1)) + 1 = bits mcs (b + 1) by omega) (by omega)
        exact ⟨_, _, by rw [hlen, Option.map_some], hnumbered⟩
      case isFalse hge =>
        obtain ⟨len, hlen, hnumbered⟩ := rangeLen_right h hidx (by omega)
          (show 31 - countLz (mcs b ^^^ mcs (b + 1)) + 1 = bits mcs b by omega) (by omega)
        exact ⟨_, _, by rw [hlen, Option.map_some], hnumbered⟩

omit h in
/-- The codes that share more with the first one than the last does are those up to the heaviest split. -/
theorem splitLen_spec {n L step len : ℕ} (hn : n < 32) (hL : i + L < m)
    (hmore : ∀ e, i + e ≤ m → (diff (mcs (i + e)) (mcs i) ≤ 31 - n ↔ e ≤ L)) (hstep : 0 < step) (hlen : len ≤ L)
    (hlt : L < len + 2 * step) : splitLen mcs m i n step len = some L := by
  induction step using Nat.strong_induction_on generalizing len with
  | _ step ih =>
    rw [splitLen]
    split
    case isTrue hout =>
      rw [if_neg (by omega)]
      exact ih _ (by omega) (by omega) hlen (by omega)
    case isFalse hin =>
      have hcond := hmore (len + step) (by omega)
      rw [← Nat.add_assoc] at hcond
      dsimp only
      split
      case isTrue h1 =>
        split
        case isTrue hshare =>
          rw [lt_countLz_xor_iff hn, hcond] at hshare
          exact congrArg some (by omega)
        case isFalse hshare =>
          rw [lt_countLz_xor_iff hn, hcond] at hshare
          exact congrArg some (by omega)
      case isFalse h1 =>
        apply ih _ (by omega) (by omega)
        · split
          case isTrue hshare => rwa [lt_countLz_xor_iff hn, hcond] at hshare
          case isFalse hshare => exact hlen
        · split
          case isTrue hshare => omega
          case isFalse hshare =>
            rw [lt_countLz_xor_iff hn, hcond] at hshare
            omega

theorem findSplit_spec (hij : i < j) (hj : j ≤ m) : ∃ g, findSplit mcs m i j = some g ∧ Splits (weight mcs) i j g := by
  rw [findSplit]
  split
  case isTrue heq =>
    have hzero := (diff_le_iff_forall h hij.le hj).mp (diff_eq_zero_iff.mpr heq).le
    refine ⟨i, rfl, le_rfl, hij, fun x hx hx' hne => ?_⟩
    rw [weight_lt_iff]
    exact .inr ⟨(Nat.le_zero.mp (hzero x hx hx')).trans (Nat.le_zero.mp (hzero i le_rfl hij)).symm, by omega⟩
  case isFalse hne =>
    have hle := countLz_le (mcs i ^^^ mcs j)
    have hpos : diff (mcs i) (mcs j) ≠ 0 := fun h0 => hne (diff_eq_zero_iff.mp h0)
    have hn : countLz (mcs i ^^^ mcs j) < 32 := by
      rw [diff] at hpos
      omega
    have hlim : 31 - countLz (mcs i ^^^ mcs j) + 1 = diff (mcs i) (mcs j) := by
      rw [diff]
      omega
    generalize hk : 31 - countLz (mcs i ^^^ mcs j) = k at hlim
    obtain ⟨L, -, hLe⟩ := exists_greatest (P := fun e => i + e ≤ m ∧ diff (mcs i) (mcs (i + e)) ≤ k)
      ⟨(hij.trans_le hj).le, diff_le_iff.mpr rfl⟩
      (fun e he => ⟨by omega, by
        rw [diff_le_iff_forall h (Nat.le_add_right _ _) (by omega)]
        exact fun g h1 h2 => (diff_le_iff_forall h (Nat.le_add_right _ _) he.1).mp he.2 g h1 (by omega)⟩)
      fun e he => (Nat.le_add_left _ _).trans he.1
    have hmax := (hLe L).mpr le_rfl
    have hLj : i + L < j := by
      by_contra hcon
      have hin := (diff_le_iff_forall h (Nat.le_add_right i L) hmax.1).mp hmax.2
      have : diff (mcs i) (mcs j) ≤ k :=
        (diff_le_iff_forall h hij.le hj).mpr fun g h1 h2 => hin g h1 (by omega)
      omega
    have hall : ∀ g, i ≤ g → g < j → bits mcs g ≤ k + 1 := (diff_le_iff_forall h hij.le hj).mp hlim.ge
    have hbefore : ∀ g, i ≤ g → g < i + L → bits mcs g ≤ k :=
      (diff_le_iff_forall h (Nat.le_add_right i L) hmax.1).mp hmax.2
    have hsplit : bits mcs (i + L) = k + 1 := by
      by_contra hcon
      have hlast := hall (i + L) (Nat.le_add_right _ _) hLj
      have : L + 1 ≤ L := (hLe (L + 1)).mp ⟨by omega, by
        rw [diff_le_iff_forall h (Nat.le_add_right _ _) (by omega)]
        intro g h1 h2
        rcases Nat.lt_or_ge g (i + L) with hg | hg
        · exact hbefore g h1 hg
        · obtain rfl : g = i + L := by omega
          omega⟩
      omega
    have hmore : ∀ e, i + e ≤ m → (diff (mcs (i + e)) (mcs i) ≤ 31 - countLz (mcs i ^^^ mcs j) ↔ e ≤ L) := by
      intro e he
      rw [hk, diff_comm, ← hLe]
      exact (and_iff_right he).symm
    rw [splitLen_spec hn (hLj.trans_le hj) hmore (by omega) L.zero_le (by omega)]
    refine ⟨i + L, rfl, Nat.le_add_right _ _, hLj, fun x hx hx' hne => ?_⟩
    rw [weight_lt_iff, hsplit]
    rcases Nat.lt_or_ge x (i + L) with hxl | hxl
    · exact .inl (Nat.lt_succ_of_le (hbefore x hx hxl))
    · rcases (hall x hx hx').lt_or_eq with hlt | heq
      · exact .inl hlt
      · exact .inr ⟨heq, by omega⟩

end Topology

end Zpc.LBvh
