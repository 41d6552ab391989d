import Mathlib.Algebra.BigOperators.Group.List.Basic
import Mathlib.Data.List.GetD
import Zpc.BitFields

/-!
# Coordinate maps of the adaptive grid

A grid of levels, the leaves at level zero. Each level has tiles of `2 ^ TileBits` cells along an axis, and `2 ^ ScalingBits`
cells of a level make one cell of its parent. The bits that a level covers come from recursions over the levels, and the
coordinate maps combine them with masks and shifts.
-/
namespace Zpc.AdaptiveGrid
open BitFields

/-- The template arguments `TileBits` and `ScalingBits`. -/
structure LevelBits where
  tileBits : List ℕ
  scalingBits : List ℕ

namespace LevelBits
variable (l : LevelBits)

def numLevels : ℕ := l.tileBits.length

def getTileBits (I : ℤ) : ℤ := if I < 0 then 0 else l.tileBits.getD I.toNat 0

def getScalingBits (I : ℤ) : ℤ := if I < 0 then 0 else l.scalingBits.getD I.toNat 0

def getHierarchyBits (I : ℤ) : ℤ :=
  if I < 0 then 0 else l.getTileBits I - (l.getTileBits (I - 1) - l.getScalingBits (I - 1))

def getAccumHierarchyBits (I : ℤ) : ℤ :=
  ((List.range l.numLevels).map fun i : ℕ => if (i : ℤ) ≤ I then l.getHierarchyBits i else 0).sum

def getCellBitOffset (I : ℤ) : ℤ := l.getAccumHierarchyBits I - l.getTileBits I

def getHierarchyDim (I : ℤ) : BitVec 32 := 1#32 <<< (l.getHierarchyBits I).toNat

def getTileDim (I : ℤ) : BitVec 32 := 1#32 <<< (l.getTileBits I).toNat

def getAccumHierarchyDim (I : ℤ) : BitVec 32 := 1#32 <<< (l.getAccumHierarchyBits I).toNat

/-- `Level<I>::cell_mask`. -/
def cellMask (I : ℤ) : BitVec 32 := l.getAccumHierarchyDim I - 1#32

/-- `Level<I>::origin_mask`. -/
def originMask (I : ℤ) : BitVec 32 := ~~~l.cellMask I

def getEndBits (I : ℤ) : ℤ := if I < 0 then 0 else l.getAccumHierarchyBits I

def coordToKey (I : ℤ) (c : List (BitVec 32)) : List (BitVec 32) := c.map (· &&& l.originMask I)

/-- The loop that both offsets are computed by. -/
def packCoord (bits shift : ℕ) (mask : BitVec 32) : List (BitVec 32) → BitVec 32
  | [] => 0#32
  | c :: cs => cs.foldl (fun (ret x : BitVec 32) => ret <<< bits ||| (x &&& mask) >>> shift) ((c &&& mask) >>> shift)

def coordToHierarchyOffset (I : ℤ) (c : List (BitVec 32)) : BitVec 32 :=
  packCoord (l.getHierarchyBits I).toNat (l.getEndBits (I - 1)).toNat (l.cellMask I) c

def coordToTileOffset (I : ℤ) (c : List (BitVec 32)) : BitVec 32 :=
  packCoord (l.getTileBits I).toNat (l.getCellBitOffset I).toNat (l.cellMask I) c

/-- The loop that both coordinates are computed by, from the last axis down. -/
def unpackCoord (bits shift : ℕ) (dimension : BitVec 32) : ℕ → BitVec 32 → List (BitVec 32)
  | 0, _ => []
  | d + 1, offset =>
    unpackCoord bits shift dimension d (offset >>> bits) ++ [(offset &&& (dimension - 1#32)) <<< shift]

def hierarchyOffsetToCoord (dim : ℕ) (I : ℤ) (offset : BitVec 32) : List (BitVec 32) :=
  unpackCoord (l.getHierarchyBits I).toNat (l.getEndBits (I - 1)).toNat (l.getHierarchyDim I) dim offset

def tileOffsetToCoord (dim : ℕ) (I : ℤ) (offset : BitVec 32) : List (BitVec 32) :=
  unpackCoord (l.getTileBits I).toNat (l.getCellBitOffset I).toNat (l.getTileDim I) dim offset

end LevelBits

def powIntegralRecursive (base val : BitVec 32) (exp : ℕ) : BitVec 32 :=
  if 1 < exp then
    if exp % 2 = 1 then powIntegralRecursive (base * base) (val * base) (exp / 2)
    else powIntegralRecursive (base * base) val (exp / 2)
  else if exp = 1 then val * base else val
termination_by exp
decreasing_by all_goals omega

def powIntegral (base : BitVec 32) (exp : ℕ) : BitVec 32 :=
  if exp = 3 then base * base * base
  else if exp = 2 then base * base
  else if exp = 1 then base
  else if exp = 0 then 1#32
  else powIntegralRecursive base 1#32 exp

namespace LevelBits
variable (l : LevelBits)

def getHierarchySize (dim : ℕ) (I : ℤ) : BitVec 32 := powIntegral (l.getHierarchyDim I) dim

def getTileSize (dim : ℕ) (I : ℤ) : BitVec 32 := powIntegral (l.getTileDim I) dim

end LevelBits

/-- A level layout that the code compiles for: its assertions hold, the cells of every level have a mask in `int`, and
offsets fit the index type. -/
structure Layout extends LevelBits where
  dim : ℕ
  dim_pos : 0 < dim
  length_eq : scalingBits.length = tileBits.length
  scaling_le : ∀ I : ℕ, I < toLevelBits.numLevels → toLevelBits.getScalingBits I ≤ toLevelBits.getTileBits I
  hierarchy_pos : ∀ I : ℕ, I < toLevelBits.numLevels → 0 < toLevelBits.getHierarchyBits I
  cell_fits : ∀ I : ℕ, I < toLevelBits.numLevels → toLevelBits.getAccumHierarchyBits I ≤ 30
  offset_fits : ∀ I : ℕ, I < toLevelBits.numLevels → dim * toLevelBits.getTileBits I ≤ 31

/-- Componentwise sum of two coordinates. -/
def add (a b : List (BitVec 32)) : List (BitVec 32) := List.zipWith (· + ·) a b

/-- A cell of level `I` is `2 ^ cellBits I` leaf cells wide: every level below scales by its own bits. -/
def LevelBits.cellBits (l : LevelBits) (I : ℕ) : ℕ := (l.scalingBits.take I).sum

/-- The coordinate with the bits below `n` cleared. -/
def clearBelow (n : ℕ) (c : List (BitVec 32)) : List (BitVec 32) := c.map (· &&& ~~~low 32 n)

/-- A nonnegative `int` below the size. -/
def InRange (offset size : BitVec 32) : Prop := 0 ≤ offset.toInt ∧ offset.toInt < size.toNat

section Size
theorem toNat_powIntegralRecursive (base val : BitVec 32) (exp : ℕ) :
    (powIntegralRecursive base val exp).toNat = val.toNat * base.toNat ^ exp % 2 ^ 32 := by
  induction base, val, exp using powIntegralRecursive.induct with
  | case1 base val exp hlt hodd ih =>
    rw [powIntegralRecursive, if_pos hlt, if_pos hodd, ih, BitVec.toNat_mul, BitVec.toNat_mul, ← Nat.mul_mod_mod,
      ← Nat.pow_mod, Nat.mul_mod_mod, Nat.mod_mul_mod, ← Nat.pow_two, ← Nat.pow_mul, Nat.mul_assoc, ← Nat.pow_succ',
      show (2 * (exp / 2)).succ = exp by omega]
  | case2 base val exp hlt hodd ih =>
    rw [powIntegralRecursive, if_pos hlt, if_neg hodd, ih, BitVec.toNat_mul, ← Nat.mul_mod_mod, ← Nat.pow_mod,
      Nat.mul_mod_mod, ← Nat.pow_two, ← Nat.pow_mul, show 2 * (exp / 2) = exp by omega]
  | case3 base val hlt =>
    rw [powIntegralRecursive, if_neg hlt, if_pos rfl, BitVec.toNat_mul, Nat.pow_one]
  | case4 base val exp hlt hone =>
    rw [powIntegralRecursive, if_neg hlt, if_neg hone, show exp = 0 by omega, Nat.pow_zero, Nat.mul_one,
      Nat.mod_eq_of_lt val.isLt]

/-- `pow_integral` is the power, modulo the width of the type. -/
theorem toNat_powIntegral (base : BitVec 32) (exp : ℕ) : (powIntegral base exp).toNat = base.toNat ^ exp % 2 ^ 32 := by
  rw [powIntegral]
  split_ifs with h3 h2 h1 h0
  · rw [h3, BitVec.toNat_mul, BitVec.toNat_mul, Nat.mod_mul_mod]
    exact congrArg (· % 2 ^ 32) (by ring)
  · rw [h2, BitVec.toNat_mul, Nat.pow_two]
  · rw [h1, Nat.pow_one, Nat.mod_eq_of_lt base.isLt]
  · rw [h0, Nat.pow_zero]
    rfl
  · rw [toNat_powIntegralRecursive]
    exact congrArg (· % 2 ^ 32) (Nat.one_mul _)

theorem toNat_powIntegral_twoPow {b n : ℕ} (h : b * n ≤ 31) (hb : b ≤ 31) :
    (powIntegral (1#32 <<< b) n).toNat = 2 ^ (b * n) := by
  have hdim : (1#32 <<< b).toNat = 2 ^ b := by
    rw [BitVec.toNat_shiftLeft, Nat.shiftLeft_eq]
    exact (congrArg (· % 2 ^ 32) (Nat.one_mul _)).trans
      (Nat.mod_eq_of_lt (Nat.pow_lt_pow_right (by decide) (by omega)))
  rw [toNat_powIntegral, hdim, ← Nat.pow_mul, Nat.mod_eq_of_lt (Nat.pow_lt_pow_right (by decide) (by omega))]

theorem inRange_of_lt {offset size : BitVec 32} {n : ℕ} (hn : n ≤ 31) (hsize : size.toNat = 2 ^ n)
    (h : offset.toNat < 2 ^ n) : InRange offset size := by
  have hlt : offset.toNat < 2 ^ 31 := h.trans_le (Nat.pow_le_pow_right (by decide) hn)
  have hint : offset.toInt = offset.toNat := BitVec.toInt_eq_toNat_of_lt (by omega)
  refine ⟨by omega, ?_⟩
  rw [hint, hsize]
  exact_mod_cast h

end Size

section Levels
variable (l : Layout) {I : ℕ}

theorem getTileBits_nonneg (I : ℤ) : 0 ≤ l.getTileBits I := by
  rw [LevelBits.getTileBits]
  split_ifs
  · exact le_rfl
  · exact Int.natCast_nonneg _

/-- The bits accumulated up to a level are those of the levels up to it. -/
theorem getAccumHierarchyBits_eq (hI : I < l.numLevels) :
    l.getAccumHierarchyBits I = ((List.range (I + 1)).map fun i : ℕ => l.getHierarchyBits i).sum := by
  have hsplit : List.range l.numLevels =
      List.range (I + 1) ++ (List.range (l.numLevels - (I + 1))).map (I + 1 + ·) := by
    rw [← List.range_add, Nat.add_sub_cancel' hI]
  have hlow : (List.range (I + 1)).map (fun i : ℕ => if (i : ℤ) ≤ I then l.getHierarchyBits i else 0) =
      (List.range (I + 1)).map fun i : ℕ => l.getHierarchyBits i :=
    List.map_congr_left fun i hi => if_pos (by have := List.mem_range.mp hi; omega)
  have hhigh : ((List.range (l.numLevels - (I + 1))).map (I + 1 + ·)).map
      (fun i : ℕ => if (i : ℤ) ≤ I then l.getHierarchyBits i else 0) =
      (List.range (l.numLevels - (I + 1))).map fun _ => 0 := by
    rw [List.map_map]
    exact List.map_congr_left fun i _ => if_neg (by push_cast; omega)
  rw [LevelBits.getAccumHierarchyBits, hsplit, List.map_append, List.sum_append, hlow, hhigh]
  simp

theorem getAccumHierarchyBits_zero (h : 0 < l.numLevels) : l.getAccumHierarchyBits (0 : ℕ) = l.getTileBits (0 : ℕ) := by
  rw [getAccumHierarchyBits_eq l h]
  simp [LevelBits.getHierarchyBits, LevelBits.getTileBits, LevelBits.getScalingBits]

theorem getAccumHierarchyBits_succ (hI : I + 1 < l.numLevels) : l.getAccumHierarchyBits (I + 1 : ℕ) =
    l.getAccumHierarchyBits I + l.getHierarchyBits (I + 1 : ℕ) := by
  rw [getAccumHierarchyBits_eq l hI, getAccumHierarchyBits_eq l (Nat.lt_of_succ_lt hI), List.range_succ,
    List.map_append, List.sum_append]
  simp

theorem getHierarchyBits_succ (I : ℕ) : l.getHierarchyBits (I + 1 : ℕ) =
    l.getTileBits (I + 1 : ℕ) - (l.getTileBits I - l.getScalingBits I) := by
  rw [LevelBits.getHierarchyBits, if_neg (by omega), show ((I + 1 : ℕ) : ℤ) - 1 = (I : ℤ) by omega]

/-- The cells of a level start above the scaling bits of all levels below it. -/
theorem getCellBitOffset_eq (hI : I < l.numLevels) : l.getCellBitOffset I = l.cellBits I := by
  induction I with
  | zero =>
    rw [LevelBits.getCellBitOffset, getAccumHierarchyBits_zero l hI, Int.sub_self]
    rfl
  | succ I ih =>
    have hlt : I < l.scalingBits.length := by
      rw [l.length_eq]
      exact Nat.lt_of_succ_lt hI
    have hscale : l.getScalingBits I = (l.scalingBits[I] : ℤ) := by
      rw [LevelBits.getScalingBits, if_neg (by omega), Int.toNat_natCast, List.getD_eq_getElem _ _ hlt]
    have hprev := ih (Nat.lt_of_succ_lt hI)
    rw [LevelBits.getCellBitOffset] at hprev
    have hsum : ((l.cellBits (I + 1) : ℕ) : ℤ) = l.cellBits I + l.getScalingBits I := by
      rw [hscale, LevelBits.cellBits, List.sum_take_succ _ _ hlt]
      exact Nat.cast_add _ _
    rw [LevelBits.getCellBitOffset, getAccumHierarchyBits_succ l hI, getHierarchyBits_succ, hsum]
    omega

theorem getAccumHierarchyBits_eq_add (hI : I < l.numLevels) :
    l.getAccumHierarchyBits I = l.cellBits I + l.getTileBits I := by
  have := getCellBitOffset_eq l hI
  rw [LevelBits.getCellBitOffset] at this
  omega

/-- The bits of a level start where those of the level below end. -/
theorem getEndBits_pred (hI : I < l.numLevels) :
    l.getEndBits ((I : ℤ) - 1) + l.getHierarchyBits I = l.getAccumHierarchyBits I ∧
    0 ≤ l.getEndBits ((I : ℤ) - 1) := by
  cases I with
  | zero =>
    rw [LevelBits.getEndBits, if_pos (by decide), getAccumHierarchyBits_zero l hI]
    refine ⟨?_, le_rfl⟩
    simp [LevelBits.getHierarchyBits, LevelBits.getTileBits, LevelBits.getScalingBits]
  | succ I =>
    have hlt := Nat.lt_of_succ_lt hI
    rw [show ((I + 1 : ℕ) : ℤ) - 1 = (I : ℤ) by omega, LevelBits.getEndBits, if_neg (by omega),
      getAccumHierarchyBits_succ l hI]
    refine ⟨rfl, ?_⟩
    have := getTileBits_nonneg l I
    rw [getAccumHierarchyBits_eq_add l hlt]
    omega

theorem getHierarchyBits_le (hI : I < l.numLevels) : l.getHierarchyBits I ≤ l.getTileBits I := by
  cases I with
  | zero => simp [LevelBits.getHierarchyBits, LevelBits.getTileBits, LevelBits.getScalingBits]
  | succ I =>
    have := l.scaling_le I (Nat.lt_of_succ_lt hI)
    rw [getHierarchyBits_succ]
    omega

end Levels

section Pack
open LevelBits

variable {bits s e : ℕ} {c : List (BitVec 32)} {o : BitVec 32}

theorem packCoord_eq : packCoord bits s (low 32 e) c = packWords bits (c.map (field s e)) := by
  cases c with
  | nil => rfl
  | cons x xs =>
    rw [packCoord, List.map_cons, packWords, List.foldl_map]
    rfl

theorem unpackCoord_eq (n : ℕ) (o : BitVec 32) :
    unpackCoord bits s (1#32 <<< bits) n o = (unpackWords bits n o).map fun d : BitVec 32 => d <<< s := by
  induction n generalizing o with
  | zero => rfl
  | succ n ih =>
    rw [unpackCoord, ih, unpackWords, List.map_append]
    rfl

theorem field_lt_of_mem (hs : s ≤ e) (he : e < 32) {d : BitVec 32} (hd : d ∈ c.map (field s e)) :
    d.toNat < 2 ^ (e - s) := by
  obtain ⟨x, -, rfl⟩ := List.mem_map.mp hd
  exact toNat_field_lt hs he

/-- What the fields of an offset and the coordinates of a level have in common: `b` bits for each axis, which start at
`s`, end at `e` and fit the index type. -/
structure Axis (b s e n : ℕ) : Prop where
  add_eq : s + b = e
  lt : e < 32
  fits : b * n ≤ 31
  pos : 0 < n

variable {b n : ℕ}

theorem Axis.bits_lt (h : Axis b s e n) : b < 32 := by
  have := h.add_eq
  have := h.lt
  omega

theorem Axis.le (h : Axis b s e n) : s ≤ e := by
  have := h.add_eq
  omega

theorem Axis.sub_eq (h : Axis b s e n) : e - s = b := by
  have := h.add_eq
  omega

theorem Axis.field_lt (h : Axis b s e n) {d : BitVec 32} (hd : d ∈ c.map (field s e)) : d.toNat < 2 ^ b :=
  h.sub_eq ▸ field_lt_of_mem h.le h.lt hd

theorem Axis.packCoord_lt (h : Axis b s e n) (hc : c.length = n) :
    (packCoord b s (low 32 e) c).toNat < 2 ^ (b * n) := by
  have hlen : (c.map (field s e)).length = n := by rw [List.length_map, hc]
  have hlt := toNat_packWords_lt (fun d hd => h.field_lt hd) (by rw [hlen]; exact h.fits.trans (by decide))
  rwa [hlen, ← packCoord_eq] at hlt

/-- A coordinate without its bits below `e`, plus the coordinate of its offset, loses just its bits below `s`. -/
theorem Axis.add_unpackCoord (h : Axis b s e n) (hc : c.length = n) :
    add (c.map (· &&& ~~~low 32 e)) (unpackCoord b s (1#32 <<< b) n (packCoord b s (low 32 e) c)) =
      clearBelow s c := by
  have hlen : (c.map (field s e)).length = n := by rw [List.length_map, hc]
  have hunpack := unpackWords_packWords h.bits_lt (fun d hd => h.field_lt (c := c) hd)
    (by rw [hlen]; exact h.fits.trans (by decide))
  rw [hlen] at hunpack
  rw [unpackCoord_eq, packCoord_eq, hunpack, List.map_map, add, List.zipWith_map_left, List.zipWith_map_right,
    List.zipWith_self, clearBelow]
  exact List.map_congr_left fun x _ => clear_add_field h.le h.lt

theorem map_field_add {l ds : List (BitVec 32)} (h : Axis b s e n) (hl : l.length = ds.length)
    (hds : ∀ d ∈ ds, d.toNat < 2 ^ b) :
    (List.zipWith (· + ·) (l.map (· &&& ~~~low 32 e)) (ds.map fun d : BitVec 32 => d <<< s)).map (field s e) = ds := by
  induction ds generalizing l with
  | nil =>
    rw [List.length_eq_zero_iff.mp hl]
    rfl
  | cons d ds ih =>
    obtain ⟨x, xs, rfl⟩ := List.exists_cons_of_length_eq_add_one hl
    rw [List.map_cons, List.map_cons, List.zipWith_cons_cons, List.map_cons,
      ih (Nat.succ.inj hl) fun d hd => hds d (List.mem_cons_of_mem _ hd),
      field_clear_add h.le h.lt (h.sub_eq.symm ▸ hds d List.mem_cons_self)]

/-- An offset in range is recovered from a key plus the coordinate of the offset. -/
theorem Axis.packCoord_add (h : Axis b s e n) (hc : c.length = n) (ho : o.toNat < 2 ^ (b * n)) :
    packCoord b s (low 32 e) (add (c.map (· &&& ~~~low 32 e)) (unpackCoord b s (1#32 <<< b) n o)) = o := by
  rw [packCoord_eq, unpackCoord_eq, add, map_field_add h (by rw [length_unpackWords, hc])
    fun d hd => lt_of_mem_unpackWords h.bits_lt hd]
  exact packWords_unpackWords h.bits_lt (h.fits.trans (by decide)) ho

end Pack

section Maps
open LevelBits

variable (l : Layout) {I : ℕ}

theorem mul_toNat_le {n : ℕ} {b : ℤ} (hb : 0 ≤ b) (h : n * b ≤ 31) : b.toNat * n ≤ 31 := by
  have : ((b.toNat * n : ℕ) : ℤ) ≤ 31 := by
    rw [Nat.cast_mul, Int.toNat_of_nonneg hb, mul_comm]
    exact h
  exact_mod_cast this

theorem tile_axis (hI : I < l.numLevels) : Axis (l.getTileBits I).toNat (l.getCellBitOffset I).toNat
    (l.getAccumHierarchyBits I).toNat l.dim where
  add_eq := by
    have := getCellBitOffset_eq l hI
    have := getAccumHierarchyBits_eq_add l hI
    have := getTileBits_nonneg l I
    omega
  lt := by
    have := l.cell_fits I hI
    omega
  fits := mul_toNat_le (getTileBits_nonneg l I) (l.offset_fits I hI)
  pos := l.dim_pos

theorem hierarchy_axis (hI : I < l.numLevels) : Axis (l.getHierarchyBits I).toNat
    (l.getEndBits ((I : ℤ) - 1)).toNat (l.getAccumHierarchyBits I).toNat l.dim where
  add_eq := by
    obtain ⟨hsum, hnonneg⟩ := getEndBits_pred l hI
    have := l.hierarchy_pos I hI
    omega
  lt := by
    have := l.cell_fits I hI
    omega
  fits := mul_toNat_le (l.hierarchy_pos I hI).le <|
    (Int.mul_le_mul_of_nonneg_left (getHierarchyBits_le l hI) (Int.natCast_nonneg _)).trans (l.offset_fits I hI)
  pos := l.dim_pos

theorem Axis.size {b s e n : ℕ} (h : Axis b s e n) : (powIntegral (1#32 <<< b) n).toNat = 2 ^ (b * n) :=
  toNat_powIntegral_twoPow h.fits (Nat.le_of_lt_succ h.bits_lt)

theorem Axis.inRange {b s e n : ℕ} (h : Axis b s e n) {c : List (BitVec 32)} (hc : c.length = n) :
    InRange (packCoord b s (low 32 e) c) (powIntegral (1#32 <<< b) n) :=
  inRange_of_lt h.fits h.size (h.packCoord_lt hc)

theorem InRange.toNat_lt {offset size : BitVec 32} (h : InRange offset size) :
    offset.toNat < size.toNat := by
  obtain ⟨hnonneg, hlt⟩ := h
  rw [BitVec.toInt_eq_toNat_cond] at hnonneg hlt
  split_ifs at hnonneg hlt <;> omega

theorem clearBelow_zero (c : List (BitVec 32)) : clearBelow 0 c = c := by
  have hall : ~~~low 32 0 = BitVec.allOnes 32 := by decide
  rw [clearBelow, hall]
  exact (List.map_congr_left fun x _ => BitVec.and_allOnes).trans (List.map_id c)

/-- The coordinate maps of every level fit together with each other and with those of the level below. -/
theorem coordinate_maps (hI : I < l.numLevels) :
    (∀ c, c.length = l.dim →
      InRange (l.coordToTileOffset I c) (l.getTileSize l.dim I) ∧
      InRange (l.coordToHierarchyOffset I c) (l.getHierarchySize l.dim I) ∧
      add (l.coordToKey I c) (l.tileOffsetToCoord l.dim I (l.coordToTileOffset I c)) = clearBelow (l.cellBits I) c ∧
      add (l.coordToKey I c) (l.hierarchyOffsetToCoord l.dim I (l.coordToHierarchyOffset I c)) =
        if I = 0 then c else l.coordToKey ((I : ℤ) - 1) c) ∧
    (∀ c o, c.length = l.dim → InRange o (l.getTileSize l.dim I) →
      l.coordToTileOffset I (add (l.coordToKey I c) (l.tileOffsetToCoord l.dim I o)) = o) ∧
    (∀ c o, c.length = l.dim → InRange o (l.getHierarchySize l.dim I) →
      l.coordToHierarchyOffset I (add (l.coordToKey I c) (l.hierarchyOffsetToCoord l.dim I o)) = o) := by
  have htile := tile_axis l hI
  have hhier := hierarchy_axis l hI
  refine ⟨fun c hc => ⟨htile.inRange hc, hhier.inRange hc, ?_, ?_⟩, fun c o hc ho => ?_, fun c o hc ho => ?_⟩
  · have hcell : (l.getCellBitOffset I).toNat = l.cellBits I := by rw [getCellBitOffset_eq l hI, Int.toNat_natCast]
    exact (htile.add_unpackCoord hc).trans (by rw [hcell])
  · refine (hhier.add_unpackCoord hc).trans ?_
    cases I with
    | zero => exact clearBelow_zero c
    | succ I =>
      rw [if_neg (Nat.succ_ne_zero I), show ((I + 1 : ℕ) : ℤ) - 1 = (I : ℤ) by omega, LevelBits.getEndBits,
        if_neg (by omega)]
      rfl
  · refine htile.packCoord_add hc ?_
    rw [← htile.size]
    exact ho.toNat_lt
  · refine hhier.packCoord_add hc ?_
    rw [← hhier.size]
    exact ho.toNat_lt

/-- The default template arguments, in three dimensions. -/
def defaultLayout : Layout where
  tileBits := [3, 4, 5]
  scalingBits := [3, 4, 5]
  dim := 3
  dim_pos := by decide
  length_eq := rfl
  scaling_le := by decide
  hierarchy_pos := by decide
  cell_fits := by decide
  offset_fits := by decide

theorem coordinate_maps_default :
    let c := [-1#32, 5#32, 70#32]
    1 < defaultLayout.numLevels ∧ c.length = defaultLayout.dim ∧
    add (defaultLayout.coordToKey 1 c)
      (defaultLayout.tileOffsetToCoord 3 1 (defaultLayout.coordToTileOffset 1 c)) = [-8#32, 0#32, 64#32] ∧
    add (defaultLayout.coordToKey 1 c)
      (defaultLayout.hierarchyOffsetToCoord 3 1 (defaultLayout.coordToHierarchyOffset 1 c)) =
        defaultLayout.coordToKey 0 c :=
  have h := (coordinate_maps defaultLayout (I := 1) (by decide)).1 [-1#32, 5#32, 70#32] rfl
  ⟨by decide, rfl, h.2.2.1.trans (by decide), h.2.2.2⟩

end Maps

end Zpc.AdaptiveGrid
