import Mathlib.Data.BitVec
import Zpc.BinaryFloat
import Zpc.OmpBlocks
import Zpc.ThreadTeam

/-!
# Radix sorts of the OpenMP and the sequential policy

Keys are bit patterns of their type. The OpenMP policy sorts by an encoding of the key
that it moves along with the entry itself; the sequential policy sorts the keys with
their sign bit flipped, in place of a payload of their own.
-/
namespace Zpc
open ThreadTeam

variable {E β : Type*} {w : ℕ}

/-- The key types of the radix sorts. -/
inductive KeyType
  | unsigned (w : ℕ)
  | signed (w : ℕ)
  | float32
  | float64
deriving DecidableEq

namespace KeyType
def width : KeyType → ℕ
  | .unsigned w => w
  | .signed w => w
  | .float32 => 32
  | .float64 => 64

def IsIntegral : KeyType → Prop
  | .unsigned _ => True
  | .signed _ => True
  | _ => False

end KeyType

/-- The exponent of a number with `p` bits of mantissa is all ones and its mantissa is not zero. -/
def isNaN (p : ℕ) (bits : BitVec w) : Bool :=
  bits.toNat % 2 ^ (w-1) / 2 ^ p == 2 ^ (w-1-p) - 1 && bits.toNat % 2 ^ p != 0

/-- The value in units of the least subnormal number; infinity comes right after the finite numbers. -/
def floatValue (p : ℕ) (bits : BitVec w) : ℤ :=
  if bits.msb then -(BinaryFloat.magnitude p (bits.toNat % 2 ^ (w-1)) : ℤ)
  else BinaryFloat.magnitude p (bits.toNat % 2 ^ (w-1))

/-- Comparisons with a NaN are false. -/
def floatLess (p : ℕ) (a b : BitVec w) : Bool := !isNaN p a && !isNaN p b && decide (floatValue p a < floatValue p b)

namespace KeyType
def isNaN : (k : KeyType) → BitVec k.width → Bool
  | .unsigned _, _ => false
  | .signed _, _ => false
  | .float32, bits => Zpc.isNaN 23 bits
  | .float64, bits => Zpc.isNaN 52 bits

/-- The comparison of two keys. -/
def less : (k : KeyType) → BitVec k.width → BitVec k.width → Bool
  | .unsigned _, a, b => a.ult b
  | .signed _, a, b => a.slt b
  | .float32, a, b => floatLess 23 a b
  | .float64, a, b => floatLess 52 a b

end KeyType

def signMask (w : ℕ) : BitVec w := 1#w <<< (w-1)

/-- One digit of a pass: `(key >> st) & binMask`. -/
structure Digit where
  st : ℕ
  binCount : ℕ
  binMask : ℕ

/-- The digits from bit `st` up to bit `ebit`, the last one cut off there. -/
def digits (st ebit : ℕ) : List Digit :=
  if st < ebit then
    (if ebit < st + 8 then ⟨st, 256 >>> (st + 8 - ebit), 255 >>> (st + 8 - ebit)⟩ else ⟨st, 256, 255⟩) ::
      digits (st + 8) ebit
  else []
termination_by ebit - st

def Digit.bin (d : Digit) (x : BitVec w) : ℕ := (x >>> d.st).toNat &&& d.binMask

/-- The digit of a signed key, which is shifted arithmetically. -/
def Digit.signedBin (d : Digit) (x : BitVec w) : ℕ := (x.sshiftRight d.st).toNat &&& d.binMask

namespace OmpExecutionPolicy
def encodeFloat (bits : BitVec w) : BitVec w :=
  if bits &&& ~~~signMask w = 0 then signMask w
  else if bits &&& signMask w ≠ 0 then ~~~bits else bits ^^^ signMask w

def encodeRadixKey : (k : KeyType) → BitVec k.width → BitVec k.width
  | .unsigned _, bits => bits
  | .signed w, (bits : BitVec w) => (bits ^^^ signMask w : BitVec w)
  | .float32, bits => encodeFloat bits
  | .float64, bits => encodeFloat bits

/-- The double buffer and the bin sizes of each thread. -/
structure RadixState (E : Type*) where
  cur : ℕ → E
  next : ℕ → E
  binSizes : ℕ → ℕ → ℕ
  skip : Bool

section Pass
variable (bin : E → ℕ) (binCount dist nths : ℕ)

def clearSkip (s : RadixState E) : RadixState E := { s with skip := false }

/-- One more entry in bin `b` of thread `tid`. -/
def countBin (tid b : ℕ) (sizes : ℕ → ℕ → ℕ) : ℕ → ℕ → ℕ :=
  Function.update sizes tid (Function.update (sizes tid) b (sizes tid b + 1))

def takeBin (tid b : ℕ) (sizes : ℕ → ℕ → ℕ) : ℕ → ℕ → ℕ :=
  Function.update sizes tid (Function.update (sizes tid) b (sizes tid b - 1))

/-- Each thread counts the digits of its block. -/
def countBins : Segment (RadixState E) := fun tid =>
  (fun s => { s with binSizes := Function.update s.binSizes tid fun _ => 0 }) ::
    if st dist nths tid < dist then
      (List.range' (st dist nths tid) (ed dist nths tid - st dist nths tid)).map fun i s =>
        { s with binSizes := countBin tid (bin (s.cur i)) s.binSizes }
    else []

def binGlobalSize (sizes : ℕ → ℕ → ℕ) (i : ℕ) : ℕ := (List.range nths).foldl (fun n j => n + sizes j i) 0

def binOffset (sizes : ℕ → ℕ → ℕ) : ℕ → ℕ
  | 0 => 0
  | i + 1 => binOffset sizes i + binGlobalSize nths sizes i

/-- The offsets of the bins added to the first thread's sizes and summed up over the threads. -/
def localOffset (sizes : ℕ → ℕ → ℕ) : ℕ → ℕ → ℕ
  | 0, i => sizes 0 i + binOffset nths sizes i
  | j + 1, i => sizes (j+1) i + localOffset sizes j i

/-- The part of one thread between counting and distributing. A bin with all entries skips the pass. -/
def reduceBins (s : RadixState E) : RadixState E :=
  if (List.range binCount).any fun i => binGlobalSize nths s.binSizes i == dist then { s with skip := true }
  else { s with binSizes := fun j i => if j < nths ∧ i < binCount then localOffset nths s.binSizes j i else s.binSizes j i }

/-- Each thread moves its block, last entry first. -/
def distribute : Segment (RadixState E) := fun tid =>
  if st dist nths tid < dist then
    (List.range' (st dist nths tid) (ed dist nths tid - st dist nths tid)).reverse.map fun i s =>
      { s with
        binSizes := takeBin tid (bin (s.cur i)) s.binSizes
        next := Function.update s.next (s.binSizes tid (bin (s.cur i)) - 1) (s.cur i) }
  else []

def swapBuffers (s : RadixState E) : RadixState E := { s with cur := s.next, next := s.cur }

/-- One pass: the region up to the reduction, and the rest of it unless the pass is skipped. -/
def Pass (dop : ℕ) (s s' : RadixState E) : Prop :=
  ∃ nths s₁, Team dop (dop < dist) nths ∧
    Passes nths [single clearSkip, countBins bin dist nths, single (reduceBins binCount dist nths)] s s₁ ∧
    if s₁.skip then s' = s₁ else Passes nths [distribute bin dist nths, single swapBuffers] s₁ s'

end Pass

/-- The passes over the digits of the encoded keys. -/
inductive RadixPasses (dop dist : ℕ) : List Digit → RadixState (BitVec w × β) → RadixState (BitVec w × β) → Prop
  | nil (s : RadixState (BitVec w × β)) : RadixPasses dop dist [] s s
  | cons {d : Digit} {ds : List Digit} {s s₁ s' : RadixState (BitVec w × β)}
      (h : Pass (fun e => d.bin e.1) d.binCount dist dop s s₁) (h' : RadixPasses dop dist ds s₁ s') :
      RadixPasses dop dist (d :: ds) s s'

/-- The radix sorts: encode, sort the encoded keys with what is moved along, write that back. -/
def RadixSortWith (k : KeyType) (dop : ℕ) (keys : ℕ → BitVec k.width) (vals : ℕ → β) (dist sbit ebit : ℕ)
    (out out' : ℕ → β) : Prop :=
  ∃ s : RadixState (BitVec k.width × β), ∃ cur s₁,
    ParallelFor dist (fun i cur => Function.update cur i (encodeRadixKey k (keys i), vals i)) s.cur cur ∧
    RadixPasses dop dist (digits sbit ebit) { s with cur := cur } s₁ ∧
    ParallelFor dist (fun i out => Function.update out i (s₁.cur i).2) out out'

/-- `radix_sort`: the values moved along are the keys. -/
def RadixSort (k : KeyType) (dop : ℕ) (first : ℕ → BitVec k.width) (dist sbit ebit : ℕ)
    (dFirst dFirst' : ℕ → BitVec k.width) : Prop :=
  RadixSortWith k dop first first dist sbit ebit dFirst dFirst'

/-- `radix_sort_pair`: the original keys and the values are moved along. -/
def RadixSortPair (k : KeyType) (dop : ℕ) (keysIn : ℕ → BitVec k.width) (valsIn : ℕ → β) (count sbit ebit : ℕ)
    (out out' : ℕ → BitVec k.width × β) : Prop :=
  RadixSortWith k dop keysIn (fun i => (keysIn i, valsIn i)) count sbit ebit out out'

end OmpExecutionPolicy

namespace SequentialExecutionPolicy
section Pass
variable (bin : E → ℕ) (binCount dist : ℕ)

def binSizes (cur : ℕ → E) : ℕ → ℕ :=
  (List.range dist).foldl (fun sizes i => Function.update sizes (bin (cur i)) (sizes (bin (cur i)) + 1)) fun _ => 0

def binOffset (sizes : ℕ → ℕ) : ℕ → ℕ
  | 0 => 0
  | i + 1 => binOffset sizes i + sizes i

/-- The loop that places the entries, last entry first. -/
def distribute (cur : ℕ → E) (sizes : ℕ → ℕ) (next : ℕ → E) : (ℕ → ℕ) × (ℕ → E) :=
  (List.range dist).reverse.foldl (fun r i =>
    (Function.update r.1 (bin (cur i)) (r.1 (bin (cur i)) - 1),
      Function.update r.2 (r.1 (bin (cur i)) - 1) (cur i))) (sizes, next)

/-- One pass over `cur` and `next`. -/
def radixPass (buffers : (ℕ → E) × (ℕ → E)) : (ℕ → E) × (ℕ → E) :=
  let sizes := binSizes bin dist buffers.1
  if (List.range binCount).any fun i => sizes i == dist then buffers
  else ((distribute bin dist buffers.1 (fun i => sizes i + binOffset sizes i) buffers.2).2, buffers.1)

end Pass

/-- The sign handling before and after the passes, for integral keys. -/
def flipSign : (k : KeyType) → BitVec k.width → BitVec k.width
  | .signed w, (bits : BitVec w) => (bits ^^^ signMask w : BitVec w)
  | _, bits => bits

/-- Keys are shifted in their own type. -/
def keyBin (k : KeyType) (d : Digit) (x : BitVec k.width) : ℕ :=
  match k with
  | .signed _ => d.signedBin x
  | _ => d.bin x

/-- The buffers after all passes, `next` being whatever was there before. -/
def radixPasses (bin : Digit → E → ℕ) (dist sbit ebit : ℕ) (buffers : (ℕ → E) × (ℕ → E)) : (ℕ → E) × (ℕ → E) :=
  (digits sbit ebit).foldl (fun buffers d => radixPass (bin d) d.binCount dist buffers) buffers

def radixSort (k : KeyType) (first : ℕ → BitVec k.width) (dist sbit ebit : ℕ)
    (next dFirst : ℕ → BitVec k.width) : ℕ → BitVec k.width := fun i =>
  if i < dist then
    flipSign k ((radixPasses (keyBin k) dist sbit ebit (fun i => flipSign k (first i), next)).1 i)
  else dFirst i

def radixSortPair (k : KeyType) (keysIn : ℕ → BitVec k.width) (valsIn : ℕ → β) (count sbit ebit : ℕ)
    (next out : ℕ → BitVec k.width × β) : ℕ → BitVec k.width × β := fun i =>
  if i < count then
    let e := (radixPasses (fun d e => keyBin k d e.1) count sbit ebit
      (fun i => (flipSign k (keysIn i), valsIn i), next)).1 i
    (flipSign k e.1, e.2)
  else out i

end SequentialExecutionPolicy

end Zpc

/-!
## The encoding of the radix keys

The encoded keys, read as unsigned numbers, are ordered as the keys are, and their
digits are those of their binary representation.
-/
namespace Zpc
variable {w : ℕ}

theorem two_pow_half (hw : 0 < w) : 2 ^ w = 2 * 2 ^ (w-1) := by
  rw [← pow_succ', Nat.sub_add_cancel hw]

theorem signMask_toNat (hw : 0 < w) : (signMask w).toNat = 2 ^ (w-1) := by
  have hlt : 2 ^ (w-1) < 2 ^ w := Nat.pow_lt_pow_right (by decide) (by omega)
  rw [signMask, BitVec.toNat_shiftLeft, BitVec.toNat_ofNat, Nat.shiftLeft_eq, Nat.mod_mul_mod, Nat.one_mul,
    Nat.mod_eq_of_lt hlt]

/-- Flipping the top bit moves a number to the other half. -/
theorem xor_two_pow {n h : ℕ} (hn : n < 2 * 2 ^ h) : n ^^^ 2 ^ h = if n < 2 ^ h then n + 2 ^ h else n - 2 ^ h := by
  have hpos : 0 < 2 ^ h := Nat.two_pow_pos h
  have hlow : (n ^^^ 2 ^ h) % 2 ^ h = n % 2 ^ h := by rw [Nat.xor_mod_two_pow, Nat.mod_self, Nat.xor_zero]
  have hhigh : (n ^^^ 2 ^ h) / 2 ^ h = n / 2 ^ h ^^^ 1 := by rw [Nat.xor_div_two_pow, Nat.div_self hpos]
  have hsplit := Nat.div_add_mod (n ^^^ 2 ^ h) (2 ^ h)
  rw [hlow, hhigh] at hsplit
  split
  next hlt =>
    rw [Nat.div_eq_of_lt hlt, Nat.mod_eq_of_lt hlt, Nat.zero_xor, Nat.mul_one] at hsplit
    omega
  next hge =>
    have hdiv : n / 2 ^ h = 1 := (Nat.div_eq_iff hpos).mpr (by omega)
    have hmod : n % 2 ^ h = n - 2 ^ h := by rw [Nat.mod_eq_sub_mod (Nat.le_of_not_lt hge), Nat.mod_eq_of_lt (by omega)]
    rw [hdiv, hmod, Nat.xor_self, Nat.mul_zero, Nat.zero_add] at hsplit
    exact hsplit.symm

theorem xor_signMask_toNat (hw : 0 < w) (bits : BitVec w) : (bits ^^^ signMask w).toNat =
    if bits.toNat < 2 ^ (w-1) then bits.toNat + 2 ^ (w-1) else bits.toNat - 2 ^ (w-1) := by
  rw [BitVec.toNat_xor, signMask_toNat hw]
  exact xor_two_pow (two_pow_half hw ▸ bits.isLt)

theorem xor_signMask_twice (bits : BitVec w) : bits ^^^ signMask w ^^^ signMask w = bits := by
  rw [BitVec.xor_assoc, BitVec.xor_self, BitVec.xor_zero]

namespace SequentialExecutionPolicy
theorem flipSign_flipSign (k : KeyType) (bits : BitVec k.width) : flipSign k (flipSign k bits) = bits := by
  cases k with
  | signed w => exact xor_signMask_twice (w := w) bits
  | _ => rfl

end SequentialExecutionPolicy

namespace OmpExecutionPolicy
theorem encodeRadixKey_integral {k : KeyType} (h : k.IsIntegral) (bits : BitVec k.width) :
    encodeRadixKey k bits = SequentialExecutionPolicy.flipSign k bits := by
  cases k with
  | unsigned | signed => rfl
  | float32 | float64 => cases h

theorem signed_le_iff (a b : BitVec w) :
    (a ^^^ signMask w).toNat ≤ (b ^^^ signMask w).toNat ↔ b.slt a = false := by
  rcases Nat.eq_zero_or_pos w with rfl | hw
  · rw [BitVec.of_length_zero (x := a), BitVec.of_length_zero (x := b)]
    decide
  · have ha := a.isLt
    have hb := b.isLt
    rw [two_pow_half hw] at ha hb
    rw [← Bool.not_eq_true, BitVec.slt_iff_toInt_lt, xor_signMask_toNat hw, xor_signMask_toNat hw,
      BitVec.toInt_eq_toNat_cond, BitVec.toInt_eq_toNat_cond, two_pow_half hw]
    split_ifs <;> omega

def signedMagnitude (bits : BitVec w) : ℤ :=
  if bits.toNat < 2 ^ (w-1) then (bits.toNat % 2 ^ (w-1) : ℕ) else -(bits.toNat % 2 ^ (w-1) : ℕ)

theorem and_signMask_iff (hw : 0 < w) (bits : BitVec w) : bits &&& signMask w ≠ 0 ↔ ¬ bits.toNat < 2 ^ (w-1) := by
  have hne : signMask w ≠ 0 := fun h => by
    have hz := congrArg BitVec.toNat h
    rw [signMask_toNat hw] at hz
    exact (Nat.two_pow_pos _).ne' hz
  have hand : bits &&& signMask w = if bits.getLsbD (w-1) then signMask w else 0 := BitVec.and_twoPow bits (w-1)
  rw [hand, Nat.not_lt, ← decide_eq_true_eq (p := 2 ^ (w-1) ≤ bits.toNat), ← BitVec.msb_eq_decide,
    BitVec.msb_eq_getLsbD_last]
  split
  next h => exact ⟨fun _ => h, fun _ => hne⟩
  next h => exact ⟨fun h0 => absurd rfl h0, fun h' => absurd h' h⟩

theorem and_not_signMask_iff (hw : 0 < w) (bits : BitVec w) :
    bits &&& ~~~signMask w = 0 ↔ bits.toNat % 2 ^ (w-1) = 0 := by
  have hhalf := two_pow_half hw
  rw [← BitVec.toNat_inj, BitVec.toNat_and, BitVec.toNat_not, signMask_toNat hw,
    show 2 ^ w - 1 - 2 ^ (w-1) = 2 ^ (w-1) - 1 by omega, Nat.and_two_pow_sub_one_eq_mod]
  rfl

/-- Zeros in the middle, negative numbers below them in reverse, positive ones above. -/
theorem encodeFloat_toNat (hw : 0 < w) (bits : BitVec w) : (encodeFloat bits).toNat =
    if bits.toNat % 2 ^ (w-1) = 0 then 2 ^ (w-1)
    else if bits.toNat < 2 ^ (w-1) then 2 ^ (w-1) + bits.toNat % 2 ^ (w-1)
    else 2 ^ (w-1) - 1 - bits.toNat % 2 ^ (w-1) := by
  have hlt := bits.isLt
  have hhalf := two_pow_half hw
  unfold encodeFloat
  simp only [and_not_signMask_iff hw, and_signMask_iff hw]
  split
  next => exact signMask_toNat hw
  next =>
    by_cases hneg : bits.toNat < 2 ^ (w-1)
    · rw [if_neg (not_not.mpr hneg), if_pos hneg, xor_signMask_toNat hw, if_pos hneg, Nat.mod_eq_of_lt hneg, Nat.add_comm]
    · have hmod : bits.toNat % 2 ^ (w-1) = bits.toNat - 2 ^ (w-1) := by
        rw [Nat.mod_eq_sub_mod (Nat.le_of_not_lt hneg), Nat.mod_eq_of_lt (by omega)]
      rw [if_pos hneg, if_neg hneg, BitVec.toNat_not, hmod]
      omega

/-- The value of a number grows with its signed magnitude. -/
theorem floatValue_le_iff (p : ℕ) (a b : BitVec w) :
    floatValue p a ≤ floatValue p b ↔ signedMagnitude a ≤ signedMagnitude b := by
  have hmono := BinaryFloat.magnitude_strictMono p
  have hvalue : ∀ x : BitVec w, floatValue p x = if x.toNat < 2 ^ (w-1)
      then (BinaryFloat.magnitude p (x.toNat % 2 ^ (w-1)) : ℤ) else -BinaryFloat.magnitude p (x.toNat % 2 ^ (w-1)) := by
    intro x
    rw [floatValue, BitVec.msb_eq_decide]
    by_cases hx : 2 ^ (w-1) ≤ x.toNat
    · rw [if_pos (decide_eq_true hx), if_neg (Nat.not_lt_of_le hx)]
    · rw [if_neg (by simpa using hx), if_pos (Nat.lt_of_not_le hx)]
  rw [hvalue, hvalue, signedMagnitude, signedMagnitude]
  generalize a.toNat % 2 ^ (w-1) = m, b.toNat % 2 ^ (w-1) = m'
  have hle : ∀ i j, BinaryFloat.magnitude p i ≤ BinaryFloat.magnitude p j ↔ i ≤ j := fun i j => hmono.le_iff_le
  have hzero : ∀ i, BinaryFloat.magnitude p i = 0 ↔ i = 0 := fun i => by
    conv_lhs => rw [← BinaryFloat.magnitude_zero (p := p)]
    exact hmono.injective.eq_iff
  have hm := hzero m
  have hm' := hzero m'
  have := hle m m'
  have := hle m' m
  split_ifs <;> omega

theorem encodeFloat_le_iff (hw : 0 < w) (p : ℕ) (a b : BitVec w) :
    (encodeFloat a).toNat ≤ (encodeFloat b).toNat ↔ floatValue p a ≤ floatValue p b := by
  have hpos : 0 < 2 ^ (w-1) := Nat.two_pow_pos _
  have ha := Nat.mod_lt a.toNat hpos
  have hb := Nat.mod_lt b.toNat hpos
  rw [floatValue_le_iff, encodeFloat_toNat hw, encodeFloat_toNat hw, signedMagnitude, signedMagnitude]
  generalize a.toNat % 2 ^ (w-1) = m, b.toNat % 2 ^ (w-1) = m' at *
  split_ifs <;> omega

/-- The encoded keys are in the order of the keys. -/
theorem encode_le (k : KeyType) (a b : BitVec k.width) (ha : k.isNaN a = false) (hb : k.isNaN b = false) :
    decide ((encodeRadixKey k a).toNat ≤ (encodeRadixKey k b).toNat) = !k.less b a := by
  have hfloat : ∀ {w} (hw : 0 < w) (p : ℕ) (a b : BitVec w), Zpc.isNaN p a = false → Zpc.isNaN p b = false →
      decide ((encodeFloat a).toNat ≤ (encodeFloat b).toNat) = !floatLess p b a := by
    intro w hw p a b ha hb
    rw [Bool.eq_iff_iff, decide_eq_true_eq, encodeFloat_le_iff hw p, floatLess, ha, hb]
    simp
  cases k with
  | unsigned w =>
    show decide (BitVec.toNat (w := w) a ≤ BitVec.toNat (w := w) b) = !(BitVec.ult (n := w) b a)
    simp [BitVec.ult, ← decide_not]
  | signed w =>
    rw [Bool.eq_iff_iff, decide_eq_true_eq, Bool.not_eq_true']
    exact signed_le_iff (w := w) a b
  | float32 => exact hfloat (by decide) 23 a b ha hb
  | float64 => exact hfloat (by decide) 52 a b ha hb

end OmpExecutionPolicy

section Digits
variable {d : Digit} {sbit ebit : ℕ}

theorem cut_digit : ∀ n < 8, 256 >>> (8 - n) = 2 ^ n ∧ 255 >>> (8 - n) = 2 ^ n - 1 := by decide

/-- The passes go through the range by digits of at most eight bits. -/
theorem digits_cons (h : sbit < ebit) : ∃ n ≤ 8, sbit + n ≤ ebit ∧ (sbit + n = ebit ∨ n = 8) ∧
    digits sbit ebit = ⟨sbit, 2 ^ n, 2 ^ n - 1⟩ :: digits (sbit + 8) ebit := by
  rw [digits, if_pos h]
  by_cases hcut : ebit < sbit + 8
  · obtain ⟨hcount, hmask⟩ := cut_digit (ebit - sbit) (by omega)
    refine ⟨ebit - sbit, by omega, by omega, .inl (by omega), ?_⟩
    rw [if_pos hcut, show sbit + 8 - ebit = 8 - (ebit - sbit) by omega, hcount, hmask]
  · exact ⟨8, le_rfl, by omega, .inr rfl, by rw [if_neg hcut]; rfl⟩

theorem digits_nil (h : ¬ sbit < ebit) : digits sbit ebit = [] := by
  rw [digits, if_neg h]

/-- What holds of the first digit of every range that ends at `ebit` holds of each digit. -/
theorem mem_digits {P : Digit → Prop} (hP : ∀ st n, st + n ≤ ebit → P ⟨st, 2 ^ n, 2 ^ n - 1⟩)
    (h : d ∈ digits sbit ebit) : P d := by
  induction hm : ebit - sbit using Nat.strong_induction_on generalizing sbit with
  | _ m ih =>
    by_cases hlt : sbit < ebit
    · obtain ⟨n, -, hn, -, he⟩ := digits_cons hlt
      rw [he] at h
      rcases List.mem_cons.mp h with rfl | h
      · exact hP sbit n hn
      · exact ih _ (by omega) h rfl
    · rw [digits_nil hlt] at h
      cases h

theorem bin_eq (st n : ℕ) (x : BitVec w) :
    Digit.bin ⟨st, 2 ^ n, 2 ^ n - 1⟩ x = x.toNat / 2 ^ st % 2 ^ n := by
  rw [Digit.bin, Nat.and_two_pow_sub_one_eq_mod, BitVec.toNat_ushiftRight, Nat.shiftRight_eq_div_pow]

theorem bin_lt (h : d ∈ digits sbit ebit) (x : BitVec w) : d.bin x < d.binCount := by
  refine mem_digits (P := fun d => d.bin x < d.binCount) (fun st n _ => ?_) h
  rw [bin_eq]
  exact Nat.mod_lt _ (Nat.two_pow_pos n)

/-- Within the bits of the key it does not matter how it is shifted. -/
theorem signedBin_eq (he : ebit ≤ w) (h : d ∈ digits sbit ebit) (x : BitVec w) : d.signedBin x = d.bin x := by
  refine mem_digits (P := fun d => d.signedBin x = d.bin x) (fun st n hn => ?_) h
  rw [Digit.signedBin, Digit.bin]
  simp only [Nat.and_two_pow_sub_one_eq_mod]
  refine Nat.eq_of_testBit_eq fun i => ?_
  rw [Nat.testBit_mod_two_pow, Nat.testBit_mod_two_pow, BitVec.testBit_toNat, BitVec.testBit_toNat]
  by_cases hi : i < n
  · rw [BitVec.getLsbD_sshiftRight, BitVec.getLsbD_ushiftRight, if_pos (show st + i < w by omega)]
    rw [decide_eq_false (show ¬ w ≤ i by omega), Bool.not_false, Bool.true_and]
  · rw [decide_eq_false hi, Bool.false_and, Bool.false_and]

end Digits

end Zpc
