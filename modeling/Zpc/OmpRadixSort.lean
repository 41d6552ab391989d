import Zpc.OmpRadixPass

/-!
# The radix sorts sort stably

The passes over the digits of a range compose to one stable sort by these bits. Over all
bits that is the order of the keys; over any range both policies do the same.
-/
namespace Zpc
open ThreadTeam StableSort

variable {E F β : Type*} {w : ℕ} {dist sbit ebit : ℕ}

def sortDigits (bin : Digit → E → ℕ) (ds : List Digit) (l : List E) : List E :=
  ds.foldl (fun l d => l.mergeSort (byKey (bin d))) l

theorem sortDigits_cons (bin : Digit → E → ℕ) (d : Digit) (ds : List Digit) (l : List E) :
    sortDigits bin (d :: ds) l = sortDigits bin ds (l.mergeSort (byKey (bin d))) := rfl

/-- The digits may be read through a map. -/
theorem sortDigits_map (bin : Digit → E → ℕ) (g : F → E) (ds : List Digit) (l : List F) :
    sortDigits bin ds (l.map g) = (sortDigits (fun d x => bin d (g x)) ds l).map g := by
  induction ds generalizing l with
  | nil => rfl
  | cons d ds ih =>
    have hm : (l.mergeSort (byKey fun x => bin d (g x))).map g = (l.map g).mergeSort (byKey (bin d)) :=
      List.map_mergeSort fun _ _ _ _ => rfl
    rw [sortDigits_cons, sortDigits_cons, ← ih, hm]

theorem sortDigits_congr {bin bin' : Digit → E → ℕ} {ds : List Digit} (h : ∀ d ∈ ds, ∀ e, bin d e = bin' d e)
    (l : List E) : sortDigits bin ds l = sortDigits bin' ds l := by
  induction ds generalizing l with
  | nil => rfl
  | cons d ds ih =>
    have hd : bin d = bin' d := funext (h d List.mem_cons_self)
    rw [sortDigits_cons, sortDigits_cons, hd]
    exact ih (fun d' hd' => h d' (List.mem_cons_of_mem _ hd')) _

/-- The bits from `a` up to `b`. -/
def bitsBetween (a b x : ℕ) : ℕ := x / 2 ^ a % 2 ^ (b - a)

/-- More bits, read as one number, compare first by the new ones. -/
theorem bitsBetween_le_iff {a b n : ℕ} (hab : a ≤ b) (x y : ℕ) : bitsBetween a (b+n) x ≤ bitsBetween a (b+n) y ↔
    x / 2 ^ b % 2 ^ n ≤ y / 2 ^ b % 2 ^ n ∧
      (y / 2 ^ b % 2 ^ n ≤ x / 2 ^ b % 2 ^ n → bitsBetween a b x ≤ bitsBetween a b y) := by
  have hsplit : ∀ z, bitsBetween a (b+n) z = bitsBetween a b z + 2 ^ (b-a) * (z / 2 ^ b % 2 ^ n) := by
    intro z
    have hb : 2 ^ b = 2 ^ a * 2 ^ (b-a) := by rw [← pow_add, Nat.add_sub_cancel' hab]
    rw [bitsBetween, bitsBetween, Nat.sub_add_comm hab, pow_add, Nat.mod_mul, Nat.div_div_eq_div_mul, ← hb]
  have hlt : ∀ z, bitsBetween a b z < 2 ^ (b-a) := fun z => Nat.mod_lt _ (Nat.two_pow_pos _)
  rw [hsplit, hsplit]
  have hx := hlt x
  have hy := hlt y
  generalize bitsBetween a b x = p, bitsBetween a b y = q, x / 2 ^ b % 2 ^ n = i, y / 2 ^ b % 2 ^ n = j at *
  generalize 2 ^ (b-a) = m at *
  rcases Nat.lt_trichotomy i j with hij | rfl | hij
  · have hmul : m * (i+1) ≤ m * j := Nat.mul_le_mul_left m hij
    rw [Nat.mul_succ] at hmul
    exact ⟨fun _ => ⟨hij.le, fun hji => by omega⟩, fun _ => by omega⟩
  · constructor
    · exact fun h => ⟨le_rfl, fun _ => by omega⟩
    · exact fun h => Nat.add_le_add_right (h.2 le_rfl) _
  · have hmul : m * (j+1) ≤ m * i := Nat.mul_le_mul_left m hij
    rw [Nat.mul_succ] at hmul
    exact ⟨fun h => by omega, fun h => by omega⟩

/-- Having sorted by the bits below `st`, the passes from there on add the others. -/
theorem sortDigits_from (key : E → BitVec w) {st : ℕ} (hst : sbit ≤ st) (l : List E) :
    sortDigits (fun d e => d.bin (key e)) (digits st ebit) (l.mergeSort (byKey fun e => bitsBetween sbit st (key e).toNat)) =
      l.mergeSort (byKey fun e => bitsBetween sbit (max st ebit) (key e).toNat) := by
  induction hm : ebit - st using Nat.strong_induction_on generalizing st with
  | _ m ih =>
    by_cases hlt : st < ebit
    · obtain ⟨n, hn, hle, hlast, he⟩ := digits_cons hlt
      have hstep : (l.mergeSort (byKey fun e => bitsBetween sbit st (key e).toNat)).mergeSort
          (byKey fun e => Digit.bin ⟨st, 2 ^ n, 2 ^ n - 1⟩ (key e)) =
          l.mergeSort (byKey fun e => bitsBetween sbit (st+n) (key e).toNat) := by
        rw [mergeSort_mergeSort (preordered_key _) (preordered_key _)]
        refine mergeSort_congr fun a _ b _ => ?_
        rw [Bool.eq_iff_iff, lex_iff, byKey, byKey, byKey, byKey, decide_eq_true_eq, decide_eq_true_eq,
          decide_eq_true_eq, decide_eq_true_eq, bin_eq, bin_eq]
        exact (bitsBetween_le_iff hst _ _).symm
      rw [he, sortDigits_cons, hstep]
      rcases hlast with hlast | rfl
      · rw [digits_nil (by omega), hlast, Nat.max_eq_right hlt.le]
        rfl
      · rw [ih (ebit - (st+8)) (by omega) (by omega) rfl, Nat.max_eq_right hle, Nat.max_eq_right hlt.le]
    · rw [digits_nil hlt, Nat.max_eq_left (by omega)]
      rfl

/-- All passes together sort by the bits of the range. -/
theorem sortDigits_digits (key : E → BitVec w) (h : sbit ≤ ebit) (l : List E) :
    sortDigits (fun d e => d.bin (key e)) (digits sbit ebit) l =
      l.mergeSort (byKey fun e => bitsBetween sbit ebit (key e).toNat) := by
  have hstart : l.mergeSort (byKey fun e => bitsBetween sbit sbit (key e).toNat) = l := by
    refine List.mergeSort_of_pairwise (List.pairwise_of_forall_mem_list fun a _ b _ => ?_)
    rw [byKey, bitsBetween, bitsBetween, Nat.sub_self, pow_zero, Nat.mod_one, Nat.mod_one]
    exact decide_eq_true le_rfl
  have hfrom : sortDigits (fun d e => d.bin (key e)) (digits sbit ebit) _ = _ := sortDigits_from key (le_refl sbit) l
  rwa [hstart, Nat.max_eq_right h] at hfrom

namespace OmpExecutionPolicy
theorem RadixPasses.sorts {dop : ℕ} {ds : List Digit} {s s' : RadixState (BitVec w × β)}
    (hbin : ∀ d ∈ ds, ∀ x : BitVec w, d.bin x < d.binCount) (h : RadixPasses dop dist ds s s') :
    (List.range dist).map s'.cur = sortDigits (fun d e => d.bin e.1) ds ((List.range dist).map s.cur) := by
  induction h with
  | nil => rfl
  | @cons d _ _ _ _ hpass _ ih =>
    have hd : ∀ e : BitVec w × β, d.bin e.1 < d.binCount := fun e => hbin d List.mem_cons_self e.1
    have hp := hpass.sorts hd
    rw [ih fun d hd => hbin d (List.mem_cons_of_mem _ hd), hp, sortDigits_cons]

theorem exists_radixPasses {dop : ℕ} (hd : 0 < dop) (ds : List Digit) (s : RadixState (BitVec w × β)) :
    ∃ s', RadixPasses dop dist ds s s' := by
  induction ds generalizing s with
  | nil => exact ⟨s, .nil s⟩
  | cons d ds ih =>
    have hpass : ∃ s₁, Pass (fun e : BitVec w × β => d.bin e.1) d.binCount dist dop s s₁ := by
      obtain ⟨s₁, h₁⟩ := exists_passes 1 [single clearSkip, countBins (fun e : BitVec w × β => d.bin e.1) dist 1,
        single (reduceBins d.binCount dist 1)] s
      by_cases hskip : s₁.skip = true
      · exact ⟨s₁, 1, s₁, ⟨Nat.one_pos, hd, .inr rfl⟩, h₁, by rw [if_pos hskip]⟩
      · obtain ⟨s₂, h₂⟩ := exists_passes 1 [distribute (fun e : BitVec w × β => d.bin e.1) dist 1, single swapBuffers] s₁
        exact ⟨s₂, 1, s₁, ⟨Nat.one_pos, hd, .inr rfl⟩, h₁, by rw [if_neg hskip]; exact h₂⟩
    obtain ⟨s₁, h₁⟩ := hpass
    obtain ⟨s', h'⟩ := ih s₁
    exact ⟨s', .cons h₁ h'⟩

variable {k : KeyType} {dop : ℕ} {keys : ℕ → BitVec k.width} {vals : ℕ → β} {out out' : ℕ → β}

theorem exists_radixSortWith (hd : 0 < dop) : ∃ out', RadixSortWith k dop keys vals dist sbit ebit out out' := by
  let s : RadixState (BitVec k.width × β) := ⟨fun _ => (0, vals 0), fun _ => (0, vals 0), fun _ _ => 0, false⟩
  obtain ⟨cur, hcur⟩ := exists_runs dist (fun i => [fun cur => Function.update cur i (encodeRadixKey k (keys i), vals i)]) s.cur
  obtain ⟨s₁, h₁⟩ := exists_radixPasses hd (digits sbit ebit) { s with cur := cur }
  obtain ⟨out', hout⟩ := exists_runs dist (fun i => [fun out => Function.update out i (s₁.cur i).2]) out
  exact ⟨out', s, cur, s₁, hcur, h₁, hout⟩

/-- What is moved along, sorted by the digits of the encoded key in it. -/
theorem RadixSortWith.sorts (key : β → BitVec k.width)
    (h : RadixSortWith k dop (fun i => key (vals i)) vals dist sbit ebit out out') :
    (List.range dist).map out' = sortDigits (fun d v => d.bin (encodeRadixKey k (key v))) (digits sbit ebit)
      ((List.range dist).map vals) ∧ ∀ i, dist ≤ i → out' i = out i := by
  obtain ⟨s, cur, s₁, hcur, hpasses, hout⟩ := h
  have hout := parallelFor_update hout
  refine ⟨?_, fun i hi => (hout i).trans (if_neg (Nat.not_lt_of_le hi))⟩
  have hcur : (List.range dist).map cur = ((List.range dist).map vals).map fun v => (encodeRadixKey k (key v), v) := by
    rw [List.map_map]
    exact List.map_congr_left fun i hi => (parallelFor_update hcur i).trans (if_pos (List.mem_range.mp hi))
  have hsorted := hpasses.sorts fun d hd x => bin_lt hd x
  calc (List.range dist).map out'
      = ((List.range dist).map s₁.cur).map (·.2) := by
        rw [List.map_map]
        exact List.map_congr_left fun i hi => (hout i).trans (if_pos (List.mem_range.mp hi))
    _ = (sortDigits (fun d e => d.bin e.1) (digits sbit ebit) ((List.range dist).map cur)).map (·.2) := by rw [hsorted]
    _ = _ := by
      rw [hcur, sortDigits_map, List.map_map]
      exact List.map_id _

/-- Over all bits this is the stable sort by the key. -/
theorem RadixSortWith.stable (vals : ℕ → β) (key : β → BitVec k.width) (hnan : ∀ i < dist, k.isNaN (key (vals i)) = false)
    (h : RadixSortWith k dop (fun i => key (vals i)) vals dist 0 k.width out out') :
    (List.range dist).map out' = stableSort (fun a b => k.less (key a) (key b)) ((List.range dist).map vals) := by
  have hmem : ∀ v ∈ (List.range dist).map vals, k.isNaN (key v) = false := by
    intro v hv
    obtain ⟨i, hi, rfl⟩ := List.mem_map.mp hv
    exact hnan i (List.mem_range.mp hi)
  rw [(h.sorts key).1, sortDigits_digits (fun v => encodeRadixKey k (key v)) (Nat.zero_le _)]
  refine mergeSort_congr fun a ha b hb => ?_
  have hbits : ∀ x : BitVec k.width, bitsBetween 0 k.width x.toNat = x.toNat := fun x => by
    rw [bitsBetween, pow_zero, Nat.div_one, Nat.sub_zero, Nat.mod_eq_of_lt x.isLt]
  rw [byKey, hbits, hbits]
  exact encode_le k (key a) (key b) (hmem a ha) (hmem b hb)

end OmpExecutionPolicy

namespace SequentialExecutionPolicy
variable {k : KeyType}

theorem radixPasses_sorts (bin : Digit → E → ℕ) (cur next : ℕ → E) :
    (List.range dist).map (radixPasses bin dist sbit ebit (cur, next)).1 =
      sortDigits bin (digits sbit ebit) ((List.range dist).map cur) := by
  unfold radixPasses
  generalize digits sbit ebit = ds
  induction ds generalizing cur next with
  | nil => rfl
  | cons d ds ih =>
    rw [List.foldl_cons, sortDigits_cons, ← radixPass_sorts d.binCount cur next, ← ih]

/-- The same when the buffer was filled through a map. -/
theorem radixPasses_map (bin : Digit → E → ℕ) (g : F → E) (src : ℕ → F) (next : ℕ → E) :
    (List.range dist).map (radixPasses bin dist sbit ebit (fun i => g (src i), next)).1 =
      (sortDigits (fun d x => bin d (g x)) (digits sbit ebit) ((List.range dist).map src)).map g := by
  rw [radixPasses_sorts, ← sortDigits_map, List.map_map]
  rfl

theorem keyBin_eq (he : ebit ≤ k.width) {d : Digit} (hd : d ∈ digits sbit ebit) (x : BitVec k.width) :
    keyBin k d x = d.bin x := by
  cases k with
  | signed w => exact signedBin_eq (w := w) he hd x
  | _ => rfl

theorem radixSort_sorts_sequential (he : ebit ≤ k.width) (first next out : ℕ → BitVec k.width) :
    (List.range dist).map (radixSort k first dist sbit ebit next out) =
      sortDigits (fun d x => d.bin (flipSign k x)) (digits sbit ebit) ((List.range dist).map first) := by
  calc (List.range dist).map (radixSort k first dist sbit ebit next out)
      = ((List.range dist).map (radixPasses (keyBin k) dist sbit ebit (fun i => flipSign k (first i), next)).1).map
          (flipSign k) := by
        rw [List.map_map]
        exact List.map_congr_left fun i hi => if_pos (List.mem_range.mp hi)
    _ = (sortDigits (fun d x => keyBin k d (flipSign k x)) (digits sbit ebit) ((List.range dist).map first)).map
          (flipSign k ∘ flipSign k) := by
        rw [radixPasses_map, List.map_map]
    _ = sortDigits (fun d x => keyBin k d (flipSign k x)) (digits sbit ebit) ((List.range dist).map first) := by
        rw [show flipSign k ∘ flipSign k = id from funext (flipSign_flipSign k), List.map_id]
    _ = _ := sortDigits_congr (fun d hd x => keyBin_eq he hd _) _

theorem radixSortPair_sorts (he : ebit ≤ k.width) (keysIn : ℕ → BitVec k.width) (valsIn : ℕ → β)
    (next out : ℕ → BitVec k.width × β) :
    (List.range dist).map (radixSortPair k keysIn valsIn dist sbit ebit next out) =
      sortDigits (fun d p => d.bin (flipSign k p.1)) (digits sbit ebit)
        ((List.range dist).map fun i => (keysIn i, valsIn i)) := by
  let flip : BitVec k.width × β → BitVec k.width × β := fun p => (flipSign k p.1, p.2)
  have hflip : flip ∘ flip = id := funext fun p => Prod.ext (flipSign_flipSign k p.1) rfl
  calc (List.range dist).map (radixSortPair k keysIn valsIn dist sbit ebit next out)
      = ((List.range dist).map (radixPasses (fun d e => keyBin k d e.1) dist sbit ebit
          (fun i => flip (keysIn i, valsIn i), next)).1).map flip := by
        rw [List.map_map]
        exact List.map_congr_left fun i hi => if_pos (List.mem_range.mp hi)
    _ = (sortDigits (fun d p => keyBin k d (flip p).1) (digits sbit ebit)
          ((List.range dist).map fun i => (keysIn i, valsIn i))).map (flip ∘ flip) := by
        rw [radixPasses_map, List.map_map]
    _ = sortDigits (fun d p => keyBin k d (flip p).1) (digits sbit ebit)
          ((List.range dist).map fun i => (keysIn i, valsIn i)) := by rw [hflip, List.map_id]
    _ = _ := sortDigits_congr (fun d hd p => keyBin_eq he hd _) _

end SequentialExecutionPolicy

namespace OmpExecutionPolicy
variable {k : KeyType} {dop : ℕ} {vals out out' : ℕ → β}

/-- For integral keys the digits are those of the sequential policy. -/
theorem RadixSortWith.same (vals : ℕ → β) (key : β → BitVec k.width) (hk : k.IsIntegral)
    (h : RadixSortWith k dop (fun i => key (vals i)) vals dist sbit ebit out out') {seq : ℕ → β}
    (hseq : (List.range dist).map seq = sortDigits (fun d v => d.bin (SequentialExecutionPolicy.flipSign k (key v)))
      (digits sbit ebit) ((List.range dist).map vals)) (hout : ∀ i, dist ≤ i → seq i = out i) : out' = seq := by
  obtain ⟨hsorted, hkept⟩ := h.sorts key
  have heq : (List.range dist).map out' = (List.range dist).map seq := by
    rw [hsorted, hseq]
    exact sortDigits_congr (fun d _ v => by rw [encodeRadixKey_integral hk]) _
  funext i
  rcases Nat.lt_or_ge i dist with hi | hi
  · exact List.map_inj_left.mp heq i (List.mem_range.mpr hi)
  · rw [hkept i hi, hout i hi]

/-- Both radix sorts return with any number of threads; over all bits they sort stably
by the order of the keys, and for integral keys they do what the sequential policy does. -/
theorem radixSort_sorts (k : KeyType) (dop : ℕ) (hdop : 0 < dop) (dist : ℕ) (keys : ℕ → BitVec k.width) (vals : ℕ → β) :
    (∀ sbit ebit out, (∃ out', RadixSort k dop keys dist sbit ebit out out')) ∧
    (∀ sbit ebit out, (∃ out', RadixSortPair k dop keys vals dist sbit ebit out out')) ∧
    ((∀ i < dist, k.isNaN (keys i) = false) →
      (∀ out out', RadixSort k dop keys dist 0 k.width out out' →
        (List.range dist).map out' = stableSort k.less ((List.range dist).map keys)) ∧
      ∀ out out', RadixSortPair k dop keys vals dist 0 k.width out out' →
        (List.range dist).map out' =
          stableSort (fun a b => k.less a.1 b.1) ((List.range dist).map fun i => (keys i, vals i))) ∧
    (k.IsIntegral → ∀ sbit ebit, ebit ≤ k.width →
      (∀ next out out', RadixSort k dop keys dist sbit ebit out out' →
        out' = SequentialExecutionPolicy.radixSort k keys dist sbit ebit next out) ∧
      ∀ next out out', RadixSortPair k dop keys vals dist sbit ebit out out' →
        out' = SequentialExecutionPolicy.radixSortPair k keys vals dist sbit ebit next out) := by
  refine ⟨fun _ _ _ => exists_radixSortWith hdop, fun _ _ _ => exists_radixSortWith hdop, fun hnan => ⟨?_, ?_⟩,
    fun hk sbit ebit he => ⟨?_, ?_⟩⟩
  · exact fun out out' h => RadixSortWith.stable keys id hnan h
  · exact fun out out' h => RadixSortWith.stable (fun i => (keys i, vals i)) Prod.fst hnan h
  · intro next out out' h
    refine RadixSortWith.same keys id hk h (SequentialExecutionPolicy.radixSort_sorts_sequential he keys next out) fun i hi => ?_
    exact if_neg (Nat.not_lt_of_le hi)
  · intro next out out' h
    refine RadixSortWith.same (fun i => (keys i, vals i)) Prod.fst hk h
      (SequentialExecutionPolicy.radixSortPair_sorts he keys vals next out) fun i hi => ?_
    exact if_neg (Nat.not_lt_of_le hi)

/-- The patterns of 1, -0 and +0. -/
def signedZeros : ℕ → BitVec 32
  | 0 => 0x3f800000
  | 1 => 0x80000000
  | _ => 0

theorem radixSort_sorts_zeros : ∃ out', RadixSortPair .float32 2 signedZeros (fun i => i) 3 0 32 (fun _ => (0, 0)) out' ∧
    (List.range 3).map out' = stableSort (fun a b => floatLess 23 a.1 b.1)
      [(0x3f800000, 0), (0x80000000, 1), (0, 2)] := by
  obtain ⟨out', h⟩ := (radixSort_sorts .float32 2 (by decide) 3 signedZeros fun i => i).2.1 0 32 fun _ => (0, 0)
  exact ⟨out', h, ((radixSort_sorts .float32 2 (by decide) 3 signedZeros fun i => i).2.2.1 (by decide)).2 _ out' h⟩

end OmpExecutionPolicy

end Zpc
