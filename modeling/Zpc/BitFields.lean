import Mathlib.Tactic.Ring
import Zpc.WordBits

/-!
# Packing digits into a number

Digits of one base packed into a number, the first digit on top, and read off again from below. The two maps are inverse
between the lists of `n` digits and the numbers below `B ^ n`.
-/
namespace DigitPacking
variable {B n o r d : ℕ} {ds : List ℕ}

def packFrom (B r : ℕ) (ds : List ℕ) : ℕ := ds.foldl (fun r d => r * B + d) r

def pack (B : ℕ) (ds : List ℕ) : ℕ := packFrom B 0 ds

/-- The `n` lowest digits, the highest of them first. -/
def unpack (B : ℕ) : ℕ → ℕ → List ℕ
  | 0, _ => []
  | n + 1, o => unpack B n (o / B) ++ [o % B]

@[simp] theorem packFrom_cons : packFrom B r (d :: ds) = packFrom B (r * B + d) ds := rfl

theorem pack_append_singleton : pack B (ds ++ [d]) = pack B ds * B + d := by
  rw [pack, packFrom, List.foldl_append]
  rfl

theorem pack_lt (hds : ∀ d ∈ ds, d < B) : pack B ds < B ^ ds.length := by
  induction ds using List.reverseRecOn with
  | nil => exact Nat.one_pos
  | append_singleton ds d ih =>
    have hd := hds d (List.mem_append_right ds List.mem_cons_self)
    have hrest := ih fun e he => hds e (List.mem_append_left _ he)
    rw [pack_append_singleton, List.length_append, List.length_singleton, Nat.pow_succ]
    calc pack B ds * B + d < pack B ds * B + B := Nat.add_lt_add_left hd _
      _ = (pack B ds + 1) * B := (Nat.succ_mul _ _).symm
      _ ≤ B ^ ds.length * B := Nat.mul_le_mul_right B hrest

theorem lt_of_mem_unpack (hB : 0 < B) (h : d ∈ unpack B n o) : d < B := by
  induction n generalizing o with
  | zero => exact absurd h List.not_mem_nil
  | succ n ih =>
    rcases List.mem_append.mp h with h | h
    · exact ih h
    · rw [List.mem_singleton.mp h]
      exact Nat.mod_lt o hB

theorem pack_unpack (ho : o < B ^ n) : pack B (unpack B n o) = o := by
  induction n generalizing o with
  | zero => exact (Nat.lt_one_iff.mp ho).symm
  | succ n ih =>
    rw [Nat.pow_succ, Nat.mul_comm] at ho
    rw [unpack, pack_append_singleton, ih (Nat.div_lt_of_lt_mul ho), Nat.mul_comm, Nat.div_add_mod]

theorem unpack_pack (hds : ∀ d ∈ ds, d < B) : unpack B ds.length (pack B ds) = ds := by
  induction ds using List.reverseRecOn with
  | nil => rfl
  | append_singleton ds d ih =>
    have hd := hds d (List.mem_append_right ds List.mem_cons_self)
    rw [List.length_append, List.length_singleton, unpack, pack_append_singleton, Nat.mul_comm,
      Nat.mul_add_div (Nat.zero_lt_of_lt hd), Nat.div_eq_of_lt hd, Nat.add_zero, Nat.mul_add_mod, Nat.mod_eq_of_lt hd,
      ih fun e he => hds e (List.mem_append_left _ he)]

end DigitPacking

/-!
## Fields of a word

The bits of a word from `s` up to `e`, cut out by a mask and a shift, and the words that such fields are packed into.
-/
namespace BitFields
open DigitPacking

variable {w n s e b i : ℕ} {c d r : BitVec w} {ds : List (BitVec w)}

/-- The word whose lowest `n` bits are set. -/
def low (w n : ℕ) : BitVec w := (1#w <<< n) - 1#w

theorem getLsbD_low (hn : n < w) (i : ℕ) : (low w n).getLsbD i = decide (i < n) := by
  rcases Nat.lt_or_ge i w with hi | hi
  · exact WordBits.getLsbD_low hn hi
  · rw [BitVec.getLsbD_of_ge _ _ hi, decide_eq_false (Nat.not_lt.mpr (hn.le.trans hi))]

theorem toNat_low (hn : n < w) : (low w n).toNat = 2 ^ n - 1 := by
  refine Nat.eq_of_testBit_eq fun i => ?_
  rw [Nat.testBit_two_pow_sub_one]
  exact getLsbD_low hn i

theorem toNat_and_low (hn : n < w) : (c &&& low w n).toNat = c.toNat % 2 ^ n := by
  rw [BitVec.toNat_and, toNat_low hn, Nat.and_two_pow_sub_one_eq_mod]

/-- The bits from `s` up to `e`. -/
def field (s e : ℕ) (c : BitVec w) : BitVec w := (c &&& low w e) >>> s

theorem getLsbD_field (he : e < w) : (field s e c).getLsbD i = (c.getLsbD (s + i) && decide (s + i < e)) := by
  rw [field, BitVec.getLsbD_ushiftRight, BitVec.getLsbD_and, getLsbD_low he]

theorem toNat_field_lt (hs : s ≤ e) (he : e < w) : (field s e c).toNat < 2 ^ (e - s) := by
  refine Nat.lt_pow_two_of_testBit _ fun i hi => ?_
  have hbit : (field s e c).getLsbD i = false := by
    rw [getLsbD_field he, decide_eq_false (by omega), Bool.and_false]
  exact hbit

theorem and_eq_zero_of_clear (h : ∀ i < w, c.getLsbD i = false ∨ d.getLsbD i = false) : c &&& d = 0#w :=
  WordBits.eq_zero_iff.mpr fun i hi => by
    rw [BitVec.getLsbD_and]
    rcases h i hi with h | h
    · rw [h, Bool.false_and]
    · rw [h, Bool.and_false]

theorem getLsbD_clear (he : e < w) (hi : i < w) : (c &&& ~~~low w e).getLsbD i = (c.getLsbD i && !decide (i < e)) := by
  rw [BitVec.getLsbD_and, BitVec.getLsbD_not, getLsbD_low he, decide_eq_true hi, Bool.true_and]

/-- A word without its bits below `e`, and the bits from `s` up to `e` put back, is the word without those below `s`. -/
theorem clear_add_field (hs : s ≤ e) (he : e < w) :
    (c &&& ~~~low w e) + field s e c <<< s = c &&& ~~~low w s := by
  have hback : ∀ i < w, (field s e c <<< s).getLsbD i = (c.getLsbD i && (!decide (i < s) && decide (i < e))) := by
    intro i hi
    rw [BitVec.getLsbD_shiftLeft, getLsbD_field he, decide_eq_true hi, Bool.true_and]
    by_cases h : i < s
    · simp [h]
    · rw [show s + (i - s) = i by omega, decide_eq_false h]
      cases c.getLsbD i <;> simp
  rw [BitVec.add_eq_or_of_and_eq_zero]
  · refine BitVec.eq_of_getLsbD_eq fun i hi => ?_
    rw [BitVec.getLsbD_or, getLsbD_clear he hi, hback i hi, getLsbD_clear (hs.trans_lt he) hi]
    by_cases hie : i < e
    · simp [hie]
    · simp [hie, show ¬ i < s by omega]
  · refine and_eq_zero_of_clear fun i hi => ?_
    rw [getLsbD_clear he hi, hback i hi]
    by_cases hie : i < e
    · simp [hie]
    · simp [hie]

/-- A field added to a word without its bits below `e` is read off again. -/
theorem field_clear_add (hs : s ≤ e) (he : e < w) (hd : d.toNat < 2 ^ (e - s)) :
    field s e ((c &&& ~~~low w e) + d <<< s) = d := by
  have hhigh : ∀ i, e - s ≤ i → d.getLsbD i = false := fun i hi =>
    Nat.testBit_lt_two_pow (hd.trans_le (Nat.pow_le_pow_right (by decide) hi))
  rw [BitVec.add_eq_or_of_and_eq_zero]
  · refine BitVec.eq_of_getLsbD_eq fun i hi => ?_
    rw [getLsbD_field he, BitVec.getLsbD_or, BitVec.getLsbD_shiftLeft]
    rcases Nat.lt_or_ge (s + i) e with hlt | hge
    · rw [getLsbD_clear he (by omega)]
      simp [hlt, show s + i < w by omega]
    · rw [decide_eq_false (Nat.not_lt.mpr hge), Bool.and_false, hhigh i (by omega)]
  · refine and_eq_zero_of_clear fun i hi => ?_
    rw [getLsbD_clear he hi, BitVec.getLsbD_shiftLeft]
    rcases Nat.lt_or_ge i e with hlt | hge
    · exact Or.inl (by simp [hlt])
    · exact Or.inr (by rw [hhigh (i - s) (by omega), Bool.and_false])

section Pack
/-- Fields of `b` bits packed into one word, the first on top. -/
def packWords (b : ℕ) : List (BitVec w) → BitVec w
  | [] => 0#w
  | d :: ds => ds.foldl (fun (ret d : BitVec w) => ret <<< b ||| d) d

/-- The `n` lowest fields of a word. -/
def unpackWords (b : ℕ) : ℕ → BitVec w → List (BitVec w)
  | 0, _ => []
  | n + 1, o => unpackWords b n (o >>> b) ++ [o &&& low w b]

theorem toNat_push (hd : d.toNat < 2 ^ b) (hr : r.toNat * 2 ^ b < 2 ^ w) :
    (r <<< b ||| d).toNat = r.toNat * 2 ^ b + d.toNat := by
  rw [BitVec.toNat_or, BitVec.toNat_shiftLeft, Nat.shiftLeft_eq, Nat.mod_eq_of_lt hr, Nat.mul_comm,
    Nat.two_pow_add_eq_or_of_lt hd]

theorem toNat_pushAll (hds : ∀ d ∈ ds, d.toNat < 2 ^ b) (hr : r.toNat < 2 ^ n) (hw : n + b * ds.length ≤ w) :
    (ds.foldl (fun (ret d : BitVec w) => ret <<< b ||| d) r).toNat = packFrom (2 ^ b) r.toNat (ds.map BitVec.toNat) := by
  induction ds generalizing r n with
  | nil => rfl
  | cons d ds ih =>
    have hd := hds d List.mem_cons_self
    rw [List.length_cons, Nat.mul_succ] at hw
    have hshift : r.toNat * 2 ^ b + d.toNat < 2 ^ (n + b) := by
      rw [Nat.pow_add]
      calc r.toNat * 2 ^ b + d.toNat < r.toNat * 2 ^ b + 2 ^ b := Nat.add_lt_add_left hd _
        _ = (r.toNat + 1) * 2 ^ b := (Nat.succ_mul _ _).symm
        _ ≤ 2 ^ n * 2 ^ b := Nat.mul_le_mul_right _ hr
    have hpush := toNat_push hd ((Nat.le_add_right _ _).trans_lt
      (hshift.trans_le (Nat.pow_le_pow_right (by decide) (show n + b ≤ w by omega))))
    rw [List.foldl_cons, ih (fun d hd => hds d (List.mem_cons_of_mem _ hd)) (hpush ▸ hshift) (by omega), hpush]
    rfl

theorem toNat_packWords (hds : ∀ d ∈ ds, d.toNat < 2 ^ b) (hw : b * ds.length ≤ w) :
    (packWords b ds).toNat = pack (2 ^ b) (ds.map BitVec.toNat) := by
  cases ds with
  | nil => rfl
  | cons d ds =>
    rw [List.length_cons, Nat.mul_succ] at hw
    rw [packWords, toNat_pushAll (fun d hd => hds d (List.mem_cons_of_mem _ hd)) (hds d List.mem_cons_self) (by omega),
      pack, List.map_cons, packFrom_cons, Nat.zero_mul, Nat.zero_add]

theorem toNat_unpackWords (hb : b < w) (o : BitVec w) :
    (unpackWords b n o).map BitVec.toNat = unpack (2 ^ b) n o.toNat := by
  induction n generalizing o with
  | zero => rfl
  | succ n ih =>
    rw [unpackWords, List.map_append, ih, List.map_singleton, toNat_and_low hb, BitVec.toNat_ushiftRight,
      Nat.shiftRight_eq_div_pow]
    rfl

theorem toNat_map_inj {l l' : List (BitVec w)} (h : l.map BitVec.toNat = l'.map BitVec.toNat) : l = l' :=
  List.map_injective_iff.mpr (fun _ _ => BitVec.eq_of_toNat_eq) h

theorem toNat_packWords_lt (hds : ∀ d ∈ ds, d.toNat < 2 ^ b) (hw : b * ds.length ≤ w) :
    (packWords b ds).toNat < 2 ^ (b * ds.length) := by
  have hlt : pack (2 ^ b) (ds.map BitVec.toNat) < _ := pack_lt (by simpa using hds)
  rwa [toNat_packWords hds hw, Nat.pow_mul, ← List.length_map]

theorem unpackWords_packWords (hb : b < w) (hds : ∀ d ∈ ds, d.toNat < 2 ^ b) (hw : b * ds.length ≤ w) :
    unpackWords b ds.length (packWords b ds) = ds := by
  refine toNat_map_inj ?_
  have hunpack : unpack (2 ^ b) _ (pack _ (ds.map BitVec.toNat)) = _ := unpack_pack (by simpa using hds)
  rwa [toNat_unpackWords hb, toNat_packWords hds hw, ← List.length_map]

@[simp] theorem length_unpackWords (o : BitVec w) : (unpackWords b n o).length = n := by
  induction n generalizing o with
  | zero => rfl
  | succ n ih => rw [unpackWords, List.length_append, ih, List.length_singleton]

theorem lt_of_mem_unpackWords (hb : b < w) {o : BitVec w} (h : d ∈ unpackWords b n o) : d.toNat < 2 ^ b := by
  refine lt_of_mem_unpack (n := n) (o := o.toNat) (Nat.two_pow_pos b) ?_
  rw [← toNat_unpackWords hb]
  exact List.mem_map_of_mem h

theorem packWords_unpackWords (hb : b < w) {o : BitVec w} (hw : b * n ≤ w) (ho : o.toNat < 2 ^ (b * n)) :
    packWords b (unpackWords b n o) = o := by
  refine BitVec.eq_of_toNat_eq ?_
  rw [toNat_packWords (fun d hd => lt_of_mem_unpackWords hb hd) (by rwa [length_unpackWords]), toNat_unpackWords hb,
    pack_unpack (by rwa [← Nat.pow_mul])]

end Pack

end BitFields
