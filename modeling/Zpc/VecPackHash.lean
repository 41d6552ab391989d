import Mathlib.Data.BitVec

/-!
# Keys packed into a word

`vec_pack_hash` packs the integer components of a key of at most 32 bits each into one word, which a table without
compared keys stores for the key. A component is widened with its sign, and the sign of a negative one runs over the
fields of all components in front of it.
-/
namespace Zpc
variable {w : ℕ}

section Definitions
/-- `(u64)val`, and the promotion to `u32` alike. -/
def widen (signed : Bool) (n : ℕ) (val : BitVec w) : BitVec n := if signed then val.signExtend n else val.setWidth n

/-- `val < 0` in the component's own type. -/
def negative (signed : Bool) (val : BitVec w) : Bool := signed && val.msb

structure VecPackHash where
  hashx : BitVec 32
  hashy : BitVec 32

namespace VecPackHash
/-- The sub-hasher of `universal_hash` for a component. -/
def subhasher (h : VecPackHash) (signed : Bool) (val : BitVec w) : BitVec 32 :=
  ((h.hashx ^^^ widen signed 32 val) + h.hashy) % 4294967291#32

def hashCombine (seed val : BitVec 32) : BitVec 32 := seed ^^^ (val + 0x9e3779b9#32 + (seed <<< 6) + (seed >>> 2))

def universalHash (h : VecPackHash) (signed : Bool) : List (BitVec w) → BitVec 32
  | [] => 0
  | val :: key => key.foldl (fun ret val => hashCombine ret (h.subhasher signed val)) (h.subhasher signed val)

def extract (signed : Bool) (val : BitVec w) : BitVec 64 :=
  if signed then (widen signed 64 val &&& 0xfffff#64) ||| ((if negative signed val then 1#64 else 0#64) <<< 20)
  else widen signed 64 val &&& 0x1fffff#64

/-- The loop over the components of 16 and of 8 bits. -/
def packLoop (signed : Bool) (key : List (BitVec w)) : BitVec 64 :=
  key.foldl (fun ret val => (ret <<< w) ||| widen signed 64 val) 0#64

/-- `vec_pack_hash::operator()` on a vector. -/
def hash (h : VecPackHash) (signed : Bool) (key : List (BitVec w)) : BitVec 64 :=
  if w = 32 then match key with
    | [x, y, z] => (extract signed x <<< 42) ||| (extract signed y <<< 21) ||| extract signed z
    | [x, y] => (widen signed 64 x <<< 32) ||| widen signed 64 y
    | [x] => widen signed 64 x
    | key => (h.universalHash signed key).setWidth 64
  else if w = 16 ∧ key.length ≤ 4 then packLoop signed key
  else if w = 8 ∧ key.length ≤ 8 then packLoop signed key
  else (h.universalHash signed key).setWidth 64

/-- `bcht::transKey`: the stored form of a key is the key itself where keys are compared. -/
def transKey (h : VecPackHash) (compareKey signed : Bool) (key : List (BitVec w)) : List (BitVec w) ⊕ BitVec 64 :=
  if compareKey then .inl key else .inr (h.hash signed key)

/-- The component is one of 21 bits, in two's complement when signed. -/
def Fits (signed : Bool) (val : BitVec w) : Prop := widen signed w (val.setWidth 21) = val

/-- The keys that the packing has room for. -/
def Packable (signed : Bool) (key : List (BitVec w)) : Prop := key ≠ [] ∧
  (w = 32 ∧ key.length ≤ 2 ∨ w = 16 ∧ key.length ≤ 4 ∨ w = 8 ∧ key.length ≤ 8 ∨
    w = 32 ∧ key.length = 3 ∧ ∀ val ∈ key, Fits signed val)

instance (signed : Bool) (val : BitVec w) : Decidable (Fits signed val) :=
  inferInstanceAs (Decidable (_ = _))

instance (signed : Bool) (key : List (BitVec w)) : Decidable (Packable signed key) :=
  inferInstanceAs (Decidable (_ ∧ _))

def fromLastNegative (signed : Bool) : List (BitVec w) → List (BitVec w)
  | [] => []
  | val :: key => if key.any (negative signed) then fromLastNegative signed key else val :: key

/-- The components that reach the packed value. -/
def visible (signed : Bool) (key : List (BitVec w)) : List (BitVec w) :=
  if w = 32 ∧ key.length = 3 then key else fromLastNegative signed key

end VecPackHash
end Definitions

namespace VecPackHash
variable {signed : Bool} {val val' : BitVec w} {key key' : List (BitVec w)}

section Loop
theorem getLsbD_widen {n j : ℕ} (hj : j < n) : (widen signed n val).getLsbD j =
    if j < w then val.getLsbD j else negative signed val := by
  cases signed with
  | false =>
    by_cases hw : j < w
    · simp [widen, hj, hw]
    · simp [widen, negative, hw, BitVec.getLsbD_of_ge val j (Nat.le_of_not_lt hw)]
  | true =>
    rw [widen, if_pos rfl, BitVec.getLsbD_signExtend]
    simp [negative, hj]

/-- The loop from the last component on. -/
def packBack (signed : Bool) : List (BitVec w) → BitVec 64
  | [] => 0#64
  | val :: key => (packBack signed key <<< w) ||| widen signed 64 val

theorem packLoop_eq (signed : Bool) (key : List (BitVec w)) : packLoop signed key = packBack signed key.reverse := by
  rw [packLoop, ← List.foldr_reverse]
  generalize key.reverse = l
  induction l with
  | nil => rfl
  | cons val l ih => rw [List.foldr_cons, ih, packBack]

/-- A field of the last component holds it, and the fields above hold the rest unless it is negative. -/
theorem getLsbD_packBack {j : ℕ} (hj : j < 64) : (packBack signed (val :: key)).getLsbD j =
    if j < w then val.getLsbD j else (packBack signed key).getLsbD (j - w) || negative signed val := by
  rw [packBack, BitVec.getLsbD_or, BitVec.getLsbD_shiftLeft, getLsbD_widen hj]
  by_cases hw : j < w <;> simp [hw, hj]

/-- The components up to the first negative one, which ends what is seen from the back. -/
def untilNegative (signed : Bool) : List (BitVec w) → List (BitVec w)
  | [] => []
  | val :: key => if negative signed val then [val] else val :: untilNegative signed key

theorem packBack_congr (hlen : key.length = key'.length)
    (h : untilNegative signed key = untilNegative signed key') : packBack signed key = packBack signed key' := by
  induction key generalizing key' with
  | nil => rw [List.length_eq_zero_iff.mp hlen.symm]
  | cons val key ih =>
    obtain _ | ⟨val', key'⟩ := key'
    · cases hlen
    have hval : val = val' := by
      have hhead := congrArg List.head? h
      simp only [untilNegative] at hhead
      split at hhead <;> split at hhead <;> exact Option.some.inj hhead
    subst hval
    refine BitVec.eq_of_getLsbD_eq fun j hj => ?_
    rw [getLsbD_packBack hj, getLsbD_packBack hj]
    cases hneg : negative signed val with
    | true => simp
    | false =>
      rw [untilNegative, untilNegative, if_neg (by simp [hneg]), if_neg (by simp [hneg])] at h
      rw [ih (Nat.succ.inj hlen) (List.cons.inj h).2]

/-- The fields determine the components up to the first negative one. -/
theorem untilNegative_eq (hlen : key.length = key'.length) (hfits : w * key.length ≤ 64)
    (h : ∀ j < w * key.length, (packBack signed key).getLsbD j = (packBack signed key').getLsbD j) :
    untilNegative signed key = untilNegative signed key' := by
  induction key generalizing key' with
  | nil => rw [List.length_eq_zero_iff.mp hlen.symm]
  | cons val key ih =>
    obtain _ | ⟨val', key'⟩ := key'
    · cases hlen
    rw [List.length_cons, Nat.mul_succ] at h hfits
    have hval : val = val' := BitVec.eq_of_getLsbD_eq fun j hj => by
      have hbit := h j (by omega)
      rwa [getLsbD_packBack (by omega), getLsbD_packBack (by omega), if_pos hj, if_pos hj] at hbit
    subst hval
    rw [untilNegative, untilNegative]
    cases hneg : negative signed val with
    | true => rfl
    | false =>
      have htail : untilNegative signed key = untilNegative signed key' := by
        refine ih (Nat.succ.inj hlen) (by omega) fun j hj => ?_
        have hbit := h (j + w) (by omega)
        rw [getLsbD_packBack (by omega), getLsbD_packBack (by omega), if_neg (by omega), if_neg (by omega), hneg,
          Nat.add_sub_cancel, Bool.or_false, Bool.or_false] at hbit
        exact hbit
      rw [htail]

theorem untilNegative_append (signed : Bool) (l : List (BitVec w)) (val : BitVec w) :
    untilNegative signed (l ++ [val]) =
      if l.any (negative signed) then untilNegative signed l else l ++ [val] := by
  induction l with
  | nil => simp [untilNegative]
  | cons u l ih =>
    rw [List.cons_append, untilNegative, untilNegative, ih, List.any_cons]
    cases negative signed u with
    | true => rfl
    | false =>
      by_cases hany : l.any (negative signed) = true <;> simp [hany]

/-- What is seen from the back is the key from its last negative component on. -/
theorem untilNegative_reverse (signed : Bool) (key : List (BitVec w)) :
    untilNegative signed key.reverse = (fromLastNegative signed key).reverse := by
  induction key with
  | nil => rfl
  | cons val key ih =>
    rw [List.reverse_cons, untilNegative_append, List.any_reverse, fromLastNegative, ih]
    split
    · rfl
    · exact List.reverse_cons.symm

theorem packLoop_eq_iff (hlen : key.length = key'.length) (hfits : w * key.length ≤ 64) :
    packLoop signed key = packLoop signed key' ↔ fromLastNegative signed key = fromLastNegative signed key' := by
  have hrev : key.reverse.length = key'.reverse.length := by rw [List.length_reverse, List.length_reverse, hlen]
  rw [packLoop_eq, packLoop_eq, ← @List.reverse_inj _ (fromLastNegative signed key),
    ← untilNegative_reverse, ← untilNegative_reverse]
  refine ⟨fun h => untilNegative_eq hrev (by rwa [List.length_reverse]) fun j _ => by rw [h], packBack_congr hrev⟩

end Loop

section Extract
theorem Fits.eq_of_low (h : Fits signed val) (h' : Fits signed val') (he : val.setWidth 21 = val'.setWidth 21) :
    val = val' := by
  rw [← h, he, h']

theorem getLsbD_mask (n : ℕ) {m : BitVec 64} (hm : m = BitVec.ofNat 64 (2 ^ n - 1)) {j : ℕ} (hj : j < 64) :
    m.getLsbD j = decide (j < n) := by
  rw [hm, BitVec.getLsbD_ofNat, Nat.testBit_two_pow_sub_one, decide_eq_true hj, Bool.true_and]

/-- The bits of a component of 21 bits. -/
theorem getLsbD_extract {val : BitVec 32} (h : Fits signed val) {j : ℕ} (hj : j < 64) :
    (extract signed val).getLsbD j = (val.setWidth 21).getLsbD j := by
  rw [BitVec.getLsbD_setWidth]
  cases signed with
  | false =>
    rw [extract, if_neg Bool.false_ne_true, BitVec.getLsbD_and, getLsbD_mask (m := 0x1fffff#64) 21 rfl hj,
      getLsbD_widen hj, Bool.and_comm]
    by_cases hw : j < 32
    · rw [if_pos hw]
    · rw [if_neg hw, decide_eq_false (by omega), Bool.false_and, Bool.false_and]
  | true =>
    have hsign : negative true val = val.getLsbD 20 := by
      have hmsb := congrArg BitVec.msb h
      rw [widen, if_pos rfl, BitVec.msb_signExtend] at hmsb
      simpa [negative, BitVec.msb_eq_getLsbD_last] using hmsb.symm
    rw [extract, if_pos rfl, BitVec.getLsbD_or, BitVec.getLsbD_and, getLsbD_mask (m := 0xfffff#64) 20 rfl hj,
      getLsbD_widen hj, hsign, BitVec.getLsbD_shiftLeft]
    rcases Nat.lt_trichotomy j 20 with hlt | rfl | hgt
    · simp [hlt, show j < 21 by omega, show j < 32 by omega]
    · cases val.getLsbD 20 <;> rfl
    · have hone : (if val.getLsbD 20 = true then 1#64 else 0#64).getLsbD (j - 20) = false := by
        split
        · rw [BitVec.getLsbD_one]
          simp [show j - 20 ≠ 0 by omega]
        · rw [BitVec.getLsbD_zero]
      rw [hone]
      simp [show ¬ j < 20 by omega, show ¬ j < 21 by omega]

/-- Three fields of 21 bits do not touch. -/
theorem fields_inj {x y z x' y' z' : BitVec 21}
    (h : (x.setWidth 64 <<< 42) ||| (y.setWidth 64 <<< 21) ||| z.setWidth 64 =
      (x'.setWidth 64 <<< 42) ||| (y'.setWidth 64 <<< 21) ||| z'.setWidth 64) : x = x' ∧ y = y' ∧ z = z' := by
  have hbit : ∀ j, _ := fun j => congrArg (fun v => v.getLsbD j) h
  simp only [BitVec.getLsbD_or, BitVec.getLsbD_shiftLeft, BitVec.getLsbD_setWidth] at hbit
  refine ⟨BitVec.eq_of_getLsbD_eq fun j hj => ?_, BitVec.eq_of_getLsbD_eq fun j hj => ?_,
    BitVec.eq_of_getLsbD_eq fun j hj => ?_⟩
  · have hx := hbit (j + 42)
    simpa [show j + 42 < 64 by omega, show ¬ j + 42 < 42 by omega, show j < 64 by omega,
      BitVec.getLsbD_of_ge _ (j + 42 - 21) (by omega : 21 ≤ j + 42 - 21),
      BitVec.getLsbD_of_ge _ (j + 42) (by omega : 21 ≤ j + 42)] using hx
  · have hy := hbit (j + 21)
    simpa [show j + 21 < 64 by omega, show j + 21 < 42 by omega, show ¬ j + 21 < 21 by omega, show j < 64 by omega,
      BitVec.getLsbD_of_ge _ (j + 21) (by omega : 21 ≤ j + 21)] using hy
  · have hz := hbit j
    simpa [show j < 64 by omega, show j < 42 by omega, hj] using hz

theorem extract_eq {val : BitVec 32} (h : Fits signed val) : extract signed val = (val.setWidth 21).setWidth 64 := by
  refine BitVec.eq_of_getLsbD_eq fun j hj => ?_
  rw [getLsbD_extract h hj]
  conv_rhs => rw [BitVec.getLsbD_setWidth, decide_eq_true hj, Bool.true_and]

end Extract

section Injectivity
variable {h : VecPackHash}

/-- Away from the three components of 32 bits the packing is one loop. -/
theorem hash_eq_packLoop (hp : Packable signed key) (hn : ¬ (w = 32 ∧ key.length = 3)) :
    h.hash signed key = packLoop signed key ∧ w * key.length ≤ 64 := by
  obtain ⟨hne, ⟨rfl, hl⟩ | ⟨rfl, hl⟩ | ⟨rfl, hl⟩ | ⟨rfl, hl, -⟩⟩ := hp
  · refine ⟨?_, by omega⟩
    match key, hne, hl with
    | [x], _, _ => simp [hash, packLoop]
    | [x, y], _, _ => simp [hash, packLoop]
  · exact ⟨(if_neg (by decide)).trans (if_pos ⟨rfl, hl⟩), by omega⟩
  · exact ⟨(if_neg (by decide)).trans ((if_neg (by simp)).trans (if_pos ⟨rfl, hl⟩)), by omega⟩
  · exact absurd ⟨rfl, hl⟩ hn

theorem triple_inj {key key' : List (BitVec 32)} (hl : key.length = 3) (hl' : key'.length = 3)
    (hf : ∀ val ∈ key, Fits signed val) (hf' : ∀ val ∈ key', Fits signed val)
    (he : h.hash signed key = h.hash signed key') : key = key' := by
  obtain ⟨x, y, z, rfl⟩ := List.length_eq_three.mp hl
  obtain ⟨x', y', z', rfl⟩ := List.length_eq_three.mp hl'
  simp only [List.mem_cons, List.not_mem_nil, or_false, forall_eq_or_imp, forall_eq] at hf hf'
  have hfields : (extract signed x <<< 42) ||| (extract signed y <<< 21) ||| extract signed z =
      (extract signed x' <<< 42) ||| (extract signed y' <<< 21) ||| extract signed z' := he
  rw [extract_eq hf.1, extract_eq hf.2.1, extract_eq hf.2.2, extract_eq hf'.1, extract_eq hf'.2.1,
    extract_eq hf'.2.2] at hfields
  obtain ⟨hx, hy, hz⟩ := fields_inj hfields
  rw [hf.1.eq_of_low hf'.1 hx, hf.2.1.eq_of_low hf'.2.1 hy, hf.2.2.eq_of_low hf'.2.2 hz]

/-- Keys have one packed value exactly when their components from the last negative one on are the same. -/
theorem hash_eq_iff (hp : Packable signed key) (hp' : Packable signed key') (hlen : key.length = key'.length) :
    h.hash signed key = h.hash signed key' ↔ visible signed key = visible signed key' := by
  by_cases hn : w = 32 ∧ key.length = 3
  · obtain ⟨rfl, hl⟩ := hn
    have hl' : key'.length = 3 := hlen.symm.trans hl
    have hfits : ∀ {l : List (BitVec 32)}, Packable signed l → l.length = 3 → ∀ val ∈ l, Fits signed val :=
      fun ⟨_, hr⟩ hl => by
        rcases hr with ⟨-, h⟩ | ⟨h, -⟩ | ⟨h, -⟩ | ⟨-, -, h⟩
        · omega
        · exact absurd h (by decide)
        · exact absurd h (by decide)
        · exact h
    rw [visible, if_pos ⟨rfl, hl⟩, visible, if_pos ⟨rfl, hl'⟩]
    exact ⟨triple_inj hl hl' (hfits hp hl) (hfits hp' hl'), fun he => by rw [he]⟩
  · obtain ⟨he, hfits⟩ := hash_eq_packLoop (h := h) hp hn
    rw [he, (hash_eq_packLoop (h := h) hp' (hlen ▸ hn)).1, visible, if_neg hn, visible, if_neg (hlen ▸ hn),
      packLoop_eq_iff hlen hfits]

/-- Different keys are stored in different forms exactly when they differ from the last negative component on. -/
theorem stored_ne_iff_visible_ne (h : VecPackHash) (signed : Bool) (key key' : List (BitVec w))
    (hp : Packable signed key) (hp' : Packable signed key') (hlen : key.length = key'.length) :
    (key ≠ key' → h.transKey false signed key ≠ h.transKey false signed key') ↔
      (key ≠ key' → visible signed key ≠ visible signed key') := by
  have hstored : h.transKey false signed key = h.transKey false signed key' ↔
      h.hash signed key = h.hash signed key' := ⟨fun he => Sum.inr.inj he, fun he => congrArg Sum.inr he⟩
  rw [ne_eq (h.transKey _ _ _), hstored, hash_eq_iff hp hp' hlen]

theorem stored_ne_iff_visible_ne_pair : let h : VecPackHash := ⟨7, 11⟩;
    ([5#16, 0xffff#16] ≠ [5#16, 3#16] →
      h.transKey false true [5#16, 0xffff#16] ≠ h.transKey false true [5#16, 3#16]) ↔
    ([5#16, 0xffff#16] ≠ [5#16, 3#16] → visible true [5#16, 0xffff#16] ≠ visible true [5#16, 3#16]) :=
  stored_ne_iff_visible_ne ⟨7, 11⟩ true _ _ (by decide) (by decide) rfl

/-- The keys `(0, -1)` and `(1, -1)` of signed components are stored alike. -/
theorem stored_eq_of_negative_second : Packable true [0#32, 0xffffffff#32] ∧ Packable true [1#32, 0xffffffff#32] ∧
    [0#32, 0xffffffff#32] ≠ [1#32, 0xffffffff#32] ∧
    transKey ⟨7, 11⟩ false true [0#32, 0xffffffff#32] = transKey ⟨7, 11⟩ false true [1#32, 0xffffffff#32] :=
  ⟨by decide, by decide, by decide, by decide⟩

end Injectivity

end VecPackHash
end Zpc
