import Zpc.WordBits
import Mathlib.Data.Finset.Max
import Mathlib.Order.Interval.Finset.Nat

/-!
# Bit masks

A `bit_mask` is an array of words, the last of which may have bits that stand for nothing. Operations on the whole mask
treat these bits like the others, so that they are all on or all off, and some answers depend on which. A program of
operations denotes a subset; it also tells the state of the unused bits.
-/
namespace Zpc
open WordBits

variable {log size : ℕ}

section Definitions
/-- The words of a mask, of `2 ^ log` bits; the array is its first `word_count` words. -/
structure BitMask (log : ℕ) where
  words : ℕ → BitVec (2 ^ log)

namespace BitMask
def wordMask (log : ℕ) : ℕ := 2 ^ log - 1

def wordCount (log size : ℕ) : ℕ := (size + 2 ^ log - 1) / 2 ^ log

/-- The word with the bit that stands for `n`. -/
def bitOf (log n : ℕ) : BitVec (2 ^ log) := 1#(2 ^ log) <<< (n &&& wordMask log)

def updateWord (m : BitMask log) (n : ℕ) (f : BitVec (2 ^ log) → BitVec (2 ^ log)) : BitMask log :=
  ⟨Function.update m.words (n >>> log) (f (m.words (n >>> log)))⟩

def mapWords (size : ℕ) (m : BitMask log) (f : ℕ → BitVec (2 ^ log) → BitVec (2 ^ log)) : BitMask log :=
  ⟨fun j => if j < wordCount log size then f j (m.words j) else m.words j⟩

def setOn (m : BitMask log) (n : ℕ) : BitMask log := m.updateWord n (· ||| bitOf log n)

def setOff (m : BitMask log) (n : ℕ) : BitMask log := m.updateWord n (· &&& ~~~bitOf log n)

def set (m : BitMask log) (n : ℕ) (on : Bool) : BitMask log := if on then m.setOn n else m.setOff n

def toggle (m : BitMask log) (n : ℕ) : BitMask log := m.updateWord n (· ^^^ bitOf log n)

/-- `set` without a position. -/
def setAll (size : ℕ) (m : BitMask log) (on : Bool) : BitMask log :=
  m.mapWords size fun _ _ => if on then ~~~0#(2 ^ log) else 0#(2 ^ log)

def setAllOn (size : ℕ) (m : BitMask log) : BitMask log := m.mapWords size fun _ _ => ~~~0#(2 ^ log)

def setAllOff (size : ℕ) (m : BitMask log) : BitMask log := m.mapWords size fun _ _ => 0#(2 ^ log)

def toggleAll (size : ℕ) (m : BitMask log) : BitMask log := m.mapWords size fun _ w => ~~~w

def andAssign (size : ℕ) (m other : BitMask log) : BitMask log := m.mapWords size fun j w => w &&& other.words j

def orAssign (size : ℕ) (m other : BitMask log) : BitMask log := m.mapWords size fun j w => w ||| other.words j

def subAssign (size : ℕ) (m other : BitMask log) : BitMask log := m.mapWords size fun j w => w &&& ~~~other.words j

def xorAssign (size : ℕ) (m other : BitMask log) : BitMask log := m.mapWords size fun j w => w ^^^ other.words j

/-- `operator!`, on a copy. -/
def not (size : ℕ) (m : BitMask log) : BitMask log := m.toggleAll size

/-- `operator==`. -/
def equal (size : ℕ) (m other : BitMask log) : Bool :=
  (List.range (wordCount log size)).all fun j => m.words j == other.words j

def countOn (size : ℕ) (m : BitMask log) : ℤ := ((List.range (wordCount log size)).map fun j => ones (m.words j)).sum

def countOff (size : ℕ) (m : BitMask log) : ℤ := size - m.countOn size

def countOffset (m : BitMask log) (k : ℕ) : ℤ :=
  (((List.range (k >>> log)).map fun j => ones (m.words j)).sum +
    ones (m.words (k >>> log) &&& (bitOf log k - 1#(2 ^ log))) : ℕ)

def isOn (m : BitMask log) (n : ℕ) : Bool := m.words (n >>> log) &&& bitOf log n != 0#(2 ^ log)

def isOff (m : BitMask log) (n : ℕ) : Bool := !m.isOn n

/-- `isOn` without a position. -/
def isAllOn (size : ℕ) (m : BitMask log) : Bool :=
  (List.range (wordCount log size)).all fun j => m.words j == ~~~0#(2 ^ log)

def isAllOff (size : ℕ) (m : BitMask log) : Bool :=
  (List.range (wordCount log size)).all fun j => m.words j == 0#(2 ^ log)

/-- `isConstant`, with the value of its argument where it returns true. -/
def isConstant (size : ℕ) (m : BitMask log) : Option Bool :=
  let on := m.words 0 == ~~~0#(2 ^ log)
  if !on && m.words 0 != 0#(2 ^ log) then none
  else if (List.range (wordCount log size)).tail.all fun j => m.words j == m.words 0 then some on
  else none

/-- The loop of `findFirstOn` and of `findFirstOff`, from the word `n` on with `left` words to go. -/
def firstLoop (f : ℕ → BitVec (2 ^ log)) : ℕ → ℕ → ℕ
  | 0, n => n
  | left + 1, n => if f n = 0#(2 ^ log) then firstLoop f left (n + 1) else n

def findFirst (size : ℕ) (f : ℕ → BitVec (2 ^ log)) : ℕ :=
  let n := firstLoop f (wordCount log size) 0
  if n = wordCount log size then size else (n <<< log) + trailingZeros (f n)

def findFirstOn (size : ℕ) (m : BitMask log) : ℕ := findFirst size m.words

def findFirstOff (size : ℕ) (m : BitMask log) : ℕ := findFirst size fun j => ~~~m.words j

/-- The loop of `findNextOn` and of `findNextOff`. -/
def nextLoop (f : ℕ → BitVec (2 ^ log)) : ℕ → ℕ → BitVec (2 ^ log) → ℕ × BitVec (2 ^ log)
  | 0, n, b => (n, b)
  | left + 1, n, b => if b = 0#(2 ^ log) then nextLoop f left (n + 1) (f (n + 1)) else (n, b)

def findNext (size : ℕ) (f : ℕ → BitVec (2 ^ log)) (start : ℕ) : ℕ :=
  let n := start >>> log
  if wordCount log size ≤ n then size
  else if f n &&& bitOf log start ≠ 0#(2 ^ log) then start
  else
    let (n, b) := nextLoop f (wordCount log size - (n + 1)) n
      (f n &&& (~~~0#(2 ^ log) <<< (start &&& wordMask log)))
    if b = 0#(2 ^ log) then size else (n <<< log) + trailingZeros b

def findNextOn (size : ℕ) (m : BitMask log) (start : ℕ) : ℕ := findNext size m.words start

def findNextOff (size : ℕ) (m : BitMask log) (start : ℕ) : ℕ := findNext size (fun j => ~~~m.words j) start

/-- The ways to make a mask. -/
inductive Program (size : ℕ)
  | empty
  | const (on : Bool)
  | setOn (p : Program size) (n : Fin size)
  | setOff (p : Program size) (n : Fin size)
  | set (p : Program size) (n : Fin size) (on : Bool)
  | toggle (p : Program size) (n : Fin size)
  | setAllOn (p : Program size)
  | setAllOff (p : Program size)
  | setAll (p : Program size) (on : Bool)
  | toggleAll (p : Program size)
  | and (p q : Program size)
  | or (p q : Program size)
  | sub (p q : Program size)
  | xor (p q : Program size)
  | not (p : Program size)

/-- The mask that a program makes in memory with the content `junk`. -/
def run (junk : BitMask log) : Program size → BitMask log
  | .empty => junk.setAllOff size
  | .const on => junk.setAll size on
  | .setOn p n => (run junk p).setOn n
  | .setOff p n => (run junk p).setOff n
  | .set p n on => (run junk p).set n on
  | .toggle p n => (run junk p).toggle n
  | .setAllOn p => (run junk p).setAllOn size
  | .setAllOff p => (run junk p).setAllOff size
  | .setAll p on => (run junk p).setAll size on
  | .toggleAll p => (run junk p).toggleAll size
  | .and p q => (run junk p).andAssign size (run junk q)
  | .or p q => (run junk p).orAssign size (run junk q)
  | .sub p q => (run junk p).subAssign size (run junk q)
  | .xor p q => (run junk p).xorAssign size (run junk q)
  | .not p => (run junk p).not size

inductive Query (size : ℕ)
  | isOn (n : Fin size)
  | isOff (n : Fin size)
  | isAllOn
  | isAllOff
  | isConstant
  | equal (other : Program size)
  | notEqual (other : Program size)
  | countOn
  | countOff
  | countOffset (k : ℕ) (hk : k ≤ size)
  | findFirstOn
  | findFirstOff
  | findNextOn (start : ℕ) (hs : start ≤ size)
  | findNextOff (start : ℕ) (hs : start ≤ size)

inductive Answer
  | truth (b : Bool)
  | number (n : ℤ)
  | constant (on : Option Bool)
  deriving DecidableEq

/-- What a mask answers. -/
def ask (junk m : BitMask log) : Query size → Answer
  | .isOn n => .truth (m.isOn n)
  | .isOff n => .truth (m.isOff n)
  | .isAllOn => .truth (m.isAllOn size)
  | .isAllOff => .truth (m.isAllOff size)
  | .isConstant => .constant (m.isConstant size)
  | .equal other => .truth (m.equal size (run junk other))
  | .notEqual other => .truth (!m.equal size (run junk other))
  | .countOn => .number (m.countOn size)
  | .countOff => .number (m.countOff size)
  | .countOffset k _ => .number (m.countOffset k)
  | .findFirstOn => .number (m.findFirstOn size)
  | .findFirstOff => .number (m.findFirstOff size)
  | .findNextOn start _ => .number (m.findNextOn size start)
  | .findNextOff start _ => .number (m.findNextOff size start)

/-- The subset that a program denotes. -/
def subset : Program size → Finset ℕ
  | .empty => ∅
  | .const on => if on then Finset.range size else ∅
  | .setOn p n => insert n.val (subset p)
  | .setOff p n => (subset p).erase n
  | .set p n on => if on then insert n.val (subset p) else (subset p).erase n
  | .toggle p n => symmDiff (subset p) {n.val}
  | .setAllOn _ => Finset.range size
  | .setAllOff _ => ∅
  | .setAll _ on => if on then Finset.range size else ∅
  | .toggleAll p => Finset.range size \ subset p
  | .and p q => subset p ∩ subset q
  | .or p q => subset p ∪ subset q
  | .sub p q => subset p \ subset q
  | .xor p q => symmDiff (subset p) (subset q)
  | .not p => Finset.range size \ subset p

/-- The state of the bits behind the last one that stands for something. -/
def unused : Program size → Bool
  | .empty => false
  | .const on => on
  | .setOn p _ => unused p
  | .setOff p _ => unused p
  | .set p _ _ => unused p
  | .toggle p _ => unused p
  | .setAllOn _ => true
  | .setAllOff _ => false
  | .setAll _ on => on
  | .toggleAll p => !unused p
  | .and p q => unused p && unused q
  | .or p q => unused p || unused q
  | .sub p q => unused p && !unused q
  | .xor p q => unused p ^^ unused q
  | .not p => !unused p

/-- The least element from `start` on. -/
def nextIn (size : ℕ) (s : Finset ℕ) (start : ℕ) : ℕ :=
  if h : (s.filter (start ≤ ·)).Nonempty then (s.filter (start ≤ ·)).min' h else size

/-- What the subset answers. -/
def answer (p : Program size) : Query size → Answer
  | .isOn n => .truth (n.val ∈ subset p)
  | .isOff n => .truth (n.val ∉ subset p)
  | .isAllOn => .truth (subset p = Finset.range size)
  | .isAllOff => .truth (subset p = ∅)
  | .isConstant => .constant
      (if subset p = Finset.range size then some true else if subset p = ∅ then some false else none)
  | .equal other => .truth (subset p = subset other)
  | .notEqual other => .truth (subset p ≠ subset other)
  | .countOn => .number (subset p).card
  | .countOff => .number (size - (subset p).card)
  | .countOffset k _ => .number ((subset p).filter (· < k)).card
  | .findFirstOn => .number (nextIn size (subset p) 0)
  | .findFirstOff => .number (nextIn size (Finset.range size \ subset p) 0)
  | .findNextOn start _ => .number (nextIn size (subset p) start)
  | .findNextOff start _ => .number (nextIn size (Finset.range size \ subset p) start)

/-- The answer does not depend on the unused bits. -/
def Settled (p : Program size) : Query size → Prop
  | .isAllOn => subset p = Finset.range size → unused p = true
  | .isAllOff => subset p = ∅ → unused p = false
  | .isConstant => (subset p = Finset.range size → unused p = true) ∧ (subset p = ∅ → unused p = false)
  | .equal other => subset p = subset other → unused p = unused other
  | .notEqual other => subset p = subset other → unused p = unused other
  | .countOn => unused p = false
  | .countOff => unused p = false
  | _ => True

end BitMask
end Definitions

namespace BitMask
section Representation
variable {m other : BitMask log} {s s' : Finset ℕ} {u u' : Bool} {i n : ℕ}

theorem shiftRight_eq (log n : ℕ) : n >>> log = n / 2 ^ log := Nat.shiftRight_eq_div_pow n log

theorem and_wordMask (log n : ℕ) : n &&& wordMask log = n % 2 ^ log := Nat.and_two_pow_sub_one_eq_mod n log

theorem size_le_bits (log size : ℕ) : size ≤ 2 ^ log * wordCount log size := by
  have h := Nat.lt_mul_div_succ (size + 2 ^ log - 1) (Nat.two_pow_pos log)
  rw [Nat.mul_succ] at h
  rw [wordCount]
  have hpos := Nat.two_pow_pos log
  omega

theorem bits_eq_iff (log size : ℕ) : 2 ^ log * wordCount log size = size ↔ 2 ^ log ∣ size := by
  constructor
  · intro h
    exact ⟨_, h.symm⟩
  · rintro ⟨k, rfl⟩
    have hpos := Nat.two_pow_pos log
    rw [wordCount, Nat.add_sub_assoc hpos, Nat.mul_add_div hpos, Nat.div_eq_of_lt (by omega), Nat.add_zero]

/-- The bits of the mask are those of the subset, and the unused bits are all alike. -/
structure Represents (size : ℕ) (m : BitMask log) (s : Finset ℕ) (u : Bool) : Prop where
  lt : ∀ i ∈ s, i < size
  bit : ∀ i < 2 ^ log * wordCount log size, bitAt m.words i = if i < size then decide (i ∈ s) else u

theorem getLsbD_bitOf {r : ℕ} (hr : r < 2 ^ log) : (bitOf log n).getLsbD r = decide (r = n % 2 ^ log) := by
  rw [bitOf, and_wordMask, BitVec.getLsbD_shiftLeft, BitVec.getLsbD_one]
  have hmod := Nat.mod_lt n (Nat.two_pow_pos log)
  rcases Nat.lt_trichotomy r (n % 2 ^ log) with h | rfl | h
  · simp [h, Nat.ne_of_lt h]
  · simp [hr, Nat.two_pow_pos]
  · simp [Nat.ne_of_gt h, show r - n % 2 ^ log ≠ 0 by omega]

theorem bitAt_updateWord (g : BitVec (2 ^ log) → BitVec (2 ^ log)) (i : ℕ) :
    bitAt (m.updateWord n g).words i =
      if i / 2 ^ log = n / 2 ^ log then (g (m.words (n / 2 ^ log))).getLsbD (i % 2 ^ log) else bitAt m.words i := by
  rw [bitAt, updateWord, shiftRight_eq]
  by_cases h : i / 2 ^ log = n / 2 ^ log
  · rw [h, if_pos rfl]
    exact congrArg (fun b : BitVec (2 ^ log) => b.getLsbD (i % 2 ^ log)) (Function.update_self ..)
  · rw [if_neg h]
    exact congrArg (fun b : BitVec (2 ^ log) => b.getLsbD (i % 2 ^ log)) (Function.update_of_ne h ..)

/-- An update of one bit. -/
theorem bitAt_updateBit {g : BitVec (2 ^ log) → BitVec (2 ^ log)} {h : Bool → Bool → Bool}
    (hg : ∀ b, ∀ r < 2 ^ log, (g b).getLsbD r = h (b.getLsbD r) ((bitOf log n).getLsbD r))
    (hkeep : ∀ x, h x false = x) (i : ℕ) :
    bitAt (m.updateWord n g).words i = if i = n then h (bitAt m.words n) true else bitAt m.words i := by
  have hlt := Nat.mod_lt i (Nat.two_pow_pos log)
  rw [bitAt_updateWord]
  by_cases hin : i = n
  · subst hin
    rw [if_pos rfl, if_pos rfl, hg _ _ hlt, getLsbD_bitOf hlt, decide_eq_true rfl]
    rfl
  · rw [if_neg hin]
    split
    next hdiv =>
      have hmod : i % 2 ^ log ≠ n % 2 ^ log := fun hmod => hin (by
        rw [← Nat.div_add_mod i (2 ^ log), hdiv, hmod, Nat.div_add_mod])
      rw [hg _ _ hlt, getLsbD_bitOf hlt, decide_eq_false hmod, hkeep, bitAt, hdiv]
    next => rfl

theorem bitAt_mapWords {f : ℕ → BitVec (2 ^ log) → BitVec (2 ^ log)} (hi : i < 2 ^ log * wordCount log size) :
    bitAt (m.mapWords size f).words i = (f (i / 2 ^ log) (m.words (i / 2 ^ log))).getLsbD (i % 2 ^ log) :=
  congrArg (fun b : BitVec (2 ^ log) => b.getLsbD (i % 2 ^ log)) (if_pos (div_lt_of_lt hi))

/-- One bit of a mask that stands for something. -/
theorem Represents.updateBit (h : Represents size m s u) (hn : n < size) {g : BitVec (2 ^ log) → BitVec (2 ^ log)}
    (op : Bool → Bool → Bool) (hg : ∀ b, ∀ r < 2 ^ log, (g b).getLsbD r = op (b.getLsbD r) ((bitOf log n).getLsbD r))
    (hkeep : ∀ x, op x false = x) (hlt : ∀ i ∈ s', i < size) (hself : decide (n ∈ s') = op (decide (n ∈ s)) true)
    (hother : ∀ i, i ≠ n → (i ∈ s' ↔ i ∈ s)) : Represents size (m.updateWord n g) s' u where
  lt := hlt
  bit i hi := by
    rw [bitAt_updateBit hg hkeep]
    by_cases hin : i = n
    · subst hin
      rw [if_pos rfl, h.bit i hi, if_pos hn, if_pos hn, hself]
    · rw [if_neg hin, h.bit i hi]
      split
      · exact (decide_eq_decide.mpr (hother i hin)).symm
      · rfl

theorem Represents.setOn (h : Represents size m s u) (hn : n < size) :
    Represents size (m.setOn n) (insert n s) u := by
  refine h.updateBit hn (· || ·) (fun b r _ => BitVec.getLsbD_or) Bool.or_false (fun i hi => ?_) ?_
    fun i hin => Finset.mem_insert.trans (or_iff_right hin)
  · rcases Finset.mem_insert.mp hi with rfl | hi
    · exact hn
    · exact h.lt i hi
  · rw [decide_eq_true (Finset.mem_insert_self n s), Bool.or_true]

theorem Represents.setOff (h : Represents size m s u) (hn : n < size) :
    Represents size (m.setOff n) (s.erase n) u := by
  refine h.updateBit hn (fun x y => x && !y) (fun b r hr => ?_) (fun x => by simp)
    (fun i hi => h.lt i (Finset.mem_of_mem_erase hi)) ?_ fun i hin => Finset.mem_erase.trans (and_iff_right hin)
  · rw [BitVec.getLsbD_and, BitVec.getLsbD_not, decide_eq_true hr, Bool.true_and]
  · rw [decide_eq_false (Finset.notMem_erase n s), Bool.not_true, Bool.and_false]

theorem Represents.set (h : Represents size m s u) (hn : n < size) (on : Bool) :
    Represents size (m.set n on) (if on then insert n s else s.erase n) u := by
  cases on
  · exact h.setOff hn
  · exact h.setOn hn

theorem Represents.toggle (h : Represents size m s u) (hn : n < size) :
    Represents size (m.toggle n) (symmDiff s {n}) u := by
  refine h.updateBit hn (· ^^ ·) (fun b r _ => BitVec.getLsbD_xor) Bool.xor_false (fun i hi => ?_) ?_
    fun i hin => ?_
  · rcases Finset.mem_symmDiff.mp hi with ⟨hi, -⟩ | ⟨hi, -⟩
    · exact h.lt i hi
    · exact Finset.mem_singleton.mp hi ▸ hn
  · rw [Bool.xor_true, ← decide_not]
    exact decide_eq_decide.mpr (by simp [Finset.mem_symmDiff])
  · simp [Finset.mem_symmDiff, hin]

/-- An operation on all bits at once, of one mask or of two. -/
theorem Represents.zip (h : Represents size m s u) (h' : Represents size other s' u') {s'' : Finset ℕ}
    {f : ℕ → BitVec (2 ^ log) → BitVec (2 ^ log)} (op : Bool → Bool → Bool)
    (hf : ∀ j b, ∀ r < 2 ^ log, (f j b).getLsbD r = op (b.getLsbD r) ((other.words j).getLsbD r))
    (hlt : ∀ i ∈ s'', i < size) (hmem : ∀ i < size, decide (i ∈ s'') = op (decide (i ∈ s)) (decide (i ∈ s'))) :
    Represents size (m.mapWords size f) s'' (op u u') where
  lt := hlt
  bit i hi := by
    rw [bitAt_mapWords hi, hf _ _ _ (Nat.mod_lt i (Nat.two_pow_pos log))]
    show op (bitAt m.words i) (bitAt other.words i) = _
    rw [h.bit i hi, h'.bit i hi]
    split
    next hlt => exact (hmem i hlt).symm
    next => rfl

theorem Represents.and (h : Represents size m s u) (h' : Represents size other s' u') :
    Represents size (m.andAssign size other) (s ∩ s') (u && u') :=
  h.zip h' (· && ·) (fun _ _ _ _ => BitVec.getLsbD_and) (fun i hi => h.lt i (Finset.mem_of_mem_inter_left hi))
    fun i _ => by simp

theorem Represents.or (h : Represents size m s u) (h' : Represents size other s' u') :
    Represents size (m.orAssign size other) (s ∪ s') (u || u') :=
  h.zip h' (· || ·) (fun _ _ _ _ => BitVec.getLsbD_or)
    (fun i hi => (Finset.mem_union.mp hi).elim (h.lt i) (h'.lt i)) fun i _ => by simp

theorem Represents.sub (h : Represents size m s u) (h' : Represents size other s' u') :
    Represents size (m.subAssign size other) (s \ s') (u && !u') := by
  refine h.zip h' (fun x y => x && !y) (fun j b r hr => ?_) (fun i hi => h.lt i (Finset.mem_sdiff.mp hi).1)
    fun i _ => by simp [Finset.mem_sdiff]
  rw [BitVec.getLsbD_and, BitVec.getLsbD_not, decide_eq_true hr, Bool.true_and]

theorem Represents.xor (h : Represents size m s u) (h' : Represents size other s' u') :
    Represents size (m.xorAssign size other) (symmDiff s s') (u ^^ u') := by
  refine h.zip h' (· ^^ ·) (fun _ _ _ _ => BitVec.getLsbD_xor) (fun i hi => ?_) fun i _ => ?_
  · rcases Finset.mem_symmDiff.mp hi with ⟨hi, -⟩ | ⟨hi, -⟩
    · exact h.lt i hi
    · exact h'.lt i hi
  · by_cases h1 : i ∈ s <;> by_cases h2 : i ∈ s' <;> simp [Finset.mem_symmDiff, h1, h2]

theorem Represents.toggleAll (h : Represents size m s u) :
    Represents size (m.toggleAll size) (Finset.range size \ s) (!u) := by
  refine h.zip h (fun x _ => !x) (fun j b r hr => ?_)
    (fun i hi => Finset.mem_range.mp (Finset.mem_sdiff.mp hi).1) fun i hi => by simp [Finset.mem_sdiff, hi]
  rw [BitVec.getLsbD_not, decide_eq_true hr, Bool.true_and]

theorem represents_setAll (m : BitMask log) (on : Bool) :
    Represents size (m.setAll size on) (if on then Finset.range size else ∅) on where
  lt i hi := by
    cases on
    · exact absurd hi (Finset.notMem_empty i)
    · exact Finset.mem_range.mp hi
  bit i hi := by
    rw [setAll, bitAt_mapWords hi]
    have hlt := Nat.mod_lt i (Nat.two_pow_pos log)
    cases on
    · simp
    · rw [if_pos rfl, if_pos rfl, BitVec.getLsbD_not, BitVec.getLsbD_zero, decide_eq_true hlt]
      by_cases hs : i < size <;> simp [hs]

/-- Every program keeps the unused bits alike. -/
theorem run_represents (junk : BitMask log) (p : Program size) :
    Represents size (run junk p) (subset p) (unused p) := by
  induction p with
  | empty => exact represents_setAll junk false
  | const on => exact represents_setAll junk on
  | setOn p n ih => exact ih.setOn n.isLt
  | setOff p n ih => exact ih.setOff n.isLt
  | set p n on ih => exact ih.set n.isLt on
  | toggle p n ih => exact ih.toggle n.isLt
  | setAllOn p ih => exact represents_setAll (run junk p) true
  | setAllOff p ih => exact represents_setAll (run junk p) false
  | setAll p on ih => exact represents_setAll (run junk p) on
  | toggleAll p ih => exact ih.toggleAll
  | and p q ihp ihq => exact ihp.and ihq
  | or p q ihp ihq => exact ihp.or ihq
  | sub p q ihp ihq => exact ihp.sub ihq
  | xor p q ihp ihq => exact ihp.xor ihq
  | not p ih => exact ih.toggleAll

end Representation
end BitMask
end Zpc
