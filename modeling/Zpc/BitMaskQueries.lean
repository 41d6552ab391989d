import Zpc.BitMask

/-!
# Answers of bit masks

What a mask answers is what its subset answers, except where the unused bits of the last word are counted, compared or
tested along with the others.
-/
namespace Zpc.BitMask
open WordBits

variable {log size : ℕ}

section Search
variable {f : ℕ → BitVec (2 ^ log)} {start n left r total : ℕ} {b : BitVec (2 ^ log)}

theorem shiftLeft_eq (log n : ℕ) : n <<< log = 2 ^ log * n := by
  rw [Nat.shiftLeft_eq, Nat.mul_comm]

theorem nextLoop_spec (h : Seeking f start n b) (hn : n + 1 + left = total) :
    Next (bitAt f) (2 ^ log * total) size start (if (nextLoop f left n b).2 = 0#(2 ^ log) then size
      else ((nextLoop f left n b).1 <<< log) + trailingZeros (nextLoop f left n b).2) := by
  induction left generalizing n b with
  | zero =>
    rw [nextLoop]
    by_cases hb : b = 0#(2 ^ log)
    · subst hb
      rw [if_pos rfl, ← hn]
      exact .inr ⟨rfl, h.none_before⟩
    · rw [if_neg hb, shiftLeft_eq]
      exact h.found hb (by omega)
  | succ left ih =>
    rw [nextLoop]
    by_cases hb : b = 0#(2 ^ log)
    · subst hb
      rw [if_pos rfl]
      exact ih h.next (by omega)
    · rw [if_neg hb, if_neg hb, shiftLeft_eq]
      exact h.found hb (by omega)

theorem firstLoop_spec (h : ∀ i < 2 ^ log * n, bitAt f i = false) (hn : n + left = total) :
    Next (bitAt f) (2 ^ log * total) size 0
      (if firstLoop f left n = total then size
        else ((firstLoop f left n) <<< log) + trailingZeros (f (firstLoop f left n))) := by
  induction left generalizing n with
  | zero =>
    obtain rfl : n = total := hn
    rw [firstLoop, if_pos rfl]
    exact .inr ⟨rfl, fun i _ hi => h i hi⟩
  | succ left ih =>
    have hseek : Seeking f 0 n (f n) := by
      refine ⟨fun i _ hi => h i hi, Nat.mul_pos (Nat.two_pow_pos log) (Nat.succ_pos n), fun r _ => ?_⟩
      rw [decide_eq_true (Nat.zero_le _), Bool.true_and]
    rw [firstLoop]
    by_cases hb : f n = 0#(2 ^ log)
    · rw [if_pos hb]
      rw [hb] at hseek
      exact ih (fun i hi => hseek.none_before i (Nat.zero_le i) hi) (by omega)
    · rw [if_neg hb, if_neg (by omega), shiftLeft_eq]
      exact hseek.found hb (by omega)

theorem findFirst_spec (size : ℕ) (f : ℕ → BitVec (2 ^ log)) :
    Next (bitAt f) (2 ^ log * wordCount log size) size 0 (findFirst size f) :=
  firstLoop_spec (fun i hi => absurd hi (Nat.not_lt_zero i)) (Nat.zero_add _)

theorem and_bitOf_eq_zero (b : BitVec (2 ^ log)) (n : ℕ) :
    b &&& bitOf log n = 0#(2 ^ log) ↔ b.getLsbD (n % 2 ^ log) = false := by
  have hmod := Nat.mod_lt n (Nat.two_pow_pos log)
  rw [eq_zero_iff]
  constructor
  · intro h
    have hbit := h _ hmod
    rwa [BitVec.getLsbD_and, getLsbD_bitOf hmod, decide_eq_true rfl, Bool.and_true] at hbit
  · intro h r hr
    rw [BitVec.getLsbD_and, getLsbD_bitOf hr]
    by_cases hrn : r = n % 2 ^ log
    · rw [hrn, h, Bool.false_and]
    · rw [decide_eq_false hrn, Bool.and_false]

theorem findNext_spec (size : ℕ) (f : ℕ → BitVec (2 ^ log)) (start : ℕ) :
    Next (bitAt f) (2 ^ log * wordCount log size) size start (findNext size f start) := by
  have hpos := Nat.two_pow_pos log
  rcases Nat.lt_or_ge start (2 ^ log * wordCount log size) with hs | hs
  case inr =>
    have hout : wordCount log size ≤ start >>> log := by
      rw [shiftRight_eq, Nat.le_div_iff_mul_le hpos, Nat.mul_comm]
      exact hs
    rw [findNext, if_pos hout]
    exact .inr ⟨rfl, fun i hi hlt => by omega⟩
  have hn : start / 2 ^ log < wordCount log size := div_lt_of_lt hs
  have hdiv := Nat.div_add_mod start (2 ^ log)
  have hmod := Nat.mod_lt start hpos
  rw [findNext, shiftRight_eq, if_neg (by omega)]
  by_cases hbit : f (start / 2 ^ log) &&& bitOf log start = 0#(2 ^ log)
  · rw [if_neg (not_not.mpr hbit)]
    refine nextLoop_spec ⟨fun i hi hlt => by omega, by rw [Nat.mul_succ]; omega, fun r hr => ?_⟩ (by omega)
    rw [BitVec.getLsbD_and, BitVec.getLsbD_shiftLeft, BitVec.getLsbD_not, BitVec.getLsbD_zero, and_wordMask,
      decide_eq_true hr, Bool.and_comm]
    by_cases hle : start % 2 ^ log ≤ r
    · simp [show start ≤ 2 ^ log * (start / 2 ^ log) + r by omega, hle, show r - start % 2 ^ log < 2 ^ log by omega]
    · simp [show ¬ start ≤ 2 ^ log * (start / 2 ^ log) + r by omega, hle]
  · rw [if_pos hbit]
    rw [and_bitOf_eq_zero, Bool.not_eq_false] at hbit
    exact .inl ⟨le_rfl, hs, hbit, fun i hi hlt => by omega⟩

/-- What a search finds where the unused bits are alike: the next element, or the size. -/
theorem next_eq {B : ℕ → Bool} {s : Finset ℕ} {u : Bool} (hB : ∀ i < total, B i = if i < size then decide (i ∈ s) else u)
    (hlt : ∀ i ∈ s, i < size) (htotal : size ≤ total) (hs : start ≤ size) (h : Next B total size start r) :
    r = nextIn size s start := by
  have hin : ∀ i < size, B i = decide (i ∈ s) := fun i hi => (hB i (hi.trans_le htotal)).trans (if_pos hi)
  rw [nextIn]
  split
  next hne =>
    obtain ⟨hmem, hle⟩ := Finset.mem_filter.mp (Finset.min'_mem _ hne)
    have hmin := hlt _ hmem
    have hon := (hin _ hmin).trans (decide_eq_true hmem)
    rcases h with ⟨hsr, hr, hbit, hnone⟩ | ⟨-, hnone⟩
    · refine Nat.le_antisymm (Nat.le_of_not_lt fun hgt => ?_) ?_
      · rw [hnone _ hle hgt] at hon
        cases hon
      · by_cases hrs : r < size
        · rw [hin r hrs] at hbit
          exact Finset.min'_le _ _ (Finset.mem_filter.mpr ⟨of_decide_eq_true hbit, hsr⟩)
        · omega
    · rw [hnone _ hle (hmin.trans_le htotal)] at hon
      cases hon
  next hempty =>
    have hout : ∀ i ∈ s, ¬ start ≤ i := fun i hi hle => hempty ⟨i, Finset.mem_filter.mpr ⟨hi, hle⟩⟩
    rcases h with ⟨hsr, hr, hbit, hnone⟩ | ⟨he, -⟩
    · refine Nat.le_antisymm (Nat.le_of_not_lt fun hgt => ?_) (Nat.le_of_not_lt fun hrs => ?_)
      · have hsize := hnone size hs hgt
        rw [hB size (by omega), if_neg (lt_irrefl size)] at hsize
        rw [hB r hr, if_neg (by omega), hsize] at hbit
        cases hbit
      · rw [hin r hrs] at hbit
        exact hout r (of_decide_eq_true hbit) hsr
    · exact he

end Search

section Queries
variable {m other : BitMask log} {s s' : Finset ℕ} {u u' : Bool} {n k start : ℕ}

theorem Represents.bitAt_eq (h : Represents size m s u) (hn : n < size) : bitAt m.words n = decide (n ∈ s) :=
  (h.bit n (hn.trans_le (size_le_bits log size))).trans (if_pos hn)

theorem Represents.isOn (h : Represents size m s u) (hn : n < size) : m.isOn n = decide (n ∈ s) := by
  rw [← h.bitAt_eq hn, BitMask.isOn, shiftRight_eq, bitAt]
  cases hbit : (m.words (n / 2 ^ log)).getLsbD (n % 2 ^ log) with
  | false => rw [bne_eq_false_iff_eq, and_bitOf_eq_zero, hbit]
  | true => rw [bne_iff_ne, ne_eq, and_bitOf_eq_zero, hbit, Bool.not_eq_false]

theorem size_lt_bits_iff (log size : ℕ) : size < 2 ^ log * wordCount log size ↔ ¬ 2 ^ log ∣ size := by
  have hle := size_le_bits log size
  rw [← bits_eq_iff]
  omega

/-- All bits have a value just when all elements do, and the unused bits as well. -/
theorem Represents.all_eq_iff (h : Represents size m s u) (v : Bool) :
    (∀ i < 2 ^ log * wordCount log size, bitAt m.words i = v) ↔
      (∀ i < size, decide (i ∈ s) = v) ∧ (2 ^ log ∣ size ∨ u = v) := by
  constructor
  · intro hall
    refine ⟨fun i hi => ?_, or_iff_not_imp_left.mpr fun hd => ?_⟩
    · rw [← h.bitAt_eq hi]
      exact hall i (hi.trans_le (size_le_bits log size))
    · have hlt := (size_lt_bits_iff log size).mpr hd
      rw [← hall size hlt, h.bit size hlt, if_neg (lt_irrefl size)]
  · rintro ⟨hin, hout⟩ i hi
    rw [h.bit i hi]
    split
    next hs => exact hin i hs
    next hs =>
      refine hout.resolve_left fun hd => hs ?_
      rwa [(bits_eq_iff log size).mpr hd] at hi

theorem Represents.full_iff (h : Represents size m s u) : (∀ i < size, decide (i ∈ s) = true) ↔ s = Finset.range size := by
  simp only [decide_eq_true_eq]
  constructor
  · exact fun hall => Finset.Subset.antisymm (fun i hi => Finset.mem_range.mpr (h.lt i hi))
      fun i hi => hall i (Finset.mem_range.mp hi)
  · rintro rfl i hi
    exact Finset.mem_range.mpr hi

theorem Represents.empty_iff (h : Represents size m s u) : (∀ i < size, decide (i ∈ s) = false) ↔ s = ∅ := by
  simp only [decide_eq_false_iff_not]
  constructor
  · exact fun hall => Finset.eq_empty_of_forall_notMem fun i hi => hall i (h.lt i hi) hi
  · rintro rfl i -
    exact Finset.notMem_empty i

theorem isAllOn_iff_bits (m : BitMask log) :
    m.isAllOn size = true ↔ ∀ i < 2 ^ log * wordCount log size, bitAt m.words i = true := by
  rw [isAllOn, List.all_eq_true, ← forall_words_iff (P := (· = true))]
  simp only [List.mem_range, beq_iff_eq]
  exact forall₂_congr fun j _ => by rw [BitVec.not_zero, eq_allOnes_iff]

theorem isAllOff_iff_bits (m : BitMask log) :
    m.isAllOff size = true ↔ ∀ i < 2 ^ log * wordCount log size, bitAt m.words i = false := by
  rw [isAllOff, List.all_eq_true, ← forall_words_iff (P := (· = false))]
  simp only [List.mem_range, beq_iff_eq]
  exact forall₂_congr fun j _ => eq_zero_iff

theorem Represents.isAllOn (h : Represents size m s u) :
    m.isAllOn size = true ↔ s = Finset.range size ∧ (2 ^ log ∣ size ∨ u = true) := by
  rw [isAllOn_iff_bits, h.all_eq_iff, h.full_iff]

theorem Represents.isAllOff (h : Represents size m s u) :
    m.isAllOff size = true ↔ s = ∅ ∧ (2 ^ log ∣ size ∨ u = false) := by
  rw [isAllOff_iff_bits, h.all_eq_iff, h.empty_iff]

theorem Represents.equal (h : Represents size m s u) (h' : Represents size other s' u') :
    m.equal size other = true ↔ s = s' ∧ (2 ^ log ∣ size ∨ u = u') := by
  have hbits : m.equal size other = true ↔
      ∀ i < 2 ^ log * wordCount log size, bitAt m.words i = bitAt other.words i := by
    rw [BitMask.equal, List.all_eq_true, ← words_eq_iff]
    simp only [List.mem_range, beq_iff_eq]
  rw [hbits]
  constructor
  · intro hall
    refine ⟨?_, or_iff_not_imp_left.mpr fun hd => ?_⟩
    · ext i
      by_cases hi : i < size
      · have hbit := hall i (hi.trans_le (size_le_bits log size))
        rw [h.bitAt_eq hi, h'.bitAt_eq hi] at hbit
        exact decide_eq_decide.mp hbit
      · exact iff_of_false (fun hm => hi (h.lt i hm)) fun hm => hi (h'.lt i hm)
    · have hlt := (size_lt_bits_iff log size).mpr hd
      have hbit := hall size hlt
      rwa [h.bit size hlt, h'.bit size hlt, if_neg (lt_irrefl size), if_neg (lt_irrefl size)] at hbit
  · rintro ⟨rfl, hout⟩ i hi
    rw [h.bit i hi, h'.bit i hi]
    split
    next => rfl
    next hs =>
      refine hout.resolve_left fun hd => hs ?_
      rwa [(bits_eq_iff log size).mpr hd] at hi

/-- The loop of `isConstant` compares the words with the first one. -/
theorem isConstant_eq (hs : 0 < size) (m : BitMask log) : m.isConstant size =
    if m.isAllOn size = true then some true else if m.isAllOff size = true then some false else none := by
  obtain ⟨c, hc⟩ : ∃ c, wordCount log size = c + 1 := by
    refine ⟨wordCount log size - 1, (Nat.sub_add_cancel (Nat.one_le_iff_ne_zero.mpr fun h0 => ?_)).symm⟩
    have hle := size_le_bits log size
    rw [h0] at hle
    omega
  have hhead : ∀ v : BitVec (2 ^ log), ((List.range (wordCount log size)).all fun j => m.words j == v) =
      (m.words 0 == v && (List.range (wordCount log size)).tail.all fun j => m.words j == v) := fun v => by
    rw [hc, List.range_succ_eq_map, List.all_cons, List.tail_cons]
  have hne : (0#(2 ^ log)) ≠ ~~~0#(2 ^ log) := fun he => by
    have hbit := congrArg (fun b : BitVec (2 ^ log) => b.getLsbD 0) he
    simp [Nat.two_pow_pos] at hbit
  rw [isConstant, isAllOn, isAllOff, hhead, hhead]
  by_cases hon : m.words 0 = ~~~0#(2 ^ log)
  · simp only [hon, beq_self_eq_true, Bool.not_true, Bool.false_and, Bool.false_eq_true, if_false, Bool.true_and]
    rw [beq_false_of_ne hne.symm, Bool.false_and]
    rfl
  · rw [beq_false_of_ne hon]
    by_cases hoff : m.words 0 = 0#(2 ^ log)
    · simp [hoff]
    · simp [hoff]

theorem countP_range (B : ℕ → Bool) (n : ℕ) :
    (List.range n).countP B = ((Finset.range n).filter fun i => B i = true).card := by
  rw [Finset.card, Finset.filter_val, Finset.range_val, ← Multiset.countP_eq_card_filter]
  refine (congrArg (List.countP · (List.range n)) (funext fun i => ?_)).trans
    (Multiset.coe_countP (fun i => B i = true) (List.range n)).symm
  exact Bool.decide_eq_true.symm

/-- The unused bits count when they are on. -/
theorem Represents.countOn (h : Represents size m s u) :
    m.countOn size = s.card + if u then 2 ^ log * wordCount log size - size else 0 := by
  have hle := size_le_bits log size
  have hset : (Finset.range (2 ^ log * wordCount log size)).filter (fun i => bitAt m.words i = true) =
      s ∪ if u then Finset.Ico size (2 ^ log * wordCount log size) else ∅ := by
    ext i
    rw [Finset.mem_filter, Finset.mem_range, Finset.mem_union]
    constructor
    · rintro ⟨hi, hbit⟩
      rw [h.bit i hi] at hbit
      split at hbit
      next => exact .inl (of_decide_eq_true hbit)
      next hs => exact .inr (by rw [if_pos hbit]; exact Finset.mem_Ico.mpr ⟨Nat.le_of_not_lt hs, hi⟩)
    · rintro (hi | hi)
      · have hlt := h.lt i hi
        exact ⟨hlt.trans_le hle, (h.bitAt_eq hlt).trans (decide_eq_true hi)⟩
      · split at hi
        next hu =>
          obtain ⟨hs, hi⟩ := Finset.mem_Ico.mp hi
          exact ⟨hi, (h.bit i hi).trans ((if_neg (Nat.not_lt.mpr hs)).trans hu)⟩
        next => exact absurd hi (Finset.notMem_empty i)
  have hdisj : Disjoint s (if u then Finset.Ico size (2 ^ log * wordCount log size) else ∅) := by
    refine Finset.disjoint_left.mpr fun i hi hmem => ?_
    split at hmem
    next => exact absurd (h.lt i hi) (Nat.not_lt.mpr (Finset.mem_Ico.mp hmem).1)
    next => exact Finset.notMem_empty i hmem
  rw [BitMask.countOn, sum_ones, countP_range, hset, Finset.card_union_of_disjoint hdisj]
  cases u with
  | false => simp
  | true =>
    rw [if_pos rfl, if_pos rfl, Nat.card_Ico, Nat.cast_add, Nat.cast_sub hle]

theorem Represents.countOffset (h : Represents size m s u) (hk : k ≤ size) :
    m.countOffset k = (s.filter (· < k)).card := by
  have hpos := Nat.two_pow_pos log
  have hmod := Nat.mod_lt k hpos
  have hlow : bitOf log k - 1#(2 ^ log) = (1#(2 ^ log) <<< (k % 2 ^ log)) - 1#(2 ^ log) := by
    rw [bitOf, and_wordMask]
  have hsplit := countP_range_mul_add (f := m.words) (k / 2 ^ log) (k % 2 ^ log) hmod.le
  rw [Nat.div_add_mod] at hsplit
  rw [BitMask.countOffset, shiftRight_eq, hlow, ones_and_low hmod, sum_ones, ← hsplit, countP_range]
  refine congrArg (fun t : Finset ℕ => (t.card : ℤ)) ?_
  ext i
  rw [Finset.mem_filter, Finset.mem_range, Finset.mem_filter, and_comm]
  refine and_congr_left fun hi => ?_
  rw [h.bitAt_eq (hi.trans_le hk), decide_eq_true_eq]

/-- The complement, as the searches for bits that are off see it. -/
theorem Represents.complement (h : Represents size m s u) :
    Represents size (⟨fun j => ~~~m.words j⟩ : BitMask log) (Finset.range size \ s) (!u) where
  lt i hi := Finset.mem_range.mp (Finset.mem_sdiff.mp hi).1
  bit i hi := by
    have hbit : bitAt (fun j => ~~~m.words j) i = !bitAt m.words i := by
      rw [bitAt, bitAt, BitVec.getLsbD_not, decide_eq_true (Nat.mod_lt i (Nat.two_pow_pos log)), Bool.true_and]
    rw [hbit, h.bit i hi]
    split
    next hs => simp [hs]
    next => rfl

theorem Represents.findFirstOn (h : Represents size m s u) : m.findFirstOn size = nextIn size s 0 :=
  next_eq h.bit h.lt (size_le_bits log size) (Nat.zero_le size) (findFirst_spec size m.words)

theorem Represents.findNextOn (h : Represents size m s u) (hs : start ≤ size) :
    m.findNextOn size start = nextIn size s start :=
  next_eq h.bit h.lt (size_le_bits log size) hs (findNext_spec size m.words start)

theorem Represents.countOn_eq_iff (h : Represents size m s u) :
    m.countOn size = s.card ↔ 2 ^ log ∣ size ∨ u = false := by
  have hle := size_le_bits log size
  rw [h.countOn, ← bits_eq_iff]
  cases u <;> simp
  omega

end Queries

section Result
variable {junk : BitMask log} {p : Program size}

theorem truth_eq_iff {b : Bool} {P : Prop} [Decidable P] : Answer.truth b = .truth (decide P) ↔ (b = true ↔ P) := by
  rw [Answer.truth.injEq]
  by_cases hP : P <;> simp [hP]

/-- A test that also asks for `d` or `c` is right exactly where `d` holds or the test being true gives `c`. -/
theorem test_iff {b : Bool} {P d c : Prop} (h : b = true ↔ P ∧ (d ∨ c)) : (b = true ↔ P) ↔ d ∨ (P → c) := by
  rw [h]
  tauto

/-- A mask answers a query as its subset does exactly when the size is a multiple of the word size or the unused bits
do not matter to the answer. -/
theorem ask_eq_answer_iff (junk : BitMask log) (p : Program size) (q : Query size) (hs : 0 < size) :
    ask junk (run junk p) q = answer p q ↔ 2 ^ log ∣ size ∨ Settled p q := by
  have h := run_represents junk p
  cases q with
  | isOn n =>
    refine iff_of_true ?_ (.inr trivial)
    rw [ask, answer, h.isOn n.isLt]
  | isOff n =>
    refine iff_of_true ?_ (.inr trivial)
    rw [ask, answer, BitMask.isOff, h.isOn n.isLt, decide_not]
  | isAllOn => exact truth_eq_iff.trans (test_iff h.isAllOn)
  | isAllOff => exact truth_eq_iff.trans (test_iff h.isAllOff)
  | isConstant =>
    have hon := test_iff h.isAllOn
    have hoff := test_iff h.isAllOff
    have hne : Finset.range size ≠ ∅ := fun he => absurd (Finset.range_eq_empty_iff.mp he) hs.ne'
    rw [ask, answer, Answer.constant.injEq, isConstant_eq hs, Settled, or_and_left, ← hon, ← hoff]
    by_cases hfull : subset p = Finset.range size
    · have hempty : subset p ≠ ∅ := hfull ▸ hne
      have hoff' : ¬ (run junk p).isAllOff size = true := fun h' => hempty (h.isAllOff.mp h').1
      by_cases ha : (run junk p).isAllOn size = true <;> simp [hfull, hne, ha, hoff']
    · have hon' : ¬ (run junk p).isAllOn size = true := fun h' => hfull (h.isAllOn.mp h').1
      by_cases he : subset p = ∅ <;> by_cases ha : (run junk p).isAllOff size = true
      all_goals simp [hfull, he, ha, hon', hne.symm]
  | equal other => exact truth_eq_iff.trans (test_iff (h.equal (run_represents junk other)))
  | notEqual other =>
    rw [ask, answer, Answer.truth.injEq, decide_not, Bool.not_inj_iff, ← Answer.truth.injEq]
    exact truth_eq_iff.trans (test_iff (h.equal (run_represents junk other)))
  | countOn => rw [ask, answer, Answer.number.injEq, h.countOn_eq_iff, Settled]
  | countOff =>
    rw [ask, answer, Answer.number.injEq, BitMask.countOff, sub_right_inj, h.countOn_eq_iff, Settled]
  | countOffset k hk =>
    refine iff_of_true ?_ (.inr trivial)
    rw [ask, answer, h.countOffset hk]
  | findFirstOn =>
    refine iff_of_true ?_ (.inr trivial)
    rw [ask, answer, h.findFirstOn]
  | findFirstOff =>
    refine iff_of_true ?_ (.inr trivial)
    rw [ask, answer, ← h.complement.findFirstOn]
    rfl
  | findNextOn start hstart =>
    refine iff_of_true ?_ (.inr trivial)
    rw [ask, answer, h.findNextOn hstart]
  | findNextOff start hstart =>
    refine iff_of_true ?_ (.inr trivial)
    rw [ask, answer, ← h.complement.findNextOn hstart]
    rfl

/-- A mask of three bits of which the last is on. -/
def lastOfThree : Program 3 := .setOn .empty 2

/-- A mask of three bits that is set on as a whole. -/
def allOfThree : Program 3 := .setAllOn .empty

theorem ask_eq_answer_iff_three : ask (⟨fun _ => 0⟩ : BitMask 6) (run ⟨fun _ => 0⟩ lastOfThree) (.countOn : Query 3) =
    answer lastOfThree .countOn ↔ 2 ^ 6 ∣ 3 ∨ Settled lastOfThree .countOn :=
  ask_eq_answer_iff ⟨fun _ => 0⟩ lastOfThree .countOn (by decide)

/-- Three bits set on at once are counted as 64. -/
theorem count_of_three_bits :
    ask (⟨fun _ => 0⟩ : BitMask 6) (run ⟨fun _ => 0⟩ allOfThree) (.countOn : Query 3) = .number 64 ∧
    answer allOfThree .countOn = .number 3 :=
  ⟨by decide +kernel, by decide +kernel⟩

end Result
end Zpc.BitMask
