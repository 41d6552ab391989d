import Mathlib.Data.List.Basic
import Mathlib.Tactic.Linarith
import Mathlib.Tactic.Ring

/-!
# Index ranges and chunk views

Every iterator gives its own equality, advance and distance, and the interface derives the operators from them. Index and
difference types are integers here: nothing is said about values that overflow.
-/
namespace Zpc.Iter
/-- What an iterator implements. -/
class RandomAccess (It : Type) where
  equalTo : It → It → Bool
  advance : It → ℤ → It
  distanceTo : It → It → ℤ

section Interface
variable {It : Type} [RandomAccess It]

/-- `left == right`. -/
def eq (left right : It) : Bool := RandomAccess.equalTo left right

/-- `left != right`. -/
def ne (left right : It) : Bool := !RandomAccess.equalTo left right

/-- `it + offset`. -/
def add (it : It) (offset : ℤ) : It := RandomAccess.advance it offset

/-- `++it`, which adds one. -/
def incr (it : It) : It := add it 1

/-- `left - right`. -/
def sub (left right : It) : ℤ := RandomAccess.distanceTo right left

/-- The loop `for (it = begin; it != end; ++it)`, the iterators it visits. -/
def loop (last : It) : ℕ → It → Option (List It)
  | 0, _ => none
  | n + 1, it => if ne it last then (loop last n (incr it)).map (it :: ·) else some []

/-- The laws of a range of `len` steps, over the iterators from its begin to its end. -/
structure Laws (first last : It) (len : ℕ) : Prop where
  eq_iff : ∀ m ≤ len, ∀ n ≤ len, eq (incr^[m] first) (incr^[n] first) = true ↔ m = n
  add_sub : ∀ m ≤ len, ∀ n : ℤ, 0 ≤ m + n → m + n ≤ len → sub (add (incr^[m] first) n) (incr^[m] first) = n
  nonneg : 0 ≤ sub last first
  reaches : eq (incr^[(sub last first).toNat] first) last = true
  exactly : ∀ n < (sub last first).toNat, eq (incr^[n] first) last = false

end Interface

section Index
structure IndexIterator where
  base : ℤ
  stride : ℤ

instance : RandomAccess IndexIterator where
  equalTo it other := it.base == other.base
  advance it offset := {it with base := it.base + it.stride * offset}
  distanceTo it other := other.base - it.base

/-- The begin of `range(begin, end, increment)`. -/
def rangeBegin (begin increment : ℤ) : IndexIterator := ⟨begin, increment⟩

/-- Its end, at the actual end. -/
def rangeEnd (begin «end» increment : ℤ) : IndexIterator := ⟨«end» - («end» - begin).tmod increment, increment⟩

/-- The increment is not zero and points from the begin to the end. -/
def Points (begin «end» increment : ℤ) : Prop := 0 < increment ∧ begin ≤ «end» ∨ increment < 0 ∧ «end» ≤ begin

/-- The number of whole steps from the begin to the end. -/
def rangeSteps (begin «end» increment : ℤ) : ℕ := («end» - begin).natAbs / increment.natAbs

variable {b e i : ℤ}

theorem incr_iterate_index (b i : ℤ) (n : ℕ) : incr^[n] (rangeBegin b i) = ⟨b + i * n, i⟩ := by
  induction n with
  | zero =>
    rw [Function.iterate_zero, id, Nat.cast_zero, Int.mul_zero, Int.add_zero]
    rfl
  | succ n ih =>
    rw [Function.iterate_succ_apply', ih]
    show IndexIterator.mk (b + i * n + i * 1) i = _
    rw [Nat.cast_succ, Int.mul_one, Int.mul_add, Int.mul_one, Int.add_assoc]

/-- The distance from the begin to the actual end is the increment times the number of steps. -/
theorem rangeEnd_base (h : Points b e i) : (rangeEnd b e i).base = b + i * rangeSteps b e i := by
  have hdiv := Int.tmod_add_mul_tdiv (e - b) i
  have hsteps : (rangeSteps b e i : ℤ) = (e - b).tdiv i := by
    rw [rangeSteps, Int.ofNat_tdiv]
    rcases h with ⟨hi, hbe⟩ | ⟨hi, hbe⟩
    · rw [Int.natAbs_of_nonneg (by omega), Int.natAbs_of_nonneg hi.le]
    · rw [Int.ofNat_natAbs_of_nonpos (by omega), Int.ofNat_natAbs_of_nonpos hi.le, Int.neg_tdiv_neg]
  rw [hsteps, rangeEnd]
  show e - (e - b).tmod i = b + i * (e - b).tdiv i
  omega

theorem Points.ne_zero (h : Points b e i) : i ≠ 0 := by
  rcases h with ⟨hi, -⟩ | ⟨hi, -⟩
  · exact hi.ne'
  · exact hi.ne

theorem sub_add_index (b i : ℤ) (m : ℕ) (n : ℤ) :
    sub (add (incr^[m] (rangeBegin b i)) n) (incr^[m] (rangeBegin b i)) = i * n := by
  rw [incr_iterate_index]
  show b + i * m + i * n - (b + i * m) = i * n
  omega

theorem sub_rangeEnd (h : Points b e i) : sub (rangeEnd b e i) (rangeBegin b i) = i * rangeSteps b e i := by
  show (rangeEnd b e i).base - b = _
  rw [rangeEnd_base h]
  omega

theorem eq_iterate_iff (h : Points b e i) (m n : ℕ) :
    eq (incr^[m] (rangeBegin b i)) (incr^[n] (rangeBegin b i)) = true ↔ m = n := by
  rw [incr_iterate_index, incr_iterate_index]
  show (b + i * m == b + i * n) = true ↔ m = n
  rw [beq_iff_eq]
  constructor
  · intro hmn
    exact_mod_cast Int.eq_of_mul_eq_mul_left h.ne_zero (Int.add_left_cancel hmn)
  · rintro rfl
    rfl

theorem rangeEnd_eq (h : Points b e i) : rangeEnd b e i = incr^[rangeSteps b e i] (rangeBegin b i) := by
  rw [incr_iterate_index, ← rangeEnd_base h]
  rfl

theorem rangeSteps_eq_zero_iff (h : Points b e i) : rangeSteps b e i = 0 ↔ (e - b).natAbs < i.natAbs := by
  rw [rangeSteps, Nat.div_eq_zero_iff_lt (Int.natAbs_pos.mpr h.ne_zero)]

/-- The iterators of an index range obey the laws when the increment is one, or when the range is empty. -/
theorem range_laws_iff (h : Points b e i) :
    Laws (rangeBegin b i) (rangeEnd b e i) (rangeSteps b e i) ↔ i = 1 ∨ (e - b).natAbs < i.natAbs := by
  rw [← rangeSteps_eq_zero_iff h]
  constructor
  · intro hlaws
    rcases Nat.eq_zero_or_pos (rangeSteps b e i) with hzero | hpos
    · exact Or.inr hzero
    · have := hlaws.add_sub 0 (Nat.zero_le _) 1 (by omega) (by omega)
      rw [sub_add_index] at this
      omega
  · intro hcase
    have hstep : ∀ n : ℤ, 0 ≤ n → n ≤ rangeSteps b e i → i * n = n := by
      intro n hn hle
      rcases hcase with rfl | hzero
      · exact Int.one_mul n
      · rw [show n = 0 by omega, Int.mul_zero]
    have hlen : (sub (rangeEnd b e i) (rangeBegin b i)).toNat = rangeSteps b e i := by
      rw [sub_rangeEnd h, hstep _ (by omega) le_rfl, Int.toNat_natCast]
    refine ⟨fun m _ n _ => eq_iterate_iff h m n, fun m hm n hn hmn => ?_, ?_, ?_, fun n hn => ?_⟩
    · rw [sub_add_index]
      rcases hcase with rfl | hzero
      · exact Int.one_mul n
      · rw [show n = 0 by omega, Int.mul_zero]
    · rw [sub_rangeEnd h, hstep _ (by omega) le_rfl]
      exact Int.natCast_nonneg _
    · rw [hlen, rangeEnd_eq h]
      exact (eq_iterate_iff h _ _).mpr rfl
    · rw [hlen] at hn
      rw [rangeEnd_eq h, ← Bool.not_eq_true, eq_iterate_iff h]
      exact hn.ne

end Index

section Chunk
variable {α : Type}

/-- An iterator of `chunk_view`; the iterators of the original range are the positions in it. -/
structure ChunkIterator where
  originalIter : ℤ
  originalSize : ℤ
  chunkNo : ℤ
  chunkSize : ℤ

/-- The sources compare the chunk number of the argument with itself. -/
instance : RandomAccess ChunkIterator where
  equalTo _ it := it.chunkNo == it.chunkNo
  advance it offset := {it with chunkNo := it.chunkNo + offset}
  distanceTo it other := other.chunkNo - it.chunkNo

/-- The sub-range that a chunk iterator refers to, by its two iterators. -/
def ChunkIterator.dereference (it : ChunkIterator) : ℤ × ℤ :=
  let st := it.chunkNo * it.chunkSize
  let ed := st + it.chunkSize
  let ed := if ed > it.originalSize then it.originalSize else ed
  (it.originalIter + st, it.originalIter + ed)

/-- The elements of a range between two of its iterators. -/
def elements (xs : List α) (r : ℤ × ℤ) : List α := (xs.drop r.1.toNat).take (r.2 - r.1).toNat

def chunkBegin (xs : List α) (chunkSize : ℤ) : ChunkIterator := ⟨0, xs.length, 0, chunkSize⟩

def numRequiredChunks (xs : List α) (chunkSize : ℤ) : ℤ := (xs.length + chunkSize - 1).tdiv chunkSize

def chunkEnd (xs : List α) (chunkSize : ℤ) : ChunkIterator :=
  ⟨0, xs.length, numRequiredChunks xs chunkSize, chunkSize⟩

/-- The laws of a chunk view: those of its iterators, and the chunks that a loop visits, joined, are the range. -/
structure ChunkLaws (xs : List α) (chunkSize : ℤ) : Prop where
  laws : Laws (chunkBegin xs chunkSize) (chunkEnd xs chunkSize) (numRequiredChunks xs chunkSize).toNat
  joined : ∃ n its, loop (chunkEnd xs chunkSize) n (chunkBegin xs chunkSize) = some its ∧
    its.flatMap (fun it => elements xs it.dereference) = xs

variable {xs : List α} {c : ℤ}

/-- Any two chunk iterators compare equal. -/
theorem eq_chunk (it other : ChunkIterator) : eq it other = true := beq_self_eq_true _

theorem ne_chunk (it other : ChunkIterator) : ne it other = false := by
  rw [ne, Bool.not_eq_false']
  exact eq_chunk it other

/-- A loop over a chunk view visits no chunk. -/
theorem loop_chunk {n : ℕ} {its : List ChunkIterator} {first last : ChunkIterator} (h : loop last n first = some its) :
    its = [] := by
  cases n with
  | zero => cases h
  | succ n =>
    rw [loop, ne_chunk, if_neg Bool.false_ne_true] at h
    exact (Option.some.inj h).symm

theorem incr_iterate_chunk (it : ChunkIterator) (n : ℕ) : incr^[n] it = {it with chunkNo := it.chunkNo + n} := by
  induction n with
  | zero =>
    rw [Function.iterate_zero, id, Nat.cast_zero, Int.add_zero]
  | succ n ih =>
    rw [Function.iterate_succ_apply', ih]
    show ChunkIterator.mk _ _ (it.chunkNo + n + 1) _ = _
    rw [Int.add_assoc, Nat.cast_succ]

/-- A chunk view obeys the laws when the original range is empty. -/
theorem chunk_laws_iff (hc : 0 < c) : ChunkLaws xs c ↔ xs = [] := by
  constructor
  · intro h
    obtain ⟨n, its, hloop, hjoined⟩ := h.joined
    rw [loop_chunk hloop] at hjoined
    exact hjoined.symm
  · rintro rfl
    have hnum : numRequiredChunks ([] : List α) c = 0 := by
      rw [numRequiredChunks]
      exact Int.tdiv_eq_zero_of_lt (by simp; omega) (by simp)
    refine ⟨⟨fun m hm n hn => ?_, fun m hm n hn hmn => ?_, ?_, eq_chunk _ _, fun n hn => ?_⟩, 1, [], ?_, rfl⟩
    · rw [hnum] at hm hn
      rw [eq_chunk, Nat.le_zero.mp hm, Nat.le_zero.mp hn]
      exact iff_of_true rfl rfl
    · rw [incr_iterate_chunk]
      show _ + n - _ = n
      omega
    · show 0 ≤ numRequiredChunks ([] : List α) c - 0
      omega
    · exfalso
      have : sub (chunkEnd ([] : List α) c) (chunkBegin ([] : List α) c) = 0 := by
        show numRequiredChunks ([] : List α) c - 0 = 0
        omega
      omega
    · rw [loop, ne_chunk, if_neg Bool.false_ne_true]

end Chunk

/-- When ranges and chunk views obey the random-access laws. -/
theorem random_access_laws_iff {b e i : ℤ} (h : Points b e i) {α : Type} (xs : List α) {c : ℤ} (hc : 0 < c) :
    (Laws (rangeBegin b i) (rangeEnd b e i) (rangeSteps b e i) ↔ i = 1 ∨ (e - b).natAbs < i.natAbs) ∧
    (ChunkLaws xs c ↔ xs = []) :=
  ⟨range_laws_iff h, chunk_laws_iff hc⟩

theorem not_laws_stride_two : Points 0 6 2 ∧ ¬ Laws (rangeBegin 0 2) (rangeEnd 0 6 2) (rangeSteps 0 6 2) ∧
    ¬ ChunkLaws ['a', 'b', 'c'] 2 := by
  have hpoints : Points 0 6 2 := Or.inl (by decide)
  refine ⟨hpoints, ?_, ?_⟩
  · rw [range_laws_iff hpoints]
    decide
  · rw [chunk_laws_iff (by decide)]
    decide

theorem random_access_laws_unit : Points 2 5 1 ∧ Laws (rangeBegin 2 1) (rangeEnd 2 5 1) (rangeSteps 2 5 1) ∧
    ChunkLaws ([] : List ℕ) 4 :=
  have hpoints : Points 2 5 1 := Or.inl (by decide)
  have hl := random_access_laws_iff hpoints ([] : List ℕ) (by decide : (0 : ℤ) < 4)
  ⟨hpoints, hl.1.mpr (Or.inl rfl), hl.2.mpr rfl⟩

end Zpc.Iter
