import Zpc.SparseMatrix

/-!
# Products of a sparse matrix and a vector over semirings

`spmv` and `spmv_mask` of `SparseMatrixOperations.hpp` with the preset semirings over signed
64-bit integers. The kernels only read the matrix and the vector, and write by atomic
updates: what they leave is what the updates make in some order. A computation that leaves
the pointers of the matrix, or overflows an `int`, has no result. The vectors are of the
sizes that are asked for.
-/
namespace Zpc.Spmv
inductive SemiringKind
  | plusTimes
  | boolean
  | minPlus
  | maxPlus
  | minTimes
  | maxTimes
  deriving DecidableEq

def numericMax : ℤ := 2 ^ 63 - 1

def numericLowest : ℤ := -2 ^ 63

def wrap64 (x : ℤ) : ℤ := x.bmod (2 ^ 64)

/-- Conversion to `int`. -/
def toInt (x : ℤ) : ℤ := x.bmod (2 ^ 32)

def FitsInt (x : ℤ) : Prop := -2 ^ 31 ≤ x ∧ x < 2 ^ 31

instance (x : ℤ) : Decidable (FitsInt x) := inferInstanceAs (Decidable (_ ∧ _))

def identity : SemiringKind → ℤ
  | .plusTimes | .boolean => 0
  | .minPlus | .minTimes => numericMax
  | .maxPlus | .maxTimes => numericLowest

def add : SemiringKind → ℤ → ℤ → Option ℤ
  | .plusTimes, a, b => if FitsInt (a + b) then some (a + b) else none
  | .boolean, a, b => some (if a ≠ 0 ∨ b ≠ 0 then 1 else 0)
  | .minPlus, a, b | .minTimes, a, b => some (min (min numericMax a) b)
  | .maxPlus, a, b | .maxTimes, a, b => some (max (max numericLowest a) b)

/-- The atomic operation that goes with the monoid. -/
def atomicUpdate : SemiringKind → ℤ → ℤ → ℤ
  | .plusTimes, a, b => wrap64 (a + b)
  | .boolean, a, b => (BitVec.ofInt 64 a ||| BitVec.ofInt 64 b).toInt
  | .minPlus, a, b | .minTimes, a, b => if b < a then b else a
  | .maxPlus, a, b | .maxTimes, a, b => if a < b then b else a

abbrev Update := ℕ × ℤ

def apply (k : SemiringKind) (out : ℕ → ℤ) (u : Update) : ℕ → ℤ := Function.update out u.1 (atomicUpdate k (out u.1) u.2)

def line (m : SparseMatrix ℤ) (o : ℕ) : List (ℕ × ℤ) :=
  (List.range' (m.ptrs.get o) (m.ptrs.get (o + 1) - m.ptrs.get o)).map fun i => (m.inds.get i, m.vals.get i)

/-- The updates of the work items below `n`. -/
def collect (f : ℕ → Option (List Update)) : ℕ → Option (List Update)
  | 0 => some []
  | n + 1 => (collect f n).bind fun before => (f n).map (before ++ ·)

/-- After the first pass, which writes identities, the updates are made in any order. -/
def Leaves (k : SemiringKind) (n : ℕ) (updates : Option (List Update)) (out : ℕ → ℤ) : Prop :=
  ∃ us, updates = some us ∧ ∀ order : List Update, order.Perm us → ∀ i < n,
    order.foldl (apply k) (fun _ => identity k) i = out i

section Specification
/-- The sum of the semiring, on integers. -/
def plus : SemiringKind → ℤ → ℤ → ℤ
  | .plusTimes => (· + ·)
  | .boolean => fun a b => if a ≠ 0 ∨ b ≠ 0 then 1 else 0
  | .minPlus | .minTimes => min
  | .maxPlus | .maxTimes => max

/-- The storage holds the matrix: each line has the entries of a row, or of a column, once. -/
structure Stores (m : SparseMatrix ℤ) (A : ℕ → ℕ → Option ℤ) : Prop where
  size : m.ptrs.size = (if m.rowMajor then m.nrows else m.ncols) + 1
  nodup : ∀ o, ((line m o).map (·.1)).Nodup
  mem : ∀ o < (if m.rowMajor then m.nrows else m.ncols), ∀ p a, (p, a) ∈ line m o ↔
    p < (if m.rowMajor then m.ncols else m.nrows) ∧ (if m.rowMajor then A o p else A p o) = some a

def InRange (x : ℤ) : Prop := numericLowest ≤ x ∧ x ≤ numericMax

end Specification

section Updates
variable {k : SemiringKind} {f : ℕ → Option (List Update)} {n i : ℕ}

theorem atomicUpdate_right_comm (k : SemiringKind) (a b c : ℤ) :
    atomicUpdate k (atomicUpdate k a b) c = atomicUpdate k (atomicUpdate k a c) b := by
  cases k with
  | plusTimes =>
    show wrap64 (wrap64 (a + b) + c) = wrap64 (wrap64 (a + c) + b)
    unfold wrap64
    rw [Int.bmod_add_bmod, Int.bmod_add_bmod, Int.add_right_comm]
  | boolean =>
    show (BitVec.ofInt 64 (BitVec.toInt _) ||| _).toInt = (BitVec.ofInt 64 (BitVec.toInt _) ||| _).toInt
    rw [BitVec.ofInt_toInt, BitVec.ofInt_toInt, BitVec.or_assoc, BitVec.or_comm (BitVec.ofInt 64 b), ← BitVec.or_assoc]
  | minPlus | minTimes | maxPlus | maxTimes =>
    simp only [atomicUpdate]
    split_ifs <;> omega

instance (k : SemiringKind) : RightCommutative (atomicUpdate k) := ⟨atomicUpdate_right_comm k⟩

end Updates

section Arithmetic
variable {k : SemiringKind} {a b c : ℤ}

theorem plus_right_comm (k : SemiringKind) (a b c : ℤ) : plus k (plus k a b) c = plus k (plus k a c) b := by
  cases k with
  | plusTimes => exact Int.add_right_comm a b c
  | boolean =>
    simp only [plus]
    split_ifs <;> omega
  | minPlus | minTimes => exact min_right_comm a b c
  | maxPlus | maxTimes => exact max_right_comm a b c

instance (k : SemiringKind) : RightCommutative (plus k) := ⟨plus_right_comm k⟩

/-- The values that occur with a semiring other than `plus_times`. -/
def Proper : SemiringKind → ℤ → Prop
  | .boolean, a => a = 0 ∨ a = 1
  | _, a => InRange a

theorem add_eq (hk : k ≠ .plusTimes) (ha : Proper k a) : add k a b = some (plus k a b) := by
  cases k with
  | plusTimes => exact absurd rfl hk
  | boolean => rfl
  | minPlus | minTimes => exact congrArg (fun x => some (min x b)) (min_eq_right ha.2)
  | maxPlus | maxTimes => exact congrArg (fun x => some (max x b)) (max_eq_right ha.1)

end Arithmetic

section Storage
variable {A : ℕ → ℕ → Option ℤ} {r c : SparseMatrix ℤ} {i : ℕ}

/-- The entries of a row of the matrix. -/
def entries (A : ℕ → ℕ → Option ℤ) (i n : ℕ) : List (ℕ × ℤ) := (List.range n).filterMap fun j => (A i j).map (j, ·)

theorem mem_entries {n p : ℕ} {a : ℤ} : (p, a) ∈ entries A i n ↔ p < n ∧ A i p = some a := by
  simp only [entries, List.mem_filterMap, List.mem_range, Option.map_eq_some_iff, Prod.mk.injEq]
  constructor
  · rintro ⟨j, hj, b, hb, rfl, rfl⟩
    exact ⟨hj, hb⟩
  · rintro ⟨hp, ha⟩
    exact ⟨p, hp, a, ha, rfl, rfl⟩

end Storage

section Kernels
variable {k : SemiringKind} {A : ℕ → ℕ → Option ℤ} {v : ℕ → ℤ} {mask : ℕ → Bool} {r c : SparseMatrix ℤ} {n : ℕ}
  {out : ℕ → ℤ}

end Kernels

section Product
variable {k : SemiringKind} {A : ℕ → ℕ → Option ℤ} {v : ℕ → ℤ} {mask : ℕ → Bool} {r c : SparseMatrix ℤ} {i : ℕ}

end Product

section Example
def single (rowMajor : Bool) (a : ℤ) : SparseMatrix ℤ := ⟨rowMajor, 1, 1, ⟨2, id⟩, ⟨1, fun _ => 0⟩, ⟨1, fun _ => a⟩⟩

end Example

end Zpc.Spmv
