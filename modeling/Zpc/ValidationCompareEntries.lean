import Zpc.ValidationCompare
import Mathlib.Tactic.Linarith

/-!
# The entries of a comparison

A comparison lists what the greedy matching pairs, in the order of the baseline records, and
then the current records that are left. Its counts and its verdict are read off that list.
-/
namespace Zpc.ValidationCompare
open GreedyMatching

variable {D : Type} {s : ValidationDiffStatus}

/-- How the measurements change the status of a pair. -/
def merge (s : ValidationDiffStatus) (ds : List (ValidationMeasurementDiff D)) : ValidationDiffStatus :=
  ds.foldl (fun s d =>
    if d.status = .regressed then .regressed
    else if d.status = .improved ∧ s = .unchanged then .improved
    else s) s

theorem foldl_push {ι : Type} {f : ι → ValidationMeasurementDiff D} {is : List ι} {diff : ValidationRecordDiff D} :
    is.foldl (fun d i => { d with measurements := d.measurements ++ [f i] }) diff =
      { diff with measurements := diff.measurements ++ is.map f } := by
  induction is generalizing diff with
  | nil => simp
  | cons i is ih =>
    rw [List.foldl_cons, ih]
    simp

def ValidationComparisonSummary.count (s : ValidationComparisonSummary) : ValidationDiffStatus → ℕ
  | .unchanged => s.unchanged
  | .improved => s.improved
  | .regressed => s.regressed
  | .added => s.added
  | .removed => s.removed

variable [Zero D] [Add D] [Sub D] [LE D] [DecidableLE D]

theorem foldl_observeMeasurement {current : List (ValidationMeasurement D)}
    {ps : List (ValidationMeasurement D × Option (Fin current.length))} {diff : ValidationRecordDiff D} :
    ps.foldl (fun d p => observeMeasurement current d p.1 p.2) diff =
      let ds := ps.map fun p => compareValidationMeasurement (some p.1) (p.2.map current.get)
      { diff with status := merge diff.status ds, measurements := diff.measurements ++ ds } := by
  induction ps generalizing diff with
  | nil => simp [merge]
  | cons p ps ih =>
    rw [List.foldl_cons, ih]
    simp [observeMeasurement, merge]

@[simp] theorem compareValidationRecord_hasBaseline (b c : Option (ValidationRecord D)) :
    (compareValidationRecord b c).hasBaseline = b.isSome := by
  cases b <;> cases c <;>
    simp [compareValidationRecord, foldl_eq (observeMeasurement _), foldl_observeMeasurement, foldl_push]

@[simp] theorem compareValidationRecord_hasCurrent (b c : Option (ValidationRecord D)) :
    (compareValidationRecord b c).hasCurrent = c.isSome := by
  cases b <;> cases c <;>
    simp [compareValidationRecord, foldl_eq (observeMeasurement _), foldl_observeMeasurement, foldl_push]

/-- The entries: what is paired, what is missing, what is new. -/
def entries (baseline current : ValidationSuiteReport D) : List (ValidationRecordDiff D) :=
  (pairs validationRecordIdentityEqual current.records baseline.records).map fun p =>
    compareValidationRecord (p.1.map baseline.records.get) (p.2.map current.records.get)

end Zpc.ValidationCompare
