import Zpc.GreedyMatching

/-!
# Comparing validation reports

The records of a baseline report are gone through in order, and each takes the first record
of the current report that is still free and has its identity: the stable ids where both have
one, else the fields. The measurements of two paired records are matched in the same way.
-/
namespace Zpc.ValidationCompare
open GreedyMatching

inductive ValidationDiffStatus | unchanged | improved | regressed | added | removed
  deriving DecidableEq

inductive ValidationRecordKind | validation | benchmark
  deriving DecidableEq

inductive ValidationOutcome | pass | fail | skip | error
  deriving DecidableEq

inductive ValidationThresholdMode | none | lessEqual | greaterEqual | inclusiveRange
  deriving DecidableEq

/-- The values are `double`, of which only the operations used here matter. -/
structure ValidationThreshold (D : Type) where
  mode : ValidationThresholdMode
  reference : D
  tolerance : D
  lowerBound : D
  upperBound : D

structure ValidationMeasurement (D : Type) where
  name : String
  unit : String
  value : D
  threshold : ValidationThreshold D

structure ValidationRecord (D : Type) where
  recordId : String
  suite : String
  name : String
  backend : String
  executor : String
  target : String
  kind : ValidationRecordKind
  outcome : ValidationOutcome
  measurements : List (ValidationMeasurement D)

structure ValidationSuiteReport (D : Type) where
  suite : String
  records : List (ValidationRecord D)

structure ValidationMeasurementDiff (D : Type) where
  name : String
  unit : String
  hasBaseline : Bool
  hasCurrent : Bool
  baselineValue : D
  currentValue : D
  delta : D
  baselineAccepted : Bool
  currentAccepted : Bool
  status : ValidationDiffStatus

structure ValidationRecordDiff (D : Type) where
  recordId : String := ""
  suite : String := ""
  name : String := ""
  backend : String := ""
  executor : String := ""
  target : String := ""
  kind : ValidationRecordKind := .validation
  hasBaseline : Bool := false
  hasCurrent : Bool := false
  baselineOutcome : ValidationOutcome := .skip
  currentOutcome : ValidationOutcome := .skip
  status : ValidationDiffStatus := .unchanged
  measurements : List (ValidationMeasurementDiff D) := []

structure ValidationComparisonSummary where
  total : ℕ := 0
  unchanged : ℕ := 0
  improved : ℕ := 0
  regressed : ℕ := 0
  added : ℕ := 0
  removed : ℕ := 0

def ValidationComparisonSummary.observe (s : ValidationComparisonSummary) :
    ValidationDiffStatus → ValidationComparisonSummary
  | .unchanged => { s with total := s.total + 1, unchanged := s.unchanged + 1 }
  | .improved => { s with total := s.total + 1, improved := s.improved + 1 }
  | .regressed => { s with total := s.total + 1, regressed := s.regressed + 1 }
  | .added => { s with total := s.total + 1, added := s.added + 1 }
  | .removed => { s with total := s.total + 1, removed := s.removed + 1 }

structure ValidationComparisonReport (D : Type) where
  suite : String := ""
  records : List (ValidationRecordDiff D) := []
  summary : ValidationComparisonSummary := {}
  accepted : Bool := true

variable {D : Type}

def ValidationRecord.hasStableId (r : ValidationRecord D) : Bool := r.recordId.length != 0

def ValidationRecord.fields (r : ValidationRecord D) :=
  (r.suite, r.name, r.backend, r.executor, r.target, r.kind)

def validationRecordIdentityEqual (left right : ValidationRecord D) : Bool :=
  if left.hasStableId && right.hasStableId then left.recordId == right.recordId
  else left.suite == right.suite && left.name == right.name && left.backend == right.backend
    && left.executor == right.executor && left.target == right.target && left.kind == right.kind

def validationMeasurementIdentityEqual (left right : ValidationMeasurement D) : Bool :=
  left.name == right.name && left.unit == right.unit

def validationOutcomeRank : ValidationOutcome → ℤ
  | .error => 0
  | .fail => 1
  | .skip => 2
  | .pass => 3

def compareOutcomeProgress (baseline current : ValidationOutcome) : ValidationDiffStatus :=
  let before := validationOutcomeRank baseline
  let after := validationOutcomeRank current
  if after > before then .improved else if after < before then .regressed else .unchanged

section Measurements
variable [Zero D] [Add D] [Sub D] [LE D] [DecidableLE D]

def ValidationThreshold.satisfiedBy (t : ValidationThreshold D) (value : D) : Bool :=
  match t.mode with
  | .none => true
  | .lessEqual => decide (value ≤ t.reference + t.tolerance)
  | .greaterEqual => decide (t.reference ≤ value + t.tolerance)
  | .inclusiveRange => decide (t.lowerBound ≤ value) && decide (value ≤ t.upperBound)

def ValidationMeasurement.accepted (m : ValidationMeasurement D) : Bool := m.threshold.satisfiedBy m.value

def compareValidationMeasurement (baseline current : Option (ValidationMeasurement D)) :
    ValidationMeasurementDiff D :=
  let baselineValue := baseline.elim 0 (·.value)
  let currentValue := current.elim 0 (·.value)
  let baselineAccepted := baseline.elim false (·.accepted)
  let currentAccepted := current.elim false (·.accepted)
  { name := ((current <|> baseline).map (·.name)).getD ""
    unit := ((current <|> baseline).map (·.unit)).getD ""
    hasBaseline := baseline.isSome
    hasCurrent := current.isSome
    baselineValue := baselineValue
    currentValue := currentValue
    delta := currentValue - baselineValue
    baselineAccepted := baselineAccepted
    currentAccepted := currentAccepted
    status := match baseline, current with
      | some _, some _ =>
        if currentAccepted && !baselineAccepted then .improved
        else if !currentAccepted && baselineAccepted then .regressed
        else .unchanged
      | none, some _ => .added
      | some _, none => .removed
      | none, none => .unchanged }

/-- One round of the loop over the measurements of the baseline record. -/
def observeMeasurement (current : List (ValidationMeasurement D)) (diff : ValidationRecordDiff D)
    (m : ValidationMeasurement D) (i : Option (Fin current.length)) : ValidationRecordDiff D :=
  let d := compareValidationMeasurement (some m) (i.map current.get)
  { diff with
    status :=
      if d.status = .regressed then .regressed
      else if d.status = .improved ∧ diff.status = .unchanged then .improved
      else diff.status
    measurements := diff.measurements ++ [d] }

def compareValidationRecord (baseline current : Option (ValidationRecord D)) : ValidationRecordDiff D :=
  let r := current <|> baseline
  let diff : ValidationRecordDiff D :=
    { recordId := r.elim "" (·.recordId)
      suite := r.elim "" (·.suite)
      name := r.elim "" (·.name)
      backend := r.elim "" (·.backend)
      executor := r.elim "" (·.executor)
      target := r.elim "" (·.target)
      kind := r.elim .validation (·.kind)
      hasBaseline := baseline.isSome
      hasCurrent := current.isSome
      baselineOutcome := baseline.elim .skip (·.outcome)
      currentOutcome := current.elim .skip (·.outcome) }
  match baseline, current with
  | some b, some c =>
    let diff := { diff with status := compareOutcomeProgress b.outcome c.outcome }
    let s := b.measurements.foldl (fun s m =>
      let i := first validationMeasurementIdentityEqual c.measurements s.2 m
      (observeMeasurement c.measurements s.1 m i, take c.measurements s.2 i)) (diff, fun _ => false)
    (left c.measurements s.2).foldl (fun d i =>
      { d with measurements := d.measurements ++
          [compareValidationMeasurement none (some (c.measurements.get i))] }) s.1
  | none, some c =>
    { diff with
      status := .added
      measurements := c.measurements.map fun m => compareValidationMeasurement none (some m) }
  | some b, none =>
    { diff with
      status := .removed
      measurements := b.measurements.map fun m => compareValidationMeasurement (some m) none }
  | none, none => diff

/-- One round of the loop over the records of the baseline report. -/
def observeRecord (current : List (ValidationRecord D)) (report : ValidationComparisonReport D)
    (r : ValidationRecord D) (i : Option (Fin current.length)) : ValidationComparisonReport D :=
  let diff := compareValidationRecord (some r) (i.map current.get)
  { report with
    records := report.records ++ [diff]
    summary := report.summary.observe diff.status
    accepted := if diff.status = .regressed then false else report.accepted }

def compareValidationReports (baseline current : ValidationSuiteReport D) : ValidationComparisonReport D :=
  let report : ValidationComparisonReport D :=
    { suite := if current.suite.length ≠ 0 then current.suite else baseline.suite }
  let s := baseline.records.foldl (fun s r =>
    let i := first validationRecordIdentityEqual current.records s.2 r
    (observeRecord current.records s.1 r i, take current.records s.2 i)) (report, fun _ => false)
  (left current.records s.2).foldl (fun report i =>
    let diff := compareValidationRecord none (some (current.records.get i))
    { report with
      records := report.records ++ [diff]
      summary := report.summary.observe diff.status }) s.1

end Measurements

end Zpc.ValidationCompare
