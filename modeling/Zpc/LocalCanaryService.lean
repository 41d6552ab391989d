import Mathlib
import Zpc.ValidationCompare

/-!
# Canary scenarios

A run of a canary scenario checks the overrides of its parameters. The parameters look up
the first override of their name and check its value; the overrides are only looked up by
name.
-/
namespace Zpc.LocalCanaryService
open ValidationCompare

inductive CanaryParameterKind | boolean | integer | floatingPoint | string | enumeration
  deriving DecidableEq

structure CanaryParameterOption where
  value : String
  label : String

structure CanaryParameterDescriptor where
  name : String
  unit : String := ""
  defaultValue : String := ""
  minValue : String := ""
  maxValue : String := ""
  kind : CanaryParameterKind := .string
  required : Bool := false
  options : List CanaryParameterOption := []

structure CanaryScenarioDescriptor where
  scenarioId : String
  label : String := ""
  parameters : List CanaryParameterDescriptor := []

structure CanaryParameterOverride where
  name : String
  value : String

structure CanaryScenarioRunRequest where
  session : ℕ
  scenarioId : String
  baselineId : String := ""
  overrides : List CanaryParameterOverride := []
  compareAgainstBaseline : Bool := true

structure CanaryScenarioRunResult (D : Type) where
  scenarioId : String
  report : ValidationSuiteReport D
  comparison : ValidationComparisonReport D := {}
  hasComparison : Bool := false
  accepted : Bool

/-- The service, with the sessions of the interface services and what is published there. -/
structure Service (D : Type) where
  sessionExists : ℕ → Bool
  scenarios : List CanaryScenarioDescriptor
  baselines : String → Option (ValidationSuiteReport D)
  lastReports : String → Option (ValidationSuiteReport D)
  published : List (ℕ × ValidationSuiteReport D × Option (ValidationComparisonReport D))

section Values
def isSpace (c : Char) : Bool := c == ' ' || (9 ≤ c.toNat && c.toNat ≤ 13)

def signOf : List Char → ℤ × List Char
  | '-' :: cs => (-1, cs)
  | '+' :: cs => (1, cs)
  | cs => (1, cs)

/-- `strtoll` in base 10 where it takes the whole string and does not overflow. -/
def parseInteger (s : String) : Option ℤ :=
  let (sign, digits) := signOf (s.toList.dropWhile isSpace)
  if digits = [] ∨ digits.any (!·.isDigit) then none
  else
    let parsed := sign * digits.foldl (fun n c => 10 * n + (c.toNat - '0'.toNat : ℕ)) 0
    if -2 ^ 63 ≤ parsed ∧ parsed < 2 ^ 63 then some parsed else none

/-- What `strtod` returns: the number, how much of the string it took, and whether it set `errno`. -/
structure StrtodResult (D : Type) where
  value : D
  consumed : ℕ
  failed : Bool

variable {D : Type}

def parseDouble (strtod : String → StrtodResult D) (s : String) : Option D :=
  if s.length = 0 then none
  else if (strtod s).failed || (strtod s).consumed == 0 || (strtod s).consumed != s.length then none
  else some (strtod s).value

/-- The bound is ignored where there is none or it does not parse. -/
def outside {V : Type} (parse : String → Option V) (bound : String) (beyond : V → Bool) : Bool :=
  if bound.length ≠ 0 then (parse bound).any beyond else false

/-- The checks of a number, an integer or a `double`. -/
def withinBounds {V : Type} (parse : String → Option V) (less : V → V → Bool) (parameter : CanaryParameterDescriptor)
    (value : String) : Bool :=
  match parse value with
  | none => false
  | some parsed =>
    if outside parse parameter.minValue fun minimum => less parsed minimum then false
    else !outside parse parameter.maxValue fun maximum => less maximum parsed

variable [LT D] [DecidableLT D]

def validateValue (strtod : String → StrtodResult D) (parameter : CanaryParameterDescriptor) (value : String) : Bool :=
  match parameter.kind with
  | .boolean => value == "true" || value == "false" || value == "1" || value == "0"
  | .integer => withinBounds parseInteger (fun x y => decide (x < y)) parameter value
  | .floatingPoint => withinBounds (parseDouble strtod) (fun x y => decide (x < y)) parameter value
  | .enumeration => parameter.options.any fun option => option.value == value
  | .string => true

end Values

section Service
variable {D : Type}

def findOverride (overrides : List CanaryParameterOverride) (name : String) : Option String :=
  (overrides.find? fun o => o.name == name).map CanaryParameterOverride.value

def defaultOrNull (parameter : CanaryParameterDescriptor) : Option String :=
  if parameter.defaultValue.length ≠ 0 then some parameter.defaultValue else none

def hasParameter (scenario : CanaryScenarioDescriptor) (name : String) : Bool :=
  scenario.parameters.any fun parameter => parameter.name == name

def describeScenario (s : Service D) (session : ℕ) (scenarioId : String) : Option CanaryScenarioDescriptor :=
  if !s.sessionExists session || scenarioId.length == 0 then none
  else s.scenarios.find? fun scenario => scenario.scenarioId == scenarioId

def effectiveValue (request : CanaryScenarioRunRequest) (parameter : CanaryParameterDescriptor) : Option String :=
  (findOverride request.overrides parameter.name).orElse fun _ => defaultOrNull parameter

/-- `failed` and `errored` of the summary of a report. -/
def countOutcome (outcome : ValidationOutcome) (report : ValidationSuiteReport D) : ℕ :=
  report.records.countP fun record => record.outcome = outcome

variable [Zero D] [Add D] [Sub D] [LE D] [DecidableLE D] [LT D] [DecidableLT D] [NatCast D]

def measure (name unit : String) (value : D) : ValidationMeasurement D := ⟨name, unit, value, ⟨.none, 0, 0, 0, 0⟩⟩

def validationRecord (recordId suite name : String) (kind : ValidationRecordKind) (outcome : ValidationOutcome)
    (measurements : List (ValidationMeasurement D)) : ValidationRecord D :=
  ⟨recordId, suite, name, "", "", "", kind, outcome, measurements⟩

/-- One round of the loop over the parameters: the measurement, and whether the parameter is all right. -/
def checkParameter (strtod : String → StrtodResult D) (request : CanaryScenarioRunRequest)
    (parameter : CanaryParameterDescriptor) : ValidationMeasurement D × Bool :=
  let effective := effectiveValue request parameter
  (measure parameter.name parameter.unit (if effective.isSome then ((1 : ℕ) : D) else 0),
    if parameter.required && effective.isNone then false
    else !effective.any fun value => !validateValue strtod parameter value)

def schemaAccepted (strtod : String → StrtodResult D) (scenario : CanaryScenarioDescriptor)
    (request : CanaryScenarioRunRequest) : Bool :=
  (scenario.parameters.all fun parameter => (checkParameter strtod request parameter).2) &&
    request.overrides.all fun o => hasParameter scenario o.name

/-- The report of a run of a scenario that exists. -/
def scenarioReport (strtod : String → StrtodResult D) (scenario : CanaryScenarioDescriptor)
    (request : CanaryScenarioRunRequest) : ValidationSuiteReport D :=
  ⟨request.scenarioId,
    [validationRecord scenario.scenarioId scenario.scenarioId "scenario_schema" .validation
      (if schemaAccepted strtod scenario request then .pass else .fail)
      (scenario.parameters.map fun parameter => (checkParameter strtod request parameter).1),
    validationRecord scenario.scenarioId scenario.scenarioId
      (if scenario.label.length ≠ 0 then scenario.label else scenario.scenarioId) .benchmark .pass
      [measure "override_count" "count" (request.overrides.length : D),
        measure "declared_parameters" "count" (scenario.parameters.length : D)]]⟩

def baselineOf (s : Service D) (scenario : CanaryScenarioDescriptor) (request : CanaryScenarioRunRequest) :
    Option (ValidationSuiteReport D) :=
  if request.compareAgainstBaseline then
    s.baselines (if request.baselineId.length ≠ 0 then request.baselineId else scenario.scenarioId)
  else none

def runScenario (strtod : String → StrtodResult D) (s : Service D) (request : CanaryScenarioRunRequest) :
    CanaryScenarioRunResult D × Service D :=
  match if s.sessionExists request.session then describeScenario s request.session request.scenarioId else none with
  | none =>
    let report : ValidationSuiteReport D :=
      ⟨request.scenarioId, [validationRecord "canary.missing" request.scenarioId "scenario_available" .validation .fail []]⟩
    (⟨request.scenarioId, report, {}, false, false⟩, {s with published := s.published ++ [(request.session, report, none)]})
  | some scenario =>
    let report := scenarioReport strtod scenario request
    let accepted := schemaAccepted strtod scenario request && countOutcome .fail report == 0 &&
      countOutcome .error report == 0
    let s := {s with lastReports := fun id => if id = request.scenarioId then some report else s.lastReports id}
    match baselineOf s scenario request with
    | some baseline =>
      let comparison := compareValidationReports baseline report
      (⟨request.scenarioId, report, comparison, true, accepted && comparison.accepted⟩,
        {s with published := s.published ++ [(request.session, report, some comparison)]})
    | none =>
      (⟨request.scenarioId, report, {}, false, accepted⟩,
        {s with published := s.published ++ [(request.session, report, none)]})

end Service

section Acceptance
variable {D : Type}

/-- The value has the kind of the parameter and is within its bounds or among its options. -/
def Meets [LT D] (strtod : String → StrtodResult D) (parameter : CanaryParameterDescriptor) (value : String) : Prop :=
  match parameter.kind with
  | .boolean => value = "true" ∨ value = "false" ∨ value = "1" ∨ value = "0"
  | .integer => ∃ parsed, parseInteger value = some parsed ∧
      (∀ minimum, parseInteger parameter.minValue = some minimum → minimum ≤ parsed) ∧
      ∀ maximum, parseInteger parameter.maxValue = some maximum → parsed ≤ maximum
  | .floatingPoint => ∃ parsed, parseDouble strtod value = some parsed ∧
      (∀ minimum, parseDouble strtod parameter.minValue = some minimum → ¬ parsed < minimum) ∧
      ∀ maximum, parseDouble strtod parameter.maxValue = some maximum → ¬ maximum < parsed
  | .enumeration => ∃ option ∈ parameter.options, option.value = value
  | .string => True

/-- What an accepted run promises of the parameters and overrides. -/
structure Checked [LT D] (strtod : String → StrtodResult D) (scenario : CanaryScenarioDescriptor)
    (overrides : List CanaryParameterOverride) : Prop where
  declared : ∀ o ∈ overrides, ∃ parameter ∈ scenario.parameters, parameter.name = o.name
  valid : ∀ o ∈ overrides, ∀ parameter ∈ scenario.parameters, parameter.name = o.name → Meets strtod parameter o.value
  required : ∀ parameter ∈ scenario.parameters, parameter.required = true →
    (∃ o ∈ overrides, o.name = parameter.name) ∨ parameter.defaultValue ≠ ""
  default : ∀ parameter ∈ scenario.parameters, (∀ o ∈ overrides, o.name ≠ parameter.name) →
    parameter.defaultValue ≠ "" → Meets strtod parameter parameter.defaultValue

/-- The report of the run itself is no baseline yet. -/
theorem baselineOf_lastReports (s : Service D) (scenario : CanaryScenarioDescriptor) (request : CanaryScenarioRunRequest)
    (reports : String → Option (ValidationSuiteReport D)) :
    baselineOf {s with lastReports := reports} scenario request = baselineOf s scenario request := rfl

theorem outside_eq_false {V : Type} {parse : String → Option V} (hempty : parse "" = none) {bound : String}
    {beyond : V → Bool} :
    outside parse bound beyond = false ↔ ∀ b, parse bound = some b → beyond b = false := by
  unfold outside
  split_ifs with hbound
  · cases parse bound <;> simp
  · have hbound : bound = "" := String.length_eq_zero_iff.mp (not_not.mp hbound)
    simp [hbound, hempty]

theorem withinBounds_iff {V : Type} (parse : String → Option V) {less : V → V → Bool} (hempty : parse "" = none)
    {parameter : CanaryParameterDescriptor} {value : String} :
    withinBounds parse less parameter value = true ↔ ∃ parsed, parse value = some parsed ∧
      (∀ minimum, parse parameter.minValue = some minimum → less parsed minimum = false) ∧
      ∀ maximum, parse parameter.maxValue = some maximum → less maximum parsed = false := by
  unfold withinBounds
  cases parse value with
  | none => simp
  | some parsed =>
    simp only [Option.some_inj, exists_eq_left', ← outside_eq_false hempty]
    cases outside parse parameter.minValue (less parsed) <;> simp

variable [LT D] {strtod : String → StrtodResult D} {parameter : CanaryParameterDescriptor} {value : String}
  {request : CanaryScenarioRunRequest} {scenario : CanaryScenarioDescriptor} {s : Service D}

/-- A parameter is all right if it has a value where it needs one, and the value fits. -/
def ParameterFits (strtod : String → StrtodResult D) (request : CanaryScenarioRunRequest)
    (parameter : CanaryParameterDescriptor) : Prop :=
  (parameter.required = true → effectiveValue request parameter ≠ none) ∧
    ∀ value, effectiveValue request parameter = some value → Meets strtod parameter value

/-- An override that repeats the name of an earlier one fits, too. -/
def RepeatsFit (strtod : String → StrtodResult D) (request : CanaryScenarioRunRequest)
    (scenario : CanaryScenarioDescriptor) : Prop :=
  ∀ before o after, request.overrides = before ++ o :: after → (∃ earlier ∈ before, earlier.name = o.name) →
    ∀ parameter ∈ scenario.parameters, parameter.name = o.name → Meets strtod parameter o.value

theorem effectiveValue_of_first {before after : List CanaryParameterOverride} {o : CanaryParameterOverride}
    (hoverrides : request.overrides = before ++ o :: after) (hfirst : ¬ ∃ earlier ∈ before, earlier.name = o.name)
    (hname : parameter.name = o.name) : effectiveValue request parameter = some o.value := by
  have hbefore : before.find? (fun x => x.name == o.name) = none := by
    rw [List.find?_eq_none]
    intro x hx hxname
    exact hfirst ⟨x, hx, eq_of_beq hxname⟩
  rw [effectiveValue, findOverride, hoverrides, hname, List.find?_append, hbefore, List.find?_cons, beq_self_eq_true]
  rfl

theorem findOverride_eq_none {overrides : List CanaryParameterOverride} {name : String} :
    findOverride overrides name = none ↔ ∀ o ∈ overrides, o.name ≠ name := by
  rw [findOverride, Option.map_eq_none_iff, List.find?_eq_none]
  simp only [beq_iff_eq, ne_eq]

theorem defaultOrNull_eq_some :
    defaultOrNull parameter = some value ↔ parameter.defaultValue ≠ "" ∧ parameter.defaultValue = value := by
  unfold defaultOrNull
  by_cases hempty : parameter.defaultValue = ""
  · simp [hempty]
  · simp [hempty, String.length_eq_zero_iff]

theorem mem_of_findOverride {overrides : List CanaryParameterOverride} {name : String}
    (hfound : findOverride overrides name = some value) : ∃ o ∈ overrides, o.name = name ∧ o.value = value := by
  rw [findOverride, Option.map_eq_some_iff] at hfound
  obtain ⟨o, ho, hvalue⟩ := hfound
  have hname := List.find?_some (p := fun x : CanaryParameterOverride => x.name == name) ho
  exact ⟨o, List.mem_of_find?_eq_some ho, eq_of_beq hname, hvalue⟩

/-- The effective value is that of the first override, or the default. -/
theorem effectiveValue_cases (request : CanaryScenarioRunRequest) (parameter : CanaryParameterDescriptor) :
    (∃ v, findOverride request.overrides parameter.name = some v ∧
      effectiveValue request parameter = some v) ∨
    (findOverride request.overrides parameter.name = none ∧ effectiveValue request parameter = defaultOrNull parameter) := by
  unfold effectiveValue
  cases findOverride request.overrides parameter.name with
  | none => exact .inr ⟨rfl, rfl⟩
  | some v => exact .inl ⟨v, rfl, rfl⟩

/-- The checks of an accepted run and the condition on repeated names are together what is promised. -/
theorem checked_iff : Checked strtod scenario request.overrides ↔
    (∀ parameter ∈ scenario.parameters, ParameterFits strtod request parameter) ∧
      (∀ o ∈ request.overrides, ∃ parameter ∈ scenario.parameters, parameter.name = o.name) ∧
      RepeatsFit strtod request scenario := by
  constructor
  · intro ⟨hdeclared, hvalid, hrequired, hdefault⟩
    refine ⟨fun parameter hparameter => ?_, hdeclared, fun before o after hoverrides _ parameter hparameter hname => ?_⟩
    · rcases effectiveValue_cases request parameter with ⟨v, hfound, heq⟩ | ⟨hnone, heq⟩
      · obtain ⟨o, ho, hname, rfl⟩ := mem_of_findOverride hfound
        rw [ParameterFits, heq]
        refine ⟨fun _ => Option.some_ne_none _, fun value hvalue => ?_⟩
        rw [← Option.some_inj.mp hvalue]
        exact hvalid o ho parameter hparameter hname.symm
      · have habsent := findOverride_eq_none.mp hnone
        rw [ParameterFits, heq]
        refine ⟨fun hreq hempty => ?_, fun value hvalue => ?_⟩
        · rcases hrequired parameter hparameter hreq with ⟨o, ho, hname⟩ | hne
          · exact habsent o ho hname
          · exact absurd (hempty.symm.trans (defaultOrNull_eq_some.mpr ⟨hne, rfl⟩)) (Option.some_ne_none _).symm
        · obtain ⟨hne, rfl⟩ := defaultOrNull_eq_some.mp hvalue
          exact hdefault parameter hparameter habsent hne
    · exact hvalid o (by rw [hoverrides]; exact List.mem_append_cons_self) parameter hparameter hname
  · intro ⟨hfits, hdeclared, hrepeats⟩
    refine ⟨hdeclared, fun o ho parameter hparameter hname => ?_, fun parameter hparameter hreq => ?_,
      fun parameter hparameter habsent hne => ?_⟩
    · obtain ⟨before, after, hoverrides⟩ := List.append_of_mem ho
      by_cases hrepeated : ∃ earlier ∈ before, earlier.name = o.name
      · exact hrepeats before o after hoverrides hrepeated parameter hparameter hname
      · exact (hfits parameter hparameter).2 o.value (effectiveValue_of_first hoverrides hrepeated hname)
    · by_contra hneither
      rw [not_or, not_exists] at hneither
      have hnone : findOverride request.overrides parameter.name = none :=
        findOverride_eq_none.mpr fun o ho hname => hneither.1 o ⟨ho, hname⟩
      refine (hfits parameter hparameter).1 hreq ?_
      rw [effectiveValue, hnone, defaultOrNull, if_neg (by rw [not_not.mp hneither.2]; decide)]
      rfl
    · refine (hfits parameter hparameter).2 _ ?_
      rw [effectiveValue, findOverride_eq_none.mpr habsent]
      exact defaultOrNull_eq_some.mpr ⟨hne, rfl⟩

variable [DecidableLT D]

theorem validateValue_iff : validateValue strtod parameter value = true ↔ Meets strtod parameter value := by
  unfold validateValue Meets
  cases parameter.kind with
  | boolean => simp [or_assoc]
  | integer => simp [withinBounds_iff parseInteger rfl]
  | floatingPoint => simp [withinBounds_iff (parseDouble strtod) rfl]
  | enumeration => simp
  | string => simp

variable [Zero D] [NatCast D]

theorem checkParameter_iff :
    (checkParameter strtod request parameter).2 = true ↔ ParameterFits strtod request parameter := by
  unfold checkParameter ParameterFits
  cases effectiveValue request parameter with
  | none => simp
  | some v => simp [validateValue_iff]

theorem schemaAccepted_iff : schemaAccepted strtod scenario request = true ↔
    (∀ parameter ∈ scenario.parameters, ParameterFits strtod request parameter) ∧
      ∀ o ∈ request.overrides, ∃ parameter ∈ scenario.parameters, parameter.name = o.name := by
  simp only [schemaAccepted, Bool.and_eq_true, List.all_eq_true, checkParameter_iff, hasParameter, List.any_eq_true,
    beq_iff_eq]

theorem summary_accepted : (schemaAccepted strtod scenario request &&
      countOutcome .fail (scenarioReport strtod scenario request) == 0 &&
      countOutcome .error (scenarioReport strtod scenario request) == 0) = schemaAccepted strtod scenario request := by
  unfold countOutcome scenarioReport validationRecord
  cases schemaAccepted strtod scenario request <;> rfl

variable [Add D] [Sub D] [LE D] [DecidableLE D]

/-- The comparison with the baseline, where there is one, finds nothing worse. -/
def BaselineAgrees (strtod : String → StrtodResult D) (s : Service D) (scenario : CanaryScenarioDescriptor)
    (request : CanaryScenarioRunRequest) : Prop :=
  ∀ baseline, baselineOf s scenario request = some baseline →
    (compareValidationReports baseline (scenarioReport strtod scenario request)).accepted = true

theorem accepted_iff : (runScenario strtod s request).1.accepted = true ↔
    ∃ scenario, describeScenario s request.session request.scenarioId = some scenario ∧
      schemaAccepted strtod scenario request = true ∧ BaselineAgrees strtod s scenario request := by
  have hsession : (if s.sessionExists request.session then describeScenario s request.session request.scenarioId else none) =
      describeScenario s request.session request.scenarioId := by
    unfold describeScenario
    cases s.sessionExists request.session <;> rfl
  unfold runScenario
  rw [hsession]
  cases describeScenario s request.session request.scenarioId with
  | none => simp
  | some scenario =>
    simp only [summary_accepted, baselineOf_lastReports, Option.some_inj, exists_eq_left', BaselineAgrees]
    cases baselineOf s scenario request <;> simp

/-- An accepted run keeps its promise. -/
def Justified (strtod : String → StrtodResult D) (s : Service D) (request : CanaryScenarioRunRequest) : Prop :=
  (runScenario strtod s request).1.accepted = true →
    ∃ scenario, describeScenario s request.session request.scenarioId = some scenario ∧
      Checked strtod scenario request.overrides

/-- The run is turned down for the session or the scenario, an override of no parameter, a
parameter without a value or with one that does not fit, or the baseline. -/
def Refused (strtod : String → StrtodResult D) (s : Service D) (request : CanaryScenarioRunRequest) : Prop :=
  ∀ scenario, describeScenario s request.session request.scenarioId = some scenario →
    (∃ o ∈ request.overrides, ∀ parameter ∈ scenario.parameters, parameter.name ≠ o.name) ∨
    (∃ parameter ∈ scenario.parameters, ¬ ParameterFits strtod request parameter) ∨
    ¬ BaselineAgrees strtod s scenario request

theorem justified_iff (strtod : String → StrtodResult D) (s : Service D) (request : CanaryScenarioRunRequest) :
    Justified strtod s request ↔ Refused strtod s request ∨
      ∃ scenario, describeScenario s request.session request.scenarioId = some scenario ∧
        RepeatsFit strtod request scenario := by
  unfold Justified
  rw [accepted_iff]
  constructor
  · intro hjustified
    by_cases hrefused : Refused strtod s request
    · exact .inl hrefused
    · unfold Refused at hrefused
      push Not at hrefused
      obtain ⟨scenario, hscenario, hdeclared, hfits, hagrees⟩ := hrefused
      obtain ⟨scenario', hscenario', hchecked⟩ :=
        hjustified ⟨scenario, hscenario, schemaAccepted_iff.mpr ⟨hfits, hdeclared⟩, hagrees⟩
      obtain rfl : scenario = scenario' := Option.some_inj.mp (hscenario.symm.trans hscenario')
      exact .inr ⟨scenario, hscenario, (checked_iff.mp hchecked).2.2⟩
  · intro hcondition ⟨scenario, hscenario, haccepted, hagrees⟩
    obtain ⟨hfits, hdeclared⟩ := schemaAccepted_iff.mp haccepted
    rcases hcondition with hrefused | ⟨scenario', hscenario', hrepeats⟩
    · rcases hrefused scenario hscenario with ⟨o, ho, hnone⟩ | ⟨parameter, hparameter, hunfit⟩ | hworse
      · obtain ⟨parameter, hparameter, hname⟩ := hdeclared o ho
        exact absurd hname (hnone parameter hparameter)
      · exact absurd (hfits parameter hparameter) hunfit
      · exact absurd hagrees hworse
    · obtain rfl : scenario = scenario' := Option.some_inj.mp (hscenario.symm.trans hscenario')
      exact ⟨scenario, hscenario, checked_iff.mpr ⟨hfits, hdeclared, hrepeats⟩⟩

section Example
def speed : CanaryParameterDescriptor :=
  {name := "speed", minValue := "0", maxValue := "10", kind := .integer, required := true}

def demo : Service ℤ := ⟨fun _ => true, [{scenarioId := "demo", parameters := [speed]}], fun _ => none, fun _ => none, []⟩

def twoSpeeds : CanaryScenarioRunRequest :=
  {session := 1, scenarioId := "demo", overrides := [⟨"speed", "2"⟩, ⟨"speed", "99"⟩]}

def noStrtod (_ : String) : StrtodResult ℤ := ⟨0, 0, true⟩

theorem repeated_override_unchecked : ¬ ∀ (s : Service ℤ) (request : CanaryScenarioRunRequest),
    Justified noStrtod s request := by
  intro hall
  obtain ⟨scenario, hscenario, hchecked⟩ := hall demo twoSpeeds (by decide +kernel)
  obtain rfl := Option.some_inj.mp hscenario
  have hvalid : validateValue noStrtod speed "99" = true :=
    validateValue_iff.mpr (hchecked.valid ⟨"speed", "99"⟩ (.tail _ (.head _)) speed (.head _) rfl)
  exact absurd hvalid (by decide +kernel)

end Example
end Acceptance
end Zpc.LocalCanaryService
