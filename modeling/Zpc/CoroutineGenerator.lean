import Mathlib.Tactic.Common

/-!
# Generators

A coroutine yields values to its consumer and at last returns or throws. It is consumed by calls of next
or by a range-for, and what the two observe differs for a body that throws before its first yield: the
range-for begins without looking for an exception.
-/
namespace Zpc.Coroutine
/-- What a body does: it yields the values in order, then it returns or throws. -/
structure Body (T E : Type*) where
  values : List T
  exception : Option E
  deriving DecidableEq

/-- A suspended coroutine, with the part of its body still to come. -/
structure Handle (T E : Type*) where
  rest : Body T E
  done : Bool
  current : Option T
  exception : Option E
  deriving DecidableEq

structure Generator (T E : Type*) where
  handle : Option (Handle T E)
  deriving DecidableEq

variable {T E : Type*} {body : Body T E} {h : Handle T E} {g : Generator T E} {v : T} {vs : List T} {fuel : ℕ}

/-- The coroutine runs to its next suspension. A finished one cannot be resumed. -/
def Handle.resume (h : Handle T E) : Option (Handle T E) :=
  if h.done then none
  else
    match h.rest.values with
    | v :: vs => some {h with rest := {h.rest with values := vs}, current := some v}
    | [] => some {h with done := true, exception := h.rest.exception}

namespace Generator
/-- The call of a coroutine suspends it at once. -/
def start (body : Body T E) : Generator T E := ⟨some ⟨body, false, none, none⟩⟩

/-- A resumption that rethrows what the promise has stored. -/
def resumeChecked (h : Handle T E) : Option (Except E (Handle T E) × Generator T E) :=
  h.resume.map fun h' =>
    match h'.exception with
    | some e => (.error e, ⟨some h'⟩)
    | none => (.ok h', ⟨some h'⟩)

def next (g : Generator T E) : Option (Except E Bool × Generator T E) :=
  match g.handle with
  | none => some (.ok false, g)
  | some h =>
    if h.done then some (.ok false, g)
    else (resumeChecked h).map fun (r, g') => (r.map fun h' => !h'.done, g')

def value (g : Generator T E) : Option T := g.handle.bind Handle.current

/-- The iterator has the handle of the generator. -/
def begin (g : Generator T E) : Option (Generator T E) :=
  match g.handle with
  | none => some g
  | some h => h.resume.map fun h' => ⟨some h'⟩

def notEnd (it : Generator T E) : Bool :=
  match it.handle with
  | none => false
  | some h => !h.done

def increment (it : Generator T E) : Option (Except E Unit × Generator T E) :=
  it.handle.bind fun h => (resumeChecked h).map fun (r, it') => (r.map fun _ => (), it')

/-- What a consumer has seen: the values, and the exception if one reached it. -/
structure Observation (T E : Type*) where
  values : List T
  thrown : Option E
  deriving DecidableEq

def Observation.after (v : T) (o : Observation T E) : Observation T E := {o with values := v :: o.values}

/-- `while (g.next()) use(g.value());` -/
def consumeNext : ℕ → Generator T E → Option (Observation T E × Generator T E)
  | 0, _ => none
  | fuel + 1, g =>
    match g.next with
    | none => none
    | some (.error e, g') => some (⟨[], some e⟩, g')
    | some (.ok false, g') => some (⟨[], none⟩, g')
    | some (.ok true, g') =>
      g'.value.bind fun v => (consumeNext fuel g').map fun (o, g'') => (o.after v, g'')

/-- The loop of a range-for, from its test on. -/
def consumeFrom : ℕ → Generator T E → Option (Observation T E × Generator T E)
  | 0, _ => none
  | fuel + 1, it =>
    if it.notEnd then
      it.value.bind fun v =>
        match it.increment with
        | none => none
        | some (.error e, it') => some (⟨[v], some e⟩, it')
        | some (.ok (), it') => (consumeFrom fuel it').map fun (o, it'') => (o.after v, it'')
    else some (⟨[], none⟩, it)

/-- `for (auto &v : g) use(v);` -/
def consumeRange (fuel : ℕ) (g : Generator T E) : Option (Observation T E × Generator T E) :=
  g.begin.bind fun it => consumeFrom fuel it

section Resumptions
end Resumptions

section Consumers
/-- The consumer has seen all that the body does, and nothing is left to be thrown again. -/
def Observes (body : Body T E) (run : Option (Observation T E × Generator T E)) : Prop :=
  ∃ g, run = some (⟨body.values, body.exception⟩, g) ∧ g.next = some (.ok false, g)

/-- Either way of consuming the coroutine observes its body. -/
def Alike (body : Body T E) : Prop :=
  ∀ fuel, body.values.length < fuel →
    Observes body (consumeNext fuel (start body)) ∧ Observes body (consumeRange fuel (start body))

theorem Observes.after {ex : Option E} {run : Option (Observation T E × Generator T E)} (hrun : Observes ⟨vs, ex⟩ run) :
    Observes ⟨v :: vs, ex⟩ (run.map fun (o, g) => (o.after v, g)) := by
  obtain ⟨g, rfl, hnext⟩ := hrun
  exact ⟨g, rfl, hnext⟩

theorem observes_next (vs : List T) (ex : Option E) (cur : Option T) (hfuel : vs.length < fuel) :
    Observes ⟨vs, ex⟩ (consumeNext fuel ⟨some ⟨⟨vs, ex⟩, false, cur, none⟩⟩) := by
  induction vs generalizing fuel cur with
  | nil =>
    obtain ⟨fuel, rfl⟩ := Nat.exists_eq_succ_of_ne_zero (Nat.ne_of_gt hfuel)
    cases ex with
    | none => exact ⟨_, rfl, rfl⟩
    | some e => exact ⟨_, rfl, rfl⟩
  | cons v vs ih =>
    obtain ⟨fuel, rfl⟩ := Nat.exists_eq_succ_of_ne_zero (Nat.ne_of_gt (Nat.lt_of_le_of_lt (Nat.zero_le _) hfuel))
    exact (ih (some v) (Nat.lt_of_succ_lt_succ hfuel)).after

theorem observes_from (vs : List T) (ex : Option E) (v : T) (hfuel : vs.length + 1 < fuel) :
    Observes ⟨v :: vs, ex⟩ (consumeFrom fuel ⟨some ⟨⟨vs, ex⟩, false, some v, none⟩⟩) := by
  induction vs generalizing fuel v with
  | nil =>
    obtain ⟨fuel, rfl⟩ : ∃ n, fuel = n + 2 := Nat.exists_eq_add_of_le' (Nat.succ_le_of_lt hfuel)
    cases ex with
    | none => exact ⟨_, rfl, rfl⟩
    | some e => exact ⟨_, rfl, rfl⟩
  | cons w vs ih =>
    obtain ⟨fuel, rfl⟩ := Nat.exists_eq_succ_of_ne_zero (Nat.ne_of_gt (Nat.lt_of_le_of_lt (Nat.zero_le _) hfuel))
    exact (ih w (Nat.lt_of_succ_lt_succ hfuel)).after

/-- A range-for sees the values, and the exception when there is a value before it. -/
theorem observes_range (hfirst : body.values = [] → body.exception = none) (hfuel : body.values.length < fuel) :
    Observes body (consumeRange fuel (start body)) := by
  obtain ⟨values, ex⟩ := body
  cases values with
  | nil =>
    obtain rfl : ex = none := hfirst rfl
    obtain ⟨fuel, rfl⟩ := Nat.exists_eq_succ_of_ne_zero (Nat.ne_of_gt hfuel)
    exact ⟨_, rfl, rfl⟩
  | cons v vs => exact observes_from vs ex v hfuel

/-- An exception before the first yield leaves a range-for with nothing to do. -/
theorem consumeRange_thrown (e : E) (fuel : ℕ) : consumeRange (T := T) (fuel + 1) (start ⟨[], some e⟩) =
    some (⟨[], none⟩, ⟨some ⟨⟨[], some e⟩, true, none, some e⟩⟩) := rfl

theorem alike_iff (body : Body T E) : Alike body ↔ (body.values = [] → body.exception = none) := by
  constructor
  · intro halike hempty
    obtain ⟨values, ex⟩ := body
    obtain rfl : values = [] := hempty
    cases ex with
    | none => rfl
    | some e =>
      obtain ⟨g, hrun, -⟩ := (halike 1 Nat.one_pos).2
      rw [consumeRange_thrown e 0, Option.some_inj, Prod.mk.injEq, Observation.mk.injEq] at hrun
      exact absurd hrun.1.2 (Option.some_ne_none e).symm
  · intro hfirst fuel hfuel
    exact ⟨observes_next body.values body.exception none hfuel, observes_range hfirst hfuel⟩

end Consumers

section Example
/-- The exception of a body that throws at once is seen by the calls of next only. -/
theorem rangeFor_swallows : ¬ ∀ body : Body ℕ ℕ, Alike body := by
  intro hall
  obtain ⟨g, hrun, -⟩ := (hall ⟨[], some 7⟩ 1 Nat.one_pos).2
  rw [consumeRange_thrown 7 0, Option.some_inj, Prod.mk.injEq, Observation.mk.injEq] at hrun
  exact absurd hrun.1.2 (by decide)

end Example
end Generator
end Zpc.Coroutine
