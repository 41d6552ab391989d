import Zpc.ActionMap

/-!
# The phases of an action

The phase that a frame reports is that of the action's slot. It is the action's own as long
as the actions of a slot are active together and the snapshot has room.
-/
namespace Zpc.ActionMap
open AxisProcessor

variable {F : Type*} {m : ActionMap F} {raw : RawInputState F} {cur : Current F} {id : ActionId}

section Activity
variable [FloatArith F]

/-- Some binding of the action is active. -/
def own (m : ActionMap F) (raw : RawInputState F) (id : ActionId) : Bool :=
  m.bindings.any fun b => b.actionId == id && bindingActive raw b

def slotActive (m : ActionMap F) (raw : RawInputState F) (i : Fin kMaxActions) : Bool :=
  m.bindings.any fun b => slotOf b.actionId == i && bindingActive raw b

theorem foldl_bind_active (bs : List (ActionBinding F)) (i : Fin kMaxActions) :
    (bs.foldl (Current.bind raw) cur).active i =
      (cur.active i || bs.any fun b => slotOf b.actionId == i && bindingActive raw b) := by
  induction bs generalizing cur with
  | nil => exact (Bool.or_false _).symm
  | cons b bs ih =>
    have hstep : (cur.bind raw b).active i = (cur.active i || (slotOf b.actionId == i && bindingActive raw b)) := by
      by_cases hi : slotOf b.actionId = i
      · subst hi
        cases hb : bindingActive raw b <;> simp [Current.bind, hb]
      · cases hb : bindingActive raw b <;> simp [Current.bind, hb, hi, Function.update_of_ne (Ne.symm hi)]
    rw [List.foldl_cons, ih, hstep, List.any_cons, Bool.or_assoc]

theorem current_active : (m.current raw).active = m.slotActive raw := by
  funext i
  exact (foldl_bind_active m.bindings i).trans (Bool.false_or _)

end Activity

section Snapshots
def slotPhase (m : ActionMap F) (cur : Current F) (id : ActionId) : ActionPhase :=
  phaseOf (m.prevActive (slotOf id)) (cur.active (slotOf id))

def collect (phase : ActionId → ActionPhase) (ids : List ActionId) (b : ActionBinding F) : List ActionId :=
  if b.actionId ∈ ids ∨ phase b.actionId = .none then ids else ids ++ [b.actionId]

structure Lists (phase : ActionId → ActionPhase) (ids : List ActionId) (snap : ActionSnapshot F) : Prop where
  ids : snap.actions.map ActionState.id = ids.take kMaxActions
  phases : ∀ st ∈ snap.actions, st.phase = phase st.id

variable {phase : ActionId → ActionPhase} {ids : List ActionId} {snap : ActionSnapshot F}

theorem Lists.mem_iff (h : Lists phase ids snap) : (snap.find id).isSome ↔ id ∈ ids.take kMaxActions := by
  rw [← h.ids, ActionSnapshot.find, List.find?_isSome, List.mem_map]
  simp only [beq_iff_eq]

theorem Lists.phase_eq (h : Lists phase ids snap) (id : ActionId) :
    snap.phase id = if id ∈ ids.take kMaxActions then phase id else .none := by
  unfold ActionSnapshot.phase
  split
  next hn =>
    rw [if_neg]
    rw [← h.mem_iff, hn]
    exact Bool.false_ne_true
  next st hst =>
    have hmem : (snap.find id).isSome := by rw [hst]; rfl
    rw [if_pos (h.mem_iff.mp hmem), h.phases st (List.mem_of_find?_eq_some hst)]
    have hid : (st.id == id) = true := List.find?_some (p := fun s : ActionState F => s.id == id) hst
    rw [eq_of_beq hid]

/-- A new action is listed as long as there is room. -/
theorem Lists.add (h : Lists phase ids snap) {st : ActionState F} (hst : st.phase = phase st.id)
    (hnone : phase st.id ≠ .none) (hnew : st.id ∉ ids.take kMaxActions) (b : ActionBinding F) (hb : b.actionId = st.id) :
    Lists phase (collect phase ids b) (snap.addAction st) := by
  have hlen : snap.actions.length = min kMaxActions ids.length := by
    rw [← List.length_map, h.ids, List.length_take]
  unfold ActionSnapshot.addAction collect
  rw [hb]
  by_cases hfull : kMaxActions ≤ snap.actions.length
  · have hids : kMaxActions ≤ ids.length := by omega
    rw [if_pos hfull]
    split
    · exact h
    · refine ⟨h.ids.trans ?_, h.phases⟩
      rw [List.take_append_of_le_length hids]
  · have hids : ids.length < kMaxActions := by omega
    have hmem : st.id ∉ ids := by rwa [List.take_of_length_le hids.le] at hnew
    rw [if_neg hfull, if_neg (not_or.mpr ⟨hmem, hnone⟩)]
    refine ⟨?_, fun s hs => ?_⟩
    · rw [List.map_append, h.ids, List.take_of_length_le hids.le, List.take_of_length_le]
      · rfl
      · rw [List.length_append]
        exact hids
    · rcases List.mem_append.mp hs with hs | hs
      · exact h.phases s hs
      · rw [List.mem_singleton.mp hs]
        exact hst

variable [FloatArith F]

theorem Lists.report (h : Lists (m.slotPhase cur) ids snap) (b : ActionBinding F) :
    Lists (m.slotPhase cur) (collect (m.slotPhase cur) ids b) (m.report cur snap b) := by
  unfold ActionMap.report
  simp only
  split
  next hfound =>
    have hmem : b.actionId ∈ ids := List.mem_of_mem_take (h.mem_iff.mp hfound)
    rw [collect, if_pos (.inl hmem)]
    exact h
  next hfound =>
    rw [h.mem_iff] at hfound
    have hphase : m.slotPhase cur b.actionId = phaseOf (m.prevActive (slotOf b.actionId)) (cur.active (slotOf b.actionId)) :=
      rfl
    split
    next hn =>
      rw [collect, if_pos (.inr (hphase.trans hn))]
      exact h
    all_goals
      rename_i hp
      refine h.add (hphase.trans hp).symm ?_ hfound b rfl
      rw [hphase, hp]
      exact fun he => by cases he

theorem Lists.foldl (bs : List (ActionBinding F)) (h : Lists (m.slotPhase cur) ids snap) :
    Lists (m.slotPhase cur) (bs.foldl (collect (m.slotPhase cur)) ids) (bs.foldl (m.report cur) snap) := by
  induction bs generalizing ids snap with
  | nil => exact h
  | cons b bs ih => exact ih (h.report b)

end Snapshots

section Runs
variable [FloatArith F]

/-- Editing the bindings before the first frame. -/
inductive Edit (F : Type*)
  | add (binding : ActionBinding F)
  | remove (id : ActionId)

def Edit.apply (m : ActionMap F) : Edit F → ActionMap F
  | .add binding => m.addBinding binding
  | .remove id => m.removeBindings id

def make (edits : List (Edit F)) : ActionMap F := edits.foldl Edit.apply create

theorem make_prevActive (edits : List (Edit F)) : (make edits).prevActive = fun _ => false := by
  have hfold : ∀ m : ActionMap F, (edits.foldl Edit.apply m).prevActive = m.prevActive := by
    induction edits with
    | nil => exact fun _ => rfl
    | cons e edits ih =>
      intro m
      refine (ih _).trans ?_
      cases e with
      | add binding =>
        show (m.addBinding binding).prevActive = m.prevActive
        unfold addBinding
        split <;> rfl
      | remove id => rfl
  exact hfold create

/-- The raw input of the frame before, if there is one. -/
def before (frames : List (Frame F)) (t : ℕ) : Option (RawInputState F) :=
  if t = 0 then none else (frames[t-1]?).map Prod.fst

def reportable (m : ActionMap F) (prev : Option (RawInputState F)) (raw : RawInputState F) : List ActionId :=
  m.bindings.foldl (collect fun id => phaseOf (prev.any (m.slotActive · (slotOf id))) (m.slotActive raw (slotOf id))) []

/-- The actions that the snapshot has room for are active exactly when their slots are, and
all others are inactive. -/
def Separate (m : ActionMap F) (prev : Option (RawInputState F)) (raw : RawInputState F) (id : ActionId) : Prop :=
  if id ∈ (m.reportable prev raw).take kMaxActions then
    prev.any (m.slotActive · (slotOf id)) = prev.any (m.own · id) ∧ m.slotActive raw (slotOf id) = m.own raw id
  else prev.any (m.own · id) = false ∧ m.own raw id = false

theorem phaseOf_inj {p q c d : Bool} : phaseOf p c = phaseOf q d ↔ p = q ∧ c = d := by
  revert p q c d
  decide

theorem update_phase {prev : Option (RawInputState F)} (hprev : m.prevActive = fun i => prev.any (m.slotActive · i))
    (ctx : FrameContext F) : (m.update raw ctx).1.phase id =
      if id ∈ (m.reportable prev raw).take kMaxActions then
        phaseOf (prev.any (m.slotActive · (slotOf id))) (m.slotActive raw (slotOf id))
      else .none := by
  have hphase : m.slotPhase (m.current raw) =
      fun id => phaseOf (prev.any (m.slotActive · (slotOf id))) (m.slotActive raw (slotOf id)) := by
    funext id
    rw [slotPhase, current_active, hprev]
  have h : Lists (m.slotPhase (m.current raw)) [] (.empty ctx) := ⟨rfl, fun st hst => absurd hst List.not_mem_nil⟩
  have hlists := (h.foldl m.bindings).phase_eq id
  rw [hphase] at hlists
  exact hlists

theorem update_own_iff {prev : Option (RawInputState F)} (hprev : m.prevActive = fun i => prev.any (m.slotActive · i))
    (ctx : FrameContext F) :
    (m.update raw ctx).1.phase id = phaseOf (prev.any (m.own · id)) (m.own raw id) ↔ m.Separate prev raw id := by
  rw [update_phase hprev, Separate]
  split
  · exact phaseOf_inj
  · rw [show ActionPhase.none = phaseOf false false from rfl, phaseOf_inj]
    exact and_congr eq_comm eq_comm

/-- In every frame the map has its first bindings, and the activity of the frame before. -/
theorem run_getElem? (frames : List (Frame F)) (prev : Option (RawInputState F))
    (hprev : m.prevActive = fun i => prev.any (m.slotActive · i)) (t : ℕ) {f : Frame F} (hf : frames[t]? = some f) :
    ∃ m' : ActionMap F, m'.bindings = m.bindings ∧
      (m'.prevActive = fun i => (if t = 0 then prev else before frames t).any (m.slotActive · i)) ∧
      (m.run frames)[t]? = some (m'.update f.1 f.2).1 := by
  induction t generalizing m frames prev with
  | zero =>
    cases frames with
    | nil => cases hf
    | cons g frames =>
      cases hf
      exact ⟨m, rfl, hprev, rfl⟩
  | succ t ih =>
    cases frames with
    | nil => cases hf
    | cons g frames =>
      have hnext : (m.update g.1 g.2).2.prevActive =
          fun i => (some g.1).any ((m.update g.1 g.2).2.slotActive · i) := current_active
      obtain ⟨m', hb, hp, hr⟩ := ih frames (some g.1) hnext hf
      refine ⟨m', hb, hp.trans ?_, hr⟩
      cases t <;> rfl

/-- In a run every frame reports of every action the phase that the activity of its own
bindings gives, just when in every frame every action is separate from the others. -/
theorem phases_iff (edits : List (Edit F)) (frames : List (Frame F)) :
    (∀ t raw ctx, frames[t]? = some (raw, ctx) → ∃ snap, ((make edits).run frames)[t]? = some snap ∧
      ∀ id, snap.phase id = phaseOf ((before frames t).any ((make edits).own · id)) ((make edits).own raw id)) ↔
    ∀ t raw ctx, frames[t]? = some (raw, ctx) → ∀ id, (make edits).Separate (before frames t) raw id := by
  refine forall_congr' fun t => forall_congr' fun raw => forall_congr' fun ctx => forall_congr' fun hf => ?_
  have hnone : (make edits).prevActive =
      fun i => (none : Option (RawInputState F)).any ((make edits).slotActive · i) := make_prevActive edits
  obtain ⟨m', hb, hp, hr⟩ := run_getElem? frames none hnone t hf
  have hbefore : (if t = 0 then none else before frames t) = before frames t := by
    unfold before
    split <;> rfl
  have hslot : m'.slotActive = (make edits).slotActive := by
    funext raw i
    rw [slotActive, slotActive, hb]
  have hown : m'.own = (make edits).own := by
    funext raw id
    rw [own, own, hb]
  have hreport : m'.reportable = (make edits).reportable := by
    funext prev raw
    rw [reportable, reportable, hb, hslot]
  rw [hbefore, ← hslot] at hp
  have hiff : ∀ id, (m'.update raw ctx).1.phase id =
      phaseOf ((before frames t).any ((make edits).own · id)) ((make edits).own raw id) ↔
        (make edits).Separate (before frames t) raw id := by
    intro id
    have h : (m'.update raw ctx).1.phase id = _ ↔ m'.Separate _ raw id := update_own_iff hp ctx
    rwa [hown, Separate, hslot, hown, hreport] at h
  rw [hr]
  constructor
  · rintro ⟨snap, hs, hall⟩ id
    cases hs
    exact (hiff id).mp (hall id)
  · exact fun hall => ⟨_, rfl, fun id => (hiff id).mpr (hall id)⟩

end Runs

section Example
/-- Exact arithmetic; `sqrt` and `pow` are right at 0 and 1. -/
instance : FloatArith ℚ where
  decidableLT x y := inferInstanceAs (Decidable (x < y))
  decidableLE x y := inferInstanceAs (Decidable (x ≤ y))
  sqrt x := x
  pow x _ := x

def someInput : RawInputState ℚ := ⟨fun k => k = 5, fun _ => false, (0, 0), fun _ => 0, fun _ => false⟩

def someEdits : List (Edit ℚ) := [.add ⟨1, .keyboardKey, 5, 1⟩, .add ⟨65, .keyboardKey, 6, 1⟩]

/-- Key 5 is bound to action 1, key 6 to action 65: pressing key 5 reports action 65, too. -/
theorem phase_of_other_key : ¬ ∀ (edits : List (Edit ℚ)) (frames : List (Frame ℚ)) (t : ℕ) (raw : RawInputState ℚ)
    (ctx : FrameContext ℚ), frames[t]? = some (raw, ctx) → ∃ snap, ((make edits).run frames)[t]? = some snap ∧
      ∀ id, snap.phase id = phaseOf ((before frames t).any ((make edits).own · id)) ((make edits).own raw id) := by
  intro h
  obtain ⟨snap, hs, hall⟩ := h someEdits [(someInput, ⟨0, 0⟩)] 0 someInput ⟨0, 0⟩ rfl
  cases hs
  have hown : (make someEdits).own someInput 65 = false := rfl
  have hphase := hall 65
  rw [hown] at hphase
  exact absurd hphase (by decide)

end Example

end Zpc.ActionMap
