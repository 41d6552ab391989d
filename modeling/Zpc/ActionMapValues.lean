import Zpc.ActionMapPhases

/-!
# The value of an action

In exact arithmetic the value that a frame reports is the strongest product of a raw input
and the scale of its binding, the first of those with the largest magnitude. The scale of a
gamepad axis counts twice.
-/
namespace Zpc.ActionMap
open AxisProcessor

section Strongest
variable {F β : Type*} [AddCommGroup F] [LinearOrder F] {product : β → F} {bs : List β} {v v' : F}

/-- The value is the product of the first element whose product has the largest magnitude. -/
def Strongest (v : F) (bs : List β) (product : β → F) : Prop :=
  ∃ before b after, bs = before ++ b :: after ∧ v = product b ∧ (∀ a ∈ bs, |product a| ≤ |product b|) ∧
    ∀ a ∈ before, |product a| < |product b|

theorem Strongest.unique (h : Strongest v bs product) (h' : Strongest v' bs product) : v = v' := by
  obtain ⟨before, b, after, rfl, rfl, hmax, hfirst⟩ := h
  obtain ⟨before', b', after', hsplit, rfl, hmax', hfirst'⟩ := h'
  have hmem : b' ∈ before ++ b :: after := by
    rw [hsplit]
    exact List.mem_append_cons_self
  rcases List.append_eq_append_iff.mp hsplit with ⟨c, rfl, hc⟩ | ⟨c, rfl, hc⟩
  · cases c with
    | nil => rw [(List.cons.inj hc).1]
    | cons a c =>
      obtain ⟨rfl, -⟩ := List.cons.inj hc
      exact absurd (hfirst' b List.mem_append_cons_self) (not_lt.mpr (hmax b' hmem))
  · cases c with
    | nil => rw [(List.cons.inj hc).1]
    | cons a c =>
      obtain ⟨rfl, -⟩ := List.cons.inj hc
      exact absurd (hfirst b' List.mem_append_cons_self) (not_lt.mpr (hmax' b List.mem_append_cons_self))

theorem Strongest.eq_of_singleton {b : β} (h : Strongest v [b] product) : v = product b := by
  obtain ⟨before, a, after, hsplit, rfl, -, -⟩ := h
  have hmem : a ∈ [b] := by
    rw [hsplit]
    exact List.mem_append_cons_self
  rw [List.mem_singleton.mp hmem]

def stronger (product : β → F) (best : F) (b : β) : F := if |best| < |product b| then product b else best

theorem Strongest.step (h : Strongest v bs product) (b : β) : Strongest (stronger product v b) (bs ++ [b]) product := by
  obtain ⟨before, a, after, rfl, rfl, hmax, hfirst⟩ := h
  unfold stronger
  split_ifs with hlt
  · refine ⟨before ++ a :: after, b, [], rfl, rfl, fun x hx => ?_, fun x hx => (hmax x hx).trans_lt hlt⟩
    rcases List.mem_append.mp hx with hx | hx
    · exact (hmax x hx).trans hlt.le
    · rw [List.mem_singleton.mp hx]
  · refine ⟨before, a, after ++ [b], by simp, rfl, fun x hx => ?_, hfirst⟩
    rcases List.mem_append.mp hx with hx | hx
    · exact hmax x hx
    · rw [List.mem_singleton.mp hx]
      exact not_lt.mp hlt

theorem strongest_foldl [IsOrderedAddMonoid F] (hne : bs ≠ []) :
    Strongest (bs.foldl (stronger product) 0) bs product := by
  induction bs using List.reverseRecOn with
  | nil => exact absurd rfl hne
  | append_singleton bs b ih =>
    rw [List.foldl_append]
    by_cases hnil : bs = []
    · subst hnil
      refine ⟨[], b, [], rfl, ?_, fun a ha => by rw [List.mem_singleton.mp ha], nofun⟩
      show (if |0| < |product b| then product b else 0) = product b
      split_ifs with hlt
      · rfl
      · rw [abs_zero, not_lt, abs_nonpos_iff] at hlt
        exact hlt.symm
    · exact (ih hnil).step b

end Strongest

section Slots
variable {F : Type*}

/-- The bindings of an action. -/
def ownBindings (m : ActionMap F) (id : ActionId) : List (ActionBinding F) := m.bindings.filter fun b => b.actionId == id

/-- The action ids of the bindings fall into distinct slots. -/
def DistinctSlots (m : ActionMap F) : Prop :=
  ∀ b ∈ m.bindings, ∀ b' ∈ m.bindings, slotOf b.actionId = slotOf b'.actionId → b.actionId = b'.actionId

variable [FloatArith F]

/-- The action is bound, and its slot is active or was in the frame before. -/
def Reported (m : ActionMap F) (raw : RawInputState F) (id : ActionId) : Prop :=
  (∃ b ∈ m.bindings, b.actionId = id) ∧ (m.prevActive (slotOf id) = true ∨ m.slotActive raw (slotOf id) = true)

end Slots

section Values
class Roots (F : Type*) where
  sqrt : F → F
  pow : F → F → F

variable {F : Type*} [Field F] [LinearOrder F] [Roots F] {m : ActionMap F} {raw : RawInputState F} {cur : Current F}
  {id : ActionId}

local instance exactArith : FloatArith F where
  ofScientific := OfScientific.ofScientific
  decidableLT x y := inferInstanceAs (Decidable (x < y))
  decidableLE x y := inferInstanceAs (Decidable (x ≤ y))
  sqrt := Roots.sqrt
  pow := Roots.pow

/-- The raw input of a binding; the mouse axes are not read through bindings. -/
def rawInput (raw : RawInputState F) (b : ActionBinding F) : F := match b.source with
  | .keyboardKey => if h : b.sourceCode.toNat < kMaxKeys then (if raw.keys ⟨_, h⟩ then 1 else 0) else 0
  | .mouseButton => if h : b.sourceCode.toNat < kMaxMouseButtons then (if raw.mouseButtons ⟨_, h⟩ then 1 else 0) else 0
  | .gamepadButton =>
    if h : b.sourceCode.toNat < kMaxGamepadButtons then (if raw.gamepadButtons ⟨_, h⟩ then 1 else 0) else 0
  | .gamepadAxis => if h : b.sourceCode.toNat < kMaxGamepadAxes then raw.gamepadAxes ⟨_, h⟩ else 0
  | .mouseAxis => 0

def product (raw : RawInputState F) (b : ActionBinding F) : F := rawInput raw b * b.scale

/-- The product with the scale of a gamepad axis once more. -/
def scaledTwice (raw : RawInputState F) (b : ActionBinding F) : F := match b.source with
  | .gamepadAxis => product raw b * b.scale
  | _ => product raw b

variable [IsStrictOrderedRing F]

theorem absVal_exact (x : F) : absVal x = |x| := by
  unfold absVal
  rw [show (0.0 : F) = 0 by norm_num]
  split_ifs with h
  · exact (abs_of_neg h).symm
  · exact (abs_of_nonneg (not_lt.mp h)).symm

theorem resolve_exact (raw : RawInputState F) (b : ActionBinding F) :
    (resolve raw b).1 * b.scale = scaledTwice raw b := by
  have hzero : (0.0 : F) = 0 := by norm_num
  have hone : (1.0 : F) = 1 := by norm_num
  unfold resolve scaledTwice product rawInput
  cases b.source with
  | keyboardKey | mouseButton | gamepadButton =>
    simp only
    split_ifs <;> simp [hzero, hone]
  | gamepadAxis =>
    simp only
    split_ifs
    · rfl
    · simp [hzero]
  | mouseAxis => simp [hzero]

theorem bind_value (cur : Current F) (b : ActionBinding F) (i : Fin kMaxActions) :
    (cur.bind raw b).value i =
      if slotOf b.actionId = i then stronger (scaledTwice raw) (cur.value i) b else cur.value i := by
  unfold Current.bind
  simp only [resolve_exact, absVal_exact]
  by_cases hi : slotOf b.actionId = i
  · subst hi
    rw [if_pos rfl, stronger]
    split_ifs with hlt
    · rw [Function.update_self]
    · rfl
  · rw [if_neg hi]
    split_ifs with hlt
    · rw [Function.update_of_ne (Ne.symm hi)]
    · rfl

theorem foldl_bind_value (bs : List (ActionBinding F)) (i : Fin kMaxActions) :
    (bs.foldl (Current.bind raw) cur).value i =
      (bs.filter fun b => slotOf b.actionId == i).foldl (stronger (scaledTwice raw)) (cur.value i) := by
  induction bs generalizing cur with
  | nil => rfl
  | cons b bs ih =>
    rw [List.foldl_cons, ih, bind_value, List.filter_cons]
    by_cases hi : slotOf b.actionId = i
    · rw [if_pos hi, if_pos (beq_iff_eq.mpr hi), List.foldl_cons]
    · rw [if_neg hi, if_neg (by rwa [beq_iff_eq])]

theorem current_value (raw : RawInputState F) (hdistinct : m.DistinctSlots) (hbound : ∃ b ∈ m.bindings, b.actionId = id) :
    Strongest ((m.current raw).value (slotOf id)) (m.ownBindings id) (scaledTwice raw) := by
  obtain ⟨b, hb, rfl⟩ := hbound
  have hown : (m.bindings.filter fun b' => slotOf b'.actionId == slotOf b.actionId) = m.ownBindings b.actionId := by
    apply List.filter_congr
    intro b' hb'
    rw [Bool.eq_iff_iff, beq_iff_eq, beq_iff_eq]
    exact ⟨hdistinct b' hb' b hb, fun h => by rw [h]⟩
  rw [current, foldl_bind_value, hown, show (0.0 : F) = 0 by norm_num]
  apply strongest_foldl
  exact List.ne_nil_of_mem (List.mem_filter.mpr ⟨hb, beq_self_eq_true _⟩)

end Values

section Reports
variable {F : Type*} {m : ActionMap F} {raw : RawInputState F} {cur : Current F} {id : ActionId} {snap : ActionSnapshot F}
  {phase : ActionId → ActionPhase} {ids : List ActionId}

theorem mem_foldl_collect (bs : List (ActionBinding F)) : id ∈ bs.foldl (collect phase) ids ↔
    id ∈ ids ∨ (∃ b ∈ bs, b.actionId = id) ∧ phase id ≠ .none := by
  induction bs generalizing ids with
  | nil => simp
  | cons b bs ih =>
    rw [List.foldl_cons, ih]
    have hstep : id ∈ collect phase ids b ↔ id ∈ ids ∨ b.actionId = id ∧ phase id ≠ .none := by
      unfold collect
      split_ifs with hskip
      · refine ⟨.inl, fun h => h.elim (fun h => h) fun ⟨heq, hphase⟩ => ?_⟩
        rw [heq] at hskip
        exact hskip.resolve_right hphase
      · rw [not_or] at hskip
        rw [List.mem_append, List.mem_singleton]
        refine or_congr_right ⟨fun heq => ?_, fun h => h.1.symm⟩
        rw [heq]
        exact ⟨rfl, hskip.2⟩
    rw [hstep]
    simp only [List.exists_mem_cons_iff]
    tauto

theorem nodup_foldl_collect (phase : ActionId → ActionPhase) (bs : List (ActionBinding F)) (hids : ids.Nodup) :
    (bs.foldl (collect phase) ids).Nodup := by
  induction bs generalizing ids with
  | nil => exact hids
  | cons b bs ih =>
    apply ih
    unfold collect
    split_ifs with hskip
    · exact hids
    · rw [← List.concat_eq_append]
      exact hids.concat fun hmem => hskip (.inl hmem)

variable [FloatArith F]

theorem foldl_report_value (bs : List (ActionBinding F)) (snap : ActionSnapshot F)
    (hsnap : ∀ st ∈ snap.actions, st.value = cur.value (slotOf st.id)) :
    ∀ st ∈ (bs.foldl (m.report cur) snap).actions, st.value = cur.value (slotOf st.id) := by
  induction bs generalizing snap with
  | nil => exact hsnap
  | cons b bs ih =>
    apply ih
    have hadd : ∀ phase duration,
        ∀ st ∈ (snap.addAction ⟨b.actionId, phase, cur.value (slotOf b.actionId), duration⟩).actions,
        st.value = cur.value (slotOf st.id) := by
      intro phase duration st hst
      unfold ActionSnapshot.addAction at hst
      split_ifs at hst
      · exact hsnap st hst
      · rcases List.mem_append.mp hst with hst | hst
        · exact hsnap st hst
        · rw [List.mem_singleton.mp hst]
    unfold ActionMap.report
    simp only
    split
    · exact hsnap
    · split
      · exact hsnap
      all_goals exact hadd _ _

theorem update_value {frame : FrameContext F} {st : ActionState F} (hst : st ∈ (m.update raw frame).1.actions) :
    st.value = (m.current raw).value (slotOf st.id) :=
  foldl_report_value m.bindings (.empty frame) nofun st hst

/-- With distinct slots there is room for every action in the snapshot. -/
theorem reported_iff (hdistinct : m.DistinctSlots) (frame : FrameContext F) :
    (∃ st ∈ (m.update raw frame).1.actions, st.id = id) ↔ m.Reported raw id := by
  have hempty : Lists (m.slotPhase (m.current raw)) [] (.empty frame) := ⟨rfl, fun st hst => absurd hst List.not_mem_nil⟩
  have hlists := hempty.foldl m.bindings
  have hmem : ∀ {id}, id ∈ m.bindings.foldl (collect (m.slotPhase (m.current raw))) [] ↔
      (∃ b ∈ m.bindings, b.actionId = id) ∧ m.slotPhase (m.current raw) id ≠ .none := by
    intro id
    rw [mem_foldl_collect]
    simp
  have hlength : (m.bindings.foldl (collect (m.slotPhase (m.current raw))) []).length ≤ kMaxActions := by
    have hnodup := nodup_foldl_collect (m.slotPhase (m.current raw)) m.bindings List.nodup_nil
    have hslots := hnodup.map_on (f := slotOf) fun x hx y hy heq => by
      obtain ⟨⟨b, hb, rfl⟩, -⟩ := hmem.mp hx
      obtain ⟨⟨b', hb', rfl⟩, -⟩ := hmem.mp hy
      exact hdistinct b hb b' hb' heq
    have hcard := hslots.length_le_card
    rwa [List.length_map, Fintype.card_fin] at hcard
  have hphase : m.slotPhase (m.current raw) id ≠ .none ↔
      m.prevActive (slotOf id) = true ∨ m.slotActive raw (slotOf id) = true := by
    rw [slotPhase, current_active]
    cases m.prevActive (slotOf id) <;> cases m.slotActive raw (slotOf id) <;> decide
  have hids := hlists.ids
  rw [List.take_of_length_le hlength] at hids
  rw [Reported, ← hphase, ← hmem, ← hids, List.mem_map]
  exact Iff.rfl

end Reports

section Result
variable {F : Type*} [Field F] [LinearOrder F] [IsStrictOrderedRing F] [Roots F] {m : ActionMap F} {raw : RawInputState F}

attribute [local instance] exactArith

/-- Every value reported is the strongest product of its action just when for every action
reported the strongest product stays the same with the scales of its axes counted twice. -/
theorem values_iff (m : ActionMap F) (hdistinct : m.DistinctSlots) (raw : RawInputState F) (frame : FrameContext F) :
    (∀ st ∈ (m.update raw frame).1.actions, Strongest st.value (m.ownBindings st.id) (product raw)) ↔
      ∀ id, m.Reported raw id → ∃ v, Strongest v (m.ownBindings id) (product raw) ∧
        Strongest v (m.ownBindings id) (scaledTwice raw) := by
  have hstrongest : ∀ st ∈ (m.update raw frame).1.actions, Strongest st.value (m.ownBindings st.id) (scaledTwice raw) := by
    intro st hst
    rw [update_value hst]
    exact current_value raw hdistinct ((reported_iff hdistinct frame).mp ⟨st, hst, rfl⟩).1
  constructor
  · intro hproduct id hid
    obtain ⟨st, hst, rfl⟩ := (reported_iff hdistinct frame).mpr hid
    exact ⟨st.value, hproduct st hst, hstrongest st hst⟩
  · intro hsame st hst
    obtain ⟨v, hv, hv'⟩ := hsame st.id ((reported_iff hdistinct frame).mp ⟨st, hst, rfl⟩)
    rwa [(hstrongest st hst).unique hv']

end Result

section Example
attribute [local instance] exactArith

instance : Roots ℚ := ⟨fun x => x, fun x _ => x⟩

def axisMap (scale : ℚ) : ActionMap ℚ :=
  {create with bindings := [⟨1, .gamepadAxis, 0, scale⟩], heldTime := fun _ => 0}

def fullDeflection : RawInputState ℚ := ⟨fun _ => false, fun _ => false, (0, 0), fun _ => 1, fun _ => false⟩

theorem axisMap_distinct (scale : ℚ) : (axisMap scale).DistinctSlots := by
  intro b hb b' hb' _
  rw [List.mem_singleton.mp hb, List.mem_singleton.mp hb']

/-- An axis fully deflected is reported at a quarter for half the scale. -/
theorem axis_scaled_twice : ¬ ∀ (m : ActionMap ℚ) (raw : RawInputState ℚ) (frame : FrameContext ℚ), m.DistinctSlots →
    ∀ st ∈ (m.update raw frame).1.actions, Strongest st.value (m.ownBindings st.id) (product raw) := by
  intro hall
  have hactive : (axisMap (1 / 2)).slotActive fullDeflection (slotOf 1) = true := by decide +kernel
  obtain ⟨st, hst, hid⟩ := (reported_iff (axisMap_distinct (1 / 2)) ⟨0, 0⟩).mpr ⟨⟨_, .head _, rfl⟩, .inr hactive⟩
  have hproduct := hall _ fullDeflection ⟨0, 0⟩ (axisMap_distinct (1 / 2)) st hst
  rw [update_value hst, hid] at hproduct
  have htwice := current_value fullDeflection (axisMap_distinct (1 / 2)) ⟨_, .head _, rfl⟩
  have hsame := hproduct.eq_of_singleton.symm.trans htwice.eq_of_singleton
  exact absurd hsame (by decide +kernel)

theorem values_iff_full_scale : (axisMap 1).DistinctSlots ∧
    ((∀ st ∈ ((axisMap 1).update fullDeflection ⟨0, 0⟩).1.actions,
        Strongest st.value ((axisMap 1).ownBindings st.id) (product fullDeflection)) ↔
      ∀ id, (axisMap 1).Reported fullDeflection id → ∃ v, Strongest v ((axisMap 1).ownBindings id) (product fullDeflection) ∧
        Strongest v ((axisMap 1).ownBindings id) (scaledTwice fullDeflection)) :=
  ⟨axisMap_distinct 1, values_iff (axisMap 1) (axisMap_distinct 1) fullDeflection ⟨0, 0⟩⟩

end Example
end Zpc.ActionMap
