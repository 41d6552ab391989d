import Zpc.ExecutionGraphLanes

/-!
# Exclusive lanes

A pass marked exclusive opens a lane of its own. A later pass goes to the first lane of its
class or to the lane of a predecessor, and nothing asks whether that lane is exclusive.
-/
namespace Zpc
namespace LaneTable

def primary (t : LaneTable) (queueClass : AsyncQueueClass) : Option ℕ :=
  (List.range t.laneStates.length).find? (t.hasClass queueClass)

variable {t : LaneTable} {queueClass queueClass' : AsyncQueueClass} {pass lane : ℕ} {label : String}

theorem primary_place : (t.place pass lane).primary queueClass = t.primary queueClass := by
  have hlen : (t.place pass lane).laneStates.length = t.laneStates.length := by simp [place]
  rw [primary, primary, hlen]
  congr 1
  funext l
  exact hasClass_place pass lane

theorem find?_congr_mem {α : Type*} {f f' : α → Bool} {as : List α} (h : ∀ a ∈ as, f a = f' a) :
    as.find? f = as.find? f' := by
  induction as with
  | nil => rfl
  | cons a as ih =>
    rw [List.find?_cons, List.find?_cons, h a (List.mem_cons_self ..), ih fun b hb => h b (List.mem_cons_of_mem _ hb)]

theorem primary_addLane : (t.addLane queueClass' label).primary queueClass =
    (t.primary queueClass).or (if queueClass' = queueClass then some t.laneStates.length else none) := by
  have hlen : (t.addLane queueClass' label).laneStates.length = t.laneStates.length + 1 := by simp [addLane]
  have hold : (List.range t.laneStates.length).find? ((t.addLane queueClass' label).hasClass queueClass) =
      t.primary queueClass := by
    apply find?_congr_mem
    intro l hl
    simp only [hasClass, addLane, List.getElem?_append_left (List.mem_range.mp hl)]
  have hnew : (t.addLane queueClass' label).hasClass queueClass t.laneStates.length = decide (queueClass' = queueClass) := by
    simp [hasClass, addLane]
  rw [primary, hlen, List.range_succ, List.find?_append, hold, List.find?_singleton, hnew]
  simp

end LaneTable

namespace ExecutionGraph
variable {g : ExecutionGraph} {t t₁ : LaneTable} {done : List ℕ} {p l : ℕ}

/-- Where a pass lands: on a lane of its own, on the first lane of its class, or beside a
predecessor of its class when no predecessor is on that first lane. -/
inductive Lands (g : ExecutionGraph) (t : LaneTable) (p : ℕ) : LaneTable → ℕ → Prop
  | fresh (label : String) (h : (g.pass p).exclusiveLane = true ∨ t.primary (g.queueAssignment p) = none) :
      Lands g t p (t.addLane (g.queueAssignment p) label) t.laneStates.length
  | primary (m : ℕ) (hshared : (g.pass p).exclusiveLane = false) (hm : t.primary (g.queueAssignment p) = some m)
      (h : (∃ q ∈ g.preds p, t.laneAssignments q = m) ∨
        ∀ q ∈ g.preds p, g.queueAssignment q ≠ g.queueAssignment p) : Lands g t p t m
  | beside (m q : ℕ) (hshared : (g.pass p).exclusiveLane = false) (hm : t.primary (g.queueAssignment p) = some m)
      (hnone : ∀ q ∈ g.preds p, t.laneAssignments q ≠ m) (hq : q ∈ g.preds p)
      (hclass : g.queueAssignment q = g.queueAssignment p) : Lands g t p t (t.laneAssignments q)

/-- What the lane table records of the passes placed so far. -/
structure Tracks (g : ExecutionGraph) (t : LaneTable) (done : List ℕ) : Prop where
  onLane : ∀ q ∈ done, t.OnLane q (g.queueAssignment q)
  primary : ∀ queueClass, t.primary queueClass =
    (done.find? fun q => g.queueAssignment q = queueClass).map t.laneAssignments
  members : ∀ (l : ℕ) (s : LaneState), t.laneStates[l]? = some s → ∀ q ∈ s.passes, q ∈ done ∧ t.laneAssignments q = l

theorem Tracks.lane_lt (h : Tracks g t done) {q : ℕ} (hq : q ∈ done) : t.laneAssignments q < t.laneStates.length :=
  LaneTable.hasClass_lt (h.onLane q hq)

/-- A pass conflicts with a lane only through a predecessor on it. -/
theorem Tracks.no_conflict (h : Tracks g t done) (hclosed : ∀ q ∈ done, ∀ r ∈ g.preds q, r ∈ done) (hp : p ∉ done)
    (hnone : ∀ q ∈ g.preds p, t.laneAssignments q ≠ l) : t.hasConflictOnLane g.rawEdges p l = false := by
  apply Bool.eq_false_iff.mpr
  intro hc
  rw [LaneTable.hasConflictOnLane, Option.any_eq_true] at hc
  obtain ⟨s, hs, hs'⟩ := hc
  obtain ⟨q, hq, hq'⟩ := List.any_eq_true.mp hs'
  obtain ⟨e, he, hends⟩ := List.any_eq_true.mp hq'
  obtain ⟨hdone, hlane⟩ := h.members l s hs q hq
  simp only [Bool.or_eq_true, Bool.and_eq_true, decide_eq_true_eq] at hends
  rcases hends with ⟨hsrc, hdst⟩ | ⟨hsrc, hdst⟩
  · exact hp (hclosed q hdone p (mem_preds.mpr ⟨e, he, hsrc, hdst⟩))
  · exact hnone q (mem_preds.mpr ⟨e, he, hsrc, hdst⟩) hlane

theorem findOrCreatePrimaryLane_some {queueClass : AsyncQueueClass} {m : ℕ} (h : t.primary queueClass = some m) :
    t.findOrCreatePrimaryLane queueClass = (m, t) := by
  rw [LaneTable.findOrCreatePrimaryLane]
  rw [LaneTable.primary] at h
  rw [h]

theorem findOrCreatePrimaryLane_none {queueClass : AsyncQueueClass} (h : t.primary queueClass = none) :
    t.findOrCreatePrimaryLane queueClass = (t.laneStates.length, t.addLane queueClass "") := by
  rw [LaneTable.findOrCreatePrimaryLane]
  rw [LaneTable.primary] at h
  rw [h]

theorem hasPredOnLane_false {preds : List ℕ} (h : ∀ q ∈ preds, t.laneAssignments q ≠ l) :
    t.hasPredOnLane preds l = false := by
  apply Bool.eq_false_iff.mpr
  intro hp
  obtain ⟨q, hq, hl⟩ := List.any_eq_true.mp hp
  exact h q hq (of_decide_eq_true hl)

theorem Tracks.assignLane (h : Tracks g t done) (hclosed : ∀ q ∈ done, ∀ r ∈ g.preds q, r ∈ done) (hp : p ∉ done)
    (hpreds : ∀ q ∈ g.preds p, q ∈ done) : ∃ t₁ l, g.assignLane t p = t₁.place p l ∧ Lands g t p t₁ l := by
  cases hx : (g.pass p).exclusiveLane with
  | true =>
    refine ⟨_, _, ?_, .fresh (g.pass p).label (.inl hx)⟩
    rw [ExecutionGraph.assignLane, if_pos hx, LaneTable.placeOnNewLane]
  | false =>
    rw [ExecutionGraph.assignLane, if_neg (by simp [hx])]
    cases hm : t.primary (g.queueAssignment p) with
    | none =>
      refine ⟨_, _, ?_, .fresh "" (.inr hm)⟩
      have hnone : ∀ q ∈ g.preds p, t.laneAssignments q ≠ t.laneStates.length := fun q hq =>
        (h.lane_lt (hpreds q hq)).ne
      have hclass : (g.preds p).find? (g.queueAssignment · = g.queueAssignment p) = none := by
        apply List.find?_eq_none.mpr
        intro q hq hqp
        have hfind := h.primary (g.queueAssignment p)
        rw [hm, eq_comm, Option.map_eq_none_iff] at hfind
        exact List.find?_eq_none.mp hfind q (hpreds q hq) hqp
      have hfree : (t.addLane (g.queueAssignment p) "").hasConflictOnLane g.rawEdges p t.laneStates.length = false := by
        simp [LaneTable.hasConflictOnLane, LaneTable.addLane]
      have hpred : (t.addLane (g.queueAssignment p) "").hasPredOnLane (g.preds p) t.laneStates.length = false :=
        hasPredOnLane_false hnone
      rw [findOrCreatePrimaryLane_none hm]
      simp only [assignShared, hpred, hclass, hfree, Bool.false_eq_true, if_false, Bool.not_false, if_true]
    | some m =>
      rw [findOrCreatePrimaryLane_some hm]
      by_cases hon : ∃ q ∈ g.preds p, t.laneAssignments q = m
      · obtain ⟨q, hq, hqm⟩ := hon
        refine ⟨_, _, ?_, .primary m hx hm (.inl ⟨q, hq, hqm⟩)⟩
        have hpred : t.hasPredOnLane (g.preds p) m = true := List.any_eq_true.mpr ⟨q, hq, decide_eq_true hqm⟩
        simp only [assignShared, hpred, if_true]
      · have hnone : ∀ q ∈ g.preds p, t.laneAssignments q ≠ m := fun q hq hqm => hon ⟨q, hq, hqm⟩
        cases hfind : (g.preds p).find? (g.queueAssignment · = g.queueAssignment p) with
        | some q =>
          refine ⟨_, _, ?_, .beside m q hx hm hnone (List.mem_of_find?_eq_some hfind)
            (by simpa using List.find?_some hfind)⟩
          simp only [assignShared, hasPredOnLane_false hnone, hfind, Bool.false_eq_true, if_false]
        | none =>
          have hother : ∀ q ∈ g.preds p, g.queueAssignment q ≠ g.queueAssignment p := fun q hq =>
            of_decide_eq_false (Bool.eq_false_iff.mpr (List.find?_eq_none.mp hfind q hq))
          refine ⟨_, _, ?_, .primary m hx hm (.inr hother)⟩
          simp only [assignShared, hasPredOnLane_false hnone, hfind, h.no_conflict hclosed hp hnone,
            Bool.false_eq_true, if_false, Bool.not_false, if_true]

theorem Lands.assign (h : Lands g t p t₁ l) : t₁.laneAssignments = t.laneAssignments := by
  cases h <;> rfl

theorem Lands.primary_eq (h : Lands g t p t₁ l) (queueClass : AsyncQueueClass) :
    t₁.primary queueClass =
      (t.primary queueClass).or (if g.queueAssignment p = queueClass then some l else none) := by
  have hold {m : ℕ} (hm : t.primary (g.queueAssignment p) = some m) {l : ℕ} : t.primary queueClass =
      (t.primary queueClass).or (if g.queueAssignment p = queueClass then some l else none) := by
    cases hq : t.primary queueClass with
    | none =>
      have hne : g.queueAssignment p ≠ queueClass := fun he => by simp [he, hq] at hm
      rw [if_neg hne, Option.none_or]
    | some m' => rw [Option.some_or]
  cases h with
  | fresh label => exact LaneTable.primary_addLane
  | primary m _ hm => exact hold hm
  | beside m _ _ hm => exact hold hm

theorem Lands.members (h : Lands g t p t₁ l) {i : ℕ} {s : LaneState} (hs : t₁.laneStates[i]? = some s) :
    t.laneStates[i]? = some s ∨ s.passes = [] := by
  cases h with
  | fresh label =>
    simp only [LaneTable.addLane] at hs
    rcases lt_or_ge i t.laneStates.length with hi | hi
    · rw [List.getElem?_append_left hi] at hs
      exact .inl hs
    · rw [List.getElem?_append_right hi, List.getElem?_singleton] at hs
      split_ifs at hs with h0
      obtain rfl := Option.some.inj hs
      exact .inr rfl
  | primary => exact .inl hs
  | beside => exact .inl hs

theorem Tracks.place (h : Tracks g t done) (hlands : Lands g t p t₁ l) (hp : p ∉ done)
    (honLane : ∀ q ∈ done ++ [p], (t₁.place p l).OnLane q (g.queueAssignment q)) :
    Tracks g (t₁.place p l) (done ++ [p]) := by
  have hassign : ∀ q ∈ done, (t₁.place p l).laneAssignments q = t.laneAssignments q := by
    intro q hq
    have hne : q ≠ p := fun he => hp (he ▸ hq)
    exact (Function.update_of_ne hne _ _).trans (congrFun hlands.assign q)
  have hself : (t₁.place p l).laneAssignments p = l := Function.update_self ..
  refine ⟨honLane, fun queueClass => ?_, fun i s hs q hq => ?_⟩
  · rw [LaneTable.primary_place, hlands.primary_eq, h.primary, List.find?_append]
    cases hfind : done.find? fun q => g.queueAssignment q = queueClass with
    | some q =>
      rw [Option.map_some, Option.some_or, Option.some_or, Option.map_some, hassign q (List.mem_of_find?_eq_some hfind)]
    | none =>
      rw [Option.map_none, Option.none_or, Option.none_or, List.find?_singleton]
      by_cases hclass : g.queueAssignment p = queueClass
      · simp [hclass, hself]
      · simp [hclass]
  · simp only [LaneTable.place, List.getElem?_modify] at hs
    obtain ⟨s₀, hs₀, rfl⟩ := Option.map_eq_some_iff.mp hs
    have hold : q ∈ s₀.passes → q ∈ done ++ [p] ∧ (t₁.place p l).laneAssignments q = i := by
      intro hq₀
      rcases hlands.members hs₀ with hs' | hempty
      · obtain ⟨hd, ha⟩ := h.members i s₀ hs' q hq₀
        exact ⟨List.mem_append_left _ hd, (hassign q hd).trans ha⟩
      · rw [hempty] at hq₀
        exact absurd hq₀ (List.not_mem_nil)
    split_ifs at hq with hi
    · rcases List.mem_append.mp hq with hq | hq
      · exact hold hq
      · obtain rfl := List.mem_singleton.mp hq
        exact ⟨List.mem_append_right _ hq, hself.trans hi⟩
    · exact hold hq

theorem closed_of_sorted {rest : List ℕ} (hs : done ++ rest = g.sorted) {q r : ℕ} (hq : q ∈ done) (hr : r ∈ g.preds q) :
    r ∈ done := by
  obtain ⟨e, he, rfl, rfl⟩ := mem_preds.mp hr
  obtain ⟨a, b, rfl⟩ := List.append_of_mem hq
  have hbefore := (sorts g).ordered a e.dst (b ++ rest) (by rw [← hs]; simp) e.src
    (List.mem_range.mpr (rawEdge_bounds he).1) (mem_adj_of_rawEdge he)
  exact List.mem_append_left _ hbefore

/-- One pass of the sorted order: where it lands, and what the table records then. -/
theorem Tracks.step {rest : List ℕ} (h : Tracks g t done) (hs : done ++ p :: rest = g.sorted) :
    ∃ t₁ l, g.assignLane t p = t₁.place p l ∧ Lands g t p t₁ l ∧ Tracks g (g.assignLane t p) (done ++ [p]) := by
  have hnodup : (done ++ p :: rest).Nodup := hs ▸ (sorts g).nodup
  have hp : p ∉ done := fun hd => (List.disjoint_of_nodup_append hnodup) hd (List.mem_cons_self ..)
  have hs' : (done ++ [p]) ++ rest = g.sorted := by simpa using hs
  have hpreds : ∀ q ∈ g.preds p, q ∈ done := fun q hq => by
    obtain ⟨e, he, rfl, rfl⟩ := mem_preds.mp hq
    exact (sorts g).ordered done e.dst rest hs.symm e.src (List.mem_range.mpr (rawEdge_bounds he).1)
      (mem_adj_of_rawEdge he)
  obtain ⟨t₁, l, heq, hlands⟩ := h.assignLane (fun q hq r hr => closed_of_sorted hs hq hr) hp hpreds
  refine ⟨t₁, l, heq, hlands, ?_⟩
  have honLane := onLane_assignLane h.onLane hpreds
  rw [heq] at honLane ⊢
  exact h.place hlands hp honLane

theorem tracks_nil (g : ExecutionGraph) : Tracks g {} [] := by
  refine ⟨fun q hq => absurd hq List.not_mem_nil, fun queueClass => rfl, fun l s hs => ?_⟩
  simp at hs

theorem tracks_foldl {rest : List ℕ} (h : Tracks g t done) (mid : List ℕ) (hs : done ++ (mid ++ rest) = g.sorted) :
    Tracks g (mid.foldl g.assignLane t) (done ++ mid) ∧
      ∀ q ∈ done, (mid.foldl g.assignLane t).laneAssignments q = t.laneAssignments q := by
  induction mid generalizing t done with
  | nil => simpa using h
  | cons p mid ih =>
    have hs' : done ++ p :: (mid ++ rest) = g.sorted := by simpa using hs
    obtain ⟨t₁, l, heq, hlands, htracks⟩ := h.step hs'
    obtain ⟨hi, hkept⟩ := ih htracks (by simpa using hs)
    refine ⟨by simpa using hi, fun q hq => ?_⟩
    have hnodup : (done ++ p :: (mid ++ rest)).Nodup := hs' ▸ (sorts g).nodup
    have hne : q ≠ p := fun he =>
      List.disjoint_of_nodup_append hnodup (he ▸ hq) (List.mem_cons_self ..)
    rw [List.foldl_cons, hkept q (List.mem_append_left _ hq), heq]
    exact (Function.update_of_ne hne _ _).trans (congrFun hlands.assign q)

/-- How a pass comes by its lane, told by the final table. -/
inductive Rule (g : ExecutionGraph) (done : List ℕ) (p : ℕ) : Prop
  | fresh (hfresh : ∀ q ∈ done, g.laneTable.laneAssignments q ≠ g.laneTable.laneAssignments p)
      (h : (g.pass p).exclusiveLane = true ∨ ∀ q ∈ done, g.queueAssignment q ≠ g.queueAssignment p)
  | primary (f : ℕ) (hshared : (g.pass p).exclusiveLane = false)
      (hf : (done.find? fun q => g.queueAssignment q = g.queueAssignment p) = some f)
      (hlane : g.laneTable.laneAssignments p = g.laneTable.laneAssignments f)
      (h : (∃ q ∈ g.preds p, g.laneTable.laneAssignments q = g.laneTable.laneAssignments f) ∨
        ∀ q ∈ g.preds p, g.queueAssignment q ≠ g.queueAssignment p)
  | beside (f q : ℕ) (hshared : (g.pass p).exclusiveLane = false)
      (hf : (done.find? fun q => g.queueAssignment q = g.queueAssignment p) = some f)
      (hnone : ∀ q ∈ g.preds p, g.laneTable.laneAssignments q ≠ g.laneTable.laneAssignments f)
      (hq : q ∈ g.preds p) (hclass : g.queueAssignment q = g.queueAssignment p)
      (hlane : g.laneTable.laneAssignments p = g.laneTable.laneAssignments q)

theorem preds_done {rest : List ℕ} (hs : done ++ p :: rest = g.sorted) {q : ℕ} (hq : q ∈ g.preds p) : q ∈ done := by
  obtain ⟨e, he, rfl, rfl⟩ := mem_preds.mp hq
  exact (sorts g).ordered done e.dst rest hs.symm e.src (List.mem_range.mpr (rawEdge_bounds he).1)
    (mem_adj_of_rawEdge he)

theorem rule {rest : List ℕ} (hs : done ++ p :: rest = g.sorted) : Rule g done p := by
  have hs₀ : [] ++ (done ++ p :: rest) = g.sorted := by rwa [List.nil_append]
  have htracks := (tracks_foldl (tracks_nil g) done hs₀).1
  rw [List.nil_append] at htracks
  obtain ⟨t₁, l, heq, hlands, hnext⟩ := htracks.step hs
  have hfinal : g.laneTable = rest.foldl g.assignLane (g.assignLane (done.foldl g.assignLane {}) p) := by
    rw [laneTable, ← hs, List.foldl_append, List.foldl_cons]
  have hs₁ : (done ++ [p]) ++ (rest ++ []) = g.sorted := by simpa using hs
  have hkept := (tracks_foldl hnext rest hs₁).2
  have hnodup : (done ++ p :: rest).Nodup := hs ▸ (sorts g).nodup
  have hself : g.laneTable.laneAssignments p = l := by
    rw [hfinal, hkept p (by simp), heq]
    exact Function.update_self ..
  have hold : ∀ q ∈ done, g.laneTable.laneAssignments q = (done.foldl g.assignLane {}).laneAssignments q := by
    intro q hq
    have hne : q ≠ p := fun he =>
      List.disjoint_of_nodup_append hnodup (he ▸ hq) (List.mem_cons_self ..)
    rw [hfinal, hkept q (List.mem_append_left _ hq), heq]
    exact (Function.update_of_ne hne _ _).trans (congrFun hlands.assign q)
  have hfirst {m : ℕ} (hm : (done.foldl g.assignLane {}).primary (g.queueAssignment p) = some m) :
      ∃ f, (done.find? fun q => g.queueAssignment q = g.queueAssignment p) = some f ∧
        g.laneTable.laneAssignments f = m := by
    rw [htracks.primary, Option.map_eq_some_iff] at hm
    obtain ⟨f, hf, rfl⟩ := hm
    exact ⟨f, hf, hold f (List.mem_of_find?_eq_some hf)⟩
  cases hlands with
  | fresh label h =>
    refine .fresh (fun q hq => ?_) (h.imp_right fun hnone q hq hclass => ?_)
    · rw [hold q hq, hself]
      exact (htracks.lane_lt hq).ne
    · rw [htracks.primary, Option.map_eq_none_iff] at hnone
      exact List.find?_eq_none.mp hnone q hq (decide_eq_true hclass)
  | primary m hshared hm h =>
    obtain ⟨f, hf, rfl⟩ := hfirst hm
    refine .primary f hshared hf hself (h.imp_left ?_)
    rintro ⟨q, hq, hqf⟩
    exact ⟨q, hq, (hold q (preds_done hs hq)).trans hqf⟩
  | beside m q hshared hm hnone hq hclass =>
    obtain ⟨f, hf, rfl⟩ := hfirst hm
    refine .beside f q hshared hf (fun r hr => ?_) hq hclass (hself.trans (hold q (preds_done hs hq)).symm)
    rw [hold r (preds_done hs hr)]
    exact hnone r hr

theorem class_of_lane {q : ℕ} (hp : p ∈ g.sorted) (hq : q ∈ g.sorted)
    (h : g.laneTable.laneAssignments q = g.laneTable.laneAssignments p) : g.queueAssignment q = g.queueAssignment p := by
  obtain ⟨s, hs, hs'⟩ := LaneTable.hasClass_iff.mp (onLane_laneTable g p hp)
  obtain ⟨s₁, hs₁, hs₁'⟩ := LaneTable.hasClass_iff.mp (onLane_laneTable g q hq)
  rw [h, hs] at hs₁
  obtain rfl := Option.some.inj hs₁
  exact hs₁'.symm.trans hs'

def Dedicated (g : ExecutionGraph) : Prop :=
  ∀ e ∈ g.sorted, (g.pass e).exclusiveLane = true → ∀ q ∈ g.sorted,
    g.laneTable.laneAssignments q = g.laneTable.laneAssignments e → q = e

/-- The first pass of the class of a shared pass is shared, and a shared pass with an exclusive
predecessor of its class has a shared one as well. -/
def SharedFirst (g : ExecutionGraph) : Prop :=
  ∀ p ∈ g.sorted, (g.pass p).exclusiveLane = false →
    (∀ f, (g.sorted.find? fun q => g.queueAssignment q = g.queueAssignment p) = some f →
        (g.pass f).exclusiveLane = false) ∧
      ((∃ q ∈ g.preds p, g.queueAssignment q = g.queueAssignment p ∧ (g.pass q).exclusiveLane = true) →
        ∃ q ∈ g.preds p, g.queueAssignment q = g.queueAssignment p ∧ (g.pass q).exclusiveLane = false)

theorem find?_sorted {rest : List ℕ} {f : ℕ} {queueClass : AsyncQueueClass} (hs : done ++ p :: rest = g.sorted)
    (hf : (done.find? fun q => g.queueAssignment q = queueClass) = some f) :
    (g.sorted.find? fun q => g.queueAssignment q = queueClass) = some f := by
  rw [← hs, List.find?_append, hf, Option.some_or]

/-- Every pass before a position has a property that a pass inherits from those before it. -/
theorem sorted_induction {P : ℕ → Prop} (h : ∀ done p rest, done ++ p :: rest = g.sorted → (∀ q ∈ done, P q) → P p) :
    ∀ p ∈ g.sorted, P p := by
  have hprefix : ∀ done rest, done ++ rest = g.sorted → ∀ q ∈ done, P q := by
    intro done
    induction done using List.reverseRecOn with
    | nil => simp
    | append_singleton done p ih =>
      intro rest hs q hq
      have hs' : done ++ p :: rest = g.sorted := by simpa using hs
      rcases List.mem_append.mp hq with hq | hq
      · exact ih _ hs' q hq
      · obtain rfl := List.mem_singleton.mp hq
        exact h done q rest hs' (ih _ hs')
  exact hprefix g.sorted [] (List.append_nil _)

/-- With shared first passes, every shared pass goes to the lane of the first pass of its class. -/
theorem SharedFirst.lane (h : SharedFirst g) : ∀ p ∈ g.sorted, (g.pass p).exclusiveLane = false →
    ∀ f, (g.sorted.find? fun q => g.queueAssignment q = g.queueAssignment p) = some f →
      g.laneTable.laneAssignments p = g.laneTable.laneAssignments f := by
  apply sorted_induction
  intro done p rest hs ih hp f hf
  have hmem : p ∈ g.sorted := by
    rw [← hs]
    simp
  cases rule hs with
  | fresh hfresh hwhy =>
    have hfirst : f = p := by
      have hnone : (done.find? fun q => g.queueAssignment q = g.queueAssignment p) = none := by
        apply List.find?_eq_none.mpr
        intro q hq hclass
        rcases hwhy with hx | hwhy
        · rw [hp] at hx
          exact Bool.false_ne_true hx
        · exact hwhy q hq (of_decide_eq_true hclass)
      rw [← hs, List.find?_append, hnone, Option.none_or, List.find?_cons] at hf
      simpa [eq_comm] using hf
    rw [hfirst]
  | primary f' _ hf' hlane =>
    rw [find?_sorted hs hf'] at hf
    rw [hlane, Option.some.inj hf]
  | beside f' q _ hf' hnone hq hclass hlane =>
    rw [find?_sorted hs hf'] at hf
    obtain rfl := Option.some.inj hf
    have hon : ∀ r ∈ g.preds p, g.queueAssignment r = g.queueAssignment p → (g.pass r).exclusiveLane = true := by
      intro r hr hrp
      apply Bool.of_not_eq_false
      intro hshared
      exact hnone r hr (ih r (preds_done hs hr) hshared f' (by rw [hrp]; exact find?_sorted hs hf'))
    obtain ⟨r, hr, hrp, hshared⟩ := (h p hmem hp).2 ⟨q, hq, hclass, hon q hq hclass⟩
    rw [hon r hr hrp] at hshared
    exact absurd hshared.symm Bool.false_ne_true

theorem apart_of_exclusive {rest : List ℕ} (hs : done ++ p :: rest = g.sorted) (hp : (g.pass p).exclusiveLane = true) :
    ∀ q ∈ done, g.laneTable.laneAssignments q ≠ g.laneTable.laneAssignments p := by
  cases rule hs with
  | fresh hfresh => exact hfresh
  | primary f hshared =>
    rw [hp] at hshared
    exact absurd hshared.symm Bool.false_ne_true
  | beside f q hshared =>
    rw [hp] at hshared
    exact absurd hshared.symm Bool.false_ne_true

theorem SharedFirst.dedicated (h : SharedFirst g) : Dedicated g := by
  intro e he hx q hq hlane
  by_contra hne
  have hclass := class_of_lane he hq hlane
  obtain ⟨done, rest, hs⟩ := List.append_of_mem he
  have hbefore : q ∉ done := fun hd => apart_of_exclusive hs.symm hx q hd hlane
  have hafter : q ∈ rest := by
    rw [hs] at hq
    simpa [hbefore, hne] using hq
  cases hshared : (g.pass q).exclusiveLane with
  | true =>
    obtain ⟨a, b, rfl⟩ := List.append_of_mem hafter
    have hs' : (done ++ e :: a) ++ q :: b = g.sorted := by simpa using hs.symm
    exact apart_of_exclusive hs' hshared e (by simp) hlane.symm
  | false =>
    have hsome : (g.sorted.find? fun r => g.queueAssignment r = g.queueAssignment q).isSome :=
      List.find?_isSome.mpr ⟨q, hq, by simp⟩
    obtain ⟨f, hf⟩ := Option.isSome_iff_exists.mp hsome
    have hff := (h q hq hshared).1 f hf
    have hlanef := h.lane q hq hshared f hf
    have hdone : f ∈ done := by
      rw [hs, List.find?_append] at hf
      cases hd : done.find? fun r => g.queueAssignment r = g.queueAssignment q with
      | some f' =>
        rw [hd, Option.some_or] at hf
        obtain rfl := Option.some.inj hf
        exact List.mem_of_find?_eq_some hd
      | none =>
        rw [hd, Option.none_or] at hf
        simp only [List.find?_cons, hclass, decide_true] at hf
        obtain rfl := Option.some.inj hf
        rw [hx] at hff
        exact absurd hff.symm Bool.false_ne_true
    exact apart_of_exclusive hs.symm hx f hdone (hlanef.symm.trans hlane)

/-- Behind an exclusive first pass, every shared pass of the class joins an exclusive one. -/
theorem joins_exclusive {f : ℕ} (hfm : f ∈ g.sorted) (hx : (g.pass f).exclusiveLane = true)
    (hf : (g.sorted.find? fun q => g.queueAssignment q = g.queueAssignment f) = some f) :
    ∀ p ∈ g.sorted, (g.pass p).exclusiveLane = false → g.queueAssignment p = g.queueAssignment f →
      ∃ e ∈ g.sorted, (g.pass e).exclusiveLane = true ∧
        g.laneTable.laneAssignments p = g.laneTable.laneAssignments e := by
  apply sorted_induction
  intro done p rest hs ih hp hclass
  cases rule hs with
  | fresh hfresh hwhy =>
    have hnone : (done.find? fun q => g.queueAssignment q = g.queueAssignment f) = none := by
      apply List.find?_eq_none.mpr
      intro q hq hqf
      rcases hwhy with hpx | hwhy
      · rw [hp] at hpx
        exact Bool.false_ne_true hpx
      · exact hwhy q hq ((of_decide_eq_true hqf).trans hclass.symm)
    rw [← hs, List.find?_append, hnone, Option.none_or] at hf
    simp only [List.find?_cons, hclass, decide_true] at hf
    rw [← Option.some.inj hf, hp] at hx
    exact absurd hx Bool.false_ne_true
  | primary f' _ hf' hlane =>
    have hff' := find?_sorted hs hf'
    rw [hclass, hf] at hff'
    exact ⟨f, hfm, hx, by rw [hlane, Option.some.inj hff']⟩
  | beside f' q _ hf' hnone hq hqp hlane =>
    have hqd := preds_done hs hq
    cases hqx : (g.pass q).exclusiveLane with
    | true => exact ⟨q, hs ▸ List.mem_append_left _ hqd, hqx, hlane⟩
    | false =>
      obtain ⟨e, he, hex, hqe⟩ := ih q hqd hqx (hqp.trans hclass)
      exact ⟨e, he, hex, hlane.trans hqe⟩

theorem Dedicated.sharedFirst (h : Dedicated g) : SharedFirst g := by
  have happart : ∀ p ∈ g.sorted, (g.pass p).exclusiveLane = false → ∀ e ∈ g.sorted,
      (g.pass e).exclusiveLane = true → g.laneTable.laneAssignments p ≠ g.laneTable.laneAssignments e := by
    intro p hp hshared e he hx hlane
    rw [← h e he hx p hp hlane, hshared] at hx
    exact Bool.false_ne_true hx
  intro p hp hshared
  refine ⟨fun f hf => ?_, fun ⟨q, hq, hqp, hqx⟩ => ?_⟩
  · apply Bool.eq_false_iff.mpr
    intro hx
    have hfp : g.queueAssignment f = g.queueAssignment p := by simpa using List.find?_some hf
    have hfm := List.mem_of_find?_eq_some hf
    obtain ⟨e, he, hex, hlane⟩ := joins_exclusive hfm hx (by rw [hfp]; exact hf) p hp hshared hfp.symm
    exact happart p hp hshared e he hex hlane
  · by_contra hnone
    have hall : ∀ r ∈ g.preds p, g.queueAssignment r = g.queueAssignment p → (g.pass r).exclusiveLane = true := by
      intro r hr hrp
      apply Bool.of_not_eq_false
      exact fun hrs => hnone ⟨r, hr, hrp, hrs⟩
    obtain ⟨done, rest, hs⟩ := List.append_of_mem hp
    have hsorted : ∀ r ∈ g.preds p, r ∈ g.sorted := fun r hr => by
      rw [hs]
      exact List.mem_append_left _ (preds_done hs.symm hr)
    cases rule hs.symm with
    | fresh hfresh hwhy =>
      rcases hwhy with hx | hwhy
      · rw [hshared] at hx
        exact Bool.false_ne_true hx
      · exact hwhy q (preds_done hs.symm hq) hqp
    | primary f _ hf hlane hon =>
      rcases hon with ⟨r, hr, hrf⟩ | hother
      · have hrp := class_of_lane hp (hsorted r hr) (hrf.trans hlane.symm)
        exact happart p hp hshared r (hsorted r hr) (hall r hr hrp) (hlane.trans hrf.symm)
      · exact hother q hq hqp
    | beside f r _ _ _ hr hrp hlane =>
      exact happart p hp hshared r (hsorted r hr) (hall r hr hrp) hlane

theorem dedicated_iff (hv : g.compile.valid = true) :
    (∀ timeline ∈ g.compile.laneTimelines, ∀ p ∈ timeline, (g.pass p).exclusiveLane = true →
      ∀ q ∈ timeline, q = p) ↔ Dedicated g := by
  obtain ⟨-, -, -, -, ht, -⟩ := compile_of_valid hv
  rw [ht]
  constructor
  · intro h e he hx q hq hqe
    have htimeline := getElem?_timelines (lane_lt he)
    refine h _ (List.mem_of_getElem? htimeline) e ?_ hx q ?_
    · simpa using he
    · simpa using ⟨hq, hqe⟩
  · intro h timeline htl p hp hx q hq
    obtain ⟨l, hl, rfl⟩ := List.getElem_of_mem htl
    have hll : l < g.laneTable.laneStates.length := by
      by_contra hge
      have hnone : g.timelines[l]? = none := by
        rw [timelines, getElem?_timelines_foldl, List.getElem?_replicate, if_neg hge, Option.map_none]
      rw [List.getElem?_eq_getElem hl] at hnone
      exact Option.some_ne_none _ hnone
    have htimeline := getElem?_timelines hll
    rw [List.getElem?_eq_getElem hl] at htimeline
    rw [Option.some.inj htimeline, List.mem_filter, decide_eq_true_iff] at hp hq
    exact h p hp.1 hx q hq.1 (hq.2.trans hp.2.symm)

/-- The timeline of an exclusive pass holds no other pass exactly when the first pass of every class
that has shared passes is shared, and no shared pass has only exclusive predecessors of its class. -/
theorem exclusive_alone_iff (hv : g.compile.valid = true) :
    (∀ timeline ∈ g.compile.laneTimelines, ∀ p ∈ timeline, (g.pass p).exclusiveLane = true →
        ∀ q ∈ timeline, q = p) ↔ SharedFirst g :=
  (dedicated_iff hv).trans ⟨Dedicated.sharedFirst, SharedFirst.dedicated⟩

/-- A shared pass, and an exclusive one after it. -/
def sharedThenExclusive : ExecutionGraph where
  passes := [{}, {index := 1, exclusiveLane := true}]
  resources := []
  indexed := rfl

theorem exclusive_alone_second : SharedFirst sharedThenExclusive ∧
    ∀ timeline ∈ sharedThenExclusive.compile.laneTimelines, ∀ p ∈ timeline,
      (sharedThenExclusive.pass p).exclusiveLane = true → ∀ q ∈ timeline, q = p := by
  have hsorted : sharedThenExclusive.sorted = [0, 1] := by decide
  have hfirst : SharedFirst sharedThenExclusive := by
    intro p hp hshared
    rw [hsorted] at hp ⊢
    have hp0 : p = 0 := by
      rcases List.mem_cons.mp hp with rfl | hp
      · rfl
      · obtain rfl := List.mem_singleton.mp hp
        exact absurd hshared (by decide)
    subst hp0
    refine ⟨fun f hf => ?_, fun ⟨q, hq, _⟩ => ?_⟩
    · obtain rfl : 0 = f := Option.some.inj hf
      exact hshared
    · obtain ⟨e, he, -⟩ := mem_preds.mp hq
      exact absurd he List.not_mem_nil
  exact ⟨hfirst, (exclusive_alone_iff (by decide)).mpr hfirst⟩

/-- An exclusive pass that writes, followed by a shared one that reads. -/
def exclusiveThenShared : ExecutionGraph where
  passes := [
    {accesses := [⟨⟨1⟩, .write, 0⟩], exclusiveLane := true},
    {index := 1, accesses := [⟨⟨1⟩, .read, 0⟩]}]
  resources := [⟨1⟩]
  indexed := rfl

/-- The second pass joins the lane of the first, which is exclusive. -/
theorem exclusive_lane_shared : ¬ ∀ g : ExecutionGraph, g.compile.valid = true →
    ∀ timeline ∈ g.compile.laneTimelines, ∀ p ∈ timeline, (g.pass p).exclusiveLane = true →
      ∀ q ∈ timeline, q = p := by
  intro h
  have hdedicated := (dedicated_iff (by decide)).mp (h exclusiveThenShared (by decide))
  have hshared := (hdedicated.sharedFirst 1 (by decide) (by decide)).1 0 (by decide)
  exact absurd hshared (by decide)

end ExecutionGraph
end Zpc
