import Zpc.DependencyEdits
import Zpc.VkRenderGraphSort

/-!
# Edits of a render graph under construction

`insertPassBefore`, `insertPassAfter` and `removePass` of `RenderGraphBuilder` in `VkRenderGraph.cpp`. A new pass comes
with the dependencies that its setup callback gives it. As long as these do not lead back from the target of the
insertion, the edits keep the dependencies without cycles, and every path between passes that are kept.
-/
namespace Zpc.VkRenderGraph
open DependencyEdits Relation

structure RenderGraphBuilder where
  passes : List RenderPassNode := []
  nextPassId : UInt32 := 0

/-- An exception leaves the builder as it was when it was thrown. -/
abbrev BuilderM := ExceptT String (StateM RenderGraphBuilder)

namespace RenderGraphBuilder
def hasPass (b : RenderGraphBuilder) (passId : ℕ) : Bool := b.passes.any (·.id = passId)

def newPass (b : RenderGraphBuilder) (type : PassType) (queue : QueueType) : RenderPassNode :=
  {id := b.nextPassId.toNat, type, queueType := queue}

def addPass (type : PassType) (queue : QueueType) (setup : RenderPassNode → RenderPassNode) : BuilderM ℕ := do
  let b ← get
  set {b with passes := b.passes ++ [setup (b.newPass type queue)], nextPassId := b.nextPassId + 1}
  return b.nextPassId.toNat

def withDependency (fromPass : ℕ) (p : RenderPassNode) : RenderPassNode :=
  if fromPass ∈ p.dependencies then p else {p with dependencies := p.dependencies ++ [fromPass]}

def addDependency (fromPass toPass : ℕ) : BuilderM Unit := do
  let b ← get
  match b.passes.findIdx? (·.id = toPass) with
  | some i => set {b with passes := b.passes.modify i (withDependency fromPass)}
  | none => throw ("Target pass not found: " ++ toString toPass)

def insertPassBefore (targetPassId : ℕ) (type : PassType) (queue : QueueType)
    (setup : RenderPassNode → RenderPassNode) : BuilderM ℕ := do
  if !(← get).hasPass targetPassId then throw ("Target pass not found: " ++ toString targetPassId)
  let id ← addPass type queue setup
  addDependency id targetPassId
  return id

/-- `std::unique`: of equal neighbours the first is kept. -/
def unique : List ℕ → List ℕ
  | a :: b :: l => if a = b then unique (b :: l) else a :: unique (b :: l)
  | l => l

/-- A pass that depends on the target depends on the new pass instead. -/
def rewire (targetPassId id : ℕ) (p : RenderPassNode) : RenderPassNode :=
  if p.id = id ∨ p.id = targetPassId then p
  else if targetPassId ∈ p.dependencies then
    {p with dependencies := unique (p.dependencies.map fun dep => if dep = targetPassId then id else dep)}
  else p

def insertPassAfter (targetPassId : ℕ) (type : PassType) (queue : QueueType)
    (setup : RenderPassNode → RenderPassNode) (rewireDependents : Bool := true) : BuilderM ℕ := do
  if !(← get).hasPass targetPassId then throw ("Target pass not found: " ++ toString targetPassId)
  let id ← addPass type queue setup
  addDependency targetPassId id
  if rewireDependents then modify fun b => {b with passes := b.passes.map (rewire targetPassId id)}
  return id

def reconnect (p : RenderPassNode) (dependencies : List ℕ) (dep : ℕ) : List ℕ :=
  if dep = p.id then dependencies else if dep ∈ dependencies then dependencies else dependencies ++ [dep]

/-- A pass that depends on the removed one loses this dependency and gets those of the removed pass. -/
def disconnect (removed : RenderPassNode) (reconnectDependencies : Bool) (p : RenderPassNode) : RenderPassNode :=
  if p.id = removed.id ∨ removed.id ∉ p.dependencies then p
  else
    let kept := p.dependencies.filter (· ≠ removed.id)
    {p with dependencies := if reconnectDependencies then removed.dependencies.foldl (reconnect p) kept else kept}

def removePass (passId : ℕ) (reconnectDependencies : Bool := true) : BuilderM Unit := do
  let b ← get
  match b.passes.find? (·.id = passId) with
  | some removed =>
    set {b with passes := (b.passes.map (disconnect removed reconnectDependencies)).eraseP (·.id = passId)}
  | none => throw ("Pass not found: " ++ toString passId)

/-! ## Sequences of edits -/

inductive Edit
  | insertBefore (target : ℕ) (type : PassType) (queue : QueueType) (setup : RenderPassNode → RenderPassNode)
  | insertAfter (target : ℕ) (type : PassType) (queue : QueueType) (setup : RenderPassNode → RenderPassNode)
  | remove (passId : ℕ)

def edit (b : RenderGraphBuilder) : Edit → RenderGraphBuilder
  | .insertBefore target type queue setup => ((insertPassBefore target type queue setup).run b).2
  | .insertAfter target type queue setup => ((insertPassAfter target type queue setup).run b).2
  | .remove passId => ((removePass passId).run b).2

def edits (b : RenderGraphBuilder) (es : List Edit) : RenderGraphBuilder := es.foldl edit b

def Before (b : RenderGraphBuilder) (u w : ℕ) : Prop := (u, w) ∈ explicitDependencies b.passes

/-- Passes with ids of their own that depend on each other without cycles. -/
structure Sound (b : RenderGraphBuilder) : Prop where
  numbered : (b.passes.map (·.id)).Nodup
  exist : ∀ u w, b.Before u w → b.hasPass u
  acyclic : DependencyCount.Acyclic Prod.fst Prod.snd (explicitDependencies b.passes)

/-- What the setup of a new pass gives it: the id is kept and new, and the dependencies are on passes that the later
ones do not lead to. -/
structure Admissible (b : RenderGraphBuilder) (pass : RenderPassNode) (later : ℕ → Prop) : Prop where
  id : pass.id = b.nextPassId.toNat
  new : b.hasPass b.nextPassId.toNat = false
  exist : ∀ dep ∈ pass.dependencies, b.hasPass dep
  apart : ∀ dep ∈ pass.dependencies, ∀ v, later v → ¬ ReflTransGen b.Before v dep

def Admits (b : RenderGraphBuilder) : Edit → Prop
  | .insertBefore target type queue setup => b.hasPass target → b.Admissible (setup (b.newPass type queue)) (· = target)
  | .insertAfter target type queue setup => b.hasPass target → b.Admissible (setup (b.newPass type queue)) (b.Before target)
  | .remove _ => True

def AdmitsAll (b : RenderGraphBuilder) : List Edit → Prop
  | [] => True
  | e :: es => b.Admits e ∧ (b.edit e).AdmitsAll es

variable {b : RenderGraphBuilder} {n p : RenderPassNode} {target u w x : ℕ} {type : PassType} {queue : QueueType}
  {setup : RenderPassNode → RenderPassNode}

theorem hasPass_iff : b.hasPass x = true ↔ x ∈ b.passes.map (·.id) := by
  simp [hasPass]

theorem before_iff : b.Before u w ↔ ∃ p ∈ b.passes, p.id = w ∧ u ∈ p.dependencies := by
  rw [Before, mem_explicitDependencies]
  exact exists_congr fun p => and_congr_right fun _ => and_comm

theorem Before.hasPass (h : b.Before u w) : b.hasPass w = true := by
  obtain ⟨p, hp, rfl, -⟩ := before_iff.mp h
  exact hasPass_iff.mpr (List.mem_map_of_mem hp)

theorem Sound.wellFounded (h : b.Sound) : WellFounded b.Before := acyclic_iff.mp h.acyclic

theorem before_of_mem (h : b.Sound) (hp : p ∈ b.passes) : b.Before u p.id ↔ u ∈ p.dependencies := by
  rw [before_iff]
  constructor
  · rintro ⟨q, hq, he, hu⟩
    rwa [← List.inj_on_of_nodup_map h.numbered hq hp he]
  · exact fun hu => ⟨p, hp, rfl, hu⟩

/-! ## The passes after an edit -/

/-- With ids of their own, the first pass with an id is the only one. -/
theorem modify_eq_map {l : List RenderPassNode} (hn : (l.map (·.id)).Nodup) {i : ℕ}
    (hi : l.findIdx? (·.id = x) = some i) (f : RenderPassNode → RenderPassNode) :
    l.modify i f = l.map fun p => if p.id = x then f p else p := by
  obtain ⟨hlt, hid, -⟩ := List.findIdx?_eq_some_iff_getElem.mp hi
  have hid : l[i].id = x := by simpa using hid
  apply List.ext_getElem (by simp)
  intro j h1 h2
  rw [List.getElem_map, List.getElem_modify]
  have hj : j < l.length := by simpa using h2
  by_cases he : i = j
  · subst he
    rw [if_pos rfl, if_pos hid]
  · rw [if_neg he, if_neg]
    intro hx
    have hinj := List.nodup_iff_injective_get.mp hn
    have hget : (⟨i, by rwa [List.length_map]⟩ : Fin (l.map (·.id)).length) = ⟨j, by rwa [List.length_map]⟩ :=
      hinj (by simp [hid, hx])
    exact he (congrArg Fin.val hget)

theorem eraseP_eq_filter {l : List RenderPassNode} (hn : (l.map (·.id)).Nodup) (x : ℕ) :
    l.eraseP (·.id = x) = l.filter (·.id ≠ x) := by
  induction l with
  | nil => rfl
  | cons p l ih =>
    rw [List.map_cons, List.nodup_cons] at hn
    by_cases hx : p.id = x
    · have hrest : l.filter (·.id ≠ x) = l := by
        rw [List.filter_eq_self]
        exact fun q hq => decide_eq_true fun he => hn.1 (List.mem_map.mpr ⟨q, hq, he.trans hx.symm⟩)
      rw [List.eraseP_cons_of_pos (by simpa using hx), List.filter_cons_of_neg (by simpa using hx), hrest]
    · rw [List.eraseP_cons_of_neg (by simpa using hx), List.filter_cons_of_pos (by simpa using hx), ih hn.2]

/-- The builder after `addPass`. -/
def added (b : RenderGraphBuilder) (n : RenderPassNode) : RenderGraphBuilder where
  passes := b.passes ++ [n]
  nextPassId := b.nextPassId + 1

/-- The builder after `addDependency` on an existing pass. -/
def depending (b : RenderGraphBuilder) (fromPass toPass : ℕ) : RenderGraphBuilder :=
  {b with passes := b.passes.map fun p => if p.id = toPass then withDependency fromPass p else p}

theorem addDependency_run (fromPass : ℕ) {toPass : ℕ} (hn : (b.passes.map (·.id)).Nodup) (h : b.hasPass toPass = true) :
    (addDependency fromPass toPass).run b = (.ok (), b.depending fromPass toPass) := by
  obtain ⟨p, hp, hid⟩ := List.mem_map.mp (hasPass_iff.mp h)
  obtain ⟨i, hi⟩ : ∃ i, b.passes.findIdx? (·.id = toPass) = some i := by
    rw [← Option.isSome_iff_exists, List.findIdx?_isSome, List.any_eq_true]
    exact ⟨p, hp, by simpa using hid⟩
  have hrun : (match b.passes.findIdx? (·.id = toPass) with
      | some i => set {b with passes := b.passes.modify i (withDependency fromPass)}
      | none => throw ("Target pass not found: " ++ toString toPass) : BuilderM Unit).run b =
        (.ok (), {b with passes := b.passes.modify i (withDependency fromPass)}) := by
    rw [hi]
    rfl
  rw [depending, ← modify_eq_map hn hi]
  exact hrun

theorem edit_insertBefore_missing (h : b.hasPass target = false) : b.edit (.insertBefore target type queue setup) = b := by
  have hrun : ((do
      if !(b.hasPass target) then throw ("Target pass not found: " ++ toString target)
      let id ← addPass type queue setup
      addDependency id target
      return id : BuilderM ℕ).run b).2 = b := by
    rw [h]
    rfl
  exact hrun

theorem edit_insertAfter_missing (h : b.hasPass target = false) : b.edit (.insertAfter target type queue setup) = b := by
  have hrun : ((do
      if !(b.hasPass target) then throw ("Target pass not found: " ++ toString target)
      let id ← addPass type queue setup
      addDependency target id
      if true then modify fun b => {b with passes := b.passes.map (rewire target id)}
      return id : BuilderM ℕ).run b).2 = b := by
    rw [h]
    rfl
  exact hrun

theorem edit_remove_missing (h : b.hasPass x = false) : b.edit (.remove x) = b := by
  have hfind : b.passes.find? (·.id = x) = none := by
    rw [List.find?_eq_none]
    intro p hp hid
    have hmem := hasPass_iff.mpr (List.mem_map_of_mem hp)
    rw [of_decide_eq_true hid, h] at hmem
    cases hmem
  have hrun : ((match b.passes.find? (·.id = x) with
      | some removed => set {b with passes := (b.passes.map (disconnect removed true)).eraseP (·.id = x)}
      | none => throw ("Pass not found: " ++ toString x) : BuilderM Unit).run b).2 = b := by
    rw [hfind]
    rfl
  exact hrun

theorem run_bind {α β : Type} {b' : RenderGraphBuilder} {m : BuilderM α} {a : α} (f : α → BuilderM β)
    (h : m.run b = (.ok a, b')) : (m >>= f).run b = (f a).run b' := by
  have hrun : (m >>= f).run b = ExceptT.bindCont f (m.run b).1 (m.run b).2 := rfl
  rw [hrun, h]
  rfl

theorem hasPass_added (h : b.hasPass x = true) (n : RenderPassNode) : (b.added n).hasPass x = true := by
  rw [hasPass_iff] at h ⊢
  rw [added, List.map_append]
  exact List.mem_append_left _ h

theorem addPass_run : (addPass type queue setup).run b =
    (.ok b.nextPassId.toNat, b.added (setup (b.newPass type queue))) := rfl

theorem edit_insertBefore (hn : ((b.added (setup (b.newPass type queue))).passes.map (·.id)).Nodup)
    (h : b.hasPass target = true) : b.edit (.insertBefore target type queue setup) =
      (b.added (setup (b.newPass type queue))).depending b.nextPassId.toNat target := by
  have hrest : (do
      let id ← addPass type queue setup
      addDependency id target
      return id : BuilderM ℕ).run b =
        (.ok b.nextPassId.toNat, (b.added (setup (b.newPass type queue))).depending b.nextPassId.toNat target) := by
    rw [run_bind _ addPass_run, run_bind _ (addDependency_run _ hn (hasPass_added h _))]
    rfl
  have hrun : ((do
      if !(b.hasPass target) then throw ("Target pass not found: " ++ toString target)
      let id ← addPass type queue setup
      addDependency id target
      return id : BuilderM ℕ).run b).2 =
        (b.added (setup (b.newPass type queue))).depending b.nextPassId.toNat target := by
    rw [h]
    exact congrArg Prod.snd hrest
  exact hrun

def rewired (b : RenderGraphBuilder) (target id : ℕ) : RenderGraphBuilder :=
  {b with passes := b.passes.map (rewire target id)}

theorem edit_insertAfter (hn : ((b.added (setup (b.newPass type queue))).passes.map (·.id)).Nodup)
    (h : b.hasPass target = true) (hid : (setup (b.newPass type queue)).id = b.nextPassId.toNat) :
    b.edit (.insertAfter target type queue setup) =
      ((b.added (setup (b.newPass type queue))).depending target b.nextPassId.toNat).rewired target
        b.nextPassId.toNat := by
  have hnew : (b.added (setup (b.newPass type queue))).hasPass b.nextPassId.toNat = true := by
    rw [hasPass_iff, added, List.map_append, ← hid]
    exact List.mem_append_right _ List.mem_cons_self
  have hrest : (do
      let id ← addPass type queue setup
      addDependency target id
      if true then modify fun b => {b with passes := b.passes.map (rewire target id)}
      return id : BuilderM ℕ).run b = (.ok b.nextPassId.toNat,
        ((b.added (setup (b.newPass type queue))).depending target b.nextPassId.toNat).rewired target
          b.nextPassId.toNat) := by
    rw [run_bind _ addPass_run, run_bind _ (addDependency_run _ hn hnew)]
    rfl
  have hrun : ((do
      if !(b.hasPass target) then throw ("Target pass not found: " ++ toString target)
      let id ← addPass type queue setup
      addDependency target id
      if true then modify fun b => {b with passes := b.passes.map (rewire target id)}
      return id : BuilderM ℕ).run b).2 =
        ((b.added (setup (b.newPass type queue))).depending target b.nextPassId.toNat).rewired target
          b.nextPassId.toNat := by
    rw [h]
    exact congrArg Prod.snd hrest
  exact hrun

theorem disconnect_id (removed : RenderPassNode) (reconnectDependencies : Bool) (p : RenderPassNode) :
    (disconnect removed reconnectDependencies p).id = p.id := by
  unfold disconnect
  split <;> rfl

theorem edit_remove (h : b.Sound) {removed : RenderPassNode} (hr : removed ∈ b.passes) :
    (b.edit (.remove removed.id)).passes = (b.passes.map (disconnect removed true)).filter (·.id ≠ removed.id) := by
  have hfind : b.passes.find? (·.id = removed.id) = some removed := by
    cases hf : b.passes.find? (·.id = removed.id) with
    | none => exact absurd (List.find?_eq_none.mp hf removed hr) (by simp)
    | some p =>
      have hid : p.id = removed.id := by simpa using List.find?_some hf
      rw [List.inj_on_of_nodup_map h.numbered (List.mem_of_find?_eq_some hf) hr hid]
  have hrun : ((match b.passes.find? (·.id = removed.id) with
      | some removed' => set {b with passes := (b.passes.map (disconnect removed' true)).eraseP (·.id = removed.id)}
      | none => throw ("Pass not found: " ++ toString removed.id) : BuilderM Unit).run b).2 =
        {b with passes := (b.passes.map (disconnect removed true)).eraseP (·.id = removed.id)} := by
    rw [hfind]
    rfl
  rw [← eraseP_eq_filter]
  · exact congrArg passes hrun
  · have hmap : (b.passes.map (disconnect removed true)).map (·.id) = b.passes.map (·.id) := by
      rw [List.map_map]
      exact List.map_congr_left fun p _ => disconnect_id ..
    rw [hmap]
    exact h.numbered

/-! ## The dependencies after an edit -/

theorem mem_unique {l : List ℕ} : x ∈ unique l ↔ x ∈ l := by
  induction l using unique.induct with
  | case1 a l ih =>
    rw [unique, if_pos rfl, ih]
    simp
  | case2 a b l h ih => rw [unique, if_neg h, List.mem_cons, ih, ← List.mem_cons]
  | case3 l h => rw [unique]; exact h

theorem withDependency_id (fromPass : ℕ) (p : RenderPassNode) : (withDependency fromPass p).id = p.id := by
  unfold withDependency
  split <;> rfl

theorem mem_withDependency {fromPass : ℕ} :
    u ∈ (withDependency fromPass p).dependencies ↔ u ∈ p.dependencies ∨ u = fromPass := by
  unfold withDependency
  split
  · constructor
    · exact .inl
    · rintro (h | rfl)
      · exact h
      · assumption
  · simp

theorem rewire_id (target x : ℕ) (p : RenderPassNode) : (rewire target x p).id = p.id := by
  unfold rewire
  split_ifs <;> rfl

theorem mem_rewire (h : p.id ≠ x) (h' : p.id ≠ target) : u ∈ (rewire target x p).dependencies ↔
    (u ∈ p.dependencies ∧ u ≠ target) ∨ (u = x ∧ target ∈ p.dependencies) := by
  unfold rewire
  rw [if_neg (not_or.mpr ⟨h, h'⟩)]
  split_ifs with ht
  · simp only [mem_unique, List.mem_map]
    constructor
    · rintro ⟨dep, hdep, rfl⟩
      by_cases he : dep = target
      · exact .inr ⟨if_pos he, ht⟩
      · rw [if_neg he]
        exact .inl ⟨hdep, he⟩
    · rintro (⟨hu, he⟩ | ⟨rfl, -⟩)
      · exact ⟨u, hu, if_neg he⟩
      · exact ⟨target, ht, if_pos rfl⟩
  · constructor
    · exact fun hu => .inl ⟨hu, fun he => ht (he ▸ hu)⟩
    · rintro (⟨hu, -⟩ | ⟨-, hu⟩)
      · exact hu
      · exact absurd hu ht

theorem mem_foldl_reconnect {deps kept : List ℕ} :
    u ∈ deps.foldl (reconnect p) kept ↔ u ∈ kept ∨ (u ∈ deps ∧ u ≠ p.id) := by
  induction deps generalizing kept with
  | nil => simp
  | cons dep deps ih =>
    rw [List.foldl_cons, ih]
    unfold reconnect
    split_ifs <;> grind

theorem mem_disconnect {removed : RenderPassNode} (h : p.id ≠ removed.id) :
    u ∈ (disconnect removed true p).dependencies ↔ (u ∈ p.dependencies ∧ u ≠ removed.id) ∨
      (removed.id ∈ p.dependencies ∧ u ∈ removed.dependencies ∧ u ≠ p.id) := by
  unfold disconnect
  by_cases hd : removed.id ∈ p.dependencies
  · rw [if_neg (by simp [h, hd])]
    simp [mem_foldl_reconnect, hd]
  · rw [if_pos (.inr hd)]
    constructor
    · exact fun hu => .inl ⟨hu, fun he => hd (he ▸ hu)⟩
    · rintro (⟨hu, -⟩ | ⟨hu, -⟩)
      · exact hu
      · exact absurd hu hd

theorem before_added : (b.added n).Before u w ↔ b.Before u w ∨ (u ∈ n.dependencies ∧ w = n.id) := by
  simp only [before_iff, added, List.mem_append, List.mem_singleton, or_and_right, exists_or, exists_eq_left]
  exact or_congr_right ⟨fun h => ⟨h.2, h.1.symm⟩, fun h => ⟨h.2.symm, h.1⟩⟩

theorem before_depending {fromPass toPass : ℕ} (h : b.hasPass toPass = true) :
    (b.depending fromPass toPass).Before u w ↔ b.Before u w ∨ (u = fromPass ∧ w = toPass) := by
  rw [before_iff, before_iff]
  constructor
  · rintro ⟨q, hq, rfl, hu⟩
    obtain ⟨p, hp, rfl⟩ := List.mem_map.mp hq
    split_ifs at hu ⊢ with he
    · rw [withDependency_id]
      exact (mem_withDependency.mp hu).imp (fun hu => ⟨p, hp, rfl, hu⟩) fun hu => ⟨hu, he⟩
    · exact .inl ⟨p, hp, rfl, hu⟩
  · have hmap : ∀ p ∈ b.passes, ∀ u, (u ∈ p.dependencies ∨ (u = fromPass ∧ p.id = toPass)) →
        ∃ q ∈ (b.depending fromPass toPass).passes, q.id = p.id ∧ u ∈ q.dependencies := by
      intro p hp u hu
      refine ⟨_, List.mem_map_of_mem hp, ?_, ?_⟩
      · split_ifs
        · rw [withDependency_id]
        · rfl
      · split_ifs with he
        · exact mem_withDependency.mpr (hu.imp_right And.left)
        · exact hu.resolve_right fun hu => he hu.2
    rintro (⟨p, hp, rfl, hu⟩ | ⟨rfl, rfl⟩)
    · exact hmap p hp u (.inl hu)
    · obtain ⟨p, hp, hid⟩ := List.mem_map.mp (hasPass_iff.mp h)
      obtain ⟨q, hq, hqid, hu⟩ := hmap p hp u (.inr ⟨rfl, hid⟩)
      exact ⟨q, hq, hqid.trans hid, hu⟩

theorem before_rewired (hw : w ≠ x) (hw' : w ≠ target) : (b.rewired target x).Before u w ↔
    (b.Before u w ∧ u ≠ target) ∨ (u = x ∧ b.Before target w) := by
  rw [before_iff, before_iff, before_iff]
  constructor
  · rintro ⟨q, hq, rfl, hu⟩
    obtain ⟨p, hp, rfl⟩ := List.mem_map.mp hq
    rw [rewire_id] at hw hw' ⊢
    exact ((mem_rewire hw hw').mp hu).imp (fun hu => ⟨⟨p, hp, rfl, hu.1⟩, hu.2⟩) fun hu => ⟨hu.1, p, hp, rfl, hu.2⟩
  · rintro (⟨⟨p, hp, rfl, hu⟩, he⟩ | ⟨rfl, p, hp, rfl, hu⟩)
    · exact ⟨_, List.mem_map_of_mem hp, rewire_id .., (mem_rewire hw hw').mpr (.inl ⟨hu, he⟩)⟩
    · exact ⟨_, List.mem_map_of_mem hp, rewire_id .., (mem_rewire hw hw').mpr (.inr ⟨rfl, hu⟩)⟩

/-- The new pass and the target keep what they depend on. -/
theorem before_rewired_self (hw : w = x ∨ w = target) : (b.rewired target x).Before u w ↔ b.Before u w := by
  have hself : ∀ p : RenderPassNode, p.id = w → rewire target x p = p := by
    rintro p rfl
    exact if_pos hw
  rw [before_iff, before_iff]
  constructor
  · rintro ⟨q, hq, hid, hu⟩
    obtain ⟨p, hp, rfl⟩ := List.mem_map.mp hq
    rw [rewire_id] at hid
    rw [hself p hid] at hu
    exact ⟨p, hp, hid, hu⟩
  · rintro ⟨p, hp, hid, hu⟩
    exact ⟨_, List.mem_map_of_mem hp, (rewire_id ..).trans hid, (hself p hid).symm ▸ hu⟩

/-! ## What the edits keep -/

theorem ids_depending (b : RenderGraphBuilder) (u w : ℕ) :
    (b.depending u w).passes.map (·.id) = b.passes.map (·.id) := by
  rw [depending, List.map_map]
  refine List.map_congr_left fun p _ => ?_
  simp only [Function.comp_apply]
  split
  · exact withDependency_id ..
  · rfl

theorem ids_rewired (b : RenderGraphBuilder) (target x : ℕ) :
    (b.rewired target x).passes.map (·.id) = b.passes.map (·.id) := by
  rw [rewired, List.map_map]
  exact List.map_congr_left fun p _ => rewire_id ..

theorem Sound.not_before_new (h : b.Sound) (hx : b.hasPass x = false) : ¬ b.Before x w ∧ ¬ b.Before w x := by
  constructor
  · intro he
    have hp := h.exist x w he
    rw [hx] at hp
    cases hp
  · intro he
    have hp := he.hasPass
    rw [hx] at hp
    cases hp

theorem Sound.numbered_added (h : b.Sound) (hn : b.hasPass n.id = false) : ((b.added n).passes.map (·.id)).Nodup := by
  rw [added, List.map_append, List.map_singleton, List.nodup_append]
  refine ⟨h.numbered, List.nodup_singleton _, fun x hx y hy he => ?_⟩
  rw [List.mem_singleton] at hy
  rw [← hasPass_iff, he, hy, hn] at hx
  cases hx

/-- An insertion is sound when it puts a new pass after existing ones and before those that they do not wait for. -/
theorem Sound.insert {b' : RenderGraphBuilder} (h : b.Sound) {D E : ℕ → Prop} (hx : b.hasPass x = false)
    (hids : b'.passes.map (·.id) = b.passes.map (·.id) ++ [x]) (hi : Inserts b.Before b'.Before x D E)
    (hD : ∀ d, D d → b.hasPass d = true) : b'.Sound := by
  have hpass : ∀ u, b'.hasPass u = true ↔ b.hasPass u = true ∨ u = x := by
    intro u
    rw [hasPass_iff, hasPass_iff, hids, List.mem_append, List.mem_singleton]
  refine ⟨?_, fun u w he => ?_, acyclic_iff.mpr (hi.wellFounded h.wellFounded)⟩
  · rw [hids, List.nodup_append]
    refine ⟨h.numbered, List.nodup_singleton _, fun u hu y hy he => ?_⟩
    rw [List.mem_singleton] at hy
    rw [← hasPass_iff, he, hy, hx] at hu
    cases hu
  · rw [hpass]
    rcases hi.edge u w he with he | ⟨hd, -⟩ | ⟨rfl, -⟩
    · exact .inl (h.exist u w he)
    · exact .inl (hD u hd)
    · exact .inr rfl

theorem Admissible.inserts {later : ℕ → Prop} {b' : RenderGraphBuilder} (h : b.Sound) (ha : b.Admissible n later)
    (hlater : ∀ v, later v → b.hasPass v = true) (hedge : ∀ u w, b'.Before u w → b.Before u w ∨
      (u ∈ n.dependencies ∧ w = n.id) ∨ (u = n.id ∧ later w)) :
    Inserts b.Before b'.Before n.id (· ∈ n.dependencies) later := by
  have hnew : b.hasPass n.id = false := ha.id ▸ ha.new
  refine ⟨hedge, fun u => (h.not_before_new hnew).2, fun w => (h.not_before_new hnew).1, fun hd => ?_, fun hl => ?_,
    fun d v hd hv => ha.apart d hd v hv⟩
  · have hp := ha.exist _ hd
    rw [hnew] at hp
    cases hp
  · have hp := hlater _ hl
    rw [hnew] at hp
    cases hp

/-- An edit keeps the builder sound, and the paths between the passes that it does not remove. -/
structure Keeps (b b' : RenderGraphBuilder) (removed : ℕ → Prop) : Prop where
  sound : b'.Sound
  path : ∀ u w, ¬ removed u → ¬ removed w → TransGen b.Before u w → TransGen b'.Before u w

theorem keeps_insertBefore (h : b.Sound) (ht : b.hasPass target = true) (ha : b.Admissible n (· = target)) :
    b.Keeps ((b.added n).depending n.id target) fun _ => False := by
  have hnew : b.hasPass n.id = false := ha.id ▸ ha.new
  have hbefore : ∀ u w, ((b.added n).depending n.id target).Before u w ↔
      b.Before u w ∨ (u ∈ n.dependencies ∧ w = n.id) ∨ (u = n.id ∧ w = target) := by
    intro u w
    rw [before_depending (hasPass_added ht n), before_added, or_assoc]
  constructor
  · refine h.insert hnew ?_ (ha.inserts h ?_ fun u w => (hbefore u w).mp) ha.exist
    · rw [ids_depending, added, List.map_append, List.map_singleton]
    · rintro v rfl
      exact ht
  · exact fun u w _ _ hp => TransGen.mono (fun u w he => (hbefore u w).mpr (.inl he)) u w hp

theorem keeps_insertAfter (h : b.Sound) (ht : b.hasPass target = true) (ha : b.Admissible n (b.Before target)) :
    b.Keeps (((b.added n).depending target n.id).rewired target n.id) fun _ => False := by
  have hnew : b.hasPass n.id = false := ha.id ▸ ha.new
  have hne : ∀ {u}, b.hasPass u = true → u ≠ n.id := by
    rintro u hu rfl
    rw [hnew] at hu
    cases hu
  have hid : (b.added n).hasPass n.id = true := by
    rw [hasPass_iff, added, List.map_append]
    exact List.mem_append_right _ List.mem_cons_self
  have hloop : ∀ v, ¬ TransGen b.Before v v := not_transGen_self h.wellFounded
  have hdepending : ∀ u w, ((b.added n).depending target n.id).Before u w ↔
      b.Before u w ∨ ((u ∈ n.dependencies ∨ u = target) ∧ w = n.id) := by
    intro u w
    rw [before_depending hid, before_added, or_assoc, or_and_right]
  -- the new pass waits for the target and what its setup says; what waited for the target waits for the new pass
  have hbefore : ∀ u w, (((b.added n).depending target n.id).rewired target n.id).Before u w ↔
      (b.Before u w ∧ u ≠ target) ∨ ((u ∈ n.dependencies ∨ u = target) ∧ w = n.id) ∨ (u = n.id ∧ b.Before target w) := by
    intro u w
    by_cases hw : w = n.id ∨ w = target
    · rw [before_rewired_self hw, hdepending]
      have hself : ¬ b.Before target target := fun he => hloop _ (.single he)
      have hn : ¬ b.Before target n.id := (h.not_before_new hnew).2
      have hu : b.Before u w → u ≠ target := by
        rintro he rfl
        rcases hw with rfl | rfl
        · exact hn he
        · exact hself he
      rcases hw with rfl | rfl <;> tauto
    · obtain ⟨hw, hw'⟩ := not_or.mp hw
      rw [before_rewired hw hw', hdepending, hdepending]
      tauto
  have hadmissible : b.Admissible (withDependency target n) (b.Before target) := by
    refine ⟨(withDependency_id ..).trans ha.id, ha.new, fun d hd => ?_, fun d hd v hv hp => ?_⟩
    · rcases mem_withDependency.mp hd with hd | rfl
      · exact ha.exist d hd
      · exact ht
    · rcases mem_withDependency.mp hd with hd | rfl
      · exact ha.apart d hd v hv hp
      · exact hloop _ (.head' hv hp)
  have hi : Inserts b.Before (((b.added n).depending target n.id).rewired target n.id).Before
      (withDependency target n).id (· ∈ (withDependency target n).dependencies) (b.Before target) := by
    refine hadmissible.inserts h (fun v hv => hv.hasPass) fun u w he => ?_
    rw [withDependency_id, mem_withDependency]
    exact ((hbefore u w).mp he).imp_left And.left
  rw [withDependency_id] at hi
  constructor
  · refine h.insert hnew ?_ hi hadmissible.exist
    rw [ids_rewired, ids_depending, added, List.map_append, List.map_singleton]
  · refine fun u w _ _ hp => hp.lift' id fun u w he => ?_
    by_cases hu : u = target
    · subst hu
      exact .tail (.single ((hbefore u n.id).mpr (.inr (.inl ⟨.inr rfl, rfl⟩)))) ((hbefore n.id w).mpr (.inr (.inr ⟨rfl, he⟩)))
    · exact .single ((hbefore u w).mpr (.inl ⟨he, hu⟩))

theorem before_removed (h : b.Sound) {removed : RenderPassNode} (hr : removed ∈ b.passes) :
    Removes b.Before (b.edit (.remove removed.id)).Before removed.id := by
  have hself : removed.id ∉ removed.dependencies := fun hd =>
    not_transGen_self h.wellFounded _ (.single ((before_of_mem h hr).mpr hd))
  constructor
  intro u w
  rw [before_iff, edit_remove h hr, before_of_mem h hr, before_iff]
  constructor
  · rintro ⟨q, hq, rfl, hu⟩
    obtain ⟨hq, hne⟩ := List.mem_filter.mp hq
    obtain ⟨p, hp, rfl⟩ := List.mem_map.mp hq
    have hne : p.id ≠ removed.id := by simpa [disconnect_id] using hne
    rw [disconnect_id, before_of_mem h hp]
    rcases (mem_disconnect hne).mp hu with ⟨hu, hux⟩ | ⟨hx, hu, hup⟩
    · exact ⟨hux, hne, .inl ⟨p, hp, rfl, hu⟩⟩
    · exact ⟨fun he => hself (he ▸ hu), hne, .inr ⟨hu, hx, hup⟩⟩
  · have hmap : ∀ p ∈ b.passes, p.id ≠ removed.id → u ∈ (disconnect removed true p).dependencies →
        ∃ q ∈ (b.passes.map (disconnect removed true)).filter (·.id ≠ removed.id), q.id = p.id ∧ u ∈ q.dependencies := by
      intro p hp hne hu
      refine ⟨_, List.mem_filter.mpr ⟨List.mem_map_of_mem hp, ?_⟩, disconnect_id .., hu⟩
      rw [disconnect_id]
      exact decide_eq_true hne
    rintro ⟨hu, hw, ⟨p, hp, rfl, hd⟩ | ⟨hd, hx, hne⟩⟩
    · exact hmap p hp hw ((mem_disconnect hw).mpr (.inl ⟨hd, hu⟩))
    · obtain ⟨p, hp, rfl, hdep⟩ := before_iff.mp hx
      exact hmap p hp hw ((mem_disconnect hw).mpr (.inr ⟨hdep, hd, hne⟩))

theorem keeps_remove (h : b.Sound) {removed : RenderPassNode} (hr : removed ∈ b.passes) :
    b.Keeps (b.edit (.remove removed.id)) (· = removed.id) := by
  have hremoves := before_removed h hr
  have hids : (b.edit (.remove removed.id)).passes.map (·.id) = (b.passes.map (·.id)).filter (· ≠ removed.id) := by
    rw [edit_remove h hr, List.filter_map, List.map_map, List.filter_map]
    have hid : ∀ p, (disconnect removed true p).id = p.id := disconnect_id removed true
    simp only [Function.comp_def, hid]
  constructor
  · refine ⟨hids ▸ h.numbered.filter _, fun u w he => ?_, acyclic_iff.mpr (hremoves.wellFounded h.wellFounded)⟩
    obtain ⟨hu, -, he⟩ := (hremoves.edge u w).mp he
    rw [hasPass_iff, hids, List.mem_filter, ← hasPass_iff]
    refine ⟨?_, decide_eq_true hu⟩
    rcases he with he | ⟨he, -⟩
    · exact h.exist u w he
    · exact h.exist u _ he
  · exact fun u w hu hw hp => (hremoves.transGen h.wellFounded hu hp).1 hw

theorem Sound.keeps (h : b.Sound) (removed : ℕ → Prop) : b.Keeps b removed := ⟨h, fun _ _ _ _ hp => hp⟩

theorem Keeps.mono {b' : RenderGraphBuilder} {removed removed' : ℕ → Prop} (h : b.Keeps b' removed)
    (hr : ∀ u, removed u → removed' u) : b.Keeps b' removed' :=
  ⟨h.sound, fun u w hu hw => h.path u w (fun hx => hu (hr u hx)) fun hx => hw (hr w hx)⟩

/-- What one edit keeps. -/
theorem keeps_edit (h : b.Sound) {e : Edit} (ha : b.Admits e) : b.Keeps (b.edit e) fun u => e = .remove u := by
  cases e with
  | insertBefore target type queue setup =>
    by_cases ht : b.hasPass target = true
    · have ha := ha ht
      rw [edit_insertBefore (h.numbered_added (ha.id ▸ ha.new)) ht, ← ha.id]
      exact (keeps_insertBefore h ht ha).mono fun u hu => hu.elim
    · rw [edit_insertBefore_missing (Bool.not_eq_true _ ▸ ht)]
      exact h.keeps _
  | insertAfter target type queue setup =>
    by_cases ht : b.hasPass target = true
    · have ha := ha ht
      rw [edit_insertAfter (h.numbered_added (ha.id ▸ ha.new)) ht ha.id, ← ha.id]
      exact (keeps_insertAfter h ht ha).mono fun u hu => hu.elim
    · rw [edit_insertAfter_missing (Bool.not_eq_true _ ▸ ht)]
      exact h.keeps _
  | remove x =>
    by_cases hx : b.hasPass x = true
    · obtain ⟨p, hp, rfl⟩ := List.mem_map.mp (hasPass_iff.mp hx)
      exact (keeps_remove h hp).mono fun u hu => hu ▸ rfl
    · rw [edit_remove_missing (Bool.not_eq_true _ ▸ hx)]
      exact h.keeps _

/-- What a sequence of edits keeps. -/
theorem keeps_edits (h : b.Sound) {es : List Edit} (ha : b.AdmitsAll es) :
    b.Keeps (b.edits es) fun u => .remove u ∈ es := by
  induction es generalizing b with
  | nil => exact h.keeps _
  | cons e es ih =>
    have he := keeps_edit h ha.1
    have hes := ih he.sound ha.2
    refine ⟨hes.sound, fun u w hu hw hp => ?_⟩
    rw [List.mem_cons, not_or] at hu hw
    exact hes.path u w hu.2 hw.2 (he.path u w (fun hx => hu.1 hx.symm) (fun hx => hw.1 hx.symm) hp)

def chain : RenderGraphBuilder where
  passes := [{id := 0}, {id := 1, dependencies := [0]}]
  nextPassId := 2

theorem chain_sound : chain.Sound where
  numbered := by decide
  exist u w he := by
    simp only [Before, explicitDependencies, chain] at he
    simp_all [hasPass, chain]
  acyclic := DependencyCount.acyclic_of_rank id (by decide)

theorem chain_edits : chain.Keeps (chain.edits [.insertAfter 0 .compute .compute id, .remove 0]) fun u =>
    .remove u ∈ [Edit.insertAfter 0 .compute .compute id, .remove 0] := by
  refine keeps_edits chain_sound ⟨fun _ => ⟨rfl, rfl, nofun, nofun⟩, trivial, trivial⟩

/-- The setup of a pass inserted before another makes it depend on that one. -/
theorem insertBefore_cyclic : chain.Sound ∧
    ¬ DependencyCount.Acyclic Prod.fst Prod.snd (explicitDependencies (chain.edits
      [.insertBefore 0 .compute .compute fun pass => {pass with dependencies := [0]}]).passes) := by
  refine ⟨chain_sound, fun h => ?_⟩
  have hpath : TransGen (fun u w => ∃ e ∈ explicitDependencies (chain.edits
      [.insertBefore 0 .compute .compute fun pass => {pass with dependencies := [0]}]).passes, e.1 = u ∧ e.2 = w) 0 0 := by
    refine .tail (b := 2) (.single ⟨(0, 2), ?_, rfl, rfl⟩) ⟨(2, 0), ?_, rfl, rfl⟩ <;> decide
  exact h 0 hpath

/-- Whatever the edits, compilation finds no cycle and orders all passes by their dependencies. -/
theorem compile_edits (o : IterationOrder) (resources : List VirtualResource) (h : b.Sound) {es : List Edit}
    (ha : b.AdmitsAll es) : Scheduled (b.edits es).passes (compile o resources (b.edits es).passes) := by
  induction es generalizing b with
  | nil =>
    refine (scheduled_iff o resources h.numbered h.acyclic).mpr fun pass hp dep hd => hasPass_iff.mp ?_
    exact h.exist dep pass.id (before_iff.mpr ⟨pass, hp, rfl, hd⟩)
  | cons e es ih => exact ih (keeps_edit h ha.1).sound ha.2

theorem compile_edits_chain :
    (compile default [] (chain.edits [.insertAfter 0 .compute .compute id, .remove 0]).passes).success = true :=
  have ha : chain.AdmitsAll [.insertAfter 0 .compute .compute id, .remove 0] :=
    ⟨fun _ => ⟨rfl, rfl, nofun, nofun⟩, trivial, trivial⟩
  (compile_edits default [] chain_sound ha).success

end RenderGraphBuilder

end Zpc.VkRenderGraph
