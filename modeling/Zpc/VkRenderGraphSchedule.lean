import Zpc.SequentialHazards
import Zpc.VkRenderGraph

/-!
# Scheduling the passes on several queues

`MultiQueueScheduler` of `VkRenderGraphAdvanced.cpp`. A sync point stands between a pass and the last writer of what it
reads, and nowhere else: conflicting passes on different queues are ordered exactly when every write is chained to the
write and the reads before it, and every pass to its explicit dependencies, by the queues and these reads alone.
-/
namespace Zpc.VkRenderGraph
open SequentialHazards

/-- The queues besides the graphics queue that the context has. -/
structure VulkanContext where
  compute : Bool
  transfer : Bool
  dedicatedCompute : Bool
  dedicatedTransfer : Bool

def selectQueue (ctx : VulkanContext) (pass : RenderPassNode) : QueueType :=
  match pass.type with
  | .compute | .asyncCompute | .rayTracing =>
    if ctx.dedicatedCompute then .compute else if ctx.compute then .compute else .graphics
  | .transfer | .copy | .blit | .clear =>
    if ctx.dedicatedTransfer then .transfer else if ctx.transfer then .transfer else .graphics
  | .graphics | .present => .graphics

structure QueueTimeline where
  type : QueueType
  passes : List ℕ
  lastSignalValue : ℕ := 0

structure QueueSyncPoint where
  passId : ℕ
  srcQueue : QueueType
  dstQueue : QueueType
  resources : List ResourceId
  needsSemaphore : Bool

/-- The timeline of a pass is its queue. -/
structure ScheduleResult where
  timelines : List QueueTimeline
  syncPoints : List QueueSyncPoint
  passToTimeline : List QueueType
  passToIndex : List ℕ

structure PlaceState where
  queuePasses : QueueType → List ℕ
  passToTimeline : List QueueType
  passToIndex : List ℕ

def placePass (ctx : VulkanContext) (passes : List RenderPassNode) (s : PlaceState) (passIdx : ℕ) : PlaceState :=
  let queue := selectQueue ctx (passAt passes passIdx)
  { queuePasses := Function.update s.queuePasses queue (s.queuePasses queue ++ [passIdx])
    passToTimeline := s.passToTimeline.set passIdx queue
    passToIndex := s.passToIndex.set passIdx (s.queuePasses queue).length }

def placePasses (ctx : VulkanContext) (passes : List RenderPassNode) (topologicalOrder : List ℕ) : PlaceState :=
  topologicalOrder.foldl (placePass ctx passes)
    ⟨fun _ => [], List.replicate passes.length .graphics, List.replicate passes.length 0⟩

def timelines (queuePasses : QueueType → List ℕ) : List QueueTimeline :=
  [QueueType.graphics, .compute, .transfer].filterMap fun queue =>
    if queuePasses queue = [] then none else some ⟨queue, queuePasses queue, 0⟩

structure SweepState where
  lastWriter : ResourceId → Option (ℕ × QueueType) := fun _ => none
  syncPoints : List QueueSyncPoint := []

def syncPoint (lastWriter : ResourceId → Option (ℕ × QueueType)) (passIdx : ℕ) (currentQueue : QueueType)
    (ref : ResourceRef) : Option QueueSyncPoint :=
  match lastWriter ref.resourceId with
  | some writer =>
    if writer.2 ≠ currentQueue then some ⟨passIdx, writer.2, currentQueue, [ref.resourceId], true⟩ else none
  | none => none

def sweepPass (passes : List RenderPassNode) (passToTimeline : List QueueType) (s : SweepState) (passIdx : ℕ) :
    SweepState :=
  let pass := passAt passes passIdx
  let currentQueue := passToTimeline.getD passIdx .graphics
  { syncPoints := s.syncPoints ++ pass.reads.filterMap (syncPoint s.lastWriter passIdx currentQueue)
    lastWriter := pass.writes.foldl
      (fun m ref => Function.update m ref.resourceId (some (passIdx, currentQueue))) s.lastWriter }

def schedule (ctx : VulkanContext) (passes : List RenderPassNode) (topologicalOrder : List ℕ) : ScheduleResult :=
  let placed := placePasses ctx passes topologicalOrder
  { timelines := timelines placed.queuePasses
    syncPoints := (topologicalOrder.foldl (sweepPass passes placed.passToTimeline) {}).syncPoints
    passToTimeline := placed.passToTimeline
    passToIndex := placed.passToIndex }

/-- Passes, an order to run them in, and the queues there are. -/
structure Launch where
  passes : List RenderPassNode
  order : List ℕ
  ctx : VulkanContext
  nodup : order.Nodup
  places : ∀ i ∈ order, i < passes.length

namespace Launch
variable (l : Launch)

def result : ScheduleResult := schedule l.ctx l.passes l.order

def Precedes (i j : ℕ) : Prop := List.Sublist [i, j] l.order

def SameTimeline (i j : ℕ) : Prop := ∃ timeline ∈ l.result.timelines, List.Sublist [i, j] timeline.passes

/-- A sync point makes a pass wait for the earlier writers of its resource on the source queue. -/
def Synced (i j : ℕ) : Prop :=
  ∃ sync ∈ l.result.syncPoints, sync.needsSemaphore = true ∧ sync.passId = j ∧
    l.result.passToTimeline.getD i .graphics = sync.srcQueue ∧ l.Precedes i j ∧
      ∃ res ∈ sync.resources, (passAt l.passes i).Writes res

/-- A chain of timelines and sync points. -/
def Ordered : ℕ → ℕ → Prop := Relation.TransGen fun i j => l.SameTimeline i j ∨ l.Synced i j

def passOf (t : ℕ) : RenderPassNode := passAt l.passes (l.order.getD t 0)
def queueOf (t : ℕ) : QueueType := selectQueue l.ctx (l.passOf t)

def Reads (t : ℕ) (res : ResourceId) : Prop := (l.passOf t).Reads res
def Writes (t : ℕ) (res : ResourceId) : Prop := (l.passOf t).Writes res

/-- Conflicting or dependent passes on different queues are ordered the way they are run. -/
def OrdersConflicts : Prop :=
  ∀ t u, t < u → u < l.order.length → l.queueOf t ≠ l.queueOf u →
    (Conflict l.Reads l.Writes t u ∨ (l.passOf t).id ∈ (l.passOf u).dependencies) →
      l.Ordered (l.order.getD t 0) (l.order.getD u 0)

/-- One time is before another on the same queue, or is that of the last writer of something read there. -/
def Flows (t u : ℕ) : Prop :=
  t < u ∧ u < l.order.length ∧ (l.queueOf t = l.queueOf u ∨ ∃ res, LastWrite l.Writes res t u ∧ l.Reads u res)

def Chained : ℕ → ℕ → Prop := Relation.TransGen l.Flows

/-- The hazards without a sync point of their own are chained through others. -/
structure HazardsChained : Prop where
  writeAfterWrite : ∀ res t u, u < l.order.length → l.queueOf t ≠ l.queueOf u → LastWrite l.Writes res t u →
    l.Writes u res → l.Chained t u
  writeAfterRead : ∀ res t u, u < l.order.length → l.queueOf t ≠ l.queueOf u → NextWrite l.Writes res t u →
    l.Reads t res → l.Chained t u
  dependency : ∀ t u, t < u → u < l.order.length → l.queueOf t ≠ l.queueOf u →
    (l.passOf t).id ∈ (l.passOf u).dependencies → l.Chained t u

variable {l} {t u i j : ℕ}

/-! ## The timelines -/

structure Placed (l : Launch) (k : ℕ) (s : PlaceState) : Prop where
  queuePasses : ∀ q, s.queuePasses q = (l.order.take k).filter fun i => selectQueue l.ctx (passAt l.passes i) = q
  length : s.passToTimeline.length = l.passes.length
  passToTimeline : ∀ i ∈ l.order.take k, s.passToTimeline.getD i .graphics = selectQueue l.ctx (passAt l.passes i)

theorem placed_placePass {s : PlaceState} {k : ℕ} (h : l.Placed k s) (hk : k < l.order.length) :
    l.Placed (k + 1) (placePass l.ctx l.passes s l.order[k]) := by
  have htake : l.order.take (k + 1) = l.order.take k ++ [l.order[k]] := List.take_succ_eq_append_getElem hk
  have hplace := l.places _ (List.getElem_mem hk)
  constructor
  · intro q
    rw [htake, List.filter_append, ← h.queuePasses]
    by_cases hq : selectQueue l.ctx (passAt l.passes l.order[k]) = q
    · subst hq
      simp [placePass]
    · simp [placePass, hq, Function.update_of_ne (Ne.symm hq)]
  · simp [placePass, h.length]
  · intro i hi
    rw [htake, List.mem_append, List.mem_singleton] at hi
    unfold placePass
    simp only
    rw [List.getD_eq_getElem?_getD, List.getElem?_set]
    by_cases he : l.order[k] = i
    · subst he
      simp [h.length, hplace]
    · rw [if_neg he, ← List.getD_eq_getElem?_getD]
      exact h.passToTimeline i (hi.resolve_right (Ne.symm he))

theorem placed_placePasses (l : Launch) : l.Placed l.order.length (placePasses l.ctx l.passes l.order) := by
  have hp : ∀ k ≤ l.order.length, l.Placed k ((l.order.take k).foldl (placePass l.ctx l.passes)
      ⟨fun _ => [], List.replicate l.passes.length .graphics, List.replicate l.passes.length 0⟩) := by
    intro k
    induction k with
    | zero => exact fun _ => ⟨by simp, by simp, by simp⟩
    | succ k ih =>
      intro hk
      rw [List.take_succ_eq_append_getElem hk, List.foldl_append]
      exact placed_placePass (ih (by omega)) hk
  have h := hp _ le_rfl
  rwa [List.take_length] at h

theorem order_getD (ht : t < l.order.length) : l.order.getD t 0 = l.order[t] := by
  simp [ht]

theorem passToTimeline_eq (ht : t < l.order.length) :
    l.result.passToTimeline.getD (l.order.getD t 0) .graphics = l.queueOf t := by
  have h := (placed_placePasses l).passToTimeline (l.order.getD t 0)
    (by rw [order_getD ht, List.take_length]; exact List.getElem_mem ht)
  exact h

theorem queuePasses_eq (l : Launch) (q : QueueType) : (placePasses l.ctx l.passes l.order).queuePasses q =
    l.order.filter fun i => selectQueue l.ctx (passAt l.passes i) = q := by
  have h := (placed_placePasses l).queuePasses q
  rwa [List.take_length] at h

theorem mem_timelines {queuePasses : QueueType → List ℕ} {timeline : QueueTimeline} :
    timeline ∈ timelines queuePasses ↔ ∃ q, queuePasses q ≠ [] ∧ timeline = ⟨q, queuePasses q, 0⟩ := by
  unfold timelines
  rw [List.mem_filterMap]
  constructor
  · rintro ⟨q, -, hq⟩
    by_cases he : queuePasses q = []
    · simp [he] at hq
    · exact ⟨q, he, by simpa [he, eq_comm] using hq⟩
  · rintro ⟨q, he, rfl⟩
    exact ⟨q, by cases q <;> simp, by simp [he]⟩

theorem precedes_iff : l.Precedes i j ↔
    ∃ t u, t < u ∧ u < l.order.length ∧ l.order.getD t 0 = i ∧ l.order.getD u 0 = j := by
  constructor
  · intro h
    obtain ⟨f, hf⟩ := List.sublist_iff_exists_orderEmbedding_getElem?_eq.mp h
    have h0 := hf 0
    have h1 := hf 1
    simp only [List.getElem?_cons_zero, List.getElem?_cons_succ] at h0 h1
    have hlt : f 1 < l.order.length := (List.getElem?_eq_some_iff.mp h1.symm).1
    refine ⟨f 0, f 1, f.lt_iff_lt.mpr Nat.zero_lt_one, hlt, ?_, ?_⟩
    · rw [List.getD_eq_getElem?_getD, ← h0, Option.getD_some]
    · rw [List.getD_eq_getElem?_getD, ← h1, Option.getD_some]
  · rintro ⟨t, u, htu, hu, rfl, rfl⟩
    rw [order_getD hu, order_getD (htu.trans hu)]
    have h := List.pairwise_iff_getElem.mp (List.pairwise_iff_forall_sublist.mpr fun {a b} (hs : List.Sublist [a, b] l.order) => hs)
    exact h t u (htu.trans hu) hu htu

theorem order_inj (ht : t < l.order.length) (hu : u < l.order.length) (h : l.order.getD t 0 = l.order.getD u 0) :
    t = u := by
  rw [order_getD ht, order_getD hu] at h
  exact (List.Nodup.getElem_inj_iff l.nodup).mp h

theorem sameTimeline_iff (htu : t < u) (hu : u < l.order.length) :
    l.SameTimeline (l.order.getD t 0) (l.order.getD u 0) ↔ l.queueOf t = l.queueOf u := by
  have hpre : l.Precedes (l.order.getD t 0) (l.order.getD u 0) := precedes_iff.mpr ⟨t, u, htu, hu, rfl, rfl⟩
  constructor
  · rintro ⟨timeline, ht, hs⟩
    obtain ⟨q, -, rfl⟩ := mem_timelines.mp ht
    simp only [queuePasses_eq] at hs
    have h1 := (List.mem_filter.mp (hs.subset List.mem_cons_self)).2
    have h2 := (List.mem_filter.mp (hs.subset (List.mem_cons_of_mem _ List.mem_cons_self))).2
    simp only [decide_eq_true_eq] at h1 h2
    exact h1.trans h2.symm
  · intro hq
    have hs := hpre.filter fun i => selectQueue l.ctx (passAt l.passes i) = l.queueOf u
    have h1 : selectQueue l.ctx (passAt l.passes (l.order.getD t 0)) = l.queueOf u := hq
    have h2 : selectQueue l.ctx (passAt l.passes (l.order.getD u 0)) = l.queueOf u := rfl
    rw [List.filter_cons_of_pos (by simpa using h1), List.filter_cons_of_pos (by simpa using h2), List.filter_nil] at hs
    rw [← queuePasses_eq] at hs
    refine ⟨_, mem_timelines.mpr ⟨l.queueOf u, fun he => ?_, rfl⟩, hs⟩
    rw [he] at hs
    exact absurd (hs.subset List.mem_cons_self) (by simp)

/-! ## The sweep -/

theorem foldl_update_some {β : Type*} (m : ResourceId → Option β) (refs : List ResourceRef) (v : β) (res : ResourceId) :
    (refs.foldl (fun (m : ResourceId → Option β) ref => Function.update m ref.resourceId (some v)) m) res =
      if ∃ ref ∈ refs, ref.resourceId = res then some v else m res := by
  induction refs generalizing m with
  | nil => simp
  | cons ref refs ih =>
    rw [List.foldl_cons, ih]
    by_cases hr : ∃ ref ∈ refs, ref.resourceId = res
    · rw [if_pos hr, if_pos ⟨hr.choose, List.mem_cons_of_mem _ hr.choose_spec.1, hr.choose_spec.2⟩]
    · rw [if_neg hr]
      by_cases he : ref.resourceId = res
      · rw [if_pos ⟨ref, List.mem_cons_self, he⟩, he, Function.update_self]
      · rw [Function.update_of_ne (Ne.symm he), if_neg]
        rintro ⟨ref', hm, he'⟩
        cases List.mem_cons.mp hm with
        | inl h => exact he (h ▸ he')
        | inr h => exact hr ⟨ref', h, he'⟩

instance (l : Launch) (t : ℕ) (res : ResourceId) : Decidable (l.Writes t res) :=
  inferInstanceAs (Decidable (∃ ref ∈ (l.passOf t).writes, ref.resourceId = res))

theorem lastWrite_succ {k c : ℕ} {res : ResourceId} (h : LastWrite l.Writes res c (k + 1)) :
    (c = k ∧ l.Writes k res) ∨ (¬ l.Writes k res ∧ LastWrite l.Writes res c k) := by
  have hlt := h.1
  by_cases hc : c = k
  · exact .inl ⟨hc, hc ▸ h.2.1⟩
  · exact .inr ⟨h.2.2 k (by omega) (Nat.lt_succ_self k), by omega, h.2.1, fun d h1 h2 => h.2.2 d h1 (by omega)⟩

def SyncAt (l : Launch) (u : ℕ) (sync : QueueSyncPoint) : Prop :=
  ∃ ref ∈ (l.passOf u).reads, ∃ c, LastWrite l.Writes ref.resourceId c u ∧ l.queueOf c ≠ l.queueOf u ∧
    sync = ⟨l.order.getD u 0, l.queueOf c, l.queueOf u, [ref.resourceId], true⟩

/-- What the sweep knows before a time. -/
structure Swept (l : Launch) (k : ℕ) (s : SweepState) : Prop where
  writer : ∀ res c, LastWrite l.Writes res c k → s.lastWriter res = some (l.order.getD c 0, l.queueOf c)
  noWriter : ∀ res, (∀ c < k, ¬ l.Writes c res) → s.lastWriter res = none
  syncPoints : ∀ sync, sync ∈ s.syncPoints ↔ ∃ u < k, l.SyncAt u sync

theorem syncPoint_iff {s : SweepState} {k : ℕ} (h : l.Swept k s) {ref : ResourceRef} {sync : QueueSyncPoint} :
    syncPoint s.lastWriter (l.order.getD k 0) (l.queueOf k) ref = some sync ↔
      ∃ c, LastWrite l.Writes ref.resourceId c k ∧ l.queueOf c ≠ l.queueOf k ∧
        sync = ⟨l.order.getD k 0, l.queueOf c, l.queueOf k, [ref.resourceId], true⟩ := by
  unfold syncPoint
  by_cases hw : ∃ a < k, l.Writes a ref.resourceId
  · have ⟨a, hak, ha⟩ := hw
    have ⟨c, _, hc⟩ := exists_lastWrite hak ha
    rw [h.writer _ c hc]
    constructor
    · intro hs
      by_cases hq : l.queueOf c ≠ l.queueOf k
      · exact ⟨c, hc, hq, by simpa [hq, eq_comm] using hs⟩
      · simp [hq] at hs
    · rintro ⟨c', hc', hq, rfl⟩
      have he := (h.writer _ c' hc').symm.trans (h.writer _ c hc)
      have hqe : l.queueOf c' = l.queueOf c := by simpa using (congrArg (Option.map Prod.snd) he)
      rw [← hqe]
      simp [hq]
  · rw [h.noWriter _ fun c hc hcw => hw ⟨c, hc, hcw⟩]
    simp only [reduceCtorEq, false_iff]
    rintro ⟨c, hc, -, -⟩
    exact hw ⟨c, hc.1, hc.2.1⟩

theorem swept_sweepPass {s : SweepState} {k : ℕ} (h : l.Swept k s) (hk : k < l.order.length) :
    l.Swept (k + 1) (sweepPass l.passes l.result.passToTimeline s (l.order.getD k 0)) := by
  have hqueue := passToTimeline_eq hk
  have hlast : ∀ res, (sweepPass l.passes l.result.passToTimeline s (l.order.getD k 0)).lastWriter res =
      if l.Writes k res then some (l.order.getD k 0, l.queueOf k) else s.lastWriter res := by
    intro res
    unfold sweepPass
    simp only [hqueue]
    exact foldl_update_some ..
  constructor
  · intro res c hc
    rw [hlast]
    cases lastWrite_succ hc with
    | inl hk => rw [if_pos hk.2, hk.1]
    | inr hk => rw [if_neg hk.1, h.writer res c hk.2]
  · intro res hno
    rw [hlast, if_neg (hno k (Nat.lt_succ_self k))]
    exact h.noWriter res fun c hc => hno c (hc.trans (Nat.lt_succ_self k))
  · intro sync
    unfold sweepPass
    simp only [hqueue]
    rw [List.mem_append, h.syncPoints, List.mem_filterMap]
    simp only [syncPoint_iff h]
    constructor
    · rintro (⟨u, hu, hs⟩ | hs)
      · exact ⟨u, hu.trans (Nat.lt_succ_self k), hs⟩
      · exact ⟨k, Nat.lt_succ_self k, hs⟩
    · rintro ⟨u, hu, hs⟩
      by_cases he : u = k
      · exact .inr (he ▸ hs)
      · exact .inl ⟨u, by omega, hs⟩

theorem mem_syncPoints {sync : QueueSyncPoint} :
    sync ∈ l.result.syncPoints ↔ ∃ u < l.order.length, l.SyncAt u sync := by
  have hs : ∀ k ≤ l.order.length, l.Swept k ((l.order.take k).foldl (sweepPass l.passes l.result.passToTimeline) {}) := by
    intro k
    induction k with
    | zero => exact fun _ => ⟨fun res c hc => absurd hc.1 (Nat.not_lt_zero c), fun _ _ => rfl, by simp⟩
    | succ k ih =>
      intro hk
      rw [List.take_succ_eq_append_getElem hk, List.foldl_append, ← order_getD hk]
      exact swept_sweepPass (ih (by omega)) hk
  have h := (hs _ le_rfl).syncPoints sync
  rwa [List.take_length] at h

/-! ## The chains -/

theorem synced_iff (htu : t < u) (hu : u < l.order.length) : l.Synced (l.order.getD t 0) (l.order.getD u 0) ↔
    ∃ res c, LastWrite l.Writes res c u ∧ l.Reads u res ∧ l.queueOf c ≠ l.queueOf u ∧ l.queueOf t = l.queueOf c ∧
      l.Writes t res := by
  constructor
  · rintro ⟨sync, hs, -, hpass, hsrc, -, res, hres, hw⟩
    have ⟨v, hv, ref, href, c, hc, hq, he⟩ := mem_syncPoints.mp hs
    subst he
    have hvu : v = u := order_inj hv hu hpass
    subst hvu
    rw [passToTimeline_eq (htu.trans hu)] at hsrc
    obtain rfl := List.mem_singleton.mp hres
    exact ⟨_, c, hc, ⟨ref, href, rfl⟩, hq, hsrc, hw⟩
  · rintro ⟨res, c, hc, ⟨ref, href, rfl⟩, hq, hsrc, hw⟩
    refine ⟨_, mem_syncPoints.mpr ⟨u, hu, ref, href, c, hc, hq, rfl⟩, rfl, rfl, ?_, ?_, _, List.mem_singleton_self _, hw⟩
    · rw [passToTimeline_eq (htu.trans hu), hsrc]
    · exact precedes_iff.mpr ⟨t, u, htu, hu, rfl, rfl⟩

theorem Flows.ordered (h : l.Flows t u) : l.Ordered (l.order.getD t 0) (l.order.getD u 0) := by
  obtain ⟨htu, hu, hq | ⟨res, hlast, hr⟩⟩ := h
  · exact .single (.inl ((sameTimeline_iff htu hu).mpr hq))
  · by_cases hq : l.queueOf t = l.queueOf u
    · exact .single (.inl ((sameTimeline_iff htu hu).mpr hq))
    · exact .single (.inr ((synced_iff htu hu).mpr ⟨res, t, hlast, hr, hq, rfl, hlast.2.1⟩))

theorem Chained.ordered (h : l.Chained t u) : l.Ordered (l.order.getD t 0) (l.order.getD u 0) :=
  h.lift' (fun t => l.order.getD t 0) fun _ _ hf => hf.ordered

/-- A sync point on an older writer goes through the last one. -/
theorem chained_of_synced (htu : t < u) (hu : u < l.order.length) (h : l.Synced (l.order.getD t 0) (l.order.getD u 0)) :
    l.Chained t u := by
  have ⟨res, c, hc, hr, _, hq, hw⟩ := (synced_iff htu hu).mp h
  have hcu : l.Flows c u := ⟨hc.1, hu, .inr ⟨res, hc, hr⟩⟩
  rcases lt_trichotomy t c with htc | rfl | hct
  · exact .tail (.single ⟨htc, hc.1.trans hu, .inl hq⟩) hcu
  · exact .single hcu
  · exact absurd hw (hc.2.2 t hct htu)

theorem precedes_of_sameTimeline (h : l.SameTimeline i j) : l.Precedes i j := by
  obtain ⟨timeline, ht, hs⟩ := h
  obtain ⟨q, -, rfl⟩ := mem_timelines.mp ht
  simp only [queuePasses_eq] at hs
  exact hs.trans List.filter_sublist

theorem ordered_iff (ht : t < l.order.length) (hu : u < l.order.length) :
    l.Ordered (l.order.getD t 0) (l.order.getD u 0) ↔ l.Chained t u := by
  have hstep : ∀ {i j}, l.SameTimeline i j ∨ l.Synced i j →
      ∃ t u, t < u ∧ u < l.order.length ∧ l.order.getD t 0 = i ∧ l.order.getD u 0 = j ∧ l.Chained t u := by
    rintro i j (h | h)
    · obtain ⟨t, u, htu, hu, rfl, rfl⟩ := precedes_iff.mp (precedes_of_sameTimeline h)
      exact ⟨t, u, htu, hu, rfl, rfl, .single ⟨htu, hu, .inl ((sameTimeline_iff htu hu).mp h)⟩⟩
    · have ⟨_, _, _, _, _, hpre, _⟩ := h
      obtain ⟨t, u, htu, hu, rfl, rfl⟩ := precedes_iff.mp hpre
      exact ⟨t, u, htu, hu, rfl, rfl, chained_of_synced htu hu h⟩
  refine ⟨fun h => ?_, Chained.ordered⟩
  have hrun : ∀ j, l.Ordered (l.order.getD t 0) j → ∃ u, u < l.order.length ∧ l.order.getD u 0 = j ∧ l.Chained t u := by
    intro j hj
    induction hj with
    | single h =>
      obtain ⟨t', u, htu, hu, he, rfl, hc⟩ := hstep h
      exact ⟨u, hu, rfl, order_inj (htu.trans hu) ht he ▸ hc⟩
    | tail _ h ih =>
      obtain ⟨v, hv, rfl, hc⟩ := ih
      obtain ⟨t', u, htu, hu, he, rfl, hc'⟩ := hstep h
      exact ⟨u, hu, rfl, hc.trans (order_inj (htu.trans hu) hv he ▸ hc')⟩
  have ⟨v, hv, he, hc⟩ := hrun _ h
  exact order_inj hv hu he ▸ hc

theorem Chained.trans (a b c : ℕ) (hab : l.Chained a b) (hbc : l.Chained b c) : l.Chained a c :=
  Relation.TransGen.trans hab hbc

theorem HazardsChained.conflict (h : l.HazardsChained) (htu : t < u) (hu : u < l.order.length)
    (hc : Conflict l.Reads l.Writes t u) : l.Chained t u := by
  apply conflicts_ordered Chained.trans ?_ ?_ ?_ htu hu hc
  · intro res a b hb hlast hw
    by_cases hq : l.queueOf a = l.queueOf b
    · exact .single ⟨hlast.1, hb, .inl hq⟩
    · exact h.writeAfterWrite res a b hb hq hlast hw
  · exact fun res a b hb hlast hr => .single ⟨hlast.1, hb, .inr ⟨res, hlast, hr⟩⟩
  · intro res a b hb hnext hr
    by_cases hq : l.queueOf a = l.queueOf b
    · exact .single ⟨hnext.1, hb, .inl hq⟩
    · exact h.writeAfterRead res a b hb hq hnext hr

theorem orders_conflicts_iff (l : Launch) : l.OrdersConflicts ↔ l.HazardsChained := by
  constructor
  · intro h
    constructor
    · intro res t u hu hq hlast hw
      have hc : Conflict l.Reads l.Writes t u := ⟨res, .inl ⟨hlast.2.1, .inr hw⟩⟩
      exact (ordered_iff (hlast.1.trans hu) hu).mp (h t u hlast.1 hu hq (.inl hc))
    · intro res t u hu hq hnext hr
      have hc : Conflict l.Reads l.Writes t u := ⟨res, .inr ⟨hr, hnext.2.1⟩⟩
      exact (ordered_iff (hnext.1.trans hu) hu).mp (h t u hnext.1 hu hq (.inl hc))
    · intro t u htu hu hq hd
      exact (ordered_iff (htu.trans hu) hu).mp (h t u htu hu hq (.inr hd))
  · intro h t u htu hu hq hcd
    apply Chained.ordered
    cases hcd with
    | inl hc => exact h.conflict htu hu hc
    | inr hd => exact h.dependency t u htu hu hq hd

/-- A compute pass reads what a graphics pass overwrites. -/
def overwritten : Launch where
  passes := [{ id := 0, type := .compute, reads := [{ resourceId := 0 }] },
    { id := 1, type := .graphics, writes := [{ resourceId := 0 }] }]
  order := [0, 1]
  ctx := ⟨true, true, true, true⟩
  nodup := by decide
  places := by decide

theorem overwritten_unordered : ¬ overwritten.OrdersConflicts := by
  intro h
  have hchain : overwritten.Ordered 0 1 := h 0 1 (by decide) (by decide) (by decide)
    (.inl ⟨0, .inr ⟨⟨_, List.mem_cons_self, rfl⟩, ⟨_, List.mem_cons_self, rfl⟩⟩⟩)
  have hnone : ∀ i j, ¬ (overwritten.SameTimeline i j ∨ overwritten.Synced i j) := by
    rintro i j (⟨timeline, ht, hs⟩ | ⟨sync, hs, -⟩)
    · have hone : ∀ timeline ∈ overwritten.result.timelines, timeline.passes.length = 1 := by decide
      have hlen := hs.length_le
      rw [hone timeline ht] at hlen
      simp at hlen
    · exact absurd hs (by rw [show overwritten.result.syncPoints = [] from rfl]; exact List.not_mem_nil)
  cases hchain with
  | single h => exact hnone _ _ h
  | tail _ h => exact hnone _ _ h

end Launch

end Zpc.VkRenderGraph

/-!
## The positions of the passes on the timelines

`MultiQueueScheduler::schedule` numbers a timeline by the type of its queue and then leaves out the timelines of empty
queues. The numbers are places in the list of timelines exactly when no queue before a used one is empty.
-/
namespace Zpc.VkRenderGraph
def ScheduleResult.passAtPosition (r : ScheduleResult) (passIdx : ℕ) : Option ℕ := do
  let queue ← r.passToTimeline[passIdx]?
  let timeline ← r.timelines[queue.toNat]?
  timeline.passes[← r.passToIndex[passIdx]?]?

namespace Launch
variable {l : Launch} {i k t : ℕ}

/-- The queue that a pass is assigned to. -/
def queue (l : Launch) (i : ℕ) : QueueType := selectQueue l.ctx (passAt l.passes i)

/-- A sync point makes a pass wait for an earlier pass, and its queues are the timelines of the two. -/
structure SyncLocated (l : Launch) (sync : QueueSyncPoint) : Prop where
  pass : l.result.passAtPosition sync.passId = some sync.passId
  dstQueue : l.result.passToTimeline[sync.passId]? = some sync.dstQueue
  srcQueue : ∃ i, l.Precedes i sync.passId ∧ l.result.passAtPosition i = some i ∧
    l.result.passToTimeline[i]? = some sync.srcQueue ∧ ∃ res ∈ sync.resources, (passAt l.passes i).Writes res

/-- The maps lead to every pass, and the sync points are at such positions. -/
structure Located (l : Launch) : Prop where
  passes : ∀ i ∈ l.order, l.result.passAtPosition i = some i
  syncPoints : ∀ sync ∈ l.result.syncPoints, l.SyncLocated sync

/-- Every queue numbered below that of a pass has a pass too. -/
def NoQueueSkipped (l : Launch) : Prop :=
  ∀ i ∈ l.order, ∀ q : QueueType, q.toNat < (l.queue i).toNat → ∃ j ∈ l.order, l.queue j = q

/-! ## The index of a pass on its queue -/

structure Indexed (l : Launch) (k : ℕ) (s : PlaceState) : Prop where
  length : s.passToIndex.length = l.passes.length
  passToIndex : ∀ i ∈ l.order.take k, ∃ n, s.passToIndex[i]? = some n ∧ (s.queuePasses (l.queue i))[n]? = some i

theorem indexed_placePass {s : PlaceState} (h : l.Indexed k s) (hk : k < l.order.length) :
    l.Indexed (k + 1) (placePass l.ctx l.passes s l.order[k]) := by
  have hplace := l.places _ (List.getElem_mem hk)
  refine ⟨by simp [placePass, h.length], fun i hi => ?_⟩
  rw [List.take_succ_eq_append_getElem hk, List.mem_append, List.mem_singleton] at hi
  by_cases he : l.order[k] = i
  · subst he
    refine ⟨(s.queuePasses (l.queue l.order[k])).length, ?_, ?_⟩
    · simp [placePass, queue, h.length, hplace]
    · simp [placePass, queue]
  · -- a pass that is placed already keeps its index, for passes are only added behind it
    obtain ⟨n, hn, hp⟩ := h.passToIndex i (hi.resolve_right (Ne.symm he))
    refine ⟨n, ?_, ?_⟩
    · simpa [placePass, List.getElem?_set, he] using hn
    · simp only [placePass]
      by_cases hq : selectQueue l.ctx (passAt l.passes l.order[k]) = l.queue i
      · rw [hq, Function.update_self]
        exact List.getElem?_append_left (List.getElem?_eq_some_iff.mp hp).1 ▸ hp
      · rwa [Function.update_of_ne (Ne.symm hq)]

theorem indexed_placePasses (l : Launch) : l.Indexed l.order.length (placePasses l.ctx l.passes l.order) := by
  have hp : ∀ k ≤ l.order.length, l.Indexed k ((l.order.take k).foldl (placePass l.ctx l.passes)
      ⟨fun _ => [], List.replicate l.passes.length .graphics, List.replicate l.passes.length 0⟩) := by
    intro k
    induction k with
    | zero => exact fun _ => ⟨by simp, by simp⟩
    | succ k ih =>
      intro hk
      rw [List.take_succ_eq_append_getElem hk, List.foldl_append]
      exact indexed_placePass (ih (by omega)) hk
  have h := hp _ le_rfl
  rwa [List.take_length] at h

theorem passToTimeline_getElem (hi : i ∈ l.order) : l.result.passToTimeline[i]? = some (l.queue i) := by
  have hp := placed_placePasses l
  have hlen : i < l.result.passToTimeline.length := hp.length.symm ▸ l.places i hi
  have h := hp.passToTimeline i (by rwa [List.take_length])
  have hget : (placePasses l.ctx l.passes l.order).passToTimeline[i]? = some _ := List.getElem?_eq_getElem hlen
  rw [List.getD_eq_getElem?_getD, hget] at h
  exact hget.trans (congrArg some h)

/-! ## The timelines that are left -/

/-- A timeline is at the number of its queue when no queue up to it is empty. -/
theorem timelines_getElem {queuePasses : QueueType → List ℕ} {q : QueueType} :
    (timelines queuePasses)[q.toNat]? = some ⟨q, queuePasses q, 0⟩ ↔
      ∀ q' : QueueType, q'.toNat ≤ q.toNat → queuePasses q' ≠ [] := by
  have hall : ∀ P : QueueType → Prop, (∀ q', P q') ↔ P .graphics ∧ P .compute ∧ P .transfer :=
    fun P => ⟨fun h => ⟨h _, h _, h _⟩, fun h q' => by cases q' <;> grind⟩
  rw [hall]
  by_cases hg : queuePasses .graphics = [] <;> by_cases hc : queuePasses .compute = [] <;>
    by_cases ht : queuePasses .transfer = [] <;> cases q <;> simp [timelines, QueueType.toNat, hg, hc, ht]

theorem mem_queuePasses {q : QueueType} :
    i ∈ (placePasses l.ctx l.passes l.order).queuePasses q ↔ i ∈ l.order ∧ l.queue i = q := by
  rw [queuePasses_eq, List.mem_filter, decide_eq_true_eq]
  rfl

theorem passAtPosition_iff (hi : i ∈ l.order) : l.result.passAtPosition i = some i ↔
    ∀ q : QueueType, q.toNat ≤ (l.queue i).toNat → ∃ j ∈ l.order, l.queue j = q := by
  obtain ⟨n, hn, hp⟩ := (indexed_placePasses l).passToIndex i (by rwa [List.take_length])
  have hpos : l.result.passAtPosition i = (l.result.timelines[(l.queue i).toNat]?).bind (·.passes[n]?) := by
    have hn : l.result.passToIndex[i]? = some n := hn
    simp only [ScheduleResult.passAtPosition, passToTimeline_getElem hi, hn, bind, Option.bind_some]
  have hnonempty : (∀ q : QueueType, q.toNat ≤ (l.queue i).toNat → ∃ j ∈ l.order, l.queue j = q) ↔
      ∀ q : QueueType, q.toNat ≤ (l.queue i).toNat → (placePasses l.ctx l.passes l.order).queuePasses q ≠ [] := by
    refine forall₂_congr fun q _ => ?_
    rw [ne_eq, List.eq_nil_iff_forall_not_mem]
    simp only [mem_queuePasses, not_forall, not_not]
  rw [hpos, hnonempty, ← timelines_getElem]
  constructor
  · intro h
    obtain ⟨timeline, ht, hi'⟩ := Option.bind_eq_some_iff.mp h
    obtain ⟨q, -, rfl⟩ := mem_timelines.mp (List.mem_of_getElem? ht)
    -- the timeline found there holds the pass, so it is the one of its queue
    obtain rfl := (mem_queuePasses.mp (List.mem_of_getElem? hi')).2
    exact ht
  · intro h
    have h : l.result.timelines[(l.queue i).toNat]? = some _ := h
    rw [h]
    exact hp

theorem order_mem (ht : t < l.order.length) : l.order.getD t 0 ∈ l.order := by
  rw [order_getD ht]
  exact List.getElem_mem ht

/-- The maps and the sync points give positions exactly when no queue before a used one is empty. -/
theorem located_iff (l : Launch) : l.Located ↔ l.NoQueueSkipped := by
  constructor
  · intro h i hi q hq
    exact (passAtPosition_iff hi).mp (h.passes i hi) q hq.le
  · intro h
    have hpasses : ∀ i ∈ l.order, l.result.passAtPosition i = some i := by
      intro i hi
      refine (passAtPosition_iff hi).mpr fun q hq => ?_
      by_cases he : q = l.queue i
      · exact ⟨i, hi, he.symm⟩
      · refine h i hi q (lt_of_le_of_ne hq fun hn => he ?_)
        revert hn
        cases q <;> cases l.queue i <;> simp [QueueType.toNat]
    refine ⟨hpasses, fun sync hs => ?_⟩
    obtain ⟨u, hu, ref, -, c, hc, -, rfl⟩ := mem_syncPoints.mp hs
    have hcu := hc.1.trans hu
    refine ⟨hpasses _ (order_mem hu), passToTimeline_getElem (order_mem hu), l.order.getD c 0, ?_,
      hpasses _ (order_mem hcu), passToTimeline_getElem (order_mem hcu), _, List.mem_singleton_self _, hc.2.1⟩
    exact precedes_iff.mpr ⟨c, u, hc.1, hu, rfl, rfl⟩

/-- One pass, on the compute queue. -/
def computeOnly : Launch where
  passes := [{ id := 0, type := .compute }]
  order := [0]
  ctx := ⟨true, true, true, true⟩
  nodup := by decide
  places := by decide

/-- The number of the compute queue is 1, and its timeline is the only one. -/
theorem computeOnly_not_located : computeOnly.result.passToTimeline = [.compute] ∧
    computeOnly.result.timelines.length = 1 ∧ ¬ computeOnly.Located := by
  refine ⟨by decide, by decide, fun h => ?_⟩
  exact absurd (h.passes 0 (by decide)) (by decide)

end Launch

end Zpc.VkRenderGraph
