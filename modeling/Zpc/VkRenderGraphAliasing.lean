import Mathlib.Data.Nat.Bitwise
import Zpc.FirstFit
import Zpc.VkRenderGraph

/-!
# Aliasing of transient resources

`ResourceAliasingAnalyzer` of `VkRenderGraphAdvanced.cpp`. The lifetimes it computes are the intervals from the first to
the last use, but the resources of a group are only compared with the one that opened it: two of them overlap exactly
when they overlap as followers of one leader.
-/
namespace Zpc.VkRenderGraph
structure ResourceLifetime where
  resourceId : ResourceId
  firstPass : ℕ := 2 ^ 32 - 1
  lastPass : ℕ := 0
  size : ℕ := 0
  deriving DecidableEq

def ResourceLifetime.overlaps (a b : ResourceLifetime) : Bool := !(a.lastPass < b.firstPass || a.firstPass > b.lastPass)

def resourceAt (resources : List VirtualResource) (i : ℕ) : VirtualResource := resources.getD i {id := 2 ^ 32 - 1}

def idToIndex (resources : List VirtualResource) : ResourceId → Option ℕ :=
  (List.range resources.length).foldl (fun m i => Function.update m (resourceAt resources i).id (some i)) fun _ => none

def initialLifetime (res : VirtualResource) : ResourceLifetime where
  resourceId := res.id
  size := match res.desc with
    | .buffer d => d.size
    | .image _ => 0

def ResourceLifetime.extend (orderIdx : ℕ) (life : ResourceLifetime) : ResourceLifetime :=
  {life with firstPass := min life.firstPass orderIdx, lastPass := max life.lastPass orderIdx}

def touch (resources : List VirtualResource) (orderIdx : ℕ) (lifetimes : List ResourceLifetime) (ref : ResourceRef) :
    List ResourceLifetime :=
  match idToIndex resources ref.resourceId with
  | some i => lifetimes.modify i (ResourceLifetime.extend orderIdx)
  | none => lifetimes

def touchPass (resources : List VirtualResource) (passes : List RenderPassNode) (executionOrder : List ℕ)
    (lifetimes : List ResourceLifetime) (orderIdx : ℕ) : List ResourceLifetime :=
  let pass := passAt passes (executionOrder.getD orderIdx 0)
  pass.writes.foldl (touch resources orderIdx) (pass.reads.foldl (touch resources orderIdx) lifetimes)

def computeLifetimes (resources : List VirtualResource) (passes : List RenderPassNode) (executionOrder : List ℕ) :
    List ResourceLifetime :=
  (List.range executionOrder.length).foldl (touchPass resources passes executionOrder) (resources.map initialLifetime)

def eUniformBuffer : ℕ := 0x10
def eStorageBuffer : ℕ := 0x20

def canAlias (a b : VirtualResource) : Bool :=
  match a.desc, b.desc with
  | .buffer a, .buffer b =>
    if a.usage &&& eUniformBuffer ≠ 0 ∧ b.usage &&& eUniformBuffer ≠ 0 then true
    else if a.usage &&& eStorageBuffer ≠ 0 ∧ b.usage &&& eStorageBuffer ≠ 0 then true
    else a.usage &&& b.usage ≠ 0
  | .image a, .image b => a.usage &&& b.usage ≠ 0
  | _, _ => false

structure AliasGroup where
  resources : List ResourceId
  totalSize : ℕ
  offsets : List (ResourceId × ℕ)
  deriving DecidableEq

def lifetimeAt (lifetimes : List ResourceLifetime) (i : ℕ) : ResourceLifetime :=
  lifetimes.getD i ⟨2 ^ 32 - 1, 2 ^ 32 - 1, 0, 0⟩

def joins (resources : List VirtualResource) (lifetimes : List ResourceLifetime) (i j : ℕ) : Bool :=
  canAlias (resourceAt resources i) (resourceAt resources j) && !(lifetimeAt lifetimes i).overlaps (lifetimeAt lifetimes j)

def largest (lifetimes : List ResourceLifetime) (maxSize : ℕ) (id : ResourceId) : ℕ :=
  match lifetimes.find? (·.resourceId = id) with
  | some life => max maxSize life.size
  | none => maxSize

def aliasGroup (lifetimes : List ResourceLifetime) (resources : List ResourceId) : AliasGroup where
  resources := resources
  totalSize := resources.foldl (largest lifetimes) 0
  offsets := resources.map fun id => (id, 0)

/-- The two loops over the resources are those of the greedy grouping. -/
def computeAliasing (resources : List VirtualResource) (lifetimes : List ResourceLifetime) : List AliasGroup :=
  (FirstFit.groups (joins resources lifetimes) resources.length).map fun group =>
    aliasGroup lifetimes (group.map fun i => (resourceAt resources i).id)

/-- The resources and passes of a graph and an order to run it in, as long as a 32-bit counter goes. -/
structure Schedule where
  resources : List VirtualResource
  passes : List RenderPassNode
  executionOrder : List ℕ
  numbered : (resources.map (·.id)).Nodup
  length_lt : executionOrder.length < 2 ^ 32

namespace Schedule
variable (s : Schedule)

def UsedAt (res : ResourceId) (t : ℕ) : Prop :=
  t < s.executionOrder.length ∧ ∃ ref ∈ (passAt s.passes (s.executionOrder.getD t 0)).reads ++
    (passAt s.passes (s.executionOrder.getD t 0)).writes, ref.resourceId = res

def AliveAt (res : ResourceId) (t : ℕ) : Prop := ∃ a b, a ≤ t ∧ t ≤ b ∧ s.UsedAt res a ∧ s.UsedAt res b

def DisjointLifetimes (a b : ResourceId) : Prop := ∀ t, ¬ (s.AliveAt a t ∧ s.AliveAt b t)

def lifetimes : List ResourceLifetime := computeLifetimes s.resources s.passes s.executionOrder

variable {s}

theorem idToIndex_prefix (i : ℕ) (hi : i < s.resources.length) : ∀ k ≤ s.resources.length,
    (List.range k).foldl (fun m i => Function.update m (resourceAt s.resources i).id (some i)) (fun _ => none)
      (resourceAt s.resources i).id = if i < k then some i else none := by
  intro k
  induction k with
  | zero => simp
  | succ k ih =>
    intro hk
    rw [List.range_succ, List.foldl_append, List.foldl_cons, List.foldl_nil]
    by_cases hik : i = k
    · subst hik
      simp
    · have hne : (resourceAt s.resources i).id ≠ (resourceAt s.resources k).id := by
        intro he
        have hinj := List.nodup_iff_injective_get.mp s.numbered
        have hget : (⟨i, by simpa using hi⟩ : Fin (s.resources.map (·.id)).length) = ⟨k, by simpa using Nat.lt_of_succ_le hk⟩ :=
          hinj (by simpa [resourceAt, hi, show k < s.resources.length from hk] using he)
        exact hik (congrArg Fin.val hget)
      rw [Function.update_of_ne hne, ih (by omega)]
      have : i < k ↔ i < k + 1 := by omega
      simp only [this]

theorem idToIndex_id {i : ℕ} (hi : i < s.resources.length) :
    idToIndex s.resources (resourceAt s.resources i).id = some i := by
  rw [idToIndex, idToIndex_prefix i hi _ le_rfl, if_pos hi]

end Schedule

theorem idToIndex_some {resources : List VirtualResource} {res : ResourceId} {i : ℕ}
    (h : idToIndex resources res = some i) : (resourceAt resources i).id = res := by
  unfold idToIndex at h
  revert h
  generalize resources.length = k
  induction k with
  | zero => simp
  | succ k ih =>
    intro h
    rw [List.range_succ, List.foldl_append, List.foldl_cons, List.foldl_nil] at h
    by_cases hr : res = (resourceAt resources k).id
    · rw [hr, Function.update_self] at h
      rw [hr, Option.some.inj h]
    · rw [Function.update_of_ne hr] at h
      exact ih h

theorem extend_extend (t : ℕ) (life : ResourceLifetime) : (life.extend t).extend t = life.extend t := by
  simp [ResourceLifetime.extend]

theorem lifetimeAt_modify {lifetimes : List ResourceLifetime} {i : ℕ} (hi : i < lifetimes.length) (k t : ℕ) :
    lifetimeAt (lifetimes.modify k (ResourceLifetime.extend t)) i =
      if k = i then (lifetimeAt lifetimes i).extend t else lifetimeAt lifetimes i := by
  unfold lifetimeAt
  rw [List.getD_eq_getElem?_getD, List.getD_eq_getElem?_getD, List.getElem?_modify]
  by_cases hk : k = i
  · simp [hk, hi]
  · simp [hk]

theorem touchPass_eq (resources : List VirtualResource) (passes : List RenderPassNode) (executionOrder : List ℕ)
    (lifetimes : List ResourceLifetime) (t : ℕ) : touchPass resources passes executionOrder lifetimes t =
      ((passAt passes (executionOrder.getD t 0)).reads ++ (passAt passes (executionOrder.getD t 0)).writes).foldl
        (touch resources t) lifetimes := by
  rw [List.foldl_append]
  rfl

theorem length_touch (resources : List VirtualResource) (t : ℕ) (lifetimes : List ResourceLifetime) (ref : ResourceRef) :
    (touch resources t lifetimes ref).length = lifetimes.length := by
  unfold touch
  split <;> simp

namespace Schedule
variable {s : Schedule} {i j : ℕ}

theorem lifetimeAt_touch (hi : i < s.resources.length) {lifetimes : List ResourceLifetime}
    (hl : lifetimes.length = s.resources.length) (t : ℕ) (ref : ResourceRef) :
    lifetimeAt (touch s.resources t lifetimes ref) i =
      if ref.resourceId = (resourceAt s.resources i).id then (lifetimeAt lifetimes i).extend t
      else lifetimeAt lifetimes i := by
  unfold touch
  by_cases hr : ref.resourceId = (resourceAt s.resources i).id
  · rw [if_pos hr, hr, idToIndex_id hi, lifetimeAt_modify (by omega), if_pos rfl]
  · rw [if_neg hr]
    split
    · rename_i k hk
      rw [lifetimeAt_modify (by omega), if_neg fun he => hr (by rw [← idToIndex_some hk, he])]
    · rfl

theorem lifetimeAt_touches (hi : i < s.resources.length) (t : ℕ) (refs : List ResourceRef)
    {lifetimes : List ResourceLifetime} (hl : lifetimes.length = s.resources.length) :
    (refs.foldl (touch s.resources t) lifetimes).length = s.resources.length ∧
      lifetimeAt (refs.foldl (touch s.resources t) lifetimes) i =
        if ∃ ref ∈ refs, ref.resourceId = (resourceAt s.resources i).id then (lifetimeAt lifetimes i).extend t
        else lifetimeAt lifetimes i := by
  induction refs generalizing lifetimes with
  | nil => simp [hl]
  | cons ref refs ih =>
    have hl' := (length_touch s.resources t lifetimes ref).trans hl
    obtain ⟨hlen, hlife⟩ := ih hl'
    refine ⟨hlen, ?_⟩
    rw [List.foldl_cons, hlife, lifetimeAt_touch hi hl]
    by_cases hr : ref.resourceId = (resourceAt s.resources i).id
    · simp [hr, extend_extend]
    · simp [hr]

/-- A lifetime after the uses before a time: empty, or from the first of them to the last. -/
structure Spans (s : Schedule) (res : ResourceId) (t : ℕ) (life : ResourceLifetime) : Prop where
  within : ∀ u < t, s.UsedAt res u → life.firstPass ≤ u ∧ u ≤ life.lastPass
  ends : s.UsedAt res life.firstPass ∧ s.UsedAt res life.lastPass ∧ life.firstPass < t ∧ life.lastPass < t ∨
    life.firstPass = 2 ^ 32 - 1 ∧ life.lastPass = 0 ∧ ∀ u < t, ¬ s.UsedAt res u

theorem spans_extend {res : ResourceId} {t : ℕ} {life : ResourceLifetime} (h : s.Spans res t life)
    (hu : s.UsedAt res t) : s.Spans res (t + 1) (life.extend t) := by
  have ht := hu.1
  have hlt := s.length_lt
  constructor
  · intro u hlt' hu'
    simp only [ResourceLifetime.extend]
    by_cases he : u = t
    · omega
    · have := h.within u (by omega) hu'
      omega
  · simp only [ResourceLifetime.extend]
    rcases h.ends with ⟨h1, h2, h3, h4⟩ | ⟨h1, h2, -⟩
    · left
      rw [Nat.min_eq_left (by omega), Nat.max_eq_right (by omega)]
      exact ⟨h1, hu, by omega, by omega⟩
    · left
      rw [h1, h2, Nat.min_eq_right (by omega), Nat.max_eq_right (by omega)]
      exact ⟨hu, hu, by omega, by omega⟩

theorem spans_skip {res : ResourceId} {t : ℕ} {life : ResourceLifetime} (h : s.Spans res t life)
    (hu : ¬ s.UsedAt res t) : s.Spans res (t + 1) life := by
  constructor
  · intro u hlt hu'
    have hne : u ≠ t := fun he => hu (he ▸ hu')
    exact h.within u (by omega) hu'
  · rcases h.ends with ⟨h1, h2, h3, h4⟩ | ⟨h1, h2, h3⟩
    · exact .inl ⟨h1, h2, by omega, by omega⟩
    · refine .inr ⟨h1, h2, fun u hlt hu' => ?_⟩
      have hne : u ≠ t := fun he => hu (he ▸ hu')
      exact h3 u (by omega) hu'

theorem spans_processed (hi : i < s.resources.length) (t : ℕ) (ht : t ≤ s.executionOrder.length) :
    ((List.range t).foldl (touchPass s.resources s.passes s.executionOrder)
        (s.resources.map initialLifetime)).length = s.resources.length ∧
      s.Spans (resourceAt s.resources i).id t (lifetimeAt ((List.range t).foldl
        (touchPass s.resources s.passes s.executionOrder) (s.resources.map initialLifetime)) i) := by
  induction t with
  | zero =>
    refine ⟨by simp, by simp, .inr ⟨?_, ?_, by simp⟩⟩ <;>
      simp [lifetimeAt, initialLifetime, hi]
  | succ t ih =>
    obtain ⟨hlen, hspans⟩ := ih (by omega)
    rw [List.range_succ, List.foldl_append, List.foldl_cons, List.foldl_nil, touchPass_eq]
    obtain ⟨hlen', hlife⟩ := lifetimeAt_touches hi t ((passAt s.passes (s.executionOrder.getD t 0)).reads ++
      (passAt s.passes (s.executionOrder.getD t 0)).writes) hlen
    refine ⟨hlen', ?_⟩
    rw [hlife]
    split_ifs with hu
    · exact spans_extend hspans ⟨by omega, hu⟩
    · exact spans_skip hspans fun h => hu h.2

theorem spans_lifetimes (hi : i < s.resources.length) :
    s.Spans (resourceAt s.resources i).id s.executionOrder.length (lifetimeAt s.lifetimes i) :=
  (spans_processed hi _ le_rfl).2

theorem overlaps_iff (hi : i < s.resources.length) (hj : j < s.resources.length) :
    (lifetimeAt s.lifetimes i).overlaps (lifetimeAt s.lifetimes j) = false ↔
      s.DisjointLifetimes (resourceAt s.resources i).id (resourceAt s.resources j).id := by
  have hspanI := spans_lifetimes hi
  have hspanJ := spans_lifetimes hj
  have hlt := s.length_lt
  simp only [ResourceLifetime.overlaps, Bool.not_eq_false', Bool.or_eq_true, decide_eq_true_eq]
  constructor
  · rintro h t ⟨⟨a, b, hat, htb, ha, hb⟩, ⟨c, d, hct, htd, hc, hd⟩⟩
    have h1 := hspanI.within a ha.1 ha
    have h2 := hspanI.within b hb.1 hb
    have h3 := hspanJ.within c hc.1 hc
    have h4 := hspanJ.within d hd.1 hd
    omega
  · intro h
    by_contra hn
    rcases hspanI.ends with ⟨hfirst, hlast, hlt1, hlt2⟩ | ⟨hfirst, hlast, -⟩
    · rcases hspanJ.ends with ⟨hfirst', hlast', hlt1', hlt2'⟩ | ⟨hfirst', hlast', -⟩
      · -- the later of the two first uses is within both lifetimes
        have h1 := hspanI.within _ hlast.1 hlast
        have h2 := hspanI.within _ hfirst.1 hfirst
        have h3 := hspanJ.within _ hfirst'.1 hfirst'
        refine h (max (lifetimeAt s.lifetimes i).firstPass (lifetimeAt s.lifetimes j).firstPass) ⟨?_, ?_⟩
        · exact ⟨_, _, by omega, by omega, hfirst, hlast⟩
        · exact ⟨_, _, by omega, by omega, hfirst', hlast'⟩
      · omega
    · rcases hspanJ.ends with ⟨hfirst', hlast', hlt1', hlt2'⟩ | ⟨hfirst', hlast', -⟩
      · omega
      · omega

open Classical in
noncomputable def compatible (s : Schedule) (i j : ℕ) : Bool :=
  canAlias (resourceAt s.resources i) (resourceAt s.resources j) &&
    decide (s.DisjointLifetimes (resourceAt s.resources i).id (resourceAt s.resources j).id)

/-- No two resources that follow one leader, the first resource before them that leads and is
compatible with them, are alive at one time. -/
def FollowersDisjoint (s : Schedule) : Prop :=
  ∀ l ∈ FirstFit.leaders s.compatible s.resources.length, ∀ j k, j < k → k < s.resources.length →
    FirstFit.Follows s.compatible l j → FirstFit.Follows s.compatible l k →
      s.DisjointLifetimes (resourceAt s.resources j).id (resourceAt s.resources k).id

theorem joins_eq (hi : i < s.resources.length) (hj : j < s.resources.length) :
    joins s.resources s.lifetimes i j = s.compatible i j := by
  classical
  unfold joins compatible
  congr 1
  rw [Bool.eq_iff_iff, Bool.not_eq_true', decide_eq_true_eq]
  exact overlaps_iff hi hj

/-- The resources of every group have disjoint lifetimes exactly when the followers of one leader do. -/
theorem aliasing_disjoint_iff (s : Schedule) :
    (∀ group ∈ computeAliasing s.resources s.lifetimes, group.resources.Pairwise s.DisjointLifetimes) ↔
      s.FollowersDisjoint := by
  have hgroups : FirstFit.groups (joins s.resources s.lifetimes) s.resources.length =
      FirstFit.groups s.compatible s.resources.length :=
    FirstFit.groups_congr fun i j hij hj => joins_eq (by omega) hj
  unfold computeAliasing
  simp only [List.forall_mem_map, aliasGroup, List.pairwise_map, hgroups]
  apply FirstFit.pairwise_groups_iff
  intro i j h
  simp only [compatible, Bool.and_eq_true, decide_eq_true_eq] at h
  exact h.2

/-- A storage buffer used by the first pass, before two that the second pass uses. -/
def scratch : Schedule where
  resources := [{id := 0, desc := .buffer {size := 64, usage := eStorageBuffer}},
    {id := 1, desc := .buffer {size := 64, usage := eStorageBuffer}},
    {id := 2, desc := .buffer {size := 64, usage := eStorageBuffer}}]
  passes := [{id := 0, writes := [⟨0, 2, {}⟩]}, {id := 1, reads := [⟨1, 1, {}⟩], writes := [⟨2, 2, {}⟩]}]
  executionOrder := [0, 1]
  numbered := by decide
  length_lt := by decide

theorem scratch_overlaps : ¬ ∀ group ∈ computeAliasing scratch.resources scratch.lifetimes,
    group.resources.Pairwise scratch.DisjointLifetimes := by
  intro h
  have hgroups : computeAliasing scratch.resources scratch.lifetimes = [⟨[0, 1, 2], 64, [(0, 0), (1, 0), (2, 0)]⟩] := by
    decide
  rw [hgroups] at h
  have hpair := h _ List.mem_cons_self
  have hread : scratch.UsedAt 1 1 := ⟨by decide, ⟨1, 1, {}⟩, by decide, rfl⟩
  have hwrite : scratch.UsedAt 2 1 := ⟨by decide, ⟨2, 2, {}⟩, by decide, rfl⟩
  refine List.rel_of_pairwise_cons (List.pairwise_cons.mp hpair).2 List.mem_cons_self 1 ⟨?_, ?_⟩
  · exact ⟨1, 1, le_rfl, le_rfl, hread, hread⟩
  · exact ⟨1, 1, le_rfl, le_rfl, hwrite, hwrite⟩

end Schedule

end Zpc.VkRenderGraph
