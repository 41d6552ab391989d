import Mathlib

/-!
# The pool of transient resources

`TransientResourcePool` of `VkTransientResource.hpp`. Its two caches, of buffers and of
images, differ in their descriptions only. A resource is the number of its creation, and
is what it was created with. A creation may fail, by an exception that leaves an entry
without a resource behind.
-/
namespace Zpc.TransientResource
structure TransientBufferDesc where
  size : ℕ := 0
  usage : BitVec 32 := 0
  memoryProperties : BitVec 32 := 1
  deriving DecidableEq

def TransientBufferDesc.isSatisfiedBy (d existing : TransientBufferDesc) : Bool :=
  d.size ≤ existing.size && existing.usage &&& d.usage == d.usage
    && existing.memoryProperties &&& d.memoryProperties == d.memoryProperties

structure Extent3D where
  width : ℕ
  height : ℕ
  depth : ℕ
  deriving DecidableEq

/-- The enumerations `format`, `samples` and `imageType` by their values. -/
structure TransientImageDesc where
  extent : Extent3D := ⟨0, 0, 1⟩
  format : ℕ := 0
  usage : BitVec 32 := 0
  samples : ℕ := 1
  mipLevels : ℕ := 1
  arrayLayers : ℕ := 1
  imageType : ℕ := 1
  memoryProperties : BitVec 32 := 1
  deriving DecidableEq

def TransientImageDesc.isSatisfiedBy (d existing : TransientImageDesc) : Bool :=
  d.extent.width ≤ existing.extent.width && d.extent.height ≤ existing.extent.height
    && d.extent.depth ≤ existing.extent.depth && existing.format == d.format
    && existing.usage &&& d.usage == d.usage && existing.samples == d.samples
    && d.mipLevels ≤ existing.mipLevels && d.arrayLayers ≤ existing.arrayLayers
    && existing.imageType == d.imageType
    && existing.memoryProperties &&& d.memoryProperties == d.memoryProperties

structure CachedEntry (D : Type*) where
  desc : D
  resource : Option ℕ
  inUse : Bool := false
  unusedFrames : ℕ := 0

structure Cache (D : Type*) where
  entries : List (CachedEntry D) := []
  created : List D := []

/-- How an acquisition ends: `empty` is a reference to no resource. -/
inductive Acquired
  | resource (r : ℕ)
  | empty
  | threw
  deriving DecidableEq

/-- An operation on a cache; `creates` tells whether a creation would succeed. -/
inductive CacheOp (D : Type*)
  | beginFrame
  | acquire (desc : D) (creates : Bool)
  | endFrame (maxUnusedFrames : ℕ)
  | reset

namespace Cache
variable {D : Type*} (satisfied : D → D → Bool)

def beginFrame (c : Cache D) : Cache D := {c with entries := c.entries.map ({· with inUse := false})}

def evictEntry (maxUnusedFrames : ℕ) (e : CachedEntry D) : Option (CachedEntry D) :=
  if e.inUse then some e
  else
    let unused := (e.unusedFrames + 1) % 2 ^ 32
    if maxUnusedFrames < unused then none else some {e with unusedFrames := unused}

def evict (c : Cache D) (maxUnusedFrames : ℕ) : Cache D :=
  {c with entries := c.entries.filterMap (evictEntry maxUnusedFrames)}

def reusable (desc : D) (e : CachedEntry D) : Bool := !e.inUse && satisfied e.desc desc

def use (e : CachedEntry D) : CachedEntry D := {e with inUse := true, unusedFrames := 0}

def reuse (desc : D) : List (CachedEntry D) → List (CachedEntry D)
  | [] => []
  | e :: rest => if reusable satisfied desc e then use e :: rest else e :: reuse desc rest

def acquire (c : Cache D) (desc : D) (creates : Bool) : Cache D × Acquired :=
  match c.entries.find? (reusable satisfied desc) with
  | some e => ({c with entries := reuse satisfied desc c.entries}, e.resource.elim .empty .resource)
  | none =>
    if creates then
      (⟨c.entries ++ [⟨desc, some c.created.length, true, 0⟩], c.created ++ [desc]⟩, .resource c.created.length)
    else ({c with entries := c.entries ++ [⟨desc, none, false, 0⟩]}, .threw)

/-- `none` is an operation on the other cache alone. -/
def step (c : Cache D) : Option (CacheOp D) → Cache D
  | none => c
  | some .beginFrame => c.beginFrame
  | some (.acquire desc creates) => (c.acquire satisfied desc creates).1
  | some (.endFrame n) => c.evict n
  | some .reset => {c with entries := []}

end Cache

structure TransientResourcePool where
  cachedBuffers : Cache TransientBufferDesc := {}
  cachedImages : Cache TransientImageDesc := {}

inductive Op
  | beginFrame
  | acquireBuffer (desc : TransientBufferDesc) (creates : Bool)
  | acquireImage (desc : TransientImageDesc) (creates : Bool)
  | endFrame (maxUnusedFrames : ℕ)
  | reset

def Op.onBuffers : Op → Option (CacheOp TransientBufferDesc)
  | .beginFrame => some .beginFrame
  | .acquireBuffer desc creates => some (.acquire desc creates)
  | .acquireImage .. => none
  | .endFrame n => some (.endFrame n)
  | .reset => some .reset

def Op.onImages : Op → Option (CacheOp TransientImageDesc)
  | .beginFrame => some .beginFrame
  | .acquireBuffer .. => none
  | .acquireImage desc creates => some (.acquire desc creates)
  | .endFrame n => some (.endFrame n)
  | .reset => some .reset

def TransientResourcePool.step (p : TransientResourcePool) (op : Op) : TransientResourcePool :=
  ⟨p.cachedBuffers.step TransientBufferDesc.isSatisfiedBy op.onBuffers,
    p.cachedImages.step TransientImageDesc.isSatisfiedBy op.onImages⟩

/-- The pool before the call number `k`. -/
def run (ops : ℕ → Op) : ℕ → TransientResourcePool
  | 0 => {}
  | k + 1 => (run ops k).step (ops k)

section Specification
variable {D : Type*} (satisfied : D → D → Bool) (ops : ℕ → Option (CacheOp D)) (caches : ℕ → Cache D)

/-- The resource that the call number `k` returns. -/
def returned (k : ℕ) : Option ℕ :=
  match ops k with
  | some (.acquire desc creates) => match ((caches k).acquire satisfied desc creates).2 with
    | .resource r => some r
    | _ => none
  | _ => none

/-- Before the call number `k`: whether the resource has been acquired since the last begin of a
frame, and at how many ends of a frame since its last acquisition it was unused. -/
def usage (r : ℕ) : ℕ → Bool × ℕ
  | 0 => (false, 0)
  | k + 1 =>
    if returned satisfied ops caches k = some r then (true, 0)
    else match ops k with
      | some .beginFrame => (false, (usage r k).2)
      | some (.endFrame _) => ((usage r k).1, if (usage r k).1 then (usage r k).2 else (usage r k).2 + 1)
      | _ => usage r k

def Live (c : Cache D) (r : ℕ) : Prop := ∃ e ∈ c.entries, e.resource = some r

/-- An acquisition throws, or returns a resource created with what serves the request. -/
def Fits (k : ℕ) : Prop :=
  ∀ desc creates, ops k = some (.acquire desc creates) →
    ((caches k).acquire satisfied desc creates).2 = .threw ∨
      ∃ r d, ((caches k).acquire satisfied desc creates).2 = .resource r ∧
        (caches (k + 1)).created[r]? = some d ∧ satisfied desc d

/-- What the first `n` calls of a sequence keep. -/
structure Kept (n : ℕ) : Prop where
  fits : ∀ k < n, Fits satisfied ops caches k
  distinct : ∀ i j, i < j → j < n → ∀ r, returned satisfied ops caches i = some r →
    returned satisfied ops caches j = some r → ∃ k, i < k ∧ k < j ∧ ops k = some .beginFrame
  lasting : ∀ k < n, ∀ r, Live (caches k) r → ¬ Live (caches (k + 1)) r →
    ops k = some .reset ∨ ∃ m, ops k = some (.endFrame m) ∧ m < (usage satisfied ops caches r (k + 1)).2

/-- The entry that an acquisition reuses has a resource, and the very description that is asked for. -/
def ReusesEqual (k : ℕ) : Prop :=
  ∀ desc creates, ops k = some (.acquire desc creates) →
    ∀ e, (caches k).entries.find? (Cache.reusable satisfied desc) = some e → e.desc = desc ∧ e.resource.isSome

end Specification

section Cache
variable {D : Type*} {satisfied : D → D → Bool} {c : Cache D} {desc : D}

open Cache

theorem reuse_eq {e : CachedEntry D} {l : List (CachedEntry D)} (h : l.find? (reusable satisfied desc) = some e) :
    ∃ before after, l = before ++ e :: after ∧ reuse satisfied desc l = before ++ use e :: after := by
  induction l with
  | nil => cases h
  | cons x rest ih =>
    rw [reuse]
    by_cases hx : reusable satisfied desc x
    · rw [List.find?_cons_of_pos hx] at h
      cases h
      exact ⟨[], rest, rfl, if_pos hx⟩
    · rw [List.find?_cons_of_neg hx] at h
      obtain ⟨before, after, hl, hr⟩ := ih h
      exact ⟨x :: before, after, by rw [hl]; rfl, by rw [if_neg hx, hr]; rfl⟩

/-- What an acquisition does, branch by branch. -/
theorem acquire_cases (satisfied : D → D → Bool) (c : Cache D) (desc : D) (creates : Bool) :
    (∃ before e after, c.entries = before ++ e :: after ∧
      c.entries.find? (reusable satisfied desc) = some e ∧ e.inUse = false ∧ satisfied e.desc desc ∧
      (c.acquire satisfied desc creates).1 = ⟨before ++ use e :: after, c.created⟩ ∧
      (c.acquire satisfied desc creates).2 = e.resource.elim .empty .resource) ∨
    (c.entries.find? (reusable satisfied desc) = none ∧
      c.acquire satisfied desc creates =
        (⟨c.entries ++ [⟨desc, some c.created.length, true, 0⟩], c.created ++ [desc]⟩, .resource c.created.length)) ∨
    (c.entries.find? (reusable satisfied desc) = none ∧
      c.acquire satisfied desc creates = ({c with entries := c.entries ++ [⟨desc, none, false, 0⟩]}, .threw)) := by
  unfold acquire
  cases hf : c.entries.find? (reusable satisfied desc) with
  | some e =>
    obtain ⟨before, after, hl, hr⟩ := reuse_eq hf
    have he : reusable satisfied desc e := List.find?_some hf
    simp only [reusable, Bool.and_eq_true, Bool.not_eq_true'] at he
    exact .inl ⟨before, e, after, hl, rfl, he.1, he.2, by rw [hr], rfl⟩
  | none =>
    cases creates
    · exact .inr (.inr ⟨rfl, rfl⟩)
    · exact .inr (.inl ⟨rfl, rfl⟩)

theorem mem_evict {n : ℕ} {e' : CachedEntry D} (h : e' ∈ (c.evict n).entries) : ∃ e ∈ c.entries,
    e'.desc = e.desc ∧ e'.resource = e.resource ∧ e'.inUse = e.inUse ∧
      e'.unusedFrames ≤ if e.inUse then e.unusedFrames else e.unusedFrames + 1 := by
  obtain ⟨e, he, hev⟩ := List.mem_filterMap.mp h
  refine ⟨e, he, ?_⟩
  unfold evictEntry at hev
  dsimp only at hev
  split_ifs at hev with hu hn
  · cases hev
    exact ⟨rfl, rfl, rfl, by rw [if_pos hu]⟩
  · cases hev
    exact ⟨rfl, rfl, rfl, by rw [if_neg hu]; exact Nat.mod_le _ _⟩

theorem evictEntry_eq_none {n : ℕ} {e : CachedEntry D} (h : evictEntry n e = none) :
    e.inUse = false ∧ n < e.unusedFrames + 1 := by
  unfold evictEntry at h
  dsimp only at h
  split_ifs at h with hu hn
  exact ⟨by simpa using hu, hn.trans_le (Nat.mod_le _ _)⟩

theorem evictEntry_resource {n : ℕ} {e e' : CachedEntry D} (h : evictEntry n e = some e') : e'.resource = e.resource := by
  unfold evictEntry at h
  dsimp only at h
  split_ifs at h <;> cases h <;> rfl

theorem resources_evict (n : ℕ) (l : List (CachedEntry D)) :
    ((l.filterMap (evictEntry n)).filterMap (·.resource)).Sublist (l.filterMap (·.resource)) := by
  induction l with
  | nil => exact .slnil
  | cons e l ih =>
    rw [List.filterMap_cons, List.filterMap_cons]
    cases hev : evictEntry n e with
    | none =>
      cases e.resource with
      | none => exact ih
      | some r => exact ih.cons _
    | some e' =>
      dsimp only
      rw [List.filterMap_cons, evictEntry_resource hev]
      cases e.resource with
      | none => exact ih
      | some r => exact ih.cons_cons _

end Cache

section Run
variable {D : Type*} {satisfied : D → D → Bool} {ops : ℕ → Option (CacheOp D)} {caches : ℕ → Cache D} {k r : ℕ}

open Cache

structure Follows (satisfied : D → D → Bool) (ops : ℕ → Option (CacheOp D)) (caches : ℕ → Cache D) : Prop where
  first : caches 0 = {}
  next : ∀ k, caches (k + 1) = (caches k).step satisfied (ops k)

/-- The entries with resources are those of different creations, and carry what they were created
with, whether they are in use and at most the ends of frames that they have been unused for. -/
structure Sound (satisfied : D → D → Bool) (ops : ℕ → Option (CacheOp D)) (caches : ℕ → Cache D) (k : ℕ) : Prop where
  created : ∀ e ∈ (caches k).entries, ∀ r, e.resource = some r → (caches k).created[r]? = some e.desc
  distinct : ((caches k).entries.filterMap (·.resource)).Nodup
  used : ∀ e ∈ (caches k).entries, ∀ r, e.resource = some r → e.inUse = (usage satisfied ops caches r k).1 ∧
    e.unusedFrames ≤ (usage satisfied ops caches r k).2

theorem usage_returned (h : returned satisfied ops caches k = some r) :
    usage satisfied ops caches r (k + 1) = (true, 0) := if_pos h

theorem usage_acquire {desc : D} {creates : Bool} (ho : ops k = some (.acquire desc creates))
    (h : returned satisfied ops caches k ≠ some r) :
    usage satisfied ops caches r (k + 1) = usage satisfied ops caches r k := by
  rw [usage, if_neg h, ho]

theorem returned_acquire {desc : D} {creates : Bool} (ho : ops k = some (.acquire desc creates)) :
    returned satisfied ops caches k = some r ↔ ((caches k).acquire satisfied desc creates).2 = .resource r := by
  unfold returned
  rw [ho]
  dsimp only
  cases ((caches k).acquire satisfied desc creates).2 <;> simp

theorem returned_other (h : ∀ desc creates, ops k ≠ some (.acquire desc creates)) :
    returned satisfied ops caches k = none := by
  unfold returned
  split
  · exact absurd ‹_› (h _ _)
  · rfl

theorem lt_of_created {l : List D} {d : D} (h : l[r]? = some d) : r < l.length := by
  by_contra hge
  rw [List.getElem?_eq_none (Nat.le_of_not_lt hge)] at h
  cases h

/-- What an entry keeps that an acquisition leaves alone. -/
theorem Sound.unacquired (hs : Sound satisfied ops caches k) {desc : D} {creates : Bool}
    (ho : ops k = some (.acquire desc creates)) {x : CachedEntry D} (hx : x ∈ (caches k).entries) {r : ℕ}
    (hr : x.resource = some r) (hne : ((caches k).acquire satisfied desc creates).2 ≠ .resource r) :
    x.inUse = (usage satisfied ops caches r (k + 1)).1 ∧ x.unusedFrames ≤ (usage satisfied ops caches r (k + 1)).2 := by
  rw [usage_acquire ho (mt (returned_acquire ho).mp hne)]
  exact hs.used x hx r hr

/-- No two entries have one resource. -/
theorem Sound.apart (hs : Sound satisfied ops caches k) {before after : List (CachedEntry D)} {e x : CachedEntry D}
    (hl : (caches k).entries = before ++ e :: after) (hx : x ∈ before ++ after) {r : ℕ} (hr : x.resource = some r) :
    e.resource ≠ some r := by
  intro her
  have hd := hs.distinct
  rw [hl, List.filterMap_append, List.filterMap_cons, her] at hd
  have hd' := (List.perm_middle.nodup_iff.mp hd)
  rw [List.nodup_cons, ← List.filterMap_append] at hd'
  exact hd'.1 (List.mem_filterMap.mpr ⟨x, hx, hr⟩)

/-- An entry not in use is taken. -/
theorem sound_reuse (hs : Sound satisfied ops caches k) {desc : D} {creates : Bool}
    (ho : ops k = some (.acquire desc creates)) {before after : List (CachedEntry D)} {e : CachedEntry D}
    (hl : (caches k).entries = before ++ e :: after)
    (hnext : caches (k + 1) = ⟨before ++ use e :: after, (caches k).created⟩)
    (h2 : ((caches k).acquire satisfied desc creates).2 = e.resource.elim .empty .resource) : Sound satisfied ops caches (k + 1) := by
  have hentries : (caches (k + 1)).entries = before ++ use e :: after := by rw [hnext]
  have hcreated : (caches (k + 1)).created = (caches k).created := by rw [hnext]
  have hmem : ∀ x ∈ (caches (k + 1)).entries, x = use e ∨ x ∈ before ++ after := by
    intro x hx
    rw [hentries] at hx
    rcases List.mem_append.mp hx with hx | hx
    · exact .inr (List.mem_append_left _ hx)
    · rcases List.mem_cons.mp hx with rfl | hx
      · exact .inl rfl
      · exact .inr (List.mem_append_right _ hx)
  have hold : ∀ x ∈ before ++ after, x ∈ (caches k).entries := by
    intro x hx
    rw [hl]
    rcases List.mem_append.mp hx with hx | hx
    · exact List.mem_append_left _ hx
    · exact List.mem_append_right _ (List.mem_cons_of_mem _ hx)
  have he : e ∈ (caches k).entries := by
    rw [hl]
    exact List.mem_append_right _ (List.mem_cons_self ..)
  refine ⟨fun x hx r hr => ?_, ?_, fun x hx r hr => ?_⟩
  · rw [hcreated]
    rcases hmem x hx with rfl | hx
    · exact hs.created e he r hr
    · exact hs.created x (hold x hx) r hr
  · rw [hentries, List.filterMap_append, List.filterMap_cons]
    have hd := hs.distinct
    rw [hl, List.filterMap_append, List.filterMap_cons] at hd
    exact hd
  · rcases hmem x hx with rfl | hx
    · have hr' : e.resource = some r := hr
      rw [usage_returned ((returned_acquire ho).mpr (by rw [h2, hr']; rfl))]
      exact ⟨rfl, Nat.zero_le _⟩
    · refine hs.unacquired ho (hold x hx) hr fun hres => ?_
      rw [h2] at hres
      cases her : e.resource with
      | none =>
        rw [her] at hres
        cases hres
      | some r' =>
        rw [her] at hres
        cases hres
        exact hs.apart hl hx hr her

/-- A resource is created. -/
theorem sound_create (hs : Sound satisfied ops caches k) {desc : D} {creates : Bool}
    (ho : ops k = some (.acquire desc creates))
    (hnext : caches (k + 1) =
      ⟨(caches k).entries ++ [⟨desc, some (caches k).created.length, true, 0⟩], (caches k).created ++ [desc]⟩)
    (h2 : ((caches k).acquire satisfied desc creates).2 = .resource (caches k).created.length) :
    Sound satisfied ops caches (k + 1) := by
  have hentries : (caches (k + 1)).entries =
      (caches k).entries ++ [⟨desc, some (caches k).created.length, true, 0⟩] := by rw [hnext]
  have hcreated : (caches (k + 1)).created = (caches k).created ++ [desc] := by rw [hnext]
  refine ⟨fun x hx r hr => ?_, ?_, fun x hx r hr => ?_⟩
  · rw [hcreated]
    rw [hentries] at hx
    rcases List.mem_append.mp hx with hx | hx
    · have h := hs.created x hx r hr
      rw [List.getElem?_append_left (lt_of_created h), h]
    · obtain rfl := List.mem_singleton.mp hx
      cases hr
      simp
  · rw [hentries, List.filterMap_append]
    refine List.nodup_append.mpr ⟨hs.distinct, List.nodup_singleton _, fun r hr r' hr' heq => ?_⟩
    obtain ⟨x, hx, hxr⟩ := List.mem_filterMap.mp hr
    obtain rfl : r' = (caches k).created.length := List.mem_singleton.mp hr'
    exact absurd (lt_of_created (hs.created x hx r hxr)) (by rw [heq]; exact Nat.lt_irrefl _)
  · rw [hentries] at hx
    rcases List.mem_append.mp hx with hx | hx
    · refine hs.unacquired ho hx hr fun hres => ?_
      cases h2.symm.trans hres
      exact absurd (lt_of_created (hs.created x hx _ hr)) (Nat.lt_irrefl _)
    · obtain rfl := List.mem_singleton.mp hx
      cases hr
      rw [usage_returned ((returned_acquire ho).mpr h2)]
      exact ⟨rfl, le_rfl⟩

/-- A creation fails, and leaves an entry without a resource. -/
theorem sound_failed (hs : Sound satisfied ops caches k) {desc : D} {creates : Bool}
    (ho : ops k = some (.acquire desc creates))
    (hnext : caches (k + 1) = {caches k with entries := (caches k).entries ++ [⟨desc, none, false, 0⟩]})
    (h2 : ((caches k).acquire satisfied desc creates).2 = .threw) : Sound satisfied ops caches (k + 1) := by
  have hentries : (caches (k + 1)).entries = (caches k).entries ++ [⟨desc, none, false, 0⟩] := by rw [hnext]
  have hcreated : (caches (k + 1)).created = (caches k).created := by rw [hnext]
  have hold : ∀ x ∈ (caches (k + 1)).entries, ∀ r, x.resource = some r → x ∈ (caches k).entries := by
    intro x hx r hr
    rw [hentries] at hx
    rcases List.mem_append.mp hx with hx | hx
    · exact hx
    · obtain rfl := List.mem_singleton.mp hx
      cases hr
  refine ⟨fun x hx r hr => ?_, ?_, fun x hx r hr => ?_⟩
  · rw [hcreated]
    exact hs.created x (hold x hx r hr) r hr
  · rw [hentries, List.filterMap_append]
    show ((caches k).entries.filterMap CachedEntry.resource ++ []).Nodup
    rw [List.append_nil]
    exact hs.distinct
  · refine hs.unacquired ho (hold x hx r hr) hr fun hres => ?_
    cases h2.symm.trans hres

/-- An acquired resource is in use; the others are as before. -/
theorem sound_acquire (hf : Follows satisfied ops caches) (hs : Sound satisfied ops caches k) {desc : D}
    {creates : Bool} (ho : ops k = some (.acquire desc creates)) : Sound satisfied ops caches (k + 1) := by
  have hnext : caches (k + 1) = ((caches k).acquire satisfied desc creates).1 := by rw [hf.next, ho]; rfl
  obtain ⟨before, e, after, hl, -, -, -, h1, h2⟩ | ⟨-, heq⟩ | ⟨-, heq⟩ :=
    acquire_cases satisfied (caches k) desc creates
  · exact sound_reuse hs ho hl (hnext.trans h1) h2
  · rw [heq] at hnext
    exact sound_create hs ho hnext (by rw [heq])
  · rw [heq] at hnext
    exact sound_failed hs ho hnext (by rw [heq])

theorem sound_step (hf : Follows satisfied ops caches) (hs : Sound satisfied ops caches k) :
    Sound satisfied ops caches (k + 1) := by
  have hnext := hf.next k
  cases ho : ops k with
  | none =>
    rw [ho] at hnext
    have hu : ∀ r, usage satisfied ops caches r (k + 1) = usage satisfied ops caches r k := by
      intro r
      rw [usage, returned_other (fun _ _ h => by rw [ho] at h; cases h), if_neg (by simp), ho]
    have heq : caches (k + 1) = caches k := hnext
    refine ⟨?_, ?_, ?_⟩
    · rw [heq]; exact hs.created
    · rw [heq]; exact hs.distinct
    · rw [heq]
      intro e he r hr
      rw [hu]
      exact hs.used e he r hr
  | some op =>
    rw [ho] at hnext
    cases op with
    | acquire desc creates => exact sound_acquire hf hs ho
    | beginFrame =>
      have hu : ∀ r, usage satisfied ops caches r (k + 1) = (false, (usage satisfied ops caches r k).2) := by
        intro r
        rw [usage, returned_other (fun _ _ h => by rw [ho] at h; cases h), if_neg (by simp), ho]
      have heq : (caches (k + 1)).entries = (caches k).entries.map ({· with inUse := false}) := by rw [hnext]; rfl
      have hcreated : (caches (k + 1)).created = (caches k).created := by rw [hnext]; rfl
      refine ⟨fun e' he r hr => ?_, ?_, fun e' he r hr => ?_⟩
      · rw [heq] at he
        obtain ⟨e, hmem, rfl⟩ := List.mem_map.mp he
        rw [hcreated]
        exact hs.created e hmem r hr
      · rw [heq, List.filterMap_map]
        exact hs.distinct
      · rw [heq] at he
        obtain ⟨e, hmem, rfl⟩ := List.mem_map.mp he
        rw [hu]
        exact ⟨rfl, (hs.used e hmem r hr).2⟩
    | endFrame n =>
      have hu : ∀ r, usage satisfied ops caches r (k + 1) = ((usage satisfied ops caches r k).1,
          if (usage satisfied ops caches r k).1 then (usage satisfied ops caches r k).2
          else (usage satisfied ops caches r k).2 + 1) := by
        intro r
        rw [usage, returned_other (fun _ _ h => by rw [ho] at h; cases h), if_neg (by simp), ho]
      have heq : caches (k + 1) = (caches k).evict n := hnext
      have hcreated : (caches (k + 1)).created = (caches k).created := by rw [heq]; rfl
      refine ⟨fun e' he r hr => ?_, ?_, fun e' he r hr => ?_⟩
      · rw [heq] at he
        obtain ⟨e, he, hdesc, hres, -, -⟩ := mem_evict he
        rw [hcreated, hdesc]
        exact hs.created e he r (hres ▸ hr)
      · rw [heq]
        exact (resources_evict n _).nodup hs.distinct
      · rw [heq] at he
        obtain ⟨e, he, -, hres, huse, hle⟩ := mem_evict he
        obtain ⟨h1, h2⟩ := hs.used e he r (hres ▸ hr)
        rw [hu, huse, ← h1]
        refine ⟨rfl, hle.trans ?_⟩
        dsimp only
        split <;> omega
    | reset =>
      have heq : (caches (k + 1)).entries = [] := by rw [hnext]; rfl
      refine ⟨fun e he => ?_, ?_, fun e he => ?_⟩
      · rw [heq] at he
        cases he
      · rw [heq]
        exact List.nodup_nil
      · rw [heq] at he
        cases he

theorem sound_run (hf : Follows satisfied ops caches) (k : ℕ) : Sound satisfied ops caches k := by
  induction k with
  | zero =>
    refine ⟨fun e he => ?_, ?_, fun e he => ?_⟩
    · rw [hf.first] at he
      cases he
    · rw [hf.first]
      exact List.nodup_nil
    · rw [hf.first] at he
      cases he
  | succ k ih => exact sound_step hf ih

/-- What is returned was out of use before, and exists after. -/
theorem returned_spec (hf : Follows satisfied ops caches) (h : returned satisfied ops caches k = some r) :
    ((usage satisfied ops caches r k).1 = false ∨ (caches k).created.length ≤ r) ∧ r < (caches (k + 1)).created.length := by
  have hs := sound_run hf k
  cases ho : ops k with
  | none => rw [returned_other (fun _ _ h => by rw [ho] at h; cases h)] at h; cases h
  | some op =>
    cases op with
    | acquire desc creates =>
      have hnext : caches (k + 1) = ((caches k).acquire satisfied desc creates).1 := by rw [hf.next, ho]; rfl
      have hres := (returned_acquire ho).mp h
      obtain ⟨before, e, after, hl, -, hu, -, h1, h2⟩ | ⟨-, heq⟩ | ⟨-, heq⟩ :=
        acquire_cases satisfied (caches k) desc creates
      · rw [h2] at hres
        have her : e.resource = some r := by
          cases her : e.resource with
          | none =>
            rw [her] at hres
            cases hres
          | some r' =>
            rw [her] at hres
            cases hres
            rfl
        have he : e ∈ (caches k).entries := by
          rw [hl]
          exact List.mem_append_right _ (List.mem_cons_self ..)
        refine ⟨.inl ((hs.used e he r her).1 ▸ hu), ?_⟩
        rw [hnext, h1]
        exact lt_of_created (hs.created e he r her)
      · rw [heq] at hres hnext
        cases hres
        rw [hnext]
        exact ⟨.inr le_rfl, by simp⟩
      · rw [heq] at hres
        cases hres
    | _ => rw [returned_other (fun _ _ h => by rw [ho] at h; cases h)] at h; cases h

theorem created_mono (hf : Follows satisfied ops caches) (k : ℕ) :
    (caches k).created.length ≤ (caches (k + 1)).created.length := by
  rw [hf.next]
  cases ops k with
  | none => exact le_rfl
  | some op =>
    cases op with
    | acquire desc creates =>
      obtain ⟨before, e, after, hl, -, -, -, h1, -⟩ | ⟨-, heq⟩ | ⟨-, heq⟩ :=
        acquire_cases satisfied (caches k) desc creates
      · exact (congrArg (List.length ∘ Cache.created) h1).ge
      · show _ ≤ ((caches k).acquire satisfied desc creates).1.created.length
        rw [heq]
        simp
      · exact (congrArg (List.length ∘ Cache.created ∘ Prod.fst) heq).ge
    | _ => exact le_rfl

/-- A resource stays in use until a frame begins. -/
theorem stays_used (hf : Follows satisfied ops caches) {i j : ℕ} (hij : i < j)
    (hi : returned satisfied ops caches i = some r) (hbegin : ∀ m, i < m → m < j → ops m ≠ some .beginFrame) :
    (usage satisfied ops caches r j).1 = true ∧ r < (caches j).created.length := by
  induction j, hij using Nat.le_induction with
  | base => exact ⟨by rw [usage_returned hi], (returned_spec hf hi).2⟩
  | succ j hij ih =>
    obtain ⟨h1, h2⟩ := ih fun m hm hmj => hbegin m hm (Nat.lt_succ_of_lt hmj)
    refine ⟨?_, h2.trans_le (created_mono hf j)⟩
    rw [usage]
    split
    · rfl
    · have hne := hbegin j hij (Nat.lt_succ_self j)
      split
      · exact absurd ‹_› hne
      · exact h1
      · exact h1

/-- A resource goes at a reset, or at an end of a frame when it has been unused for long enough. -/
theorem gone_cases (hf : Follows satisfied ops caches) (hl : Live (caches k) r) (hg : ¬ Live (caches (k + 1)) r) :
    ops k = some .reset ∨ ∃ m, ops k = some (.endFrame m) ∧ m < (usage satisfied ops caches r (k + 1)).2 := by
  obtain ⟨e, he, hr⟩ := hl
  have hs := sound_run hf k
  have hnext := hf.next k
  cases ho : ops k with
  | none =>
    rw [ho] at hnext
    exact absurd ⟨e, by rw [hnext]; exact he, hr⟩ hg
  | some op =>
    rw [ho] at hnext
    cases op with
    | beginFrame =>
      exact absurd ⟨{e with inUse := false}, by rw [hnext]; exact List.mem_map.mpr ⟨e, he, rfl⟩, hr⟩ hg
    | acquire desc creates =>
      obtain ⟨before, x, after, hx, -, -, -, h1, -⟩ | ⟨-, heq⟩ | ⟨-, heq⟩ :=
        acquire_cases satisfied (caches k) desc creates
      · have hentries : (caches (k + 1)).entries = before ++ use x :: after := by
          rw [hnext]
          exact congrArg Cache.entries h1
        rw [hx] at he
        rcases List.mem_append.mp he with he | he
        · exact absurd ⟨e, by rw [hentries]; exact List.mem_append_left _ he, hr⟩ hg
        · rcases List.mem_cons.mp he with rfl | he
          · exact absurd ⟨use e, by rw [hentries]; exact List.mem_append_right _ (List.mem_cons_self ..), hr⟩ hg
          · exact absurd ⟨e, by rw [hentries]; exact List.mem_append_right _ (List.mem_cons_of_mem _ he), hr⟩ hg
      · have hentries := hnext.trans (congrArg Prod.fst heq)
        exact absurd ⟨e, by rw [hentries]; exact List.mem_append_left _ he, hr⟩ hg
      · have hentries := hnext.trans (congrArg Prod.fst heq)
        exact absurd ⟨e, by rw [hentries]; exact List.mem_append_left _ he, hr⟩ hg
    | endFrame n =>
      cases hev : evictEntry n e with
      | some e' =>
        have hmem : e' ∈ (caches (k + 1)).entries := by
          rw [hnext]
          exact List.mem_filterMap.mpr ⟨e, he, hev⟩
        exact absurd ⟨e', hmem, (evictEntry_resource hev).trans hr⟩ hg
      | none =>
        obtain ⟨hu, hn⟩ := evictEntry_eq_none hev
        obtain ⟨h1, h2⟩ := hs.used e he r hr
        refine .inr ⟨n, rfl, ?_⟩
        rw [usage, returned_other (fun _ _ h => by rw [ho] at h; cases h), if_neg (by simp), ho]
        dsimp only
        rw [← h1, hu, if_neg Bool.false_ne_true]
        omega
    | reset => exact .inl rfl

/-- Reuse alone decides whether an acquisition fits. -/
theorem fits_iff (hf : Follows satisfied ops caches) (hrefl : ∀ d, satisfied d d)
    (hanti : ∀ a b, satisfied a b → satisfied b a → a = b) : Fits satisfied ops caches k ↔ ReusesEqual satisfied ops caches k := by
  have hs := sound_run hf k
  unfold Fits ReusesEqual
  refine forall_congr' fun desc => forall_congr' fun creates => forall_congr' fun ho => ?_
  have hnext : caches (k + 1) = ((caches k).acquire satisfied desc creates).1 := by rw [hf.next, ho]; rfl
  obtain ⟨before, e, after, hl, hfind, -, hsat, h1, h2⟩ | ⟨hfind, heq⟩ | ⟨hfind, heq⟩ :=
    acquire_cases satisfied (caches k) desc creates
  · have he : e ∈ (caches k).entries := by
      rw [hl]
      exact List.mem_append_right _ (List.mem_cons_self ..)
    rw [hnext, h1, h2, hfind]
    constructor
    · rintro hfit e' rfl'
      cases rfl'
      cases her : e.resource with
      | none =>
        rw [her] at hfit
        rcases hfit with h | ⟨r, d, h, -⟩ <;> cases h
      | some r =>
        rw [her] at hfit
        rcases hfit with h | ⟨r', d, h, hd, hsd⟩
        · cases h
        · cases h
          have hc := hs.created e he r her
          rw [show (caches k).created[r]? = some d from hd] at hc
          cases hc
          exact ⟨hanti _ _ hsat hsd, rfl⟩
    · intro hall
      obtain ⟨rfl, hsome⟩ := hall e rfl
      obtain ⟨r, her⟩ := Option.isSome_iff_exists.mp hsome
      exact .inr ⟨r, e.desc, by rw [her]; rfl, hs.created e he r her, hrefl _⟩
  · rw [hfind]
    refine iff_of_true (.inr ⟨(caches k).created.length, desc, by rw [heq], ?_, hrefl _⟩) fun e h => by cases h
    rw [hnext, heq]
    simp
  · rw [hfind]
    exact iff_of_true (.inl (by rw [heq])) fun e h => by cases h

theorem kept_iff (hf : Follows satisfied ops caches) (hrefl : ∀ d, satisfied d d)
    (hanti : ∀ a b, satisfied a b → satisfied b a → a = b) (n : ℕ) :
    Kept satisfied ops caches n ↔ ∀ k < n, ReusesEqual satisfied ops caches k := by
  constructor
  · intro h k hk
    exact (fits_iff hf hrefl hanti).mp (h.fits k hk)
  · intro h
    refine ⟨fun k hk => (fits_iff hf hrefl hanti).mpr (h k hk), fun i j hij hj r hi hr => ?_,
      fun k _ r hl hg => gone_cases hf hl hg⟩
    by_contra hno
    push Not at hno
    obtain ⟨h1, h2⟩ := stays_used hf hij hi hno
    rcases (returned_spec hf hr).1 with h | h
    · rw [h1] at h
      cases h
    · omega

end Run

section Descriptions
theorem and_eq_antisymm {w : ℕ} {a b : BitVec w} (h : b &&& a = a) (h' : a &&& b = b) : a = b := by
  rw [← h, BitVec.and_comm, h']

theorem TransientBufferDesc.isSatisfiedBy_refl (d : TransientBufferDesc) : d.isSatisfiedBy d := by
  simp [isSatisfiedBy]

theorem TransientBufferDesc.eq_of_isSatisfiedBy (a b : TransientBufferDesc) (h : a.isSatisfiedBy b)
    (h' : b.isSatisfiedBy a) : a = b := by
  simp only [isSatisfiedBy, Bool.and_eq_true, decide_eq_true_eq, beq_iff_eq] at h h'
  obtain ⟨⟨hsize, husage⟩, hmem⟩ := h
  obtain ⟨⟨hsize', husage'⟩, hmem'⟩ := h'
  obtain ⟨size, usage, memoryProperties⟩ := a
  obtain rfl := le_antisymm hsize hsize'
  obtain rfl := and_eq_antisymm husage husage'
  obtain rfl := and_eq_antisymm hmem hmem'
  rfl

theorem TransientImageDesc.isSatisfiedBy_refl (d : TransientImageDesc) : d.isSatisfiedBy d := by
  simp [isSatisfiedBy]

theorem TransientImageDesc.eq_of_isSatisfiedBy (a b : TransientImageDesc) (h : a.isSatisfiedBy b)
    (h' : b.isSatisfiedBy a) : a = b := by
  obtain ⟨⟨width, height, depth⟩, format, usage, samples, mipLevels, arrayLayers, imageType, memoryProperties⟩ := a
  obtain ⟨⟨_, _, _⟩, _, _, _, _, _, _, _⟩ := b
  simp only [isSatisfiedBy, Bool.and_eq_true, decide_eq_true_eq, beq_iff_eq] at h h'
  obtain ⟨⟨⟨⟨⟨⟨⟨⟨⟨hwidth, hheight⟩, hdepth⟩, hformat⟩, husage⟩, hsamples⟩, hmip⟩, hlayers⟩, htype⟩, hmem⟩ := h
  obtain ⟨⟨⟨⟨⟨⟨⟨⟨⟨hwidth', hheight'⟩, hdepth'⟩, -⟩, husage'⟩, -⟩, hmip'⟩, hlayers'⟩, -⟩, hmem'⟩ := h'
  obtain rfl := le_antisymm hwidth hwidth'
  obtain rfl := le_antisymm hheight hheight'
  obtain rfl := le_antisymm hdepth hdepth'
  obtain rfl := hformat
  obtain rfl := and_eq_antisymm husage husage'
  obtain rfl := hsamples
  obtain rfl := le_antisymm hmip hmip'
  obtain rfl := le_antisymm hlayers hlayers'
  obtain rfl := htype
  obtain rfl := and_eq_antisymm hmem hmem'
  rfl

end Descriptions

section Pool
/-- What the first `n` calls keep of the buffers, and of the images. -/
def KeepsPromises (ops : ℕ → Op) (n : ℕ) : Prop :=
  Kept TransientBufferDesc.isSatisfiedBy (fun k => (ops k).onBuffers) (fun k => (run ops k).cachedBuffers) n ∧
    Kept TransientImageDesc.isSatisfiedBy (fun k => (ops k).onImages) (fun k => (run ops k).cachedImages) n

/-- Whatever the calls are: what is acquired serves its request just as long as each reuse is of an equal
description. That it is acquired once a frame, and destroyed only after enough frames, always holds. -/
theorem keepsPromises_iff (ops : ℕ → Op) (n : ℕ) : KeepsPromises ops n ↔ ∀ k < n,
    ReusesEqual TransientBufferDesc.isSatisfiedBy (fun k => (ops k).onBuffers) (fun k => (run ops k).cachedBuffers) k ∧
      ReusesEqual TransientImageDesc.isSatisfiedBy (fun k => (ops k).onImages) (fun k => (run ops k).cachedImages) k := by
  unfold KeepsPromises
  rw [kept_iff ⟨rfl, fun _ => rfl⟩ TransientBufferDesc.isSatisfiedBy_refl TransientBufferDesc.eq_of_isSatisfiedBy,
    kept_iff ⟨rfl, fun _ => rfl⟩ TransientImageDesc.isSatisfiedBy_refl TransientImageDesc.eq_of_isSatisfiedBy]
  constructor
  · rintro ⟨hbuffers, himages⟩ k hk
    exact ⟨hbuffers k hk, himages k hk⟩
  · intro h
    exact ⟨fun k hk => (h k hk).1, fun k hk => (h k hk).2⟩

/-- A buffer of sixteen bytes, and in the next frame a request for sixty-four. -/
def growingBuffers : ℕ → Op
  | 0 => .acquireBuffer {size := 16} true
  | 1 => .beginFrame
  | 2 => .acquireBuffer {size := 64} true
  | _ => .reset

/-- The second request is served with the first buffer. -/
theorem smaller_reused : ¬ ∀ ops n, KeepsPromises ops n := by
  intro h
  have he : ((run growingBuffers 2).cachedBuffers.acquire TransientBufferDesc.isSatisfiedBy {size := 64} true).2 =
      .resource 0 := rfl
  rcases (h growingBuffers 3).1.fits 2 (by decide) {size := 64} true rfl with hthrew | ⟨r, d, hr, hd, hs⟩
  · cases he.symm.trans hthrew
  · cases he.symm.trans hr
    have hd' : some {size := 16} = some d := hd
    cases hd'
    exact absurd hs (by decide)

end Pool

end Zpc.TransientResource
