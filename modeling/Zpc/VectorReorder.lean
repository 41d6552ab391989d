import Zpc.VectorSerialization
import Zpc.Interleaving

/-!
# Reordering of a Vector

`reorder` moves the elements into a vector that it allocates for the capacity of the old one, and this vector replaces
the old one. The elements arrive at their places on any number of threads; the size of the result is the old capacity.
-/
namespace Zpc.Vector
open Interleaving

variable {T : Type*} {junk : T} {v v' : Vector T} {scatter compatible : Bool} {mapR : List ℕ}

section Definitions
/-- The copy of the element under `i` to the place `j` of the ordered elements. -/
def moveElement (vs orderedVs : List T) (i j : ℕ) : Option (List T × List (ℕ × ℕ)) :=
  (vs[i]?).bind fun x => if j < orderedVs.length then some (orderedVs.set j x, []) else none

/-- `VectorReorder` on an item of the enumerated map. -/
def vectorReorder (scatter : Bool) (vs : List T) : Code (List T) (ℕ × ℕ) Unit := fun orderedVs item _ =>
  if scatter then moveElement vs orderedVs item.1 item.2 else moveElement vs orderedVs item.2 item.1

def enumerate (mapR : List ℕ) : List (ℕ × ℕ) := mapR.zipIdx.map Prod.swap

/-- `reorder` under a policy on any number of threads; `compatible` tells whether the policy reaches the memory. -/
inductive Reorders (junk : T) (v : Vector T) (scatter compatible : Bool) (mapR : List ℕ) :
    Except String (Vector T) → Prop
  | mismatch (h : mapR.length ≠ v.size) :
      Reorders junk v scatter compatible mapR (.error "index mapping range size mismatch")
  | incompatible (h : mapR.length = v.size) (hc : compatible = false) :
      Reorders junk v scatter compatible mapR
        (.error "current memory location not compatible with the execution policy")
  | done (h : mapR.length = v.size) (hc : compatible = true) (schedule : List (List (ℕ × ℕ)))
      (hs : schedule.flatten.Perm (enumerate mapR)) (c : Config (List T) (ℕ × ℕ))
      (hr : Reaches (vectorReorder scatter v.base) free ⟨(allocate junk v.onHost v.capacity).base, schedule⟩ c)
      (hq : c.frames = []) :
      Reorders junk v scatter compatible mapR (.ok { allocate junk v.onHost v.capacity with base := c.mem })

/-- Every old element is where the map sends it, or where the map fetches it. -/
def Rearranged (scatter : Bool) (mapR : List ℕ) (old new : List T) : Prop := ∀ item ∈ enumerate mapR,
  if scatter then new[item.2]? = old[item.1]? else new[item.1]? = old[item.2]?

/-- What `reorder` is for: the old size and the rearranged elements. -/
structure Reordered (scatter : Bool) (mapR : List ℕ) (v v' : Vector T) : Prop where
  size : v'.size = v.size
  elements : Rearranged scatter mapR v.elements v'.elements

end Definitions

section Pass
variable {vs orderedVs : List T} {threads : List (List (ℕ × ℕ))} {c c' : Config (List T) (ℕ × ℕ)} {f a : ℕ × ℕ} {x : Unit}

def source (scatter : Bool) (item : ℕ × ℕ) : ℕ := if scatter then item.1 else item.2

def target (scatter : Bool) (item : ℕ × ℕ) : ℕ := if scatter then item.2 else item.1

theorem vectorReorder_eq (scatter : Bool) (vs orderedVs : List T) (item : ℕ × ℕ) (x : Unit) :
    vectorReorder scatter vs orderedVs item x = moveElement vs orderedVs (source scatter item) (target scatter item) := by
  cases scatter <;> rfl

theorem rearranged_iff {old new : List T} : Rearranged scatter mapR old new ↔
    ∀ item ∈ enumerate mapR, new[target scatter item]? = old[source scatter item]? := by
  cases scatter <;> rfl

theorem moveElement_eq_some {i j : ℕ} {l : List T} {fs : List (ℕ × ℕ)} (h : moveElement vs orderedVs i j = some (l, fs)) :
    ∃ e, vs[i]? = some e ∧ j < orderedVs.length ∧ l = orderedVs.set j e ∧ fs = [] := by
  obtain ⟨e, he, h⟩ := Option.bind_eq_some_iff.mp h
  split at h
  next hj =>
    obtain ⟨rfl, rfl⟩ := Prod.ext_iff.mp (Option.some.inj h)
    exact ⟨e, he, hj, rfl, rfl⟩
  next => cases h

theorem pass_step (h : Step (vectorReorder scatter vs) c f x c')
    (hv : target scatter f = target scatter a → f = a)
    (hi : a ∈ c.frames ∨ c.mem[target scatter a]? = vs[source scatter a]?) :
    a ∈ c'.frames ∨ c'.mem[target scatter a]? = vs[source scatter a]? := by
  obtain ⟨fs, he⟩ := h.runs_code
  rw [vectorReorder_eq] at he
  obtain ⟨e, hsrc, htgt, hmem, rfl⟩ := moveElement_eq_some he
  by_cases hp : target scatter f = target scatter a
  · obtain rfl := hv hp
    refine .inr ?_
    rw [hmem, List.getElem?_set_self htgt, hsrc]
  · rw [hmem, List.getElem?_set_ne hp]
    exact hi.imp_left fun hf => h.mem_of_ne hf fun he => hp (he ▸ rfl)

theorem pass_frames (h : Reaches (vectorReorder scatter vs) free ⟨orderedVs, threads⟩ c) :
    (∀ f ∈ c.frames, f ∈ threads.flatten) ∧ c.mem.length = orderedVs.length := by
  induction h with
  | refl => exact ⟨fun f hf => hf, rfl⟩
  | step _ _ hst ih =>
    obtain ⟨fs, he⟩ := hst.runs_code
    rw [vectorReorder_eq] at he
    obtain ⟨e, -, -, hmem, rfl⟩ := moveElement_eq_some he
    refine ⟨hst.all ih.1 (fun fs he => ?_) fun _ _ hg => hg, by rw [hmem, List.length_set, ih.2]⟩
    rw [vectorReorder_eq] at he
    obtain ⟨_, -, -, -, rfl⟩ := moveElement_eq_some he
    exact List.forall_mem_nil _

theorem pass_reaches (h : Reaches (vectorReorder scatter vs) free ⟨orderedVs, threads⟩ c) (ha : a ∈ threads.flatten)
    (hv : ∀ f ∈ threads.flatten, target scatter f = target scatter a → f = a) :
    a ∈ c.frames ∨ c.mem[target scatter a]? = vs[source scatter a]? := by
  induction h with
  | refl => exact .inl ha
  | step hr _ hst ih => exact pass_step hst (hv _ ((pass_frames hr).1 _ hst.mem_frame)) ih

/-- One thread gets through all items whose places are in range. -/
theorem pass_exists (items : List (ℕ × ℕ)) (orderedVs : List T)
    (h : ∀ item ∈ items, source scatter item < vs.length ∧ target scatter item < orderedVs.length) :
    ∃ l, Reaches (vectorReorder scatter vs) free ⟨orderedVs, [items]⟩ ⟨l, [[]]⟩ := by
  induction items generalizing orderedVs with
  | nil => exact ⟨orderedVs, .refl⟩
  | cons item items ih =>
    obtain ⟨hsrc, htgt⟩ := h item List.mem_cons_self
    have hmove : vectorReorder scatter vs orderedVs item () =
        some (orderedVs.set (target scatter item) vs[source scatter item], []) := by
      rw [vectorReorder_eq, moveElement, List.getElem?_eq_getElem hsrc, Option.bind_some, if_pos htgt]
    obtain ⟨l, hl⟩ := ih (orderedVs.set (target scatter item) vs[source scatter item]) fun i hi => by
      rw [List.length_set]
      exact h i (List.mem_cons_of_mem _ hi)
    exact ⟨l, Reaches.trans (.step .refl trivial (.run [] [] hmove)) hl⟩

end Pass

section Reorder
theorem mem_enumerate {i j : ℕ} : (i, j) ∈ enumerate mapR ↔ mapR[i]? = some j := by
  simp only [enumerate, List.mem_map, Prod.exists, Prod.swap_prod_mk, Prod.mk.injEq, List.mem_zipIdx_iff_getElem?]
  constructor
  · rintro ⟨a, b, h, rfl, rfl⟩
    exact h
  · exact fun h => ⟨j, i, h, rfl, rfl⟩

/-- The places of an item of a permutation are below the size, and its target is its own. -/
theorem item_lt (scatter : Bool) {n : ℕ} (hp : mapR.Perm (List.range n)) {item : ℕ × ℕ} (hi : item ∈ enumerate mapR) :
    source scatter item < n ∧ target scatter item < n := by
  obtain ⟨i, j⟩ := item
  have hj := mem_enumerate.mp hi
  obtain ⟨hlt, hget⟩ := List.getElem?_eq_some_iff.mp hj
  have hlen : mapR.length = n := hp.length_eq.trans List.length_range
  have hjlt : j < n := List.mem_range.mp (hp.mem_iff.mp (hget ▸ List.getElem_mem hlt))
  cases scatter
  · exact ⟨hjlt, hlen ▸ hlt⟩
  · exact ⟨hlen ▸ hlt, hjlt⟩

theorem target_inj {n : ℕ} (hp : mapR.Perm (List.range n)) {f a : ℕ × ℕ} (hf : f ∈ enumerate mapR)
    (ha : a ∈ enumerate mapR) (he : target scatter f = target scatter a) : f = a := by
  obtain ⟨i, j⟩ := f
  obtain ⟨i', j'⟩ := a
  have hj := mem_enumerate.mp hf
  have hj' := mem_enumerate.mp ha
  cases scatter with
  | false =>
    obtain rfl : i = i' := he
    rw [hj] at hj'
    rw [Option.some.inj hj']
  | true =>
    obtain rfl : j = j' := he
    obtain ⟨hi, _⟩ := List.getElem?_eq_some_iff.mp hj
    rw [(List.getElem?_inj hi (hp.nodup_iff.mpr List.nodup_range)).mp (hj.trans hj'.symm)]

/-- Every completed reordering has the capacity for its size, and the rearranged elements in its memory. -/
theorem reorders_spec (hp : mapR.Perm (List.range v.size)) {r : Except String (Vector T)}
    (hr : Reorders junk v scatter true mapR r) : ∃ v', r = .ok v' ∧ v'.size = v.capacity ∧ v'.capacity = v.capacity ∧
      v'.base.length = v.capacity ∧ Rearranged scatter mapR v.base v'.base := by
  have hlen : mapR.length = v.size := hp.length_eq.trans List.length_range
  cases hr with
  | mismatch h => exact absurd hlen h
  | incompatible _ hc => cases hc
  | done _ _ schedule hs c hreach hq =>
    refine ⟨_, rfl, rfl, rfl, (pass_frames hreach).2.trans (List.length_replicate ..), ?_⟩
    refine rearranged_iff.mpr fun a ha => ?_
    have hwritten := pass_reaches hreach (hs.mem_iff.mpr ha) fun f hf => target_inj hp (hs.mem_iff.mp hf) ha
    refine hwritten.resolve_left fun hf => ?_
    rw [hq] at hf
    cases hf

/-- A reordering by a permutation can be completed. -/
theorem reorders_exists (hv : v.Valid) (hp : mapR.Perm (List.range v.size)) (junk : T) (scatter : Bool) :
    ∃ v', Reorders junk v scatter true mapR (.ok v') := by
  have hrange : ∀ item ∈ enumerate mapR, source scatter item < v.base.length ∧
      target scatter item < (allocate junk v.onHost v.capacity).base.length := fun item hi => by
    obtain ⟨hs, ht⟩ := item_lt scatter hp hi
    rw [allocate, List.length_replicate]
    exact ⟨hs.trans_le hv.size_le_length, ht.trans_le hv.size_le⟩
  obtain ⟨l, hl⟩ := pass_exists (enumerate mapR) _ hrange
  exact ⟨_, .done (hp.length_eq.trans List.length_range) rfl [enumerate mapR] (by simp) _ hl rfl⟩

/-- The elements of the result, as far as the permutation goes, are the rearranged ones at any capacity. -/
theorem Rearranged.elements (hp : mapR.Perm (List.range v.size)) (hsize : v.size ≤ v'.size)
    (h : Rearranged scatter mapR v.base v'.base) : Rearranged scatter mapR v.elements v'.elements := by
  refine rearranged_iff.mpr fun item hi => ?_
  obtain ⟨hs, ht⟩ := item_lt scatter hp hi
  rw [Vector.elements, Vector.elements, List.getElem?_take_of_lt hs, List.getElem?_take_of_lt (ht.trans_le hsize)]
  exact rearranged_iff.mp h item hi

/-- A permutation of the indices is carried out, with the size kept, exactly on vectors without spare capacity. -/
theorem reorder_iff_no_spare_capacity (junk : T) (v : Vector T) (scatter : Bool) (mapR : List ℕ) (hv : v.Valid)
    (hp : mapR.Perm (List.range v.size)) :
    (∀ r, Reorders junk v scatter true mapR r → ∃ v', r = .ok v' ∧ Reordered scatter mapR v v') ↔
      v.capacity = v.size := by
  constructor
  · intro h
    obtain ⟨v', hr⟩ := reorders_exists hv hp junk scatter
    obtain ⟨_, he, hsize, -⟩ := reorders_spec hp hr
    obtain ⟨_, he', hreordered⟩ := h _ hr
    cases he
    cases he'
    exact hsize.symm.trans hreordered.size
  · intro hcap r hr
    obtain ⟨v', rfl, hsize, -, -, hmoved⟩ := reorders_spec hp hr
    rw [hcap] at hsize
    exact ⟨v', rfl, hsize, hmoved.elements hp hsize.ge⟩

/-- A vector of three elements that gives one back. -/
def shrunk : Option (Vector ℕ) := (allocate 0 true 3).resize 0 2

theorem reorder_iff_no_spare_capacity_two : (∀ r, Reorders 9 (allocate 0 true 2) true true [1, 0] r →
    ∃ v', r = .ok v' ∧ Reordered true [1, 0] (allocate 0 true 2) v') ↔ (allocate 0 true 2).capacity = 2 :=
  reorder_iff_no_spare_capacity 9 (allocate 0 true 2) true [1, 0] ⟨le_rfl, by decide⟩ (by decide)

/-- The exchange of two elements leaves a vector of three. -/
theorem shrunk_reorder_grows : ∃ v v', shrunk = some v ∧ Reorders 9 v true true [1, 0] (.ok v') ∧ v.size = 2 ∧
    v'.size = 3 ∧ ¬ ∀ r, Reorders 9 v true true [1, 0] r → ∃ v', r = .ok v' ∧ Reordered true [1, 0] v v' := by
  have hv : Valid (⟨true, [0, 0, 0], 2, 3⟩ : Vector ℕ) := ⟨by decide, by decide⟩
  obtain ⟨v', hr⟩ := reorders_exists hv (show [1, 0].Perm (List.range 2) by decide) 9 true
  obtain ⟨_, he, hsize, -⟩ := reorders_spec (by decide) hr
  cases he
  refine ⟨_, v', rfl, hr, rfl, hsize, fun h => ?_⟩
  obtain ⟨_, he, hreordered⟩ := h _ hr
  cases he
  exact absurd (hsize.symm.trans hreordered.size) (by decide)

end Reorder
end Zpc.Vector
