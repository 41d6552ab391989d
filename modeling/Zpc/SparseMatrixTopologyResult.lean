import Zpc.SparseMatrixTopology
import Zpc.BhtResize

/-!
# The pattern of a topology build

Both builds end with a pass in which each entry writes its index to a place of its own. The lines of `build` are those
of the symmetric closure, and `fastBuild` makes the same lines where no entry is repeated.
-/
namespace Zpc.SparseMatrix
open Interleaving

/-- The indices of a line. -/
def row {V : Type*} (m : SparseMatrix V) (r : ℕ) : Multiset ℕ :=
  (Multiset.range (m.ptrs.get (r + 1) - m.ptrs.get r)).map fun l => m.inds.get (m.ptrs.get r + l)

namespace Topology
open Build

section Scatter
variable {A : Type*} {place value : A → ℕ} {inds : ℕ → ℕ} {threads : List (List A)} {c c' : Config (ℕ → ℕ) A} {a f : A}
  {x : Unit}

theorem scatter_step (h : Step (scatter place value) c f x c')
    (hv : place f = place a → value f = value a) (hi : a ∈ c.frames ∨ c.mem (place a) = value a) :
    a ∈ c'.frames ∨ c'.mem (place a) = value a := by
  obtain ⟨fs, he⟩ := h.runs_code
  obtain ⟨hmem, rfl⟩ := Prod.ext_iff.mp (Option.some.inj he)
  have hmem : Function.update c.mem (place f) (value f) = c'.mem := hmem
  rw [← hmem]
  by_cases hp : place f = place a
  · refine .inr ?_
    rw [← hp, Function.update_self]
    exact hv hp
  · rw [Function.update_of_ne (Ne.symm hp)]
    exact hi.imp_left fun hf => h.mem_of_ne hf fun he => hp (he ▸ rfl)

theorem scatter_reaches (h : Reaches (scatter place value) free ⟨inds, threads⟩ c) (ha : a ∈ threads.flatten)
    (hv : ∀ f ∈ threads.flatten, place f = place a → value f = value a) :
    (∀ f ∈ c.frames, f ∈ threads.flatten) ∧ (a ∈ c.frames ∨ c.mem (place a) = value a) := by
  induction h with
  | refl => exact ⟨fun f hf => hf, .inl ha⟩
  | step _ _ hst ih =>
    refine ⟨hst.all ih.1 (fun fs he => ?_) fun _ _ hg => hg, scatter_step hst (hv _ (ih.1 _ hst.mem_frame)) ih.2⟩
    obtain rfl := (Prod.ext_iff.mp (Option.some.inj he)).2
    exact List.forall_mem_nil _

theorem scatter_returned (hq : Quiescent (scatter place value) c) : c.frames = [] :=
  hq.returned_of_acts fun f k _ hblocked => by cases hblocked ()

/-- Where items of one place have one value, each item has its value at its place in the end. -/
theorem scatter_written (h : Reaches (scatter place value) free ⟨inds, threads⟩ c) (hq : Quiescent (scatter place value) c)
    (hv : ∀ a ∈ threads.flatten, ∀ f ∈ threads.flatten, place f = place a → value f = value a) :
    ∀ a ∈ threads.flatten, c.mem (place a) = value a := fun a ha => by
  rcases (scatter_reaches h ha (hv a ha)).2 with hf | hm
  · rw [scatter_returned hq] at hf
    cases hf
  · exact hm

end Scatter

variable {d : Topology} {t : Bht (ℕ × ℕ)} {h : HashMemory}

section Indices
variable {inds : ℕ → ℕ} {schedule : List (List ℕ)} {c : Config (ℕ → ℕ) ℕ} {k : ℕ}

theorem place_active (hs : Bht.Sound t h.tab) (hk : k < h.tab.cnt) {e : Triplet Unit}
    (he : h.tab.activeKeys k = e.position) :
    exclusiveScan h.cnts (d.build.outer (h.tab.activeKeys k)) + h.localOffsets k = d.build.slotOf t h e := by
  have hquery := hs.query hk
  unfold slotOf offsetOf
  rw [← he, hquery, Int.toNat_natCast]

/-- In the end the place of each entry has its index. -/
theorem inds_written (hk : ∀ ij ∈ d.entries, ij ≠ t.keySentinel) (hs : Bht.Sound t h.tab) (hc : Counted d.build t h)
    (ha : ∀ k < h.tab.cnt, h.tab.activeKeys k ∈ d.build.triplets.map Triplet.position)
    (hperm : schedule.flatten.Perm (List.range (exclusiveScan h.cnts d.build.nsegs)))
    (hr : Reaches (d.updateEntry h) free ⟨inds, schedule⟩ c) (hq : Quiescent (d.updateEntry h) c) :
    ∀ e ∈ d.build.triplets, c.mem (d.build.slotOf t h e) = d.build.inner e.position := by
  have hmem : ∀ k, k ∈ schedule.flatten ↔ k < h.tab.cnt := fun k => by
    rw [hperm.mem_iff, List.mem_range, hc.scan]
  have hwritten := scatter_written hr hq fun k hk k' hk' hp => by
    have hk := (hmem k).mp hk
    have hk' := (hmem k').mp hk'
    obtain ⟨e, he, hpos⟩ := List.mem_map.mp (ha k hk)
    obtain ⟨e', he', hpos'⟩ := List.mem_map.mp (ha k' hk')
    rw [place_active hs hk hpos.symm, place_active hs hk' hpos'.symm] at hp
    rw [← hpos, ← hpos', hc.slot_inj he' he hp]
  intro e he
  have hnum := (hc.number e he).1
  have hkey : e.position ≠ t.keySentinel := hk _ (positions_build d ▸ List.mem_map_of_mem he)
  rcases hs.query_cases hkey with ⟨k, hk, hpos, -⟩ | ⟨-, hnone⟩
  · have hw := hwritten k ((hmem k).mpr hk)
    rwa [place_active hs hk hpos, hpos] at hw
  · rw [hnone] at hnum
    exact absurd hnum (by decide)

end Indices

section Fast
variable {d : Topology} {m m' : RecordMemory} {f : RecordFrame} {x : Unit} {c c' : Config RecordMemory RecordFrame}
  {places : List (ℕ × ℕ × ℕ)} {r : ℕ}

/-- The entry of a frame. -/
def RecordFrame.entry : RecordFrame → ℕ × ℕ × ℕ
  | .count e | .record e _ => e

def RecordFrame.offsetIn (d : Topology) (r : ℕ) : RecordFrame → Multiset ℕ
  | .record e offset => if d.build.outer e.2 = r then {offset} else 0
  | .count _ => 0

def RecordMemory.offsetsIn (d : Topology) (r : ℕ) (m : RecordMemory) : List ℕ :=
  (m.recorded.filter fun e => d.build.outer e.1.2 = r).map Prod.snd

/-- What one action of the recording pass does. -/
inductive RecordActs (d : Topology) (m : RecordMemory) : RecordFrame → RecordMemory → List RecordFrame → Prop
  | count (e : ℕ × ℕ × ℕ) : RecordActs d m (.count e)
      {m with cnts := Function.update m.cnts (d.build.outer e.2) (m.cnts (d.build.outer e.2) + 1)}
      [.record e (m.cnts (d.build.outer e.2))]
  | record (e : ℕ × ℕ × ℕ) (offset : ℕ) : RecordActs d m (.record e offset)
      {m with localOffsets := Function.update m.localOffsets e.1 offset, recorded := (e, offset) :: m.recorded} []

theorem acts_of_recordEntry {fs : List RecordFrame} (h : d.recordEntry m f x = some (m', fs)) :
    RecordActs d m f m' fs := by
  cases f with
  | count e =>
    obtain ⟨rfl, rfl⟩ := Prod.ext_iff.mp (Option.some.inj h)
    exact .count e
  | record e offset =>
    obtain ⟨rfl, rfl⟩ := Prod.ext_iff.mp (Option.some.inj h)
    exact .record e offset

structure RecordInvariant (d : Topology) (places : List (ℕ × ℕ × ℕ)) (c : Config RecordMemory RecordFrame) : Prop where
  entries : c.total (fun f => ({f.entry} : Multiset (ℕ × ℕ × ℕ))) + (c.mem.recorded.map Prod.fst : Multiset (ℕ × ℕ × ℕ)) =
    (places : Multiset (ℕ × ℕ × ℕ))
  offsets : ∀ r, c.total (RecordFrame.offsetIn d r) + (c.mem.offsetsIn d r : Multiset ℕ) = Multiset.range (c.mem.cnts r)
  written : ∀ e ∈ c.mem.recorded, c.mem.localOffsets e.1.1 = e.2

theorem entries_step (h : Step d.recordEntry c f x c')
    (hi : c.total (fun f => ({f.entry} : Multiset (ℕ × ℕ × ℕ))) + (c.mem.recorded.map Prod.fst : Multiset (ℕ × ℕ × ℕ)) =
      (places : Multiset (ℕ × ℕ × ℕ))) :
    c'.total (fun f => ({f.entry} : Multiset (ℕ × ℕ × ℕ))) + (c'.mem.recorded.map Prod.fst : Multiset (ℕ × ℕ × ℕ)) =
      (places : Multiset (ℕ × ℕ × ℕ)) := by
  obtain ⟨fs, s, ha, hs, hs'⟩ := h.measure acts_of_recordEntry fun f => ({f.entry} : Multiset (ℕ × ℕ × ℕ))
  rw [hs] at hi
  rw [hs', ← hi]
  generalize c.mem = m, c'.mem = m' at ha ⊢
  cases ha with
  | count e => simp [RecordFrame.entry]
  | record e offset => simp [RecordFrame.entry, ← Multiset.cons_coe]

/-- The offsets handed out in a line are those below its count. -/
theorem record_offsets_step (h : Step d.recordEntry c f x c') (r : ℕ)
    (hi : c.total (RecordFrame.offsetIn d r) + (c.mem.offsetsIn d r : Multiset ℕ) = Multiset.range (c.mem.cnts r)) :
    c'.total (RecordFrame.offsetIn d r) + (c'.mem.offsetsIn d r : Multiset ℕ) = Multiset.range (c'.mem.cnts r) := by
  obtain ⟨fs, s, ha, hs, hs'⟩ := h.measure acts_of_recordEntry (RecordFrame.offsetIn d r)
  rw [hs] at hi
  rw [hs']
  generalize c.mem = m, c'.mem = m' at ha hi ⊢
  cases ha with
  | count e =>
    by_cases hr : d.build.outer e.2 = r
    · subst hr
      simp only [Function.update_self, Multiset.range_succ, ← hi]
      simp [RecordFrame.offsetIn, RecordMemory.offsetsIn]
    · simpa [RecordFrame.offsetIn, hr, Function.update_of_ne (Ne.symm hr), RecordMemory.offsetsIn] using hi
  | record e offset =>
    by_cases hr : d.build.outer e.2 = r
    · rw [← hi]
      simp [RecordFrame.offsetIn, RecordMemory.offsetsIn, hr, ← Multiset.cons_coe]
    · simpa [RecordFrame.offsetIn, hr, RecordMemory.offsetsIn] using hi

/-- No two entries share a place among the offsets. -/
theorem record_written_step (hp : (places.map Prod.fst).Nodup) (h : Step d.recordEntry c f x c')
    (hi : RecordInvariant d places c) : ∀ e ∈ c'.mem.recorded, c'.mem.localOffsets e.1.1 = e.2 := by
  have hentries := hi.entries
  have hwritten := hi.written
  obtain ⟨fs, s, ha, hs, -⟩ := h.measure acts_of_recordEntry fun f => ({f.entry} : Multiset (ℕ × ℕ × ℕ))
  rw [hs] at hentries
  generalize c.mem = m, c'.mem = m' at ha hentries hwritten ⊢
  cases ha with
  | count e => exact hwritten
  | record e offset =>
    refine List.forall_mem_cons.mpr ⟨Function.update_self .., fun e' he' => ?_⟩
    have hnd : ((places : Multiset (ℕ × ℕ × ℕ)).map Prod.fst).Nodup := Multiset.coe_nodup.mpr hp
    rw [← hentries] at hnd
    simp only [RecordFrame.entry, Multiset.singleton_add, Multiset.cons_add, Multiset.map_cons, Multiset.nodup_cons,
      Multiset.map_add, Multiset.mem_add, not_or, Multiset.map_coe, Multiset.mem_coe, List.map_map] at hnd
    have hne : e'.1.1 ≠ e.1 := by
      intro hc
      exact hnd.1.2 (hc ▸ List.mem_map_of_mem (f := Prod.fst ∘ Prod.fst) he')
    exact (Function.update_of_ne hne ..).trans (hwritten e' he')

section FastRuns
variable {localOffsets inds : ℕ → ℕ} {schedule schedule' : List (List ((ℕ × ℕ) × ℕ))} {u : Config (ℕ → ℕ) (ℕ × ℕ × ℕ)}

/-- All entries of `fastBuild`, with their places among the offsets. -/
def allPlaces (d : Topology) : List (ℕ × ℕ × ℕ) := d.doublets.zipIdx.flatMap d.places

theorem mem_places {e : (ℕ × ℕ) × ℕ} {p : ℕ × ℕ × ℕ} (h : p ∈ d.places e) : p.1 / 2 = e.2 := by
  unfold places at h
  split at h
  · rcases List.mem_pair.mp h with rfl | rfl
    · exact Nat.mul_div_cancel _ Nat.two_pos
    · show (e.2 * 2 + 1) / 2 = e.2
      omega
  · obtain rfl := List.mem_singleton.mp h
    simp

theorem nodup_places (d : Topology) : (d.allPlaces.map Prod.fst).Nodup := by
  unfold allPlaces
  rw [List.map_flatMap, List.nodup_flatMap]
  constructor
  · intro e _
    unfold places
    split <;> simp
  · have hnum : (d.doublets.zipIdx.map Prod.snd).Nodup := by
      rw [List.zipIdx_map_snd]
      exact List.nodup_range'
    refine (List.pairwise_map.mp hnum).imp fun {e e'} hne => ?_
    rw [Function.onFun, List.disjoint_left]
    intro id hid hid'
    obtain ⟨p, hp, rfl⟩ := List.mem_map.mp hid
    obtain ⟨p', hp', he⟩ := List.mem_map.mp hid'
    exact hne ((mem_places hp).symm.trans (he ▸ mem_places hp'))

theorem flatten_flatMap {A B : Type*} (g : A → List B) (threads : List (List A)) :
    (threads.map (·.flatMap g)).flatten = threads.flatten.flatMap g := by
  induction threads with
  | nil => rfl
  | cons items threads ih => rw [List.map_cons, List.flatten_cons, ih, List.flatten_cons, List.flatMap_append]

theorem record_start (hs : schedule.flatten.Perm d.doublets.zipIdx) :
    RecordInvariant d d.allPlaces (d.recordStart localOffsets schedule) := by
  have hframes : (d.recordStart localOffsets schedule).frames = (schedule.flatten.flatMap d.places).map .count := by
    rw [← flatten_flatMap, List.map_flatten, List.map_map]
    rfl
  refine ⟨?_, fun r => ?_, fun e he => ?_⟩
  · have hperm : ((schedule.flatten.flatMap d.places : List _) : Multiset (ℕ × ℕ × ℕ)) = d.allPlaces :=
      Multiset.coe_eq_coe.mpr (hs.flatMap_right d.places)
    rw [Config.total, hframes, List.map_map, ← hperm]
    calc _ = ((schedule.flatten.flatMap d.places : Multiset (ℕ × ℕ × ℕ)).map fun e => ({e} : Multiset (ℕ × ℕ × ℕ))).sum
          + 0 := rfl
      _ = (schedule.flatten.flatMap d.places : Multiset (ℕ × ℕ × ℕ)) := by rw [add_zero, Multiset.sum_map_singleton]
  · rw [Config.total, hframes, List.map_map]
    refine (congrArg (· + _) (List.sum_eq_zero fun s hs => ?_)).trans (zero_add _)
    obtain ⟨e, _, rfl⟩ := List.mem_map.mp hs
    rfl
  · cases he

theorem record_reaches (hs : schedule.flatten.Perm d.doublets.zipIdx)
    (h : Reaches d.recordEntry free (d.recordStart localOffsets schedule) c) : RecordInvariant d d.allPlaces c := by
  induction h with
  | refl => exact record_start hs
  | step _ _ hst ih =>
    exact ⟨entries_step hst ih.entries, fun r => record_offsets_step hst r (ih.offsets r),
      record_written_step d.nodup_places hst ih⟩

theorem record_returned (hq : Quiescent d.recordEntry c) : c.frames = [] := by
  refine hq.returned_of_acts fun f k _ hblocked => ?_
  cases f <;> cases hblocked ()

theorem RecordInvariant.recorded (hi : RecordInvariant d places c) (hf : c.frames = []) :
    (c.mem.recorded.map Prod.fst).Perm places ∧
      ∀ r, (c.mem.offsetsIn d r : Multiset ℕ) = Multiset.range (c.mem.cnts r) := by
  have he := hi.entries
  have ho := hi.offsets
  simp only [Config.total, hf, List.map_nil, List.sum_nil, zero_add] at he ho
  exact ⟨Multiset.coe_eq_coe.mp he, ho⟩

/-- The indices of a line are those of its entries. -/
theorem fast_row (hs : schedule.flatten.Perm d.doublets.zipIdx)
    (hr : Reaches d.recordEntry free (d.recordStart localOffsets schedule) c) (hq : Quiescent d.recordEntry c)
    (hs' : schedule'.flatten.Perm d.doublets.zipIdx)
    (hr' : Reaches (d.fastUpdateEntry c.mem) free ⟨inds, schedule'.map (·.flatMap d.places)⟩ u)
    (hq' : Quiescent (d.fastUpdateEntry c.mem) u) (r : ℕ) : (d.matrix c.mem.cnts u.mem).row r =
      ((d.allPlaces.filter fun e => d.build.outer e.2 = r).map fun e => d.build.inner e.2 : Multiset ℕ) := by
  have hi := record_reaches hs hr
  obtain ⟨hperm, hoffsets⟩ := hi.recorded (record_returned hq)
  have hmem : ∀ e, e ∈ (schedule'.map (·.flatMap d.places)).flatten ↔ e ∈ c.mem.recorded.map Prod.fst := fun e => by
    rw [hperm.mem_iff, flatten_flatMap]
    exact (hs'.flatMap_right d.places).mem_iff
  have hlt : ∀ e ∈ c.mem.recorded, e.2 < c.mem.cnts (d.build.outer e.1.2) := fun e he => by
    rw [← Multiset.mem_range, ← hoffsets, Multiset.mem_coe]
    exact List.mem_map_of_mem (List.mem_filter.mpr ⟨he, by simp⟩)
  have hwritten := scatter_written hr' hq' fun e he e' he' hp => by
    obtain ⟨p, hp1, rfl⟩ := List.mem_map.mp ((hmem e).mp he)
    obtain ⟨p', hp1', rfl⟩ := List.mem_map.mp ((hmem e').mp he')
    rw [hi.written p hp1, hi.written p' hp1'] at hp
    obtain ⟨houter, hoff⟩ := segment_unique c.mem.cnts (hlt p' hp1') (hlt p hp1) hp
    have hnd : (c.mem.offsetsIn d (d.build.outer p.1.2)).Nodup := by
      rw [← Multiset.coe_nodup, hoffsets]
      exact Multiset.nodup_range _
    have heq := List.inj_on_of_nodup_map hnd (List.mem_filter.mpr ⟨hp1', by simpa using houter⟩)
      (List.mem_filter.mpr ⟨hp1, by simp⟩) hoff
    rw [heq]
  have hscan : exclusiveScan c.mem.cnts (r + 1) - exclusiveScan c.mem.cnts r = c.mem.cnts r := Nat.add_sub_cancel_left ..
  calc (d.matrix c.mem.cnts u.mem).row r
      = (Multiset.range (c.mem.cnts r)).map fun l => u.mem (exclusiveScan c.mem.cnts r + l) := by
        unfold row matrix
        rw [hscan]
    _ = ((c.mem.recorded.filter fun e => d.build.outer e.1.2 = r).map fun e => d.build.inner e.1.2 : Multiset ℕ) := by
        rw [← hoffsets r, Multiset.map_coe, RecordMemory.offsetsIn, List.map_map]
        refine congrArg _ (List.map_congr_left fun e he => ?_)
        obtain ⟨he, ho⟩ := List.mem_filter.mp he
        have hw := hwritten e.1 ((hmem e.1).mpr (List.mem_map_of_mem he))
        rw [hi.written e he, of_decide_eq_true ho] at hw
        exact hw
    _ = ((d.allPlaces.filter fun e => d.build.outer e.2 = r).map fun e => d.build.inner e.2 : Multiset ℕ) := by
        have hfilter := hperm.filter fun e => decide (d.build.outer e.2 = r)
        rw [List.filter_map] at hfilter
        refine Multiset.coe_eq_coe.mpr ?_
        have hmap := hfilter.map fun e : ℕ × ℕ × ℕ => d.build.inner e.2
        rw [List.map_map] at hmap
        exact hmap

end FastRuns

end Fast

section Results
variable {m m' : SparseMatrix Unit} {guard : Guard HashMemory MirrorFrame} {localOffsets inds : ℕ → ℕ}

/-- The positions of the doublets, and with mirroring those of their mirrors. -/
def closure (d : Topology) : Finset (ℕ × ℕ) :=
  if d.mirror then d.doublets.toFinset ∪ d.doublets.toFinset.image Prod.swap else d.doublets.toFinset

theorem toFinset_entries (d : Topology) : d.entries.toFinset = d.closure := by
  ext ij
  rw [List.mem_toFinset, mem_entries, closure]
  split
  · rename_i hm
    rw [Finset.mem_union, Finset.mem_image, List.mem_toFinset]
    refine or_congr Iff.rfl ⟨fun h => ⟨ij.swap, List.mem_toFinset.mpr h.2, Prod.swap_swap ij⟩, ?_⟩
    rintro ⟨kl, hkl, rfl⟩
    exact ⟨hm, by rwa [Prod.swap_swap, ← List.mem_toFinset]⟩
  · rename_i hm
    simp [hm]

theorem room (d : Topology) (hf : 2 * evaluateTableSize d.entries.length ≤ 2 ^ d.build.bits)
    (hn : d.build.triplets ≠ []) :
    d.build.triplets.length + 20 < (d.build.table d.entries.length hf).tableSize := by
  have hroom := add_lt_evaluateTableSize (List.length_pos_iff.mpr hn)
  have hmod := evaluateTableSize_mod d.entries.length
  rw [length_triplets] at hroom ⊢
  show _ < evaluateTableSize d.entries.length / 32 * 32
  omega

theorem hashed_counted (hk : ∀ ij ∈ d.entries, ij ≠ d.build.keySentinel)
    (hh : d.Hashed hasSlot d.entries.length localOffsets false t h) : Counted d.build t h ∧ Bht.Sound t h.tab ∧
      (∀ k < h.tab.cnt, h.tab.activeKeys k ∈ d.entries) ∧ t.keySentinel = d.build.keySentinel ∧ h.outOfRange = false := by
  cases hh with
  | done hf hs hr hq hok =>
    obtain ⟨called, hi⟩ := mirror_reaches (room d hf) hk hs hr
    have hsound := hi.hash.table.sound (insertions_quiescent (hashings_quiescent hq))
    exact ⟨hi.counted hq, hsound, fun k hlt => hi.entries (hi.hash.table.inserted (hsound.mem_stored hlt)), rfl,
      hi.hash.inRange⟩
  | retry hf hs hr hq hno hh =>
    obtain ⟨called, hi⟩ := mirror_reaches (room d hf) hk hs hr
    exact absurd (hno.symm.trans hi.hash.success) nofun

/-- The lines of a build are those of the symmetric closure, each position once. -/
theorem built_row (hk : ∀ ij ∈ d.entries, ij ≠ d.build.keySentinel) {result : Option (SparseMatrix Unit)} {o : Bool}
    (hb : d.Built hasSlot result o) : o = false ∧ ∃ cnts inds, result = some (d.matrix cnts inds) ∧ ∀ r < d.build.nsegs,
      (d.matrix cnts inds).row r = (d.closure.filter fun ij => d.build.outer ij = r).val.map d.build.inner := by
  cases hb with
  | thrown hh hn => exact absurd (hashed_counted hk hh).1.scan hn
  | returned hh hn hs hr hq =>
    obtain ⟨hc, hsound, hactive, hkey, ho⟩ := hashed_counted hk hh
    have hinds := inds_written (fun ij hij => hkey ▸ hk ij hij) hsound hc
      (fun k hlt => positions_build d ▸ hactive k hlt) hs hr hq
    refine ⟨ho, _, _, rfl, fun r hlt => ?_⟩
    rw [← toFinset_entries, ← positions_build]
    exact hc.row hinds hlt

theorem fastBuilt_row (hb : d.FastBuilt m') : ∃ cnts inds, m' = d.matrix cnts inds ∧ ∀ r, (d.matrix cnts inds).row r =
    ((d.allPlaces.filter fun e => d.build.outer e.2 = r).map fun e => d.build.inner e.2 : Multiset ℕ) := by
  obtain ⟨hs, hr, hq, hs', hr', hq'⟩ := hb
  exact ⟨_, _, rfl, fast_row hs hr hq hs' hr' hq'⟩

theorem card_row (cnts inds : ℕ → ℕ) (r : ℕ) : Multiset.card ((d.matrix cnts inds).row r) = cnts r := by
  unfold row
  rw [Multiset.card_map, Multiset.card_range]
  exact Nat.add_sub_cancel_left ..

theorem exclusiveScan_congr {g g' : ℕ → ℕ} {n : ℕ} (hg : ∀ r < n, g r = g' r) : exclusiveScan g n = exclusiveScan g' n := by
  induction n with
  | zero => rfl
  | succ n ih =>
    unfold exclusiveScan
    rw [ih fun r hr => hg r (Nat.lt_succ_of_lt hr), hg n (Nat.lt_succ_self n)]

def mirrored (d : Topology) (ij : ℕ × ℕ) : List (ℕ × ℕ) := ij :: if d.mirror ∧ ij.1 ≠ ij.2 then [ij.swap] else []

theorem mem_mirrored {ij kl : ℕ × ℕ} : ij ∈ d.mirrored kl ↔ ij = kl ∨ d.mirror = true ∧ kl.1 ≠ kl.2 ∧ ij = kl.swap := by
  unfold mirrored
  split
  · rename_i h
    simp [h.1, h.2]
  · rename_i h
    rw [List.mem_singleton]
    exact ⟨.inl, fun hij => hij.resolve_right fun hc => h ⟨hc.1, hc.2.1⟩⟩

theorem positions_allPlaces (d : Topology) : d.allPlaces.map Prod.snd = d.doublets.flatMap d.mirrored := by
  have hplaces : ∀ e, (d.places e).map Prod.snd = d.mirrored e.1 := fun e => by
    unfold places mirrored
    split <;> rfl
  calc d.allPlaces.map Prod.snd = d.doublets.zipIdx.flatMap fun e => (d.places e).map Prod.snd := List.map_flatMap
    _ = d.doublets.zipIdx.flatMap fun e => d.mirrored e.1 := by rw [funext hplaces]
    _ = (d.doublets.zipIdx.map Prod.fst).flatMap d.mirrored := (List.flatMap_map ..).symm
    _ = d.doublets.flatMap d.mirrored := by rw [List.zipIdx_map_fst]

theorem mem_allPlaces {ij : ℕ × ℕ} : ij ∈ d.allPlaces.map Prod.snd ↔ ij ∈ d.entries := by
  rw [positions_allPlaces, List.mem_flatMap, mem_entries]
  constructor
  · rintro ⟨kl, hkl, hij⟩
    rcases mem_mirrored.mp hij with rfl | ⟨hm, _, rfl⟩
    · exact .inl hkl
    · exact .inr ⟨hm, by rwa [Prod.swap_swap]⟩
  · rintro (hij | ⟨hm, hij⟩)
    · exact ⟨ij, hij, mem_mirrored.mpr (.inl rfl)⟩
    · by_cases hne : ij.1 = ij.2
      · have hswap : ij.swap = ij := Prod.ext hne.symm hne
        exact ⟨ij, hswap ▸ hij, mem_mirrored.mpr (.inl rfl)⟩
      · exact ⟨ij.swap, hij, mem_mirrored.mpr (.inr ⟨hm, Ne.symm hne, (Prod.swap_swap ij).symm⟩)⟩

/-- Without repetitions `fastBuild` places every entry once. -/
theorem nodup_allPlaces (hn : d.doublets.Nodup)
    (hm : d.mirror = true → ∀ ij ∈ d.doublets, ij.1 ≠ ij.2 → ij.swap ∉ d.doublets) :
    (d.allPlaces.map Prod.snd).Nodup := by
  rw [positions_allPlaces, List.nodup_flatMap]
  constructor
  · intro ij _
    unfold mirrored
    split
    · rename_i h
      have hne : ij ≠ ij.swap := fun hc => h.2 (congrArg Prod.fst hc)
      simpa using hne
    · exact List.nodup_singleton ij
  · refine hn.imp_of_mem fun {kl kl'} hkl hkl' hne => ?_
    rw [Function.onFun, List.disjoint_left]
    intro ij hij hij'
    rcases mem_mirrored.mp hij with rfl | ⟨hmir, hoff, rfl⟩
    · rcases mem_mirrored.mp hij' with rfl | ⟨hmir, hoff', rfl⟩
      · exact hne rfl
      · exact hm hmir kl' hkl' hoff' hkl
    · rcases mem_mirrored.mp hij' with rfl | ⟨_, _, he⟩
      · exact hm hmir kl hkl hoff hkl'
      · exact hne (Prod.swap_injective he)

/-- Whatever the hash functions and the order of the actions, as long as no insertion finds its buckets full: `build`
returns the pattern of the symmetric closure, and where no entry and no mirror is repeated `fastBuild` returns the same
pattern up to the order in its lines. -/
theorem topology_builds (d : Topology) (hk : ∀ ij ∈ d.entries, ij ≠ d.build.keySentinel) :
    (∀ result o, d.Built hasSlot result o → o = false ∧ ∃ m, result = some m ∧ ∀ r < d.build.nsegs,
      m.row r = (d.closure.filter fun ij => d.build.outer ij = r).val.map d.build.inner) ∧
    (d.doublets.Nodup → (d.mirror = true → ∀ ij ∈ d.doublets, ij.1 ≠ ij.2 → ij.swap ∉ d.doublets) →
      ∀ m m' o, d.Built hasSlot (some m) o → d.FastBuilt m' →
        (∀ r ≤ d.build.nsegs, m'.ptrs.get r = m.ptrs.get r) ∧ ∀ r < d.build.nsegs, m'.row r = m.row r) := by
  refine ⟨fun result o hb => ?_, fun hn hm m m' o hb hb' => ?_⟩
  · obtain ⟨ho, cnts, inds, rfl, hrow⟩ := built_row hk hb
    exact ⟨ho, _, rfl, hrow⟩
  · obtain ⟨-, cnts, inds, hmat, hrow⟩ := built_row hk hb
    obtain rfl := Option.some.inj hmat
    obtain ⟨cnts', inds', rfl, hrow'⟩ := fastBuilt_row hb'
    have hsame : (d.allPlaces.map Prod.snd : Multiset (ℕ × ℕ)) = d.closure.val := by
      rw [← toFinset_entries]
      refine (Multiset.Nodup.ext (Multiset.coe_nodup.mpr (nodup_allPlaces hn hm)) (Finset.nodup _)).mpr fun ij => ?_
      rw [Multiset.mem_coe, mem_allPlaces, Finset.mem_val, List.mem_toFinset]
    have hrows : ∀ r < d.build.nsegs, (d.matrix cnts' inds').row r = (d.matrix cnts inds).row r := fun r hr => by
      rw [hrow r hr, hrow' r, Finset.filter_val, ← hsame, Multiset.filter_coe, Multiset.map_coe, List.filter_map,
        List.map_map]
      rfl
    refine ⟨fun r hr => exclusiveScan_congr fun k hlt => ?_, hrows⟩
    rw [← card_row cnts' inds' k, ← card_row cnts inds k, hrows k (hlt.trans_le hr)]

end Results

section Samples
instance (c : Config HashMemory MirrorFrame) (f : MirrorFrame) : Decidable (hasSlot c f) :=
  match f with
  | .doublet _ _ => .isTrue nofun
  | .entry first f => decidable_of_iff (Build.hasSlot (hashings c) f)
      ⟨fun h _ ij a he => h ij a (MirrorFrame.entry.inj he).2, fun h ij a he => h first ij a (he ▸ rfl)⟩

/-- Doublets of a matrix of two rows with mirroring, under the hash functions that are drawn from `mt19937` with the seed
2. -/
def symmetric (doublets : List (ℕ × ℕ)) (hr : ∀ ij ∈ doublets, ij.1 < 2 ∧ ij.2 < 2)
    (hf : 2 * evaluateTableSize (doublets.length * 2) ≤ 2 ^ 32) : Topology where
  rowMajor := true
  nrows := 2
  ncols := 2
  mirror := true
  doublets := doublets
  bits := 32
  hf0 := universalHash 1872583848 794921487
  hf1 := universalHash 111352301 4000937544
  hf2 := universalHash 2360782358 4070471979
  inRange := hr
  square := fun _ ij hij => (hr ij hij).symm
  fits := hf

variable {d : Topology} {n k : ℕ}

/-- The hashing pass on one thread. -/
def hashRun (d : Topology) (hf : 2 * evaluateTableSize d.entries.length ≤ 2 ^ d.build.bits) (n : ℕ) :
    Option (Config HashMemory MirrorFrame) :=
  runs (d.hashEntryMirror (d.build.table d.entries.length hf)) hasSlot
    (mirrorStart (d.build.table d.entries.length hf) (fun _ => 0) (fun _ => (0, 0)) (fun _ => 0) false [d.doublets])
    (List.replicate n (0, ()))

def recordRun (d : Topology) (n : ℕ) : Option (Config RecordMemory RecordFrame) :=
  runs d.recordEntry free (d.recordStart (fun _ => 0) [d.doublets.zipIdx]) (List.replicate n (0, ()))

theorem built_of_runs {hf : 2 * evaluateTableSize d.entries.length ≤ 2 ^ d.build.bits}
    {c : Config HashMemory MirrorFrame} {e : Config (ℕ → ℕ) ℕ} (hc : d.hashRun hf n = some c)
    (hl : c.threads.map List.length = [0]) (hok : c.mem.tab.success = true)
    (hn : exclusiveScan c.mem.cnts d.build.nsegs = c.mem.tab.cnt)
    (he : runs (d.updateEntry c.mem) free ⟨fun _ => 0, [List.range (exclusiveScan c.mem.cnts d.build.nsegs)]⟩
      (List.replicate k (0, ())) = some e) (hel : e.threads.map List.length = [0]) :
    d.Built hasSlot (some (d.matrix c.mem.cnts e.mem)) c.mem.outOfRange :=
  .returned (.done hf (List.Perm.of_eq (List.append_nil _)) (reaches_of_runs hc) (quiescent_of_lengths (n := 1) hl) hok)
    hn (List.Perm.of_eq (List.append_nil _)) (reaches_of_runs he) (quiescent_of_lengths (n := 1) hel)

theorem fastBuilt_of_runs {c : Config RecordMemory RecordFrame} {e : Config (ℕ → ℕ) (ℕ × ℕ × ℕ)}
    (hc : d.recordRun n = some c) (hl : c.threads.map List.length = [0])
    (he : runs (d.fastUpdateEntry c.mem) free ⟨fun _ => 0, [d.doublets.zipIdx].map (·.flatMap d.places)⟩
      (List.replicate k (0, ())) = some e) (hel : e.threads.map List.length = [0]) :
    d.FastBuilt (d.matrix c.mem.cnts e.mem) :=
  .returned (List.Perm.of_eq (List.append_nil _)) (reaches_of_runs hc) (quiescent_of_lengths (n := 1) hl)
    (List.Perm.of_eq (List.append_nil _)) (reaches_of_runs he)
    (quiescent_of_lengths (n := 1) hel)

def corner : Topology := symmetric [(0, 1), (0, 0)] (by decide) (by decide)

theorem topology_builds_corner : ∃ m m', corner.Built hasSlot (some m) false ∧ corner.FastBuilt m' ∧
    Multiset.card (m.row 0) = 2 ∧ m'.row 0 = m.row 0 := by
  have hh : (corner.hashRun (by decide) 42).map (fun c => (c.threads.map List.length, c.mem.tab.success,
      exclusiveScan c.mem.cnts corner.build.nsegs, c.mem.tab.cnt, c.mem.cnts 0)) = some ([0], true, 3, 3, 2) := by
    decide +kernel
  have he : ((corner.hashRun (by decide) 42).bind fun c => (runs (corner.updateEntry c.mem) free
      ⟨fun _ => 0, [List.range (exclusiveScan c.mem.cnts corner.build.nsegs)]⟩ (List.replicate 3 (0, ()))).map
        fun e => e.threads.map List.length) = some [0] := by decide +kernel
  have hf : (corner.recordRun 6).map (fun c => c.threads.map List.length) = some [0] := by decide +kernel
  have hu : ((corner.recordRun 6).bind fun c => (runs (corner.fastUpdateEntry c.mem) free
      ⟨fun _ => 0, [corner.doublets.zipIdx].map (·.flatMap corner.places)⟩ (List.replicate 3 (0, ()))).map
        fun e => e.threads.map List.length) = some [0] := by decide +kernel
  obtain ⟨c, hc, hh⟩ := Option.map_eq_some_iff.mp hh
  obtain ⟨g, hg, hf⟩ := Option.map_eq_some_iff.mp hf
  rw [hc, Option.bind_some] at he
  rw [hg, Option.bind_some] at hu
  obtain ⟨e, he, hel⟩ := Option.map_eq_some_iff.mp he
  obtain ⟨u, hu, hul⟩ := Option.map_eq_some_iff.mp hu
  simp only [Prod.mk.injEq] at hh
  have built := built_of_runs hc hh.1 hh.2.1 (hh.2.2.1.trans hh.2.2.2.1.symm) he hel
  have fast := fastBuilt_of_runs hg hf hu hul
  have h := topology_builds corner (by decide)
  have ho := (h.1 _ _ built).1
  rw [ho] at built
  exact ⟨_, _, built, fast, (card_row _ _ 0).trans hh.2.2.2.2,
    (h.2 (by decide) (by decide) _ _ _ built fast).2 0 (by decide)⟩

def opposite : Topology := symmetric [(0, 1), (1, 0)] (by decide) (by decide)

/-- `fastBuild` adds the mirrors of both doublets, which `build` does not repeat. -/
theorem opposite_fastBuild_differs : ¬ ∀ m m' o, opposite.Built hasSlot (some m) o → opposite.FastBuilt m' →
    ∀ r < opposite.build.nsegs, m'.row r = m.row r := by
  have hh : (opposite.hashRun (by decide) 33).map (fun c => (c.threads.map List.length, c.mem.tab.success,
      exclusiveScan c.mem.cnts opposite.build.nsegs, c.mem.tab.cnt, c.mem.cnts 0)) = some ([0], true, 2, 2, 1) := by
    decide +kernel
  have he : ((opposite.hashRun (by decide) 33).bind fun c => (runs (opposite.updateEntry c.mem) free
      ⟨fun _ => 0, [List.range (exclusiveScan c.mem.cnts opposite.build.nsegs)]⟩ (List.replicate 2 (0, ()))).map
        fun e => e.threads.map List.length) = some [0] := by decide +kernel
  have hf : (opposite.recordRun 8).map (fun c => (c.threads.map List.length, c.mem.cnts 0)) = some ([0], 2) := by
    decide +kernel
  have hu : ((opposite.recordRun 8).bind fun c => (runs (opposite.fastUpdateEntry c.mem) free
      ⟨fun _ => 0, [opposite.doublets.zipIdx].map (·.flatMap opposite.places)⟩ (List.replicate 4 (0, ()))).map
        fun e => e.threads.map List.length) = some [0] := by decide +kernel
  obtain ⟨c, hc, hh⟩ := Option.map_eq_some_iff.mp hh
  obtain ⟨g, hg, hf⟩ := Option.map_eq_some_iff.mp hf
  rw [hc, Option.bind_some] at he
  rw [hg, Option.bind_some] at hu
  obtain ⟨e, he, hel⟩ := Option.map_eq_some_iff.mp he
  obtain ⟨u, hu, hul⟩ := Option.map_eq_some_iff.mp hu
  simp only [Prod.mk.injEq] at hh hf
  intro h
  have hrow := h _ _ _ (built_of_runs hc hh.1 hh.2.1 (hh.2.2.1.trans hh.2.2.2.1.symm) he hel)
    (fastBuilt_of_runs hg hf.1 hu hul) 0 (by decide)
  have hcard := congrArg Multiset.card hrow
  rw [card_row, card_row, hf.2, hh.2.2.2.2] at hcard
  exact absurd hcard (by decide)

end Samples

end Topology

end Zpc.SparseMatrix
