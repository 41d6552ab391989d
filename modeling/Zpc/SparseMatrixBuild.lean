import Zpc.SparseMatrixHash

/-!
# The scattering pass and the matrix that is built

Each position has a slot of its own among the entries, in the segment of its line, so that the triplets at one position
meet in one value and no others do.
-/
namespace Zpc.SparseMatrix
theorem exclusiveScan_mono (f : ℕ → ℕ) {n n' : ℕ} (h : n ≤ n') : exclusiveScan f n ≤ exclusiveScan f n' := by
  induction h with
  | refl => exact Nat.le_refl _
  | step _ ih => exact ih.trans (Nat.le_add_right ..)

/-- Every position below the end of a scan is in one segment. -/
theorem exists_segment (f : ℕ → ℕ) {n k : ℕ} (h : k < exclusiveScan f n) :
    ∃ r < n, ∃ l < f r, k = exclusiveScan f r + l := by
  induction n with
  | zero => exact absurd h (Nat.not_lt_zero k)
  | succ n ih =>
    rcases Nat.lt_or_ge k (exclusiveScan f n) with hlt | hge
    · obtain ⟨r, hr, hk⟩ := ih hlt
      exact ⟨r, Nat.lt_succ_of_lt hr, hk⟩
    · have hscan : exclusiveScan f (n + 1) = exclusiveScan f n + f n := rfl
      exact ⟨n, Nat.lt_succ_self n, k - exclusiveScan f n, by omega, by omega⟩

theorem segment_unique (f : ℕ → ℕ) {r r' l l' : ℕ} (hl : l < f r) (hl' : l' < f r')
    (h : exclusiveScan f r + l = exclusiveScan f r' + l') : r = r' ∧ l = l' := by
  rcases Nat.lt_trichotomy r r' with hr | rfl | hr
  · have hmono : exclusiveScan f r + f r ≤ exclusiveScan f r' := exclusiveScan_mono f hr
    omega
  · exact ⟨rfl, Nat.add_left_cancel h⟩
  · have hmono : exclusiveScan f r' + f r' ≤ exclusiveScan f r := exclusiveScan_mono f hr
    omega

namespace Build
open Interleaving

variable {S : Type*} {b : Build S} {t : Bht (ℕ × ℕ)} {h : HashMemory}

def slotOf (b : Build S) (t : Bht (ℕ × ℕ)) (h : HashMemory) (e : Triplet S) : ℕ :=
  exclusiveScan h.cnts (b.outer e.position) + offsetOf t h e.position

theorem position_ext {ij ij' : ℕ × ℕ} (ho : b.outer ij = b.outer ij') (hi : b.inner ij = b.inner ij') : ij = ij' := by
  unfold outer at ho
  unfold inner at hi
  split at ho <;> simp_all [Prod.ext_iff]

section Slots
variable (hc : Counted b t h) {e e' : Triplet S}
include hc

theorem Counted.slot_lt (he : e ∈ b.triplets) : b.slotOf t h e < exclusiveScan h.cnts b.nsegs := by
  have hoff := hc.offset_lt e he
  have houter := outer_lt (b := b) (List.mem_map_of_mem (f := Triplet.position) he)
  have hmono : exclusiveScan h.cnts (b.outer e.position) + h.cnts (b.outer e.position) ≤
      exclusiveScan h.cnts b.nsegs := exclusiveScan_mono h.cnts houter
  unfold slotOf
  omega

theorem Counted.slot_inj (he : e ∈ b.triplets) (he' : e' ∈ b.triplets) (hs : b.slotOf t h e = b.slotOf t h e') :
    e.position = e'.position := by
  obtain ⟨houter, hoff⟩ := segment_unique h.cnts (hc.offset_lt e he) (hc.offset_lt e' he') hs
  exact hc.injective e he e' he' houter hoff

theorem Counted.slot_onto {k : ℕ} (hk : k < exclusiveScan h.cnts b.nsegs) :
    ∃ e ∈ b.triplets, b.slotOf t h e = k := by
  obtain ⟨r, _, l, hl, rfl⟩ := exists_segment h.cnts hk
  obtain ⟨e, he, rfl, rfl⟩ := hc.onto r l hl
  exact ⟨e, he, rfl⟩

end Slots

theorem slotOf_congr {e e' : Triplet S} (h' : e.position = e'.position) : b.slotOf t h e = b.slotOf t h e' := by
  unfold slotOf
  rw [h']

section Scatter
variable [Add S] {m m' : EntryMemory S} {f : EntryFrame S} {fs : List (EntryFrame S)}

/-- What one action of the scattering pass does. -/
inductive EntryActs (b : Build S) (t : Bht (ℕ × ℕ)) (h : HashMemory) (m : EntryMemory S) :
    EntryFrame S → EntryMemory S → List (EntryFrame S) → Prop
  | entry (e : Triplet S) (hn : 0 ≤ t.query h.tab e.position ∧ t.query h.tab e.position < b.triplets.length)
      (hs : b.slotOf t h e < exclusiveScan h.cnts b.nsegs) : EntryActs b t h m (.entry e)
        {m with inds := Function.update m.inds (b.slotOf t h e) (b.inner e.position)} [.add e (b.slotOf t h e) 0]
  | far (e : Triplet S) (hr : ¬ ((0 ≤ t.query h.tab e.position ∧ t.query h.tab e.position < b.triplets.length) ∧
      b.slotOf t h e < exclusiveScan h.cnts b.nsegs)) : EntryActs b t h m (.entry e) {m with outOfRange := true} []
  | add (e : Triplet S) (k c : ℕ) (hc : c < b.extent) : EntryActs b t h m (.add e k c)
      {m with vals := Function.update m.vals k (Function.update (m.vals k) c (m.vals k c + e.value c))}
      [.add e k (c + 1)]
  | done (e : Triplet S) (k c : ℕ) (hc : ¬ c < b.extent) : EntryActs b t h m (.add e k c) m []

theorem acts_of_updateEntry {x : Unit} (he : b.updateEntry t h m f x = some (m', fs)) :
    EntryActs b t h m f m' fs := by
  cases f with
  | entry e =>
    simp only [updateEntry] at he
    split_ifs at he with hn hs <;> simp only [Option.some.injEq, Prod.mk.injEq] at he <;> obtain ⟨rfl, rfl⟩ := he
    · exact .entry e hn hs
    · exact .far e fun hr => hs hr.2
    · exact .far e fun hr => hn hr.1
  | add e k c =>
    simp only [updateEntry] at he
    split_ifs at he with hc <;> simp only [Option.some.injEq, Prod.mk.injEq] at he <;> obtain ⟨rfl, rfl⟩ := he
    · exact .add e k c hc
    · exact .done e k c hc

def EntryFrame.owes (b : Build S) (t : Bht (ℕ × ℕ)) (h : HashMemory) (k c : ℕ) : EntryFrame S → Multiset S
  | .entry e => if b.slotOf t h e = k then {e.value c} else 0
  | .add e k' c' => if k' = k ∧ c' ≤ c then {e.value c} else 0

def meeting (b : Build S) (t : Bht (ℕ × ℕ)) (h : HashMemory) (k c : ℕ) : List S :=
  (b.triplets.filter fun e => b.slotOf t h e = k).map fun e => e.value c

def EntryFrame.Placed (b : Build S) (t : Bht (ℕ × ℕ)) (h : HashMemory) : EntryFrame S → Prop
  | .entry e => e ∈ b.triplets
  | .add e k _ => e ∈ b.triplets ∧ k = b.slotOf t h e

structure EntryInvariant [Zero S] (b : Build S) (t : Bht (ℕ × ℕ)) (h : HashMemory)
    (c : Config (EntryMemory S) (EntryFrame S)) : Prop where
  placed : ∀ f ∈ c.frames, f.Placed b t h
  inds : ∀ e ∈ b.triplets, EntryFrame.entry e ∈ c.frames ∨ c.mem.inds (b.slotOf t h e) = b.inner e.position
  sums : ∀ k, ∀ i < b.extent, ∃ l : List S, c.mem.vals k i = l.foldl (· + ·) 0 ∧
    (l : Multiset S) + c.total (EntryFrame.owes b t h k i) = (b.meeting t h k i : Multiset S)
  inRange : c.mem.outOfRange = false

variable {c c' : Config (EntryMemory S) (EntryFrame S)} {x : Unit} {inds : ℕ → ℕ} {schedule : List (List (Triplet S))}

theorem placed_step (hst : Step (b.updateEntry t h) c f x c') (hi : ∀ f ∈ c.frames, f.Placed b t h) :
    ∀ f ∈ c'.frames, f.Placed b t h := by
  have hf := hi f hst.mem_frame
  refine hst.all hi (fun fs he => ?_) fun _ _ hg => hg
  have ha := acts_of_updateEntry he
  generalize c.mem = m, c'.mem = m' at ha
  clear hst he hi
  cases ha with
  | entry e => exact List.forall_mem_singleton.mpr ⟨hf, rfl⟩
  | add e k i => exact List.forall_mem_singleton.mpr hf
  | _ => exact List.forall_mem_nil _

/-- A triplet is still to be processed, or its slot has its index, and no other index is put there. -/
theorem inds_step (hc : Counted b t h) (hst : Step (b.updateEntry t h) c f x c')
    (hp : ∀ f ∈ c.frames, f.Placed b t h) (hr : c'.mem.outOfRange = false)
    (hi : ∀ e ∈ b.triplets, EntryFrame.entry e ∈ c.frames ∨ c.mem.inds (b.slotOf t h e) = b.inner e.position) :
    ∀ e ∈ b.triplets, EntryFrame.entry e ∈ c'.frames ∨ c'.mem.inds (b.slotOf t h e) = b.inner e.position := by
  have hf := hp f hst.mem_frame
  obtain ⟨fs, he⟩ := hst.runs_code
  have ha := acts_of_updateEntry he
  intro e hmem
  have hkeep : ∀ e, EntryFrame.entry e ∈ c.frames → EntryFrame.entry e ≠ f → EntryFrame.entry e ∈ c'.frames :=
    fun e he hne => hst.mem_of_ne he hne
  have hie := hi e hmem
  generalize c.mem = m, hm' : c'.mem = m' at ha hie hr ⊢
  clear hst he hi hp hm'
  cases ha with
  | entry e' =>
    have hset : ∀ hpos : e.position = e'.position, Function.update m.inds (b.slotOf t h e') (b.inner e'.position)
        (b.slotOf t h e) = b.inner e.position := by
      intro hpos
      rw [slotOf_congr hpos, Function.update_self, hpos]
    by_cases hs : b.slotOf t h e = b.slotOf t h e'
    · exact .inr (hset (hc.slot_inj hmem hf hs))
    · rcases hie with hframe | hinds
      · refine .inl (hkeep e hframe ?_)
        rintro ⟨⟩
        exact hs rfl
      · refine .inr ?_
        rw [← hinds]
        exact Function.update_of_ne hs ..
  | far => cases hr
  | add e' k i | done e' k i =>
    rcases hie with hframe | hinds
    · exact .inl (hkeep e hframe (by rintro ⟨⟩))
    · exact .inr hinds

/-- What has been added to a component and what is still owed to it are the values of the triplets that meet there. -/
theorem sums_step [Zero S] (hst : Step (b.updateEntry t h) c f x c') (hf : f.Placed b t h)
    (hr : c'.mem.outOfRange = false) (k i : ℕ) (hext : i < b.extent)
    (hi : ∃ l : List S, c.mem.vals k i = l.foldl (· + ·) 0 ∧
      (l : Multiset S) + c.total (EntryFrame.owes b t h k i) = (b.meeting t h k i : Multiset S)) :
    ∃ l : List S, c'.mem.vals k i = l.foldl (· + ·) 0 ∧
      (l : Multiset S) + c'.total (EntryFrame.owes b t h k i) = (b.meeting t h k i : Multiset S) := by
  obtain ⟨l, hl, hsum⟩ := hi
  obtain ⟨fs, r, ha, hs, hs'⟩ := hst.measure acts_of_updateEntry (EntryFrame.owes b t h k i)
  rw [hs] at hsum
  rw [hs']
  generalize c.mem = m, c'.mem = m' at ha hl hr ⊢
  clear hst hs hs'
  cases ha with
  | entry e => exact ⟨l, hl, by simpa [EntryFrame.owes] using hsum⟩
  | far => cases hr
  | add e k' j hj =>
    by_cases hk : k' = k
    · subst hk
      rcases Nat.lt_trichotomy j i with hlt | rfl | hlt
      · refine ⟨l, ?_, ?_⟩
        · simpa [Function.update_of_ne (Nat.ne_of_gt hlt)] using hl
        · simpa [EntryFrame.owes, hlt.le, Nat.succ_le_of_lt hlt] using hsum
      · refine ⟨l ++ [e.value j], ?_, ?_⟩
        · simp [hl]
        · rw [← hsum]
          simp [EntryFrame.owes, ← Multiset.coe_add, add_assoc]
      · refine ⟨l, ?_, ?_⟩
        · simpa [Function.update_of_ne (Nat.ne_of_lt hlt)] using hl
        · simpa [EntryFrame.owes, Nat.not_le_of_lt hlt, show ¬ j + 1 ≤ i by omega] using hsum
    · exact ⟨l, by simpa [Function.update_of_ne (Ne.symm hk)] using hl, by simpa [EntryFrame.owes, hk] using hsum⟩
  | done e k' j hj =>
    have hne : ¬ (k' = k ∧ j ≤ i) := fun hki => hj (Nat.lt_of_le_of_lt hki.2 hext)
    exact ⟨l, hl, by simpa [EntryFrame.owes, hne] using hsum⟩

theorem inRange_entry (hc : Counted b t h) (hst : Step (b.updateEntry t h) c f x c') (hf : f.Placed b t h)
    (hi : c.mem.outOfRange = false) : c'.mem.outOfRange = false := by
  obtain ⟨fs, he⟩ := hst.runs_code
  have ha := acts_of_updateEntry he
  generalize c.mem = m, c'.mem = m' at ha hi ⊢
  cases ha with
  | far e hr => exact absurd ⟨hc.number e hf, hc.slot_lt hf⟩ hr
  | _ => exact hi

theorem entryInvariant_step [Zero S] (hc : Counted b t h) (hst : Step (b.updateEntry t h) c f x c')
    (hi : EntryInvariant b t h c) : EntryInvariant b t h c' :=
  have hf := hi.placed f hst.mem_frame
  have hr := inRange_entry hc hst hf hi.inRange
  ⟨placed_step hst hi.placed, inds_step hc hst hi.placed hr hi.inds,
    fun k i hext => sums_step hst hf hr k i hext (hi.sums k i hext), hr⟩

omit [Add S] in
theorem sum_filter {A : Type*} (p : A → Prop) [DecidablePred p] (v : A → S) (l : List A) :
    (l.map fun a => if p a then {v a} else (0 : Multiset S)).sum = ((l.filter p).map v : Multiset S) := by
  induction l with
  | nil => rfl
  | cons a l ih =>
    by_cases ha : p a <;> simp [ih, ha, Multiset.singleton_add]

theorem entryInvariant_start [Zero S] (hs : schedule.flatten.Perm b.triplets) :
    EntryInvariant b t h (entryStart inds false schedule) := by
  have hframes : (entryStart inds false schedule).frames = schedule.flatten.map .entry := by
    simp [entryStart, Config.frames, List.map_flatten]
  have hframe : ∀ f, f ∈ (entryStart inds false schedule).frames ↔ ∃ e ∈ b.triplets, EntryFrame.entry e = f := by
    intro f
    rw [hframes, List.mem_map]
    simp only [hs.mem_iff]
  refine ⟨fun f hf => ?_, fun e he => .inl ((hframe _).mpr ⟨e, he, rfl⟩), fun k i _ => ⟨[], rfl, ?_⟩, rfl⟩
  · obtain ⟨e, he, rfl⟩ := (hframe f).mp hf
    exact he
  · rw [total_of_perm (hframes ▸ hs.map EntryFrame.entry), List.map_map]
    exact (zero_add _).trans (sum_filter (fun e => b.slotOf t h e = k) (fun e => e.value i) b.triplets)

theorem entryInvariant_reaches [Zero S] (hc : Counted b t h) (hs : schedule.flatten.Perm b.triplets)
    (hr : Reaches (b.updateEntry t h) free (entryStart inds false schedule) c) : EntryInvariant b t h c := by
  induction hr with
  | refl => exact entryInvariant_start hs
  | step _ _ hst ih => exact entryInvariant_step hc hst ih

theorem entry_returned (hq : Quiescent (b.updateEntry t h) c) : c.frames = [] := by
  refine hq.returned_of_acts fun f k _ hblocked => ?_
  have hb := hblocked ()
  cases f <;> simp only [updateEntry] at hb <;> split_ifs at hb

end Scatter

section Results
/-- What `build` is for: the matrix with an entry for each position of the triplets, which is the sum of their values
there in some order. -/
structure Compressed [Add S] [Zero S] (b : Build S) (m : SparseMatrix (ℕ → S)) : Prop where
  shape : m.rowMajor = b.rowMajor ∧ m.nrows = b.nrows ∧ m.ncols = b.ncols
  sizes : m.ptrs.size = b.nsegs + 1 ∧ m.inds.size = m.ptrs.get b.nsegs ∧ m.vals.size = m.ptrs.get b.nsegs
  first : m.ptrs.get 0 = 0
  last : m.ptrs.get b.nsegs = (b.triplets.map Triplet.position).toFinset.card
  mono : ∀ r, m.ptrs.get r ≤ m.ptrs.get (r + 1)
  distinct : ∀ r < b.nsegs, ∀ k k', m.ptrs.get r ≤ k → k < m.ptrs.get (r + 1) → m.ptrs.get r ≤ k' →
    k' < m.ptrs.get (r + 1) → m.inds.get k = m.inds.get k' → k = k'
  stored : ∀ ij, b.outer ij < b.nsegs → ((∃ k, m.ptrs.get (b.outer ij) ≤ k ∧ k < m.ptrs.get (b.outer ij + 1) ∧
    m.inds.get k = b.inner ij) ↔ ij ∈ b.triplets.map Triplet.position)
  sum : ∀ ij, b.outer ij < b.nsegs → ∀ k, m.ptrs.get (b.outer ij) ≤ k → k < m.ptrs.get (b.outer ij + 1) →
    m.inds.get k = b.inner ij → ∀ i < b.extent, ∃ l : List S,
      l.Perm ((b.triplets.filter fun e => e.position = ij).map fun e => e.value i) ∧
      m.vals.get k i = l.foldl (· + ·) 0

variable {c : Config (EntryMemory S) (EntryFrame S)} {e : Triplet S}

theorem Counted.segment (hc : Counted b t h) (he : e ∈ b.triplets) :
    exclusiveScan h.cnts (b.outer e.position) ≤ b.slotOf t h e ∧
      b.slotOf t h e < exclusiveScan h.cnts (b.outer e.position + 1) :=
  ⟨Nat.le_add_right .., Nat.add_lt_add_left (hc.offset_lt e he) _⟩

/-- A slot of a segment belongs to a position of that line. -/
theorem Counted.exists_slot (hc : Counted b t h) {r k : ℕ} (hr : r < b.nsegs) (hk : exclusiveScan h.cnts r ≤ k)
    (hk' : k < exclusiveScan h.cnts (r + 1)) : ∃ e ∈ b.triplets, b.slotOf t h e = k ∧ b.outer e.position = r := by
  obtain ⟨e, he, rfl⟩ := hc.slot_onto (Nat.lt_of_lt_of_le hk' (exclusiveScan_mono h.cnts hr))
  have hcnt : exclusiveScan h.cnts (r + 1) = exclusiveScan h.cnts r + h.cnts r := rfl
  have hsplit : exclusiveScan h.cnts (b.outer e.position) + offsetOf t h e.position =
      exclusiveScan h.cnts r + (b.slotOf t h e - exclusiveScan h.cnts r) := (Nat.add_sub_of_le hk).symm
  exact ⟨e, he, rfl, (segment_unique h.cnts (hc.offset_lt e he) (by omega) hsplit).1⟩

section Lines
variable {inds : ℕ → ℕ} (hinds : ∀ e ∈ b.triplets, inds (b.slotOf t h e) = b.inner e.position)

include hinds

/-- An index is at one place of its line. -/
theorem Counted.slot_of_index (hc : Counted b t h) {r k k' : ℕ} (hr : r < b.nsegs) (hk : exclusiveScan h.cnts r ≤ k)
    (hlt : k < exclusiveScan h.cnts (r + 1)) (hk' : exclusiveScan h.cnts r ≤ k')
    (hlt' : k' < exclusiveScan h.cnts (r + 1)) (he : inds k = inds k') : k = k' := by
  obtain ⟨e, hmem, rfl, rfl⟩ := hc.exists_slot hr hk hlt
  obtain ⟨e', hmem', rfl, ho⟩ := hc.exists_slot hr hk' hlt'
  have hinner : b.inner e.position = b.inner e'.position := (hinds e hmem).symm.trans (he.trans (hinds e' hmem'))
  exact slotOf_congr (position_ext ho.symm hinner)

/-- The indices of a line are those of its positions. -/
theorem Counted.exists_index (hc : Counted b t h) {ij : ℕ × ℕ} (hr : b.outer ij < b.nsegs) :
    (∃ k, exclusiveScan h.cnts (b.outer ij) ≤ k ∧ k < exclusiveScan h.cnts (b.outer ij + 1) ∧ inds k = b.inner ij) ↔
      ij ∈ b.triplets.map Triplet.position := by
  constructor
  · rintro ⟨k, hk1, hk2, hk⟩
    obtain ⟨e, he, rfl, ho⟩ := hc.exists_slot hr hk1 hk2
    have hpos : e.position = ij := position_ext ho ((hinds e he).symm.trans hk)
    exact hpos ▸ List.mem_map_of_mem he
  · intro hij
    obtain ⟨e, he, rfl⟩ := List.mem_map.mp hij
    obtain ⟨hk1, hk2⟩ := hc.segment he
    exact ⟨_, hk1, hk2, hinds e he⟩

end Lines

theorem EntryInvariant.compressed [Add S] [Zero S] (hi : EntryInvariant b t h c) (hc : Counted b t h) (hf : c.frames = []) :
    Compressed b (b.result h c.mem) := by
  have hinds : ∀ e ∈ b.triplets, c.mem.inds (b.slotOf t h e) = b.inner e.position := fun e he =>
    (hi.inds e he).resolve_left (by rw [hf]; exact List.not_mem_nil)
  refine ⟨⟨rfl, rfl, rfl⟩, ⟨rfl, rfl, rfl⟩, rfl, hc.scan.trans hc.total, fun r => Nat.le_add_right ..,
    fun r hr k k' hk hlt hk' hlt' he => hc.slot_of_index hinds hr hk hlt hk' hlt' he,
    fun ij hr => hc.exists_index hinds hr, ?_⟩
  · intro ij hr k hk1 hk2 hk i hext
    obtain ⟨e, he, rfl, ho⟩ := hc.exists_slot hr hk1 hk2
    have hpos : e.position = ij := position_ext ho ((hinds e he).symm.trans hk)
    obtain ⟨l, hl, hsum⟩ := hi.sums (b.slotOf t h e) i hext
    simp only [Config.total, hf, List.map_nil, List.sum_nil, add_zero] at hsum
    refine ⟨l, (Multiset.coe_eq_coe.mp hsum).trans (List.Perm.of_eq ?_), hl⟩
    unfold meeting
    congr 1
    refine List.filter_congr fun e' he' => ?_
    refine decide_eq_decide.mpr ⟨fun hs => (hc.slot_inj he' he hs).trans hpos, fun hp => slotOf_congr (hp.trans hpos.symm)⟩

/-- The indices of a line are those of its positions, each one once. -/
theorem Counted.row (hc : Counted b t h) {inds : ℕ → ℕ} (hinds : ∀ e ∈ b.triplets, inds (b.slotOf t h e) = b.inner e.position)
    {r : ℕ} (hr : r < b.nsegs) : ((Multiset.range (exclusiveScan h.cnts (r + 1) - exclusiveScan h.cnts r)).map fun l =>
      inds (exclusiveScan h.cnts r + l)) =
    ((b.triplets.map Triplet.position).toFinset.filter fun ij => b.outer ij = r).val.map b.inner := by
  refine (Multiset.Nodup.ext ?_ ?_).mpr fun x => ?_
  · refine Multiset.Nodup.map_on (fun l hl l' hl' he => ?_) (Multiset.nodup_range _)
    rw [Multiset.mem_range] at hl hl'
    exact Nat.add_left_cancel (hc.slot_of_index hinds hr (Nat.le_add_right _ _) (by omega) (Nat.le_add_right _ _)
      (by omega) he)
  · refine Multiset.Nodup.map_on (fun ij hij kl hkl he => ?_) (Finset.nodup _)
    exact position_ext ((Finset.mem_filter.mp (Finset.mem_val.mp hij)).2.trans
      (Finset.mem_filter.mp (Finset.mem_val.mp hkl)).2.symm) he
  · rw [Multiset.mem_map, Multiset.mem_map]
    constructor
    · rintro ⟨l, hl, rfl⟩
      rw [Multiset.mem_range] at hl
      obtain ⟨e, hmem, hs, ho⟩ := hc.exists_slot hr (Nat.le_add_right _ l) (by omega)
      refine ⟨e.position, Finset.mem_filter.mpr ⟨List.mem_toFinset.mpr (List.mem_map_of_mem hmem), ho⟩, ?_⟩
      rw [← hs, hinds e hmem]
    · rintro ⟨ij, hij, rfl⟩
      obtain ⟨hmem, ho⟩ := Finset.mem_filter.mp (Finset.mem_val.mp hij)
      subst ho
      obtain ⟨k, hle, hlt, hk⟩ := (hc.exists_index hinds hr).mpr (List.mem_toFinset.mp hmem)
      refine ⟨k - exclusiveScan h.cnts (b.outer ij), Multiset.mem_range.mpr (by omega), ?_⟩
      rw [Nat.add_sub_of_le hle, hk]

section Call
variable {indices : ℕ → ℤ} {activeKeys : ℤ → ℕ × ℕ} {localOffsets : ℕ → ℕ} {schedule : List (List (ℕ × ℕ))}
  {d : Config HashMemory HashFrame}

/-- The table of the first pass. -/
def first (b : Build S) : Bht (ℕ × ℕ) := b.table b.triplets.length b.fits

theorem tableSize_first (b : Build S) : b.first.tableSize = evaluateTableSize b.triplets.length := by
  have hmod := evaluateTableSize_mod b.triplets.length
  show evaluateTableSize b.triplets.length / 32 * 32 = _
  omega

theorem room_first (b : Build S) (hn : b.triplets ≠ []) : b.triplets.length + 20 < b.first.tableSize := by
  rw [tableSize_first]
  exact add_lt_evaluateTableSize (List.length_pos_iff.mpr hn)

theorem bits_first (b : Build S) (hn : b.triplets ≠ []) : 1 < b.first.bits := by
  have hfits := b.fits
  have hroom := add_lt_evaluateTableSize (List.length_pos_iff.mpr hn)
  by_contra hb
  have hpow : 2 ^ b.bits ≤ 2 ^ 1 := Nat.pow_le_pow_right (by decide) (Nat.le_of_not_lt hb)
  omega

/-- A first pass that fails has written out of range. -/
theorem first_failure (hk : ∀ e ∈ b.triplets, e.position ≠ b.keySentinel)
    (hs : schedule.flatten.Perm (b.triplets.map Triplet.position))
    (h : Reaches (b.hashEntry b.first) free (hashStart b.first indices activeKeys localOffsets false schedule) d)
    (hq : Quiescent (b.hashEntry b.first) d) (hno : d.mem.tab.success = false) : d.mem.outOfRange = true := by
  have hkeys : ∀ k ∈ schedule.flatten, k ≠ b.first.keySentinel := by
    intro k hm
    obtain ⟨e, he, rfl⟩ := List.mem_map.mp (hs.mem_iff.mp hm)
    exact hk e he
  have htable := Bht.invariant_reaches hkeys (insertions_reaches h)
  by_cases hn : b.triplets = []
  · -- nothing is inserted
    rw [hn] at hs
    have hframes : (hashStart b.first indices activeKeys localOffsets false schedule).frames =
        schedule.flatten.map fun ij => .inserting ij (.call {key := ij}) := by
      simp [hashStart, Config.frames, List.map_flatten]
    rw [List.Perm.eq_nil hs] at hframes
    rw [h.eq_of_frames hframes] at hno
    cases hno
  · exact outOfRange_of_failure (bits_first b hn) htable h hq hno

theorem first_invariant (hk : ∀ e ∈ b.triplets, e.position ≠ b.keySentinel)
    (hs : schedule.flatten.Perm (b.triplets.map Triplet.position))
    (h : Reaches (b.hashEntry b.first) hasSlot (hashStart b.first indices activeKeys localOffsets false schedule) d) :
    HashInvariant b b.first schedule d :=
  hashInvariant_reaches (room_first b) hs.subset hk h

/-- Whatever the hash functions and the order of the actions, as long as no insertion finds its buckets full: every
write is in range, the first pass is the last one, and `build` returns the matrix of the triplets. A pass in which an
insertion fails writes out of range. -/
theorem build_compressed [Add S] [Zero S] (b : Build S) (hk : ∀ e ∈ b.triplets, e.position ≠ b.keySentinel) :
    (∀ indices activeKeys localOffsets schedule c, schedule.flatten.Perm (b.triplets.map Triplet.position) →
      Reaches (b.hashEntry b.first) hasSlot (hashStart b.first indices activeKeys localOffsets false schedule) c →
      c.mem.outOfRange = false) ∧
    (∀ r o, b.Built hasSlot r o → o = false ∧ ∃ m, r = some m ∧ Compressed b m) ∧
    (∀ indices activeKeys localOffsets schedule c, schedule.flatten.Perm (b.triplets.map Triplet.position) →
      Reaches (b.hashEntry b.first) free (hashStart b.first indices activeKeys localOffsets false schedule) c →
      Quiescent (b.hashEntry b.first) c → c.mem.tab.success = false → c.mem.outOfRange = true) := by
  have hhashed : ∀ {localOffsets t m}, b.Hashed hasSlot b.triplets.length localOffsets false t m →
      Counted b t m ∧ m.outOfRange = false := by
    intro localOffsets t m h
    cases h with
    | done hf hs h hq hok =>
      have hi := first_invariant hk hs h
      exact ⟨hi.counted hs.subset hs.symm.subset hq, hi.inRange⟩
    | retry hf hs h hq hno hr =>
      have hi := first_invariant hk hs h
      exact absurd hi.success (by rw [hno]; decide)
  refine ⟨fun indices activeKeys localOffsets schedule c hs h => (first_invariant hk hs h).inRange, fun r o h => ?_,
    fun indices activeKeys localOffsets schedule c hs h hq hno => first_failure hk hs h hq hno⟩
  cases h with
  | thrown h hn => exact absurd (hhashed h).1.scan hn
  | returned h hn hs hr hq =>
    obtain ⟨hc, ho⟩ := hhashed h
    rw [ho] at hr
    have hi := entryInvariant_reaches hc hs hr
    exact ⟨hi.inRange, _, rfl, hi.compressed hc (entry_returned hq)⟩

end Call

section Samples
/-- The hash functions that a table draws from `mt19937` with the seed 2. -/
def seeded (n : ℕ) (entries : List (ℕ × ℕ × ℤ)) (hr : ∀ e ∈ entries, e.1 < n ∧ e.2.1 < n)
    (hf : 2 * evaluateTableSize entries.length ≤ 2 ^ 32) : Build ℤ where
  rowMajor := true
  nrows := n
  ncols := n
  extent := 1
  triplets := entries.map fun e => ⟨e.1, e.2.1, fun _ => e.2.2⟩
  bits := 32
  hf0 := universalHash 1872583848 794921487
  hf1 := universalHash 111352301 4000937544
  hf2 := universalHash 2360782358 4070471979
  inRange := List.forall_mem_map.mpr hr
  fits := by rwa [List.length_map]

/-- Three triplets, two of them at one position. -/
def small : Build ℤ := seeded 2 [(0, 1, 5), (1, 0, 7), (0, 1, 2)] (by decide) (by decide)

/-- Two threads hash the positions and one scatters the values. -/
theorem build_compressed_small : ∃ m, small.Built hasSlot (some m) false ∧ Compressed small m ∧
    m.ptrs.get 2 = 2 ∧ m.vals.get 0 0 = 7 := by
  let passed := runs (small.hashEntry small.first) hasSlot (hashStart small.first (fun _ => 0) (fun _ => (0, 0))
    (fun _ => 0) false [[(0, 1)], [(0, 1), (1, 0)]])
    (([0, 1, 0, 1, 0, 1, 0, 1] ++ List.replicate 7 0 ++ List.replicate 17 1).map (·, ()))
  have hh : passed.map (fun c => (c.threads.map List.length, c.mem.tab.success, exclusiveScan c.mem.cnts small.nsegs,
      c.mem.tab.cnt)) = some ([0, 0], true, 2, 2) := by decide +kernel
  have hd : (passed.bind fun c => (runs (small.updateEntry small.first c.mem) free
      (entryStart (fun _ => 0) c.mem.outOfRange [small.triplets]) (List.replicate 9 (0, ()))).map
        fun d => (d.threads.map List.length, d.mem.outOfRange, d.mem.vals 0 0)) = some ([0], false, 7) := by
    decide +kernel
  obtain ⟨c, hc, hh⟩ := Option.map_eq_some_iff.mp hh
  rw [hc] at hd
  obtain ⟨d, hd, he⟩ := Option.map_eq_some_iff.mp hd
  simp only [Prod.mk.injEq] at hh he
  obtain ⟨hl, hok, hn, hcnt⟩ := hh
  obtain ⟨hdl, hdo, hv⟩ := he
  have hashed : small.Hashed hasSlot small.triplets.length (fun _ => 0) false small.first c.mem :=
    .done small.fits (by decide) (reaches_of_runs hc) (quiescent_of_lengths (n := 2) hl) hok
  have built : small.Built hasSlot (some (small.result c.mem d.mem)) d.mem.outOfRange :=
    .returned hashed (hn.trans hcnt.symm) (List.Perm.refl _) (reaches_of_runs hd) (quiescent_of_lengths (n := 1) hdl)
  obtain ⟨_, m, hm, hcomp⟩ := (build_compressed small (by decide)).2.1 _ _ built
  obtain rfl := Option.some.inj hm
  exact ⟨_, hdo ▸ built, hcomp, hn, hv⟩

/-- Positions of a matrix of 28 rows that are put into the first bucket by all three hash functions. -/
def crowded : List (ℕ × ℕ) :=
  [(0, 21), (1, 1), (1, 24), (2, 6), (5, 11), (5, 21), (6, 5), (7, 12), (7, 24), (8, 1), (8, 4), (8, 24), (8, 27),
    (9, 17), (9, 24), (12, 2), (13, 22), (14, 11), (16, 8), (16, 25), (18, 15), (18, 18), (19, 3), (19, 16), (19, 26),
    (20, 24), (22, 12), (22, 17), (23, 3), (23, 24), (24, 17), (25, 2)]

def large : Build ℤ := seeded 28 (crowded.map fun ij => (ij.1, ij.2, 1)) (by decide) (by decide)

/-- The last of these positions finds no slot, and its offset is written out of range. -/
theorem build_outOfRange : ¬ ∀ c, Reaches (large.hashEntry large.first) free (hashStart large.first (fun _ => 0)
    (fun _ => (0, 0)) (fun _ => 0) false [crowded]) c → c.mem.outOfRange = false := by
  have hh : (runs (large.hashEntry large.first) free (hashStart large.first (fun _ => 0) (fun _ => (0, 0)) (fun _ => 0)
      false [crowded]) (List.replicate 1467 (0, ()))).map (fun c => c.mem.outOfRange) = some true := by decide +kernel
  obtain ⟨c, hc, ho⟩ := Option.map_eq_some_iff.mp hh
  intro h
  rw [h c (reaches_of_runs hc)] at ho
  cases ho

end Samples

end Results

end Build

end Zpc.SparseMatrix
