import Zpc.SparseMatrix

/-!
# The hashing pass of the build

Seen without the counting, the pass is a run of insertions into the table. Every position that got a number there gets
one offset in its line, and the offsets of a line are those below its count.
-/
namespace Zpc.SparseMatrix.Build
open Interleaving

variable {S : Type*} {b : Build S} {t : Bht (ℕ × ℕ)} {m m' : HashMemory} {f : HashFrame} {fs : List HashFrame}

theorem le_next2pow (n : ℕ) : n ≤ next2pow n := by
  unfold next2pow bitCount
  split
  · have hlt := Nat.lt_size_self (n - 1)
    omega
  · omega

/-- No number of the table comes near its size. -/
theorem add_lt_evaluateTableSize {n : ℕ} (hn : 0 < n) : n + 20 < evaluateTableSize n := by
  have hle := le_next2pow n
  have hmod := evaluateTableSize_mod n
  unfold evaluateTableSize at hmod ⊢
  rw [if_neg (by omega)] at hmod ⊢
  by_cases hs : n < 12
  · omega
  · -- the power is a multiple of 16, so that a whole bucket is added
    have hbits : 4 ≤ bitCount n := by
      unfold bitCount
      rw [if_pos hn]
      exact Nat.lt_size.mpr (by omega)
    obtain ⟨k, hk⟩ := Nat.pow_dvd_pow 2 hbits
    unfold next2pow at hle ⊢
    omega

/-- What one action of the pass does. -/
inductive HashActs (b : Build S) (t : Bht (ℕ × ℕ)) (m : HashMemory) : HashFrame → HashMemory → List HashFrame → Prop
  | insert (ij : ℕ × ℕ) (f : Bht.Frame (ℕ × ℕ)) (tab : Bht.Memory (ℕ × ℕ)) (fs : List (Bht.Frame (ℕ × ℕ)))
      (ha : t.Acts m.tab f tab fs) : HashActs b t m (.inserting ij f) {m with tab := tab} [.resume t ij tab fs]
  | present (ij : ℕ × ℕ) : HashActs b t m (.inserted ij Bht.sentinel) m []
  | count (ij : ℕ × ℕ) (id : ℤ) (hid : id ≠ Bht.sentinel) (hr : b.outer ij < b.nsegs + 1) :
      HashActs b t m (.inserted ij id)
        {m with cnts := Function.update m.cnts (b.outer ij) (m.cnts (b.outer ij) + 1)}
        [.record ij id (m.cnts (b.outer ij))]
  | uncounted (ij : ℕ × ℕ) (id : ℤ) (hr : ¬ b.outer ij < b.nsegs + 1) :
      HashActs b t m (.inserted ij id) {m with outOfRange := true} []
  | record (ij : ℕ × ℕ) (id : ℤ) (offset : ℕ) (hr : 0 ≤ id ∧ id < b.triplets.length) :
      HashActs b t m (.record ij id offset) (m.write ij id offset) []
  | unrecorded (ij : ℕ × ℕ) (id : ℤ) (offset : ℕ) (hr : ¬ (0 ≤ id ∧ id < b.triplets.length)) :
      HashActs b t m (.record ij id offset) {m with outOfRange := true} []

theorem acts_of_hashEntry {x : Unit} (h : b.hashEntry t m f x = some (m', fs)) : HashActs b t m f m' fs := by
  cases f with
  | inserting ij f =>
    obtain ⟨⟨tab, gs⟩, he, h⟩ := Option.map_eq_some_iff.mp h
    simp only [Prod.mk.injEq] at h
    obtain ⟨rfl, rfl⟩ := h
    exact .insert ij f tab gs (Bht.acts_of_code he)
  | inserted ij id =>
    simp only [hashEntry] at h
    split_ifs at h with hid hr <;> simp only [Option.some.injEq, Prod.mk.injEq] at h <;> obtain ⟨rfl, rfl⟩ := h
    · exact .count ij id hid hr
    · exact .uncounted ij id hr
    · obtain rfl := not_not.mp hid
      exact .present ij
  | record ij id offset =>
    simp only [hashEntry] at h
    split_ifs at h with hr <;> simp only [Option.some.injEq, Prod.mk.injEq] at h <;> obtain ⟨rfl, rfl⟩ := h
    · exact .record ij id offset hr
    · exact .unrecorded ij id offset hr

/-- The part of a frame that belongs to `insert`. -/
def HashFrame.insertion : HashFrame → List (Bht.Frame (ℕ × ℕ))
  | .inserting _ f => [f]
  | _ => []

abbrev insertions (c : Config HashMemory HashFrame) : Config (Bht.Memory (ℕ × ℕ)) (Bht.Frame (ℕ × ℕ)) :=
  c.project HashMemory.tab HashFrame.insertion

section Runs
variable {indices : ℕ → ℤ} {activeKeys : ℤ → ℕ × ℕ} {localOffsets : ℕ → ℕ} {outOfRange : Bool}
  {schedule : List (List (ℕ × ℕ))} {guard : Guard HashMemory HashFrame} {c c' : Config HashMemory HashFrame} {x : Unit}

theorem insertion_resume {f : Bht.Frame (ℕ × ℕ)} {tab tab' : Bht.Memory (ℕ × ℕ)} {fs : List (Bht.Frame (ℕ × ℕ))}
    (ha : t.Acts tab f tab' fs) (ij : ℕ × ℕ) : (HashFrame.resume t ij tab' fs).insertion = fs := by
  rcases ha.args with ⟨g, rfl, _⟩ | ⟨rfl, _⟩ <;> rfl

theorem insertions_start : insertions (hashStart t indices activeKeys localOffsets outOfRange schedule) =
    Bht.start t indices activeKeys schedule := by
  simp only [insertions, Config.project, hashStart, Bht.start, List.map_map, Config.mk.injEq, true_and]
  refine List.map_congr_left fun keys _ => ?_
  simp only [Function.comp_def, List.flatMap_map, List.map_map, HashFrame.insertion]
  exact List.map_eq_flatMap.symm

theorem insertions_project (h : Reaches (b.hashEntry t) guard c c') :
    Reaches t.code free (insertions c) (insertions c') := by
  refine h.project fun {m f x m' fs} he => ?_
  cases f with
  | inserting ij f =>
    obtain ⟨⟨tab, gs⟩, hg, he⟩ := Option.map_eq_some_iff.mp he
    simp only [Prod.mk.injEq] at he
    obtain ⟨rfl, rfl⟩ := he
    refine .inr ⟨f, [], x, gs, rfl, hg, ?_⟩
    rw [List.flatMap_singleton, insertion_resume (Bht.acts_of_code hg), List.append_nil]
  | _ =>
    refine .inl ?_
    have ha := acts_of_hashEntry he
    cases ha <;> exact ⟨rfl, rfl⟩

theorem insertions_reaches
    (h : Reaches (b.hashEntry t) guard (hashStart t indices activeKeys localOffsets outOfRange schedule) c) :
    Reaches t.code free (Bht.start t indices activeKeys schedule) (insertions c) := by
  have hstart : insertions (hashStart t indices activeKeys localOffsets outOfRange schedule) = _ := insertions_start
  rw [← hstart]
  exact insertions_project h

def HashFrame.waiting : HashFrame → Multiset ((ℕ × ℕ) × ℤ)
  | .inserting _ _ => 0
  | .inserted ij id => if id = Bht.sentinel then 0 else {(ij, id)}
  | .record ij id _ => {(ij, id)}

def HashFrame.offsetIn (b : Build S) (r : ℕ) : HashFrame → Multiset ℕ
  | .record ij _ offset => if b.outer ij = r then {offset} else 0
  | _ => 0

def HashMemory.offsetsIn (b : Build S) (r : ℕ) (m : HashMemory) : List ℕ :=
  (m.recorded.filter fun e => b.outer e.1 = r).map fun e => e.2.2

/-- The position of a frame. -/
def HashFrame.position : HashFrame → ℕ × ℕ
  | .inserting ij _ | .inserted ij _ | .record ij _ _ => ij

def HashFrame.Own : HashFrame → Prop
  | .inserting ij f => f.args.key = ij
  | _ => True

/-- No insertion is about to fail. -/
def hasSlot : Guard HashMemory HashFrame := fun _ f => ∀ ij a, f ≠ .inserting ij (.fail a)

instance (c : Config HashMemory HashFrame) (f : HashFrame) : Decidable (hasSlot c f) :=
  match f with
  | .inserting ij (.fail a) => .isFalse fun h => h ij a rfl
  | .inserting _ (.call _) | .inserting _ (.lockLoad _) | .inserting _ (.load _) | .inserting _ (.unlockLoad _ _)
  | .inserting _ (.examine _ _) | .inserting _ (.lockSwap _) | .inserting _ (.swap _) | .inserting _ (.unlockSwap _ _)
  | .inserting _ (.switched _ _) | .inserting _ (.number _) | .inserting _ (.store _ _) | .inserting _ (.enqueue _ _)
  | .inserting _ (.finish _ _) | .inserted _ _ | .record _ _ _ => .isTrue fun _ _ h => by cases h

structure HashInvariant (b : Build S) (t : Bht (ℕ × ℕ)) (schedule : List (List (ℕ × ℕ)))
    (c : Config HashMemory HashFrame) : Prop where
  table : Bht.Invariant t schedule (insertions c)
  own : ∀ f ∈ c.frames, f.Own
  position : ∀ f ∈ c.frames, f.position ∈ b.triplets.map Triplet.position
  found : ∀ r ∈ c.mem.tab.returned, r.2 = .present ∨ ∃ n, r.2 = .index n
  waiting : (c.mem.tab.won : Multiset ((ℕ × ℕ) × ℤ)) =
    c.total HashFrame.waiting + (c.mem.recorded.map fun e => (e.1, e.2.1) : Multiset ((ℕ × ℕ) × ℤ))
  offsets : ∀ r, c.total (HashFrame.offsetIn b r) + (c.mem.offsetsIn b r : Multiset ℕ) = Multiset.range (c.mem.cnts r)
  written : ∀ e ∈ c.mem.recorded, c.mem.localOffsets e.2.1.toNat = e.2.2
  inRange : c.mem.outOfRange = false
  success : c.mem.tab.success = true

variable (hroom : b.triplets ≠ [] → b.triplets.length + 20 < t.tableSize)
  (hs : schedule.flatten ⊆ b.triplets.map Triplet.position) (hall : b.triplets.map Triplet.position ⊆ schedule.flatten)

theorem outer_lt {ij : ℕ × ℕ} (h : ij ∈ b.triplets.map Triplet.position) : b.outer ij < b.nsegs := by
  obtain ⟨e, he, rfl⟩ := List.mem_map.mp h
  have hr := b.inRange e he
  unfold outer nsegs
  split
  · exact hr.1
  · exact hr.2

include hs in
theorem HashInvariant.number_lt (hi : HashInvariant b t schedule c) {n : ℤ}
    (hn : n ∈ (insertions c).total Bht.Frame.numbered + (c.mem.tab.won.map Prod.snd : Multiset ℤ)) :
    0 ≤ n ∧ n < b.triplets.length := by
  have hlt := hi.table.number_lt hn
  have hcnt := hi.table.cnt_add
  have hcard : Multiset.card (Bht.stored t (insertions c).mem.keys) ≤ b.triplets.length := by
    have hsub : Bht.stored t (insertions c).mem.keys ⊆ (b.triplets.map Triplet.position : Multiset (ℕ × ℕ)) := fun k hk =>
      Multiset.mem_coe.mpr (hs (hi.table.inserted hk))
    simpa using Multiset.card_le_card ((Multiset.le_iff_subset hi.table.nodup).mpr hsub)
  omega

theorem HashInvariant.mem_won (hi : HashInvariant b t schedule c) (hf : f ∈ c.frames) {ij : ℕ × ℕ} {id : ℤ}
    (hw : (ij, id) ∈ f.waiting) : (ij, id) ∈ c.mem.tab.won := by
  rw [← Multiset.mem_coe, hi.waiting]
  exact Multiset.mem_add.mpr (.inl (mem_total.mpr ⟨f, hf, hw⟩))

include hroom hs in
/-- An insertion that returns has found the key, or its number is good. -/
theorem found_step (h : Step (b.hashEntry t) c f x c') (hg : hasSlot c f) (hi : HashInvariant b t schedule c) :
    ∀ r ∈ c'.mem.tab.returned, r.2 = .present ∨ ∃ n, r.2 = .index n := by
  have hpos := hi.position f h.mem_frame
  have hmem := h.mem_frame
  obtain ⟨fs, he⟩ := h.runs_code
  have ha := acts_of_hashEntry he
  have hfound := hi.found
  have hsize : b.triplets ≠ [] := fun h0 => by simp [h0] at hpos
  have hlt := fun n => hi.number_lt hs (n := n)
  generalize hm' : c'.mem = m' at ha ⊢
  generalize hm : c.mem = m at ha hfound
  cases ha with
  | insert ij g tab gs ha =>
    cases ha with
    | noBuckets a hn =>
      have hts : t.tableSize = 0 := by unfold Bht.tableSize; rw [hn, Nat.zero_mul]
      have := hroom hsize
      omega
    | present p => exact List.forall_mem_cons.mpr ⟨.inl rfl, hfound⟩
    | near p n hn =>
      have hnum : n ∈ (insertions c).total Bht.Frame.numbered := by
        refine mem_total.mpr ⟨.finish p n, ?_, Multiset.mem_singleton_self n⟩
        rw [frames_project]
        exact List.mem_flatMap.mpr ⟨_, hmem, List.mem_singleton_self _⟩
      have hb := hlt n (Multiset.mem_add.mpr (.inl hnum))
      have hr := hroom hsize
      exact absurd hn (Bht.not_proximity hb.1 (by omega))
    | finish p n => exact List.forall_mem_cons.mpr ⟨.inr ⟨n, rfl⟩, hfound⟩
    | fail a => exact absurd rfl (hg ij a)
    | _ => exact hfound
  | _ => exact hfound

theorem position_resume (ij : ℕ × ℕ) (tab : Bht.Memory (ℕ × ℕ)) (fs : List (Bht.Frame (ℕ × ℕ))) :
    (HashFrame.resume t ij tab fs).position = ij := by
  cases fs <;> rfl

theorem position_step (h : Step (b.hashEntry t) c f x c')
    (hi : ∀ f ∈ c.frames, f.position ∈ b.triplets.map Triplet.position) :
    ∀ f ∈ c'.frames, f.position ∈ b.triplets.map Triplet.position := by
  have hf := hi f h.mem_frame
  refine h.all hi (fun fs he => ?_) fun _ _ hg => hg
  have ha := acts_of_hashEntry he
  generalize c.mem = m, c'.mem = m' at ha
  clear h he hi
  cases ha with
  | insert ij g tab gs ha =>
    refine List.forall_mem_singleton.mpr ?_
    rw [position_resume]
    exact hf
  | count ij => exact List.forall_mem_singleton.mpr hf
  | _ => exact List.forall_mem_nil _

theorem own_step (h : Step (b.hashEntry t) c f x c') (hi : ∀ f ∈ c.frames, f.Own) : ∀ f ∈ c'.frames, f.Own := by
  have hf := hi f h.mem_frame
  refine h.all hi (fun fs he => ?_) fun _ _ hg => hg
  have ha := acts_of_hashEntry he
  generalize c.mem = m, c'.mem = m' at ha
  clear h he hi
  cases ha with
  | insert ij g tab gs ha =>
    refine List.forall_mem_singleton.mpr ?_
    rcases ha.args with ⟨g', rfl, hargs, _⟩ | ⟨rfl, _⟩
    · exact (congrArg _ hargs).trans hf
    · trivial
  | count ij => exact List.forall_mem_singleton.mpr trivial
  | _ => exact List.forall_mem_nil _

/-- The entries of the table are those written to the offsets and those on their way. -/
theorem waiting_step (h : Step (b.hashEntry t) c f x c') (hi : HashInvariant b t schedule c)
    (hfound : ∀ r ∈ c'.mem.tab.returned, r.2 = .present ∨ ∃ n, r.2 = .index n)
    (hnum : ∀ r ∈ c'.mem.tab.won, 0 ≤ r.2) (hrange : c'.mem.outOfRange = false) :
    (c'.mem.tab.won : Multiset ((ℕ × ℕ) × ℤ)) =
      c'.total HashFrame.waiting + (c'.mem.recorded.map fun e => (e.1, e.2.1) : Multiset ((ℕ × ℕ) × ℤ)) := by
  have hown := hi.own f h.mem_frame
  have hw := hi.waiting
  obtain ⟨fs, r, ha, hr, hr'⟩ := h.measure acts_of_hashEntry HashFrame.waiting
  rw [hr] at hw
  rw [hr']
  generalize c.mem = m, c'.mem = m' at ha hw hfound hnum hrange ⊢
  clear h hr hr' hi
  cases ha with
  | insert ij g tab gs ha =>
    rcases ha.args with ⟨g', rfl, _, hret⟩ | ⟨rfl, o, hret⟩
    · have hwon : tab.won = m.tab.won := by unfold Bht.Memory.won; rw [hret]
      simpa [HashFrame.resume, HashFrame.waiting, hwon] using hw
    · have hkey : g.args.key = ij := hown
      rcases hfound (g.args, o) (hret ▸ List.mem_cons_self) with rfl | ⟨n, rfl⟩
      · have hwon : tab.won = m.tab.won := by unfold Bht.Memory.won; rw [hret]; rfl
        simpa [HashFrame.resume, HashFrame.waiting, hret, Bht.Outcome.value, hwon] using hw
      · have hwon : tab.won = (ij, n) :: m.tab.won := by
          unfold Bht.Memory.won
          rw [hret, ← hkey]
          rfl
        have hn : n ≠ Bht.sentinel := by
          have hle : 0 ≤ n := hnum (ij, n) (hwon ▸ List.mem_cons_self)
          unfold Bht.sentinel
          omega
        rw [show (({m with tab := tab} : HashMemory).tab.won) = _ from hwon, ← Multiset.cons_coe, hw]
        simp [HashFrame.resume, HashFrame.waiting, hret, Bht.Outcome.value, hn]
  | present ij => simpa [HashFrame.waiting] using hw
  | count ij id hid => simpa [HashFrame.waiting, hid] using hw
  | record ij id offset =>
    rw [show ((m.write ij id offset).tab.won) = m.tab.won from rfl, hw]
    simp [HashFrame.waiting, HashMemory.write, ← Multiset.cons_coe]
  | uncounted => cases hrange
  | unrecorded => cases hrange

/-- The offsets handed out in a line are those below its count. -/
theorem offsets_step (h : Step (b.hashEntry t) c f x c') (r : ℕ) (hrange : c'.mem.outOfRange = false)
    (hi : c.total (HashFrame.offsetIn b r) + (c.mem.offsetsIn b r : Multiset ℕ) = Multiset.range (c.mem.cnts r)) :
    c'.total (HashFrame.offsetIn b r) + (c'.mem.offsetsIn b r : Multiset ℕ) = Multiset.range (c'.mem.cnts r) := by
  obtain ⟨fs, s, ha, hs, hs'⟩ := h.measure acts_of_hashEntry (HashFrame.offsetIn b r)
  rw [hs] at hi
  rw [hs']
  generalize c.mem = m, c'.mem = m' at ha hi hrange ⊢
  clear h hs hs'
  cases ha with
  | insert ij g tab gs ha =>
    rcases ha.args with ⟨g', rfl, _⟩ | ⟨rfl, _⟩ <;>
      simpa [HashFrame.resume, HashFrame.offsetIn, HashMemory.offsetsIn] using hi
  | present ij => simpa [HashFrame.offsetIn] using hi
  | count ij id =>
    by_cases hr : b.outer ij = r
    · subst hr
      simp only [Function.update_self, Multiset.range_succ, ← hi]
      simp [HashFrame.offsetIn, HashMemory.offsetsIn]
    · simpa [HashFrame.offsetIn, hr, Function.update_of_ne (Ne.symm hr), HashMemory.offsetsIn] using hi
  | record ij id offset =>
    by_cases hr : b.outer ij = r
    · simp only [HashMemory.write, ← hi]
      simp [HashFrame.offsetIn, HashMemory.offsetsIn, hr, ← Multiset.cons_coe]
    · simpa [HashFrame.offsetIn, hr, HashMemory.write, HashMemory.offsetsIn] using hi
  | uncounted => cases hrange
  | unrecorded => cases hrange

include hs in
/-- Every write is in range. -/
theorem inRange_step (h : Step (b.hashEntry t) c f x c') (hi : HashInvariant b t schedule c) :
    c'.mem.outOfRange = false := by
  have hpos := outer_lt (hi.position f h.mem_frame)
  have hwon : ∀ ij id, (ij, id) ∈ f.waiting → (ij, id) ∈ c.mem.tab.won := fun _ _ => hi.mem_won h.mem_frame
  have hnum := fun n => hi.number_lt hs (n := n)
  have hrange := hi.inRange
  obtain ⟨fs, he⟩ := h.runs_code
  have ha := acts_of_hashEntry he
  generalize hm' : c'.mem = m' at ha ⊢
  generalize hm : c.mem = m at ha hrange hwon hnum
  cases ha with
  | uncounted ij id hr =>
    have hlt : b.outer ij < b.nsegs := hpos
    omega
  | unrecorded ij id offset hr =>
    have hmem : (ij, id) ∈ m.tab.won := hwon ij id (Multiset.mem_singleton_self _)
    exact absurd (hnum id (Multiset.mem_add.mpr (.inr (List.mem_map_of_mem (f := Prod.snd) hmem)))) hr
  | _ => exact hrange

/-- No two entries of the table share a place among the offsets. -/
theorem written_step (h : Step (b.hashEntry t) c f x c') (hi : HashInvariant b t schedule c) :
    ∀ e ∈ c'.mem.recorded, c'.mem.localOffsets e.2.1.toNat = e.2.2 := by
  have hnd := hi.table.consistent.once.2
  have hbelow := hi.table.consistent.below
  have hwon := hi.waiting
  obtain ⟨rest, hrest⟩ := total_of_mem h.mem_frame HashFrame.waiting
  rw [hrest] at hwon
  have hwritten := hi.written
  obtain ⟨fs, he⟩ := h.runs_code
  have ha := acts_of_hashEntry he
  rw [show (insertions c).mem = c.mem.tab from rfl] at hnd hbelow
  generalize hm' : c'.mem = m' at ha ⊢
  generalize hm : c.mem = m at ha hwritten hwon hnd hbelow
  clear hm hm' he hrest
  cases ha with
  | record ij id offset =>
    have hmem : ∀ e ∈ m.recorded, (e.1, e.2.1) ∈ m.tab.won := fun e he => by
      rw [← Multiset.mem_coe, hwon]
      exact Multiset.mem_add.mpr (.inr (Multiset.mem_coe.mpr (List.mem_map_of_mem he)))
    have hid : 0 ≤ id := by
      refine (hbelow (ij, id) ?_).1
      rw [← Multiset.mem_coe, hwon]
      exact Multiset.mem_add.mpr (.inl (Multiset.mem_add.mpr (.inl (Multiset.mem_singleton_self _))))
    refine List.forall_mem_cons.mpr ⟨Function.update_self .., fun e he => ?_⟩
    have hne : e.2.1 ≠ id := by
      have hnd' : Multiset.Nodup (Multiset.map Prod.snd (m.tab.won : Multiset ((ℕ × ℕ) × ℤ))) :=
        Multiset.coe_nodup.mpr hnd
      rw [hwon] at hnd'
      simp only [HashFrame.waiting, Multiset.singleton_add, Multiset.cons_add, Multiset.map_cons,
        Multiset.nodup_cons, Multiset.map_add, Multiset.mem_add, not_or, Multiset.map_coe, Multiset.mem_coe,
        List.map_map] at hnd'
      rintro rfl
      exact hnd'.1.2 (List.mem_map_of_mem (f := Prod.snd ∘ fun e => (e.1, e.2.1)) he)
    have hnat : e.2.1.toNat ≠ id.toNat := by
      have hid' := (hbelow _ (hmem e he)).1
      simp only at hid'
      omega
    exact (Function.update_of_ne hnat ..).trans (hwritten e he)
  | _ => exact hwritten

theorem success_step (h : Step (b.hashEntry t) c f x c')
    (hfound : ∀ r ∈ c'.mem.tab.returned, r.2 = .present ∨ ∃ n, r.2 = .index n) (hi : c.mem.tab.success = true) :
    c'.mem.tab.success = true := by
  obtain ⟨fs, he⟩ := h.runs_code
  have ha := acts_of_hashEntry he
  generalize c.mem = m, c'.mem = m' at ha hfound hi ⊢
  cases ha with
  | insert ij g tab gs ha =>
    cases ha with
    | near p n | fail a => simpa using hfound _ List.mem_cons_self
    | _ => exact hi
  | _ => exact hi

include hroom hs in
theorem hashInvariant_step (h : Step (b.hashEntry t) c f x c') (hg : hasSlot c f) (hi : HashInvariant b t schedule c) :
    HashInvariant b t schedule c' :=
  have hfound := found_step hroom hs h hg hi
  have hrange := inRange_step hs h hi
  have hrun : Reaches (b.hashEntry t) free c c' := .step .refl trivial h
  have htable := hi.table.reaches (insertions_project hrun)
  ⟨htable, own_step h hi.own, position_step h hi.position, hfound,
    waiting_step h hi hfound (fun r hr => (htable.consistent.below r hr).1) hrange,
    fun r => offsets_step h r hrange (hi.offsets r), written_step h hi, hrange, success_step h hfound hi.success⟩

include hs in
theorem hashInvariant_start (htable : Bht.Invariant t schedule (insertions (hashStart t indices activeKeys localOffsets
    false schedule))) : HashInvariant b t schedule (hashStart t indices activeKeys localOffsets false schedule) := by
  have hframe : ∀ f ∈ (hashStart t indices activeKeys localOffsets false schedule).frames, ∃ ij ∈ schedule.flatten,
      f = .inserting ij (.call {key := ij}) := by
    intro f hf
    obtain ⟨_, hk, hf⟩ := List.mem_flatten.mp hf
    obtain ⟨keys, hkeys, rfl⟩ := List.mem_map.mp hk
    obtain ⟨ij, hij, rfl⟩ := List.mem_map.mp hf
    exact ⟨ij, List.mem_flatten.mpr ⟨keys, hkeys, hij⟩, rfl⟩
  refine ⟨htable, fun f hf => ?_, fun f hf => ?_, fun r hr => ?_, ?_, fun r => ?_, fun e he => ?_, rfl, rfl⟩
  · obtain ⟨ij, _, rfl⟩ := hframe f hf
    rfl
  · obtain ⟨ij, hij, rfl⟩ := hframe f hf
    exact hs hij
  · cases hr
  · rw [show (hashStart t indices activeKeys localOffsets false schedule).total HashFrame.waiting = 0 from
      total_programs (fun ij => HashFrame.inserting ij (.call {key := ij})) (fun _ => rfl) _ _]
    rfl
  · rw [show (hashStart t indices activeKeys localOffsets false schedule).total (HashFrame.offsetIn b r) = 0 from
      total_programs (fun ij => HashFrame.inserting ij (.call {key := ij})) (fun _ => rfl) _ _]
    rfl
  · cases he

include hroom hs in
theorem hashInvariant_reaches (hk : ∀ e ∈ b.triplets, e.position ≠ t.keySentinel)
    (h : Reaches (b.hashEntry t) hasSlot (hashStart t indices activeKeys localOffsets false schedule) c) :
    HashInvariant b t schedule c := by
  have hkeys : ∀ k ∈ schedule.flatten, k ≠ t.keySentinel := by
    intro k hm
    obtain ⟨e, he, rfl⟩ := List.mem_map.mp (hs hm)
    exact hk e he
  induction h with
  | refl => exact hashInvariant_start hs (insertions_start ▸ Bht.invariant_start hkeys)
  | step _ hg hst ih => exact hashInvariant_step hroom hs hst hg ih

/-- A thread that has nothing to do can begin another entry. -/
theorem HashInvariant.spawn {m : HashMemory} {before after : List (List HashFrame)} {ij : ℕ × ℕ}
    (hi : HashInvariant b t schedule ⟨m, before ++ [] :: after⟩) (hk : ij ≠ t.keySentinel)
    (hp : ij ∈ b.triplets.map Triplet.position) :
    HashInvariant b t ([ij] :: schedule) ⟨m, before ++ [.inserting ij (.call {key := ij})] :: after⟩ := by
  have htable := hi.table
  simp only [insertions, Config.project, List.map_append, List.map_cons, List.flatMap_nil] at htable
  refine ⟨?_, forall_spawn rfl hi.own, forall_spawn hp hi.position, hi.found, ?_, fun r => ?_, hi.written, hi.inRange,
    hi.success⟩
  · simp only [insertions, Config.project, List.map_append, List.map_cons, List.flatMap_cons, List.flatMap_nil,
      List.append_nil, HashFrame.insertion]
    exact htable.spawn hk
  · rw [total_spawn]
    exact hi.waiting.trans (congrArg (· + _) (zero_add _).symm)
  · rw [total_spawn]
    exact (congrArg (· + _) (zero_add _)).trans (hi.offsets r)

theorem hashEntry_blocked {m : HashMemory} (h : b.hashEntry t m f x = none) :
    ∃ ij g, f = .inserting ij g ∧ t.code m.tab g x = none := by
  cases f with
  | inserting ij g => exact ⟨ij, g, rfl, Option.map_eq_none_iff.mp h⟩
  | inserted ij id =>
    simp only [hashEntry] at h
    split_ifs at h
  | record ij id offset =>
    simp only [hashEntry] at h
    split_ifs at h

theorem insertions_quiescent (hq : Quiescent (b.hashEntry t) c) : Quiescent t.code (insertions c) := by
  refine quiescent_of_blocked fun g k hk x => ?_
  obtain ⟨fs, hfs, he⟩ := List.mem_map.mp hk
  cases fs with
  | nil => cases he
  | cons f fs =>
    obtain ⟨ij, g', rfl, hb⟩ := hashEntry_blocked (hq.blocked hfs x)
    obtain rfl : g' = g := (List.cons_eq_cons.mp he).1
    exact hb

/-- With nothing left to do, the pass is over. -/
theorem hash_returned (htable : Bht.Invariant t schedule (insertions c)) (hq : Quiescent (b.hashEntry t) c) :
    c.frames = [] := by
  have hempty := htable.returned (insertions_quiescent hq)
  rw [frames_project] at hempty
  refine hq.returned_of_acts fun f k hk hblocked => ?_
  obtain ⟨ij, g, rfl, _⟩ := hashEntry_blocked (hblocked ())
  have hg : HashFrame.inserting ij g ∈ c.frames := List.mem_flatten.mpr ⟨_, hk, List.mem_cons_self⟩
  exact absurd (List.flatMap_eq_nil_iff.mp hempty _ hg) (List.cons_ne_nil _ _)

def offsetOf (t : Bht (ℕ × ℕ)) (m : HashMemory) (ij : ℕ × ℕ) : ℕ := m.localOffsets (t.query m.tab ij).toNat

/-- What the pass leaves: each position has one of the offsets of its line. -/
structure Counted (b : Build S) (t : Bht (ℕ × ℕ)) (m : HashMemory) : Prop where
  number : ∀ e ∈ b.triplets, 0 ≤ t.query m.tab e.position ∧ t.query m.tab e.position < b.triplets.length
  offset_lt : ∀ e ∈ b.triplets, offsetOf t m e.position < m.cnts (b.outer e.position)
  injective : ∀ e ∈ b.triplets, ∀ e' ∈ b.triplets, b.outer e.position = b.outer e'.position →
    offsetOf t m e.position = offsetOf t m e'.position → e.position = e'.position
  onto : ∀ r, ∀ l < m.cnts r, ∃ e ∈ b.triplets, b.outer e.position = r ∧ offsetOf t m e.position = l
  scan : exclusiveScan m.cnts b.nsegs = m.tab.cnt
  total : m.tab.cnt = (b.triplets.map Triplet.position).toFinset.card
  success : m.tab.success = true

theorem exclusiveScan_countP {A : Type*} (g : A → ℕ) (l : List A) (n : ℕ) :
    exclusiveScan (fun r => l.countP fun a => g a = r) n = l.countP fun a => g a < n := by
  induction n with
  | zero => simp [exclusiveScan]
  | succ n ih =>
    unfold exclusiveScan
    rw [ih]
    clear ih
    induction l with
    | nil => rfl
    | cons a l ih =>
      simp only [List.countP_cons, decide_eq_true_eq] at ih ⊢
      split_ifs <;> omega

/-- What the record of the writes says once the pass is over. -/
theorem HashInvariant.recorded (hi : HashInvariant b t schedule c) (hf : c.frames = []) :
    (c.mem.tab.won : Multiset ((ℕ × ℕ) × ℤ)) = (c.mem.recorded.map fun e => (e.1, e.2.1) : List ((ℕ × ℕ) × ℤ)) ∧
      ∀ r, (c.mem.offsetsIn b r : Multiset ℕ) = Multiset.range (c.mem.cnts r) := by
  have hw := hi.waiting
  have ho := hi.offsets
  simp only [Config.total, hf, List.map_nil, List.sum_nil, zero_add] at hw ho
  exact ⟨hw, ho⟩

include hs in
/-- A position has been inserted, so that it is in the table and its offset has been written. -/
theorem HashInvariant.entry_of_called (hi : HashInvariant b t schedule c) (hf : c.frames = [])
    (hq : Quiescent t.code (insertions c)) (ij : ℕ × ℕ) (hij : ij ∈ schedule.flatten) :
    ∃ id offset, (ij, id, offset) ∈ c.mem.recorded ∧ t.query c.mem.tab ij = id ∧
      0 ≤ id ∧ id < b.triplets.length ∧ offsetOf t c.mem ij = offset := by
  have hset := hi.table.settled hq
  have hcons := hi.table.consistent
  have hcall : ij ∈ (insertions c).mem.returned.map fun r => r.1.key := hset.returned.mem_iff.mpr hij
  obtain ⟨r, hr, hk⟩ := List.mem_map.mp hcall
  have hwon : ij ∈ (insertions c).mem.won.map Prod.fst := by
    rcases hi.found r hr with ho | ⟨n, ho⟩
    · obtain ⟨s, hsk⟩ := hcons.present r.1 (ho ▸ hr)
      refine (hset.won ij ?_).mp ⟨s, hsk.trans hk⟩
      exact hk ▸ (hi.table.recorded r hr).1.key
    · exact List.mem_map.mpr ⟨(r.1.key, n), Bht.mem_won hr (by rw [ho]; rfl), hk⟩
  obtain ⟨w, hw, hwk⟩ := List.mem_map.mp hwon
  have hrec := (hi.recorded hf).1
  obtain ⟨d, hd, hde⟩ := List.mem_map.mp (Multiset.mem_coe.mp (hrec ▸ Multiset.mem_coe.mpr hw))
  have hentry := hcons.entry w hw
  have hnum := hi.number_lt hs (Multiset.mem_add.mpr (.inr (List.mem_map_of_mem (f := Prod.snd) hw)))
  rw [hwk] at hentry
  subst hde
  obtain ⟨kl, id, offset⟩ := d
  obtain rfl : kl = ij := hwk
  refine ⟨id, offset, hd, hentry.2, hnum.1, hnum.2, ?_⟩
  unfold offsetOf
  rw [show t.query c.mem.tab kl = id from hentry.2]
  exact hi.written _ hd

include hs hall in
theorem HashInvariant.entry (hi : HashInvariant b t schedule c) (hf : c.frames = [])
    (hq : Quiescent t.code (insertions c)) (e : Triplet S) (he : e ∈ b.triplets) :
    ∃ id offset, (e.position, id, offset) ∈ c.mem.recorded ∧ t.query c.mem.tab e.position = id ∧
      0 ≤ id ∧ id < b.triplets.length ∧ offsetOf t c.mem e.position = offset :=
  hi.entry_of_called hs hf hq e.position (hall (List.mem_map_of_mem he))

theorem HashInvariant.recorded_position (hi : HashInvariant b t schedule c) (hf : c.frames = []) :
    (c.mem.recorded.map Prod.fst).Nodup ∧ c.mem.recorded.length = c.mem.tab.won.length := by
  have hperm := Multiset.coe_eq_coe.mp (hi.recorded hf).1
  have hfst : (c.mem.tab.won.map Prod.fst).Perm (c.mem.recorded.map Prod.fst) := by
    simpa [Function.comp_def] using hperm.map Prod.fst
  refine ⟨hfst.nodup_iff.mp hi.table.consistent.once.1, ?_⟩
  simpa using hperm.length_eq.symm

theorem HashInvariant.recorded_stored (hi : HashInvariant b t schedule c) {d : (ℕ × ℕ) × ℤ × ℕ}
    (hd : d ∈ c.mem.recorded) : d.1 ∈ Bht.stored t c.mem.tab.keys := by
  have hwon : (d.1, d.2.1) ∈ c.mem.tab.won := by
    rw [← Multiset.mem_coe, hi.waiting]
    exact Multiset.mem_add.mpr (.inr (Multiset.mem_coe.mpr (List.mem_map.mpr ⟨d, hd, rfl⟩)))
  rw [show Bht.stored t c.mem.tab.keys = _ from hi.table.placed.symm]
  exact Multiset.mem_add.mpr (.inr (List.mem_map_of_mem (f := Prod.fst) hwon))

include hs in
theorem HashInvariant.recorded_triplet (hi : HashInvariant b t schedule c) {d : (ℕ × ℕ) × ℤ × ℕ}
    (hd : d ∈ c.mem.recorded) : d.1 ∈ b.triplets.map Triplet.position :=
  hs (hi.table.inserted (hi.recorded_stored hd))

theorem HashInvariant.mem_offsetsIn (hi : HashInvariant b t schedule c) (hf : c.frames = []) (r l : ℕ) :
    l < c.mem.cnts r ↔ ∃ d ∈ c.mem.recorded, b.outer d.1 = r ∧ d.2.2 = l := by
  have hoffsets := (hi.recorded hf).2 r
  rw [← Multiset.mem_range, ← hoffsets, Multiset.mem_coe, HashMemory.offsetsIn, List.mem_map]
  simp only [List.mem_filter, decide_eq_true_eq, and_assoc]

include hs in
/-- The scan counts every entry of the table once. -/
theorem HashInvariant.scan_eq (hi : HashInvariant b t schedule c) (hf : c.frames = [])
    (hq : Quiescent t.code (insertions c)) : exclusiveScan c.mem.cnts b.nsegs = c.mem.tab.cnt := by
  have hcnts : c.mem.cnts = fun r => c.mem.recorded.countP fun d => b.outer d.1 = r := by
    funext r
    have hcard := congrArg Multiset.card ((hi.recorded hf).2 r)
    simp only [HashMemory.offsetsIn, Multiset.coe_card, List.length_map, Multiset.card_range] at hcard
    rw [← hcard, List.countP_eq_length_filter]
  have hall : ∀ d ∈ c.mem.recorded, decide (b.outer d.1 < b.nsegs) = true := fun d hd =>
    decide_eq_true (outer_lt (hi.recorded_triplet hs hd))
  have hnum := congrArg Multiset.card hi.table.numbered
  simp only [Config.total, hi.table.returned hq, List.map_nil, List.sum_nil, zero_add, Multiset.coe_card,
    List.length_map, Multiset.card_map, Multiset.card_range] at hnum
  rw [hcnts, exclusiveScan_countP (fun d : (ℕ × ℕ) × ℤ × ℕ => b.outer d.1), List.countP_eq_length.mpr hall,
    (hi.recorded_position hf).2]
  exact hnum

include hs hall in
/-- The table has an entry for each position of the triplets. -/
theorem HashInvariant.cnt_eq (hi : HashInvariant b t schedule c) (hf : c.frames = [])
    (hq : Quiescent t.code (insertions c)) : c.mem.tab.cnt = (b.triplets.map Triplet.position).toFinset.card := by
  have hcnt := hi.table.cnt_add
  simp only [Config.total, hi.table.returned hq, List.map_nil, List.sum_nil, add_zero] at hcnt
  rw [show c.mem.tab.cnt = _ from hcnt, ← Multiset.toFinset_card_of_nodup hi.table.nodup]
  congr 1
  ext k
  rw [Multiset.mem_toFinset, List.mem_toFinset]
  refine ⟨fun hk => hs (hi.table.inserted hk), fun hk => ?_⟩
  obtain ⟨e, he, rfl⟩ := List.mem_map.mp hk
  obtain ⟨id, offset, hd, _⟩ := hi.entry hs hall hf hq e he
  exact hi.recorded_stored hd

include hs hall in
theorem HashInvariant.counted (hi : HashInvariant b t schedule c) (hq : Quiescent (b.hashEntry t) c) :
    Counted b t c.mem := by
  have hqt := insertions_quiescent hq
  have hf := hash_returned hi.table hq
  have hentry := hi.entry hs hall hf hqt
  refine ⟨fun e he => ?_, fun e he => ?_, fun e he e' he' ho hl => ?_, fun r l hl => ?_, hi.scan_eq hs hf hqt,
    hi.cnt_eq hs hall hf hqt, hi.success⟩
  · obtain ⟨id, offset, _, hid, h0, hlt, _⟩ := hentry e he
    rw [hid]
    exact ⟨h0, hlt⟩
  · obtain ⟨id, offset, hd, _, _, _, hoff⟩ := hentry e he
    exact (hi.mem_offsetsIn hf _ _).mpr ⟨_, hd, rfl, hoff.symm⟩
  · -- two positions of one line have been given offsets apart
    obtain ⟨id, offset, hd, _, _, _, hoff⟩ := hentry e he
    obtain ⟨id', offset', hd', _, _, _, hoff'⟩ := hentry e' he'
    have hnd : (c.mem.offsetsIn b (b.outer e.position)).Nodup := by
      rw [← Multiset.coe_nodup, (hi.recorded hf).2]
      exact Multiset.nodup_range _
    have heq := List.inj_on_of_nodup_map hnd (List.mem_filter.mpr ⟨hd, by simp⟩)
      (List.mem_filter.mpr ⟨hd', by simpa using ho.symm⟩) (hoff.symm.trans (hl.trans hoff'))
    exact congrArg Prod.fst heq
  · obtain ⟨⟨ij, id, offset⟩, hd, hr, rfl⟩ := (hi.mem_offsetsIn hf r l).mp hl
    obtain ⟨e, he, rfl⟩ := List.mem_map.mp (hi.recorded_triplet hs hd)
    obtain ⟨id', offset', hd', _, _, _, hoff⟩ := hentry e he
    have heq := List.inj_on_of_nodup_map (hi.recorded_position hf).1 hd hd' rfl
    simp only [Prod.mk.injEq, true_and] at heq
    exact ⟨e, he, hr, hoff.trans heq.2.symm⟩

def HashFrame.failed (t : Bht (ℕ × ℕ)) : HashFrame → ℕ
  | .inserting _ _ => 0
  | .inserted _ id | .record _ id _ => if id = t.failureToken then 1 else 0

theorem failureToken_lt (hb : 1 < t.bits) : t.failureToken < Bht.sentinel := by
  have hpow : 2 ^ 1 ≤ 2 ^ (t.bits - 1) := Nat.pow_le_pow_right (by decide) (by omega)
  have hcast : (2 : ℤ) ^ (t.bits - 1) = ((2 ^ (t.bits - 1) : ℕ) : ℤ) := by norm_cast
  unfold Bht.failureToken Bht.sentinel
  rw [hcast]
  omega

/-- The result of a failed insertion is taken for an index, until it makes a write go out of range. -/
theorem failed_step (hb : 1 < t.bits) (h : Step (b.hashEntry t) c f x c')
    (hi : c.mem.tab.success = false → c.mem.outOfRange = true ∨ 0 < c.total (HashFrame.failed t)) :
    c'.mem.tab.success = false → c'.mem.outOfRange = true ∨ 0 < c'.total (HashFrame.failed t) := by
  have hlt := failureToken_lt hb
  obtain ⟨fs, r, ha, hr, hr'⟩ := h.measure acts_of_hashEntry (HashFrame.failed t)
  rw [hr] at hi
  rw [hr']
  generalize c.mem = m, c'.mem = m' at ha hi ⊢
  clear h hr hr'
  cases ha with
  | insert ij g tab gs ha =>
    cases ha with
    | near | fail => simp [HashFrame.resume, HashFrame.failed, Bht.Memory.done, Bht.Outcome.value]
    | _ =>
      intro hs
      rcases hi hs with ho | hp
      · exact .inl ho
      · simp only [HashFrame.failed, zero_add] at hp
        refine .inr ?_
        simp only [List.map_cons, List.sum_cons]
        omega
  | present ij =>
    simp only [HashFrame.failed, if_neg (ne_of_gt hlt), zero_add] at hi
    simpa using hi
  | count ij id => simpa [HashFrame.failed] using hi
  | record ij id offset hrange =>
    have hne : id ≠ t.failureToken := by
      unfold Bht.sentinel at hlt
      omega
    simpa [HashFrame.failed, hne, HashMemory.write] using hi
  | uncounted | unrecorded => exact fun _ => .inl rfl

/-- A pass that has failed has written out of range. -/
theorem outOfRange_of_failure (hb : 1 < t.bits) (htable : Bht.Invariant t schedule (insertions c))
    (h : Reaches (b.hashEntry t) free (hashStart t indices activeKeys localOffsets outOfRange schedule) c)
    (hq : Quiescent (b.hashEntry t) c) (hno : c.mem.tab.success = false) : c.mem.outOfRange = true := by
  have hf := hash_returned htable hq
  have hrun : c.mem.tab.success = false → c.mem.outOfRange = true ∨ 0 < c.total (HashFrame.failed t) := by
    clear hq hno hf htable
    induction h with
    | refl => exact fun hs => Bool.noConfusion hs
    | step _ _ hst ih => exact failed_step hb hst ih
  simpa [Config.total, hf] using hrun hno

end Runs

end Zpc.SparseMatrix.Build
