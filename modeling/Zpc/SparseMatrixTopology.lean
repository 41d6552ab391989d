import Zpc.SparseMatrixBuild

/-!
# The builds of the topology only

`build` for doublets, which can add the mirror of each new entry, and `fastBuild`, which gives every doublet and every
mirror a place without looking for repetitions.
-/
namespace Zpc.SparseMatrix
open Interleaving

/-- The constants of a sparse matrix type, and a call of `build` or `fastBuild` for doublets in range. -/
structure Topology where
  rowMajor : Bool
  nrows : ℕ
  ncols : ℕ
  /-- `Mirror`. -/
  mirror : Bool
  doublets : List (ℕ × ℕ)
  bits : ℕ
  hf0 : ℕ × ℕ → ℕ
  hf1 : ℕ × ℕ → ℕ
  hf2 : ℕ × ℕ → ℕ
  inRange : ∀ ij ∈ doublets, ij.1 < nrows ∧ ij.2 < ncols
  /-- The mirrors are in range as well. -/
  square : mirror = true → ∀ ij ∈ doublets, ij.2 < nrows ∧ ij.1 < ncols
  fits : 2 * evaluateTableSize (if mirror then doublets.length * 2 else doublets.length) ≤ 2 ^ bits

namespace Topology
variable (d : Topology)

/-- The entries that the doublets stand for, with repetitions. -/
def entries : List (ℕ × ℕ) := if d.mirror then d.doublets.flatMap fun ij => [ij, ij.swap] else d.doublets

theorem length_entries : d.entries.length = if d.mirror then d.doublets.length * 2 else d.doublets.length := by
  unfold entries
  split
  · rw [List.length_flatMap]
    simp
  · rfl

theorem entries_inRange : ∀ ij ∈ d.entries, ij.1 < d.nrows ∧ ij.2 < d.ncols := by
  intro ij hij
  unfold entries at hij
  split at hij
  · rename_i hm
    obtain ⟨kl, hkl, hij⟩ := List.mem_flatMap.mp hij
    rcases List.mem_pair.mp hij with rfl | rfl
    · exact d.inRange _ hkl
    · exact d.square hm kl hkl
  · exact d.inRange ij hij

/-- The same call as one without values, for the entries. -/
def build : Build Unit where
  rowMajor := d.rowMajor
  nrows := d.nrows
  ncols := d.ncols
  extent := 0
  triplets := d.entries.map fun ij => ⟨ij.1, ij.2, fun _ => ()⟩
  bits := d.bits
  hf0 := d.hf0
  hf1 := d.hf1
  hf2 := d.hf2
  inRange := List.forall_mem_map.mpr d.entries_inRange
  fits := by
    rw [List.length_map, d.length_entries]
    exact d.fits

inductive MirrorFrame
  | doublet (first : Bool) (ij : ℕ × ℕ)
  | entry (first : Bool) (f : Build.HashFrame)

/-- The mirror that a new entry spawns. -/
def spawned : Build.HashFrame → List MirrorFrame
  | .record ij _ _ => if d.mirror ∧ ij.1 ≠ ij.2 then [.doublet false ij.swap] else []
  | _ => []

/-- `_build_hash_entry_mirror`. -/
def hashEntryMirror (t : Bht (ℕ × ℕ)) (m : Build.HashMemory) : MirrorFrame → Unit →
    Option (Build.HashMemory × List MirrorFrame)
  | .doublet first ij, _ => some (m, [.entry first (.inserting ij (.call {key := ij}))])
  | .entry first f, x => (d.build.hashEntry t m f x).map fun r =>
      (r.1, r.2.map (.entry first) ++ if first then d.spawned f else [])

def mirrorStart (t : Bht (ℕ × ℕ)) (indices : ℕ → ℤ) (activeKeys : ℤ → ℕ × ℕ) (localOffsets : ℕ → ℕ)
    (outOfRange : Bool) (schedule : List (List (ℕ × ℕ))) : Config Build.HashMemory MirrorFrame :=
  ⟨⟨t.empty indices activeKeys, fun _ => 0, localOffsets, [], outOfRange⟩, schedule.map (·.map (.doublet true))⟩

/-- A pass in which each item writes one value. -/
def scatter {A : Type*} (place value : A → ℕ) (inds : ℕ → ℕ) (a : A) (_ : Unit) : Option ((ℕ → ℕ) × List A) :=
  some (Function.update inds (place a) (value a), [])

/-- `_build_update_entry`, for the table, the offsets and the scan of the hashing pass. -/
def updateEntry (h : Build.HashMemory) : Code (ℕ → ℕ) ℕ Unit :=
  scatter (fun k => exclusiveScan h.cnts (d.build.outer (h.tab.activeKeys k)) + h.localOffsets k) fun k =>
    d.build.inner (h.tab.activeKeys k)

/-- The matrix that counts and indices make. -/
def matrix (cnts inds : ℕ → ℕ) : SparseMatrix Unit where
  rowMajor := d.rowMajor
  nrows := d.nrows
  ncols := d.ncols
  ptrs := ⟨d.build.nsegs + 1, exclusiveScan cnts⟩
  inds := ⟨exclusiveScan cnts d.build.nsegs, inds⟩
  vals := ⟨0, fun _ => ()⟩

/-- The loop around the hashing pass. -/
inductive Hashed (guard : Guard Build.HashMemory MirrorFrame) : ℕ → (ℕ → ℕ) → Bool → Bht (ℕ × ℕ) →
    Build.HashMemory → Prop
  | done {tabSize : ℕ} {localOffsets : ℕ → ℕ} {outOfRange : Bool} {indices : ℕ → ℤ} {activeKeys : ℤ → ℕ × ℕ}
      {schedule : List (List (ℕ × ℕ))} {c : Config Build.HashMemory MirrorFrame}
      (hf : 2 * evaluateTableSize tabSize ≤ 2 ^ d.build.bits) (hs : schedule.flatten.Perm d.doublets)
      (h : Reaches (d.hashEntryMirror (d.build.table tabSize hf)) guard
        (mirrorStart (d.build.table tabSize hf) indices activeKeys localOffsets outOfRange schedule) c)
      (hq : Quiescent (d.hashEntryMirror (d.build.table tabSize hf)) c) (hok : c.mem.tab.success = true) :
      Hashed guard tabSize localOffsets outOfRange (d.build.table tabSize hf) c.mem
  | retry {tabSize : ℕ} {localOffsets : ℕ → ℕ} {outOfRange : Bool} {indices : ℕ → ℤ} {activeKeys : ℤ → ℕ × ℕ}
      {schedule : List (List (ℕ × ℕ))} {c : Config Build.HashMemory MirrorFrame} {t : Bht (ℕ × ℕ)}
      {m : Build.HashMemory} (hf : 2 * evaluateTableSize tabSize ≤ 2 ^ d.build.bits)
      (hs : schedule.flatten.Perm d.doublets)
      (h : Reaches (d.hashEntryMirror (d.build.table tabSize hf)) guard
        (mirrorStart (d.build.table tabSize hf) indices activeKeys localOffsets outOfRange schedule) c)
      (hq : Quiescent (d.hashEntryMirror (d.build.table tabSize hf)) c) (hno : c.mem.tab.success = false)
      (hr : Hashed guard (tabSize * 2) c.mem.localOffsets c.mem.outOfRange t m) :
      Hashed guard tabSize localOffsets outOfRange t m

/-- A whole run of `build`, which returns only if the table has as many entries as the scan counts. -/
inductive Built (guard : Guard Build.HashMemory MirrorFrame) : Option (SparseMatrix Unit) → Bool → Prop
  | thrown {localOffsets : ℕ → ℕ} {t : Bht (ℕ × ℕ)} {m : Build.HashMemory}
      (h : d.Hashed guard d.entries.length localOffsets false t m)
      (hn : exclusiveScan m.cnts d.build.nsegs ≠ m.tab.cnt) : Built guard none m.outOfRange
  | returned {localOffsets : ℕ → ℕ} {t : Bht (ℕ × ℕ)} {m : Build.HashMemory} {inds : ℕ → ℕ}
      {schedule : List (List ℕ)} {c : Config (ℕ → ℕ) ℕ}
      (h : d.Hashed guard d.entries.length localOffsets false t m)
      (hn : exclusiveScan m.cnts d.build.nsegs = m.tab.cnt)
      (hs : schedule.flatten.Perm (List.range (exclusiveScan m.cnts d.build.nsegs)))
      (hr : Reaches (d.updateEntry m) free ⟨inds, schedule⟩ c) (hq : Quiescent (d.updateEntry m) c) :
      Built guard (some (d.matrix m.cnts c.mem)) m.outOfRange

/-- The entries of an item, each with its place among the offsets. -/
def places (e : (ℕ × ℕ) × ℕ) : List (ℕ × ℕ × ℕ) :=
  (e.2 * 2, e.1) :: if d.mirror ∧ e.1.1 ≠ e.1.2 then [(e.2 * 2 + 1, e.1.swap)] else []

structure RecordMemory where
  cnts : ℕ → ℕ
  localOffsets : ℕ → ℕ
  recorded : List ((ℕ × ℕ × ℕ) × ℕ)

inductive RecordFrame
  | count (e : ℕ × ℕ × ℕ)
  | record (e : ℕ × ℕ × ℕ) (offset : ℕ)

/-- `_fast_build_record_entry`, one entry after the other. -/
def recordEntry (m : RecordMemory) : RecordFrame → Unit → Option (RecordMemory × List RecordFrame)
  | .count e, _ => some ({m with cnts := Function.update m.cnts (d.build.outer e.2) (m.cnts (d.build.outer e.2) + 1)},
      [.record e (m.cnts (d.build.outer e.2))])
  | .record e offset, _ => some ({m with
      localOffsets := Function.update m.localOffsets e.1 offset
      recorded := (e, offset) :: m.recorded}, [])

def recordStart (localOffsets : ℕ → ℕ) (schedule : List (List ((ℕ × ℕ) × ℕ))) : Config RecordMemory RecordFrame :=
  ⟨⟨fun _ => 0, localOffsets, []⟩, schedule.map fun items => (items.flatMap d.places).map .count⟩

/-- `_fast_build_update_entry`, one entry after the other. -/
def fastUpdateEntry (h : RecordMemory) : Code (ℕ → ℕ) (ℕ × ℕ × ℕ) Unit :=
  scatter (fun e => exclusiveScan h.cnts (d.build.outer e.2) + h.localOffsets e.1) fun e => d.build.inner e.2

/-- A whole run of `fastBuild`. In both passes each thread takes some of the doublets. -/
inductive FastBuilt : SparseMatrix Unit → Prop
  | returned {localOffsets inds : ℕ → ℕ} {schedule schedule' : List (List ((ℕ × ℕ) × ℕ))}
      {c : Config RecordMemory RecordFrame} {c' : Config (ℕ → ℕ) (ℕ × ℕ × ℕ)}
      (hs : schedule.flatten.Perm d.doublets.zipIdx)
      (hr : Reaches d.recordEntry free (d.recordStart localOffsets schedule) c) (hq : Quiescent d.recordEntry c)
      (hs' : schedule'.flatten.Perm d.doublets.zipIdx)
      (hr' : Reaches (d.fastUpdateEntry c.mem) free ⟨inds, schedule'.map (·.flatMap d.places)⟩ c')
      (hq' : Quiescent (d.fastUpdateEntry c.mem) c') : FastBuilt (d.matrix c.mem.cnts c'.mem)

end Topology

end Zpc.SparseMatrix

/-!
## The hashing pass with mirrors

Seen without the items that wait, the pass is one that hashes entries which it is given on the way. A new entry spawns
its mirror or is a mirror itself, so that in the end every entry has been hashed.
-/
namespace Zpc.SparseMatrix.Topology
open Interleaving Build

variable {d : Topology} {t : Bht (ℕ × ℕ)} {m m' : HashMemory} {f : MirrorFrame} {x : Unit} {first : Bool} {ij : ℕ × ℕ}
  {c c' : Config HashMemory MirrorFrame}

theorem positions_build (d : Topology) : d.build.triplets.map Triplet.position = d.entries := by
  simp [build, Triplet.position, Function.comp_def]

theorem length_triplets (d : Topology) : d.build.triplets.length = d.entries.length := List.length_map _

theorem mem_entries : ij ∈ d.entries ↔ ij ∈ d.doublets ∨ d.mirror = true ∧ ij.swap ∈ d.doublets := by
  unfold entries
  split
  · rename_i hm
    rw [List.mem_flatMap]
    constructor
    · rintro ⟨kl, hkl, hij⟩
      rcases List.mem_pair.mp hij with rfl | rfl
      · exact .inl hkl
      · exact .inr ⟨hm, hkl⟩
    · rintro (hij | ⟨_, hij⟩)
      · exact ⟨ij, hij, List.mem_cons_self⟩
      · exact ⟨ij.swap, hij, by simp⟩
  · rename_i hm
    simp [hm]

def MirrorFrame.hashing : MirrorFrame → List HashFrame
  | .doublet _ _ => []
  | .entry _ f => [f]

abbrev hashings (c : Config HashMemory MirrorFrame) : Config HashMemory HashFrame := c.project id MirrorFrame.hashing

/-- No insertion is about to fail. -/
def hasSlot : Guard HashMemory MirrorFrame := fun _ f => ∀ first ij a, f ≠ .entry first (.inserting ij (.fail a))

/-- A frame works on a doublet, or on the mirror of one. -/
def MirrorFrame.Of (d : Topology) : MirrorFrame → Prop
  | .doublet true ij => ij ∈ d.doublets
  | .doublet false ij => d.mirror = true ∧ ij.swap ∈ d.doublets
  | .entry true f => f.position ∈ d.doublets
  | .entry false f => d.mirror = true ∧ f.position.swap ∈ d.doublets

theorem MirrorFrame.Of.mem_entries (h : MirrorFrame.Of d (.doublet first ij)) : ij ∈ d.entries := by
  cases first with
  | true => exact Topology.mem_entries.mpr (.inl h)
  | false => exact Topology.mem_entries.mpr (.inr h)

structure MirrorInvariant (d : Topology) (t : Bht (ℕ × ℕ)) (called : List (List (ℕ × ℕ)))
    (c : Config HashMemory MirrorFrame) : Prop where
  hash : HashInvariant d.build t called (hashings c)
  entries : called.flatten ⊆ d.entries
  of : ∀ f ∈ c.frames, f.Of d
  onTop : c.OnlyTop fun f => ∃ first g, f = .entry first g
  begun : ∀ ij ∈ d.doublets, ij ∈ called.flatten ∨ .doublet true ij ∈ c.frames
  spawned : ∀ e ∈ c.mem.recorded, d.mirror = true → e.1.1 ≠ e.1.2 →
    e.1.swap ∈ d.doublets ∨ e.1.swap ∈ called.flatten ∨ .doublet false e.1.swap ∈ c.frames

section Step
variable {called : List (List (ℕ × ℕ))} {before after : List (List MirrorFrame)} {k : List MirrorFrame} {f : HashFrame}

theorem MirrorInvariant.rest (hi : MirrorInvariant d t called ⟨m, before ++ (g :: k) :: after⟩) :
    k.flatMap MirrorFrame.hashing = [] := by
  refine List.flatMap_eq_nil_iff.mpr fun f hf => ?_
  have hf := hi.onTop (g :: k) (by simp) f hf
  cases f with
  | doublet first ij => rfl
  | entry first f => exact absurd ⟨first, f, rfl⟩ hf

/-- An item begins with its insertion. -/
theorem begin_step (hk : ∀ ij ∈ d.entries, ij ≠ t.keySentinel)
    (hi : MirrorInvariant d t called ⟨m, before ++ (.doublet first ij :: k) :: after⟩) :
    MirrorInvariant d t ([ij] :: called)
      ⟨m, before ++ (.entry first (.inserting ij (.call {key := ij})) :: k) :: after⟩ := by
  have hmem : ij ∈ d.entries := (hi.of _ (mem_spawn.mpr (.inl rfl))).mem_entries
  have hrest := hi.rest
  have hhash := hi.hash
  simp only [hashings, Config.project, List.map_append, List.map_cons, List.flatMap_cons, MirrorFrame.hashing,
    List.nil_append, hrest] at hhash
  have hof := hi.of
  have hstep : Step (d.hashEntryMirror t) ⟨m, before ++ (.doublet first ij :: k) :: after⟩ (.doublet first ij) ()
      ⟨m, before ++ ([.entry first (.inserting ij (.call {key := ij}))] ++ k) :: after⟩ := .run before after rfl
  refine ⟨?_, ?_, ?_, ?_, fun kl hkl => ?_, fun e he hm hne => ?_⟩
  · simp only [hashings, Config.project, List.map_append, List.map_cons, List.flatMap_cons, MirrorFrame.hashing, hrest,
      List.append_nil]
    exact hhash.spawn (hk ij hmem) (positions_build d ▸ hmem)
  · exact List.append_subset.mpr ⟨fun kl hkl => List.mem_singleton.mp hkl ▸ hmem, hi.entries⟩
  · refine forall_spawn ?_ fun g hg => hof g (mem_spawn.mpr (.inr hg))
    have hitem := hof _ (mem_spawn.mpr (.inl rfl))
    cases first <;> exact hitem
  · refine hstep.onlyTop hi.onTop fun fs he => ?_
    obtain rfl := (Prod.ext_iff.mp (Option.some.inj he)).2
    exact List.forall_mem_nil _
  · rcases hi.begun kl hkl with hc | hf
    · exact .inl (List.mem_append_right _ hc)
    · rcases mem_spawn.mp hf with heq | hf
      · obtain rfl : kl = ij := (MirrorFrame.doublet.inj heq).2
        exact .inl List.mem_cons_self
      · exact .inr (mem_spawn.mpr (.inr hf))
  · rcases hi.spawned e he hm hne with hd | hc | hf
    · exact .inl hd
    · exact .inr (.inl (List.mem_append_right _ hc))
    · rcases mem_spawn.mp hf with heq | hf
      · obtain rfl : e.1.swap = ij := (MirrorFrame.doublet.inj heq).2
        exact .inr (.inl List.mem_cons_self)
      · exact .inr (.inr (mem_spawn.mpr (.inr hf)))

theorem hashing_map (first : Bool) (fs : List HashFrame) :
    (fs.map (MirrorFrame.entry first)).flatMap MirrorFrame.hashing = fs := by
  rw [List.flatMap_map]
  exact List.flatMap_singleton' fs

theorem hashing_spawned (d : Topology) (f : HashFrame) : (d.spawned f).flatMap MirrorFrame.hashing = [] := by
  unfold spawned
  split
  · split <;> rfl
  · rfl

theorem hashing_new (d : Topology) (first : Bool) (f : HashFrame) (fs : List HashFrame) :
    (fs.map (MirrorFrame.entry first) ++ if first then d.spawned f else []).flatMap MirrorFrame.hashing = fs := by
  rw [List.flatMap_append, hashing_map]
  split
  · rw [hashing_spawned, List.append_nil]
  · exact List.append_nil fs

/-- An action on an entry is one of the pass without mirrors. -/
theorem hashing_step (h : Step (d.hashEntryMirror t) c (.entry first f) x c') :
    Step (d.build.hashEntry t) (hashings c) f x (hashings c') := by
  obtain ⟨before, after, he⟩ := h
  obtain ⟨⟨m', fs⟩, hrun, hr⟩ := Option.map_eq_some_iff.mp he
  simp only [Prod.mk.injEq] at hr
  obtain ⟨rfl, rfl⟩ := hr
  simp only [hashings, Config.project, List.map_append, List.map_cons, List.flatMap_cons,
    MirrorFrame.hashing]
  rw [List.flatMap_append, hashing_new]
  exact .run _ _ hrun

theorem recorded_step {h h' : HashMemory} {fs : List HashFrame} (ha : HashActs d.build t h f h' fs) :
    h'.recorded = h.recorded ∨ ∃ ij id offset, f = .record ij id offset ∧ h'.recorded = (ij, id, offset) :: h.recorded := by
  cases ha with
  | record ij id offset hr => exact .inr ⟨ij, id, offset, rfl, rfl⟩
  | _ => exact .inl rfl

theorem position_new {h h' : HashMemory} {fs : List HashFrame} (ha : HashActs d.build t h f h' fs) :
    ∀ g ∈ fs, g.position = f.position := by
  cases ha with
  | insert ij f tab fs => exact List.forall_mem_singleton.mpr (position_resume ij tab fs)
  | count ij id => exact List.forall_mem_singleton.mpr rfl
  | _ => exact List.forall_mem_nil _

theorem length_new {h h' : HashMemory} {fs : List HashFrame} (ha : HashActs d.build t h f h' fs) : fs.length ≤ 1 := by
  cases ha <;> simp

theorem forall_tail_new {P : MirrorFrame → Prop} {fs : List HashFrame} {waiting : List MirrorFrame}
    (hn : fs.length ≤ 1) (hw : ∀ g ∈ waiting, P g) : ∀ g ∈ (fs.map (MirrorFrame.entry first) ++ waiting).tail, P g := by
  match fs, hn with
  | [], _ => exact fun g hg => hw g (List.mem_of_mem_tail hg)
  | [_], _ => exact hw

theorem spawned_waits (d : Topology) (f : HashFrame) : ∀ g ∈ d.spawned f, ¬ ∃ first f', g = .entry first f' := by
  unfold spawned
  split
  · split
    · exact List.forall_mem_singleton.mpr nofun
    · exact List.forall_mem_nil _
  · exact List.forall_mem_nil _

theorem spawned_of (d : Topology) (hf : f.position ∈ d.doublets) : ∀ g ∈ d.spawned f, g.Of d := by
  unfold spawned
  split
  · split
    · rename_i h
      exact List.forall_mem_singleton.mpr ⟨h.1, by simpa [HashFrame.position] using hf⟩
    · exact List.forall_mem_nil _
  · exact List.forall_mem_nil _

theorem entry_step (hroom : d.build.triplets ≠ [] → d.build.triplets.length + 20 < t.tableSize)
    (hi : MirrorInvariant d t called c) (hg : hasSlot c (.entry first f))
    (h : Step (d.hashEntryMirror t) c (.entry first f) x c') : MirrorInvariant d t called c' := by
  have hstep := hashing_step h
  have hsub : called.flatten ⊆ d.build.triplets.map Triplet.position := by
    rw [positions_build]
    exact hi.entries
  have hframe := hi.of _ h.mem_frame
  obtain ⟨fs, he⟩ := h.runs_code
  have hcode := he
  obtain ⟨⟨m', gs⟩, hgs, hr⟩ := Option.map_eq_some_iff.mp hcode
  simp only [Prod.mk.injEq] at hr
  obtain ⟨hmem, rfl⟩ := hr
  have ha := acts_of_hashEntry hgs
  refine ⟨hashInvariant_step hroom hsub hstep (fun ij a hf => hg first ij a (hf ▸ rfl)) hi.hash, hi.entries, ?_, ?_,
    fun ij hij => ?_, fun e hmem' hm hne => ?_⟩
  · refine h.all hi.of (fun fs he' => ?_) fun _ _ hg => hg
    obtain rfl := (Prod.ext_iff.mp (Option.some.inj (he.symm.trans he'))).2
    refine List.forall_mem_append.mpr ⟨fun g hg => ?_, ?_⟩
    · obtain ⟨g, hg', rfl⟩ := List.mem_map.mp hg
      have hpos := position_new ha g hg'
      cases first with
      | true => exact (congrArg (· ∈ d.doublets) hpos).mpr hframe
      | false => exact ⟨hframe.1, (congrArg (Prod.swap · ∈ d.doublets) hpos).mpr hframe.2⟩
    · cases first with
      | true => exact spawned_of d hframe
      | false => exact List.forall_mem_nil _
  · refine h.onlyTop hi.onTop fun fs he' => ?_
    obtain rfl := (Prod.ext_iff.mp (Option.some.inj (he.symm.trans he'))).2
    have hwaits : ∀ g ∈ if first then d.spawned f else [], ¬ ∃ first f', g = .entry first f' := by
      cases first with
      | true => exact spawned_waits d f
      | false => exact List.forall_mem_nil _
    exact forall_tail_new (length_new ha) hwaits
  · exact (hi.begun ij hij).imp_right fun hf => h.mem_of_ne hf nofun
  · have hold : e ∈ c.mem.recorded → e.1.swap ∈ d.doublets ∨ e.1.swap ∈ called.flatten ∨
        .doublet false e.1.swap ∈ c'.frames := fun he =>
      (hi.spawned e he hm hne).imp_right (Or.imp_right fun hf => h.mem_of_ne hf nofun)
    rw [← hmem] at hmem'
    rcases recorded_step ha with hr | ⟨ij, id, offset, rfl, hr⟩
    · exact hold (hr ▸ hmem')
    · rcases List.mem_cons.mp (hr ▸ hmem') with rfl | he'
      · cases first with
        | true =>
          refine .inr (.inr (h.mem_of_new he (List.mem_append_right _ ?_)))
          simp only [if_true, spawned, if_pos (And.intro hm hne)]
          exact List.mem_singleton_self _
        | false => exact .inl hframe.2
      · exact hold he'

theorem mirror_step (hroom : d.build.triplets ≠ [] → d.build.triplets.length + 20 < t.tableSize)
    (hk : ∀ ij ∈ d.entries, ij ≠ t.keySentinel) {f : MirrorFrame} (hi : ∃ called, MirrorInvariant d t called c)
    (hg : hasSlot c f) (h : Step (d.hashEntryMirror t) c f x c') : ∃ called, MirrorInvariant d t called c' := by
  obtain ⟨called, hi⟩ := hi
  cases f with
  | entry first f => exact ⟨called, entry_step hroom hi hg h⟩
  | doublet first ij =>
    obtain ⟨before, after, he⟩ := h
    obtain ⟨rfl, rfl⟩ := Prod.ext_iff.mp (Option.some.inj he)
    exact ⟨_, begin_step hk hi⟩

end Step

section Runs
variable {indices : ℕ → ℤ} {activeKeys : ℤ → ℕ × ℕ} {localOffsets : ℕ → ℕ} {schedule : List (List (ℕ × ℕ))}

theorem mirror_start (hs : schedule.flatten.Perm d.doublets) :
    MirrorInvariant d t (schedule.map fun _ => []) (mirrorStart t indices activeKeys localOffsets false schedule) := by
  have hnone : (schedule.map fun _ => ([] : List (ℕ × ℕ))).flatten = [] := by simp
  have hstart : hashings (mirrorStart t indices activeKeys localOffsets false schedule) =
      hashStart t indices activeKeys localOffsets false (schedule.map fun _ => []) := by
    simp only [hashings, Config.project, mirrorStart, hashStart, List.map_map, Config.mk.injEq]
    refine ⟨rfl, List.map_congr_left fun items _ => ?_⟩
    refine List.flatMap_eq_nil_iff.mpr fun f hf => ?_
    obtain ⟨ij, _, rfl⟩ := List.mem_map.mp hf
    rfl
  have hframes : (mirrorStart t indices activeKeys localOffsets false schedule).frames =
      schedule.flatten.map (.doublet true) := List.map_flatten.symm
  have hmem : ∀ f ∈ (mirrorStart t indices activeKeys localOffsets false schedule).frames, ∃ ij ∈ d.doublets,
      f = .doublet true ij := fun f hf => by
    rw [hframes] at hf
    obtain ⟨ij, hij, rfl⟩ := List.mem_map.mp hf
    exact ⟨ij, hs.mem_iff.mp hij, rfl⟩
  refine ⟨?_, by rw [hnone]; exact List.nil_subset _, fun f hf => ?_, fun k hk f hf => ?_, fun ij hij => .inr ?_, fun e he => ?_⟩
  · rw [hstart]
    refine hashInvariant_start (by rw [hnone]; exact List.nil_subset _) ?_
    rw [insertions_start]
    exact Bht.invariant_start (by rw [hnone]; exact List.forall_mem_nil _)
  · obtain ⟨ij, hij, rfl⟩ := hmem f hf
    exact hij
  · obtain ⟨ij, _, rfl⟩ := hmem f (List.mem_flatten.mpr ⟨k, hk, List.mem_of_mem_tail hf⟩)
    rintro ⟨_, _, he⟩
    cases he
  · rw [hframes]
    exact List.mem_map_of_mem (hs.mem_iff.mpr hij)
  · cases he

theorem mirror_reaches (hroom : d.build.triplets ≠ [] → d.build.triplets.length + 20 < t.tableSize)
    (hk : ∀ ij ∈ d.entries, ij ≠ t.keySentinel) (hs : schedule.flatten.Perm d.doublets)
    (h : Reaches (d.hashEntryMirror t) hasSlot (mirrorStart t indices activeKeys localOffsets false schedule) c) :
    ∃ called, MirrorInvariant d t called c := by
  induction h with
  | refl => exact ⟨_, mirror_start hs⟩
  | step _ hg hst ih => exact mirror_step hroom hk ih hg hst

theorem hashings_quiescent (hq : Quiescent (d.hashEntryMirror t) c) : Quiescent (d.build.hashEntry t) (hashings c) := by
  refine quiescent_of_blocked fun g k hk x => ?_
  obtain ⟨fs, hfs, he⟩ := List.mem_map.mp hk
  cases fs with
  | nil => cases he
  | cons f fs =>
    have hb := hq.blocked hfs x
    cases f with
    | doublet first ij => cases hb
    | entry first f =>
      obtain rfl : f = g := (List.cons_eq_cons.mp he).1
      exact Option.map_eq_none_iff.mp hb

/-- With nothing left to do, the pass is over. -/
theorem mirror_returned {called : List (List (ℕ × ℕ))} (hi : MirrorInvariant d t called c)
    (hq : Quiescent (d.hashEntryMirror t) c) : c.frames = [] := by
  have hempty := hash_returned hi.hash.table (hashings_quiescent hq)
  rw [frames_project] at hempty
  refine hq.returned_of_acts fun f k hk hblocked => ?_
  cases f with
  | doublet first ij => cases hblocked ()
  | entry first f =>
    have hmem : MirrorFrame.entry first f ∈ c.frames := List.mem_flatten.mpr ⟨_, hk, List.mem_cons_self⟩
    exact absurd (List.flatMap_eq_nil_iff.mp hempty _ hmem) (List.cons_ne_nil _ _)

/-- In the end every entry has been hashed, and has an offset of its own in its line. -/
theorem MirrorInvariant.counted {called : List (List (ℕ × ℕ))} (hi : MirrorInvariant d t called c)
    (hq : Quiescent (d.hashEntryMirror t) c) : Counted d.build t c.mem := by
  have hf := mirror_returned hi hq
  have hqh := hashings_quiescent hq
  have hfh := hash_returned hi.hash.table hqh
  have hsub : called.flatten ⊆ d.build.triplets.map Triplet.position := by
    rw [positions_build]
    exact hi.entries
  have hcalled : ∀ ij ∈ d.doublets, ij ∈ called.flatten := fun ij hij => by
    rcases hi.begun ij hij with hc | hm
    · exact hc
    · rw [hf] at hm
      cases hm
  refine hi.hash.counted hsub (fun ij hij => ?_) hqh
  rw [positions_build] at hij
  rcases mem_entries.mp hij with hij | ⟨hm, hij⟩
  · exact hcalled ij hij
  · by_cases hne : ij.1 = ij.2
    · have hswap : ij.swap = ij := Prod.ext hne.symm hne
      exact hcalled ij (hswap ▸ hij)
    · obtain ⟨id, offset, hrec, -⟩ :=
        hi.hash.entry_of_called hsub hfh (insertions_quiescent hqh) ij.swap (hcalled _ hij)
      rcases hi.spawned _ hrec hm (Ne.symm hne) with hd | hc | hfr
      · exact hcalled ij hd
      · exact hc
      · rw [hf] at hfr
        cases hfr

end Runs

end Zpc.SparseMatrix.Topology
