import Zpc.VirtualMemory

/-!
# Residency of virtual memory

What the calls of the arena and of the stack say about the bytes that can be used, after any commits and evictions.
-/
namespace Zpc.VirtualMemory
open WordBits

section Runs
/-- The end of the range is below `2 ^ 64`. -/
def Fits (offset bytes : Word) : Prop := offset.toNat + bytes.toNat < 2 ^ 64

def Op.Fits : Op → Prop
  | .commit offset bytes => VirtualMemory.Fits offset bytes
  | .evict offset bytes => VirtualMemory.Fits offset bytes

def inRange (offset bytes : Word) : Set ℕ := Set.Ico offset.toNat (offset.toNat + bytes.toNat)

/-- The chunk of the byte is committed and not evicted since. -/
def Committed (pages : Pages) (x : ℕ) : Prop :=
  ∀ y, y / chunkGranularity.toNat = x / chunkGranularity.toNat → pages y = true

variable {σ : Type} {v : Vmr σ} {offset bytes : Word}

/-- What the calls have in common, in one state. -/
structure Vmr.Meets (v : Vmr σ) (s : σ) : Prop where
  checked : ∀ offset bytes, Fits offset bytes → ∃ r, v.checkResidency s offset bytes = some r ∧
    (r = true → ∀ x ∈ inRange offset bytes, x < (v.reservedSpace s).toNat → Committed (v.pages s) x)
  committed : ∀ offset bytes, Fits offset bytes → ∃ r s', v.commit s offset bytes = some (r, s') ∧
    (r = true → v.checkResidency s' offset bytes = some true)
  evicted : ∀ offset bytes, Fits offset bytes → (v.evict s offset bytes).isSome

/-- What an eviction leaves alone, unless its start has no chunk boundary above. -/
def Vmr.EvictsInside (v : Vmr σ) (s : σ) : Prop :=
  ∀ offset bytes, Fits offset bytes → offset.toNat ≤ 2 ^ 64 - chunkGranularity.toNat →
    ∀ r s', v.evict s offset bytes = some (r, s') → ∀ x ∉ inRange offset bytes,
      Committed (v.pages s) x → Committed (v.pages s') x

def Vmr.StartsInside (v : Vmr σ) (s : σ) : Prop :=
  ∀ offset bytes, Fits offset bytes → v.checkResidency s offset bytes = some true →
    offset.toNat < (v.reservedSpace s).toNat

theorem toNat_end (h : Fits offset bytes) : (offset + bytes).toNat = offset.toNat + bytes.toNat := by
  rw [BitVec.toNat_add, Nat.mod_eq_of_lt h]

theorem Vmr.run_of_step {P : σ → Prop} (hstep : ∀ s op, P s → op.Fits → ∃ s', v.step s op = some s' ∧ P s')
    (ops : List Op) {s : σ} (hs : P s) (hops : ∀ op ∈ ops, op.Fits) : ∃ s', v.run s ops = some s' ∧ P s' := by
  induction ops generalizing s with
  | nil => exact ⟨s, rfl, hs⟩
  | cons op ops ih =>
    obtain ⟨hop, hops⟩ := List.forall_mem_cons.mp hops
    obtain ⟨s', hrun, hs'⟩ := hstep s op hs hop
    rw [run, hrun]
    exact ih hs' hops

theorem mem_chunk_range {st ed x : ℕ} (hst : 2 ^ 21 ∣ st) (hed : 2 ^ 21 ∣ ed) :
    (st / 2 ^ 21 ≤ x / 2 ^ 21 ∧ x / 2 ^ 21 < ed / 2 ^ 21) ↔ st ≤ x ∧ x < ed := by
  omega

theorem mprotect_apply (pages : Pages) {st ed : Word} (hle : st.toNat ≤ ed.toNat) (access : Bool) (x : ℕ) :
    mprotect pages st (ed - st) access x = if st.toNat ≤ x ∧ x < ed.toNat then access else pages x := by
  rw [mprotect, BitVec.toNat_sub_of_le hle, Nat.add_sub_cancel' hle]

namespace Arena
/-- A byte can be used when the bit of its chunk is set. -/
structure Synced (a : Arena) : Prop where
  dvd : 2 ^ 21 ∣ a.reservedSpace.toNat
  length : a.activeChunkMasks.length = (a.reservedSpace.toNat / 2 ^ 21 + 63) / 64
  pages : ∀ x < a.reservedSpace.toNat, a.pages x = active a.activeChunkMasks (x / 2 ^ 21)

variable {a : Arena} {st ed : Word} {f : Word → Word → Word} {access : Bool}

theorem Synced.create (space : Word) : Synced (create space) where
  dvd := dvd_roundUp space
  length := List.length_replicate
  pages x _ := by
    have hzero : ∀ n i : ℕ, (List.replicate n 0#64).getD i 0#64 = 0#64 := fun n i => by
      rw [List.getD_eq_getElem?_getD, List.getElem?_replicate]
      split_ifs <;> rfl
    simp only [Arena.create, active, bitAt, hzero, BitVec.getLsbD_zero]

theorem Synced.index_lt (ha : Synced a) {c : ℕ} (hc : c < a.reservedSpace.toNat / 2 ^ 21) :
    c / 64 < a.activeChunkMasks.length := by
  have hlen := ha.length
  omega

theorem Synced.committed_iff (ha : Synced a) {x : ℕ} (hx : x < a.reservedSpace.toNat) :
    Committed a.pages x ↔ active a.activeChunkMasks (x / 2 ^ 21) = true := by
  have hdvd := ha.dvd
  unfold Committed
  rw [toNat_chunkGranularity]
  constructor
  · intro h
    rw [← ha.pages x hx]
    exact h x rfl
  · intro h y hy
    rw [ha.pages y (by omega), hy, h]

theorem Synced.chunks_lt (ha : Synced a) (hle : st.toNat ≤ ed.toNat) (hed : ed.toNat ≤ a.reservedSpace.toNat) :
    ∀ c ∈ chunks st ed, c.toNat / 64 < a.activeChunkMasks.length := by
  intro c hc
  have hin := (mem_chunks hle c).mp hc
  exact ha.index_lt (by omega)

theorem Synced.testLoop (ha : Synced a) (hle : st.toNat ≤ ed.toNat) (hed : ed.toNat ≤ a.reservedSpace.toNat) :
    ∃ r, testLoop a.activeChunkMasks (chunks st ed) = some r ∧ (r = true ↔
      ∀ c, st.toNat / 2 ^ 21 ≤ c → c < ed.toNat / 2 ^ 21 → active a.activeChunkMasks c = true) := by
  obtain ⟨r, hr, hiff⟩ := testLoop_spec (ha.chunks_lt hle hed)
  refine ⟨r, hr, hiff.trans ⟨fun h c hlow hhigh => ?_, fun h c hc => ?_⟩⟩
  · have hlt := ed.isLt
    have hc : (BitVec.ofNat 64 c).toNat = c := by rw [BitVec.toNat_ofNat, Nat.mod_eq_of_lt (by omega)]
    rw [← hc]
    exact h _ ((mem_chunks hle _).mpr (by rw [hc]; exact ⟨hlow, hhigh⟩))
  · have hin := (mem_chunks hle c).mp hc
    exact h _ hin.1 hin.2

/-- Bits and pages of the same chunks are given the same value. -/
theorem Synced.updateLoop (ha : Synced a) (hf : ∀ mask c r, r < 64 →
      (f mask (chunkBit c)).getLsbD r = if r = c.toNat % 64 then access else mask.getLsbD r)
    (hst : 2 ^ 21 ∣ st.toNat) (hdvd : 2 ^ 21 ∣ ed.toNat) (hle : st.toNat ≤ ed.toNat)
    (hed : ed.toNat ≤ a.reservedSpace.toNat) :
    ∃ masks, updateLoop f a.activeChunkMasks (chunks st ed) = some masks ∧
      Synced ⟨a.reservedSpace, masks, mprotect a.pages st (ed - st) access⟩ ∧
      ∀ c, active masks c = if st.toNat / 2 ^ 21 ≤ c ∧ c < ed.toNat / 2 ^ 21 then access
        else active a.activeChunkMasks c := by
  obtain ⟨masks, hrun, hlen, hbits⟩ := updateLoop_spec hf (ha.chunks_lt hle hed)
  have hbits : ∀ c, active masks c = if st.toNat / 2 ^ 21 ≤ c ∧ c < ed.toNat / 2 ^ 21 then access
      else active a.activeChunkMasks c := by
    intro c
    rw [hbits]
    refine if_congr ⟨?_, fun hin => ?_⟩ rfl rfl
    · rintro ⟨d, hd, rfl⟩
      exact (mem_chunks hle d).mp hd
    · have hlt := ed.isLt
      have hc : (BitVec.ofNat 64 c).toNat = c := by rw [BitVec.toNat_ofNat, Nat.mod_eq_of_lt (by omega)]
      exact ⟨BitVec.ofNat 64 c, (mem_chunks hle _).mpr (by rwa [hc]), hc⟩
  refine ⟨masks, hrun, ⟨ha.dvd, hlen.trans ha.length, fun x hx => ?_⟩, hbits⟩
  rw [hbits, if_congr (mem_chunk_range hst hdvd) rfl rfl, ← ha.pages x hx]
  exact mprotect_apply a.pages hle access x

theorem getLsbD_or_chunkBit (mask c : Word) {r : ℕ} (hr : r < 64) :
    (mask ||| chunkBit c).getLsbD r = if r = c.toNat % 64 then true else mask.getLsbD r := by
  rw [BitVec.getLsbD_or, getLsbD_chunkBit c hr]
  split_ifs with h
  · rw [decide_eq_true h, Bool.or_true]
  · rw [decide_eq_false h, Bool.or_false]

theorem getLsbD_and_not_chunkBit (mask c : Word) {r : ℕ} (hr : r < 64) :
    (mask &&& ~~~chunkBit c).getLsbD r = if r = c.toNat % 64 then false else mask.getLsbD r := by
  rw [BitVec.getLsbD_and, BitVec.getLsbD_not, getLsbD_chunkBit c hr, decide_eq_true hr, Bool.true_and]
  split_ifs with h
  · rw [decide_eq_true h, Bool.not_true, Bool.and_false]
  · rw [decide_eq_false h, Bool.not_false, Bool.and_true]

theorem Synced.le_roundDown_iff (ha : Synced a) (n : Word) :
    a.reservedSpace ≤ roundDown n chunkGranularity ↔ a.reservedSpace.toNat ≤ n.toNat := by
  have hdvd := ha.dvd
  have hdown := roundDown_div n
  have hdvd' := dvd_roundDown n
  rw [BitVec.le_def]
  omega

theorem Synced.start_le_end (ha : Synced a) (hfit : Fits offset bytes) (hin : offset.toNat < a.reservedSpace.toNat) :
    (roundDown offset chunkGranularity).toNat ≤ (clippedEnd a.reservedSpace (offset + bytes)).toNat := by
  have hend := (clippedEnd_spec ha.dvd (offset + bytes)).2.2
  have hdown := roundDown_div offset
  have hdvd := dvd_roundDown offset
  rw [toNat_end hfit] at hend
  omega

theorem Synced.checkResidency (ha : Synced a) (hfit : Fits offset bytes) :
    ∃ r, a.checkResidency offset bytes = some r ∧ (r = true ↔ offset.toNat < a.reservedSpace.toNat ∧
      ∀ c, offset.toNat / 2 ^ 21 ≤ c → c < (clippedEnd a.reservedSpace (offset + bytes)).toNat / 2 ^ 21 →
        active a.activeChunkMasks c = true) := by
  unfold Arena.checkResidency
  simp only [ha.le_roundDown_iff]
  split_ifs with hout
  · exact ⟨false, rfl, nofun, fun h => absurd h.1 (Nat.not_lt.mpr hout)⟩
  · have hin := Nat.lt_of_not_le hout
    obtain ⟨r, hr, hiff⟩ := ha.testLoop (ha.start_le_end hfit hin) (clippedEnd_spec ha.dvd (offset + bytes)).2.1
    rw [roundDown_div] at hiff
    exact ⟨r, hr, hiff.trans ⟨fun h => ⟨hin, h⟩, And.right⟩⟩

theorem Synced.commit (ha : Synced a) (hfit : Fits offset bytes) :
    ∃ r a', a.commit offset bytes = some (r, a') ∧ Synced a' ∧
      (r = true → a'.checkResidency offset bytes = some true) := by
  unfold Arena.commit
  simp only [ha.le_roundDown_iff]
  split_ifs with hout
  · exact ⟨false, a, rfl, ha, nofun⟩
  · have hin := Nat.lt_of_not_le hout
    obtain ⟨hdvd, hle, _⟩ := clippedEnd_spec ha.dvd (offset + bytes)
    obtain ⟨masks, hrun, hsynced, hbits⟩ := ha.updateLoop (f := (· ||| ·))
      (fun mask c r hr => getLsbD_or_chunkBit mask c hr) (dvd_roundDown offset) hdvd (ha.start_le_end hfit hin) hle
    refine ⟨true, _, by rw [hrun]; rfl, hsynced, fun _ => ?_⟩
    obtain ⟨r, hr, hiff⟩ := hsynced.checkResidency hfit
    rw [hr, hiff.mpr ⟨hin, fun c hlow hhigh => ?_⟩]
    rw [roundDown_div] at hbits
    exact (hbits c).trans (if_pos ⟨hlow, hhigh⟩)

theorem Synced.evict (ha : Synced a) (hfit : Fits offset bytes) :
    ∃ r a', a.evict offset bytes = some (r, a') ∧ Synced a' ∧ (offset.toNat ≤ 2 ^ 64 - chunkGranularity.toNat →
      ∀ x ∉ inRange offset bytes, Committed a.pages x → Committed a'.pages x) := by
  have hed : ∃ ed : Word, ed = (if offset + bytes ≤ a.reservedSpace then roundDown (offset + bytes) chunkGranularity
      else a.reservedSpace) ∧ 2 ^ 21 ∣ ed.toNat ∧ ed.toNat ≤ a.reservedSpace.toNat ∧
      ed.toNat ≤ offset.toNat + bytes.toNat := by
    refine ⟨_, rfl, ?_⟩
    rw [← toNat_end hfit]
    split_ifs with hle
    · have hle : (offset + bytes).toNat ≤ a.reservedSpace.toNat := hle
      have hdown := AlignedBlocks.roundDown_le (offset + bytes).toNat (2 ^ 21)
      rw [← toNat_roundDown] at hdown
      exact ⟨dvd_roundDown _, Nat.le_trans hdown hle, hdown⟩
    · have hlt : a.reservedSpace.toNat < (offset + bytes).toNat := BitVec.not_le.mp hle
      exact ⟨ha.dvd, Nat.le_refl _, Nat.le_of_lt hlt⟩
  obtain ⟨ed, heq, hdvd, hle, hend⟩ := hed
  unfold Arena.evict
  simp only [← heq]
  split_ifs with hempty
  · exact ⟨false, a, rfl, ha, fun _ _ _ h => h⟩
  · have hlt : (roundUp offset chunkGranularity).toNat < ed.toNat := BitVec.not_le.mp hempty
    obtain ⟨masks, hrun, hsynced, _⟩ := ha.updateLoop (f := fun mask b => mask &&& ~~~b)
      (fun mask c r hr => getLsbD_and_not_chunkBit mask c hr) (dvd_roundUp offset) hdvd (Nat.le_of_lt hlt) hle
    refine ⟨true, _, by rw [hrun]; rfl, hsynced, fun hroom x hout hx y hy => ?_⟩
    have hstart : offset.toNat ≤ (roundUp offset chunkGranularity).toNat := le_roundUp hroom
    have hx' : ¬ (offset.toNat ≤ x ∧ x < offset.toNat + bytes.toNat) := hout
    have hdvd' := dvd_roundUp offset
    rw [toNat_chunkGranularity] at hy
    show mprotect a.pages _ _ false y = true
    rw [mprotect_apply _ (Nat.le_of_lt hlt), if_neg (by omega)]
    exact hx y hy

theorem Synced.meets (ha : Synced a) : vmr.Meets a where
  checked offset bytes hfit := by
    obtain ⟨r, hr, hiff⟩ := ha.checkResidency hfit
    refine ⟨r, hr, fun htrue x hx hlt => ?_⟩
    obtain ⟨_, hall⟩ := hiff.mp htrue
    obtain ⟨hdvd, _, hend⟩ := clippedEnd_spec ha.dvd (offset + bytes)
    have hlt : x < a.reservedSpace.toNat := hlt
    have hlow : offset.toNat ≤ x := hx.1
    have hhigh : x < offset.toNat + bytes.toNat := hx.2
    rw [toNat_end hfit] at hend
    exact (ha.committed_iff hlt).mpr (hall _ (by omega) (by omega))
  committed offset bytes hfit := by
    obtain ⟨r, a', hrun, _, htrue⟩ := ha.commit hfit
    exact ⟨r, a', hrun, htrue⟩
  evicted offset bytes hfit := by
    obtain ⟨r, a', hrun, _⟩ := ha.evict hfit
    exact Option.isSome_of_eq_some hrun

theorem Synced.startsInside (ha : Synced a) : vmr.StartsInside a := by
  intro offset bytes hfit htrue
  obtain ⟨r, hr, hiff⟩ := ha.checkResidency hfit
  have hr' : r = true := Option.some.inj (hr.symm.trans htrue)
  exact (hiff.mp hr').1

theorem Synced.evictsInside (ha : Synced a) : vmr.EvictsInside a := by
  intro offset bytes hfit hroom r s' hevict
  obtain ⟨_, _, hrun, _, hkept⟩ := ha.evict hfit
  obtain ⟨rfl, rfl⟩ : _ = r ∧ _ = s' := by simpa using hrun.symm.trans hevict
  exact hkept hroom

theorem Synced.step (ha : Synced a) {op : Op} (hop : op.Fits) : ∃ a', vmr.step a op = some a' ∧ Synced a' := by
  cases op with
  | commit offset bytes =>
    obtain ⟨r, a', hrun, hsynced, _⟩ := ha.commit hop
    exact ⟨a', congrArg (Option.map Prod.snd) hrun, hsynced⟩
  | evict offset bytes =>
    obtain ⟨r, a', hrun, hsynced, _⟩ := ha.evict hop
    exact ⟨a', congrArg (Option.map Prod.snd) hrun, hsynced⟩

end Arena

namespace Stack
/-- The bytes that can be used are those below the allocated end. -/
structure Filled (s : Stack) : Prop where
  dvd_reserved : 2 ^ 21 ∣ s.reservedSpace.toNat
  dvd : 2 ^ 21 ∣ s.allocatedSpace.toNat
  pages : ∀ x, s.pages x = decide (x < s.allocatedSpace.toNat)

variable {s : Stack}

theorem Filled.create (size : Word) : Filled (create size) where
  dvd_reserved := dvd_roundUp size
  dvd := Nat.dvd_zero _
  pages _ := rfl

theorem Filled.commit (hs : Filled s) (offset bytes : Word) : ∃ s', s.commit offset bytes = some (true, s') ∧
    Filled s' ∧ s'.checkResidency offset bytes = some true := by
  have hend := clippedEnd_spec hs.dvd_reserved (offset + bytes)
  unfold Stack.commit
  simp only
  split_ifs with hlt
  · refine ⟨s, rfl, hs, ?_⟩
    exact congrArg some (decide_eq_true (BitVec.le_of_lt hlt))
  · have hle : s.allocatedSpace.toNat ≤ (clippedEnd s.reservedSpace (offset + bytes)).toNat := BitVec.not_lt.mp hlt
    refine ⟨_, rfl, ⟨hs.dvd_reserved, hend.1, fun x => ?_⟩, congrArg some (decide_eq_true (BitVec.le_refl _))⟩
    simp only [mprotect, hs.pages, BitVec.toNat_zero]
    grind

theorem Filled.evict (hs : Filled s) (offset bytes : Word) :
    ∃ s', s.evict offset bytes = some (true, s') ∧ Filled s' := by
  unfold Stack.evict
  simp only
  split_ifs with hle
  · exact ⟨s, rfl, hs⟩
  · have hlt : (roundUp offset chunkGranularity).toNat < s.allocatedSpace.toNat := BitVec.not_le.mp hle
    refine ⟨_, rfl, hs.dvd_reserved, dvd_roundUp offset, fun x => ?_⟩
    show mprotect s.pages _ _ false x = decide (x < (roundUp offset chunkGranularity).toNat)
    rw [mprotect_apply _ (Nat.le_of_lt hlt), hs.pages]
    split_ifs with hin
    · exact (decide_eq_false (Nat.not_lt.mpr hin.1)).symm
    · exact decide_eq_decide.mpr (by omega)

theorem Filled.meets (hs : Filled s) : vmr.Meets s where
  checked offset bytes hfit := by
    refine ⟨_, rfl, fun htrue x hx hlt y hy => ?_⟩
    obtain ⟨hdvd, _, hend⟩ := clippedEnd_spec hs.dvd_reserved (offset + bytes)
    have hle : (clippedEnd s.reservedSpace (offset + bytes)).toNat ≤ s.allocatedSpace.toNat := of_decide_eq_true htrue
    have hlt : x < s.reservedSpace.toNat := hlt
    have hhigh : x < offset.toNat + bytes.toNat := hx.2
    rw [toNat_end hfit] at hend
    rw [toNat_chunkGranularity] at hy
    exact (hs.pages y).trans (decide_eq_true (by omega))
  committed offset bytes _ := by
    obtain ⟨s', hrun, _, htrue⟩ := hs.commit offset bytes
    exact ⟨true, s', hrun, fun _ => htrue⟩
  evicted offset bytes _ := by
    obtain ⟨s', hrun, _⟩ := hs.evict offset bytes
    exact Option.isSome_of_eq_some hrun

theorem Filled.step (hs : Filled s) (op : Op) : ∃ s', vmr.step s op = some s' ∧ Filled s' := by
  cases op with
  | commit offset bytes =>
    obtain ⟨s', hrun, hfilled, _⟩ := hs.commit offset bytes
    exact ⟨s', congrArg (Option.map Prod.snd) hrun, hfilled⟩
  | evict offset bytes =>
    obtain ⟨s', hrun, hfilled⟩ := hs.evict offset bytes
    exact ⟨s', congrArg (Option.map Prod.snd) hrun, hfilled⟩

end Stack

theorem run_meets (space : Word) (ops : List Op) (hops : ∀ op ∈ ops, op.Fits) :
    (∃ a, Arena.vmr.run (Arena.create space) ops = some a ∧ Arena.vmr.Meets a ∧ Arena.vmr.StartsInside a ∧
        Arena.vmr.EvictsInside a) ∧
      ∃ s, Stack.vmr.run (Stack.create space) ops = some s ∧ Stack.vmr.Meets s := by
  obtain ⟨a, ha, hsynced⟩ := Vmr.run_of_step (fun _ _ hs hop => Arena.Synced.step hs hop) ops
    (Arena.Synced.create space) hops
  obtain ⟨s, hs, hfilled⟩ := Vmr.run_of_step (fun _ op hs _ => Stack.Filled.step hs op) ops
    (Stack.Filled.create space) hops
  exact ⟨⟨a, ha, hsynced.meets, hsynced.startsInside, hsynced.evictsInside⟩, s, hs, hfilled.meets⟩

end Runs

section Example
def oneChunk : List Op := [.commit 0#64 chunkGranularity]

def oneChunkCommitted : Arena :=
  ⟨chunkGranularity, [1#64], mprotect (fun _ => false) 0#64 chunkGranularity true⟩

theorem run_oneChunk : Arena.vmr.run (Arena.create chunkGranularity) oneChunk = some oneChunkCommitted := rfl

/-- One byte more than the reservation is reported resident, and an eviction of nothing at the last address evicts
everything. -/
theorem past_the_end_resident :
    (¬ ∀ (space : Word) (ops : List Op), (∀ op ∈ ops, op.Fits) → ∀ a, Arena.vmr.run (Arena.create space) ops = some a →
      ∀ offset bytes, Fits offset bytes → a.checkResidency offset bytes = some true →
        ∀ x ∈ inRange offset bytes, x < a.reservedSpace.toNat ∧ Committed a.pages x) ∧
    ¬ ∀ (space : Word) (ops : List Op), (∀ op ∈ ops, op.Fits) → ∀ a, Arena.vmr.run (Arena.create space) ops = some a →
      ∀ offset bytes, Fits offset bytes → ∀ r a', a.evict offset bytes = some (r, a') →
        ∀ x ∉ inRange offset bytes, Committed a.pages x → Committed a'.pages x := by
  have hfits : ∀ op ∈ oneChunk, op.Fits := by
    intro op hop
    rw [List.mem_singleton.mp hop]
    exact (by decide : 0 + 2 ^ 21 < 2 ^ 64)
  constructor
  · intro hall
    have hin := hall _ _ hfits _ run_oneChunk 0#64 (chunkGranularity + 1#64) (by unfold Fits; decide) rfl (2 ^ 21)
      ⟨by decide, by decide⟩
    exact absurd hin.1 (by decide)
  · intro hall
    have hpages : Committed oneChunkCommitted.pages 0 := fun y hy => by
      have hy : y / 2 ^ 21 = 0 / 2 ^ 21 := hy
      have hlt : y < chunkGranularity.toNat := by
        rw [toNat_chunkGranularity]
        omega
      show mprotect (fun _ => false) 0#64 (chunkGranularity - 0#64) true y = true
      rw [mprotect_apply _ (by decide), if_pos ⟨Nat.zero_le y, hlt⟩]
    have hkept := hall _ _ hfits _ run_oneChunk (BitVec.allOnes 64) 0#64 (by unfold Fits; decide) true _ rfl 0
      (fun h => absurd h.1 (by decide)) hpages 0 rfl
    exact Bool.false_ne_true hkept

theorem run_meets_oneChunk :
    (∃ a, Arena.vmr.run (Arena.create chunkGranularity) oneChunk = some a ∧ Arena.vmr.Meets a ∧
        Arena.vmr.StartsInside a ∧ Arena.vmr.EvictsInside a) ∧
      ∃ s, Stack.vmr.run (Stack.create chunkGranularity) oneChunk = some s ∧ Stack.vmr.Meets s :=
  run_meets chunkGranularity oneChunk fun op hop => by
    rw [List.mem_singleton.mp hop]
    exact (by decide : 0 + 2 ^ 21 < 2 ^ 64)

end Example

end Zpc.VirtualMemory
