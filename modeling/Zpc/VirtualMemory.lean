import Zpc.AlignedBlocks
import Zpc.WordBits

/-!
# Virtual memory resources

Address space reserved at once and committed in chunks. The arena keeps a bit for every chunk, the stack
keeps how much is committed from the start.
-/
namespace Zpc.VirtualMemory
open WordBits

abbrev Word := BitVec 64

section Interface
def chunkGranularityBits : ℕ := 21

def chunkGranularity : Word := 1#64 <<< chunkGranularityBits

def roundDown (n alignment : Word) : Word := n &&& ~~~(alignment - 1#64)

def roundUp (n alignment : Word) : Word := (n + alignment - 1#64) &&& ~~~(alignment - 1#64)

def clippedEnd (reservedSpace offset : Word) : Word :=
  if offset ≤ reservedSpace then roundUp offset chunkGranularity else reservedSpace

abbrev Pages := ℕ → Bool

/-- The system call acts on exactly the given bytes. -/
def mprotect (pages : Pages) (st len : Word) (access : Bool) : Pages :=
  fun x => if st.toNat ≤ x ∧ x < st.toNat + len.toNat then access else pages x

/-- The calls of a resource. They have no result when a mask is indexed out of range. -/
structure Vmr (σ : Type) where
  checkResidency : σ → Word → Word → Option Bool
  commit : σ → Word → Word → Option (Bool × σ)
  evict : σ → Word → Word → Option (Bool × σ)
  reservedSpace : σ → Word
  pages : σ → Pages

inductive Op
  | commit (offset bytes : Word)
  | evict (offset bytes : Word)

variable {σ : Type}

def Vmr.step (v : Vmr σ) (s : σ) : Op → Option σ
  | .commit offset bytes => (v.commit s offset bytes).map Prod.snd
  | .evict offset bytes => (v.evict s offset bytes).map Prod.snd

def Vmr.run (v : Vmr σ) (s : σ) : List Op → Option σ
  | [] => some s
  | op :: ops => (v.step s op).bind fun s => v.run s ops

end Interface

section Rounding
theorem toNat_chunkGranularity : chunkGranularity.toNat = 2 ^ 21 := rfl

variable {n : Word}

theorem toNat_roundDown (n : Word) :
    (roundDown n chunkGranularity).toNat = AlignedBlocks.roundDown n.toNat (2 ^ 21) := by
  have hshift : roundDown n chunkGranularity = n >>> 21 <<< 21 := by
    refine BitVec.eq_of_getLsbD_eq fun i hi => ?_
    rw [roundDown, chunkGranularity, chunkGranularityBits, BitVec.getLsbD_and, BitVec.getLsbD_not,
      getLsbD_low (by decide) hi, BitVec.getLsbD_shiftLeft, BitVec.getLsbD_ushiftRight]
    by_cases hlow : i < 21
    · simp [hlow]
    · simp [hlow, hi, Nat.add_sub_cancel' (Nat.le_of_not_lt hlow)]
  have hlt := n.isLt
  rw [hshift, BitVec.toNat_shiftLeft, BitVec.toNat_ushiftRight, Nat.shiftLeft_eq, Nat.shiftRight_eq_div_pow]
  unfold AlignedBlocks.roundDown
  omega

/-- Rounding up comes out at the start again when no chunk boundary is left above. -/
theorem toNat_roundUp (n : Word) : (roundUp n chunkGranularity).toNat =
    if n.toNat ≤ 2 ^ 64 - 2 ^ 21 then AlignedBlocks.roundUp n.toNat (2 ^ 21) else 0 := by
  have hdown : roundUp n chunkGranularity = roundDown (n + chunkGranularity - 1#64) chunkGranularity := rfl
  have hlt := n.isLt
  have hsum : (n + chunkGranularity - 1#64).toNat = (n.toNat + (2 ^ 21 - 1)) % 2 ^ 64 := by
    rw [BitVec.toNat_sub, BitVec.toNat_add, toNat_chunkGranularity, BitVec.toNat_ofNat]
    omega
  rw [hdown, toNat_roundDown, hsum, AlignedBlocks.roundUp]
  unfold AlignedBlocks.roundDown
  split_ifs with hle <;> omega

variable {reservedSpace : Word}

theorem le_of_dvd (hr : 2 ^ 21 ∣ n.toNat) : n.toNat ≤ 2 ^ 64 - 2 ^ 21 := by
  have hlt := n.isLt
  omega

theorem dvd_roundDown (n : Word) : 2 ^ 21 ∣ (roundDown n chunkGranularity).toNat := by
  rw [toNat_roundDown]
  exact AlignedBlocks.dvd_roundDown _ _

theorem roundDown_div (n : Word) : (roundDown n chunkGranularity).toNat / 2 ^ 21 = n.toNat / 2 ^ 21 := by
  rw [toNat_roundDown, AlignedBlocks.roundDown]
  omega

theorem dvd_roundUp (n : Word) : 2 ^ 21 ∣ (roundUp n chunkGranularity).toNat := by
  rw [toNat_roundUp]
  split_ifs
  · exact AlignedBlocks.dvd_roundUp _ _
  · exact Nat.dvd_zero _

theorem le_roundUp (hn : n.toNat ≤ 2 ^ 64 - 2 ^ 21) : n.toNat ≤ (roundUp n chunkGranularity).toNat := by
  rw [toNat_roundUp, if_pos hn]
  exact AlignedBlocks.le_roundUp (Nat.two_pow_pos 21)

theorem clippedEnd_spec (hr : 2 ^ 21 ∣ reservedSpace.toNat) (n : Word) :
    2 ^ 21 ∣ (clippedEnd reservedSpace n).toNat ∧ (clippedEnd reservedSpace n).toNat ≤ reservedSpace.toNat ∧
      min n.toNat reservedSpace.toNat ≤ (clippedEnd reservedSpace n).toNat := by
  have hroom := le_of_dvd hr
  unfold clippedEnd
  split_ifs with hle
  · have hle : n.toNat ≤ reservedSpace.toNat := hle
    have hn : n.toNat ≤ 2 ^ 64 - 2 ^ 21 := Nat.le_trans hle hroom
    refine ⟨dvd_roundUp n, ?_, Nat.le_trans (Nat.min_le_left ..) (le_roundUp hn)⟩
    rw [toNat_roundUp, if_pos hn]
    exact AlignedBlocks.roundUp_le hr hle (Nat.two_pow_pos 21)
  · exact ⟨hr, Nat.le_refl _, Nat.min_le_right ..⟩

end Rounding

section Arena
structure Arena where
  reservedSpace : Word
  activeChunkMasks : List Word
  pages : Pages

namespace Arena
def create (space : Word) : Arena :=
  let reservedSpace := roundUp space chunkGranularity
  ⟨reservedSpace, List.replicate ((reservedSpace.toNat / chunkGranularity.toNat + 63) / 64) 0#64, fun _ => false⟩

/-- The chunks from `st` to `ed`, with the loop's own arithmetic. -/
def chunks (st ed : Word) : List Word :=
  (List.range (ed >>> chunkGranularityBits - st >>> chunkGranularityBits).toNat).map fun i =>
    st >>> chunkGranularityBits + BitVec.ofNat 64 i

def chunkBit (c : Word) : Word := 1#64 <<< (c &&& 63#64).toNat

def testLoop (masks : List Word) : List Word → Option Bool
  | [] => some true
  | c :: cs => do
    let mask ← masks[(c >>> 6).toNat]?
    if mask &&& chunkBit c = 0#64 then some false else testLoop masks cs

def updateLoop (f : Word → Word → Word) : List Word → List Word → Option (List Word)
  | masks, [] => some masks
  | masks, c :: cs => do
    let mask ← masks[(c >>> 6).toNat]?
    updateLoop f (masks.set (c >>> 6).toNat (f mask (chunkBit c))) cs

def checkResidency (a : Arena) (offset bytes : Word) : Option Bool :=
  let st := roundDown offset chunkGranularity
  if a.reservedSpace ≤ st then some false
  else
    let offset := offset + bytes
    let ed := clippedEnd a.reservedSpace offset
    testLoop a.activeChunkMasks (chunks st ed)

def commit (a : Arena) (offset bytes : Word) : Option (Bool × Arena) :=
  let st := roundDown offset chunkGranularity
  if a.reservedSpace ≤ st then some (false, a)
  else
    let offset := offset + bytes
    let ed := clippedEnd a.reservedSpace offset
    let pages := mprotect a.pages st (ed - st) true
    (updateLoop (· ||| ·) a.activeChunkMasks (chunks st ed)).map fun masks => (true, ⟨a.reservedSpace, masks, pages⟩)

def evict (a : Arena) (offset bytes : Word) : Option (Bool × Arena) :=
  let st := roundUp offset chunkGranularity
  let offset := offset + bytes
  let ed := if offset ≤ a.reservedSpace then roundDown offset chunkGranularity else a.reservedSpace
  if ed ≤ st then some (false, a)
  else
    let pages := mprotect a.pages st (ed - st) false
    (updateLoop (fun mask b => mask &&& ~~~b) a.activeChunkMasks (chunks st ed)).map fun masks =>
      (true, ⟨a.reservedSpace, masks, pages⟩)

def vmr : Vmr Arena := ⟨checkResidency, commit, evict, reservedSpace, pages⟩

section Masks
/-- The bit of a chunk. -/
def active (masks : List Word) (c : ℕ) : Bool := bitAt (fun i => masks.getD i 0#64) c

variable {masks : List Word} {cs : List Word} {st ed : Word} {f : Word → Word → Word} {access : Bool}

theorem getLsbD_chunkBit (c : Word) {r : ℕ} (hr : r < 64) : (chunkBit c).getLsbD r = decide (r = c.toNat % 64) := by
  have hmod : (c &&& 63#64).toNat = c.toNat % 64 := by
    rw [BitVec.toNat_and]
    exact Nat.and_two_pow_sub_one_eq_mod _ 6
  rw [chunkBit, hmod, BitVec.getLsbD_shiftLeft, BitVec.getLsbD_one]
  grind

theorem toNat_shiftRight_six (c : Word) : (c >>> 6).toNat = c.toNat / 64 := by
  rw [BitVec.toNat_ushiftRight, Nat.shiftRight_eq_div_pow]

theorem and_chunkBit_eq_zero (mask c : Word) : mask &&& chunkBit c = 0#64 ↔ mask.getLsbD (c.toNat % 64) = false := by
  have hlt := Nat.mod_lt c.toNat (by decide : 0 < 64)
  rw [eq_zero_iff]
  constructor
  · intro h
    have hbit := h _ hlt
    rwa [BitVec.getLsbD_and, getLsbD_chunkBit c hlt, decide_eq_true rfl, Bool.and_true] at hbit
  · intro h r hr
    rw [BitVec.getLsbD_and, getLsbD_chunkBit c hr]
    by_cases hc : r = c.toNat % 64
    · rw [hc, h, Bool.false_and]
    · rw [decide_eq_false hc, Bool.and_false]

theorem active_eq {c : ℕ} {mask : Word} (h : masks[c / 64]? = some mask) :
    active masks c = mask.getLsbD (c % 64) := by
  rw [active, bitAt, List.getD_eq_getElem?_getD, h, Option.getD_some]

theorem testLoop_spec (hcs : ∀ c ∈ cs, c.toNat / 64 < masks.length) :
    ∃ r, testLoop masks cs = some r ∧ (r = true ↔ ∀ c ∈ cs, active masks c.toNat = true) := by
  induction cs with
  | nil => exact ⟨true, rfl, fun _ => nofun, fun _ => rfl⟩
  | cons c cs ih =>
    obtain ⟨hc, hcs⟩ := List.forall_mem_cons.mp hcs
    have hget := List.getElem?_eq_getElem hc
    have hbit := active_eq hget
    rw [testLoop, toNat_shiftRight_six, hget]
    simp only [Option.bind_eq_bind, Option.bind_some, and_chunkBit_eq_zero, ← hbit]
    by_cases hactive : active masks c.toNat = false
    · rw [if_pos hactive]
      refine ⟨false, rfl, nofun, fun hall => ?_⟩
      have htrue := hall c List.mem_cons_self
      rw [hactive] at htrue
      exact htrue
    · rw [if_neg hactive]
      obtain ⟨r, hr, hiff⟩ := ih hcs
      refine ⟨r, hr, hiff.trans ?_⟩
      rw [List.forall_mem_cons, Bool.eq_true_of_not_eq_false hactive]
      exact ⟨fun h => ⟨rfl, h⟩, And.right⟩

theorem active_set {j : ℕ} (hj : j < masks.length) (mask : Word) (i : ℕ) :
    active (masks.set j mask) i = if i / 64 = j then mask.getLsbD (i % 64) else active masks i := by
  simp only [active, bitAt, List.getD_eq_getElem?_getD, List.getElem?_set]
  split_ifs with h h' <;> grind

/-- The bits of the chunks become `access`, the others stay. -/
theorem updateLoop_spec (hf : ∀ mask c r, r < 64 →
      (f mask (chunkBit c)).getLsbD r = if r = c.toNat % 64 then access else mask.getLsbD r)
    (hcs : ∀ c ∈ cs, c.toNat / 64 < masks.length) :
    ∃ masks', updateLoop f masks cs = some masks' ∧ masks'.length = masks.length ∧
      ∀ i, active masks' i = if ∃ c ∈ cs, c.toNat = i then access else active masks i := by
  induction cs generalizing masks with
  | nil => exact ⟨masks, rfl, rfl, fun i => by rw [if_neg (by simp)]⟩
  | cons c cs ih =>
    obtain ⟨hc, hcs⟩ := List.forall_mem_cons.mp hcs
    have hget := List.getElem?_eq_getElem hc
    rw [updateLoop, toNat_shiftRight_six, hget]
    simp only [Option.bind_eq_bind, Option.bind_some]
    have hcs' : ∀ d ∈ cs, d.toNat / 64 < (masks.set (c.toNat / 64) (f masks[c.toNat / 64] (chunkBit c))).length := by
      rwa [List.length_set]
    obtain ⟨masks', hrun, hlen, hbits⟩ := ih hcs'
    refine ⟨masks', hrun, hlen.trans List.length_set, fun i => ?_⟩
    have hlt := Nat.mod_lt i (by decide : 0 < 64)
    rw [hbits, active_set hc, hf _ _ _ hlt]
    by_cases htail : ∃ d ∈ cs, d.toNat = i
    · rw [if_pos htail, if_pos (by obtain ⟨d, hd, hi⟩ := htail; exact ⟨d, List.mem_cons_of_mem c hd, hi⟩)]
    · rw [if_neg htail]
      by_cases hi : c.toNat = i
      · subst hi
        rw [if_pos rfl, if_pos rfl, if_pos ⟨c, List.mem_cons_self, rfl⟩]
      · rw [if_neg (by grind : ¬ ∃ d ∈ c :: cs, d.toNat = i)]
        split_ifs with hword hbit
        · omega
        · rw [← active_eq (c := i) (by rw [hword]; exact hget)]
        · rfl

theorem mem_chunks (hle : st.toNat ≤ ed.toNat) (c : Word) :
    c ∈ chunks st ed ↔ st.toNat / 2 ^ 21 ≤ c.toNat ∧ c.toNat < ed.toNat / 2 ^ 21 := by
  have hshift (n : Word) : (n >>> chunkGranularityBits).toNat = n.toNat / 2 ^ 21 := by
    rw [BitVec.toNat_ushiftRight, Nat.shiftRight_eq_div_pow]
    rfl
  have hst := st.isLt
  have hed := ed.isLt
  have hcount : (ed >>> chunkGranularityBits - st >>> chunkGranularityBits).toNat =
      ed.toNat / 2 ^ 21 - st.toNat / 2 ^ 21 := by
    rw [BitVec.toNat_sub, hshift, hshift]
    omega
  simp only [chunks, List.mem_map, List.mem_range, hcount]
  constructor
  · rintro ⟨i, hi, rfl⟩
    rw [BitVec.toNat_add, hshift, BitVec.toNat_ofNat]
    omega
  · intro ⟨hlow, hhigh⟩
    refine ⟨c.toNat - st.toNat / 2 ^ 21, by omega, BitVec.eq_of_toNat_eq ?_⟩
    rw [BitVec.toNat_add, hshift, BitVec.toNat_ofNat]
    omega

end Masks

end Arena
end Arena

section Stack
structure Stack where
  allocatedSpace : Word
  reservedSpace : Word
  pages : Pages

namespace Stack
def create (size : Word) : Stack := ⟨0#64, roundUp size chunkGranularity, fun _ => false⟩

def checkResidency (s : Stack) (offset bytes : Word) : Option Bool :=
  let offset := offset + bytes
  let ed := clippedEnd s.reservedSpace offset
  some (decide (ed ≤ s.allocatedSpace))

def commit (s : Stack) (offset bytes : Word) : Option (Bool × Stack) :=
  let offset := offset + bytes
  let ed := clippedEnd s.reservedSpace offset
  if ed < s.allocatedSpace then some (true, s)
  else some (true, ⟨ed, s.reservedSpace, mprotect s.pages 0#64 ed true⟩)

/-- Everything is evicted from the range on, with a warning when that is more than the range. -/
def evict (s : Stack) (offset _bytes : Word) : Option (Bool × Stack) :=
  let st := roundUp offset chunkGranularity
  if s.allocatedSpace ≤ st then some (true, s)
  else some (true, ⟨st, s.reservedSpace, mprotect s.pages st (s.allocatedSpace - st) false⟩)

def vmr : Vmr Stack := ⟨checkResidency, commit, evict, reservedSpace, pages⟩

end Stack
end Stack

end Zpc.VirtualMemory
