import Mathlib
import Zpc.SharedPtr

/-!
# What a release keeps

Each instruction of a release keeps the counts equal to what is held and what is still to
be given back, and leaves alone the objects that a variable outside the release holds.
-/
namespace Zpc.SharedPtr
def Ptr.share (p : Ptr) : Option ℕ := if p.given then none else p.control

def Instr.loc : Instr → Option Loc
  | release l => some l
  | clear l => some l
  | drop l => some l
  | _ => none

/-- Of two instructions for one variable the later one ends its life. -/
def Apart (a b : Instr) : Prop := ∀ l, a.loc = some l → b.loc = some l → b = .drop l ∧ a ≠ .drop l

namespace State
variable (σ : State)

def share (l : Loc) : Option ℕ := (σ.value l).share

def strong (b : ℕ) : ℕ := match σ.blocks b with
  | some blk => blk.strong
  | none => 0

def weak (b : ℕ) : ℕ := match σ.blocks b with
  | some blk => blk.weak
  | none => 0

/-- The variables of a kind with a share in a block. -/
def total (k : Kind) (b : ℕ) : ℕ := ∑ l ∈ σ.dom, if l.kind = k ∧ σ.share l = some b then 1 else 0

end State

variable {σ σ' : State} {l : Loc} {k : Kind} {b : ℕ}

section Total
theorem total_congr (hd : σ'.dom = σ.dom) (hv : ∀ l ∈ σ.dom, σ'.share l = σ.share l) :
    σ'.total k b = σ.total k b := by
  unfold State.total
  rw [hd]
  apply Finset.sum_congr rfl
  intro l hl
  rw [hv l hl]

theorem share_write (p : Ptr) (l' : Loc) : (σ.write l p).share l' = if l' = l then p.share else σ.share l' := by
  unfold State.share State.write
  dsimp only
  split
  · next h => rw [h, Function.update_self]
  · next h => rw [Function.update_of_ne h]

theorem share_declare (p : Ptr) (l' : Loc) : (σ.declare l p).share l' = if l' = l then p.share else σ.share l' :=
  share_write p l'

theorem total_write (hl : l ∈ σ.dom) (p : Ptr) :
    (σ.write l p).total k b + (if l.kind = k ∧ σ.share l = some b then 1 else 0) =
      σ.total k b + (if l.kind = k ∧ p.share = some b then 1 else 0) := by
  unfold State.total
  have hdom : (σ.write l p).dom = σ.dom := rfl
  rw [hdom, ← Finset.add_sum_erase _ _ hl, ← Finset.add_sum_erase σ.dom _ hl, share_write, if_pos rfl]
  have hrest : ∑ l' ∈ σ.dom.erase l, (if l'.kind = k ∧ (σ.write l p).share l' = some b then 1 else 0) =
      ∑ l' ∈ σ.dom.erase l, if l'.kind = k ∧ σ.share l' = some b then 1 else 0 := by
    apply Finset.sum_congr rfl
    intro l' hl'
    rw [share_write, if_neg (Finset.ne_of_mem_erase hl')]
  rw [hrest]
  ac_rfl

theorem total_declare (hl : l ∉ σ.dom) (p : Ptr) :
    (σ.declare l p).total k b = σ.total k b + (if l.kind = k ∧ p.share = some b then 1 else 0) := by
  unfold State.total
  have hdom : (σ.declare l p).dom = insert l σ.dom := rfl
  rw [hdom, Finset.sum_insert hl, share_declare, if_pos rfl, add_comm]
  congr 1
  apply Finset.sum_congr rfl
  intro l' hl'
  have hne : l' ≠ l := by
    intro h
    exact hl (h ▸ hl')
  rw [share_declare, if_neg hne]

theorem total_erase (hl : l ∈ σ.dom) (hs : σ.share l = none) :
    State.total {σ with dom := σ.dom.erase l} k b = σ.total k b := by
  unfold State.total
  have hnone : (if l.kind = k ∧ σ.share l = some b then 1 else 0) = 0 := by simp [hs]
  rw [← Finset.add_sum_erase σ.dom _ hl, hnone, zero_add]
  rfl

theorem total_pos (hl : l ∈ σ.dom) (hk : l.kind = k) (hs : σ.share l = some b) : 0 < σ.total k b := by
  have hle : (if l.kind = k ∧ σ.share l = some b then 1 else 0) ≤ σ.total k b :=
    Finset.single_le_sum (f := fun l => if l.kind = k ∧ σ.share l = some b then 1 else 0) (fun _ _ => Nat.zero_le _) hl
  rw [if_pos ⟨hk, hs⟩] at hle
  exact hle

theorem exists_of_total_pos (h : 0 < σ.total k b) : ∃ l ∈ σ.dom, l.kind = k ∧ σ.share l = some b := by
  obtain ⟨l, hl, hne⟩ := Finset.exists_ne_zero_of_sum_ne_zero (Nat.pos_iff_ne_zero.mp h)
  exact ⟨l, hl, by_contra fun hn => hne (if_neg hn)⟩

end Total

/-! ## The invariant -/

/-- The counts of the blocks, and what has come of each object and block. -/
structure Counted (stack : List Instr) (σ : State) : Prop where
  strong : ∀ b, σ.strong b = σ.total .strong b + stack.count (.releaseStrong b)
  /-- The owners together have one share in the weak count. -/
  weak : ∀ b, σ.weak b = σ.total .weak b + stack.count (.releaseWeak b) + stack.count (.finish b) +
    if σ.strong b = 0 then 0 else 1
  block : ∀ b blk, σ.blocks b = some blk → b < σ.next ∧ 0 < blk.weak ∧ (0 < blk.strong → blk.ptr = some b)
  destroyed : ∀ b, b ∈ σ.destroyed ↔ b < σ.next ∧ σ.strong b = 0
  deleted : ∀ b, b ∈ σ.deleted ↔ b < σ.next ∧ σ.blocks b = none
  destroyed_once : σ.destroyed.Nodup
  deleted_once : σ.deleted.Nodup
  finishing : ∀ b, .finish b ∈ stack → b ∈ σ.destroyed

/-- The variables there are. The objects of `held` are held from outside the release, and the variables of `stays` are
not in its way; those of `emptied` are left empty. -/
structure Shaped (held : Set ℕ) (stays emptied : Set Loc) (stack : List Instr) (σ : State) : Prop where
  pointer : ∀ l ∈ σ.dom, (σ.value l).ptr = (σ.value l).control
  member : ∀ o < σ.next, o ∉ σ.destroyed → ∀ l ∈ σ.memberLocs o, l ∈ σ.dom
  home : ∀ l ∈ σ.dom, ∀ o i, l.place = .member o i →
    o < σ.next ∧ l ∈ σ.memberLocs o ∧ (o ∈ σ.destroyed → .drop l ∈ stack)
  mention : ∀ instr ∈ stack, ∀ l, instr.loc = some l →
    l ∈ σ.dom ∧ ∀ o i, l.place = .member o i → o ∈ σ.destroyed ∨ o ∈ held
  dropped : ∀ l, .drop l ∈ stack → ∀ o i, l.place = .member o i → o ∈ σ.destroyed
  apart : stack.Pairwise Apart
  given : ∀ l ∈ σ.dom, (σ.value l).given = true → .clear l ∈ stack
  release : ∀ l, .release l ∈ stack → (σ.value l).given = false
  clear : ∀ l, .clear l ∈ stack → σ.share l = none
  drop : ∀ l, .drop l ∈ stack → .release l ∈ stack ∨ σ.share l = none
  holder : ∀ o ∈ held, ∃ l ∈ σ.dom, l.kind = .strong ∧ σ.share l = some o ∧ (∀ instr ∈ stack, instr.loc ≠ some l) ∧
    ∀ o' i, l.place = .member o' i → o' ∈ held
  stays : ∀ l ∈ stays, l ∈ σ.dom ∧ .drop l ∉ stack ∧ ∀ o i, l.place = .member o i → o ∈ held
  emptied : ∀ l ∈ emptied, .release l ∈ stack ∨ .clear l ∈ stack ∨ σ.value l = {}

variable {held : Set ℕ} {stays emptied : Set Loc} {stack rest : List Instr} {instr : Instr}

/-! ## Blocks -/

theorem strong_setBlock (blk : SharedControlBlock) (b' : ℕ) :
    (σ.setBlock b blk).strong b' = if b' = b then blk.strong else σ.strong b' := by
  unfold State.strong State.setBlock
  dsimp only
  by_cases h : b' = b
  · rw [if_pos h, h, Function.update_self]
  · rw [if_neg h, Function.update_of_ne h]

@[simp]
theorem next_setBlock (blk : SharedControlBlock) : (σ.setBlock b blk).next = σ.next := rfl

theorem weak_setBlock (blk : SharedControlBlock) (b' : ℕ) :
    (σ.setBlock b blk).weak b' = if b' = b then blk.weak else σ.weak b' := by
  unfold State.weak State.setBlock
  dsimp only
  by_cases h : b' = b
  · rw [if_pos h, h, Function.update_self]
  · rw [if_neg h, Function.update_of_ne h]

theorem strong_of_block {blk : SharedControlBlock} (h : σ.blocks b = some blk) : σ.strong b = blk.strong := by
  unfold State.strong
  rw [h]

theorem weak_of_block {blk : SharedControlBlock} (h : σ.blocks b = some blk) : σ.weak b = blk.weak := by
  unfold State.weak
  rw [h]

theorem exists_block (h : 0 < σ.weak b) : ∃ blk, σ.blocks b = some blk ∧ blk.weak = σ.weak b := by
  unfold State.weak at h ⊢
  cases hb : σ.blocks b with
  | none => rw [hb] at h; exact absurd h (Nat.lt_irrefl 0)
  | some blk => exact ⟨blk, rfl, rfl⟩

theorem blocks_setBlock_eq_none {blk : SharedControlBlock} (h : σ.blocks b = some blk) (blk' : SharedControlBlock)
    (b' : ℕ) : (σ.setBlock b blk').blocks b' = none ↔ σ.blocks b' = none := by
  unfold State.setBlock
  dsimp only
  by_cases he : b' = b
  · rw [he, Function.update_self, h]
    exact ⟨nofun, nofun⟩
  · rw [Function.update_of_ne he]

theorem blocks_setBlock {blk blk' : SharedControlBlock} {b' : ℕ} (h : (σ.setBlock b blk).blocks b' = some blk') :
    b' = b ∧ blk' = blk ∨ σ.blocks b' = some blk' := by
  unfold State.setBlock at h
  dsimp only at h
  by_cases he : b' = b
  · rw [he, Function.update_self] at h
    exact .inl ⟨he, (Option.some.inj h).symm⟩
  · rw [Function.update_of_ne he] at h
    exact .inr h

theorem block_ok {blk : SharedControlBlock} (h : σ.blocks b = some blk) : σ.block b = .ok blk := by
  unfold State.block
  rw [h]

theorem read_ok (h : l ∈ σ.dom) : σ.read l = .ok (σ.value l) := if_pos h

theorem strong_releaseWeak {blk : SharedControlBlock} (h : σ.strong b = blk.strong) (hz : blk.weak = 1 → blk.strong = 0)
    (b' : ℕ) : (σ.releaseWeak b blk).strong b' = σ.strong b' := by
  unfold State.releaseWeak
  split
  · next hw =>
    by_cases hb : b' = b
    · subst hb
      rw [h, hz hw]
      unfold State.strong
      dsimp only
      rw [Function.update_self]
    · unfold State.strong
      dsimp only
      rw [Function.update_of_ne hb]
  · rw [strong_setBlock]
    split
    · next hb => rw [hb, h]
    · rfl

theorem weak_releaseWeak {blk : SharedControlBlock} (b' : ℕ) :
    (σ.releaseWeak b blk).weak b' = if b' = b then blk.weak - 1 else σ.weak b' := by
  unfold State.releaseWeak
  split
  · next hw =>
    by_cases hb : b' = b
    · rw [if_pos hb, hb, hw]
      unfold State.weak
      dsimp only
      rw [Function.update_self]
    · rw [if_neg hb]
      unfold State.weak
      dsimp only
      rw [Function.update_of_ne hb]
  · exact weak_setBlock _ _

/-! ## Counts under the instructions -/

theorem mem_destructors {o : ℕ} : instr ∈ σ.destructors o ↔ ∃ l ∈ σ.memberLocs o, instr = .release l ∨ instr = .drop l := by
  unfold State.destructors
  simp only [List.mem_flatMap, List.mem_reverse, List.mem_cons, List.not_mem_nil, or_false]

theorem place_of_mem {o : ℕ} (h : l ∈ σ.memberLocs o) : ∃ i, l.place = .member o i := by
  unfold State.memberLocs at h
  obtain ⟨m, -, rfl⟩ := List.mem_map.mp h
  exact ⟨m.2, rfl⟩

theorem nodup_memberLocs (o : ℕ) : (σ.memberLocs o).Nodup := by
  unfold State.memberLocs
  apply List.Nodup.map_on
  · intro m hm m' hm' h
    have hi : m.2 = m'.2 := by
      have hplace := congrArg Loc.place h
      simp only [Place.member.injEq] at hplace
      exact hplace.2
    have hk : m.1 = m'.1 := congrArg Loc.kind h
    exact Prod.ext hk hi
  · apply List.Nodup.of_map Prod.snd
    rw [List.zipIdx_map_snd]
    exact List.nodup_range'

theorem count_destructors {o : ℕ} (h : instr.loc = none) : (σ.destructors o).count instr = 0 := by
  apply List.count_eq_zero.mpr
  intro hm
  obtain ⟨l, -, rfl | rfl⟩ := mem_destructors.mp hm
  · cases h
  · cases h

/-- The strong count goes down, and some owner is left. -/
theorem Counted.releaseStrong (h : Counted (.releaseStrong b :: rest) σ) {blk : SharedControlBlock}
    (hb : σ.blocks b = some blk) (h1 : blk.strong ≠ 1) :
    Counted rest (σ.setBlock b {blk with strong := blk.strong - 1}) := by
  have hstrong := strong_of_block hb
  have hb' := h.strong b
  rw [List.count_cons_self, hstrong] at hb'
  have hne : blk.strong - 1 ≠ 0 := by omega
  have hiff : ∀ b', (σ.setBlock b {blk with strong := blk.strong - 1}).strong b' = 0 ↔ σ.strong b' = 0 := by
    intro b'
    rw [strong_setBlock]
    split
    · next he => rw [he, hstrong]; dsimp only; omega
    · rfl
  constructor
  · intro b'
    have hs := h.strong b'
    rw [strong_setBlock]
    split
    · next he =>
      subst he
      exact Nat.sub_eq_of_eq_add (by rw [hb']; exact (add_assoc _ _ 1).symm)
    · next he =>
      rw [List.count_cons_of_ne (by simpa using Ne.symm he)] at hs
      exact hs
  · intro b'
    have hw := h.weak b'
    rw [List.count_cons_of_ne (by simp), List.count_cons_of_ne (by simp)] at hw
    rw [weak_setBlock]
    simp only [hiff]
    split
    · next he =>
      subst he
      rw [← weak_of_block hb]
      exact hw
    · exact hw
  · intro b' blk' hblk
    rcases blocks_setBlock hblk with ⟨rfl, rfl⟩ | hblk
    · obtain ⟨hlt, hweak, hptr⟩ := h.block b' blk hb
      exact ⟨hlt, hweak, fun _ => hptr (by omega)⟩
    · exact h.block b' blk' hblk
  · intro b'
    rw [hiff]
    exact h.destroyed b'
  · intro b'
    exact (h.deleted b').trans (and_congr_right fun _ => (blocks_setBlock_eq_none hb _ b').symm)
  · exact h.destroyed_once
  · exact h.deleted_once
  · intro b' hf
    exact h.finishing b' (List.mem_cons_of_mem _ hf)

/-- The last owner is gone: the object is destroyed. -/
theorem Counted.destroy (h : Counted (.releaseStrong b :: rest) σ) {blk : SharedControlBlock}
    (hb : σ.blocks b = some blk) (h1 : blk.strong = 1) :
    Counted (σ.destructors b ++ [.finish b] ++ rest)
      {σ.setBlock b {blk with strong := 0} with destroyed := σ.destroyed ++ [b]} := by
  have hstrong := strong_of_block hb
  have hcount : ∀ instr : Instr, instr.loc = none → (σ.destructors b ++ [Instr.finish b] ++ rest).count instr =
      [Instr.finish b].count instr + rest.count instr := by
    intro instr hi
    rw [List.count_append, List.count_append, count_destructors hi, zero_add]
  have hb' := h.strong b
  rw [List.count_cons_self, hstrong, h1] at hb'
  have hlive : b ∉ σ.destroyed := by
    intro hd
    have hz := ((h.destroyed b).mp hd).2
    omega
  constructor
  · intro b'
    have hs := h.strong b'
    rw [hcount (.releaseStrong b') rfl, List.count_eq_zero.mpr (by simp), zero_add]
    refine (strong_setBlock _ b').trans ?_
    split
    · next he =>
      subst he
      have htotal : σ.total .strong b' + rest.count (.releaseStrong b') = 0 := by omega
      exact htotal.symm
    · next he =>
      rw [List.count_cons_of_ne (by simpa using Ne.symm he)] at hs
      exact hs
  · intro b'
    have hw := h.weak b'
    rw [List.count_cons_of_ne (by simp), List.count_cons_of_ne (by simp)] at hw
    have hzero : [Instr.finish b].count (.releaseWeak b') = 0 := List.count_eq_zero.mpr (by simp)
    rw [hcount (.releaseWeak b') rfl, hcount (.finish b') rfl, hzero, zero_add]
    have hs' : State.strong {σ.setBlock b {blk with strong := 0} with destroyed := σ.destroyed ++ [b]} b' =
        if b' = b then 0 else σ.strong b' := strong_setBlock _ b'
    have hw' : State.weak {σ.setBlock b {blk with strong := 0} with destroyed := σ.destroyed ++ [b]} b' =
        if b' = b then blk.weak else σ.weak b' := weak_setBlock _ b'
    have ht' : State.total {σ.setBlock b {blk with strong := 0} with destroyed := σ.destroyed ++ [b]} .weak b' =
        σ.total .weak b' := rfl
    rw [hs', hw', ht']
    by_cases he : b' = b
    · subst he
      rw [if_neg (by omega), weak_of_block hb] at hw
      rw [if_pos rfl, if_pos rfl, if_pos rfl, List.count_singleton_self]
      omega
    · have hzero' : [Instr.finish b].count (.finish b') = 0 := List.count_eq_zero.mpr (by simpa using he)
      rw [if_neg he, if_neg he, hzero', hw]
      omega
  · intro b' blk' hblk
    have hblk' : (σ.setBlock b {blk with strong := 0}).blocks b' = some blk' := hblk
    rcases blocks_setBlock hblk' with ⟨rfl, rfl⟩ | hold
    · obtain ⟨hlt, hweak, -⟩ := h.block b' blk hb
      exact ⟨hlt, hweak, fun h0 => absurd h0 (Nat.lt_irrefl 0)⟩
    · exact h.block b' blk' hold
  · intro b'
    have hs' : State.strong {σ.setBlock b {blk with strong := 0} with destroyed := σ.destroyed ++ [b]} b' =
        if b' = b then 0 else σ.strong b' := strong_setBlock _ b'
    rw [hs', List.mem_append, List.mem_singleton, h.destroyed]
    by_cases he : b' = b
    · subst he
      simp [(h.block b' blk hb).1]
    · simp [he]
  · intro b'
    exact (h.deleted b').trans (and_congr_right fun _ => (blocks_setBlock_eq_none hb _ b').symm)
  · apply List.Nodup.append h.destroyed_once (List.nodup_singleton b)
    simpa using hlive
  · exact h.deleted_once
  · intro b' hf
    rw [List.mem_append, List.mem_append, List.mem_singleton] at hf
    rcases hf with (hf | hf) | hf
    · obtain ⟨l, -, hf | hf⟩ := mem_destructors.mp hf
      · cases hf
      · cases hf
    · cases hf
      exact List.mem_append_right _ List.mem_cons_self
    · exact List.mem_append_left _ (h.finishing b' (List.mem_cons_of_mem _ hf))

theorem next_releaseWeak (blk : SharedControlBlock) : (σ.releaseWeak b blk).next = σ.next := by
  unfold State.releaseWeak
  split
  · rfl
  · rfl

theorem destroyed_releaseWeak (blk : SharedControlBlock) : (σ.releaseWeak b blk).destroyed = σ.destroyed := by
  unfold State.releaseWeak
  split
  · rfl
  · rfl

theorem total_releaseWeak (blk : SharedControlBlock) (k : Kind) (b' : ℕ) :
    (σ.releaseWeak b blk).total k b' = σ.total k b' := by
  unfold State.releaseWeak
  split
  · rfl
  · rfl

/-- The weak count goes down, and the block with it at the end. -/
theorem Counted.releaseWeak (h : Counted (instr :: rest) σ) (hi : instr = .releaseWeak b ∨ instr = .finish b)
    {blk blk' : SharedControlBlock} (hb : σ.blocks b = some blk) (hs : blk'.strong = blk.strong)
    (hw : blk'.weak = blk.weak) (hp : 0 < blk.strong → blk'.ptr = some b) : Counted rest (σ.releaseWeak b blk') := by
  have hstrong : σ.strong b = blk'.strong := (strong_of_block hb).trans hs.symm
  have hcounts : ∀ b', (instr :: rest).count (.releaseWeak b') + (instr :: rest).count (.finish b') =
      rest.count (.releaseWeak b') + rest.count (.finish b') + if b' = b then 1 else 0 := by
    intro b'
    rcases hi with rfl | rfl
    · by_cases he : b' = b
      · subst he
        rw [List.count_cons_self, List.count_cons_of_ne (by simp), if_pos rfl]
        omega
      · rw [List.count_cons_of_ne (by simpa using Ne.symm he), List.count_cons_of_ne (by simp), if_neg he]
        omega
    · by_cases he : b' = b
      · subst he
        rw [List.count_cons_self, List.count_cons_of_ne (by simp), if_pos rfl]
        omega
      · rw [List.count_cons_of_ne (by simp), List.count_cons_of_ne (by simpa using Ne.symm he), if_neg he]
        omega
  have hbw := h.weak b
  have hcb := hcounts b
  rw [weak_of_block hb, ← hw] at hbw
  rw [if_pos rfl] at hcb
  have hlast : blk'.weak = 1 → blk'.strong = 0 := by
    intro h1
    by_contra hne
    rw [if_neg (by rw [hstrong]; exact hne)] at hbw
    omega
  have hstrong' := strong_releaseWeak hstrong hlast
  constructor
  · intro b'
    rw [hstrong', total_releaseWeak, h.strong b']
    rcases hi with rfl | rfl
    · rw [List.count_cons_of_ne (by simp)]
    · rw [List.count_cons_of_ne (by simp)]
  · intro b'
    rw [hstrong', total_releaseWeak, weak_releaseWeak]
    have hbw' := h.weak b'
    have hcb' := hcounts b'
    by_cases he : b' = b
    · subst he
      rw [if_pos rfl]
      rw [weak_of_block hb, ← hw] at hbw'
      rw [if_pos rfl] at hcb'
      omega
    · rw [if_neg he]
      rw [if_neg he] at hcb'
      omega
  · intro b' blk'' hblk
    rw [next_releaseWeak]
    unfold State.releaseWeak at hblk
    split at hblk
    · by_cases he : b' = b
      · subst he
        simp at hblk
      · simp only [Function.update_of_ne he] at hblk
        exact h.block b' blk'' hblk
    · next hne =>
      obtain ⟨hlt, hpos, -⟩ := h.block b blk hb
      rcases blocks_setBlock hblk with ⟨rfl, rfl⟩ | hold
      · refine ⟨hlt, ?_, ?_⟩
        · dsimp only
          omega
        · intro h0
          apply hp
          rw [← hs]
          exact h0
      · exact h.block b' blk'' hold
  · intro b'
    rw [hstrong', destroyed_releaseWeak, next_releaseWeak]
    exact h.destroyed b'
  · intro b'
    rw [next_releaseWeak]
    unfold State.releaseWeak
    split
    · rw [List.mem_append, List.mem_singleton, h.deleted]
      by_cases he : b' = b
      · subst he
        simp [(h.block b' blk hb).1]
      · simp [he]
    · exact (h.deleted b').trans (and_congr_right fun _ => (blocks_setBlock_eq_none hb _ b').symm)
  · rw [destroyed_releaseWeak]
    exact h.destroyed_once
  · unfold State.releaseWeak
    split
    · apply List.Nodup.append h.deleted_once (List.nodup_singleton b)
      have hlive : b ∉ σ.deleted := by
        intro hd
        cases hb.symm.trans ((h.deleted b).mp hd).2
      simpa using hlive
    · exact h.deleted_once
  · intro b' hf
    rw [destroyed_releaseWeak]
    exact h.finishing b' (List.mem_cons_of_mem _ hf)

/-! ## Variables under the instructions -/

theorem apart_of_loc (h : (instr :: rest).Pairwise Apart) {l : Loc} (hi : instr.loc = some l) {instr' : Instr}
    (hm : instr' ∈ rest) (hi' : instr'.loc = some l) : instr' = .drop l :=
  ((List.pairwise_cons.mp h).1 instr' hm l hi hi').1

/-- One instruction gives way to others for the same variable, which keeps or changes its value and has no share
from then on. -/
theorem Shaped.change (h : Shaped held stays emptied (instr :: rest) σ) {pushed : List Instr}
    (hnot : ∀ l, instr ≠ .drop l) (hone : pushed.Pairwise Apart)
    (hpushed : ∀ i ∈ pushed, ∀ l, i.loc = some l → i = .clear l ∧ instr.loc = some l)
    (hd : σ'.dom = σ.dom) (hn : σ'.next = σ.next) (hl : σ'.layout = σ.layout) (hx : σ'.destroyed = σ.destroyed)
    (hother : ∀ l, instr.loc ≠ some l → σ'.value l = σ.value l)
    (hself : ∀ l, instr.loc = some l → (σ'.value l).ptr = (σ'.value l).control ∧ σ'.share l = none ∧
      (.clear l ∈ pushed ∨ σ'.value l = {})) : Shaped held stays emptied (pushed ++ rest) σ' := by
  have hlate : ∀ {i : Instr} {l : Loc}, instr.loc = some l → i.loc = some l → i ∈ rest → i = .drop l :=
    fun hs hloc hm => apart_of_loc h.apart hs hm hloc
  have htail : ∀ {i : Instr} {l : Loc}, i.loc = some l → instr.loc ≠ some l → i ∈ instr :: rest → i ∈ pushed ++ rest := by
    intro i l hloc hs hm
    refine List.mem_append_right _ ((List.mem_cons.mp hm).resolve_left ?_)
    rintro rfl
    exact hs hloc
  have hdropped : ∀ {l}, .drop l ∈ instr :: rest → .drop l ∈ pushed ++ rest := fun {l} hm =>
    List.mem_append_right _ ((List.mem_cons.mp hm).resolve_left (hnot l).symm)
  have hcases : ∀ {i : Instr} {l : Loc}, i.loc = some l → i ∈ pushed ++ rest →
      (i = .clear l ∧ instr.loc = some l) ∨ i ∈ rest :=
    fun hloc hm => (List.mem_append.mp hm).imp_left fun hm => hpushed _ hm _ hloc
  have hshare : ∀ l, instr.loc ≠ some l → σ'.share l = σ.share l := by
    intro l hs
    unfold State.share
    rw [hother l hs]
  have hmembers : ∀ o, σ'.memberLocs o = σ.memberLocs o := by
    intro o
    unfold State.memberLocs
    rw [hl]
  constructor
  · intro l hm
    rw [hd] at hm
    by_cases hs : instr.loc = some l
    · exact (hself l hs).1
    · rw [hother l hs]
      exact h.pointer l hm
  · intro o ho hnd l hm
    rw [hn] at ho
    rw [hx] at hnd
    rw [hmembers] at hm
    rw [hd]
    exact h.member o ho hnd l hm
  · intro l hm o i hp
    rw [hd] at hm
    rw [hn, hmembers, hx]
    obtain ⟨ho, hmem, hdrop⟩ := h.home l hm o i hp
    exact ⟨ho, hmem, fun hdes => hdropped (hdrop hdes)⟩
  · intro i hm l hloc
    rw [hd, hx]
    rcases hcases hloc hm with ⟨-, hs⟩ | hm
    · exact h.mention _ List.mem_cons_self l hs
    · exact h.mention i (List.mem_cons_of_mem _ hm) l hloc
  · intro l hm
    rw [hx]
    rcases hcases rfl hm with ⟨hc, -⟩ | hm
    · cases hc
    · exact h.dropped l (List.mem_cons_of_mem _ hm)
  · refine List.pairwise_append.mpr ⟨hone, (List.pairwise_cons.mp h.apart).2, ?_⟩
    intro i hi i' hi' l hloc hloc'
    obtain ⟨rfl, hs⟩ := hpushed i hi l hloc
    exact ⟨hlate hs hloc' hi', nofun⟩
  · intro l hm hg
    rw [hd] at hm
    by_cases hs : instr.loc = some l
    · refine List.mem_append_left _ ((hself l hs).2.2.resolve_right fun he => ?_)
      rw [he] at hg
      cases hg
    · rw [hother l hs] at hg
      exact htail rfl hs (h.given l hm hg)
  · intro l hm
    rcases hcases rfl hm with ⟨hc, -⟩ | hm
    · cases hc
    · have hs : instr.loc ≠ some l := fun hs => by cases hlate hs rfl hm
      rw [hother l hs]
      exact h.release l (List.mem_cons_of_mem _ hm)
  · intro l hm
    by_cases hs : instr.loc = some l
    · exact (hself l hs).2.1
    · rw [hshare l hs]
      rcases hcases rfl hm with ⟨-, hs'⟩ | hm
      · exact absurd hs' hs
      · exact h.clear l (List.mem_cons_of_mem _ hm)
  · intro l hm
    by_cases hs : instr.loc = some l
    · exact .inr (hself l hs).2.1
    · rw [hshare l hs]
      rcases hcases rfl hm with ⟨hc, -⟩ | hm
      · cases hc
      · exact (h.drop l (List.mem_cons_of_mem _ hm)).imp_left (htail rfl hs)
  · intro o ho
    obtain ⟨l, hm, hk, hs, hfree, hup⟩ := h.holder o ho
    have hne := hfree _ List.mem_cons_self
    refine ⟨l, hd ▸ hm, hk, (hshare l hne).trans hs, ?_, hup⟩
    intro i hin hloc
    rcases hcases hloc hin with ⟨-, hs'⟩ | hin
    · exact hne hs'
    · exact hfree i (List.mem_cons_of_mem _ hin) hloc
  · intro l hm
    rw [hd]
    obtain ⟨hdom, hdrop, hup⟩ := h.stays l hm
    refine ⟨hdom, fun hin => ?_, hup⟩
    rcases hcases rfl hin with ⟨hc, -⟩ | hin
    · cases hc
    · exact hdrop (List.mem_cons_of_mem _ hin)
  · intro l hm
    by_cases hs : instr.loc = some l
    · exact .inr ((hself l hs).2.2.imp_left (List.mem_append_left _))
    · rw [hother l hs]
      exact (h.emptied l hm).imp (htail rfl hs) (Or.imp_left (htail rfl hs))

/-- An instruction for blocks leaves the variables alone. -/
theorem Shaped.pop (h : Shaped held stays emptied (instr :: rest) σ) (hi : instr.loc = none) (hd : σ'.dom = σ.dom)
    (hv : σ'.value = σ.value) (hn : σ'.next = σ.next) (hl : σ'.layout = σ.layout) (hx : σ'.destroyed = σ.destroyed) :
    Shaped held stays emptied rest σ' := by
  refine h.change ?_ (.nil : [].Pairwise Apart) nofun hd hn hl hx (fun l _ => by rw [hv]) ?_
  · rintro l rfl
    cases hi
  · intro l hs
    cases hi.symm.trans hs

theorem pairwise_destructors (o : ℕ) : (σ.destructors o).Pairwise Apart := by
  unfold State.destructors
  rw [List.pairwise_flatMap]
  constructor
  · intro l _
    simp [Apart, Instr.loc]
  · apply (List.nodup_reverse.mpr (nodup_memberLocs o)).imp
    intro l l' hne x hx y hy l'' hl hl'
    have hxl : x.loc = some l := by
      simp only [List.mem_cons, List.not_mem_nil, or_false] at hx
      rcases hx with rfl | rfl
      · rfl
      · rfl
    have hyl : y.loc = some l' := by
      simp only [List.mem_cons, List.not_mem_nil, or_false] at hy
      rcases hy with rfl | rfl
      · rfl
      · rfl
    rw [hl] at hxl
    rw [hl'] at hyl
    exact absurd ((Option.some.inj hxl).symm.trans (Option.some.inj hyl)) hne

/-- An object that nothing outside the release holds is destroyed, with what it has for members. -/
theorem Shaped.destroy (h : Shaped held stays emptied (instr :: rest) σ) (hi : instr.loc = none) (hb : b < σ.next)
    (hlive : b ∉ σ.destroyed) (hfree : b ∉ held) (hd : σ'.dom = σ.dom) (hv : σ'.value = σ.value)
    (hn : σ'.next = σ.next) (hl : σ'.layout = σ.layout) (hx : σ'.destroyed = σ.destroyed ++ [b]) :
    Shaped held stays emptied (σ.destructors b ++ [.finish b] ++ rest) σ' := by
  have htail : ∀ {i : Instr} {l : Loc}, i.loc = some l → i ∈ instr :: rest →
      i ∈ σ.destructors b ++ [.finish b] ++ rest := by
    intro i l hloc hm
    rcases List.mem_cons.mp hm with rfl | hm
    · cases hi.symm.trans hloc
    · exact List.mem_append_right _ hm
  have hcases : ∀ {i : Instr} {l : Loc}, i.loc = some l → i ∈ σ.destructors b ++ [.finish b] ++ rest →
      (l ∈ σ.memberLocs b ∧ (i = .release l ∨ i = .drop l)) ∨ i ∈ rest := by
    intro i l hloc hm
    rw [List.mem_append, List.mem_append, List.mem_singleton] at hm
    rcases hm with (hm | rfl) | hm
    · obtain ⟨l', hl', rfl | rfl⟩ := mem_destructors.mp hm
      · cases hloc
        exact .inl ⟨hl', .inl rfl⟩
      · cases hloc
        exact .inl ⟨hl', .inr rfl⟩
    · cases hloc
    · exact .inr hm
  -- no member of the object is in the way yet
  have hquiet : ∀ l ∈ σ.memberLocs b, ∀ i ∈ instr :: rest, i.loc ≠ some l := by
    intro l hm i hin hloc
    obtain ⟨n, hp⟩ := place_of_mem hm
    rcases (h.mention i hin l hloc).2 b n hp with hdes | hheld
    · exact hlive hdes
    · exact hfree hheld
  have hshare : ∀ l, σ'.share l = σ.share l := by
    intro l
    unfold State.share
    rw [hv]
  have hmembers : ∀ o, σ'.memberLocs o = σ.memberLocs o := by
    intro o
    unfold State.memberLocs
    rw [hl]
  have hdes : ∀ {o}, o ∈ σ'.destroyed ↔ o ∈ σ.destroyed ∨ o = b := by
    intro o
    rw [hx, List.mem_append, List.mem_singleton]
  constructor
  · rw [hd, hv]
    exact h.pointer
  · intro o ho hnd l hm
    rw [hn] at ho
    rw [hmembers] at hm
    rw [hd]
    exact h.member o ho (fun hold => hnd (hdes.mpr (.inl hold))) l hm
  · intro l hm o i hp
    rw [hd] at hm
    rw [hn, hmembers, hdes]
    obtain ⟨ho, hmem, hdrop⟩ := h.home l hm o i hp
    refine ⟨ho, hmem, ?_⟩
    rintro (hold | rfl)
    · exact htail rfl (hdrop hold)
    · exact List.mem_append_left _ (List.mem_append_left _ (mem_destructors.mpr ⟨l, hmem, .inr rfl⟩))
  · intro i hm l hloc
    rw [hd]
    rcases hcases hloc hm with ⟨hmem, -⟩ | hm
    · refine ⟨h.member b hb hlive l hmem, ?_⟩
      intro o n hp
      obtain ⟨n', hp'⟩ := place_of_mem hmem
      cases hp.symm.trans hp'
      exact .inl (hdes.mpr (.inr rfl))
    · obtain ⟨hdom, hup⟩ := h.mention i (List.mem_cons_of_mem _ hm) l hloc
      exact ⟨hdom, fun o n hp => (hup o n hp).imp_left fun hold => hdes.mpr (.inl hold)⟩
  · intro l hm o n hp
    rcases hcases rfl hm with ⟨hmem, -⟩ | hm
    · obtain ⟨n', hp'⟩ := place_of_mem hmem
      cases hp.symm.trans hp'
      exact hdes.mpr (.inr rfl)
    · exact hdes.mpr (.inl (h.dropped l (List.mem_cons_of_mem _ hm) o n hp))
  · rw [List.append_assoc, List.pairwise_append]
    refine ⟨pairwise_destructors b, ?_, ?_⟩
    · rw [List.singleton_append, List.pairwise_cons]
      refine ⟨?_, (List.pairwise_cons.mp h.apart).2⟩
      intro y _ l hloc
      cases hloc
    · intro x hx y hy l hloc hloc'
      obtain ⟨l', hl', hxl⟩ := mem_destructors.mp hx
      have hll' : l' = l := by
        rcases hxl with rfl | rfl
        · exact Option.some.inj hloc
        · exact Option.some.inj hloc
      subst hll'
      rcases List.mem_cons.mp hy with rfl | hy
      · cases hloc'
      · exact absurd hloc' (hquiet l' hl' y (List.mem_cons_of_mem _ hy))
  · intro l hm hg
    rw [hd] at hm
    rw [hv] at hg
    exact htail rfl (h.given l hm hg)
  · intro l hm
    rw [hv]
    rcases hcases rfl hm with ⟨hmem, -⟩ | hm
    · by_contra hg
      have hclear := h.given l (h.member b hb hlive l hmem) (by simpa using hg)
      exact hquiet l hmem _ hclear rfl
    · exact h.release l (List.mem_cons_of_mem _ hm)
  · intro l hm
    rw [hshare]
    rcases hcases rfl hm with ⟨-, hc | hc⟩ | hm
    · cases hc
    · cases hc
    · exact h.clear l (List.mem_cons_of_mem _ hm)
  · intro l hm
    rw [hshare]
    rcases hcases rfl hm with ⟨hmem, -⟩ | hm
    · exact .inl (List.mem_append_left _ (List.mem_append_left _ (mem_destructors.mpr ⟨l, hmem, .inl rfl⟩)))
    · exact (h.drop l (List.mem_cons_of_mem _ hm)).imp_left (htail rfl)
  · intro o ho
    obtain ⟨l, hm, hk, hs, hout, hup⟩ := h.holder o ho
    refine ⟨l, hd ▸ hm, hk, (hshare l).trans hs, ?_, hup⟩
    intro i hin hloc
    rcases hcases hloc hin with ⟨hmem, -⟩ | hin
    · obtain ⟨n, hp⟩ := place_of_mem hmem
      exact hfree (hup b n hp)
    · exact hout i (List.mem_cons_of_mem _ hin) hloc
  · intro l hm
    rw [hd]
    obtain ⟨hdom, hdrop, hup⟩ := h.stays l hm
    refine ⟨hdom, ?_, hup⟩
    intro hin
    rcases hcases rfl hin with ⟨hmem, -⟩ | hin
    · obtain ⟨n, hp⟩ := place_of_mem hmem
      exact hfree (hup b n hp)
    · exact hdrop (List.mem_cons_of_mem _ hin)
  · intro l hm
    rw [hv]
    rcases h.emptied l hm with hr | hc | he
    · exact .inl (htail rfl hr)
    · exact .inr (.inl (htail rfl hc))
    · exact .inr (.inr he)

theorem value_write_self (p : Ptr) : (σ.write l p).value l = p := Function.update_self _ _ _

theorem value_write_of_ne (p : Ptr) {l' : Loc} (h : l' ≠ l) : (σ.write l p).value l' = σ.value l' :=
  Function.update_of_ne h _ _

/-- A variable that holds nothing is left as it is. -/
theorem Shaped.release_none (h : Shaped held stays emptied (.release l :: rest) σ) (hc : (σ.value l).control = none) :
    Shaped held stays emptied rest σ := by
  have hempty : σ.value l = {} := by
    obtain ⟨hdom, -⟩ := h.mention _ List.mem_cons_self l rfl
    have hp := h.pointer l hdom
    have hg := h.release l List.mem_cons_self
    rw [hc] at hp
    cases hv : σ.value l with
    | mk ptr control given =>
      rw [hv] at hc hp hg
      dsimp only at hc hp hg
      rw [hc, hp, hg]
  refine h.change nofun (.nil : [].Pairwise Apart) nofun rfl rfl rfl rfl (fun _ _ => rfl) ?_
  intro l' hs
  cases hs
  unfold State.share
  rw [hempty]
  exact ⟨rfl, rfl, .inr rfl⟩

theorem loc_ne (h : instr.loc = some l) {l' : Loc} (hs : instr.loc ≠ some l') : l' ≠ l := by
  rintro rfl
  exact hs h

/-- Of a variable that holds something the count is given back first. -/
theorem Shaped.release_some (h : Shaped held stays emptied (.release l :: rest) σ) (hi : instr.loc = none) {p : Ptr}
    (hp : p = {σ.value l with given := true}) : Shaped held stays emptied ([instr, .clear l] ++ rest) (σ.write l p) := by
  refine h.change nofun ?_ ?_ rfl rfl rfl rfl (fun l' hs => value_write_of_ne p (loc_ne rfl hs)) ?_
  · refine List.pairwise_pair.mpr fun l' hloc => ?_
    cases hi.symm.trans hloc
  · intro i hm l' hloc
    simp only [List.mem_cons, List.not_mem_nil, or_false] at hm
    rcases hm with rfl | rfl
    · cases hi.symm.trans hloc
    · cases hloc
      exact ⟨rfl, rfl⟩
  · intro l' hs
    cases hs
    rw [value_write_self, share_write, if_pos rfl, hp]
    exact ⟨h.pointer l (h.mention _ List.mem_cons_self l rfl).1, rfl, .inl (by simp)⟩

theorem Shaped.clear_step (h : Shaped held stays emptied (.clear l :: rest) σ) :
    Shaped held stays emptied rest (σ.write l {}) := by
  refine h.change nofun (.nil : [].Pairwise Apart) nofun rfl rfl rfl rfl (fun l' hs => value_write_of_ne _ (loc_ne rfl hs)) ?_
  intro l' hs
  cases hs
  rw [value_write_self, share_write, if_pos rfl]
  exact ⟨rfl, rfl, .inr rfl⟩

theorem Shaped.share_of_drop (h : Shaped held stays emptied (.drop l :: rest) σ) : σ.share l = none := by
  apply (h.drop l List.mem_cons_self).resolve_left
  intro hr
  rcases List.mem_cons.mp hr with hc | hr
  · cases hc
  · exact ((List.pairwise_cons.mp h.apart).1 _ hr l rfl rfl).2 rfl

theorem Shaped.drop_step (h : Shaped held stays emptied (.drop l :: rest) σ) :
    Shaped held stays emptied rest {σ with dom := σ.dom.erase l} := by
  have hout : ∀ {i : Instr}, i ∈ rest → i.loc ≠ some l := by
    intro i hm hloc
    exact ((List.pairwise_cons.mp h.apart).1 i hm l rfl hloc).2 rfl
  have htail : ∀ {i : Instr}, i ≠ .drop l → i ∈ .drop l :: rest → i ∈ rest := by
    intro i hne hm
    exact (List.mem_cons.mp hm).resolve_left hne
  constructor
  · exact fun l' hm => h.pointer l' (Finset.mem_of_mem_erase hm)
  · intro o ho hnd l' hm
    refine Finset.mem_erase.mpr ⟨?_, h.member o ho hnd l' hm⟩
    rintro rfl
    obtain ⟨i, hp⟩ := place_of_mem hm
    exact hnd (h.dropped l' List.mem_cons_self o i hp)
  · intro l' hm o i hp
    obtain ⟨hne, hdom⟩ := Finset.mem_erase.mp hm
    obtain ⟨ho, hmem, hdrop⟩ := h.home l' hdom o i hp
    refine ⟨ho, hmem, fun hdes => htail ?_ (hdrop hdes)⟩
    rintro hd
    cases hd
    exact hne rfl
  · intro i hm l' hloc
    obtain ⟨hdom, hup⟩ := h.mention i (List.mem_cons_of_mem _ hm) l' hloc
    refine ⟨Finset.mem_erase.mpr ⟨?_, hdom⟩, hup⟩
    rintro rfl
    exact hout hm hloc
  · exact fun l' hm => h.dropped l' (List.mem_cons_of_mem _ hm)
  · exact (List.pairwise_cons.mp h.apart).2
  · exact fun l' hm hg => htail nofun (h.given l' (Finset.mem_of_mem_erase hm) hg)
  · exact fun l' hm => h.release l' (List.mem_cons_of_mem _ hm)
  · exact fun l' hm => h.clear l' (List.mem_cons_of_mem _ hm)
  · exact fun l' hm => (h.drop l' (List.mem_cons_of_mem _ hm)).imp_left (htail nofun)
  · intro o ho
    obtain ⟨l', hm, hk, hs, hfree, hup⟩ := h.holder o ho
    refine ⟨l', Finset.mem_erase.mpr ⟨?_, hm⟩, hk, hs, fun i hin => hfree i (List.mem_cons_of_mem _ hin), hup⟩
    rintro rfl
    exact hfree _ List.mem_cons_self rfl
  · intro l' hm
    obtain ⟨hdom, hdrop, hup⟩ := h.stays l' hm
    refine ⟨Finset.mem_erase.mpr ⟨?_, hdom⟩, fun hin => hdrop (List.mem_cons_of_mem _ hin), hup⟩
    rintro rfl
    exact hdrop List.mem_cons_self
  · intro l' hm
    rcases h.emptied l' hm with hr | hc | hz
    · exact .inl (htail nofun hr)
    · exact .inr (.inl (htail nofun hc))
    · exact .inr (.inr hz)

/-! ## One instruction -/

/-- The counts do not see the variables but for their shares. -/
theorem Counted.congr (h : Counted stack σ) {stack' : List Instr}
    (hcount : ∀ instr : Instr, instr.loc = none → stack'.count instr = stack.count instr)
    (ht : ∀ k b, σ'.total k b = σ.total k b) (hb : σ'.blocks = σ.blocks) (hn : σ'.next = σ.next)
    (hx : σ'.destroyed = σ.destroyed) (hx' : σ'.deleted = σ.deleted) : Counted stack' σ' := by
  have hstrong : ∀ b, σ'.strong b = σ.strong b := by
    intro b
    unfold State.strong
    rw [hb]
  have hweak : ∀ b, σ'.weak b = σ.weak b := by
    intro b
    unfold State.weak
    rw [hb]
  constructor
  · intro b
    rw [hstrong, ht, hcount _ rfl]
    exact h.strong b
  · intro b
    rw [hweak, ht, hcount _ rfl, hcount _ rfl, hstrong]
    exact h.weak b
  · rw [hb, hn]
    exact h.block
  · intro b
    rw [hx, hn, hstrong]
    exact h.destroyed b
  · rw [hx', hn, hb]
    exact h.deleted
  · rw [hx]
    exact h.destroyed_once
  · rw [hx']
    exact h.deleted_once
  · intro b hf
    rw [hx]
    apply h.finishing
    rw [← List.count_pos_iff] at hf ⊢
    rw [← hcount _ rfl]
    exact hf

theorem count_tail {a : Instr} {l : Loc} (ha : a.loc = some l) (instr : Instr) (hi : instr.loc = none) :
    rest.count instr = (a :: rest).count instr := by
  rw [List.count_cons_of_ne]
  rintro rfl
  cases hi.symm.trans ha

def Kind.give (k : Kind) (b : ℕ) : Instr := match k with
  | strong => .releaseStrong b
  | weak => .releaseWeak b

/-- The share moves from the variable to the instruction that gives it back. -/
theorem Counted.release_some (h : Counted (.release l :: rest) σ) (hl : l ∈ σ.dom) (hs : σ.share l = some b) {p : Ptr}
    (hp : p.share = none) : Counted ([l.kind.give b, .clear l] ++ rest) (σ.write l p) := by
  have htotal : ∀ k b', (σ.write l p).total k b' + (if l.kind = k ∧ b = b' then 1 else 0) = σ.total k b' := by
    intro k b'
    have ht := total_write hl p (k := k) (b := b')
    rw [hs, hp] at ht
    simpa using ht
  have hcount : ∀ k b', ([l.kind.give b, .clear l] ++ rest).count (Kind.give k b') =
      (if l.kind = k ∧ b = b' then 1 else 0) + rest.count (Kind.give k b') := by
    intro k b'
    rw [List.count_append]
    congr 1
    cases hk : l.kind with
    | strong =>
      cases k with
      | strong => simp [Kind.give, List.count_cons]
      | weak => simp [Kind.give]
    | weak =>
      cases k with
      | strong => simp [Kind.give]
      | weak => simp [Kind.give, List.count_cons]
  have hfinish : ∀ b', ([l.kind.give b, .clear l] ++ rest).count (.finish b') = rest.count (.finish b') := by
    intro b'
    cases l.kind with
    | strong => simp [Kind.give]
    | weak => simp [Kind.give]
  constructor
  · intro b'
    have hold := h.strong b'
    rw [← count_tail rfl _ rfl, ← htotal] at hold
    have hnew : ([l.kind.give b, .clear l] ++ rest).count (.releaseStrong b') =
      (if l.kind = .strong ∧ b = b' then 1 else 0) + rest.count (.releaseStrong b') := hcount .strong b'
    change σ.strong b' = _
    omega
  · intro b'
    have hold := h.weak b'
    rw [← count_tail rfl _ rfl, ← count_tail rfl _ rfl, ← htotal] at hold
    have hnew : ([l.kind.give b, .clear l] ++ rest).count (.releaseWeak b') =
      (if l.kind = .weak ∧ b = b' then 1 else 0) + rest.count (.releaseWeak b') := hcount .weak b'
    have hnew' := hfinish b'
    change σ.weak b' = _ + if σ.strong b' = 0 then 0 else 1
    omega
  · exact h.block
  · exact h.destroyed
  · exact h.deleted
  · exact h.destroyed_once
  · exact h.deleted_once
  · intro b' hf
    apply h.finishing
    rw [← List.count_pos_iff] at hf ⊢
    rw [hfinish] at hf
    rw [← count_tail rfl _ rfl]
    exact hf

structure Inv (held : Set ℕ) (stays emptied : Set Loc) (stack : List Instr) (σ : State) : Prop where
  counted : Counted stack σ
  shaped : Shaped held stays emptied stack σ

theorem Inv.held_strong (h : Inv held stays emptied stack σ) (hb : b ∈ held) :
    stack.count (.releaseStrong b) < σ.strong b := by
  obtain ⟨l, hl, hk, hs, -⟩ := h.shaped.holder b hb
  have hpos := total_pos hl hk hs
  rw [h.counted.strong b]
  omega

def Instr.weight : Instr → ℕ
  | release _ => 3
  | _ => 1

theorem Instr.weight_pos (instr : Instr) : 0 < instr.weight := by
  cases instr with
  | release l => exact Nat.succ_pos 2
  | _ => exact Nat.one_pos

def measure (stack : List Instr) (σ : State) : ℕ ×ₗ ℕ :=
  toLex (σ.next - σ.destroyed.length, (stack.map Instr.weight).sum)

theorem measure_pop (pushed : List Instr) (hn : σ'.next = σ.next) (hx : σ'.destroyed = σ.destroyed)
    (hw : (pushed.map Instr.weight).sum < instr.weight) : measure (pushed ++ rest) σ' < measure (instr :: rest) σ := by
  unfold measure
  rw [hn, hx]
  apply Prod.Lex.toLex_lt_toLex.mpr
  right
  simpa using hw

theorem step_last {blk : SharedControlBlock} (hb : σ.blocks b = some blk) (h1 : blk.strong = 1)
    (hp : blk.ptr = some b) : σ.step (.releaseStrong b) = .ok (σ.destructors b ++ [.finish b],
      {σ.setBlock b {blk with strong := 0} with destroyed := σ.destroyed ++ [b]}) := by
  simp only [State.step, block_ok hb, bind, Except.bind, hp, if_pos h1]
  rfl

theorem step_owned {blk : SharedControlBlock} (hb : σ.blocks b = some blk) (h1 : blk.strong ≠ 1) :
    σ.step (.releaseStrong b) = .ok ([], σ.setBlock b {blk with strong := blk.strong - 1}) := by
  simp only [State.step, block_ok hb, bind, Except.bind, if_neg h1]
  rfl

theorem step_release_none (hl : l ∈ σ.dom) (hv : (σ.value l).control = none) : σ.step (.release l) = .ok ([], σ) := by
  simp only [State.step, read_ok hl, bind, Except.bind, hv]
  rfl

theorem step_release_some (hl : l ∈ σ.dom) (hv : (σ.value l).control = some b) :
    σ.step (.release l) = .ok ([l.kind.give b, .clear l], σ.write l {σ.value l with given := true}) := by
  simp only [State.step, read_ok hl, bind, Except.bind, hv]
  rfl

theorem Shaped.releaseWeak (h : Shaped held stays emptied (instr :: rest) σ) (hi : instr.loc = none)
    (blk : SharedControlBlock) : Shaped held stays emptied rest (σ.releaseWeak b blk) := by
  apply h.pop hi _ _ (next_releaseWeak blk) _ (destroyed_releaseWeak blk)
  · unfold State.releaseWeak
    split
    · rfl
    · rfl
  · unfold State.releaseWeak
    split
    · rfl
    · rfl
  · unfold State.releaseWeak
    split
    · rfl
    · rfl

/-- Every instruction is carried out, keeps the invariant, and brings the end nearer. -/
theorem Inv.step (h : Inv held stays emptied (instr :: rest) σ) :
    ∃ pushed σ', σ.step instr = .ok (pushed, σ') ∧ Inv held stays emptied (pushed ++ rest) σ' ∧
      measure (pushed ++ rest) σ' < measure (instr :: rest) σ := by
  obtain ⟨hc, hs⟩ := h
  cases instr with
  | releaseStrong b =>
    have hstrong := hc.strong b
    have hweak := hc.weak b
    rw [List.count_cons_self] at hstrong
    rw [if_neg (by omega)] at hweak
    have hpos : 0 < σ.weak b := by omega
    obtain ⟨blk, hb, -⟩ := exists_block hpos
    obtain ⟨hlt, -, hptr⟩ := hc.block b blk hb
    rw [strong_of_block hb] at hstrong
    by_cases h1 : blk.strong = 1
    · have hlive : b ∉ σ.destroyed := by
        intro hd
        have hz := ((hc.destroyed b).mp hd).2
        rw [strong_of_block hb] at hz
        omega
      have hfree : b ∉ held := by
        intro hin
        have hheld := Inv.held_strong ⟨hc, hs⟩ hin
        rw [List.count_cons_self, strong_of_block hb] at hheld
        omega
      have hdes := hc.destroy hb h1
      refine ⟨_, _, step_last hb h1 (hptr (by omega)), ⟨hdes, hs.destroy rfl hlt hlive hfree rfl rfl rfl rfl rfl⟩, ?_⟩
      unfold measure
      apply Prod.Lex.toLex_lt_toLex.mpr
      left
      have hlen : (σ.destroyed ++ [b]).length ≤ σ.next := by
        have hsub : (σ.destroyed ++ [b]).toFinset ⊆ Finset.range σ.next := by
          intro o ho
          exact Finset.mem_range.mpr ((hdes.destroyed o).mp (List.mem_toFinset.mp ho)).1
        have hcard := Finset.card_le_card hsub
        rw [List.toFinset_card_of_nodup hdes.destroyed_once, Finset.card_range] at hcard
        exact hcard
      rw [List.length_append, List.length_singleton] at hlen
      dsimp only
      rw [List.length_append, List.length_singleton]
      change σ.next - _ < _
      omega
    · refine ⟨[], _, step_owned hb h1, ⟨hc.releaseStrong hb h1, hs.pop rfl rfl rfl rfl rfl rfl⟩, ?_⟩
      exact measure_pop [] rfl rfl (Instr.weight_pos _)
  | releaseWeak b =>
    have hweak := hc.weak b
    rw [List.count_cons_self] at hweak
    have hpos : 0 < σ.weak b := by omega
    obtain ⟨blk, hb, -⟩ := exists_block hpos
    refine ⟨[], σ.releaseWeak b blk, ?_, ⟨hc.releaseWeak (.inl rfl) hb rfl rfl (hc.block b blk hb).2.2, ?_⟩, ?_⟩
    · simp only [State.step, block_ok hb]
      rfl
    · exact hs.releaseWeak rfl blk
    · exact measure_pop [] (next_releaseWeak blk) (destroyed_releaseWeak blk) (Instr.weight_pos _)
  | finish b =>
    have hweak := hc.weak b
    rw [List.count_cons_self] at hweak
    have hpos : 0 < σ.weak b := by omega
    obtain ⟨blk, hb, -⟩ := exists_block hpos
    have hzero : blk.strong = 0 := by
      rw [← strong_of_block hb]
      exact ((hc.destroyed b).mp (hc.finishing b List.mem_cons_self)).2
    refine ⟨[], σ.releaseWeak b {blk with ptr := none}, ?_, ⟨?_, hs.releaseWeak rfl _⟩, ?_⟩
    · simp only [State.step, block_ok hb]
      rfl
    · exact hc.releaseWeak (.inr rfl) hb rfl rfl fun hpos => absurd hzero (Nat.pos_iff_ne_zero.mp hpos)
    · exact measure_pop [] (next_releaseWeak _) (destroyed_releaseWeak _) (Instr.weight_pos _)
  | release l =>
    obtain ⟨hl, -⟩ := hs.mention _ List.mem_cons_self l rfl
    cases hv : (σ.value l).control with
    | none =>
      refine ⟨[], σ, step_release_none hl hv, ⟨?_, hs.release_none hv⟩, measure_pop [] rfl rfl (Instr.weight_pos _)⟩
      exact hc.congr (count_tail rfl) (fun _ _ => rfl) rfl rfl rfl rfl
    | some b =>
      have hshare : σ.share l = some b := by
        unfold State.share Ptr.share
        rw [hs.release l List.mem_cons_self, hv]
        rfl
      refine ⟨_, _, step_release_some hl hv, ⟨hc.release_some hl hshare rfl, hs.release_some ?_ rfl⟩, ?_⟩
      · unfold Kind.give
        split
        · rfl
        · rfl
      · apply measure_pop _ rfl rfl
        unfold Kind.give
        split
        · exact Nat.lt_succ_self 2
        · exact Nat.lt_succ_self 2
  | clear l =>
    obtain ⟨hl, -⟩ := hs.mention _ List.mem_cons_self l rfl
    refine ⟨[], σ.write l {}, ?_, ⟨hc.congr (count_tail rfl) ?_ rfl rfl rfl rfl, hs.clear_step⟩, ?_⟩
    · simp only [State.step, read_ok hl]
      rfl
    · intro k b
      refine total_congr (show (σ.write l {}).dom = σ.dom from rfl) ?_
      intro l' _
      rw [share_write]
      split
      · next he =>
        rw [he, hs.clear l List.mem_cons_self]
        rfl
      · rfl
    · exact measure_pop [] rfl rfl (Instr.weight_pos _)
  | drop l =>
    obtain ⟨hl, -⟩ := hs.mention _ List.mem_cons_self l rfl
    refine ⟨[], {σ with dom := σ.dom.erase l}, ?_, ⟨hc.congr (count_tail rfl) ?_ rfl rfl rfl rfl, hs.drop_step⟩, ?_⟩
    · simp only [State.step, read_ok hl]
      rfl
    · intro k b
      exact total_erase hl hs.share_of_drop
    · exact measure_pop [] rfl rfl (Instr.weight_pos _)

/-- A release comes to its end. -/
theorem Inv.exec (h : Inv held stays emptied stack σ) :
    ∃ n σ', State.exec n stack σ = .ok σ' ∧ Inv held stays emptied [] σ' := by
  induction hm : measure stack σ using WellFoundedLT.induction generalizing stack σ with
  | ind m ih =>
    cases stack with
    | nil => exact ⟨0, σ, rfl, h⟩
    | cons instr rest =>
      obtain ⟨pushed, σ', hstep, hinv, hlt⟩ := h.step
      obtain ⟨n, σ'', hexec, hend⟩ := ih _ (hm ▸ hlt) hinv rfl
      refine ⟨n + 1, σ'', ?_, hend⟩
      unfold State.exec
      rw [hstep]
      exact hexec

end Zpc.SharedPtr
