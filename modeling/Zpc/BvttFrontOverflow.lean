import Zpc.BvttFrontReorder

/-!
# Fronts that overflow

The counter of a front goes on beyond the capacity, and `reorder` goes by the counter. It is safe, and orders the pairs,
just when nothing has been pushed beyond the capacity and all nodes are in the tree.
-/
namespace Zpc.BvttFront
open Interleaving

variable {primBits nodeBits bits : ℕ} {b : BvttFront primBits nodeBits bits} {m : Memory primBits nodeBits}
  {programs : List (List (Pair primBits nodeBits))} {c : Config (Memory primBits nodeBits) (PushFrame primBits nodeBits)}

section Fits
/-- What `reorder` finds after the calls. -/
theorem ready_of_stored {m' : Memory primBits nodeBits} (hperm : (b.stored m').Perm (b.stored m ++ programs.flatten))
    (hcnt : m'.cnt = (b.stored m').length) (hcap : m'.cnt ≤ b.capacity)
    (hnodes : ∀ p ∈ b.stored m ++ programs.flatten, p.2 < b.numNodes) : Ready b m' (b.stored m').length where
  cnt := hcnt
  le := by omega
  lt i hi := by
    have hget : (b.stored m')[i]? = some (m'.prims i, m'.nodes i) := stored_getElem?.mpr ⟨by omega, rfl⟩
    exact hnodes _ (hperm.mem_iff.mp (List.mem_of_getElem? hget))

theorem Fits.pushesAndReorders (h : b.Fits m programs) (hm : 0 ≤ m.cnt ∧ m.cnt ≤ b.capacity) :
    b.PushesAndReorders m programs :=
  (pushes_spec hm h.le).mono fun _ _ _ ⟨hperm, hcnt, hcap⟩ =>
    reorders_of_ready (ready_of_stored hperm hcnt hcap h.nodes)

end Fits

section Counter
def calls : PushFrame primBits nodeBits → ℕ
  | .pushBack _ => 1
  | _ => 0

theorem index_index_succ (n : ℤ) : index bits (index bits n + 1) = index bits (n + 1) := Int.bmod_add_bmod

theorem index_half (hbits : 1 < bits) : index bits (2 ^ (bits - 1) : ℕ) = -(2 ^ (bits - 1) : ℕ) := by
  have hpos := Nat.two_pow_pos (bits - 1)
  rw [index, two_pow_bits hbits]
  generalize 2 ^ (bits - 1) = k at hpos
  have hmod : (k : ℤ) % (k * 2 : ℕ) = k := Int.emod_eq_of_lt (by omega) (by omega)
  rw [Int.bmod_def, hmod]
  split_ifs <;> omega

/-- As long as no action leaves the arrays the counter has not wrapped. -/
theorem counter_reaches (hacts : ∀ c, Reaches b.pushBack free (pushStart m programs) c → Acts b.pushBack c)
    (hm : 0 ≤ m.cnt ∧ m.cnt ≤ b.capacity) (hr : Reaches b.pushBack free (pushStart m programs) c) :
    ∃ d : ℕ, c.mem.cnt = index bits d ∧ d ≤ 2 ^ (bits - 1) ∧
      d + c.total calls = m.cnt.toNat + programs.flatten.length := by
  have hcap := b.capacity_lt
  induction hr with
  | refl =>
    obtain ⟨k, hk⟩ := Int.eq_ofNat_of_zero_le hm.1
    have hcalls : (pushStart m programs).total calls = programs.flatten.length := by
      rw [Config.total, Config.frames, pushStart, ← List.map_flatten, List.map_map]
      simp [Function.comp_def, calls]
    refine ⟨k, ?_, by omega, by rw [hcalls, hk, Int.toNat_natCast]⟩
    rw [index_of_lt (by omega) b.one_lt]
    exact hk
  | step hr hg hs ih =>
    rename_i c c' f x
    obtain ⟨d, hcnt, hd, hsum⟩ := ih
    obtain ⟨fs, he, hmeasure⟩ := hs.total
    obtain ⟨r, hold, hnew⟩ := hmeasure calls
    cases f with
    | pushBack p =>
      obtain ⟨hmem, hfs⟩ := Prod.mk.inj (Option.some.inj he)
      refine ⟨d + 1, ?_, ?_, ?_⟩
      · rw [← hmem]
        show index bits (c.mem.cnt + 1) = _
        rw [hcnt, index_index_succ]
        rfl
      · by_contra hlt
        -- the counter has become negative, and the call goes on to write before the arrays
        have hneg : c.mem.cnt = -(2 ^ (bits - 1) : ℕ) := by
          rw [hcnt, Nat.le_antisymm hd (by omega)]
          exact index_half b.one_lt
        have hpos := Nat.two_pow_pos (bits - 1)
        rw [if_pos (by omega)] at hfs
        obtain ⟨k, hk⟩ := hs.on_top (he.trans (by rw [hfs]))
        obtain ⟨_, hstore⟩ := hacts _ (hr.step trivial hs) _ k hk
        rw [pushBack, store, if_neg (by omega)] at hstore
        cases hstore
      · have hzero : (fs.map calls).sum = 0 := by
          rw [← hfs]
          split_ifs <;> rfl
        have hone : calls (PushFrame.pushBack p) = 1 := rfl
        omega
    | setPrim no p =>
      obtain ⟨_, -, he⟩ := Option.map_eq_some_iff.mp he
      obtain ⟨hmem, rfl⟩ := Prod.mk.inj he
      refine ⟨d, by rw [← hmem]; exact hcnt, hd, ?_⟩
      simp only [calls, List.map_cons, List.map_nil, List.sum_cons, List.sum_nil] at hold hnew
      omega
    | setNode no p =>
      obtain ⟨_, -, he⟩ := Option.map_eq_some_iff.mp he
      obtain ⟨hmem, rfl⟩ := Prod.mk.inj he
      refine ⟨d, by rw [← hmem]; exact hcnt, hd, ?_⟩
      simp only [calls, List.map_nil, List.sum_nil] at hold hnew
      omega

end Counter

section Overflow
/-- The first pass reads a node of the tree at every index up to the counter. -/
theorem node_of_reorders {P : Memory primBits nodeBits → Prop} (h : b.Reorders m P) {i : ℤ} (hi : i ∈ range m.cnt) :
    ∃ nodeid, b.node m i = some nodeid ∧ nodeid < b.numNodes := by
  have hflatten : ((range m.cnt).map ([·])).flatten = range m.cnt := by
    generalize range m.cnt = l
    induction l with
    | nil => rfl
    | cons i l ih => rw [List.map_cons, List.flatten_cons, ih, List.singleton_append]
  obtain ⟨_, hsome⟩ := (h _ (List.Perm.of_eq hflatten)).acts _ .refl i [] (List.mem_map_of_mem hi)
  obtain ⟨_, hcode⟩ := Option.isSome_iff_exists.mp hsome
  obtain ⟨nodeid, hnode, hcode⟩ := Option.bind_eq_some_iff.mp hcode
  obtain ⟨_, hfetch, _⟩ := Option.bind_eq_some_iff.mp hcode
  refine ⟨nodeid, hnode, ?_⟩
  rw [fetch] at hfetch
  split_ifs at hfetch with hlt
  exact Int.ofNat_lt.mp hlt.2

theorem mem_range_of_pos {n i : ℕ} (hi : i < n) : (i : ℤ) ∈ range n := by
  rw [range, Int.natAbs_natCast]
  exact List.mem_map.mpr ⟨i, List.mem_range.mpr hi, if_pos (by omega)⟩

theorem mem_range_of_neg {n : ℕ} (hn : 1 < n) : (-1 : ℤ) ∈ range (-(n : ℤ)) := by
  rw [range, Int.natAbs_neg, Int.natAbs_natCast]
  exact List.mem_map.mpr ⟨1, List.mem_range.mpr hn, if_neg (by omega)⟩

/-- Without an access outside the arrays the pairs have found room. -/
theorem PushesAndReorders.fits (h : b.PushesAndReorders m programs) (hm : 0 ≤ m.cnt ∧ m.cnt ≤ b.capacity) :
    b.Fits m programs := by
  obtain ⟨c, hr, hf, hreorders⟩ := h.completes
  obtain ⟨d, hcnt, hd, hsum⟩ := counter_reaches h.acts hm hr
  rw [Config.total, hf, List.map_nil, List.sum_nil, Nat.add_zero] at hsum
  have hcap := b.capacity_lt
  have hnotall : ∀ nodeid : BitVec nodeBits, ~~~(0 : BitVec nodeBits) < nodeid → False := by
    intro nodeid hlt
    have hlt' := nodeid.isLt
    have hzero : (0 : BitVec nodeBits).toNat = 0 := Nat.zero_mod _
    rw [BitVec.lt_def, BitVec.toNat_not, hzero] at hlt
    omega
  have hlt : d < 2 ^ (bits - 1) := by
    by_contra hge
    have hneg : c.mem.cnt = -(2 ^ (bits - 1) : ℕ) := by
      rw [hcnt, Nat.le_antisymm hd (by omega)]
      exact index_half b.one_lt
    have htwo : 1 < 2 ^ (bits - 1) := Nat.one_lt_two_pow (by have := b.one_lt; omega)
    obtain ⟨_, hnode, _⟩ := node_of_reorders hreorders (hneg ▸ mem_range_of_neg htwo)
    rw [node, if_pos (by omega), fetch, if_neg (by omega)] at hnode
    cases hnode
  rw [index_of_lt hlt b.one_lt] at hcnt
  have hle : m.cnt + programs.flatten.length ≤ b.capacity := by
    by_contra hgt
    obtain ⟨nodeid, hnode, hlt⟩ := node_of_reorders hreorders
      (hcnt ▸ mem_range_of_pos (by omega : b.capacity < d))
    rw [node, if_neg (by omega)] at hnode
    obtain rfl := Option.some.inj hnode
    exact hnotall _ hlt
  refine ⟨hle, fun p hp => ?_⟩
  obtain ⟨hperm, hlen, hcap'⟩ := (pushes_spec hm hle).result c hr hf
  obtain ⟨i, hi⟩ := List.mem_iff_getElem?.mp (hperm.symm.mem_iff.mp hp)
  obtain ⟨hlt, rfl⟩ := stored_getElem?.mp hi
  obtain ⟨nodeid, hnode, hlt'⟩ := node_of_reorders hreorders (hcnt ▸ mem_range_of_pos (by omega : i < d))
  rw [node, if_pos (by omega), fetch_of_lt (by omega)] at hnode
  obtain rfl := Option.some.inj hnode
  exact hlt'

theorem pushes_and_reorders_iff (b : BvttFront primBits nodeBits bits) (m : Memory primBits nodeBits)
    (hm : 0 ≤ m.cnt ∧ m.cnt ≤ b.capacity) (programs : List (List (Pair primBits nodeBits))) :
    b.PushesAndReorders m programs ↔ b.Fits m programs :=
  ⟨fun h => h.fits hm, fun h => h.pushesAndReorders hm⟩

end Overflow

section Example
def oneSlot : BvttFront 32 32 32 := ⟨1, 4#32, by decide, by decide⟩

def fresh : Memory 32 32 := ⟨fun _ => 0#32, fun _ => 0#32, 0⟩

/-- Two pairs for one slot: the counter says two, and `reorder` reads the node of the second. -/
theorem overflow_leaves_arrays : ¬ ∀ (b : BvttFront 32 32 32) (programs : List (List (Pair 32 32))),
    (∀ p ∈ programs.flatten, p.2 < b.numNodes) → b.PushesAndReorders fresh programs := by
  intro hall
  have hnodes : ∀ p ∈ [[(5#32, 3#32)], [(6#32, 2#32)]].flatten, p.2 < oneSlot.numNodes := by
    intro p hp
    have hp : p = (5#32, 3#32) ∨ p = (6#32, 2#32) := by simpa using hp
    rcases hp with rfl | rfl
    · exact (by decide : 3#32 < 4#32)
    · exact (by decide : 2#32 < 4#32)
  have hfits := (hall oneSlot _ hnodes).fits ⟨by decide, by decide⟩
  exact absurd hfits.le (by decide)

theorem pushes_and_reorders_iff_oneSlot : oneSlot.PushesAndReorders fresh [[(5#32, 3#32)]] ↔
    oneSlot.Fits fresh [[(5#32, 3#32)]] :=
  pushes_and_reorders_iff oneSlot fresh ⟨by decide, by decide⟩ [[(5#32, 3#32)]]

end Example
end Zpc.BvttFront
