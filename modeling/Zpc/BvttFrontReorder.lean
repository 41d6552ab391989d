import Zpc.BvttFront

/-!
# Reordering a front

On a front without overflow the first pass counts the pairs of every node, and the second fills the segment of every
node with its pairs.
-/
namespace Zpc.BvttFront
open Interleaving SlotFilling SparseMatrix

variable {primBits nodeBits bits n : ℕ} {b : BvttFront primBits nodeBits bits} {m : Memory primBits nodeBits}

/-- The front holds `n` pairs, within its capacity and with nodes of the tree. -/
structure Ready (b : BvttFront primBits nodeBits bits) (m : Memory primBits nodeBits) (n : ℕ) : Prop where
  cnt : m.cnt = n
  le : n ≤ b.capacity
  lt : ∀ i < n, m.nodes i < b.numNodes

def key (m : Memory primBits nodeBits) (i : ℕ) : ℕ := (m.nodes i).toNat

def nodeCount (m : Memory primBits nodeBits) (n nodeid : ℕ) : ℕ := (List.range n).countP fun i => key m i = nodeid

section Access
variable (h : Ready b m n)
include h

theorem Ready.node {i : ℕ} (hi : i < n) : b.node m i = some (m.nodes i) := by
  have hle := h.le
  rw [BvttFront.node, if_pos (by omega), fetch_of_lt (by omega)]

theorem Ready.prim {i : ℕ} (hi : i < n) : b.prim m i = some (m.prims i) := by
  have hle := h.le
  rw [BvttFront.prim, if_pos (by omega), fetch_of_lt (by omega)]

theorem Ready.range : range m.cnt = (List.range n).map fun i : ℕ => (i : ℤ) := by
  rw [h.cnt, BvttFront.range, Int.natAbs_natCast]
  refine List.map_congr_left fun i hi => if_pos ?_
  have hlt := List.mem_range.mp hi
  omega

theorem Ready.lt_pow {k : ℕ} (hk : k ≤ n) : k < 2 ^ (bits - 1) := (hk.trans h.le).trans_lt b.capacity_lt

end Access

section Count
theorem nodeCount_le (m : Memory primBits nodeBits) (n nodeid : ℕ) : nodeCount m n nodeid ≤ n :=
  List.countP_le_length.trans List.length_range.le

/-- The scan counts the pairs of the nodes below. -/
theorem exclusiveScan_nodeCount (m : Memory primBits nodeBits) (n nodeid : ℕ) :
    exclusiveScan (nodeCount m n) nodeid = (List.range n).countP fun i => key m i < nodeid := by
  induction nodeid with
  | zero => simp [exclusiveScan]
  | succ nodeid ih =>
    rw [exclusiveScan, ih, nodeCount]
    generalize List.range n = l
    induction l with
    | nil => rfl
    | cons i l ih =>
      rw [List.countP_cons, List.countP_cons, List.countP_cons, ← ih]
      simp only [decide_eq_true_eq]
      split_ifs <;> omega

theorem exclusiveScan_le (m : Memory primBits nodeBits) (n nodeid : ℕ) : exclusiveScan (nodeCount m n) nodeid ≤ n := by
  rw [exclusiveScan_nodeCount]
  exact List.countP_le_length.trans List.length_range.le

variable {c c' : Config (ℕ → ℤ) ℤ} {i : ℤ} {x : Unit}

structure Counting (m : Memory primBits nodeBits) (n : ℕ) (c : Config (ℕ → ℤ) ℤ) : Prop where
  items : ∀ i ∈ c.frames, ∃ k < n, i = (k : ℤ)
  counts : ∀ nodeid, ∃ k : ℕ, c.mem nodeid = k ∧
    k + c.total (fun i => if key m i.toNat = nodeid then 1 else 0) = nodeCount m n nodeid

theorem total_items (f : ℕ → ℕ) {items : List (List ℤ)}
    (hitems : items.flatten.Perm ((List.range n).map fun i : ℕ => (i : ℤ))) (counts : ℕ → ℤ) :
    (⟨counts, items⟩ : Config (ℕ → ℤ) ℤ).total (fun i => f i.toNat) = ((List.range n).map f).sum := by
  rw [Config.total]
  show (items.flatten.map _).sum = _
  rw [(hitems.map _).sum_eq, List.map_map]
  rfl

theorem Counting.start (h : Ready b m n) {items : List (List ℤ)} (hitems : items.flatten.Perm (range m.cnt)) :
    Counting m n ⟨fun _ => 0, items⟩ := by
  rw [h.range] at hitems
  refine ⟨fun i hi => ?_, fun nodeid => ⟨0, rfl, ?_⟩⟩
  · obtain ⟨k, hk, rfl⟩ := List.mem_map.mp (hitems.mem_iff.mp hi)
    exact ⟨k, List.mem_range.mp hk, rfl⟩
  · rw [Nat.zero_add, total_items (fun i => if key m i = nodeid then 1 else 0) hitems, nodeCount]
    generalize List.range n = l
    induction l with
    | nil => rfl
    | cons i l ih =>
      rw [List.map_cons, List.sum_cons, ih, List.countP_cons]
      simp only [decide_eq_true_eq]
      omega

/-- What an item of the first pass does. -/
theorem Counting.code (h : Ready b m n) (hc : Counting m n c) (hi : i ∈ c.frames) :
    ∃ k < n, i = (k : ℤ) ∧ b.countNode m c.mem i x =
      some (Function.update c.mem (key m k) (c.mem (key m k) + 1), []) := by
  obtain ⟨k, hk, rfl⟩ := hc.items i hi
  refine ⟨k, hk, rfl, ?_⟩
  have hlt : key m k < b.numNodes.toNat := h.lt k hk
  obtain ⟨j, hj, hsum⟩ := hc.counts (key m k)
  have hpos := le_total (fun i : ℤ => if key m i.toNat = key m k then 1 else 0) hi
  rw [Int.toNat_natCast, if_pos rfl] at hpos
  have hle := nodeCount_le m n (key m k)
  have hindex : index bits (c.mem (key m k) + 1) = c.mem (key m k) + 1 := by
    rw [hj, index_succ_of_lt (h.lt_pow (by omega)) b.one_lt]
    rfl
  rw [countNode, h.node hk]
  show (fetch _ c.mem (key m k : ℤ)).bind _ = _
  rw [fetch_of_lt hlt, Option.bind_some]
  show (store _ c.mem (key m k : ℤ) (index bits (c.mem (key m k) + 1))).map _ = _
  rw [store_of_lt hlt, hindex]
  rfl

theorem Counting.step (h : Ready b m n) (hc : Counting m n c) (hs : Step (b.countNode m) c i x c') :
    Counting m n c' := by
  obtain ⟨k, hk, rfl, hcode⟩ := hc.code (x := x) h hs.mem_frame
  obtain ⟨hmem, -, hback⟩ := hs.effect hcode
  refine ⟨fun i hi => ?_, fun nodeid => ?_⟩
  · exact hc.items i ((hback i hi).resolve_left List.not_mem_nil)
  · obtain ⟨j, hj, hsum⟩ := hc.counts nodeid
    obtain ⟨r, hold, hnew⟩ := hs.total_of_code hcode fun i => if key m i.toNat = nodeid then 1 else 0
    rw [Int.toNat_natCast] at hold
    rw [hmem, hnew, List.map_nil, List.sum_nil]
    by_cases hkey : nodeid = key m k
    · subst hkey
      rw [if_pos rfl] at hold
      refine ⟨j + 1, ?_, by omega⟩
      rw [Function.update_self, hj]
      rfl
    · rw [if_neg (Ne.symm hkey)] at hold
      exact ⟨j, (Function.update_of_ne hkey ..).trans hj, by omega⟩

/-- The first pass counts the pairs of every node. -/
theorem count_spec (h : Ready b m n) {items : List (List ℤ)} (hitems : items.flatten.Perm (range m.cnt)) :
    Always (b.countNode m) ⟨fun _ => 0, items⟩ fun counts => ∀ nodeid, counts nodeid = nodeCount m n nodeid := by
  refine always_of_invariant (Counting m n) (fun _ => 1) (Counting.start h hitems) (fun he => ?_) (fun c hc i hi => ?_)
    (fun c i x c' hc hs => hc.step h hs) fun c hc hf nodeid => ?_
  · obtain ⟨_, -, he⟩ := Option.bind_eq_some_iff.mp he
    obtain ⟨_, -, he⟩ := Option.bind_eq_some_iff.mp he
    obtain ⟨_, -, he⟩ := Option.map_eq_some_iff.mp he
    cases he
    exact Nat.zero_lt_one
  · obtain ⟨k, _, _, hcode⟩ := hc.code (x := ()) h hi
    exact ⟨(), by rw [hcode]; rfl⟩
  · obtain ⟨j, hj, hsum⟩ := hc.counts nodeid
    rw [Config.total, hf, List.map_nil, List.sum_nil, Nat.add_zero] at hsum
    rw [hj, hsum]

theorem scan_eq (h : Ready b m n) {counts : ℕ → ℤ} (hcounts : ∀ nodeid, counts nodeid = nodeCount m n nodeid)
    (nodeid : ℕ) : scan bits counts nodeid = exclusiveScan (nodeCount m n) nodeid := by
  induction nodeid with
  | zero => rfl
  | succ nodeid ih =>
    rw [scan, ih, hcounts]
    exact index_of_lt (h.lt_pow (exclusiveScan_le m n (nodeid + 1))) b.one_lt

end Count

section Scatter
variable {offsets : ℕ → ℤ} {c c' : Config (Scatter primBits nodeBits) (ScatterFrame nodeBits)}
  {f : ScatterFrame nodeBits} {x : Unit} {taken : ℕ → List ℕ}

def scatterWeight : ScatterFrame nodeBits → ℕ
  | .locate _ => 3
  | .setPrim _ _ _ => 2
  | .setNode _ _ => 1

theorem scatter_weight {s s' : Scatter primBits nodeBits} {fs : List (ScatterFrame nodeBits)}
    (h : b.scatter m offsets s f x = some (s', fs)) : (fs.map scatterWeight).sum < scatterWeight f := by
  cases f with
  | locate i =>
    obtain ⟨_, -, h⟩ := Option.bind_eq_some_iff.mp h
    obtain ⟨_, -, h⟩ := Option.bind_eq_some_iff.mp h
    obtain ⟨_, -, h⟩ := Option.bind_eq_some_iff.mp h
    obtain ⟨_, -, h⟩ := Option.map_eq_some_iff.mp h
    cases h
    simp [scatterWeight]
  | setPrim i loc nodeid =>
    obtain ⟨_, -, h⟩ := Option.bind_eq_some_iff.mp h
    obtain ⟨_, -, h⟩ := Option.map_eq_some_iff.mp h
    cases h
    simp [scatterWeight]
  | setNode loc nodeid =>
    obtain ⟨_, -, h⟩ := Option.map_eq_some_iff.mp h
    cases h
    simp [scatterWeight]

/-- The item of a turn that has not taken a place of the node. -/
def waiting (m : Memory primBits nodeBits) (nodeid : ℕ) : ScatterFrame nodeBits → Multiset ℕ
  | .locate i => if key m i.toNat = nodeid then {i.toNat} else 0
  | _ => 0

/-- The place `j` of the segment of a node is for the item that took it. -/
def Promised (m : Memory primBits nodeBits) (n : ℕ) (taken : ℕ → List ℕ) (loc : ℕ) (p : Pair primBits nodeBits) :
    Prop :=
  ∃ nodeid j i, (taken nodeid)[j]? = some i ∧ loc = exclusiveScan (nodeCount m n) nodeid + j ∧
    p = (m.prims i, m.nodes i)

/-- The items `taken nodeid` have taken the first places of the node, and each is there or on its way. -/
structure Scattering (b : BvttFront primBits nodeBits bits) (m : Memory primBits nodeBits) (n : ℕ)
    (c : Config (Scatter primBits nodeBits) (ScatterFrame nodeBits)) (taken : ℕ → List ℕ) : Prop where
  counts : ∀ nodeid, c.mem.counts nodeid = (taken nodeid).length
  total : ∀ nodeid, (taken nodeid : Multiset ℕ) + c.total (waiting m nodeid) =
    ((List.range n).filter fun i => key m i = nodeid : List ℕ)
  items : ∀ i, (.locate i ∈ c.frames ∨ ∃ loc nodeid, .setPrim i loc nodeid ∈ c.frames) → ∃ k < n, i = (k : ℤ)
  filling : Filling (Promised m n taken) (fun loc p => ∃ i, .setPrim i loc p.2 ∈ c.frames ∧ b.prim m i = some p.1)
    (fun loc nodeid => .setNode loc nodeid ∈ c.frames) c.mem.primIds c.mem.nodeIds
  nonneg : ∀ loc nodeid, (∃ i, .setPrim i loc nodeid ∈ c.frames) ∨ .setNode loc nodeid ∈ c.frames → 0 ≤ loc

namespace Scattering
theorem length_le (hc : Scattering b m n c taken) (nodeid : ℕ) :
    (taken nodeid).length + (c.total (waiting m nodeid)).card = nodeCount m n nodeid := by
  have hcard := congrArg Multiset.card (hc.total nodeid)
  rwa [Multiset.card_add, Multiset.coe_card, Multiset.coe_card, ← List.countP_eq_length_filter] at hcard

theorem promised_lt (hc : Scattering b m n c taken) {loc : ℕ} {p : Pair primBits nodeBits}
    (hp : Promised m n taken loc p) : loc < n := by
  obtain ⟨nodeid, j, i, hj, rfl, -⟩ := hp
  have hlt := (List.getElem?_eq_some_iff.mp hj).1
  have hlen := hc.length_le nodeid
  have hle := exclusiveScan_le m n (nodeid + 1)
  rw [exclusiveScan] at hle
  omega

theorem first (h : Ready b m n) (hc : Scattering b m n c taken) {i loc : ℤ} {nodeid : BitVec nodeBits}
    (hf : .setPrim i loc nodeid ∈ c.frames) : ∃ k < n, ∃ l < n, i = (k : ℤ) ∧ loc = (l : ℤ) := by
  obtain ⟨k, hk, rfl⟩ := hc.items i (.inr ⟨loc, nodeid, hf⟩)
  obtain ⟨l, rfl⟩ := Int.eq_ofNat_of_zero_le (hc.nonneg loc nodeid (.inl ⟨_, hf⟩))
  exact ⟨k, hk, l, hc.promised_lt (hc.filling.of_first l (m.prims k, nodeid) ⟨k, hf, h.prim hk⟩), rfl, rfl⟩

theorem second (hc : Scattering b m n c taken) {loc : ℤ} {nodeid : BitVec nodeBits}
    (hf : .setNode loc nodeid ∈ c.frames) : ∃ l < n, loc = (l : ℤ) := by
  obtain ⟨l, rfl⟩ := Int.eq_ofNat_of_zero_le (hc.nonneg loc nodeid (.inr hf))
  obtain ⟨_, hp⟩ := hc.filling.of_second l nodeid hf
  exact ⟨l, hc.promised_lt hp, rfl⟩

/-- Two places of the segments differ. -/
theorem unique (hlen : ∀ nodeid, (taken nodeid).length ≤ nodeCount m n nodeid) {loc : ℕ} {p q : Pair primBits nodeBits}
    (hp : Promised m n taken loc p) (hq : Promised m n taken loc q) : p = q := by
  obtain ⟨nodeid, j, i, hj, rfl, rfl⟩ := hp
  obtain ⟨nodeid', j', i', hj', heq, rfl⟩ := hq
  have hlt := (List.getElem?_eq_some_iff.mp hj).1
  have hlt' := (List.getElem?_eq_some_iff.mp hj').1
  obtain ⟨rfl, rfl⟩ := segment_unique _ (hlt.trans_le (hlen _)) (hlt'.trans_le (hlen _)) heq
  rw [hj] at hj'
  rw [Option.some.inj hj']

section Code
variable (h : Ready b m n) (hoffsets : ∀ nodeid, offsets nodeid = exclusiveScan (nodeCount m n) nodeid)
  (hc : Scattering b m n c taken)
include h hc

include hoffsets in
theorem code_locate {i : ℤ} (hf : .locate i ∈ c.frames) : ∃ k < n, i = (k : ℤ) ∧
    b.scatter m offsets c.mem (.locate i) x = some ({c.mem with
      counts := Function.update c.mem.counts (key m k) ((taken (key m k)).length + 1 : ℕ)},
      [.setPrim k (exclusiveScan (nodeCount m n) (key m k) + (taken (key m k)).length : ℕ) (m.nodes k)]) ∧
    (taken (key m k)).length < nodeCount m n (key m k) := by
  obtain ⟨k, hk, rfl⟩ := hc.items i (.inl hf)
  have hlt : key m k < b.numNodes.toNat := h.lt k hk
  have hlen := hc.length_le (key m k)
  have hpos : 0 < (c.total (waiting m (key m k))).card := by
    refine Multiset.card_pos.mpr fun h0 => ?_
    have hmem : k ∈ c.total (waiting m (key m k)) := mem_total.mpr ⟨_, hf, by simp [waiting]⟩
    rw [h0] at hmem
    exact Multiset.notMem_zero k hmem
  have hle := exclusiveScan_le m n (key m k + 1)
  rw [exclusiveScan] at hle
  refine ⟨k, hk, rfl, ?_, by omega⟩
  have hcount : index bits (c.mem.counts (key m k) + 1) = ((taken (key m k)).length + 1 : ℕ) := by
    rw [hc.counts]
    exact index_succ_of_lt (h.lt_pow (by omega)) b.one_lt
  have hloc : index bits (offsets (key m k) + c.mem.counts (key m k)) =
      (exclusiveScan (nodeCount m n) (key m k) + (taken (key m k)).length : ℕ) := by
    rw [hoffsets, hc.counts]
    exact index_of_lt (h.lt_pow (by omega)) b.one_lt
  rw [scatter, h.node hk]
  show (fetch _ offsets (key m k : ℤ)).bind _ = _
  rw [fetch_of_lt hlt, Option.bind_some]
  show (fetch _ c.mem.counts (key m k : ℤ)).bind _ = _
  rw [fetch_of_lt hlt, Option.bind_some, hloc, hcount]
  show (store _ c.mem.counts (key m k : ℤ) _).map _ = _
  rw [store_of_lt hlt]
  rfl

variable (offsets) in
theorem code_setPrim {i loc : ℤ} {nodeid : BitVec nodeBits} (hf : .setPrim i loc nodeid ∈ c.frames) :
    ∃ k < n, ∃ l < n, i = (k : ℤ) ∧ loc = (l : ℤ) ∧ b.scatter m offsets c.mem (.setPrim i loc nodeid) x =
      some ({c.mem with primIds := Function.update c.mem.primIds l (m.prims k)}, [.setNode l nodeid]) := by
  obtain ⟨k, hk, l, hl, rfl, rfl⟩ := hc.first h hf
  refine ⟨k, hk, l, hl, rfl, rfl, ?_⟩
  rw [scatter, h.prim hk, Option.bind_some, store_of_lt (hl.trans_le h.le)]
  rfl

variable (offsets) in
theorem code_setNode {loc : ℤ} {nodeid : BitVec nodeBits} (hf : .setNode loc nodeid ∈ c.frames) :
    ∃ l < n, loc = (l : ℤ) ∧ b.scatter m offsets c.mem (.setNode loc nodeid) x =
      some ({c.mem with nodeIds := Function.update c.mem.nodeIds l nodeid}, []) := by
  obtain ⟨l, hl, rfl⟩ := hc.second hf
  refine ⟨l, hl, rfl, ?_⟩
  rw [scatter, store_of_lt (hl.trans_le h.le)]
  rfl

end Code

/-- The items that have taken places of a node, once one more has. -/
theorem promised_concat {taken : ℕ → List ℕ} {nodeid k loc : ℕ} {p : Pair primBits nodeBits} :
    Promised m n (Function.update taken nodeid (taken nodeid ++ [k])) loc p ↔ Promised m n taken loc p ∨
      loc = exclusiveScan (nodeCount m n) nodeid + (taken nodeid).length ∧ p = (m.prims k, m.nodes k) := by
  constructor
  · rintro ⟨v, j, i, hj, rfl, rfl⟩
    by_cases hv : v = nodeid
    · subst hv
      rw [Function.update_self] at hj
      rcases getElem?_concat.mp hj with hj | ⟨rfl, rfl⟩
      · exact .inl ⟨v, j, i, hj, rfl, rfl⟩
      · exact .inr ⟨rfl, rfl⟩
    · rw [Function.update_of_ne hv] at hj
      exact .inl ⟨v, j, i, hj, rfl, rfl⟩
  · rintro (⟨v, j, i, hj, rfl, rfl⟩ | ⟨rfl, rfl⟩)
    · by_cases hv : v = nodeid
      · subst hv
        exact ⟨v, j, i, by rw [Function.update_self]; exact getElem?_concat.mpr (.inl hj), rfl, rfl⟩
      · exact ⟨v, j, i, by rw [Function.update_of_ne hv]; exact hj, rfl, rfl⟩
    · exact ⟨nodeid, _, k, by rw [Function.update_self]; exact List.getElem?_concat_length, rfl, rfl⟩

theorem locate (h : Ready b m n) (hoffsets : ∀ nodeid, offsets nodeid = exclusiveScan (nodeCount m n) nodeid)
    (hc : Scattering b m n c taken) {i : ℤ} (hs : Step (b.scatter m offsets) c (.locate i) x c') :
    ∃ taken, Scattering b m n c' taken := by
  obtain ⟨k, hk, rfl, hcode, hlt⟩ := hc.code_locate (x := x) h hoffsets hs.mem_frame
  generalize hloc : exclusiveScan (nodeCount m n) (key m k) + (taken (key m k)).length = loc at hcode
  obtain ⟨hmem, hmine, hback⟩ := hs.effect hcode
  simp only [List.mem_singleton, forall_eq] at hmine hback
  have hnonneg : (0 : ℤ) ≤ loc := Int.natCast_nonneg loc
  have hlen : ∀ nodeid,
      (Function.update taken (key m k) (taken (key m k) ++ [k]) nodeid).length ≤ nodeCount m n nodeid := by
    intro nodeid
    by_cases hv : nodeid = key m k
    · subst hv
      rw [Function.update_self, List.length_append]
      exact hlt
    · rw [Function.update_of_ne hv, ← hc.length_le nodeid]
      exact Nat.le_add_right ..
  refine ⟨Function.update taken (key m k) (taken (key m k) ++ [k]), fun nodeid => ?_, fun nodeid => ?_, ?_, ?_, ?_⟩
  · rw [hmem]
    by_cases hv : nodeid = key m k
    · subst hv
      simp only [Function.update_self, List.length_append, List.length_singleton]
    · simp only [Function.update_of_ne hv]
      exact hc.counts nodeid
  · obtain ⟨r, hold, hnew⟩ := hs.total_of_code hcode (waiting m nodeid)
    rw [← hc.total nodeid, hold, hnew]
    by_cases hv : nodeid = key m k
    · subst hv
      rw [Function.update_self, ← Multiset.coe_add, add_assoc]
      simp [waiting]
    · rw [Function.update_of_ne hv]
      simp [waiting, Ne.symm hv]
  · rintro i (hg | ⟨loc', nodeid, hg⟩)
    · exact hc.items i (.inl ((hback _ hg).resolve_left nofun))
    · rcases hback _ hg with he | hg
      · cases he
        exact ⟨k, hk, rfl⟩
      · exact hc.items i (.inr ⟨loc', nodeid, hg⟩)
  · rw [hmem]
    refine hc.filling.promise (fun loc p q => unique hlen) (fun loc' p hp => ?_)
      (fun loc' p hp => promised_concat.mpr (.inl hp)) ?_ ?_ fun loc' y => ⟨?_, ?_⟩
    · rcases promised_concat.mp hp with hp | ⟨rfl, rfl⟩
      · exact .inl hp
      · rw [hloc]
        exact .inr ⟨k, hmine, h.prim hk⟩
    · rintro loc' p ⟨i, hg, hp⟩
      exact ⟨i, hs.mem_of_ne hg nofun, hp⟩
    · rintro loc' p ⟨i, hg, hp⟩
      rcases hback _ hg with he | hg
      · injection he with hi hl hy
        subst hi
        rw [h.prim hk] at hp
        refine .inr (promised_concat.mpr (.inr ⟨?_, Prod.ext (Option.some.inj hp).symm hy⟩))
        rw [hloc]
        exact Int.ofNat_inj.mp hl
      · exact .inl ⟨i, hg, hp⟩
    · exact fun hg => (hback _ hg).resolve_left nofun
    · exact fun hg => hs.mem_of_ne hg nofun
  · rintro loc' nodeid (⟨i, hg⟩ | hg)
    · rcases hback _ hg with he | hg
      · cases he
        exact hnonneg
      · exact hc.nonneg loc' nodeid (.inl ⟨i, hg⟩)
    · exact hc.nonneg loc' nodeid (.inr ((hback _ hg).resolve_left nofun))

theorem setPrim (h : Ready b m n) (hc : Scattering b m n c taken) {i loc : ℤ} {nodeid : BitVec nodeBits}
    (hs : Step (b.scatter m offsets) c (.setPrim i loc nodeid) x c') : Scattering b m n c' taken := by
  have hf := hs.mem_frame
  obtain ⟨k, hk, l, hl, rfl, rfl, hcode⟩ := hc.code_setPrim offsets (x := x) h hf
  obtain ⟨hmem, hmine, hback⟩ := hs.effect hcode
  simp only [List.mem_singleton, forall_eq] at hmine hback
  refine ⟨fun v => by rw [hmem]; exact hc.counts v, fun v => ?_, ?_, ?_, ?_⟩
  · obtain ⟨r, hold, hnew⟩ := hs.total_of_code hcode (waiting m v)
    rw [← hc.total v, hold, hnew]
    simp [waiting]
  · rintro i (hg | ⟨loc', nodeid', hg⟩)
    · exact hc.items i (.inl ((hback _ hg).resolve_left nofun))
    · exact hc.items i (.inr ⟨loc', nodeid', (hback _ hg).resolve_left nofun⟩)
  · rw [hmem]
    refine hc.filling.setFirst (p := (m.prims k, nodeid)) ⟨k, hf, h.prim hk⟩ ?_ ?_ fun loc' y => ⟨?_, ?_⟩
    · rintro loc' p hne ⟨i, hg, hp⟩
      refine ⟨i, hs.mem_of_ne hg ?_, hp⟩
      intro he
      injection he with _ hloc
      exact hne (Int.ofNat_inj.mp hloc)
    · rintro loc' p ⟨i, hg, hp⟩
      exact ⟨i, (hback _ hg).resolve_left nofun, hp⟩
    · intro hg
      rcases hback _ hg with he | hg
      · injection he with hloc hy
        exact .inr ⟨Int.ofNat_inj.mp hloc, hy⟩
      · exact .inl hg
    · rintro (hg | ⟨rfl, rfl⟩)
      · exact hs.mem_of_ne hg nofun
      · exact hmine
  · rintro loc' nodeid' (⟨i, hg⟩ | hg)
    · exact hc.nonneg loc' nodeid' (.inl ⟨i, (hback _ hg).resolve_left nofun⟩)
    · rcases hback _ hg with he | hg
      · cases he
        exact Int.natCast_nonneg l
      · exact hc.nonneg loc' nodeid' (.inr hg)

theorem setNode (h : Ready b m n) (hc : Scattering b m n c taken) {loc : ℤ} {nodeid : BitVec nodeBits}
    (hs : Step (b.scatter m offsets) c (.setNode loc nodeid) x c') : Scattering b m n c' taken := by
  have hf := hs.mem_frame
  obtain ⟨l, hl, rfl, hcode⟩ := hc.code_setNode offsets (x := x) h hf
  obtain ⟨hmem, -, hback⟩ := hs.effect hcode
  simp only [List.not_mem_nil, false_or] at hback
  refine ⟨fun v => by rw [hmem]; exact hc.counts v, fun v => ?_, ?_, ?_, ?_⟩
  · obtain ⟨r, hold, hnew⟩ := hs.total_of_code hcode (waiting m v)
    rw [← hc.total v, hold, hnew]
    simp [waiting]
  · rintro i (hg | ⟨loc', nodeid', hg⟩)
    · exact hc.items i (.inl (hback _ hg))
    · exact hc.items i (.inr ⟨loc', nodeid', hback _ hg⟩)
  · rw [hmem]
    refine hc.filling.setSecond hf (fun loc' p => ⟨?_, ?_⟩) ?_ fun loc' y hg => hback _ hg
    · rintro ⟨i, hg, hp⟩
      exact ⟨i, hback _ hg, hp⟩
    · rintro ⟨i, hg, hp⟩
      exact ⟨i, hs.mem_of_ne hg nofun, hp⟩
    · intro loc' y hne hg
      refine hs.mem_of_ne hg ?_
      intro he
      injection he with hloc
      exact hne (Int.ofNat_inj.mp hloc)
  · rintro loc' nodeid' (⟨i, hg⟩ | hg)
    · exact hc.nonneg loc' nodeid' (.inl ⟨i, hback _ hg⟩)
    · exact hc.nonneg loc' nodeid' (.inr (hback _ hg))

def start (m : Memory primBits nodeBits) (items : List (List ℤ)) :
    Config (Scatter primBits nodeBits) (ScatterFrame nodeBits) :=
  ⟨⟨fun _ => 0, m.prims, m.nodes⟩, items.map (·.map .locate)⟩

theorem of_start (h : Ready b m n) {items : List (List ℤ)} (hitems : items.flatten.Perm (range m.cnt)) :
    Scattering b m n (start m items) fun _ => [] := by
  have hframes : (start m items).frames.Perm ((List.range n).map fun i : ℕ => .locate i) := by
    have hmap := hitems.map (ScatterFrame.locate : ℤ → ScatterFrame nodeBits)
    rw [h.range, List.map_map, List.map_flatten] at hmap
    exact hmap
  have hmem : ∀ f, f ∈ (start m items).frames → ∃ k < n, f = .locate (k : ℤ) := fun f hf => by
    obtain ⟨k, hk, rfl⟩ := List.mem_map.mp (hframes.mem_iff.mp hf)
    exact ⟨k, List.mem_range.mp hk, rfl⟩
  have hprim : ∀ i loc nodeid, .setPrim i loc nodeid ∉ (start m items).frames := fun i loc nodeid hf => by
    obtain ⟨_, _, he⟩ := hmem _ hf
    cases he
  have hnode : ∀ loc nodeid, .setNode loc nodeid ∉ (start m items).frames := fun loc nodeid hf => by
    obtain ⟨_, _, he⟩ := hmem _ hf
    cases he
  have hnone : ∀ loc p, ¬ Promised m n (fun _ => []) loc p := by
    rintro loc p ⟨_, _, _, hj, _⟩
    cases hj
  refine ⟨fun _ => rfl, fun nodeid => ?_, ?_, ⟨fun k p q hp => absurd hp (hnone k p),
    fun k p hp => absurd hp (hnone k p), fun k p hp => absurd hp (hnone k p),
    fun k p ⟨i, hi, _⟩ => absurd hi (hprim i k p.2),
    fun k y hy => absurd hy (hnode k y)⟩, ?_⟩
  · rw [total_of_perm hframes, List.map_map]
    generalize List.range n = l
    induction l with
    | nil => rfl
    | cons i l ih =>
      rw [List.map_cons, List.sum_cons, add_left_comm, ih, List.filter_cons]
      simp only [Function.comp_apply, waiting, Int.toNat_natCast, decide_eq_true_eq]
      split_ifs
      · exact Multiset.singleton_add ..
      · exact zero_add _
  · rintro i (hi | ⟨loc, nodeid, hi⟩)
    · obtain ⟨k, hk, he⟩ := hmem _ hi
      cases he
      exact ⟨k, hk, rfl⟩
    · exact absurd hi (hprim i loc nodeid)
  · rintro loc nodeid (⟨i, hi⟩ | hi)
    · exact absurd hi (hprim i loc nodeid)
    · exact absurd hi (hnode loc nodeid)

theorem acts (h : Ready b m n) (hoffsets : ∀ nodeid, offsets nodeid = exclusiveScan (nodeCount m n) nodeid)
    (hc : Scattering b m n c taken) (hf : f ∈ c.frames) : ∃ x, (b.scatter m offsets c.mem f x).isSome := by
  refine ⟨(), ?_⟩
  cases f with
  | locate i =>
    obtain ⟨_, _, _, hcode, _⟩ := hc.code_locate (x := ()) h hoffsets hf
    rw [hcode]
    rfl
  | setPrim i loc nodeid =>
    obtain ⟨_, _, _, _, _, _, hcode⟩ := hc.code_setPrim offsets (x := ()) h hf
    rw [hcode]
    rfl
  | setNode loc nodeid =>
    obtain ⟨_, _, _, hcode⟩ := hc.code_setNode offsets (x := ()) h hf
    rw [hcode]
    rfl

theorem step (h : Ready b m n) (hoffsets : ∀ nodeid, offsets nodeid = exclusiveScan (nodeCount m n) nodeid)
    (hc : Scattering b m n c taken) (hs : Step (b.scatter m offsets) c f x c') :
    ∃ taken, Scattering b m n c' taken := by
  cases f with
  | locate i => exact hc.locate h hoffsets hs
  | setPrim i loc nodeid => exact ⟨taken, hc.setPrim h hs⟩
  | setNode loc nodeid => exact ⟨taken, hc.setNode h hs⟩

end Scattering

/-- The second pass fills the segment of every node with the pairs of the node. -/
theorem scatter_spec (h : Ready b m n) (hoffsets : ∀ nodeid, offsets nodeid = exclusiveScan (nodeCount m n) nodeid)
    {items : List (List ℤ)} (hitems : items.flatten.Perm (range m.cnt)) :
    Always (b.scatter m offsets) (Scattering.start m items) fun s => ∃ taken : ℕ → List ℕ,
      (∀ nodeid, (taken nodeid).Perm ((List.range n).filter fun i => key m i = nodeid)) ∧
      ∀ loc p, Promised m n taken loc p → (s.primIds loc, s.nodeIds loc) = p := by
  refine always_of_invariant (fun c => ∃ taken, Scattering b m n c taken) scatterWeight
    ⟨_, Scattering.of_start h hitems⟩ scatter_weight (fun c hc f hf => hc.choose_spec.acts h hoffsets hf)
    (fun c f x c' hc hs => hc.choose_spec.step h hoffsets hs) fun c hi hf => ?_
  obtain ⟨taken, hc⟩ := hi
  refine ⟨taken, fun nodeid => ?_, fun loc p hp => ?_⟩
  · have htotal := hc.total nodeid
    rw [Config.total, hf, List.map_nil, List.sum_nil, add_zero] at htotal
    exact Multiset.coe_eq_coe.mp htotal
  · refine hc.filling.filled (fun k p hk => ?_) (fun k y hy => ?_) hp
    · obtain ⟨i, hi, -⟩ := hk
      rw [hf] at hi
      cases hi
    · rw [hf] at hy
      cases hy

end Scatter

section Segments
variable {taken : ℕ → List ℕ} (htaken : ∀ nodeid, (taken nodeid).Perm ((List.range n).filter fun i => key m i = nodeid))
include htaken

theorem length_taken (nodeid : ℕ) : (taken nodeid).length = nodeCount m n nodeid := by
  rw [(htaken nodeid).length_eq, ← List.countP_eq_length_filter, nodeCount]

theorem key_of_taken {nodeid i : ℕ} (hi : i ∈ taken nodeid) : key m i = nodeid :=
  of_decide_eq_true (List.mem_filter.mp ((htaken nodeid).mem_iff.mp hi)).2

/-- The segments of the nodes below one hold the pairs of these nodes. -/
theorem segments_perm (nodeid : ℕ) :
    ((List.range nodeid).flatMap taken).Perm ((List.range n).filter fun i => key m i < nodeid) := by
  induction nodeid with
  | zero => simp
  | succ nodeid ih =>
    rw [List.range_succ, List.flatMap_append, List.flatMap_singleton]
    refine (ih.append (htaken nodeid)).trans ?_
    have hsplit := List.filter_append_perm (fun i => decide (key m i < nodeid))
      ((List.range n).filter fun i => key m i < nodeid + 1)
    rw [List.filter_filter, List.filter_filter] at hsplit
    refine (List.Perm.of_eq ?_).trans hsplit
    congr 1
    · exact List.filter_congr fun i _ => by grind
    · exact List.filter_congr fun i _ => by grind

theorem segments_pairwise (nodeid : ℕ) :
    ((List.range nodeid).flatMap taken).Pairwise fun i j => key m i ≤ key m j := by
  refine List.pairwise_flatMap.mpr ⟨fun v _ => List.pairwise_of_forall_mem_list fun i hi j hj => ?_, ?_⟩
  · rw [key_of_taken htaken hi, key_of_taken htaken hj]
  · refine List.pairwise_lt_range.imp fun hlt i hi j hj => ?_
    rw [key_of_taken htaken hi, key_of_taken htaken hj]
    exact Nat.le_of_lt hlt

variable {s : Scatter primBits nodeBits} (hs : ∀ loc p, Promised m n taken loc p → (s.primIds loc, s.nodeIds loc) = p)
include hs

theorem segments_eq (nodeid : ℕ) :
    (List.range (exclusiveScan (nodeCount m n) nodeid)).map (fun i => (s.primIds i, s.nodeIds i)) =
      ((List.range nodeid).flatMap taken).map fun i => (m.prims i, m.nodes i) := by
  induction nodeid with
  | zero => rfl
  | succ nodeid ih =>
    rw [exclusiveScan, List.range_add, List.map_append, ih, List.range_succ, List.flatMap_append,
      List.flatMap_singleton, List.map_append, List.map_map]
    congr 1
    refine List.ext_getElem? fun j => ?_
    rw [List.getElem?_map, List.getElem?_map]
    by_cases hj : j < nodeCount m n nodeid
    · have hget := List.getElem?_eq_getElem (by rwa [length_taken htaken] : j < (taken nodeid).length)
      rw [List.getElem?_range hj, hget]
      exact congrArg some (hs _ _ ⟨nodeid, j, _, hget, rfl, rfl⟩)
    · have hlen : (taken nodeid).length ≤ j := by
        rw [length_taken htaken]
        exact Nat.le_of_not_lt hj
      have hrange : (List.range (nodeCount m n nodeid)).length ≤ j := by
        rw [List.length_range]
        exact Nat.le_of_not_lt hj
      rw [List.getElem?_eq_none hrange, List.getElem?_eq_none hlen]
      rfl

end Segments

/-- Every run of `reorder` on a front without overflow leaves its pairs in the order of the nodes. -/
theorem reorders_of_ready (h : Ready b m n) : b.Reorders m (b.Ordered m) := by
  intro items hitems
  refine (count_spec h hitems).mono fun c _ _ hcounts => ?_
  intro items' hitems'
  refine (scatter_spec h (scan_eq h hcounts) hitems').mono fun c' _ _ ⟨taken, htaken, hs⟩ => ?_
  have hall : ∀ i ∈ List.range n, decide (key m i < b.numNodes.toNat) = true := fun i hi =>
    decide_eq_true (h.lt i (List.mem_range.mp hi))
  have hcount : exclusiveScan (nodeCount m n) b.numNodes.toNat = n := by
    rw [exclusiveScan_nodeCount, List.countP_eq_length.mpr hall, List.length_range]
  have hmin : min m.cnt.toNat b.capacity = n := by
    rw [h.cnt, Int.toNat_natCast]
    exact min_eq_left h.le
  have hstored : b.stored m = (List.range n).map fun i => (m.prims i, m.nodes i) := by rw [stored, hmin]
  have hstored' : b.stored ⟨c'.mem.primIds, c'.mem.nodeIds, m.cnt⟩ =
      ((List.range b.numNodes.toNat).flatMap taken).map fun i => (m.prims i, m.nodes i) := by
    rw [← segments_eq htaken hs, hcount, stored, hmin]
  rw [Ordered, hstored', hstored]
  constructor
  · refine List.Perm.map _ ((segments_perm htaken _).trans (List.Perm.of_eq ?_))
    exact List.filter_eq_self.mpr hall
  · exact List.pairwise_map.mpr (segments_pairwise htaken _)

end Zpc.BvttFront
