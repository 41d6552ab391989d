import Zpc.SafeRuns
import Zpc.SlotFilling
import Zpc.SparseMatrixBuild
import Mathlib.Data.List.Sort

/-!
# The front of a bounding volume traversal tree

Pairs of a primitive and a tree node that threads push to a front, whose counter also counts what finds no room, and
the reordering of the front by node: the pairs of every node are counted, the counts scanned, the pairs scattered.
-/
namespace Zpc
open Interleaving SlotFilling

/-- The front apart from the memory that threads share. The indices have `bits` bits. -/
structure BvttFront (primBits nodeBits bits : ℕ) where
  capacity : ℕ
  numNodes : BitVec nodeBits
  one_lt : 1 < bits
  capacity_lt : capacity < 2 ^ (bits - 1)

namespace BvttFront
abbrev Pair (primBits nodeBits : ℕ) := BitVec primBits × BitVec nodeBits

variable {primBits nodeBits bits : ℕ}

structure Memory (primBits nodeBits : ℕ) where
  prims : ℕ → BitVec primBits
  nodes : ℕ → BitVec nodeBits
  cnt : ℤ

section Access
variable {α : Type*}

/-- A value of `index_t`. -/
def index (bits : ℕ) (n : ℤ) : ℤ := n.bmod (2 ^ bits)

def fetch (size : ℕ) (a : ℕ → α) (i : ℤ) : Option α := if 0 ≤ i ∧ i < size then some (a i.toNat) else none

def store (size : ℕ) (a : ℕ → α) (i : ℤ) (x : α) : Option (ℕ → α) :=
  if 0 ≤ i ∧ i < size then some (Function.update a i.toNat x) else none

/-- `range(end)`, which counts down to a negative end. -/
def range (n : ℤ) : List ℤ := (List.range n.natAbs).map fun i : ℕ => if 0 < n then (i : ℤ) else -i

end Access

section View
variable (b : BvttFront primBits nodeBits bits)

inductive PushFrame (primBits nodeBits : ℕ)
  | pushBack (p : Pair primBits nodeBits)
  | setPrim (no : ℤ) (p : Pair primBits nodeBits)
  | setNode (no : ℤ) (p : Pair primBits nodeBits)

/-- `push_back`. An action outside the arrays has no effect to continue from. -/
def pushBack : Code (Memory primBits nodeBits) (PushFrame primBits nodeBits) Unit := fun m f _ =>
  match f with
  | .pushBack p =>
    some ({m with cnt := index bits (m.cnt + 1)}, if m.cnt < b.capacity then [.setPrim m.cnt p] else [])
  | .setPrim no p => (store b.capacity m.prims no p.1).map fun prims => ({m with prims := prims}, [.setNode no p])
  | .setNode no p => (store b.capacity m.nodes no p.2).map fun nodes => ({m with nodes := nodes}, [])

def prim (m : Memory primBits nodeBits) (i : ℤ) : Option (BitVec primBits) :=
  if i < b.capacity then fetch b.capacity m.prims i else some (~~~(0 : BitVec primBits))

def node (m : Memory primBits nodeBits) (i : ℤ) : Option (BitVec nodeBits) :=
  if i < b.capacity then fetch b.capacity m.nodes i else some (~~~(0 : BitVec nodeBits))

end View

section Reorder
variable (b : BvttFront primBits nodeBits bits)

def countNode (m : Memory primBits nodeBits) : Code (ℕ → ℤ) ℤ Unit := fun counts i _ =>
  (b.node m i).bind fun nodeid => (fetch b.numNodes.toNat counts nodeid.toNat).bind fun c =>
    (store b.numNodes.toNat counts nodeid.toNat (index bits (c + 1))).map fun counts => (counts, [])

/-- `exclusive_scan` of the counts. -/
def scan (bits : ℕ) (counts : ℕ → ℤ) : ℕ → ℤ
  | 0 => 0
  | nodeid + 1 => index bits (scan bits counts nodeid + counts nodeid)

structure Scatter (primBits nodeBits : ℕ) where
  counts : ℕ → ℤ
  primIds : ℕ → BitVec primBits
  nodeIds : ℕ → BitVec nodeBits

inductive ScatterFrame (nodeBits : ℕ)
  | locate (i : ℤ)
  | setPrim (i loc : ℤ) (nodeid : BitVec nodeBits)
  | setNode (loc : ℤ) (nodeid : BitVec nodeBits)

/-- The second pass takes the next place of the node. -/
def scatter (m : Memory primBits nodeBits) (offsets : ℕ → ℤ) :
    Code (Scatter primBits nodeBits) (ScatterFrame nodeBits) Unit := fun s f _ =>
  match f with
  | .locate i =>
    (b.node m i).bind fun nodeid => (fetch b.numNodes.toNat offsets nodeid.toNat).bind fun offset =>
      (fetch b.numNodes.toNat s.counts nodeid.toNat).bind fun c =>
        (store b.numNodes.toNat s.counts nodeid.toNat (index bits (c + 1))).map fun counts =>
          ({s with counts := counts}, [.setPrim i (index bits (offset + c)) nodeid])
  | .setPrim i loc nodeid =>
    (b.prim m i).bind fun prim => (store b.capacity s.primIds loc prim).map fun primIds =>
      ({s with primIds := primIds}, [.setNode loc nodeid])
  | .setNode loc nodeid => (store b.capacity s.nodeIds loc nodeid).map fun nodeIds => ({s with nodeIds := nodeIds}, [])

def stored (m : Memory primBits nodeBits) : List (Pair primBits nodeBits) :=
  (List.range (min m.cnt.toNat b.capacity)).map fun i => (m.prims i, m.nodes i)

/-- Every run of `reorder` on the schedules of its passes stays within the arrays, ends, and leads to `P`. -/
def Reorders (m : Memory primBits nodeBits) (P : Memory primBits nodeBits → Prop) : Prop :=
  ∀ items : List (List ℤ), items.flatten.Perm (range m.cnt) →
    Always (b.countNode m) ⟨fun _ => 0, items⟩ fun counts =>
      ∀ items : List (List ℤ), items.flatten.Perm (range m.cnt) →
        Always (b.scatter m (scan bits counts)) ⟨⟨fun _ => 0, m.prims, m.nodes⟩, items.map (·.map .locate)⟩
          fun s => P ⟨s.primIds, s.nodeIds, m.cnt⟩

def Ordered (m m' : Memory primBits nodeBits) : Prop :=
  (b.stored m').Perm (b.stored m) ∧ (b.stored m').Pairwise fun p q => p.2 ≤ q.2

def pushStart (m : Memory primBits nodeBits) (programs : List (List (Pair primBits nodeBits))) :
    Config (Memory primBits nodeBits) (PushFrame primBits nodeBits) := ⟨m, programs.map (·.map .pushBack)⟩

/-- Every run of `push_back` calls, then of `reorder`, stays within the arrays, ends, and leaves the pairs that were
stored, ordered. -/
def PushesAndReorders (m : Memory primBits nodeBits) (programs : List (List (Pair primBits nodeBits))) : Prop :=
  Always b.pushBack (pushStart m programs) fun m' => b.Reorders m' (b.Ordered m')

/-- Nothing has been pushed to a front beyond its capacity, and all its nodes are in the tree. -/
structure Fits (m : Memory primBits nodeBits) (programs : List (List (Pair primBits nodeBits))) : Prop where
  le : m.cnt + programs.flatten.length ≤ b.capacity
  nodes : ∀ p ∈ b.stored m ++ programs.flatten, p.2 < b.numNodes

end Reorder

section Push
variable {b : BvttFront primBits nodeBits bits} {m₀ : Memory primBits nodeBits}
  {c c' : Config (Memory primBits nodeBits) (PushFrame primBits nodeBits)} {f : PushFrame primBits nodeBits} {x : Unit}
  {α : Type*} {a a' : ℕ → α} {size : ℕ} {i : ℤ} {v : α} {n : ℕ}

theorem two_pow_bits (hbits : 1 < bits) : 2 ^ bits = 2 ^ (bits - 1) * 2 := by
  obtain ⟨k, rfl⟩ := Nat.exists_eq_add_of_lt hbits
  rfl

theorem index_of_lt (hn : n < 2 ^ (bits - 1)) (hbits : 1 < bits) : index bits n = n := by
  rw [index, two_pow_bits hbits]
  exact Int.bmod_eq_of_le (by omega) (by omega)

theorem index_succ_of_lt (hn : n + 1 < 2 ^ (bits - 1)) (hbits : 1 < bits) : index bits ((n : ℤ) + 1) = (n + 1 : ℕ) :=
  index_of_lt hn hbits

theorem store_of_lt (hn : n < size) (v : α) : store size a n v = some (Function.update a n v) :=
  if_pos ⟨Int.natCast_nonneg n, Int.ofNat_lt.mpr hn⟩

theorem fetch_of_lt (hn : n < size) : fetch size a n = some (a n) :=
  if_pos ⟨Int.natCast_nonneg n, Int.ofNat_lt.mpr hn⟩

def pushWeight : PushFrame primBits nodeBits → ℕ
  | .pushBack _ => 3
  | .setPrim _ _ => 2
  | .setNode _ _ => 1

theorem pushBack_weight {m m' : Memory primBits nodeBits} {fs : List (PushFrame primBits nodeBits)}
    (h : b.pushBack m f x = some (m', fs)) : (fs.map pushWeight).sum < pushWeight f := by
  cases f with
  | pushBack p =>
    cases h
    split_ifs <;> simp [pushWeight]
  | setPrim no p =>
    obtain ⟨prims, -, h⟩ := Option.map_eq_some_iff.mp h
    cases h
    simp [pushWeight]
  | setNode no p =>
    obtain ⟨nodes, -, h⟩ := Option.map_eq_some_iff.mp h
    cases h
    simp [pushWeight]

def pending : PushFrame primBits nodeBits → Multiset (Pair primBits nodeBits)
  | .pushBack p => {p}
  | _ => 0

/-- The pairs `l` have been counted in this order, and each is in its slots or on its way there. -/
structure Pushing (total : Multiset (Pair primBits nodeBits))
    (c : Config (Memory primBits nodeBits) (PushFrame primBits nodeBits)) (l : List (Pair primBits nodeBits)) :
    Prop where
  cnt : c.mem.cnt = l.length
  total : (l : Multiset (Pair primBits nodeBits)) + c.total pending = total
  filling : Filling (fun k p => l[k]? = some p) (fun k p => .setPrim k p ∈ c.frames)
    (fun k nodeid => ∃ prim, .setNode k (prim, nodeid) ∈ c.frames) c.mem.prims c.mem.nodes
  nonneg : ∀ (no : ℤ) p, .setPrim no p ∈ c.frames ∨ .setNode no p ∈ c.frames → 0 ≤ no

variable {total : Multiset (Pair primBits nodeBits)} {l : List (Pair primBits nodeBits)}

theorem Pushing.length_le (h : Pushing total c l) : l.length ≤ total.card := by
  rw [← h.total, Multiset.card_add, Multiset.coe_card]
  exact Nat.le_add_right _ _

theorem Pushing.first (h : Pushing total c l) {no : ℤ} {p : Pair primBits nodeBits} (hf : .setPrim no p ∈ c.frames) :
    ∃ k : ℕ, no = k ∧ k < l.length := by
  obtain ⟨k, rfl⟩ := Int.eq_ofNat_of_zero_le (h.nonneg no p (.inl hf))
  exact ⟨k, rfl, (List.getElem?_eq_some_iff.mp (h.filling.of_first k p hf)).1⟩

theorem Pushing.second (h : Pushing total c l) {no : ℤ} {p : Pair primBits nodeBits} (hf : .setNode no p ∈ c.frames) :
    ∃ k : ℕ, no = k ∧ k < l.length := by
  obtain ⟨k, rfl⟩ := Int.eq_ofNat_of_zero_le (h.nonneg no p (.inr hf))
  obtain ⟨_, hk⟩ := h.filling.of_second k p.2 ⟨p.1, hf⟩
  exact ⟨k, rfl, (List.getElem?_eq_some_iff.mp hk).1⟩

theorem Pushing.acts (h : Pushing total c l) (hcap : total.card ≤ b.capacity) (hf : f ∈ c.frames) :
    ∃ x, (b.pushBack c.mem f x).isSome := by
  have hlen := h.length_le
  refine ⟨(), ?_⟩
  cases f with
  | pushBack p => rfl
  | setPrim no p =>
    obtain ⟨k, rfl, hk⟩ := h.first hf
    rw [pushBack, store_of_lt (by omega)]
    rfl
  | setNode no p =>
    obtain ⟨k, rfl, hk⟩ := h.second hf
    rw [pushBack, store_of_lt (by omega)]
    rfl

theorem getElem?_concat {α : Type*} {l : List α} {p q : α} {k : ℕ} :
    (l ++ [p])[k]? = some q ↔ l[k]? = some q ∨ k = l.length ∧ q = p := by
  rw [List.getElem?_append]
  split_ifs with hk
  · exact ⟨.inl, fun h => h.resolve_right fun he => by omega⟩
  · rw [List.getElem?_singleton, List.getElem?_eq_none (Nat.le_of_not_lt hk)]
    grind

theorem Pushing.pushBack (h : Pushing total c l) (hcap : total.card ≤ b.capacity) {p : Pair primBits nodeBits}
    (hs : Step b.pushBack c (.pushBack p) x c') : Pushing total c' (l ++ [p]) := by
  have hroom : l.length + 1 ≤ b.capacity := by
    obtain ⟨r, hr⟩ := total_of_mem hs.mem_frame pending
    rw [← h.total, hr] at hcap
    simp only [pending, Multiset.card_add, Multiset.coe_card, Multiset.card_singleton] at hcap
    omega
  have hlt : c.mem.cnt < b.capacity := by
    rw [h.cnt]
    omega
  have hcode : b.pushBack c.mem (.pushBack p) x =
      some ({c.mem with cnt := (l.length + 1 : ℕ)}, [.setPrim l.length p]) := by
    rw [BvttFront.pushBack, if_pos hlt, h.cnt, index_succ_of_lt (hroom.trans_lt b.capacity_lt) b.one_lt]
  obtain ⟨hmem, hmine, hback⟩ := hs.effect hcode
  simp only [List.mem_singleton, forall_eq] at hmine hback
  refine ⟨by rw [hmem, List.length_append]; rfl, ?_, ?_, ?_⟩
  · obtain ⟨r, hold, hnew⟩ := hs.total_of_code hcode pending
    rw [hnew, ← h.total, hold, ← Multiset.coe_add, add_assoc]
    simp [pending]
  · rw [hmem]
    refine h.filling.promise (fun k q q' hq hq' => Option.some.inj (hq.symm.trans hq')) (fun k q hq => ?_)
      (fun k q hq => getElem?_concat.mpr (.inl hq)) (fun k q hq => hs.mem_of_ne hq nofun) (fun k q hq => ?_)
      fun k y => ⟨?_, ?_⟩
    · rcases getElem?_concat.mp hq with hq | ⟨rfl, rfl⟩
      · exact .inl hq
      · exact .inr hmine
    · rcases hback _ hq with he | hq
      · cases he
        exact .inr List.getElem?_concat_length
      · exact .inl hq
    · rintro ⟨prim, hg⟩
      exact ⟨prim, (hback _ hg).resolve_left nofun⟩
    · rintro ⟨prim, hg⟩
      exact ⟨prim, hs.mem_of_ne hg nofun⟩
  · rintro no q (hg | hg)
    · rcases hback _ hg with he | hg
      · cases he
        exact Int.natCast_nonneg _
      · exact h.nonneg no q (.inl hg)
    · exact h.nonneg no q (.inr ((hback _ hg).resolve_left nofun))

theorem Pushing.setPrim (h : Pushing total c l) (hcap : total.card ≤ b.capacity) {no : ℤ} {p : Pair primBits nodeBits}
    (hs : Step b.pushBack c (.setPrim no p) x c') : Pushing total c' l := by
  obtain ⟨j, rfl, hj⟩ := h.first hs.mem_frame
  have hlen := h.length_le
  have hcode : b.pushBack c.mem (.setPrim j p) x =
      some ({c.mem with prims := Function.update c.mem.prims j p.1}, [.setNode j p]) := by
    rw [BvttFront.pushBack, store_of_lt (by omega)]
    rfl
  obtain ⟨hmem, hmine, hback⟩ := hs.effect hcode
  simp only [List.mem_singleton, forall_eq] at hmine hback
  refine ⟨by rw [hmem]; exact h.cnt, ?_, ?_, ?_⟩
  · obtain ⟨r, hold, hnew⟩ := hs.total_of_code hcode pending
    rw [hnew, ← h.total, hold]
    simp [pending]
  · rw [hmem]
    refine h.filling.setFirst hs.mem_frame (fun k q hk hq => hs.mem_of_ne hq ?_)
      (fun k q hq => (hback _ hq).resolve_left nofun) fun k y => ⟨?_, ?_⟩
    · intro he
      cases he
      exact hk rfl
    · rintro ⟨prim, hg⟩
      rcases hback _ hg with he | hg
      · cases he
        exact .inr ⟨rfl, rfl⟩
      · exact .inl ⟨prim, hg⟩
    · rintro (⟨prim, hg⟩ | ⟨rfl, rfl⟩)
      · exact ⟨prim, hs.mem_of_ne hg nofun⟩
      · exact ⟨p.1, hmine⟩
  · rintro no q (hg | hg)
    · exact h.nonneg no q (.inl ((hback _ hg).resolve_left nofun))
    · rcases hback _ hg with he | hg
      · cases he
        exact Int.natCast_nonneg _
      · exact h.nonneg no q (.inr hg)

theorem Pushing.setNode (h : Pushing total c l) (hcap : total.card ≤ b.capacity) {no : ℤ} {p : Pair primBits nodeBits}
    (hs : Step b.pushBack c (.setNode no p) x c') : Pushing total c' l := by
  obtain ⟨j, rfl, hj⟩ := h.second hs.mem_frame
  have hlen := h.length_le
  have hcode : b.pushBack c.mem (.setNode j p) x =
      some ({c.mem with nodes := Function.update c.mem.nodes j p.2}, []) := by
    rw [BvttFront.pushBack, store_of_lt (by omega)]
    rfl
  obtain ⟨hmem, -, hback⟩ := hs.effect hcode
  simp only [List.not_mem_nil, false_or] at hback
  refine ⟨by rw [hmem]; exact h.cnt, ?_, ?_, fun no q hg => h.nonneg no q (hg.imp (hback _) (hback _))⟩
  · obtain ⟨r, hold, hnew⟩ := hs.total_of_code hcode pending
    rw [hnew, ← h.total, hold]
    simp [pending]
  · rw [hmem]
    refine h.filling.setSecond ⟨p.1, hs.mem_frame⟩ (fun k q => ⟨hback _, fun hq => hs.mem_of_ne hq nofun⟩) ?_ ?_
    · rintro k y hk ⟨prim, hg⟩
      refine ⟨prim, hs.mem_of_ne hg ?_⟩
      intro he
      cases he
      exact hk rfl
    · rintro k y ⟨prim, hg⟩
      exact ⟨prim, hback _ hg⟩

theorem Pushing.step (h : Pushing total c l) (hcap : total.card ≤ b.capacity) (hs : Step b.pushBack c f x c') :
    ∃ l, Pushing total c' l := by
  cases f with
  | pushBack p => exact ⟨_, h.pushBack hcap hs⟩
  | setPrim no p => exact ⟨_, h.setPrim hcap hs⟩
  | setNode no p => exact ⟨_, h.setNode hcap hs⟩

theorem length_stored (hcap : m₀.cnt ≤ b.capacity) : (b.stored m₀).length = m₀.cnt.toNat := by
  rw [stored, List.length_map, List.length_range]
  omega

theorem stored_getElem? {m : Memory primBits nodeBits} {i : ℕ} {p : Pair primBits nodeBits} :
    (b.stored m)[i]? = some p ↔ i < min m.cnt.toNat b.capacity ∧ (m.prims i, m.nodes i) = p := by
  rw [stored, List.getElem?_map, Option.map_eq_some_iff]
  constructor
  · rintro ⟨j, hj, rfl⟩
    obtain ⟨hlt, hget⟩ := List.getElem?_eq_some_iff.mp hj
    rw [List.getElem_range] at hget
    subst hget
    exact ⟨by rwa [List.length_range] at hlt, rfl⟩
  · intro ⟨hlt, hp⟩
    exact ⟨i, List.getElem?_range hlt, hp⟩

theorem total_pushStart (programs : List (List (Pair primBits nodeBits))) :
    (pushStart m₀ programs).total pending = (programs.flatten : Multiset (Pair primBits nodeBits)) := by
  have hsingle : ∀ l : List (Pair primBits nodeBits),
      (l.map fun p => pending (.pushBack p)).sum = (l : Multiset _) := by
    intro l
    induction l with
    | nil => rfl
    | cons p l ih =>
      rw [List.map_cons, List.sum_cons, ih, ← Multiset.cons_coe]
      exact Multiset.singleton_add ..
  rw [Config.total, Config.frames, pushStart, ← hsingle, ← List.map_flatten, List.map_map]
  rfl

theorem Pushing.start (hm : 0 ≤ m₀.cnt ∧ m₀.cnt ≤ b.capacity) (programs : List (List (Pair primBits nodeBits))) :
    Pushing (b.stored m₀ ++ programs.flatten : List _) (pushStart m₀ programs) (b.stored m₀) := by
  have hcalls : ∀ f ∈ (pushStart m₀ programs).frames, ∃ p, f = .pushBack p := fun f hf => mem_programs hf
  have hprim : ∀ (no : ℤ) p, .setPrim no p ∉ (pushStart m₀ programs).frames := fun no p hf => by
    obtain ⟨q, hq⟩ := hcalls _ hf
    cases hq
  have hnode : ∀ (no : ℤ) p, .setNode no p ∉ (pushStart m₀ programs).frames := fun no p hf => by
    obtain ⟨q, hq⟩ := hcalls _ hf
    cases hq
  refine ⟨?_, ?_, ⟨fun k p q hp hq => Option.some.inj (hp.symm.trans hq), fun k p hp => .inl ?_, fun k p hp => .inl ?_,
    fun k p hp => absurd hp (hprim k p), fun k y ⟨prim, hy⟩ => absurd hy (hnode k _)⟩,
    fun no p hf => absurd hf (not_or_intro (hprim no p) (hnode no p))⟩
  · rw [length_stored hm.2, Int.toNat_of_nonneg hm.1]
    rfl
  · rw [total_pushStart, Multiset.coe_add]
  · exact congrArg Prod.fst (stored_getElem?.mp hp).2
  · exact congrArg Prod.snd (stored_getElem?.mp hp).2

/-- Without calls in progress the counted pairs are the stored ones. -/
theorem Pushing.stored_eq (h : Pushing total c l) (hcap : total.card ≤ b.capacity) (hf : c.frames = []) :
    b.stored c.mem = l := by
  have hlen := h.length_le
  have hcnt := h.cnt
  refine List.ext_getElem? fun i => ?_
  by_cases hi : i < l.length
  · have hget := List.getElem?_eq_getElem hi
    rw [hget, stored_getElem?]
    refine ⟨by omega, h.filling.filled (fun k p hp => ?_) (fun k y ⟨prim, hy⟩ => ?_) hget⟩
    · rw [hf] at hp
      cases hp
    · rw [hf] at hy
      cases hy
  · have hstored : (b.stored c.mem).length ≤ i := by
      rw [length_stored (by omega)]
      omega
    rw [List.getElem?_eq_none hstored, List.getElem?_eq_none (by omega)]

/-- Calls that find room store all their pairs. -/
theorem pushes_spec (hm : 0 ≤ m₀.cnt ∧ m₀.cnt ≤ b.capacity) {programs : List (List (Pair primBits nodeBits))}
    (hle : m₀.cnt + programs.flatten.length ≤ b.capacity) :
    Always b.pushBack (pushStart m₀ programs) fun m =>
      (b.stored m).Perm (b.stored m₀ ++ programs.flatten) ∧ m.cnt = (b.stored m).length ∧ m.cnt ≤ b.capacity := by
  have hcap : (b.stored m₀ ++ programs.flatten : Multiset (Pair primBits nodeBits)).card ≤ b.capacity := by
    rw [Multiset.coe_card, List.length_append, length_stored hm.2]
    omega
  refine always_of_invariant (fun c => ∃ l, Pushing (b.stored m₀ ++ programs.flatten : List _) c l) pushWeight
    ⟨_, Pushing.start hm programs⟩ pushBack_weight (fun c ⟨_, h⟩ f hf => h.acts hcap hf)
    (fun c f x c' ⟨_, h⟩ hs => h.step hcap hs) fun c ⟨l, h⟩ hf => ?_
  have hlen := h.length_le
  have hcnt := h.cnt
  have htotal := h.total
  rw [Config.total, hf, List.map_nil, List.sum_nil, add_zero] at htotal
  rw [h.stored_eq hcap hf]
  exact ⟨Multiset.coe_eq_coe.mp htotal, h.cnt, by omega⟩

end Push

end BvttFront
end Zpc
