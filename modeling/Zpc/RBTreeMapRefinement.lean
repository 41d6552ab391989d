import Zpc.RBTreeMapIterators
import Zpc.FiniteMap

/-!
# The red-black tree map refines a finite map

An iterator stands for the position of its key, the header and null for the end.
-/
namespace Zpc.RBTreeMap
open RedBlackTree (Color Side RBTree)
open RedBlackTree.RBTree

variable {K V : Type*} [LinearOrder K] {m m' : RBTreeMap K V} {M : FiniteMap K V} {T T' : RBTree Ptr} {p : Ptr}

/-- The position of an iterator. -/
def position (m : RBTreeMap K V) (p : Ptr) : WithTop K := if p = null ∨ p = header then ⊤ else m.first p

/-- The operation on the finite map. -/
def abstractOp (m : RBTreeMap K V) : Op K V → FiniteMap.Op K V
  | .insert key value => .insert key value
  | .access key assigned => .access key assigned
  | .erase _ key => .erase key
  | .eraseAt _ position => .eraseAt (m.position position)
  | .eraseRange _ first last => .eraseRange (m.position first) (m.position last)
  | .clear => .clear

/-- A result as the finite map gives it. -/
def abstractResult (m : RBTreeMap K V) : Result V → FiniteMap.Result K V
  | .void => .unit
  | .value v => .value v
  | .number n => .removed n
  | .iterator p => .position (m.position p)

/-- The map holds a search tree with the keys and values of the finite map. -/
def Refines (m : RBTreeMap K V) (M : FiniteMap K V) : Prop :=
  ∃ T, Represents m T ∧ ∀ k v, Holds m T k v ↔ M.lookup k = some v

section Contents
theorem position_node (h : Represents m T) (hp : p ∈ T.toList) : m.position p = m.first p := by
  obtain ⟨h0, hh⟩ := h.lays.mem_ne hp
  exact if_neg (not_or.mpr ⟨h0, hh⟩)

omit [LinearOrder K] in
theorem position_header : m.position header = ⊤ := if_pos (.inr rfl)

omit [LinearOrder K] in
theorem lookup_isSome (hM : ∀ k v, Holds m T k v ↔ M.lookup k = some v) (k : K) :
    (M.lookup k).isSome ↔ ∃ p ∈ T.toList, m.first p = k := by
  rw [Option.isSome_iff_exists]
  constructor
  · rintro ⟨v, hv⟩
    obtain ⟨p, hp, hf, _⟩ := (hM k v).mpr hv
    exact ⟨p, hp, hf⟩
  · rintro ⟨p, hp, hf⟩
    exact ⟨m.second p, (hM k _).mp ⟨p, hp, hf, rfl⟩⟩

theorem keys_eq (hM : ∀ k v, Holds m T k v ↔ M.lookup k = some v) : M.keys = (T.toList.map m.first).toFinset := by
  ext k
  rw [FiniteMap.mem_keys, lookup_isSome hM, List.mem_toFinset, List.mem_map]

theorem card_eq (h : Represents m T) (hM : ∀ k v, Holds m T k v ↔ M.lookup k = some v) : M.card = m.cnt := by
  have hn : (T.toList.map m.first).Nodup := List.pairwise_map.mpr (h.sorted.imp fun hlt => ne_of_lt hlt)
  rw [FiniteMap.card, keys_eq hM, List.toFinset_card_of_nodup hn, List.length_map, h.count]

/-- The first of the nodes that remain has the least key of them. -/
theorem position_headD {Y : List Ptr} (h : Represents m T) (hY : Y.Pairwise fun p q => m.first p < m.first q)
    (hsub : ∀ q ∈ Y, q ∈ T.toList) : m.position (Y.headD header) = (Y.map m.first).toFinset.min := by
  rw [FiniteMap.min_toFinset (List.pairwise_map.mpr hY)]
  cases Y with
  | nil => exact position_header
  | cons q Y => exact position_node h (hsub q (by simp))

theorem next_eq {X Y : List Ptr} (h : Represents m T) (hM : ∀ k v, Holds m T k v ↔ M.lookup k = some v)
    (hT : T.toList = X ++ p :: Y) : m.position (Y.headD header) = M.next (m.first p) := by
  have hs := h.sorted
  rw [hT] at hs
  obtain ⟨_, hpY, hX⟩ := List.pairwise_append.mp hs
  obtain ⟨hp, hY⟩ := List.pairwise_cons.mp hpY
  rw [position_headD h hY fun q hq => by simp [hT, hq], FiniteMap.next]
  congr 1
  ext k
  rw [Finset.mem_filter, FiniteMap.mem_keys, lookup_isSome hM, List.mem_toFinset, List.mem_map, hT]
  constructor
  · rintro ⟨q, hq, rfl⟩
    exact ⟨⟨q, by simp [hq], rfl⟩, hp q hq⟩
  · rintro ⟨⟨q, hq, rfl⟩, hlt⟩
    rcases List.mem_append.mp hq with hq | hq
    · exact absurd hlt (lt_asymm (hX q hq p (by simp)))
    · rcases List.mem_cons.mp hq with rfl | hq
      · exact absurd hlt (lt_irrefl _)
      · exact ⟨q, hq, rfl⟩

/-- The nodes whose keys satisfy a predicate have left the tree. -/
theorem refines_eraseWhere {g : K → Prop} [DecidablePred g] (hM : ∀ k v, Holds m T k v ↔ M.lookup k = some v)
    (h' : Represents m' T') (hT : ∀ q, q ∈ T'.toList ↔ q ∈ T.toList ∧ ¬ g (m.first q)) (hf : m'.first = m.first)
    (hs : m'.second = m.second) : Refines m' (M.eraseWhere g) := by
  refine ⟨T', h', fun k v => ?_⟩
  rw [FiniteMap.lookup_eraseWhere]
  unfold Holds
  rw [hf, hs]
  split_ifs with hg
  · refine iff_of_false ?_ nofun
    rintro ⟨q, hq, rfl, _⟩
    exact ((hT q).mp hq).2 hg
  · rw [← hM]
    constructor
    · rintro ⟨q, hq, hqf, hqs⟩
      exact ⟨q, ((hT q).mp hq).1, hqf, hqs⟩
    · rintro ⟨q, hq, hqf, hqs⟩
      exact ⟨q, (hT q).mpr ⟨hq, by rwa [hqf]⟩, hqf, hqs⟩

theorem refines_insert {key : K} {value : V} (hM : ∀ k v, Holds m T k v ↔ M.lookup k = some v)
    (h' : Represents m' T') (hv : ∀ k w, Holds m' T' k w ↔ if k = key then w = value else Holds m T k w) :
    Refines m' (M.insert key value) := by
  refine ⟨T', h', fun k v => ?_⟩
  rw [hv, FiniteMap.lookup_insert, hM]
  split_ifs
  · rw [Option.some.injEq, eq_comm]
  · rfl

end Contents

section Steps
variable {op : Op K V} {ops : List (Op K V)}

omit [LinearOrder K] in
theorem position_congr (hf : m'.first = m.first) (p : Ptr) : m'.position p = m.position p := by
  unfold position
  rw [hf]

/-- The keys of a valid range are those between the two positions. -/
theorem inRange_iff {first last : Ptr} (h : Represents m T) (hr : ValidRange m first last) (k : K) :
    InRange m first last k ↔ m.position first ≤ k ∧ k < m.position last := by
  obtain ⟨hf, hl, -⟩ := hr
  rw [h.inTree_iff] at hf hl
  have hfirst : first ≠ header ∧ m.first first ≤ k ↔ m.position first ≤ k := by
    by_cases hh : first = header
    · simp [hh, position_header]
    · simp [position_node h (hf.resolve_right hh), hh]
  have hlast : (last = header ∨ k < m.first last) ↔ k < m.position last := by
    by_cases hh : last = header
    · simp [hh, position_header]
    · simp [position_node h (hl.resolve_right hh), hh]
  rw [← hfirst, ← hlast, InRange, and_assoc]

variable [Inhabited V]

/-- `operator[]` and the assignment to what it returns. -/
theorem access_refines (key : K) (assigned : Option V) (h : Represents m T)
    (hM : ∀ k v, Holds m T k v ↔ M.lookup k = some v) :
    Refines (m.step (.access key assigned)).1
        (M.insert key (assigned.getD ((M.lookup key).getD default))) ∧
      (m.getOrDefault key).1.second (m.getOrDefault key).2 = (M.lookup key).getD default := by
  obtain ⟨T', hT', hm, hf, hcases⟩ := getOrDefault_spec key h
  have hheld : Holds (m.getOrDefault key).1 T' key ((m.getOrDefault key).1.second (m.getOrDefault key).2) :=
    ⟨_, hm, hf, rfl⟩
  have hboth : (m.getOrDefault key).1.second (m.getOrDefault key).2 = (M.lookup key).getD default ∧
      ∀ k w, Holds (m.getOrDefault key).1 T' k w ↔
        if k = key then w = (M.lookup key).getD default else Holds m T k w := by
    rcases hcases with ⟨heq, rfl⟩ | ⟨hnone, hv⟩
    · rw [heq] at hheld ⊢
      have hs := (hM _ _).mp hheld
      rw [hs]
      refine ⟨rfl, fun k w => ?_⟩
      split_ifs with hk
      · rw [hk, hM, hs, Option.some.injEq, eq_comm]
        rfl
      · rfl
    · have hn : M.lookup key = none := by
        rw [← Option.not_isSome_iff_eq_none, lookup_isSome hM]
        exact fun ⟨p, hp, hpf⟩ => hnone p hp hpf
      rw [hn]
      refine ⟨?_, hv⟩
      rw [hv, if_pos rfl] at hheld
      exact hheld
  refine ⟨?_, hboth.1⟩
  cases assigned with
  | none => exact refines_insert hM hT' hboth.2
  | some value =>
    refine refines_insert hM (hT'.setSecond _ value) fun k w => ?_
    refine (hT'.holds_setSecond hm value k w).trans ?_
    rw [hf, hboth.2]
    split_ifs <;> rfl

/-- An operation gives the result of the operation on the finite map, and the map that refines its map. -/
theorem step_refines (h : Refines m M) (hp : m.Permits op) : Refines (m.step op).1 (M.step (m.abstractOp op)).1 ∧
    (m.step op).1.abstractResult (m.step op).2 = (M.step (m.abstractOp op)).2 := by
  obtain ⟨T, h, hM⟩ := h
  cases op with
  | insert key value =>
    obtain ⟨T', hT', hv⟩ := insert_spec key value h
    exact ⟨refines_insert hM hT' hv, rfl⟩
  | access key assigned =>
    obtain ⟨h1, h2⟩ := access_refines key assigned h hM
    exact ⟨h1, congrArg FiniteMap.Result.value h2⟩
  | erase stale key =>
    obtain ⟨T', hT', hl, hf, hs, -, hr⟩ := erase_spec key h fun p hm hf => hp p (h.inTree_iff.mpr hm) hf
    refine ⟨refines_eraseWhere hM hT' (fun q => by simp [hl, List.mem_filter]) hf hs, ?_⟩
    have hsome := lookup_isSome hM key
    have hn : (m.erase stale key).2 = if (M.lookup key).isSome then 1 else 0 := by
      rcases hr with ⟨hr, hex⟩ | ⟨hr, hall⟩
      · rw [hr, if_pos (hsome.mpr hex)]
      · rw [hr, if_neg fun h0 => (hsome.mp h0).elim fun q hq => hall q hq.1 hq.2]
    exact congrArg FiniteMap.Result.removed hn
  | eraseAt stale p =>
    have hend : p = null ∨ p = header → Refines (m.step (.eraseAt stale p)).1 (M.step (.eraseAt (m.position p))).1 ∧
        (m.step (.eraseAt stale p)).1.abstractResult (m.step (.eraseAt stale p)).2 =
          (M.step (.eraseAt (m.position p))).2 := by
      intro hp
      have heq : m.eraseAt stale p = (m, p) := by rw [eraseAt, if_pos hp]
      have hpos : m.position p = ⊤ := if_pos hp
      rw [step, heq, hpos]
      exact ⟨⟨T, h, hM⟩, congrArg FiniteMap.Result.position hpos⟩
    rcases hp with hp | hp | ⟨hp, hi⟩
    · exact hend (.inl hp)
    · exact hend (.inr hp)
    · have hpT := h.inTree_iff.mp hp
      obtain ⟨X, Y, hT⟩ := List.append_of_mem hpT
      obtain ⟨T', hT', hl, hf, hs, -, hr⟩ := eraseAt_spec h hT hi
      have hn := h.lays.nodup
      rw [hT] at hn
      have hmem : ∀ q, q ∈ T'.toList ↔ q ∈ T.toList ∧ ¬ m.first q = m.first p := fun q => by
        rw [hl, ← filter_ne_append hn, ← hT, h.filter_key hpT, List.mem_filter, decide_eq_true_iff]
      have hop : m.abstractOp (.eraseAt stale p) = .eraseAt (some (m.first p)) :=
        congrArg FiniteMap.Op.eraseAt (position_node h hpT)
      rw [hop]
      refine ⟨refines_eraseWhere hM hT' hmem hf hs, ?_⟩
      refine congrArg FiniteMap.Result.position ?_
      rw [hr, ← next_eq h hM hT]
      exact position_congr hf _
  | eraseRange stale first last =>
    obtain ⟨T', hT', hmem, hf, hs, -, hr⟩ := eraseRange_spec h hp.1 hp.2
    refine ⟨refines_eraseWhere hM hT' (fun q => ?_) hf hs, congrArg FiniteMap.Result.position ?_⟩
    · rw [hmem, inRange_iff h hp.1]
    · rw [hr]
      exact position_congr hf last
  | clear =>
    obtain ⟨hclear, -⟩ := clear_spec (h.lays.root.trans h.lays.headerParent.symm) h.next
    refine ⟨⟨.nil, hclear, fun k v => ?_⟩, rfl⟩
    exact iff_of_false (by rintro ⟨q, ⟨⟩, -⟩) (by rintro ⟨⟩)

/-- The operations of a run on the finite map. -/
def abstractOps (m : RBTreeMap K V) : List (Op K V) → List (FiniteMap.Op K V)
  | [] => []
  | op :: ops => m.abstractOp op :: (m.step op).1.abstractOps ops

/-- The results of a run as the finite map gives them. -/
def results (m : RBTreeMap K V) : List (Op K V) → List (FiniteMap.Result K V)
  | [] => []
  | op :: ops => (m.step op).1.abstractResult (m.step op).2 :: (m.step op).1.results ops

theorem run_refines (h : Refines m M) (hp : m.PermitsAll ops) :
    Refines (m.run ops) (M.run (m.abstractOps ops)).2 ∧ m.results ops = (M.run (m.abstractOps ops)).1 := by
  induction ops generalizing m M with
  | nil => exact ⟨h, rfl⟩
  | cons op ops ih =>
    obtain ⟨h1, h2⟩ := step_refines h hp.1
    obtain ⟨h3, h4⟩ := ih h1 hp.2
    exact ⟨h3, by rw [results, abstractOps, FiniteMap.run, h2, h4]⟩

omit [Inhabited V] in
/-- What the queries give. -/
theorem Refines.queries (h : Refines m M) : (∀ k, m.get k = M.lookup k) ∧
    (M.card ≠ 0 → ∀ k, m.count k = some (if (M.lookup k).isSome then 1 else 0)) ∧ m.size = M.card ∧
    (m.empty = true ↔ M.card = 0) := by
  obtain ⟨T, h, hM⟩ := h
  have hcard := card_eq h hM
  have hget : ∀ k, m.get k = M.lookup k := fun k => by
    ext v
    rw [get_spec h, hM]
  refine ⟨hget, fun h0 k => ?_, hcard.symm, ?_⟩
  · have ht : T ≠ .nil := by
      rintro rfl
      exact h0 (hcard.trans h.count)
    rw [count_spec h ht, hget]
  · rw [hcard]
    exact decide_eq_true_iff

omit [Inhabited V] in
/-- The iteration starts at the least key and goes on to the next one. -/
theorem Refines.iterators (h : Refines m M) : m.position m.begin = M.keys.min ∧
    ∀ p, m.InTree p → m.position (m.increment p) = M.next (m.first p) := by
  obtain ⟨T, h, hM⟩ := h
  refine ⟨?_, fun p hp => ?_⟩
  · rw [keys_eq hM, ← position_headD h h.sorted fun q hq => hq]
    exact congrArg m.position h.first
  · obtain ⟨X, Y, hT⟩ := List.append_of_mem (h.inTree_iff.mp hp)
    rw [h.increment_eq hT, next_eq h hM hT]

theorem make_refines [Inhabited K] : Refines (make : RBTreeMap K V) FiniteMap.empty :=
  ⟨.nil, make_represents, fun k v => by simp [Holds, FiniteMap.lookup_empty]⟩

/-- Every permitted sequence of operations on a new map gives the results of the finite map, and leaves its contents to
the queries and the iterators. -/
theorem run_make_refines [Inhabited K] (ops : List (Op K V)) (hp : make.PermitsAll ops) :
    (make : RBTreeMap K V).results ops = (FiniteMap.empty.run (make.abstractOps ops)).1 ∧
      ((∀ k, (make.run ops).get k = (FiniteMap.empty.run (make.abstractOps ops)).2.lookup k) ∧
        ((FiniteMap.empty.run (make.abstractOps ops)).2.card ≠ 0 → ∀ k, (make.run ops).count k =
          some (if ((FiniteMap.empty.run (make.abstractOps ops)).2.lookup k).isSome then 1 else 0)) ∧
        (make.run ops).size = (FiniteMap.empty.run (make.abstractOps ops)).2.card ∧
        ((make.run ops).empty = true ↔ (FiniteMap.empty.run (make.abstractOps ops)).2.card = 0)) ∧
      (make.run ops).position (make.run ops).begin = (FiniteMap.empty.run (make.abstractOps ops)).2.keys.min ∧
      ∀ p, (make.run ops).InTree p → (make.run ops).position ((make.run ops).increment p) =
        (FiniteMap.empty.run (make.abstractOps ops)).2.next ((make.run ops).first p) := by
  obtain ⟨h1, h2⟩ := run_refines make_refines hp
  exact ⟨h2, h1.queries, h1.iterators⟩

theorem run_make_refines_erase :
    (make : RBTreeMap ℕ ℕ).results [.insert 1 10, .access 2 none, .erase (fun _ q => q) 1] =
      (FiniteMap.empty.run (make.abstractOps [.insert 1 10, .access 2 none, .erase (fun _ q => q) 1])).1 :=
  (run_make_refines [.insert 1 10, .access 2 none, .erase (fun _ q => q) 1]
    ⟨trivial, trivial, fun _ _ _ _ _ _ => rfl, trivial⟩).1

/-- The second insertion of a key replaces its value. -/
theorem insert_overwrites : ((make.insert 1 10).insert 1 20 : RBTreeMap ℕ ℕ).get 1 ≠
    (make.insert 1 10 : RBTreeMap ℕ ℕ).get 1 := by
  decide

end Steps

end Zpc.RBTreeMap
