import Zpc.Bcht

/-!
# Runs of insertions into a cuckoo hash table

An insertion carries one key at a time, the new one or one that it took out of its slot, until a bucket has room. A run
keeps the table searchable as long as a key that is inserted again is still in its first bucket and keys are only taken
out of slots where their stored form leads to their buckets.
-/
namespace Zpc.Bcht
variable {K S : Type*} [DecidableEq S] {t : Bcht K S} {m m' : Memory K S} {b i fuel : ℕ} {key : K}

section Chain
/-- The keys of an insertion: their stored forms differ and none is the sentinel. -/
structure Distinct (t : Bcht K S) (entries : Set (K × ℤ)) : Prop where
  inj : ∀ e ∈ entries, ∀ e' ∈ entries, t.transKey e.1 = t.transKey e'.1 → e = e'
  stored : ∀ e ∈ entries, t.transKey e.1 ≠ t.compareKeySentinel

/-- What the loop of `insert` keeps true: all the entries but the one in hand are in the table, and the one in hand
comes to a bucket where it may wait. -/
structure Carries (t : Bcht K S) (entries : Set (K × ℤ)) (hand : K × ℤ) (m : Memory K S) (b : ℕ) : Prop where
  mem : hand ∈ entries
  others : Occupied t (entries \ {hand}) m
  bucket : b < t.numBuckets
  home : t.Home m hand.1 b

/-- The new key has the number `n`, or will get it. -/
def Numbered (n : ℕ) (hand : K × ℤ) (m : Memory K S) (c : Chain S) : Prop :=
  c.insertionIndex = sentinel ∧ hand.2 = n ∧ m.cnt = n ∨ c.insertionIndex = hand.2 ∧ c.no = n ∧ m.cnt = n + 1

omit [DecidableEq S] in
theorem number_spec {n : ℕ} {hand : K × ℤ} {c : Chain S} (h : Numbered n hand m c) (hind : 0 ≤ hand.2) :
    number m c = ({m with cnt := n + 1}, {c with insertionIndex := hand.2, no := n}) := by
  have hne : hand.2 ≠ sentinel := fun he => by
    rw [he] at hind
    exact absurd hind (by decide)
  unfold number
  rcases h with ⟨hs, hn, hcnt⟩ | ⟨hs, hno, hcnt⟩
  · rw [if_pos hs, hcnt, hn]
  · rw [hs, if_neg hne, ← hcnt, ← hno, ← hs]

variable {entries : Set (K × ℤ)} {hand : K × ℤ} {n : ℕ} {c : Chain S}

omit [DecidableEq S] in
theorem Occupied.of_eq (ho : Occupied t entries m) (hk : m'.keys = m.keys) (hi : m'.indices = m.indices) :
    Occupied t entries m' := by
  obtain ⟨keys, indices, activeKeys, cnt⟩ := m
  obtain ⟨keys', indices', activeKeys', cnt'⟩ := m'
  obtain rfl : keys' = keys := hk
  obtain rfl : indices' = indices := hi
  exact ⟨ho.stored, ho.known, ho.unique, ho.packed⟩

omit [DecidableEq S] in
theorem Carries.others_ne (hd : Distinct t entries) (hc : Carries t entries hand m b) :
    ∀ e ∈ entries \ {hand}, t.transKey e.1 ≠ t.transKey hand.1 :=
  fun e he h => he.2 (hd.inj e he.1 hand hc.mem h)

theorem Carries.absent (hd : Distinct t entries) (hc : Carries t entries hand m b) :
    t.holds m (b * t.bucketSize) (t.transKey hand.1) = false := by
  apply List.any_eq_false.mpr
  intro i hi he
  have hk := of_decide_eq_true he
  obtain ⟨e, hmem, hke, _⟩ := hc.others.known b hc.bucket i (List.mem_range.mp hi) (hk ▸ hd.stored hand hc.mem)
  exact hc.others_ne hd e hmem (hke.symm.trans hk)

omit [DecidableEq S] in
/-- The key in hand is put into a free slot. -/
theorem Carries.place (hd : Distinct t entries) (hc : Carries t entries hand m b) (hi : i < t.bucketSize)
    (hfree : m.keys (b * t.bucketSize + i) = t.compareKeySentinel)
    (hpre : ∀ j < i, m.keys (b * t.bucketSize + j) ≠ t.compareKeySentinel) :
    Occupied t entries (m.store (b * t.bucketSize + i) (t.transKey hand.1) hand.2) := by
  have ho : Occupied t _ (m.store (b * t.bucketSize + i) (t.transKey hand.1) hand.2) :=
    hc.others.store hc.bucket hi hpre hc.home (hd.stored hand hc.mem) (hc.others_ne hd)
  convert ho using 1
  ext e
  constructor
  · intro he
    by_cases h : e = hand
    · exact .inl h
    · exact .inr ⟨⟨he, h⟩, hfree.symm ▸ hd.stored e he⟩
  · rintro (rfl | ⟨⟨he, _⟩, _⟩)
    · exact hc.mem
    · exact he

omit [DecidableEq S] in
/-- The key in hand takes the slot of another, which is then in hand. -/
theorem Carries.evict (hd : Distinct t entries) (hc : Carries t entries hand m b) (hfull : t.Full m b)
    (hr : ∀ e ∈ entries, t.Rehashes e.1) (hi : i < t.bucketSize) (hbuckets : 0 < t.numBuckets) :
    ∃ e, m.keys (b * t.bucketSize + i) = t.transKey e.1 ∧ m.indices (b * t.bucketSize + i) = e.2 ∧
      Carries t entries e (m.store (b * t.bucketSize + i) (t.transKey hand.1) hand.2)
        (t.nextBucket (b * t.bucketSize) (m.keys (b * t.bucketSize + i))) := by
  have hne := hd.stored hand hc.mem
  obtain ⟨e, ⟨hmem, hother⟩, hk, hind⟩ := hc.others.known b hc.bucket i hi (hfull i hi)
  obtain ⟨b', hb', i', hi', hhome, hk', _⟩ := hc.others.stored e ⟨hmem, hother⟩
  obtain ⟨rfl, rfl⟩ := hc.others.unique b hc.bucket i hi b' hb' i' hi' (hfull i hi) (hk.trans hk'.symm)
  have ho : Occupied t _ (m.store (b * t.bucketSize + i) (t.transKey hand.1) hand.2) :=
    hc.others.store hc.bucket hi (fun j hj => hfull j (hj.trans hi)) hc.home hne (hc.others_ne hd)
  refine ⟨e, hk, hind, hmem, ?_, ?_, ?_⟩
  · convert ho using 1
    ext e'
    rw [hk]
    constructor
    · rintro ⟨he', hne'⟩
      by_cases h : e' = hand
      · exact .inl h
      · exact .inr ⟨⟨he', h⟩, fun h' => hne' (hd.inj e' he' e hmem h')⟩
    · rintro (rfl | ⟨⟨he', _⟩, hk'⟩)
      · exact ⟨hc.mem, fun h => hother h.symm⟩
      · exact ⟨he', fun h => hk' (h ▸ rfl)⟩
  · unfold nextBucket bucketOf
    split_ifs <;> exact Nat.mod_lt _ hbuckets
  · rw [hk]
    exact (hhome.next hfull (hr e hmem)).mono fun b => store_full hne

omit [DecidableEq S] in
theorem evict_eq {index : ℤ} {k : S} {slot : ℕ}
    (hnum : number m c = ({m with cnt := n + 1}, {c with insertionIndex := index, no := n}))
    (hoff : c.bucketOffset = b * t.bucketSize) (hkey : c.insertionKey = k)
    (hslot : b * t.bucketSize + t.rng c.cuckooCounter % t.bucketSize = slot) :
    t.evict m c = ({(m.store slot k index) with cnt := n + 1},
      ⟨t.nextBucket (b * t.bucketSize) (m.keys slot) * t.bucketSize, m.keys slot, m.indices slot, n,
        c.cuckooCounter + 1⟩) := by
  unfold Bcht.evict
  rw [hoff, hnum, hslot]
  simp only [hkey]
  rfl

/-- The loop ends. If it does not fail the new key and all others are in the table, else all but one of them. -/
theorem insertFrom_carries (hd : Distinct t entries) (hpos : ∀ e ∈ entries, 0 ≤ e.2)
    (hc : Carries t entries hand m b) (hn : Numbered n hand m c) (hoff : c.bucketOffset = b * t.bucketSize)
    (hkey : c.insertionKey = t.transKey hand.1) (hr : (∀ e ∈ entries, t.Rehashes e.1) ∨ ¬ t.Full m b)
    (hf : t.maxCuckooChains - c.cuckooCounter < fuel) :
    ∃ m' r, t.insertFrom key true fuel m c = some (m', r) ∧ (r ≠ .failure → r = .value n ∧ Occupied t entries m' ∧
      m'.cnt = n + 1 ∧ m'.activeKeys = Function.update m.activeKeys n key) ∧
      (r = .failure → ∃ lost ∈ entries, Occupied t (entries \ {lost}) m') := by
  induction fuel generalizing hand m b c with
  | zero => exact absurd hf (Nat.not_lt_zero _)
  | succ fuel ih =>
    have hnum := number_spec hn (hpos hand hc.mem)
    have habsent := hc.absent hd
    have hbuckets := Nat.zero_lt_of_lt hc.bucket
    unfold insertFrom
    rw [hoff, hkey, if_neg (Bool.eq_false_iff.mp habsent)]
    by_cases hload : t.load m (b * t.bucketSize) = t.bucketSize
    · -- the bucket is full
      have hfull := (hc.others.full_iff hc.bucket).mpr hload
      have hrehash := hr.resolve_right fun h => h hfull
      have hi := Nat.mod_lt (t.rng c.cuckooCounter) t.bucketSize_pos
      obtain ⟨e, hke, hind, hnext⟩ := hc.evict hd hfull hrehash hi hbuckets
      have hev := evict_eq hnum hoff hkey rfl
      rw [hke, hind] at hev
      rw [hke] at hnext
      rw [if_neg (not_not.mpr hload), hev]
      dsimp only
      have hnext' : Carries t entries e {(m.store (b * t.bucketSize + t.rng c.cuckooCounter % t.bucketSize)
          (t.transKey hand.1) hand.2) with cnt := n + 1} _ :=
        ⟨hnext.mem, hnext.others.of_eq rfl rfl, hnext.bucket, hnext.home⟩
      split_ifs with hlt
      · exact ih hnext' (.inr ⟨rfl, rfl, rfl⟩) rfl rfl (.inl hrehash) (by dsimp only at hlt ⊢; omega)
      · exact ⟨_, _, rfl, fun h => absurd rfl h, fun _ => ⟨e, hnext'.mem, hnext'.others⟩⟩
    · obtain ⟨hlt, hfree, hpre⟩ := hc.others.first_free hc.bucket hload
      rw [if_pos hload]
      dsimp only
      rw [if_pos hfree, hnum]
      refine ⟨_, _, rfl, fun _ => ⟨rfl, (hc.place hd hlt hfree hpre).of_eq ?_ ?_, rfl, rfl⟩, fun h => ?_⟩
      · simp only [if_true, Memory.store, hkey]
      · simp only [if_true, Memory.store]
      · cases h

/-- More fuel does not change how the loop ends. -/
theorem insertFrom_mono {r : Memory K S × Returned} {fuel' : ℕ} (h : t.insertFrom key true fuel m c = some r)
    (hle : fuel ≤ fuel') : t.insertFrom key true fuel' m c = some r := by
  induction fuel generalizing m c fuel' with
  | zero => cases h
  | succ fuel ih =>
    obtain ⟨fuel', rfl⟩ := Nat.exists_eq_succ_of_ne_zero (Nat.ne_of_gt (Nat.zero_lt_of_lt hle))
    have hle' := Nat.le_of_succ_le_succ hle
    unfold insertFrom at h ⊢
    dsimp only at h ⊢
    split_ifs at h ⊢ <;> first | exact h | exact ih h hle'

end Chain

section Run
def entriesOf (keys : List K) : Set (K × ℤ) := {e | ∃ i : ℕ, keys[i]? = some e.1 ∧ e.2 = i}

theorem entriesOf_concat (keys : List K) (key : K) :
    entriesOf (keys ++ [key]) = {e | e = (key, (keys.length : ℤ)) ∨ e ∈ entriesOf keys} := by
  ext ⟨k, index⟩
  constructor
  · rintro ⟨i, hi, rfl⟩
    rcases Nat.lt_or_ge i keys.length with hlt | hge
    · rw [List.getElem?_append_left hlt] at hi
      exact .inr ⟨i, hi, rfl⟩
    · rw [List.getElem?_append_right hge, List.getElem?_singleton] at hi
      split_ifs at hi with hz
      obtain rfl := Option.some.inj hi
      have hlen : i = keys.length := by omega
      exact .inl (by rw [hlen])
  · rintro (he | ⟨i, hi, rfl⟩)
    · obtain ⟨rfl, rfl⟩ := Prod.mk.inj he
      exact ⟨keys.length, by simp, rfl⟩
    · have hlt := (List.getElem?_eq_some_iff.mp hi).1
      exact ⟨i, (List.getElem?_append_left hlt).trans hi, rfl⟩

theorem mem_entriesOf {k : K} {keys : List K} : (∃ index, (k, index) ∈ entriesOf keys) ↔ k ∈ keys := by
  rw [List.mem_iff_getElem?]
  constructor
  · rintro ⟨_, i, hi, _⟩
    exact ⟨i, hi⟩
  · rintro ⟨i, hi⟩
    exact ⟨i, i, hi, rfl⟩

/-- The table holds these keys, numbered in this order. -/
structure Numbers (t : Bcht K S) (keys : List K) (m : Memory K S) : Prop where
  nodup : keys.Nodup
  stored : ∀ k ∈ keys, t.transKey k ≠ t.compareKeySentinel
  occupied : Occupied t (entriesOf keys) m
  counted : m.cnt = keys.length
  active : ∀ (i : ℕ) (k : K), keys[i]? = some k → m.activeKeys i = k

omit [DecidableEq S] in
theorem numbers_empty (t : Bcht K S) (indices : ℕ → ℤ) (activeKeys : ℤ → K) :
    Numbers t [] (t.empty indices activeKeys) where
  nodup := List.nodup_nil
  stored := fun _ hk => absurd hk List.not_mem_nil
  occupied :=
    ⟨fun _ ⟨_, hi, _⟩ => absurd hi (by simp), fun _ _ _ _ h => absurd rfl h, fun _ _ _ _ _ _ _ _ h => absurd rfl h,
      fun _ _ _ _ h => absurd rfl h⟩
  counted := rfl
  active := fun _ _ h => absurd h (by simp)

section Step
variable {keys : List K} (hn : Numbers t keys m) (hinj : Function.Injective t.transKey)
include hn hinj

omit [DecidableEq S] in
theorem Numbers.distinct_concat (hne : t.transKey key ≠ t.compareKeySentinel) (hmem : key ∉ keys) :
    Distinct t (entriesOf (keys ++ [key])) := by
  have hnodup : (keys ++ [key]).Nodup := List.nodup_append.mpr
    ⟨hn.nodup, List.nodup_singleton key, fun a ha b hb he => hmem (List.mem_singleton.mp hb ▸ he ▸ ha)⟩
  constructor
  · rintro ⟨k, index⟩ ⟨i, hi, rfl⟩ ⟨k', index'⟩ ⟨i', hi', rfl⟩ he
    dsimp only at hi hi'
    obtain rfl := hinj he
    have hii : i = i' := (List.getElem?_inj (List.getElem?_eq_some_iff.mp hi).1 hnodup).mp (hi.trans hi'.symm)
    rw [hii]
  · rintro ⟨k, index⟩ he
    rcases List.mem_append.mp (mem_entriesOf.mp ⟨index, he⟩) with hk | hk
    · exact hn.stored k hk
    · exact List.mem_singleton.mp hk ▸ hne

/-- The insertion of a new key ends and gives it the next number, or it fails and one key is not in the table. -/
theorem Numbers.insert_new (hne : t.transKey key ≠ t.compareKeySentinel) (hmem : key ∉ keys)
    (hk : (∀ k ∈ keys ++ [key], t.Rehashes k) ∨ ¬ t.Full m (t.bucketOf t.hf0 key)) :
    ∃ m' r, (∀ fuel, t.maxCuckooChains < fuel → t.insert fuel m key sentinel true = some (m', r)) ∧
      (r ≠ .failure → r = .value m.cnt ∧ Numbers t (keys ++ [key]) m') ∧
      (r = .failure → ∃ lost ∈ entriesOf (keys ++ [key]), Occupied t (entriesOf (keys ++ [key]) \ {lost}) m') := by
  have hd := hn.distinct_concat hinj hne hmem
  have hother : entriesOf (keys ++ [key]) \ {(key, (keys.length : ℤ))} = entriesOf keys := by
    rw [entriesOf_concat]
    ext e
    constructor
    · rintro ⟨he | he, h⟩
      · exact absurd he h
      · exact he
    · intro he
      refine ⟨.inr he, fun h => hmem ?_⟩
      obtain rfl := Set.mem_singleton_iff.mp h
      exact mem_entriesOf.mp ⟨_, he⟩
  have hnew : (key, (keys.length : ℤ)) ∈ entriesOf (keys ++ [key]) := by
    rw [entriesOf_concat]
    exact .inl rfl
  by_cases hz : t.numBuckets = 0
  · exact ⟨m, .failure, fun fuel _ => if_pos hz, fun h => absurd rfl h, fun _ => ⟨_, hnew, hother.symm ▸ hn.occupied⟩⟩
  have hc : Carries t (entriesOf (keys ++ [key])) (key, (keys.length : ℤ)) m (t.bucketOf t.hf0 key) :=
    ⟨hnew, hother.symm ▸ hn.occupied, Nat.mod_lt _ (Nat.pos_of_ne_zero hz), .inl rfl⟩
  have hpos : ∀ e ∈ entriesOf (keys ++ [key]), 0 ≤ e.2 := by
    rintro e ⟨i, _, hi⟩
    omega
  have hr : (∀ e ∈ entriesOf (keys ++ [key]), t.Rehashes e.1) ∨ ¬ t.Full m (t.bucketOf t.hf0 key) :=
    hk.imp_left fun h e he => h e.1 (mem_entriesOf.mp ⟨e.2, he⟩)
  obtain ⟨m', r, hrun, hend⟩ := insertFrom_carries hd hpos hc
    (.inl ⟨rfl, rfl, hn.counted⟩ : Numbered _ _ m
      ⟨t.bucketOf t.hf0 key * t.bucketSize, t.transKey key, sentinel, sentinel, 0⟩)
    rfl rfl hr (show _ < t.maxCuckooChains + 1 by simp)
  refine ⟨m', r, fun fuel hfuel => ?_, fun hfail => ?_, hend.2⟩
  · unfold Bcht.insert
    rw [if_neg hz]
    exact insertFrom_mono hrun hfuel
  · obtain ⟨hvalue, ho, hcnt, hactive⟩ := hend.1 hfail
    refine ⟨by rw [hvalue, hn.counted], ?_, ?_, ho, ?_, ?_⟩
    · exact List.nodup_append.mpr
        ⟨hn.nodup, List.nodup_singleton key, fun a ha b hb he => hmem (List.mem_singleton.mp hb ▸ he ▸ ha)⟩
    · intro k hmem'
      rcases List.mem_append.mp hmem' with hmem' | hmem'
      · exact hn.stored k hmem'
      · exact List.mem_singleton.mp hmem' ▸ hne
    · rw [hcnt, List.length_append, List.length_singleton]
    · intro i k hi
      rw [hactive]
      rcases Nat.lt_or_ge i keys.length with hlt | hge
      · rw [List.getElem?_append_left hlt] at hi
        rw [Function.update_of_ne (by omega)]
        exact hn.active i k hi
      · have hlt := (List.getElem?_eq_some_iff.mp hi).1
        rw [List.length_append, List.length_singleton] at hlt
        have hlen : i = keys.length := by omega
        rw [hlen, Function.update_self]
        rw [hlen, List.getElem?_concat_length] at hi
        exact Option.some.inj hi

omit hinj in
/-- A key that is still in its first bucket is found there. -/
theorem Numbers.insert_old (hmem : key ∈ keys)
    (hk : ∃ i < t.bucketSize, m.keys (t.bucketOf t.hf0 key * t.bucketSize + i) = t.transKey key) (hf : 0 < fuel) :
    t.insert fuel m key sentinel true = some (m, .value sentinel) := by
  obtain ⟨fuel, rfl⟩ := Nat.exists_eq_succ_of_ne_zero (Nat.ne_of_gt hf)
  obtain ⟨index, he⟩ := mem_entriesOf.mpr hmem
  obtain ⟨b, hb, _⟩ := hn.occupied.stored _ he
  obtain ⟨i, hi, hkey⟩ := hk
  have hholds : t.holds m (t.bucketOf t.hf0 key * t.bucketSize) (t.transKey key) = true :=
    List.any_eq_true.mpr ⟨i, List.mem_range.mpr hi, decide_eq_true hkey⟩
  unfold Bcht.insert insertFrom
  rw [if_neg (Nat.ne_of_gt (Nat.zero_lt_of_lt hb)), if_pos hholds]

omit [DecidableEq S] hn hinj in
/-- A bucket where a key may wait is that of a round whose earlier rounds find full buckets. -/
theorem Home.exists_round (h : t.Home m key b) :
    ∃ q < 3, b = t.round key q ∧ ∀ p < q, t.Full m (t.round key p) := by
  rcases h with h | ⟨h0, h | ⟨h1, h⟩⟩
  · exact ⟨0, by decide, h, fun p hp => absurd hp (Nat.not_lt_zero p)⟩
  · refine ⟨1, by decide, h, fun p hp => ?_⟩
    obtain rfl : p = 0 := by omega
    exact h0
  · refine ⟨2, by decide, h, fun p hp => ?_⟩
    rcases Nat.lt_succ_iff_lt_or_eq.mp hp with hp | rfl
    · obtain rfl : p = 0 := by omega
      exact h0
    · exact h1

omit [DecidableEq S] hn hinj in
theorem round_lt (hb : 0 < t.numBuckets) (key : K) (q : ℕ) : t.round key q < t.numBuckets := by
  rcases q with _ | _ | q <;> exact Nat.mod_lt _ hb

omit hn hinj in
/-- `query` gives the index of a key in the table. -/
theorem Occupied.query_mem {entries : Set (K × ℤ)} {e : K × ℤ} (ho : Occupied t entries m) (he : e ∈ entries)
    (hne : t.transKey e.1 ≠ t.compareKeySentinel) : t.query m e.1 = e.2 := by
  obtain ⟨b, hb, i, hib, hhome, hk, hind⟩ := ho.stored _ he
  obtain ⟨q, hq, rfl, hfull⟩ := hhome.exists_round
  have hround := round_lt (Nat.zero_lt_of_lt hb) e.1
  unfold query
  rw [if_neg (Nat.ne_of_gt (Nat.zero_lt_of_lt hb))]
  rcases t.queryFrom_cases m e.1 3 0 with ⟨r, _, _, j, hj, hkr, hres⟩ | ⟨_, r, _, hend, hbefore⟩
  · refine hres.trans ?_
    obtain ⟨hrq, rfl⟩ := ho.unique _ (hround r) j hj _ hb i hib (hkr.symm ▸ hne) (hkr.trans hk.symm)
    rw [hrq]
    exact hind
  · exfalso
    rcases hend with rfl | ⟨hlt, hload, hnone⟩
    · exact hbefore q (Nat.zero_le q) hq i hib hk
    · rcases Nat.lt_trichotomy q r with hqr | rfl | hqr
      · exact hbefore q (Nat.zero_le q) hqr i hib hk
      · exact hnone i hib hk
      · exact Nat.ne_of_lt hload ((ho.full_iff (hround r)).mp (hfull r hqr))

omit hn in
theorem Occupied.query_absent {entries : Set (K × ℤ)} (ho : Occupied t entries m)
    (hne : t.transKey key ≠ t.compareKeySentinel) (hmem : ∀ index, (key, index) ∉ entries) : t.query m key = sentinel := by
  unfold query
  split_ifs with hz
  · rfl
  rcases t.queryFrom_cases m key 3 0 with ⟨r, _, _, i, hi, hk, _⟩ | ⟨hres, _⟩
  · obtain ⟨e, he, hke, _⟩ := ho.known _ (round_lt (Nat.pos_of_ne_zero hz) key r) i hi (hk.symm ▸ hne)
    obtain rfl : e.1 = key := hinj (hke.symm.trans hk)
    exact absurd he (hmem e.2)
  · exact hres

omit hinj in
theorem Numbers.query_mem {index : ℕ} (hi : keys[index]? = some key) : t.query m key = index :=
  hn.occupied.query_mem (e := (key, index)) ⟨index, hi, rfl⟩ (hn.stored key (List.mem_of_getElem? hi))

theorem Numbers.query_absent (hne : t.transKey key ≠ t.compareKeySentinel) (hmem : key ∉ keys) :
    t.query m key = sentinel :=
  hn.occupied.query_absent hinj hne fun index he => hmem (mem_entriesOf.mp ⟨index, he⟩)

end Step

section Results
variable (t)

abbrev Guard (K S : Type*) := List K → Memory K S → K → Prop

/-- The tables that insertions build which do not fail, each of them meeting the guard. -/
inductive Run (guard : Guard K S) : List K → Memory K S → Prop
  | empty (indices : ℕ → ℤ) (activeKeys : ℤ → K) : Run guard [] (t.empty indices activeKeys)
  | insert {done : List K} {m m' : Memory K S} {key : K} {fuel : ℕ} {r : Returned} (h : Run guard done m)
      (hne : t.transKey key ≠ t.compareKeySentinel) (hg : guard done m key)
      (hi : t.insert fuel m key sentinel true = some (m', r)) (hr : r ≠ .failure) : Run guard (done ++ [key]) m'

/-- The guard that every insertion meets. -/
def anyKey : Guard K S := fun _ _ _ => True

/-- A key that was inserted before is still in its first bucket, and a new one finds room there, unless the stored forms
of the keys lead to the buckets of the keys. -/
def Settled : Guard K S := fun done m key =>
  (key ∈ done → ∃ i < t.bucketSize, m.keys (t.bucketOf t.hf0 key * t.bucketSize + i) = t.transKey key) ∧
  (key ∉ done → (∃ i < t.bucketSize, m.keys (t.bucketOf t.hf0 key * t.bucketSize + i) = t.compareKeySentinel) ∨
    ∀ k ∈ done ++ [key], t.Rehashes k)

/-- What a table is for: the keys that were inserted have the numbers below the counter, one each, under which the list
of active keys has them, and `query` finds them and no others. -/
structure Indexed (done : List K) (m : Memory K S) : Prop where
  once : ∀ s < t.capacity, ∀ s' < t.capacity, m.keys s ≠ t.compareKeySentinel → m.keys s = m.keys s' → s = s'
  numbered : ∀ k ∈ done, ∃ i < m.cnt, t.query m k = i ∧ m.activeKeys i = k
  active : ∀ i < m.cnt, m.activeKeys i ∈ done ∧ t.query m (m.activeKeys i) = i
  absent : ∀ k, t.transKey k ≠ t.compareKeySentinel → k ∉ done → t.query m k = sentinel

variable {t} {done : List K}

theorem insert_mono {r r' : Memory K S × Returned} {fuel' : ℕ} (h : t.insert fuel m key sentinel true = some r)
    (h' : t.insert fuel' m key sentinel true = some r') : r = r' := by
  unfold Bcht.insert at h h'
  split_ifs at h h' with hz
  · exact Option.some.inj (h.symm.trans h')
  · have hmax := insertFrom_mono h (Nat.le_max_left fuel fuel')
    exact Option.some.inj (hmax.symm.trans (insertFrom_mono h' (Nat.le_max_right fuel fuel')))

/-- An insertion that meets the guard ends, and returns a new index exactly if the key is new. -/
theorem Numbers.insert {keys : List K} (hn : Numbers t keys m) (hinj : Function.Injective t.transKey)
    (hkeys : ∀ k, k ∈ keys ↔ k ∈ done) (hne : t.transKey key ≠ t.compareKeySentinel) (hg : Settled t done m key) :
    ∃ m' r, (∀ fuel, t.maxCuckooChains < fuel → t.insert fuel m key sentinel true = some (m', r)) ∧
      (r ≠ .failure → (key ∈ done → r = .value sentinel) ∧ (key ∉ done → r = .value m.cnt) ∧
        ∃ keys', (∀ k, k ∈ keys' ↔ k ∈ done ++ [key]) ∧ Numbers t keys' m') := by
  by_cases hmem : key ∈ done
  · have hold : ∀ fuel, 0 < fuel → t.insert fuel m key sentinel true = some (m, .value sentinel) :=
      fun fuel => hn.insert_old ((hkeys key).mpr hmem) (hg.1 hmem)
    refine ⟨m, .value sentinel, fun fuel hf => hold fuel (Nat.zero_lt_of_lt hf), fun _ =>
      ⟨fun _ => rfl, fun h => absurd hmem h, keys, fun k => ?_, hn⟩⟩
    rw [hkeys, List.mem_append, List.mem_singleton]
    exact (or_iff_left_of_imp fun h => h ▸ hmem).symm
  · have hk : (∀ k ∈ keys ++ [key], t.Rehashes k) ∨ ¬ t.Full m (t.bucketOf t.hf0 key) := by
      rcases hg.2 hmem with ⟨i, hi, hfree⟩ | hre
      · exact .inr fun hfull => hfull i hi hfree
      · refine .inl fun k hk => hre k ?_
        rw [List.mem_append] at hk ⊢
        exact hk.imp_left (hkeys k).mp
    obtain ⟨m', r, hrun, hend⟩ := hn.insert_new hinj hne (fun h => hmem ((hkeys key).mp h)) hk
    refine ⟨m', r, hrun, fun hr => ⟨fun h => absurd h hmem, fun _ => (hend.1 hr).1, keys ++ [key], fun k => ?_, (hend.1 hr).2⟩⟩
    rw [List.mem_append, List.mem_append, hkeys]

theorem run_numbers (hinj : Function.Injective t.transKey) (h : Run t (Settled t) done m) :
    ∃ keys, (∀ k, k ∈ keys ↔ k ∈ done) ∧ Numbers t keys m := by
  induction h with
  | empty indices activeKeys => exact ⟨[], fun _ => Iff.rfl, numbers_empty t indices activeKeys⟩
  | insert h hne hg hi hr ih =>
    obtain ⟨keys, hkeys, hn⟩ := ih
    obtain ⟨m', r, hrun, hend⟩ := hn.insert hinj hkeys hne hg
    obtain ⟨rfl, rfl⟩ := Prod.mk.inj (insert_mono hi (hrun _ (Nat.lt_succ_self _)))
    exact (hend hr).2.2

theorem Numbers.indexed {keys : List K} (hn : Numbers t keys m) (hinj : Function.Injective t.transKey)
    (hkeys : ∀ k, k ∈ keys ↔ k ∈ done) : Indexed t done m where
  once := by
    have hslot : ∀ s < t.capacity, s / t.bucketSize < t.numBuckets ∧ s % t.bucketSize < t.bucketSize ∧
        s / t.bucketSize * t.bucketSize + s % t.bucketSize = s := fun s hs =>
      ⟨(Nat.div_lt_iff_lt_mul t.bucketSize_pos).mpr hs, Nat.mod_lt s t.bucketSize_pos, Nat.div_add_mod' s _⟩
    intro s hs s' hs' hne he
    obtain ⟨hb, hi, h⟩ := hslot s hs
    obtain ⟨hb', hi', h'⟩ := hslot s' hs'
    rw [← h] at hne
    rw [← h, ← h'] at he
    obtain ⟨hbb, hii⟩ := hn.occupied.unique _ hb _ hi _ hb' _ hi' hne he
    rw [← h, ← h', hbb, hii]
  numbered := by
    intro k hk
    obtain ⟨i, hi⟩ := List.mem_iff_getElem?.mp ((hkeys k).mpr hk)
    exact ⟨i, hn.counted ▸ (List.getElem?_eq_some_iff.mp hi).1, hn.query_mem hi, hn.active i k hi⟩
  active := by
    intro i hi
    have hget := List.getElem?_eq_getElem (hn.counted ▸ hi : i < keys.length)
    rw [hn.active i _ hget]
    exact ⟨(hkeys _).mp (List.mem_of_getElem? hget), hn.query_mem hget⟩
  absent := fun k hne hk => hn.query_absent hinj hne fun h => hk ((hkeys k).mp h)

/-- Whatever the hash functions: while no insertion fails, each finds a key that was inserted before in its first bucket,
and none moves a key whose stored form leads to other buckets, every insertion ends and returns a new index exactly if
the key is new, and the table gives all keys their indices. -/
theorem run_indexed (hinj : Function.Injective t.transKey) (h : Run t (Settled t) done m) :
    Indexed t done m ∧ ∀ key, t.transKey key ≠ t.compareKeySentinel → Settled t done m key →
      ∃ m' r, (∃ n, ∀ fuel, n ≤ fuel → t.insert fuel m key sentinel true = some (m', r)) ∧
        (r ≠ .failure → (key ∈ done → r = .value sentinel) ∧ (key ∉ done → r = .value m.cnt)) := by
  obtain ⟨keys, hkeys, hn⟩ := run_numbers hinj h
  refine ⟨hn.indexed hinj hkeys, fun key hne hg => ?_⟩
  obtain ⟨m', r, hrun, hend⟩ := hn.insert hinj hkeys hne hg
  exact ⟨m', r, ⟨t.maxCuckooChains + 1, hrun⟩, fun hr => ⟨(hend hr).1, (hend hr).2.1⟩⟩

section Samples
/-- Four buckets of one slot. -/
def narrow : Bcht ℕ ℕ := comparingKeys 1 4 14 0x3f3f3f3f (· + 0) (· + 1) (· + 2) marsRng (by decide)

def moved : Option (Memory ℕ ℕ × Returned) :=
  (narrow.insert 15 (narrow.empty (fun _ => 0) fun _ => 0) 0 sentinel true).bind fun r =>
    narrow.insert 15 r.1 4 sentinel true

theorem settled_comparingKeys {bucketSize numBuckets maxCuckooChains : ℕ} {sentinel : ℕ} {hf0 hf1 hf2 rng : ℕ → ℕ}
    {h : 0 < bucketSize} {done : List ℕ} {m : Memory ℕ ℕ} {key : ℕ} (hmem : key ∉ done) :
    Settled (comparingKeys bucketSize numBuckets maxCuckooChains sentinel hf0 hf1 hf2 rng h) done m key :=
  ⟨fun hk => absurd hk hmem, fun _ => .inr fun _ _ => ⟨rfl, rfl, rfl⟩⟩

theorem run_moved (guard : Guard ℕ ℕ) (hg : ∀ done m key, key ∉ done → guard done m key) :
    ∃ m, narrow.Run guard [0, 4] m ∧ m.keys 0 = 4 ∧ m.keys 1 = 0 ∧ m.cnt = 2 ∧ moved.map Prod.fst = some m := by
  have hmoved : moved.map (fun r => (r.1.keys 0, r.1.keys 1, r.1.cnt, r.2)) = some (4, 0, 2, .value 1) := by decide
  have hfirst : (narrow.insert 15 (narrow.empty (fun _ => 0) fun _ => 0) 0 sentinel true).map Prod.snd =
      some (.value 0) := by decide
  obtain ⟨⟨m₂, r₂⟩, h₂, hres⟩ := Option.map_eq_some_iff.mp hmoved
  obtain ⟨⟨m₁, r₁⟩, h₁, hr₁⟩ := Option.map_eq_some_iff.mp hfirst
  have hstep : narrow.insert 15 m₁ 4 sentinel true = some (m₂, r₂) := by
    unfold moved at h₂
    rwa [h₁, Option.bind_some] at h₂
  simp only [Prod.mk.injEq] at hres
  obtain ⟨h0, h1, hcnt, rfl⟩ := hres
  obtain rfl : r₁ = .value 0 := hr₁
  have hrun₁ : narrow.Run guard [0] m₁ :=
    (Run.empty (fun _ => 0) fun _ => 0).insert (by decide) (hg _ _ _ (by decide)) h₁ (by decide)
  exact ⟨m₂, hrun₁.insert (by decide) (hg _ _ _ (by decide)) hstep (by decide), h0, h1, hcnt, by rw [h₂]; rfl⟩

theorem run_indexed_moved : ∃ m, narrow.Run (Settled narrow) [0, 4] m ∧ narrow.Indexed [0, 4] m ∧
    m.keys 0 = 4 ∧ m.keys 1 = 0 := by
  obtain ⟨m, hrun, h0, h1, _⟩ := run_moved (Settled narrow) fun _ _ _ h => settled_comparingKeys h
  exact ⟨m, hrun, (run_indexed (fun _ _ h => h) hrun).1, h0, h1⟩

/-- The first key, inserted again, gets a second slot and a second index. -/
theorem inserted_twice : ¬ ∀ m, narrow.Run anyKey [0, 4] m → ∀ fuel m' r,
    narrow.insert fuel m 0 sentinel true = some (m', r) → r ≠ .failure → r = .value sentinel := by
  intro h
  obtain ⟨m, hrun, _, _, _, hm⟩ := run_moved anyKey fun _ _ _ _ => trivial
  have hagain : (moved.bind fun r => narrow.insert 15 r.1 0 sentinel true).map Prod.snd = some (.value 2) := by decide
  obtain ⟨r, hr, rfl⟩ := Option.map_eq_some_iff.mp hm
  rw [hr, Option.bind_some] at hagain
  obtain ⟨⟨m', r'⟩, hins, rfl⟩ := Option.map_eq_some_iff.mp hagain
  exact absurd (h _ hrun 15 m' _ hins (by decide)) (by decide)

end Samples

end Results

end Run

end Zpc.Bcht
