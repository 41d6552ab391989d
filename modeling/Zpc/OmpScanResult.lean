import Zpc.OmpScanRounds

/-!
# What the OpenMP scans and the reduction write

Every run of the parallel region ends with the same output, stated here in closed form.
-/
namespace Zpc.OmpExecutionPolicy
open ThreadTeam DoublingScan

variable {α : Type*} {op : α → α → α} {init : α} {first : ℕ → α} {dist n tid : ℕ} {F G : ℕ → α} {s s' : ScanState α}

theorem below_neighbours : Neighbours n (below dist n) (Active dist n) (fun t i => t - i) (fun t => t) where
  combines t stride _ hact hs := if_pos ⟨hs, hact⟩
  rests t stride _ h := if_neg fun h' => h ⟨h'.2, h'.1⟩
  inside t i ht hact _ := ⟨by omega, hact.mono (by omega) (Nat.sub_le t i)⟩
  onward t i j _ := Nat.sub_sub t i j
  shorter _ _ _ := rfl
  zero _ := rfl
  bound _ ht := ht

theorem above_neighbours : Neighbours n (above n) (fun _ => True) (fun t i => t + i) (fun t => n - 1 - t) where
  combines t stride _ _ hs := if_pos (by omega)
  rests t stride _ h := if_neg fun h' => h ⟨trivial, by omega⟩
  inside t i _ _ _ := ⟨by omega, trivial⟩
  onward t i j _ := Nat.add_assoc t i j
  shorter t i _ := by omega
  zero _ := rfl
  bound t _ := by omega

theorem output_of_knows (hn : 0 < n) (h : ∀ t < n, Knows (Owns dist n) F t s.dFirst) : s.dFirst = F := by
  funext k
  rcases Nat.lt_or_ge k dist with hk | hk
  · exact h _ (owner_lt hn hk) k fun u hu => not_owns_other hn ((owns_iff hn).mpr ⟨hk, rfl⟩) hu
  · refine h 0 hn k fun u _ hown => ?_
    exact absurd ((owns_iff hn).mp hown).1 (Nat.not_lt_of_le hk)

/-- The loop of a thread over its block turns `G` into `F`, position by position. -/
theorem knows_upTo_start (hn : 0 < n) (hG : ∀ k, dist ≤ k → F k = G k) (h : Knows (Owns dist n) G tid s.dFirst) :
    Knows (Owns dist n) (upTo (st dist n tid) F G) tid s.dFirst := by
  refine h.congr fun k hk => ?_
  rw [upTo]
  split
  next hlt =>
    rcases owns_or_beyond hn hk with hown | hge
    · exact absurd hown.1 (Nat.not_le_of_lt hlt)
    · exact (hG k hge).symm
  next => rfl

theorem knows_upTo_end (hn : 0 < n) (hG : ∀ k, dist ≤ k → F k = G k)
    (h : Knows (Owns dist n) (upTo (ed dist n tid) F G) tid s.dFirst) : Knows (Owns dist n) F tid s.dFirst := by
  refine h.congr fun k hk => ?_
  rw [upTo]
  split
  next => rfl
  next hge =>
    rcases owns_or_beyond hn hk with hown | hge
    · exact absurd hown.2 (by omega)
    · exact (hG k hge).symm

theorem knows_idle (hn : 0 < n) (hact : ¬ Active dist n tid) (hG : ∀ k, dist ≤ k → F k = G k)
    (h : Knows (Owns dist n) G tid s.dFirst) : Knows (Owns dist n) F tid s.dFirst := by
  refine h.congr fun k hk => ?_
  rcases owns_or_beyond hn hk with hown | hge
  · exact absurd (active_of_owns hown) hact
  · exact (hG k hge).symm

/-- The product of the block of thread `tid`. -/
def blockTotal (op : α → α → α) (first : ℕ → α) (dist n tid : ℕ) : α :=
  span op (fun i => first (st dist n tid + i)) (ed dist n tid - st dist n tid - 1)

/-- The total of the blocks below thread `tid`, the nearest one first. -/
def earlier (op : α → α → α) (first : ℕ → α) (dist n tid : ℕ) : α :=
  total op (blockTotal op first dist n) (fun t i => t - i) (fun t => t) (tid-1)

/-- What the blocks hold before the earlier totals are applied to them, and after. -/
def applied (op : α → α → α) (first : ℕ → α) (dist n : ℕ) (F : ℕ → α) (k : ℕ) : α :=
  if k < dist ∧ k / nwork dist n ≠ 0 then op (F k) (earlier op first dist n (k / nwork dist n)) else F k

section Local
theorem keeps_block {r : ℕ → α} {i : ℕ} {x : α} (hr : ∀ u, u ≠ tid → r u = s.res u) (hi : Owns dist n tid i) :
    Keeps (Owns dist n) tid s { s with res := r, dFirst := Function.update s.dFirst i x } where
  dFirst k hk := Function.update_of_ne (by rintro rfl; exact hk hi) _ _
  localRes _ _ := rfl
  res := hr
  tmp _ _ := rfl

/-- The local scan of one block: the running total is `res`, and position `i` of the
output gets `w i` of the running total before position `i`. -/
theorem local_outline (op : α → α → α) (first F G : ℕ → α) (hn : 0 < n) (w : ℕ → α → α) (hact : Active dist n tid)
    (hFG : ∀ k, dist ≤ k → F k = G k)
    (hF : ∀ i, st dist n tid < i → i < ed dist n tid →
      F i = w i (span op (fun j => first (st dist n tid + j)) (i - 1 - st dist n tid))) :
    Outline (rely n (Keeps (Owns dist n)) tid) (Keeps (Owns dist n) tid)
      (fun s => Knows (Owns dist n) G tid s.dFirst)
      ((fun s => { s with
        res := Function.update s.res tid (first (st dist n tid))
        dFirst := Function.update s.dFirst (st dist n tid) (F (st dist n tid)) }) ::
      (List.range' (st dist n tid + 1) (ed dist n tid - (st dist n tid + 1))).map (fun offset s =>
        { s with
          res := Function.update s.res tid (op (s.res tid) (first offset))
          dFirst := Function.update s.dFirst offset (w offset (s.res tid)) }) ++
      [publish tid])
      (fun s => (s.localRes tid = blockTotal op first dist n tid ∧ s.res tid = blockTotal op first dist n tid) ∧
        Knows (Owns dist n) F tid s.dFirst) := by
  have hlt : st dist n tid < ed dist n tid := hact
  let I (i : ℕ) (s : ScanState α) : Prop :=
    s.res tid = span op (fun j => first (st dist n tid + j)) (i - 1 - st dist n tid) ∧
      Knows (Owns dist n) (upTo i F G) tid s.dFirst
  have hI : ∀ i, Stable (rely n (Keeps (Owns dist n)) tid) (I i) := fun i =>
    stable_keeps fun _ res _ => res = span op (fun j => first (st dist n tid + j)) (i - 1 - st dist n tid)
  apply Outline.append
  · refine .cons (hI (st dist n tid + 1)) ?_ (Outline.loop hI ?_)
    · intro s hG
      refine ⟨keeps_block (fun u hu => Function.update_of_ne hu _ _) ⟨le_rfl, hlt⟩, ?_, (knows_upTo_start hn hFG hG).write⟩
      simp [span]
    · rintro i s hi hi' ⟨hres, hk⟩
      have hie : i < ed dist n tid := by omega
      refine ⟨keeps_block (fun u hu => Function.update_of_ne hu _ _) ⟨by omega, hie⟩, ?_, ?_⟩
      · show Function.update s.res tid _ tid = _
        rw [Function.update_self, hres, show i + 1 - 1 - st dist n tid = i - 1 - st dist n tid + 1 by omega]
        show _ = op _ (first (st dist n tid + (i - 1 - st dist n tid + 1)))
        rw [show st dist n tid + (i - 1 - st dist n tid + 1) = i by omega]
      · show Knows _ _ _ (Function.update s.dFirst i (w i (s.res tid)))
        rw [hres, ← hF i hi hie]
        exact hk.write
  · rw [show st dist n tid + 1 + (ed dist n tid - (st dist n tid + 1)) = ed dist n tid by omega]
    apply Outline.single
    · exact stable_keeps fun localRes res _ =>
        localRes = blockTotal op first dist n tid ∧ res = blockTotal op first dist n tid
    · rintro s ⟨hres, hk⟩
      have hB : s.res tid = blockTotal op first dist n tid := by
        rw [hres, blockTotal, Nat.sub_right_comm]
      exact ⟨keeps_localRes _, ⟨(Function.update_self _ _ _).trans hB, hB⟩, knows_upTo_end hn hFG hk⟩

/-- A thread with work applies the total of the earlier blocks to its own. -/
theorem apply_outline (hn : 0 < n) (htn : tid < n) : Outline (rely n (Reads (Owns dist n)) tid) (Reads (Owns dist n) tid)
    (Ready n (Owns dist n) (Active dist n)
      (total op (blockTotal op first dist n) (fun t i => t - i) fun t => t) F tid)
    (applyEarlier op dist n tid) fun s => Knows (Owns dist n) (applied op first dist n F) tid s.dFirst := by
  have hbeyond : ∀ k, dist ≤ k → applied op first dist n F k = F k := fun k hk =>
    if_neg fun h => absurd h.1 (Nat.not_lt_of_le hk)
  by_cases h : tid ≠ 0 ∧ Active dist n tid
  · obtain ⟨h0, hact⟩ := h
    have hlt : st dist n tid < ed dist n tid := hact
    rw [applyEarlier, if_pos ⟨h0, hact⟩]
    let I (i : ℕ) (s : ScanState α) : Prop :=
      s.tmp tid = earlier op first dist n tid ∧ Knows (Owns dist n) (upTo i (applied op first dist n F) F) tid s.dFirst
    have hI : ∀ i, Stable (rely n (Reads (Owns dist n)) tid) (I i) := fun i =>
      stable_reads fun _ _ tmp => tmp = earlier op first dist n tid
    have hloop : Outline (rely n (Reads (Owns dist n)) tid) (Reads (Owns dist n) tid) (I (st dist n tid)) _ _ :=
      Outline.loop hI (m := ed dist n tid - st dist n tid) (f := fun offset s =>
        { s with dFirst := Function.update s.dFirst offset (op (s.dFirst offset) (s.tmp tid)) }) ?_
    · refine .cons (hI (st dist n tid)) ?_ (hloop.mono ?_)
      · rintro s ⟨⟨hl, -⟩, hk⟩
        refine ⟨keeps_tmp _, (Function.update_self _ _ _).trans ?_, knows_upTo_start hn hbeyond hk⟩
        exact hl (tid-1) (by omega) (hact.mono hn (Nat.sub_le _ _))
      · rintro s ⟨-, hk⟩
        rw [show st dist n tid + (ed dist n tid - st dist n tid) = ed dist n tid by omega] at hk
        exact knows_upTo_end hn hbeyond hk
    · rintro i s hi hi' ⟨htmp, hk⟩
      have hown : Owns dist n tid i := ⟨hi, by omega⟩
      refine ⟨⟨keeps_block (fun _ _ => rfl) hown, rfl⟩, htmp, ?_⟩
      have hi := (owns_iff hn).mp hown
      have hF : s.dFirst i = F i := (hk i fun u hu => not_owns_other hn hown hu).trans (if_neg (Nat.lt_irrefl i))
      have happ : applied op first dist n F i = op (F i) (earlier op first dist n tid) := by
        rw [applied, if_pos ⟨hi.1, hi.2 ▸ h0⟩, hi.2]
      show Knows _ _ _ (Function.update s.dFirst i (op (s.dFirst i) (s.tmp tid)))
      rw [htmp, hF, ← happ]
      exact hk.write
  · rw [applyEarlier, if_neg (show ¬ (tid ≠ 0 ∧ st dist n tid < ed dist n tid) from h)]
    refine .nil fun s hs => hs.2.congr fun k hk => ?_
    rcases owns_or_beyond hn hk with hown | hge
    · refine (if_neg fun hk' => h ⟨?_, active_of_owns hown⟩).symm
      exact ((owns_iff hn).mp hown).2 ▸ hk'.2
    · exact (hbeyond k hge).symm

end Local

/-- After the local scans: the block of an active thread is scanned and its total published. -/
def Scanned (op : α → α → α) (first : ℕ → α) (dist n : ℕ) (F : ℕ → α) (tid : ℕ) (s : ScanState α) : Prop :=
  (Active dist n tid → s.localRes tid = blockTotal op first dist n tid ∧ s.res tid = blockTotal op first dist n tid) ∧
    Knows (Owns dist n) F tid s.dFirst

/-- What the two scans have in common after their local part. -/
theorem scan_output (hn : 0 < n) (ha : ∀ a b c, op (op a b) c = op a (op b c)) {scan : Segment (ScanState α)}
    (hscan : ∀ t < n, Outline (rely n (Keeps (Owns dist n)) t) (Keeps (Owns dist n) t)
      (fun s' => Knows (Owns dist n) s.dFirst t s'.dFirst) (scan t) (Scanned op first dist n F t))
    (h : Passes n (scan :: rounds op (below dist n) (applyEarlier op dist n) n 1 setTmp) s s') :
    s'.dFirst = applied op first dist n F := by
  cases h with
  | cons hlocal h =>
    have hN : Neighbours n (below dist n) (Active dist n) (fun t i => t - i) fun t => t := below_neighbours
    have h₁ := hlocal.establishes _ _ (fun _ _ _ _ => rfl) (fun t _ s s' hs ⟨u, _, hu, hk⟩ => hs.keep hu hk) hscan
    refine output_of_knows hn (rounds_establish hN ha (blockTotal op first dist n)
      (fun t s => ((∀ u < n, Active dist n u → s.localRes u = blockTotal op first dist n u) ∧
        (Active dist n t → s.res t = blockTotal op first dist n t)) ∧ Knows (Owns dist n) F t s.dFirst)
      Nat.one_pos (fun t _ => ?_) (fun t _ => ?_) (fun t ht => apply_outline hn ht) h ?_)
    · exact stable_reads fun localRes res _ => (∀ u < n, Active dist n u → localRes u = blockTotal op first dist n u) ∧
        (Active dist n t → res = blockTotal op first dist n t)
    · refine Outline.single stable_ready ?_
      rintro s ⟨⟨hl, hres⟩, hk⟩
      refine ⟨keeps_tmp _, ⟨fun u hu hact => ?_, fun hact => ?_⟩, hk⟩
      · rw [gathered_one hN]
        exact hl u hu hact
      · rw [gathered_one hN]
        exact (Function.update_self _ _ _).trans (hres hact)
    · exact fun t ht => ⟨⟨fun u hu hact => ((h₁ u hu).1 hact).1, fun hact => ((h₁ t ht).1 hact).2⟩, (h₁ t ht).2⟩

/-- The local part of the inclusive scan at position `k`. -/
def inclusiveBlock (op : α → α → α) (first : ℕ → α) (dist n : ℕ) (dFirst : ℕ → α) (k : ℕ) : α :=
  if k < dist then span op (fun i => first (st dist n (k / nwork dist n) + i)) (k % nwork dist n) else dFirst k

theorem inclusive_output (hn : 0 < n) (ha : ∀ a b c, op (op a b) c = op a (op b c))
    (h : Passes n (inclusiveScan op first dist n) s s') :
    s'.dFirst = applied op first dist n (inclusiveBlock op first dist n s.dFirst) := by
  have hbeyond : ∀ k, dist ≤ k → inclusiveBlock op first dist n s.dFirst k = s.dFirst k := fun k hk =>
    if_neg (Nat.not_lt_of_le hk)
  have hblock : ∀ t k, Owns dist n t k → inclusiveBlock op first dist n s.dFirst k =
      span op (fun i => first (st dist n t + i)) (k - st dist n t) := by
    intro t k hk
    have ho := (owns_iff hn).mp hk
    rw [inclusiveBlock, if_pos ho.1, offset_of_owns hn hk, ho.2]
  refine scan_output hn ha (fun t _ => ?_) h
  by_cases hact : Active dist n t
  · have hlt : st dist n t < ed dist n t := hact
    have hl := local_outline op first (inclusiveBlock op first dist n s.dFirst) s.dFirst hn (fun i r => op r (first i)) hact hbeyond ?_
    · rw [inclusiveLocal, if_pos hlt]
      rw [hblock t _ ⟨le_rfl, hlt⟩, Nat.sub_self] at hl
      exact hl.mono fun s hs => ⟨fun _ => hs.1, hs.2⟩
    · intro i hi hi'
      rw [hblock t i ⟨hi.le, hi'⟩, show i - st dist n t = i - 1 - st dist n t + 1 by omega]
      show op _ (first (st dist n t + (i - 1 - st dist n t + 1))) = _
      rw [show st dist n t + (i - 1 - st dist n t + 1) = i by omega]
  · rw [inclusiveLocal, if_neg (show ¬ st dist n t < ed dist n t from hact)]
    exact .nil fun s hk => ⟨fun h => absurd h hact, knows_idle hn hact hbeyond hk⟩

/-- The local part of the exclusive scan: `init` stands at the start of every block and nowhere else. -/
def exclusiveBlock (op : α → α → α) (init : α) (first : ℕ → α) (dist n : ℕ) (dFirst : ℕ → α) (k : ℕ) : α :=
  if k < dist then
    if k % nwork dist n = 0 then init
    else span op (fun i => first (st dist n (k / nwork dist n) + i)) (k % nwork dist n - 1)
  else dFirst k

theorem exclusive_output (hn : 0 < n) (ha : ∀ a b c, op (op a b) c = op a (op b c))
    (h : Passes n (exclusiveScan op init first dist n) s s') :
    s'.dFirst = applied op first dist n (exclusiveBlock op init first dist n s.dFirst) := by
  have hbeyond : ∀ k, dist ≤ k → exclusiveBlock op init first dist n s.dFirst k = s.dFirst k := fun k hk =>
    if_neg (Nat.not_lt_of_le hk)
  have hblock : ∀ t k, Owns dist n t k → exclusiveBlock op init first dist n s.dFirst k = if k - st dist n t = 0 then init
      else span op (fun i => first (st dist n t + i)) (k - st dist n t - 1) := by
    intro t k hk
    have ho := (owns_iff hn).mp hk
    rw [exclusiveBlock, if_pos ho.1, offset_of_owns hn hk, ho.2]
  refine scan_output hn ha (fun t _ => ?_) h
  by_cases hact : Active dist n t
  · have hlt : st dist n t < ed dist n t := hact
    have hl := local_outline op first (exclusiveBlock op init first dist n s.dFirst) s.dFirst hn (fun _ r => r) hact hbeyond ?_
    · rw [exclusiveLocal, if_pos hlt]
      rw [hblock t _ ⟨le_rfl, hlt⟩, if_pos (Nat.sub_self _)] at hl
      exact hl.mono fun s hs => ⟨fun _ => hs.1, hs.2⟩
    · intro i hi hi'
      rw [hblock t i ⟨hi.le, hi'⟩, if_neg (by omega), Nat.sub_right_comm]
  · rw [exclusiveLocal, if_neg (show ¬ st dist n t < ed dist n t from hact)]
    exact .nil fun s hk => ⟨fun h => absurd h hact, knows_idle hn hact hbeyond hk⟩

/-- What thread `tid` brings into the reduction: its block after another `init`. -/
def reduceBlock (op : α → α → α) (init : α) (first : ℕ → α) (dist n tid : ℕ) : α :=
  SequentialExecutionPolicy.reduceLoop op first (ed dist n tid - st dist n tid) (st dist n tid) init

theorem reduceLoop_succ (m i : ℕ) (init : α) : SequentialExecutionPolicy.reduceLoop op first (m+1) i init =
    op (SequentialExecutionPolicy.reduceLoop op first m i init) (first (i+m)) := by
  induction m generalizing i init with
  | zero => rfl
  | succ m ih =>
    show SequentialExecutionPolicy.reduceLoop op first (m+1) (i+1) (op init (first i)) = _
    rw [ih, show i + 1 + m = i + (m+1) by omega]
    rfl

/-- Only thread 0 stores the result. -/
def Stores (tid k : ℕ) : Prop := tid = 0 ∧ k = 0

theorem reduceLocal_outline : Outline (rely n (Keeps Stores) tid) (Keeps Stores tid)
    (fun s => Knows Stores F tid s.dFirst) (reduceLocal op init first dist n tid)
    fun s => (s.localRes tid = reduceBlock op init first dist n tid ∧ s.res tid = reduceBlock op init first dist n tid) ∧
      Knows Stores F tid s.dFirst := by
  let I (i : ℕ) (s : ScanState α) : Prop :=
    s.res tid = SequentialExecutionPolicy.reduceLoop op first (i - st dist n tid) (st dist n tid) init ∧
      Knows Stores F tid s.dFirst
  have hI : ∀ i, Stable (rely n (Keeps Stores) tid) (I i) := fun i => stable_keeps fun _ res _ => res = _
  have hres : ∀ (s : ScanState α) x, Keeps Stores tid s { s with res := Function.update s.res tid x } := fun s x =>
    ⟨fun _ _ => rfl, fun _ _ => rfl, fun _ hu => Function.update_of_ne hu _ _, fun _ _ => rfl⟩
  apply Outline.append
  · refine .cons (hI (st dist n tid)) ?_ (Outline.loop hI ?_)
    · intro s hk
      refine ⟨hres s _, (Function.update_self _ _ _).trans ?_, hk⟩
      rw [Nat.sub_self]
      rfl
    · rintro i s hi hi' ⟨hr, hk⟩
      refine ⟨hres s _, (Function.update_self _ _ _).trans ?_, hk⟩
      rw [show i + 1 - st dist n tid = i - st dist n tid + 1 by omega, reduceLoop_succ, hr,
        show st dist n tid + (i - st dist n tid) = i by omega]
  · apply Outline.single
    · exact stable_keeps fun localRes res _ =>
        localRes = reduceBlock op init first dist n tid ∧ res = reduceBlock op init first dist n tid
    · rintro s ⟨hr, hk⟩
      rw [show st dist n tid + (ed dist n tid - st dist n tid) - st dist n tid = ed dist n tid - st dist n tid by omega]
        at hr
      exact ⟨keeps_localRes _, ⟨(Function.update_self _ _ _).trans hr, hr⟩, hk⟩

theorem reduce_output (hn : 0 < n) (ha : ∀ a b c, op (op a b) c = op a (op b c))
    (h : Passes n (reduce op init first dist n) s s') :
    s'.dFirst = Function.update s.dFirst 0 (span op (reduceBlock op init first dist n) (n-1)) := by
  cases h with
  | cons hlocal h =>
    have hN : Neighbours n (above n) (fun _ => True) (fun t i => t + i) fun t => n - 1 - t := above_neighbours
    have h₁ := hlocal.establishes (Keeps Stores) (fun t s' => Knows Stores s.dFirst t s'.dFirst)
      (fun _ _ _ _ => rfl) (fun t _ s s' hs ⟨u, _, hu, hk⟩ => hs.keep hu hk) fun t _ => reduceLocal_outline
    have hfin : ∀ t < n, Outline (rely n (Reads Stores) t) (Reads Stores t)
        (Ready n Stores (fun _ => True)
          (total op (reduceBlock op init first dist n) (fun t i => t + i) fun t => n - 1 - t) s.dFirst t)
        (storeResult t)
        fun s' => Knows Stores (Function.update s.dFirst 0 (span op (reduceBlock op init first dist n) (n-1))) t s'.dFirst := by
      intro t ht
      rcases eq_or_ne t 0 with rfl | h0
      · refine Outline.single (fun s s' hs ⟨u, _, hu, hk⟩ => hs.keep hu hk.toKeeps) ?_
        rintro s' ⟨⟨-, htmp⟩, hk⟩
        refine ⟨⟨⟨fun k hs => ?_, fun _ _ => rfl, fun _ _ => rfl, fun _ _ => rfl⟩, rfl⟩, fun k hs => ?_⟩
        · exact Function.update_of_ne (by rintro rfl; exact hs ⟨rfl, rfl⟩) _ _
        · have hspan : s'.tmp 0 = span op (reduceBlock op init first dist n) (n-1) :=
            (htmp trivial).trans (span_congr fun i _ => congrArg _ (Nat.zero_add i))
          show Function.update s'.dFirst 0 (s'.tmp 0) k = _
          rw [hspan]
          rcases eq_or_ne k 0 with rfl | hk0
          · rw [Function.update_self, Function.update_self]
          · rw [Function.update_of_ne hk0, Function.update_of_ne hk0]
            exact hk k fun u _ hs => hk0 hs.2
      · rw [storeResult, if_neg h0]
        refine .nil fun s hs => hs.2.congr fun k hk => (Function.update_of_ne ?_ _ _).symm
        rintro rfl
        exact hk 0 h0.symm ⟨rfl, rfl⟩
    have h₂ := rounds_establish hN ha (reduceBlock op init first dist n)
      (fun t s' => ((∀ u < n, True → s'.localRes u = reduceBlock op init first dist n u) ∧
        (True → s'.res t = reduceBlock op init first dist n t)) ∧ Knows Stores s.dFirst t s'.dFirst)
      Nat.one_pos (fun t _ => ?_) (fun t _ => ?_) hfin h ?_
    · funext k
      refine h₂ 0 hn k fun u hu hs => hu hs.1
    · exact stable_reads fun localRes res _ => (∀ u < n, True → localRes u = reduceBlock op init first dist n u) ∧
        (True → res = reduceBlock op init first dist n t)
    · refine Outline.single stable_ready ?_
      rintro s ⟨⟨hl, hres⟩, hk⟩
      refine ⟨keeps_tmp _, ⟨fun u hu hact => ?_, fun hact => ?_⟩, hk⟩
      · rw [gathered_one hN]
        exact hl u hu hact
      · rw [gathered_one hN]
        exact (Function.update_self _ _ _).trans (hres hact)
    · exact fun t ht => ⟨⟨fun u hu _ => (h₁ u hu).1.1, fun _ => (h₁ t ht).1.2⟩, (h₁ t ht).2⟩

end Zpc.OmpExecutionPolicy
