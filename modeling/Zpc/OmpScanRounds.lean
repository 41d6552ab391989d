import Zpc.OmpScan

/-!
# The doubling rounds of the OpenMP scans

Whatever the interleaving between the barriers, the rounds leave at each thread the span
of the values of the threads within its reach, and they leave the output alone.
-/
namespace Zpc.OmpExecutionPolicy
open ThreadTeam DoublingScan

variable {α : Type*} {op : α → α → α} {n tid stride : ℕ} {own : ℕ → ℕ → Prop} {F G : ℕ → α} {s s' : ScanState α}

/-- Thread `tid` writes its own entries of `localRes`, `res` and `tmp` and the output positions it owns. -/
structure Keeps (own : ℕ → ℕ → Prop) (tid : ℕ) (s s' : ScanState α) : Prop where
  dFirst : ∀ k, ¬ own tid k → s'.dFirst k = s.dFirst k
  localRes : ∀ u, u ≠ tid → s'.localRes u = s.localRes u
  res : ∀ u, u ≠ tid → s'.res u = s.res u
  tmp : ∀ u, u ≠ tid → s'.tmp u = s.tmp u

/-- The same while `localRes` is being read. -/
structure Reads (own : ℕ → ℕ → Prop) (tid : ℕ) (s s' : ScanState α) : Prop extends Keeps own tid s s' where
  fixed : s'.localRes = s.localRes

/-- Thread `tid` knows the output to be `F` at every position that no other thread owns. -/
def Knows (own : ℕ → ℕ → Prop) (F : ℕ → α) (tid : ℕ) (dFirst : ℕ → α) : Prop :=
  ∀ k, (∀ u, u ≠ tid → ¬ own u k) → dFirst k = F k

theorem Knows.congr {f : ℕ → α} (h : Knows own F tid f) (he : ∀ k, (∀ u, u ≠ tid → ¬ own u k) → F k = G k) :
    Knows own G tid f := fun k hk => (h k hk).trans (he k hk)

theorem Knows.keep {u : ℕ} (h : Knows own F tid s.dFirst) (hu : u ≠ tid) (hk : Keeps own u s s') :
    Knows own F tid s'.dFirst :=
  fun k hown => (hk.dFirst k (hown u hu)).trans (h k hown)

/-- `F` before position `i` and `G` from there on. -/
def upTo (i : ℕ) (F G : ℕ → α) (k : ℕ) : α := if k < i then F k else G k

theorem Knows.write {f : ℕ → α} {i : ℕ} (h : Knows own (upTo i F G) tid f) :
    Knows own (upTo (i+1) F G) tid (Function.update f i (F i)) := by
  intro k hk
  rcases eq_or_ne k i with rfl | hne
  · rw [Function.update_self, upTo, if_pos k.lt_succ_self]
  · rw [Function.update_of_ne hne, h k hk, upTo, upTo]
    exact if_congr (by omega) rfl rfl

theorem stable_keeps (A : α → α → α → Prop) : Stable (rely n (Keeps own) tid)
    fun s => A (s.localRes tid) (s.res tid) (s.tmp tid) ∧ Knows own F tid s.dFirst := by
  rintro s s' ⟨hA, hF⟩ ⟨u, -, hu, hk⟩
  refine ⟨?_, hF.keep hu hk⟩
  rwa [hk.localRes tid hu.symm, hk.res tid hu.symm, hk.tmp tid hu.symm]

theorem stable_reads (A : (ℕ → α) → α → α → Prop) : Stable (rely n (Reads own) tid)
    fun s => A s.localRes (s.res tid) (s.tmp tid) ∧ Knows own F tid s.dFirst := by
  rintro s s' ⟨hA, hF⟩ ⟨u, -, hu, hk⟩
  refine ⟨?_, hF.keep hu hk.toKeeps⟩
  rwa [hk.fixed, hk.res tid hu.symm, hk.tmp tid hu.symm]

/-- Which threads a round combines: `near t i` is the `i`-th thread from `t` on, up to `reach t`. -/
structure Neighbours (n : ℕ) (partner : ℕ → ℕ → Option ℕ) (active : ℕ → Prop) (near : ℕ → ℕ → ℕ) (reach : ℕ → ℕ) :
    Prop where
  combines : ∀ t stride, t < n → active t → stride ≤ reach t → partner stride t = some (near t stride)
  rests : ∀ t stride, t < n → ¬ (active t ∧ stride ≤ reach t) → partner stride t = none
  inside : ∀ t i, t < n → active t → i ≤ reach t → near t i < n ∧ active (near t i)
  onward : ∀ t i j, i + j ≤ reach t → near (near t i) j = near t (i+j)
  shorter : ∀ t i, i ≤ reach t → reach (near t i) = reach t - i
  zero : ∀ t, near t 0 = t
  bound : ∀ t < n, reach t < n

/-- What thread `t` has gathered before the round of the given stride. -/
def gathered (op : α → α → α) (v : ℕ → α) (near : ℕ → ℕ → ℕ) (reach : ℕ → ℕ) (stride t : ℕ) : α :=
  span op (fun i => v (near t i)) (min (reach t) (stride-1))

/-- What it has gathered in the end. -/
def total (op : α → α → α) (v : ℕ → α) (near : ℕ → ℕ → ℕ) (reach : ℕ → ℕ) (t : ℕ) : α :=
  span op (fun i => v (near t i)) (reach t)

section Rounds
variable {partner : ℕ → ℕ → Option ℕ} {active : ℕ → Prop} {near : ℕ → ℕ → ℕ} {reach : ℕ → ℕ} {v : ℕ → α}

theorem gathered_one (hN : Neighbours n partner active near reach) (t : ℕ) : gathered op v near reach 1 t = v t := by
  simp only [gathered, Nat.sub_self, Nat.min_zero, span, hN.zero]

theorem gathered_of_reach {t : ℕ} (h : reach t < stride) : gathered op v near reach stride t = total op v near reach t := by
  rw [gathered, total, Nat.min_eq_left (Nat.le_sub_one_of_lt h)]

theorem gathered_double (hN : Neighbours n partner active near reach) (ha : ∀ a b c, op (op a b) c = op a (op b c))
    (hs : 0 < stride) {t : ℕ} (hr : stride ≤ reach t) :
    op (gathered op v near reach stride t) (gathered op v near reach stride (near t stride)) =
      gathered op v near reach (stride*2) t := by
  have hw : gathered op v near reach stride (near t stride) =
      span op (fun i => v (near t (stride+i))) (min (reach t - stride) (stride-1)) := by
    rw [gathered, hN.shorter t stride hr]
    exact span_congr fun i hi => congrArg v (hN.onward t stride i (by omega))
  rw [hw, gathered, Nat.min_eq_right (show stride - 1 ≤ reach t by omega)]
  exact span_double ha hs hr

/-- Every thread holds `g` of its own in `localRes` and `tmp`. -/
def Ready (n : ℕ) (own : ℕ → ℕ → Prop) (active : ℕ → Prop) (g : ℕ → α) (F : ℕ → α) (tid : ℕ) (s : ScanState α) : Prop :=
  ((∀ u < n, active u → s.localRes u = g u) ∧ (active tid → s.tmp tid = g tid)) ∧ Knows own F tid s.dFirst

theorem stable_ready {g : ℕ → α} : Stable (rely n (Reads own) tid) (Ready n own active g F tid) :=
  stable_reads fun localRes _ tmp => (∀ u < n, active u → localRes u = g u) ∧ (active tid → tmp = g tid)

/-- Between the halves of a round: `tmp` is ahead of `localRes`. -/
def Combined (own : ℕ → ℕ → Prop) (active : ℕ → Prop) (g g' : ℕ → α) (F : ℕ → α) (tid : ℕ) (s : ScanState α) : Prop :=
  (active tid → s.localRes tid = g tid ∧ s.tmp tid = g' tid) ∧ Knows own F tid s.dFirst

theorem stable_combined {g g' : ℕ → α} : Stable (rely n (Keeps own) tid) (Combined own active g g' F tid) :=
  stable_keeps fun localRes _ tmp => active tid → localRes = g tid ∧ tmp = g' tid

theorem keeps_tmp (v : α) : Reads own tid s { s with tmp := Function.update s.tmp tid v } where
  dFirst _ _ := rfl
  localRes _ _ := rfl
  res _ _ := rfl
  tmp _ hu := Function.update_of_ne hu _ _
  fixed := rfl

theorem keeps_localRes (v : α) : Keeps own tid s { s with localRes := Function.update s.localRes tid v } where
  dFirst _ _ := rfl
  localRes _ hu := Function.update_of_ne hu _ _
  res _ _ := rfl
  tmp _ _ := rfl

theorem readRound_outline (hN : Neighbours n partner active near reach)
    (ha : ∀ a b c, op (op a b) c = op a (op b c)) (hs : 0 < stride) (ht : tid < n) :
    Outline (rely n (Reads own) tid) (Reads own tid)
      (Ready n own active (gathered op v near reach stride) F tid) (readRound op partner stride tid)
      fun s => (((∀ u < n, active u → s.localRes u = gathered op v near reach stride u) ∧
        (active tid → s.tmp tid = gathered op v near reach (stride*2) tid)) ∧ Knows own F tid s.dFirst) := by
  by_cases h : active tid ∧ stride ≤ reach tid
  · obtain ⟨hact, hr⟩ := h
    simp only [readRound, hN.combines tid stride ht hact hr]
    apply Outline.single
    · exact stable_reads fun localRes _ tmp => (∀ u < n, active u → localRes u = gathered op v near reach stride u) ∧
        (active tid → tmp = gathered op v near reach (stride*2) tid)
    · rintro s ⟨⟨hl, htmp⟩, hF⟩
      obtain ⟨hlt, hact'⟩ := hN.inside tid stride ht hact hr
      refine ⟨keeps_tmp _, ⟨hl, fun _ => ?_⟩, hF⟩
      refine (Function.update_self _ _ _).trans ?_
      rw [htmp hact, hl _ hlt hact', gathered_double hN ha hs hr]
  · simp only [readRound, hN.rests tid stride ht h]
    refine .nil ?_
    rintro s ⟨⟨hl, htmp⟩, hF⟩
    refine ⟨⟨hl, fun hact => ?_⟩, hF⟩
    have hr : reach tid < stride := Nat.lt_of_not_le fun hr => h ⟨hact, hr⟩
    rw [htmp hact, gathered_of_reach hr, gathered_of_reach (by omega)]

theorem writeRound_outline (hN : Neighbours n partner active near reach) (ht : tid < n) :
    Outline (rely n (Keeps own) tid) (Keeps own tid)
      (Combined own active (gathered op v near reach stride) (gathered op v near reach (stride*2)) F tid)
      (writeRound partner stride tid)
      (Combined own active (gathered op v near reach (stride*2)) (gathered op v near reach (stride*2)) F tid) := by
  by_cases h : active tid ∧ stride ≤ reach tid
  · obtain ⟨hact, hr⟩ := h
    simp only [writeRound, hN.combines tid stride ht hact hr]
    apply Outline.single stable_combined
    rintro s ⟨hc, hF⟩
    exact ⟨keeps_localRes _, fun _ => ⟨(Function.update_self _ _ _).trans (hc hact).2, (hc hact).2⟩, hF⟩
  · simp only [writeRound, hN.rests tid stride ht h]
    refine .nil ?_
    rintro s ⟨hc, hF⟩
    refine ⟨fun hact => ⟨?_, (hc hact).2⟩, hF⟩
    have hr : reach tid < stride := Nat.lt_of_not_le fun hr => h ⟨hact, hr⟩
    rw [(hc hact).1, gathered_of_reach hr, gathered_of_reach (by omega)]

/-- The rounds from a stride on: from what the threads hold then to the totals. -/
theorem rounds_establish (hN : Neighbours n partner active near reach)
    (ha : ∀ a b c, op (op a b) c = op a (op b c)) (v : ℕ → α) {finish pending : Segment (ScanState α)}
    (pre : ℕ → ScanState α → Prop) {post : ℕ → ScanState α → Prop} (hs : 0 < stride)
    (hst : ∀ t < n, Stable (rely n (Reads own) t) (pre t))
    (hpend : ∀ t < n, Outline (rely n (Reads own) t) (Reads own t) (pre t) (pending t)
      (Ready n own active (gathered op v near reach stride) F t))
    (hfin : ∀ t < n, Outline (rely n (Reads own) t) (Reads own t)
      (Ready n own active (total op v near reach) F t) (finish t) (post t))
    (h : Passes n (rounds op partner finish n stride pending) s s') (hpre : ∀ t < n, pre t s) :
    ∀ t < n, post t s' := by
  induction hm : n - stride using Nat.strong_induction_on generalizing stride pending pre s with
  | _ m ih =>
    rw [rounds] at h
    split at h
    next hlt =>
      obtain ⟨-, hlt⟩ := hlt
      cases h with
      | cons hread h =>
        cases h with
        | cons hwrite hrest =>
          have h₁ := hread.establishes _ pre hpre hst fun t ht => (hpend t ht).append (readRound_outline hN ha hs ht)
          have h₂ := hwrite.establishes _
            (Combined own active (gathered op v near reach stride) (gathered op v near reach (stride*2)) F)
            (fun t ht => ⟨fun hact => ⟨(h₁ t ht).1.1 t ht hact, (h₁ t ht).1.2 hact⟩, (h₁ t ht).2⟩)
            (fun t _ => stable_combined) fun t ht => writeRound_outline hN ht
          refine ih (n - stride*2) (by omega) _ (by omega) (fun t _ => stable_ready) (fun t _ => .nil fun _ h => h)
            hrest ?_ rfl
          exact fun t ht => ⟨⟨fun u hu hact => ((h₂ u hu).1 hact).1, fun hact => ((h₂ t ht).1 hact).2⟩, (h₂ t ht).2⟩
    next hge =>
      cases h with
      | cons hlast hnil =>
        cases hnil
        refine hlast.establishes _ pre hpre hst fun t ht => (hpend t ht).append ((hfin t ht).weaken ?_)
        rintro s ⟨⟨hl, htmp⟩, hF⟩
        have hg : ∀ u < n, gathered op v near reach stride u = total op v near reach u := by
          intro u hu
          have := hN.bound u hu
          exact gathered_of_reach (by omega)
        exact ⟨⟨fun u hu hact => (hl u hu hact).trans (hg u hu), fun hact => (htmp hact).trans (hg t ht)⟩, hF⟩

end Rounds

end Zpc.OmpExecutionPolicy
