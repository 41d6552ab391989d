import Zpc.SharedPtrRelease

/-!
# Runs over object graphs

From one operation to the next no release is under way, and then the invariant says when
an object is destroyed and a block deleted. An operation on an acyclic graph is carried
out unless it is a move assignment out of an object that its own release destroys.
-/
namespace Zpc.SharedPtr
variable {σ σ' : State} {l : Loc} {b : ℕ}

def Quiet (σ : State) : Prop := Inv ∅ ∅ ∅ [] σ

theorem Inv.quiet {held : Set ℕ} {stays emptied : Set Loc} (h : Inv held stays emptied [] σ) : Quiet σ :=
  ⟨h.counted, {h.shaped with
    mention := fun _ hm => absurd hm List.not_mem_nil
    holder := fun _ hm => absurd hm (Set.notMem_empty _)
    stays := fun _ hm => absurd hm (Set.notMem_empty _)
    emptied := fun _ hm => absurd hm (Set.notMem_empty _)}⟩

theorem Quiet.given (h : Quiet σ) (hl : l ∈ σ.dom) : (σ.value l).given = false := by
  by_contra hg
  exact absurd (h.shaped.given l hl (by simpa using hg)) List.not_mem_nil

theorem Quiet.share (h : Quiet σ) (hl : l ∈ σ.dom) : σ.share l = (σ.value l).control := by
  unfold State.share Ptr.share
  rw [h.given hl]
  rfl

theorem Quiet.strong (h : Quiet σ) (b : ℕ) : σ.strong b = σ.total .strong b := h.counted.strong b

theorem Quiet.weak (h : Quiet σ) (b : ℕ) : σ.weak b = σ.total .weak b + if σ.strong b = 0 then 0 else 1 :=
  h.counted.weak b

theorem Quiet.alive (h : Quiet σ) (hl : l ∈ σ.dom) {o i : ℕ} (hp : l.place = .member o i) :
    o < σ.next ∧ o ∉ σ.destroyed := by
  obtain ⟨ho, -, hd⟩ := h.shaped.home l hl o i hp
  exact ⟨ho, fun hdes => absurd (hd hdes) List.not_mem_nil⟩

theorem Quiet.exists_owner (h : Quiet σ) {o : ℕ} (ho : o < σ.next) (hd : o ∉ σ.destroyed) :
    ∃ l ∈ σ.dom, l.kind = .strong ∧ (σ.value l).control = some o := by
  have hpos : 0 < σ.total .strong o := by
    rw [← h.strong]
    exact Nat.pos_of_ne_zero fun hz => hd ((h.counted.destroyed o).mpr ⟨ho, hz⟩)
  obtain ⟨l, hl, hk, hs⟩ := exists_of_total_pos hpos
  exact ⟨l, hl, hk, (h.share hl).symm.trans hs⟩

/-- The block that a variable refers to is there. -/
theorem Quiet.exists_block (h : Quiet σ) (hl : l ∈ σ.dom) (hc : (σ.value l).control = some b) :
    ∃ blk, σ.blocks b = some blk ∧ (l.kind = .strong → blk.strong ≠ 0) := by
  have hshare := (h.share hl).trans hc
  cases hk : l.kind with
  | strong =>
    have hpos := total_pos hl hk hshare
    have hweak := h.weak b
    rw [h.strong, if_neg (by omega)] at hweak
    have hblk : 0 < σ.weak b := by omega
    obtain ⟨blk, hb, -⟩ := SharedPtr.exists_block hblk
    refine ⟨blk, hb, fun _ => ?_⟩
    rw [← strong_of_block hb, h.strong]
    omega
  | weak =>
    have hpos := total_pos hl hk hshare
    have hweak := h.weak b
    have hblk : 0 < σ.weak b := by omega
    obtain ⟨blk, hb, -⟩ := SharedPtr.exists_block hblk
    exact ⟨blk, hb, nofun⟩

/-- Between operations there is no more to say of the variables. -/
theorem shaped_nil (hp : ∀ l ∈ σ.dom, (σ.value l).ptr = (σ.value l).control)
    (hm : ∀ o < σ.next, o ∉ σ.destroyed → ∀ l ∈ σ.memberLocs o, l ∈ σ.dom)
    (hh : ∀ l ∈ σ.dom, ∀ o i, l.place = .member o i → o < σ.next ∧ l ∈ σ.memberLocs o ∧ o ∉ σ.destroyed)
    (hg : ∀ l ∈ σ.dom, (σ.value l).given = false) : Shaped ∅ ∅ ∅ [] σ where
  pointer := hp
  member := hm
  home l hl o i hpl := by
    obtain ⟨ho, hmem, hd⟩ := hh l hl o i hpl
    exact ⟨ho, hmem, fun hdes => absurd hdes hd⟩
  mention _ hin := absurd hin List.not_mem_nil
  dropped _ hin := absurd hin List.not_mem_nil
  apart := List.Pairwise.nil
  given l hl hgiven := by
    rw [hg l hl] at hgiven
    cases hgiven
  release _ hin := absurd hin List.not_mem_nil
  clear _ hin := absurd hin List.not_mem_nil
  drop _ hin := absurd hin List.not_mem_nil
  holder _ hin := absurd hin (Set.notMem_empty _)
  stays _ hin := absurd hin (Set.notMem_empty _)
  emptied _ hin := absurd hin (Set.notMem_empty _)

theorem Quiet.home (h : Quiet σ) (hl : l ∈ σ.dom) {o i : ℕ} (hp : l.place = .member o i) :
    o < σ.next ∧ l ∈ σ.memberLocs o ∧ o ∉ σ.destroyed := by
  obtain ⟨ho, hmem, -⟩ := h.shaped.home l hl o i hp
  exact ⟨ho, hmem, (h.alive hl hp).2⟩

theorem quiet_init : Quiet State.init := by
  constructor
  · constructor
    · intro b
      rfl
    · intro b
      rfl
    · intro b blk hb
      cases hb
    · intro b
      simp [State.init]
    · intro b
      simp [State.init]
    · exact List.nodup_nil
    · exact List.nodup_nil
    · intro b hb
      cases hb
  · apply shaped_nil
    · intro l hl
      exact absurd hl (Finset.notMem_empty l)
    · intro o ho
      exact absurd ho (Nat.not_lt_zero o)
    · intro l hl
      exact absurd hl (Finset.notMem_empty l)
    · intro l hl
      exact absurd hl (Finset.notMem_empty l)

/-! ## New variables, and values changing places -/

theorem not_member_of_isVar (hl : l.place.isVar) (o i : ℕ) : l.place ≠ .member o i := by
  intro hp
  rw [hp] at hl
  cases hl

/-- A new variable for a value. -/
theorem Quiet.shaped_declare (h : Quiet σ) (hl : l.place.isVar) {p : Ptr} (hp : p.ptr = p.control)
    (hg : p.given = false) : Shaped ∅ ∅ ∅ [] (σ.declare l p) := by
  have hvalue : ∀ l', (σ.declare l p).value l' = if l' = l then p else σ.value l' := by
    intro l'
    unfold State.declare
    dsimp only
    split
    · next he => rw [he, Function.update_self]
    · next he => rw [Function.update_of_ne he]
  have hdom : ∀ {l'}, l' ∈ (σ.declare l p).dom → l' ≠ l → l' ∈ σ.dom := by
    intro l' hm hne
    exact (Finset.mem_insert.mp hm).resolve_left hne
  apply shaped_nil
  · intro l' hm
    rw [hvalue]
    split
    · exact hp
    · next hne => exact h.shaped.pointer l' (hdom hm hne)
  · intro o ho hd l' hm
    exact Finset.mem_insert_of_mem (h.shaped.member o ho hd l' hm)
  · intro l' hm o i hpl
    apply h.home (hdom hm _) hpl
    rintro rfl
    exact not_member_of_isVar hl o i hpl
  · intro l' hm
    rw [hvalue]
    split
    · exact hg
    · next hne => exact h.given (hdom hm hne)

theorem Quiet.construct (h : Quiet σ) (hl : l.place.isVar) (hn : l ∉ σ.dom) : Quiet (σ.declare l {}) := by
  refine ⟨h.counted.congr (fun _ _ => rfl) ?_ rfl rfl rfl rfl, h.shaped_declare hl rfl rfl⟩
  intro k b
  rw [total_declare hn]
  simp [Ptr.share]

def Kind.acquired (k : Kind) (blk : SharedControlBlock) : SharedControlBlock := match k with
  | strong => {blk with strong := blk.strong + 1}
  | weak => {blk with weak := blk.weak + 1}

/-- A new owner of an object that has one, or a new observer. -/
theorem Quiet.acquire (h : Quiet σ) (hl : l.place.isVar) (hn : l ∉ σ.dom) {blk : SharedControlBlock}
    (hb : σ.blocks b = some blk) (hs : l.kind = .strong → blk.strong ≠ 0) :
    Quiet ((σ.setBlock b (l.kind.acquired blk)).declare l {ptr := some b, control := some b}) := by
  obtain ⟨σ', hσ'⟩ : ∃ σ', σ' = (σ.setBlock b (l.kind.acquired blk)).declare l {ptr := some b, control := some b} := ⟨_, rfl⟩
  rw [← hσ']
  have hshaped : Shaped ∅ ∅ ∅ [] σ' := by
    rw [hσ']
    have hd := h.shaped_declare (l := l) (p := {ptr := some b, control := some b}) hl rfl rfl
    exact ⟨hd.pointer, hd.member, hd.home, hd.mention, hd.dropped, hd.apart, hd.given, hd.release, hd.clear, hd.drop,
      hd.holder, hd.stays, hd.emptied⟩
  have htotal : ∀ k b', σ'.total k b' = σ.total k b' + if l.kind = k ∧ some b = some b' then 1 else 0 := by
    intro k b'
    rw [hσ']
    exact total_declare (show l ∉ (σ.setBlock b (l.kind.acquired blk)).dom from hn) _
  have hstrong : ∀ b', σ'.strong b' = if b' = b then (l.kind.acquired blk).strong else σ.strong b' := fun b' =>
    hσ' ▸ strong_setBlock _ b'
  have hweak : ∀ b', σ'.weak b' = if b' = b then (l.kind.acquired blk).weak else σ.weak b' := fun b' =>
    hσ' ▸ weak_setBlock _ b'
  have hstrong' : ∀ b', σ'.strong b' = σ.strong b' + if l.kind = .strong ∧ b = b' then 1 else 0 := by
    intro b'
    rw [hstrong]
    by_cases he : b' = b
    · subst he
      rw [if_pos rfl, strong_of_block hb]
      cases l.kind with
      | strong => simp [Kind.acquired]
      | weak => simp [Kind.acquired]
    · rw [if_neg he, if_neg fun hc => he hc.2.symm]
      rfl
  have hweak' : ∀ b', σ'.weak b' = σ.weak b' + if l.kind = .weak ∧ b = b' then 1 else 0 := by
    intro b'
    rw [hweak]
    by_cases he : b' = b
    · subst he
      rw [if_pos rfl, weak_of_block hb]
      cases l.kind with
      | strong => simp [Kind.acquired]
      | weak => simp [Kind.acquired]
    · rw [if_neg he, if_neg fun hc => he hc.2.symm]
      rfl
  have hzero : ∀ b', σ'.strong b' = 0 ↔ σ.strong b' = 0 := by
    intro b'
    rw [hstrong']
    split
    · next hc =>
      obtain ⟨hk, rfl⟩ := hc
      have hne := hs hk
      rw [strong_of_block hb]
      omega
    · rfl
  refine ⟨?_, hshaped⟩
  subst hσ'
  constructor
  · intro b'
    rw [hstrong', htotal, h.strong]
    simp
  · intro b'
    rw [hweak', htotal, h.weak]
    simp only [hzero, Option.some.injEq, List.count_nil]
    omega
  · intro b' blk' hblk
    obtain ⟨hlt, hpos, hptr⟩ := h.counted.block b blk hb
    rcases blocks_setBlock hblk with ⟨rfl, rfl⟩ | hold
    · refine ⟨hlt, ?_, ?_⟩
      · cases l.kind with
        | strong => exact hpos
        | weak => exact Nat.succ_pos _
      · cases hk : l.kind with
        | strong => exact fun _ => hptr (Nat.pos_of_ne_zero (hs hk))
        | weak => exact hptr
    · exact h.counted.block b' blk' hold
  · intro b'
    rw [hzero]
    exact h.counted.destroyed b'
  · intro b'
    exact (h.counted.deleted b').trans (and_congr_right fun _ => (blocks_setBlock_eq_none hb _ b').symm)
  · exact h.counted.destroyed_once
  · exact h.counted.deleted_once
  · exact fun _ hm => absurd hm List.not_mem_nil

/-- Two variables exchange their values. -/
theorem Quiet.swapped (h : Quiet σ) {l' : Loc} (hl : l ∈ σ.dom) (hl' : l' ∈ σ.dom) (hk : l'.kind = l.kind) :
    Quiet ((σ.write l (σ.value l')).write l' (σ.value l)) := by
  have hvalue : ∀ l'', ∃ l₀, (l'' ∈ σ.dom → l₀ ∈ σ.dom) ∧
      ((σ.write l (σ.value l')).write l' (σ.value l)).value l'' = σ.value l₀ := by
    intro l''
    by_cases he' : l'' = l'
    · exact ⟨l, fun _ => hl, by rw [he', value_write_self]⟩
    · by_cases he : l'' = l
      · exact ⟨l', fun _ => hl', by rw [value_write_of_ne _ he', he, value_write_self]⟩
      · exact ⟨l'', id, by rw [value_write_of_ne _ he', value_write_of_ne _ he]⟩
  constructor
  · refine h.counted.congr (fun _ _ => rfl) ?_ rfl rfl rfl rfl
    intro k b
    have h1 := total_write hl (σ.value l') (k := k) (b := b)
    have h2 := total_write (show l' ∈ (σ.write l (σ.value l')).dom from hl') (σ.value l) (k := k) (b := b)
    have hshare : (σ.write l (σ.value l')).share l' = σ.share l' := by
      rw [share_write]
      split
      · rfl
      · rfl
    have hl₀ : (σ.value l).share = σ.share l := rfl
    have hl₁ : (σ.value l').share = σ.share l' := rfl
    rw [hshare, hl₀, hk] at h2
    rw [hl₁] at h1
    omega
  · apply shaped_nil
    · intro l'' hm
      obtain ⟨l₀, hd, hv⟩ := hvalue l''
      rw [hv]
      exact h.shaped.pointer l₀ (hd hm)
    · exact h.shaped.member
    · exact fun l'' hm o i hp => h.home hm hp
    · intro l'' hm
      obtain ⟨l₀, hd, hv⟩ := hvalue l''
      rw [hv]
      exact h.given (hd hm)

theorem Quiet.moved (h : Quiet σ) {src : Loc} (hl : l ∈ σ.dom) (hsrc : src ∈ σ.dom) (hk : src.kind = l.kind)
    (hv : σ.value l = {}) : Quiet ((σ.write l (σ.value src)).write src {}) := by
  rw [← hv]
  exact h.swapped hl hsrc hk

/-! ## New objects -/

/-- The object before it has an owner. -/
def State.allocate (σ : State) (layout : List Kind) : State := {σ with
  layout := Function.update σ.layout σ.next layout
  blocks := Function.update σ.blocks σ.next (some {ptr := some σ.next})
  next := σ.next + 1}

theorem memberLocs_allocate (layout : List Kind) {o : ℕ} (ho : o < σ.next) :
    (σ.allocate layout).memberLocs o = σ.memberLocs o := by
  unfold State.memberLocs State.allocate
  dsimp only
  rw [Function.update_of_ne (Nat.ne_of_lt ho)]

theorem Quiet.not_mem_new (h : Quiet σ) (layout : List Kind) (hl : l ∈ (σ.allocate layout).memberLocs σ.next) :
    l ∉ σ.dom := by
  intro hin
  obtain ⟨i, hp⟩ := place_of_mem hl
  exact absurd (h.alive hin hp).1 (Nat.lt_irrefl _)

def State.furnish (σ : State) (layout : List Kind) : State := {σ.allocate layout with
  dom := σ.dom ∪ ((σ.allocate layout).memberLocs σ.next).toFinset
  value := fun l => if l ∈ (σ.allocate layout).memberLocs σ.next then {} else σ.value l}

theorem make_eq (layout : List Kind) : σ.make l layout =
    (σ.furnish layout).declare l {ptr := some σ.next, control := some σ.next} := rfl

theorem share_furnish (layout : List Kind) : (σ.furnish layout).share l =
    if l ∈ (σ.allocate layout).memberLocs σ.next then none else σ.share l := by
  unfold State.share State.furnish
  dsimp only
  split
  · rfl
  · rfl

theorem Quiet.total_make (h : Quiet σ) (hl : l.place.isVar) (hn : l ∉ σ.dom) (layout : List Kind) (k : Kind) (b : ℕ) :
    (σ.make l layout).total k b = σ.total k b + if l.kind = k ∧ σ.next = b then 1 else 0 := by
  have hout : l ∉ (σ.furnish layout).dom := by
    unfold State.furnish
    rw [Finset.mem_union, List.mem_toFinset]
    rintro (hm | hm)
    · exact hn hm
    · obtain ⟨i, hp⟩ := place_of_mem hm
      exact not_member_of_isVar hl _ _ hp
  have hdisj : Disjoint σ.dom ((σ.allocate layout).memberLocs σ.next).toFinset := by
    rw [Finset.disjoint_left]
    intro l' hm hin
    exact h.not_mem_new layout (List.mem_toFinset.mp hin) hm
  have hfurnish : (σ.furnish layout).total k b = σ.total k b := by
    unfold State.total
    have hd : (σ.furnish layout).dom = σ.dom ∪ ((σ.allocate layout).memberLocs σ.next).toFinset := rfl
    rw [hd, Finset.sum_union hdisj]
    have hold : ∀ l' ∈ σ.dom, (σ.furnish layout).share l' = σ.share l' := fun l' hm => by
      rw [share_furnish, if_neg fun hin => h.not_mem_new layout hin hm]
    have hnew : ∀ l' ∈ ((σ.allocate layout).memberLocs σ.next).toFinset, (σ.furnish layout).share l' = none :=
      fun l' hm => by rw [share_furnish, if_pos (List.mem_toFinset.mp hm)]
    have hzero : ∑ l' ∈ ((σ.allocate layout).memberLocs σ.next).toFinset,
        (if l'.kind = k ∧ (σ.furnish layout).share l' = some b then 1 else 0) = 0 := by
      apply Finset.sum_eq_zero
      intro l' hm
      rw [hnew l' hm]
      simp
    rw [hzero, add_zero]
    apply Finset.sum_congr rfl
    intro l' hm
    rw [hold l' hm]
  rw [make_eq, total_declare hout, hfurnish]
  simp [Ptr.share]

theorem Quiet.fresh (h : Quiet σ) (hb : σ.next ≤ b) : σ.blocks b = none := by
  cases hblk : σ.blocks b with
  | none => rfl
  | some blk => exact absurd (h.counted.block b blk hblk).1 (Nat.not_lt.mpr hb)

/-- A new object with empty members, and its owner. -/
theorem Quiet.make (h : Quiet σ) (hl : l.place.isVar) (hn : l ∉ σ.dom) (hk : l.kind = .strong) (layout : List Kind) :
    Quiet (σ.make l layout) := by
  have hnone := h.fresh (Nat.le_refl σ.next)
  have hblocks : ∀ b, (σ.make l layout).blocks b = if b = σ.next then some {ptr := some σ.next} else σ.blocks b := by
    intro b
    rw [make_eq]
    unfold State.declare State.furnish State.allocate
    dsimp only
    split
    · next he => rw [he, Function.update_self]
    · next he => rw [Function.update_of_ne he]
  have hstrong : ∀ b, (σ.make l layout).strong b = σ.strong b + if σ.next = b then 1 else 0 := by
    intro b
    unfold State.strong
    rw [hblocks]
    by_cases he : b = σ.next
    · rw [if_pos he, if_pos he.symm, he, hnone]
    · rw [if_neg he, if_neg (Ne.symm he)]
      rfl
  have hweak : ∀ b, (σ.make l layout).weak b = σ.weak b + if σ.next = b then 1 else 0 := by
    intro b
    unfold State.weak
    rw [hblocks]
    by_cases he : b = σ.next
    · rw [if_pos he, if_pos he.symm, he, hnone]
    · rw [if_neg he, if_neg (Ne.symm he)]
      rfl
  have hstrong0 : σ.strong σ.next = 0 := by
    unfold State.strong
    rw [hnone]
  have hnext : (σ.make l layout).next = σ.next + 1 := rfl
  have hdom : ∀ l', l' ∈ (σ.make l layout).dom ↔
      l' = l ∨ l' ∈ σ.dom ∨ l' ∈ (σ.allocate layout).memberLocs σ.next := by
    intro l'
    rw [make_eq]
    unfold State.declare State.furnish
    dsimp only
    rw [Finset.mem_insert, Finset.mem_union, List.mem_toFinset]
  have hmembers : ∀ o, (σ.make l layout).memberLocs o = (σ.allocate layout).memberLocs o := fun _ => rfl
  have hvalue : ∀ l', (σ.make l layout).value l' = if l' = l then {ptr := some σ.next, control := some σ.next} else
      if l' ∈ (σ.allocate layout).memberLocs σ.next then {} else σ.value l' := by
    intro l'
    rw [make_eq]
    unfold State.declare State.furnish
    dsimp only
    by_cases he : l' = l
    · rw [if_pos he, he, Function.update_self]
    · rw [if_neg he, Function.update_of_ne he]
  constructor
  · constructor
    · intro b
      rw [hstrong, h.total_make hl hn, h.strong, hk]
      simp
    · intro b
      rw [hweak, h.total_make hl hn, h.weak, hstrong, hk]
      by_cases he : σ.next = b
      · subst he
        simp [hstrong0]
      · simp [he]
    · intro b blk hblk
      rw [hblocks] at hblk
      rw [hnext]
      split at hblk
      · next he =>
        cases hblk
        rw [he]
        exact ⟨Nat.lt_succ_self _, Nat.one_pos, fun _ => rfl⟩
      · obtain ⟨hlt, hrest⟩ := h.counted.block b blk hblk
        exact ⟨Nat.lt_succ_of_lt hlt, hrest⟩
    · intro b
      refine (h.counted.destroyed b).trans ?_
      rw [hnext, hstrong]
      by_cases he : σ.next = b
      · subst he
        simp
      · rw [if_neg he]
        constructor
        · intro hb
          exact ⟨Nat.lt_succ_of_lt hb.1, hb.2⟩
        · intro hb
          exact ⟨by omega, hb.2⟩
    · intro b
      refine (h.counted.deleted b).trans ?_
      rw [hnext, hblocks]
      by_cases he : b = σ.next
      · subst he
        simp
      · rw [if_neg he]
        constructor
        · intro hb
          exact ⟨Nat.lt_succ_of_lt hb.1, hb.2⟩
        · intro hb
          exact ⟨by omega, hb.2⟩
    · exact h.counted.destroyed_once
    · exact h.counted.deleted_once
    · exact fun _ hm => absurd hm List.not_mem_nil
  · have hold : ∀ {l'}, l' ∈ (σ.make l layout).dom → l' ≠ l → l' ∉ (σ.allocate layout).memberLocs σ.next → l' ∈ σ.dom :=
      fun hm hne hin => (((hdom _).mp hm).resolve_left hne).resolve_right hin
    apply shaped_nil
    · intro l' hm
      rw [hvalue]
      split
      · rfl
      · split
        · rfl
        · next hne hin => exact h.shaped.pointer l' (hold hm hne hin)
    · intro o ho hd l' hm
      rw [hmembers] at hm
      rw [hdom]
      by_cases he : o = σ.next
      · subst he
        exact .inr (.inr hm)
      · have ho' : o < σ.next := by
          rw [hnext] at ho
          omega
        rw [memberLocs_allocate layout ho'] at hm
        exact .inr (.inl (h.shaped.member o ho' hd l' hm))
    · intro l' hm o i hp
      rw [hnext, hmembers]
      rcases (hdom l').mp hm with rfl | hin | hin
      · exact absurd hp (not_member_of_isVar hl o i)
      · obtain ⟨ho, hmem, hd⟩ := h.home hin hp
        rw [memberLocs_allocate layout ho]
        exact ⟨Nat.lt_succ_of_lt ho, hmem, hd⟩
      · obtain ⟨i', hp'⟩ := place_of_mem hin
        cases hp.symm.trans hp'
        refine ⟨Nat.lt_succ_self _, hin, fun hdes => ?_⟩
        exact absurd ((h.counted.destroyed _).mp hdes).1 (Nat.lt_irrefl _)
    · intro l' hm
      rw [hvalue]
      split
      · rfl
      · split
        · rfl
        · next hne hin => exact h.given (hold hm hne hin)

/-! ## Beginning a release -/

/-- Every object of the set has an owner that is another variable, and not in an object outside the set. -/
def Holds (σ : State) (l : Loc) (held : Set ℕ) : Prop :=
  ∀ o ∈ held, ∃ l' ∈ σ.dom, l'.kind = .strong ∧ (σ.value l').control = some o ∧ l' ≠ l ∧
    ∀ o' i, l'.place = .member o' i → o' ∈ held

/-- A variable is released, and what is held otherwise stays. -/
theorem Quiet.release (h : Quiet σ) (hl : l ∈ σ.dom) {held : Set ℕ} (hheld : Holds σ l held)
    (hup : ∀ o i, l.place = .member o i → o ∈ held) {stays : Set Loc}
    (hstays : ∀ l' ∈ stays, l' ∈ σ.dom ∧ ∀ o i, l'.place = .member o i → o ∈ held) :
    Inv held stays {l} [.release l] σ := by
  refine ⟨h.counted.congr (fun i hi => (count_tail rfl i hi).symm) (fun _ _ => rfl) rfl rfl rfl rfl, ?_⟩
  constructor
  · exact h.shaped.pointer
  · exact h.shaped.member
  · intro l' hm o i hp
    obtain ⟨ho, hmem, hdrop⟩ := h.shaped.home l' hm o i hp
    exact ⟨ho, hmem, fun hdes => absurd (hdrop hdes) List.not_mem_nil⟩
  · intro i hm l' hloc
    cases List.mem_singleton.mp hm
    cases hloc
    exact ⟨hl, fun o i hp => .inr (hup o i hp)⟩
  · intro l' hm
    cases List.mem_singleton.mp hm
  · exact List.pairwise_singleton _ _
  · intro l' hm hg
    rw [h.given hm] at hg
    cases hg
  · intro l' hm
    cases List.mem_singleton.mp hm
    exact h.given hl
  · intro l' hm
    cases List.mem_singleton.mp hm
  · intro l' hm
    cases List.mem_singleton.mp hm
  · intro o ho
    obtain ⟨l', hm, hk, hc, hne, hup'⟩ := hheld o ho
    refine ⟨l', hm, hk, (h.share hm).trans hc, ?_, hup'⟩
    intro i hin hloc
    cases List.mem_singleton.mp hin
    exact hne (Option.some.inj hloc).symm
  · intro l' hm
    obtain ⟨hd, hup'⟩ := hstays l' hm
    refine ⟨hd, ?_, hup'⟩
    intro hin
    cases List.mem_singleton.mp hin
  · intro l' hm
    rw [Set.mem_singleton_iff.mp hm]
    exact .inl List.mem_cons_self

/-- A variable is released and its life ends. -/
theorem Quiet.destroy (h : Quiet σ) (hl : l ∈ σ.dom) (hvar : l.place.isVar) :
    Inv ∅ ∅ ∅ [.release l, .drop l] σ := by
  have hloc : ∀ {i : Instr} {l' : Loc}, i ∈ [Instr.release l, .drop l] → i.loc = some l' → l' = l := by
    intro i l' hm hi
    simp only [List.mem_cons, List.not_mem_nil, or_false] at hm
    rcases hm with rfl | rfl
    · exact (Option.some.inj hi).symm
    · exact (Option.some.inj hi).symm
  refine ⟨h.counted.congr ?_ (fun _ _ => rfl) rfl rfl rfl rfl, ?_⟩
  · intro i hi
    rw [← count_tail rfl i hi, ← count_tail rfl i hi]
  constructor
  · exact h.shaped.pointer
  · exact h.shaped.member
  · intro l' hm o i hp
    obtain ⟨ho, hmem, hdrop⟩ := h.shaped.home l' hm o i hp
    exact ⟨ho, hmem, fun hdes => absurd (hdrop hdes) List.not_mem_nil⟩
  · intro i hm l' hi
    rw [hloc hm hi]
    exact ⟨hl, fun o i hp => absurd hp (not_member_of_isVar hvar o i)⟩
  · intro l' hm o i hp
    rw [hloc hm rfl] at hp
    exact absurd hp (not_member_of_isVar hvar o i)
  · simp [Apart, Instr.loc]
  · intro l' hm hg
    rw [h.given hm] at hg
    cases hg
  · intro l' hm
    rw [hloc hm rfl]
    exact h.given hl
  · intro l' hm
    simp at hm
  · intro l' hm
    rw [hloc hm rfl]
    exact .inl List.mem_cons_self
  · exact fun _ hm => absurd hm (Set.notMem_empty _)
  · exact fun _ hm => absurd hm (Set.notMem_empty _)
  · exact fun _ hm => absurd hm (Set.notMem_empty _)

/-! ## Ownership -/

/-- No object owns itself through its members. -/
def State.Acyclic (σ : State) : Prop :=
  ∃ rank : ℕ → ℕ, ∀ l ∈ σ.dom, l.kind = .strong → ∀ o i, l.place = .member o i → ∀ o', (σ.value l).control = some o' →
    rank o' < rank o

/-- The object is owned by a chain of variables, from a variable outside all objects, that `avoid` is not in. -/
inductive State.Held (σ : State) (avoid : Loc) : ℕ → Prop
  | owner (o : ℕ) (l : Loc) (hl : l ∈ σ.dom) (hk : l.kind = .strong) (hc : (σ.value l).control = some o)
      (hne : l ≠ avoid) (hup : ∀ o' i, l.place = .member o' i → σ.Held avoid o') : σ.Held avoid o

theorem holds_held (σ : State) (l : Loc) : Holds σ l {o | σ.Held l o} := by
  intro o ho
  cases ho with
  | owner _ l' hl hk hc hne hup => exact ⟨l', hl, hk, hc, hne, hup⟩

theorem Quiet.holds_alive (h : Quiet σ) (hk : l.kind = .weak) :
    Holds σ l {o | o < σ.next ∧ o ∉ σ.destroyed} := by
  intro o ho
  obtain ⟨l', hl', hk', hc⟩ := h.exists_owner ho.1 ho.2
  refine ⟨l', hl', hk', hc, ?_, fun o' i hp => h.alive hl' hp⟩
  rintro rfl
  rw [hk] at hk'
  cases hk'

/-- In an acyclic graph an object is held otherwise than by its own members. -/
theorem Quiet.held_of_member (h : Quiet σ) (ha : σ.Acyclic) (hl : l ∈ σ.dom) (hk : l.kind = .strong) {o i : ℕ}
    (hp : l.place = .member o i) : σ.Held l o := by
  obtain ⟨rank, hrank⟩ := ha
  obtain ⟨bound, hbound⟩ : ∃ bound, ∀ o < σ.next, rank o ≤ bound :=
    ⟨∑ o ∈ Finset.range σ.next, rank o, fun o ho =>
      Finset.single_le_sum (f := rank) (fun _ _ => Nat.zero_le _) (Finset.mem_range.mpr ho)⟩
  -- by induction on how far the rank is from the highest
  have hheld : ∀ n o', o' < σ.next → o' ∉ σ.destroyed → rank o ≤ rank o' → bound - rank o' < n → σ.Held l o' := by
    intro n
    induction n with
    | zero => exact fun o' _ _ _ hn => absurd hn (Nat.not_lt_zero _)
    | succ n ih =>
      intro o' ho' hd' hle hn
      obtain ⟨l', hl', hk', hc'⟩ := h.exists_owner ho' hd'
      refine .owner o' l' hl' hk' hc' ?_ ?_
      · intro he
        rw [he] at hc'
        exact absurd (hrank l hl hk o i hp o' hc') (Nat.not_lt.mpr hle)
      · intro o'' i' hp'
        obtain ⟨ho'', hd''⟩ := h.alive hl' hp'
        have hlt := hrank l' hl' hk' o'' i' hp' o' hc'
        have hle' := hbound o'' ho''
        exact ih o'' ho'' hd'' (by omega) (by omega)
  obtain ⟨ho, hd⟩ := h.alive hl hp
  exact hheld _ o ho hd (Nat.le_refl _) (Nat.lt_succ_self _)

theorem Quiet.exists_holds (h : Quiet σ) (ha : σ.Acyclic) (hl : l ∈ σ.dom) :
    ∃ held, Holds σ l held ∧ ∀ o i, l.place = .member o i → o ∈ held := by
  cases hk : l.kind with
  | strong => exact ⟨_, holds_held σ l, fun o i hp => h.held_of_member ha hl hk hp⟩
  | weak => exact ⟨_, h.holds_alive hk, fun o i hp => h.alive hl hp⟩

/-! ## Operations -/

/-- A move assignment of owners does not take its source out of an object that only the target holds. -/
def Op.Guarded (σ : State) : Op → Prop
  | moveAssign l src => l = src ∨ l.kind = .weak ∨ ∀ o i, src.place = .member o i → σ.Held l o
  | _ => True

theorem Quiet.copyConstruct (h : Quiet σ) {src : Loc} (hl : l.place.isVar) (hn : l ∉ σ.dom) (hsrc : src ∈ σ.dom)
    (hk : src.kind = l.kind ∨ src.kind = .strong) :
    ∃ σ', σ.copyConstruct l src = .ok σ' ∧ Quiet σ' ∧ σ'.dom = insert l σ.dom := by
  have hptr := h.shaped.pointer src hsrc
  cases hc : (σ.value src).control with
  | none =>
    rw [hc] at hptr
    refine ⟨σ.declare l {}, ?_, h.construct hl hn, rfl⟩
    simp only [State.copyConstruct, read_ok hsrc, bind, Except.bind, hc, hptr]
    rfl
  | some b =>
    rw [hc] at hptr
    obtain ⟨blk, hb, hs⟩ := h.exists_block hsrc hc
    refine ⟨_, ?_, h.acquire hl hn hb ?_, rfl⟩
    · simp only [State.copyConstruct, read_ok hsrc, bind, Except.bind, hc, hptr, State.acquire, block_ok hb]
      rfl
    · intro hstrong
      apply hs
      rcases hk with hk | hk
      · rw [hk, hstrong]
      · exact hk

theorem Quiet.moveConstruct (h : Quiet σ) {src : Loc} (hl : l.place.isVar) (hn : l ∉ σ.dom) (hsrc : src ∈ σ.dom)
    (hk : src.kind = l.kind) : ∃ σ', σ.moveConstruct l src = .ok σ' ∧ Quiet σ' := by
  have hne : src ≠ l := by
    rintro rfl
    exact hn hsrc
  have hnew := h.construct hl hn
  have hmove : Quiet (((σ.declare l {}).write l ((σ.declare l {}).value src)).write src {}) :=
    hnew.moved (Finset.mem_insert_self l _) (Finset.mem_insert_of_mem hsrc) hk (Function.update_self _ _ _)
  refine ⟨(σ.declare l (σ.value src)).write src {}, ?_, ?_⟩
  · simp only [State.moveConstruct, read_ok hsrc]
    rfl
  · have hvalue : (σ.declare l {}).value src = σ.value src := Function.update_of_ne hne _ _
    have hsame : (σ.declare l {}).write l (σ.value src) = σ.declare l (σ.value src) := by
      unfold State.write State.declare
      dsimp only
      rw [Function.update_idem]
    rw [hvalue, hsame] at hmove
    exact hmove

theorem Quiet.swap (h : Quiet σ) {l' : Loc} (hl : l ∈ σ.dom) (hl' : l' ∈ σ.dom) (hk : l'.kind = l.kind) :
    ∃ σ', σ.swap l l' = .ok σ' ∧ Quiet σ' ∧ σ'.dom = σ.dom := by
  refine ⟨_, ?_, h.swapped hl hl' hk, rfl⟩
  simp only [State.swap, read_ok hl, read_ok hl']
  rfl

/-- An observer is locked to an owner as long as its object is there. -/
theorem Quiet.lock (h : Quiet σ) {w : Loc} (hl : l.place.isVar) (hn : l ∉ σ.dom) (hk : l.kind = .strong)
    (hw : w ∈ σ.dom) : ∃ σ', σ.lock l w = .ok σ' ∧ Quiet σ' ∧ (σ'.value l).ptr =
      (σ.value w).control.bind fun o => if o ∈ σ.destroyed then none else some o := by
  have hptr := h.shaped.pointer w hw
  cases hc : (σ.value w).control with
  | none =>
    refine ⟨σ.declare l {}, ?_, h.construct hl hn, ?_⟩
    · simp only [State.lock, read_ok hw, bind, Except.bind, hc]
      rfl
    · unfold State.declare
      dsimp only
      rw [Function.update_self]
      rfl
  | some b =>
    rw [hc] at hptr
    obtain ⟨blk, hb, -⟩ := h.exists_block hw hc
    have hlt := (h.counted.block b blk hb).1
    have hdes : b ∈ σ.destroyed ↔ blk.strong = 0 := by
      rw [h.counted.destroyed, strong_of_block hb]
      exact ⟨fun hd => hd.2, fun hz => ⟨hlt, hz⟩⟩
    by_cases hz : blk.strong = 0
    · refine ⟨σ.declare l {}, ?_, h.construct hl hn, ?_⟩
      · simp only [State.lock, read_ok hw, bind, Except.bind, hc, block_ok hb, hz]
        rfl
      · unfold State.declare
        dsimp only
        rw [Function.update_self, Option.bind_some, if_pos (hdes.mpr hz)]
    · have hnew := h.acquire hl hn hb fun _ => hz
      rw [hk] at hnew
      refine ⟨_, ?_, hnew, ?_⟩
      · simp only [State.lock, read_ok hw, bind, Except.bind, hc, block_ok hb, hptr, if_pos hz, Kind.acquired]
        rfl
      · unfold State.declare
        dsimp only
        rw [Function.update_self, Option.bind_some, if_neg fun hd => hz (hdes.mp hd)]

/-- Every operation that a program may do is carried out, and then no release is under way. -/
theorem Quiet.perform (h : Quiet σ) (ha : σ.Acyclic) {op : Op} (hp : op.Proper σ) (hg : op.Guarded σ) :
    ∃ n σ', σ.perform n op = .ok σ' ∧ Quiet σ' := by
  cases op with
  | construct l => exact ⟨0, _, rfl, h.construct hp.1 hp.2⟩
  | make l layout => exact ⟨0, _, rfl, h.make hp.1 hp.2.1 hp.2.2 layout⟩
  | copyConstruct l src =>
    obtain ⟨σ', hok, hquiet, -⟩ := h.copyConstruct hp.1 hp.2.1 hp.2.2.1 hp.2.2.2
    exact ⟨0, σ', hok, hquiet⟩
  | moveConstruct l src =>
    obtain ⟨σ', hok, hquiet⟩ := h.moveConstruct hp.1 hp.2.1 hp.2.2.1 hp.2.2.2
    exact ⟨0, σ', hok, hquiet⟩
  | lock l w =>
    obtain ⟨σ', hok, hquiet, -⟩ := h.lock hp.1 hp.2.1 hp.2.2.1 hp.2.2.2.1
    exact ⟨0, σ', hok, hquiet⟩
  | destroy l =>
    obtain ⟨n, σ', hok, hinv⟩ := (h.destroy hp.2 hp.1).exec
    exact ⟨n, σ', hok, hinv.quiet⟩
  | copyAssign l src tmp =>
    obtain ⟨hl, hsrc, hk, hvar, hn, hkt⟩ := hp
    by_cases he : l = src
    · exact ⟨0, σ, if_pos he, h⟩
    obtain ⟨σ₁, hcopy, h₁, hd₁⟩ := h.copyConstruct hvar hn hsrc (.inl (hk.trans hkt.symm))
    have htmp : tmp ∈ σ₁.dom := by
      rw [hd₁]
      exact Finset.mem_insert_self tmp _
    obtain ⟨σ₂, hswap, h₂, hd₂⟩ := h₁.swap (show l ∈ σ₁.dom by rw [hd₁]; exact Finset.mem_insert_of_mem hl) htmp hkt
    obtain ⟨n, σ', hok, hinv⟩ := (h₂.destroy (hd₂ ▸ htmp) hvar).exec
    refine ⟨n, σ', ?_, hinv.quiet⟩
    simp only [State.perform, if_neg he, hcopy, bind, Except.bind, hswap, hok]
  | moveAssign l src =>
    obtain ⟨hl, hsrc, hk⟩ := hp
    by_cases he : l = src
    · exact ⟨0, σ, if_pos he, h⟩
    have hholds : ∃ held, Holds σ l held ∧ (∀ o i, l.place = .member o i → o ∈ held) ∧
        ∀ o i, src.place = .member o i → o ∈ held := by
      cases hkl : l.kind with
      | weak =>
        exact ⟨_, h.holds_alive hkl, fun o i hp => h.alive hl hp, fun o i hp => h.alive hsrc hp⟩
      | strong =>
        rcases hg with hg | hg | hg
        · exact absurd hg he
        · rw [hkl] at hg
          cases hg
        · exact ⟨_, holds_held σ l, fun o i hp => h.held_of_member ha hl hkl hp, hg⟩
    obtain ⟨held, hheld, hup, hup'⟩ := hholds
    have hstays : ∀ l' ∈ ({l, src} : Set Loc), l' ∈ σ.dom ∧ ∀ o i, l'.place = .member o i → o ∈ held := by
      rintro l' (rfl | rfl)
      · exact ⟨hl, hup⟩
      · exact ⟨hsrc, hup'⟩
    obtain ⟨n, σ₁, hok, hinv⟩ := (h.release hl hheld hup hstays).exec
    have hl₁ := (hinv.shaped.stays l (.inl rfl)).1
    have hsrc₁ := (hinv.shaped.stays src (.inr rfl)).1
    have hempty : σ₁.value l = {} := by
      rcases hinv.shaped.emptied l rfl with hm | hm | hv
      · exact absurd hm List.not_mem_nil
      · exact absurd hm List.not_mem_nil
      · exact hv
    refine ⟨n, (σ₁.write l (σ₁.value src)).write src {}, ?_, hinv.quiet.moved hl₁ hsrc₁ hk hempty⟩
    simp only [State.perform, if_neg he, hok, bind, Except.bind, State.moveFrom, read_ok hl₁, read_ok hsrc₁]
    rfl
  | reset l =>
    obtain ⟨held, hheld, hup⟩ := h.exists_holds ha hp
    have hstays : ∀ l' ∈ (∅ : Set Loc), l' ∈ σ.dom ∧ ∀ o i, l'.place = .member o i → o ∈ held :=
      fun _ hm => absurd hm (Set.notMem_empty _)
    obtain ⟨n, σ', hok, hinv⟩ := (h.release hp hheld hup hstays).exec
    exact ⟨n, σ', hok, hinv.quiet⟩
  | resetTo l layout tmp =>
    obtain ⟨hl, hk, hvar, hn, hkt⟩ := hp
    have h₁ := h.make hvar hn hkt layout
    have htmp : tmp ∈ (σ.make tmp layout).dom := Finset.mem_insert_self tmp _
    have hl₁ : l ∈ (σ.make tmp layout).dom := Finset.mem_insert_of_mem (Finset.mem_union_left _ hl)
    obtain ⟨σ₂, hswap, h₂, hd₂⟩ := h₁.swap hl₁ htmp (hkt.trans hk.symm)
    obtain ⟨n, σ', hok, hinv⟩ := (h₂.destroy (hd₂ ▸ htmp) hvar).exec
    refine ⟨n, σ', ?_, hinv.quiet⟩
    simp only [State.perform, bind, Except.bind, hswap, hok]
  | swap l l' =>
    obtain ⟨σ', hok, hquiet, -⟩ := h.swap hp.1 hp.2.1 hp.2.2
    exact ⟨0, σ', hok, hquiet⟩

/-! ## The number of instructions -/

theorem exec_nil (n : ℕ) (σ : State) : State.exec n [] σ = .ok σ := by
  cases n with
  | zero => rfl
  | succ n => rfl

/-- What ends in time ends so in any longer time. -/
theorem exec_add {n : ℕ} {stack : List Instr} (h : State.exec n stack σ ≠ .error .fuel) (k : ℕ) :
    State.exec (n + k) stack σ = State.exec n stack σ := by
  induction n generalizing stack σ with
  | zero =>
    cases stack with
    | nil => rw [exec_nil, exec_nil]
    | cons instr rest => exact absurd rfl h
  | succ n ih =>
    cases stack with
    | nil => rw [exec_nil, exec_nil]
    | cons instr rest =>
      rw [Nat.succ_add]
      unfold State.exec at h ⊢
      cases hs : σ.step instr with
      | error e => rfl
      | ok r =>
        rw [hs] at h
        exact ih h

theorem perform_add {n : ℕ} {op : Op} (h : σ.perform n op ≠ .error .fuel) (k : ℕ) :
    σ.perform (n + k) op = σ.perform n op := by
  cases op with
  | destroy l => exact exec_add h k
  | reset l => exact exec_add h k
  | copyAssign l src tmp =>
    simp only [State.perform, bind, Except.bind] at h ⊢
    split
    · rfl
    · next hne =>
      rw [if_neg hne] at h
      cases hc : σ.copyConstruct tmp src with
      | error e => rfl
      | ok σ₁ =>
        rw [hc] at h
        dsimp only at h ⊢
        cases hs : σ₁.swap l tmp with
        | error e => rfl
        | ok σ₂ =>
          rw [hs] at h
          exact exec_add h k
  | moveAssign l src =>
    simp only [State.perform, bind, Except.bind] at h ⊢
    split
    · rfl
    · next hne =>
      rw [if_neg hne] at h
      rw [exec_add]
      intro he
      rw [he] at h
      exact h rfl
  | resetTo l layout tmp =>
    simp only [State.perform, bind, Except.bind] at h ⊢
    cases hs : (σ.make tmp layout).swap l tmp with
    | error e => rfl
    | ok σ₂ =>
      rw [hs] at h
      exact exec_add h k
  | _ => rfl

theorem perform_inj {n m : ℕ} {op : Op} {σ₁ σ₂ : State} (h₁ : σ.perform n op = .ok σ₁) (h₂ : σ.perform m op = .ok σ₂) :
    σ₁ = σ₂ := by
  have hn := perform_add (k := m) (h₁ ▸ nofun : σ.perform n op ≠ .error .fuel)
  have hm := perform_add (k := n) (h₂ ▸ nofun : σ.perform m op ≠ .error .fuel)
  rw [Nat.add_comm, hm, h₁, h₂] at hn
  exact (Except.ok.inj hn).symm

/-! ## Runs -/

/-- Reached by allowed operations on acyclic graphs. -/
inductive Reached (allowed : State → Op → Prop) : State → Prop
  | init : Reached allowed State.init
  | perform {σ σ' : State} (h : Reached allowed σ) (ha : σ.Acyclic) (op : Op) (hp : op.Proper σ) (hg : allowed σ op)
      (n : ℕ) (hok : σ.perform n op = .ok σ') : Reached allowed σ'

/-- Between two operations. -/
structure Sound (σ : State) : Prop where
  destroyed_once : σ.destroyed.Nodup
  destroyed_iff : ∀ o < σ.next, o ∈ σ.destroyed ↔ ∀ l ∈ σ.dom, l.kind = .strong → (σ.value l).control ≠ some o
  deleted_once : σ.deleted.Nodup
  deleted_iff : ∀ b < σ.next, b ∈ σ.deleted ↔ ∀ l ∈ σ.dom, (σ.value l).control ≠ some b
  lock_iff : ∀ l w, (Op.lock l w).Proper σ → ∃ σ', σ.lock l w = .ok σ' ∧
    ∀ o, (σ.value w).control = some o → ((σ'.value l).ptr ≠ none ↔ o ∉ σ.destroyed)

theorem Quiet.total_eq_zero_iff (h : Quiet σ) (k : Kind) (b : ℕ) :
    σ.total k b = 0 ↔ ∀ l ∈ σ.dom, l.kind = k → (σ.value l).control ≠ some b := by
  constructor
  · intro hz l hl hk hc
    have hpos := total_pos hl hk ((h.share hl).trans hc)
    omega
  · intro hnone
    by_contra hne
    obtain ⟨l, hl, hk, hs⟩ := exists_of_total_pos (Nat.pos_of_ne_zero hne)
    exact hnone l hl hk ((h.share hl).symm.trans hs)

theorem Quiet.sound (h : Quiet σ) : Sound σ := by
  constructor
  · exact h.counted.destroyed_once
  · intro o ho
    rw [h.counted.destroyed, h.strong, h.total_eq_zero_iff]
    exact and_iff_right ho
  · exact h.counted.deleted_once
  · intro b hb
    rw [h.counted.deleted]
    have hweak : σ.blocks b = none ↔ σ.weak b = 0 := by
      constructor
      · intro hnone
        unfold State.weak
        rw [hnone]
      · intro hz
        cases hblk : σ.blocks b with
        | none => rfl
        | some blk =>
          have hpos := (h.counted.block b blk hblk).2.1
          rw [weak_of_block hblk] at hz
          omega
    rw [and_iff_right hb, hweak, h.weak, h.strong]
    constructor
    · intro hz l hl
      cases hk : l.kind with
      | strong =>
        refine (h.total_eq_zero_iff .strong b).mp ?_ l hl hk
        by_contra hne
        rw [if_neg hne] at hz
        omega
      | weak => exact (h.total_eq_zero_iff .weak b).mp (by omega) l hl hk
    · intro hnone
      rw [(h.total_eq_zero_iff .weak b).mpr fun l hl _ => hnone l hl,
        (h.total_eq_zero_iff .strong b).mpr fun l hl _ => hnone l hl]
      rfl
  · intro l w hp
    obtain ⟨σ', hok, -, hptr⟩ := h.lock hp.1 hp.2.1 hp.2.2.1 hp.2.2.2.1
    refine ⟨σ', hok, fun o hc => ?_⟩
    rw [hptr, hc, Option.bind_some]
    split
    · next hd => exact ⟨fun hne => absurd rfl hne, fun hnd => absurd hd hnd⟩
    · next hd => exact ⟨fun _ => hd, nofun⟩

theorem Reached.quiet (h : Reached Op.Guarded σ) : Quiet σ := by
  induction h with
  | init => exact quiet_init
  | perform h ha op hp hg n hok ih =>
    obtain ⟨m, σ'', hok', hquiet⟩ := ih.perform ha hp hg
    rw [perform_inj hok hok']
    exact hquiet

/-- In every run of guarded operations on acyclic graphs: an object is destroyed once, when its last owner goes away;
a block is deleted once, when its last owner and observer have; a lock finds the object while it is there; and the
next operation is carried out without a fault. -/
theorem reached_sound (h : Reached Op.Guarded σ) : Sound σ ∧ ∀ op : Op, σ.Acyclic → op.Proper σ → op.Guarded σ →
    ∃ n σ', σ.perform n op = .ok σ' := by
  refine ⟨h.quiet.sound, fun op ha hp hg => ?_⟩
  obtain ⟨n, σ', hok, -⟩ := h.quiet.perform ha hp hg
  exact ⟨n, σ', hok⟩

/-! ## A list of two nodes -/

def head : Loc := ⟨.strong, .var 0⟩
def second : Loc := ⟨.strong, .var 1⟩
def headNext : Loc := ⟨.strong, .member 0 0⟩

def twoNodes : State := (State.init.make head [.strong]).make second []

/-- The second node as the successor of the first. -/
def linked : State := (twoNodes.write headNext (twoNodes.value second)).write second {}

theorem dom_linked : linked.dom = {second, head, headNext} := by decide

theorem dom_twoNodes : twoNodes.dom = {second, head, headNext} := by decide

theorem dom_oneNode : (State.init.make head [.strong]).dom = {head, headNext} := by decide

theorem acyclic_linked : linked.Acyclic := by
  refine ⟨fun o => if o = 0 then 1 else 0, ?_⟩
  intro l hl _ o i hp o' hc
  rw [dom_linked] at hl
  simp only [Finset.mem_insert, Finset.mem_singleton] at hl
  rcases hl with rfl | rfl | rfl
  · cases hp
  · cases hp
  · cases hp
    cases hc
    decide

theorem acyclic_twoNodes : twoNodes.Acyclic := by
  refine ⟨fun _ => 0, ?_⟩
  intro l hl _ o i hp o' hc
  rw [dom_twoNodes] at hl
  simp only [Finset.mem_insert, Finset.mem_singleton] at hl
  rcases hl with rfl | rfl | rfl
  · cases hp
  · cases hp
  · cases hc

theorem acyclic_oneNode : (State.init.make head [.strong]).Acyclic := by
  refine ⟨fun _ => 0, ?_⟩
  intro l hl _ o i hp o' hc
  rw [dom_oneNode] at hl
  simp only [Finset.mem_insert, Finset.mem_singleton] at hl
  rcases hl with rfl | rfl
  · cases hp
  · cases hc

theorem acyclic_init : State.init.Acyclic :=
  ⟨fun _ => 0, fun l hl => absurd hl (Finset.notMem_empty l)⟩

theorem perform_link : twoNodes.perform 1 (.moveAssign headNext second) = .ok linked := rfl

theorem perform_unlink : linked.perform 20 (.moveAssign head headNext) = .error .fault := rfl

/-- Linking the nodes takes the second one out of a variable. -/
theorem reached_linked : Reached Op.Guarded linked := by
  have h₁ : Reached Op.Guarded (State.init.make head [.strong]) :=
    .perform .init acyclic_init (.make head [.strong]) ⟨rfl, by decide, rfl⟩ trivial 0 rfl
  have h₂ : Reached Op.Guarded twoNodes :=
    .perform h₁ acyclic_oneNode (.make second []) ⟨rfl, by decide, rfl⟩ trivial 0 rfl
  exact .perform h₂ acyclic_twoNodes (.moveAssign headNext second) ⟨by decide, by decide, rfl⟩ (.inr (.inr nofun)) 1
    perform_link

theorem Reached.mono {allowed allowed' : State → Op → Prop} (h : Reached allowed σ)
    (hle : ∀ σ op, allowed σ op → allowed' σ op) : Reached allowed' σ := by
  induction h with
  | init => exact .init
  | perform h ha op hp hg n hok ih => exact ih.perform ha op hp (hle _ op hg) n hok

/-- The list can be dropped from its head. -/
theorem linked_sound : Sound linked ∧ ∃ n σ', linked.perform n (.reset head) = .ok σ' := by
  obtain ⟨hsound, hperform⟩ := reached_sound reached_linked
  have hhead : head ∈ linked.dom := by decide
  exact ⟨hsound, hperform (.reset head) acyclic_linked hhead trivial⟩

example : (linked.perform 20 (.reset head)).map State.destroyed = .ok [0, 1] := rfl

/-- The head moved to its own successor: the source of the assignment is gone when it is read. -/
theorem unlink_reads_destroyed : ¬ ∀ (σ : State) (op : Op), Reached (fun _ _ => True) σ → σ.Acyclic → op.Proper σ →
    ∃ n σ', σ.perform n op = .ok σ' := by
  intro h
  obtain ⟨n, σ', hok⟩ := h linked (.moveAssign head headNext) (reached_linked.mono fun _ _ _ => trivial) acyclic_linked
    ⟨by decide, by decide, rfl⟩
  have hlong := perform_add (k := 20) (hok ▸ nofun : linked.perform n (.moveAssign head headNext) ≠ .error .fuel)
  have hfault : linked.perform (20 + n) (.moveAssign head headNext) = linked.perform 20 (.moveAssign head headNext) :=
    perform_add (by rw [perform_unlink]; nofun) n
  rw [Nat.add_comm, hlong, hok, perform_unlink] at hfault
  cases hfault

end Zpc.SharedPtr
