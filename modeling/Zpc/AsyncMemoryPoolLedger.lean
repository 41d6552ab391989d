import Zpc.AsyncMemoryPool

/-!
# The ledger of a pool

A ledger says which slots are on which free list, in which cache, in the hands of which call, and held by a user of the pool.
Every slot of every slab is in one place, and each thing that the pool does with a slot moves it from one place to another.
-/
namespace Zpc.AsyncObjectPool
open LinkedStack

inductive Place (ι τ : Type)
  | nowhere
  | free (pool : ι)
  | cached (t : τ)
  | hands (t : τ)
  | held (pool : ι)

/-- Where slots are. In the hands of a thread each comes with the pool that it goes back to. -/
structure Ledger (ι τ : Type) where
  next : Slot ι → Option (Slot ι)
  freeList : ι → Option (Slot ι)
  slabs : ι → ℕ
  cache : τ → LocalCache ι
  held : ι → List (Slot ι)
  hands : τ → List (ι × Slot ι)

variable {ι τ : Type} {l l' : Ledger ι τ} {place : Slot ι → Place ι τ} {t u : τ} {p : ι} {x : Slot ι} {q b : Place ι τ}
  {hs : List (ι × Slot ι)} {n i : ℕ}

def slotsFrom (n : ℕ) (pool : ι) (slab index : ℕ) : List (Slot ι) :=
  (List.range' index (n - index)).map (⟨pool, slab, ·⟩)

theorem mem_slotsFrom {slab index : ℕ} :
    x ∈ slotsFrom n p slab index ↔ x.pool = p ∧ x.slab = slab ∧ index ≤ x.index ∧ x.index < n := by
  cases x
  grind [slotsFrom]

theorem nodup_slotsFrom (n : ℕ) (p : ι) (slab index : ℕ) : (slotsFrom n p slab index).Nodup := by
  apply (List.nodup_range' ..).map
  intro i j he
  exact congrArg Slot.index he

theorem slotsFrom_eq (hi : i < n) (p : ι) (slab : ℕ) :
    slotsFrom n p slab i = ⟨p, slab, i⟩ :: slotsFrom n p slab (i + 1) := by
  unfold slotsFrom
  rw [show n - i = n - (i + 1) + 1 by omega, List.range'_succ, List.map_cons]

theorem slotsFrom_nil (hi : n ≤ i) (p : ι) (slab : ℕ) : slotsFrom n p slab i = [] := by
  unfold slotsFrom
  rw [Nat.sub_eq_zero_of_le hi, List.range'_zero, List.map_nil]

theorem snd_pairs (p : ι) (xs : List (Slot ι)) : (xs.map (p, ·)).map Prod.snd = xs := by
  rw [List.map_map]
  exact List.map_id xs

namespace Ledger
/-- What is at a place is what the map says is there. -/
def Right (l : Ledger ι τ) (place : Slot ι → Place ι τ) : Place ι τ → Prop
  | .nowhere => True
  | .free p => (∃ xs, IsStack l.next place (.free p) (l.freeList p) xs) ∧ ∀ x, place x = .free p → x.pool = p
  | .cached t =>
    (∃ xs, IsStack l.next place (.cached t) (l.cache t).head xs ∧ xs.length = (l.cache t).count) ∧
      ∀ x, place x = .cached t → (l.cache t).owner = some x.pool
  | .hands t => Owns place (.hands t) ((l.hands t).map Prod.snd) ∧ ∀ h ∈ l.hands t, h.2.pool = h.1
  | .held p => Owns place (.held p) (l.held p) ∧ ∀ x, place x = .held p → x.pool = p

structure PlacedBy (n : ℕ) (l : Ledger ι τ) (place : Slot ι → Place ι τ) : Prop where
  allocated : ∀ x, place x ≠ .nowhere ↔ x.slab < l.slabs x.pool ∧ x.index < n
  right : ∀ q, l.Right place q

def Kept (n : ℕ) (l : Ledger ι τ) : Prop := ∃ place, l.PlacedBy n place

/-- The two ledgers have the same at the place. -/
def Same (l l' : Ledger ι τ) : Place ι τ → Prop
  | .nowhere => True
  | .free p => l'.freeList p = l.freeList p
  | .cached t => l'.cache t = l.cache t
  | .hands t => l'.hands t = l.hands t
  | .held p => l'.held p = l.held p

theorem Right.congr (h : l.Right place q) (hn : l'.next = l.next) (hs : Same l l' q) : l'.Right place q := by
  cases q with
  | nowhere => trivial
  | free p =>
    have hs : l'.freeList p = l.freeList p := hs
    simp only [Right, hn, hs]
    exact h
  | cached t =>
    have hs : l'.cache t = l.cache t := hs
    simp only [Right, hn, hs]
    exact h
  | hands t =>
    have hs : l'.hands t = l.hands t := hs
    simp only [Right, hs]
    exact h
  | held p =>
    have hs : l'.held p = l.held p := hs
    simp only [Right, hs]
    exact h

/-- A map that puts the same slots there says the same of the place. -/
theorem Right.replace {place' : Slot ι → Place ι τ} (h : l.Right place q) (hp : ∀ y, place' y = q ↔ place y = q) :
    l.Right place' q := by
  have howns : ∀ xs, Owns place q xs → Owns place' q xs := fun xs ho => ⟨ho.nodup, fun y => (ho.mem_iff y).trans (hp y).symm⟩
  cases q with
  | nowhere => trivial
  | free p =>
    have ⟨⟨xs, hs⟩, hpool⟩ := h
    exact ⟨⟨xs, hs.chain, howns xs hs.owns⟩, fun y hy => hpool y ((hp y).mp hy)⟩
  | cached t =>
    have ⟨⟨xs, hs, hc⟩, hpool⟩ := h
    exact ⟨⟨xs, ⟨hs.chain, howns xs hs.owns⟩, hc⟩, fun y hy => hpool y ((hp y).mp hy)⟩
  | hands t => exact ⟨howns _ h.1, h.2⟩
  | held p => exact ⟨howns _ h.1, fun y hy => h.2 y ((hp y).mp hy)⟩

theorem PlacedBy.place_hands (h : l.PlacedBy n place) (hx : (p, x) ∈ l.hands t) : place x = .hands t :=
  (h.right (.hands t)).1.place_eq (List.mem_map_of_mem hx)

theorem PlacedBy.place_held (h : l.PlacedBy n place) (hx : x ∈ l.held p) : place x = .held p :=
  (h.right (.held p)).1.place_eq hx

theorem Right.head (h : l.Right place (.hands t)) (hx : l.hands t = (p, x) :: hs) : place x = .hands t ∧ x.pool = p := by
  have ⟨ho, hp⟩ := h
  rw [hx] at ho hp
  exact ⟨ho.place_eq List.mem_cons_self, hp (p, x) List.mem_cons_self⟩

theorem Kept.count_eq_zero (h : l.Kept n) (ht : (l.cache t).head = none) : (l.cache t).count = 0 := by
  have ⟨_, h⟩ := h
  have ⟨⟨xs, hs, hlen⟩, _⟩ := h.right (.cached t)
  rw [ht] at hs
  rw [← hlen, hs.chain.eq_nil, List.length_nil]

theorem Kept.count_pos (h : l.Kept n) (ht : (l.cache t).head = some x) : 0 < (l.cache t).count := by
  have ⟨_, h⟩ := h
  have ⟨⟨xs, hs, hlen⟩, _⟩ := h.right (.cached t)
  rw [ht] at hs
  have ⟨xs', he, _⟩ := hs.chain.eq_cons
  rw [← hlen, he, List.length_cons]
  exact Nat.succ_pos _

theorem Kept.hands_disjoint (h : l.Kept n) {p' : ι} (hx : (p, x) ∈ l.hands t) (hy : (p', x) ∈ l.hands u) : t = u := by
  have ⟨place, h⟩ := h
  have he := (h.place_hands hx).symm.trans (h.place_hands hy)
  exact Place.hands.inj he

theorem Kept.held_disjoint (h : l.Kept n) {p' : ι} (hx : x ∈ l.held p) (hy : (p', x) ∈ l.hands u) : False := by
  have ⟨place, h⟩ := h
  have he := (h.place_held hx).symm.trans (h.place_hands hy)
  cases he

variable [DecidableEq ι]

theorem forall_come {P : Slot ι → Prop} (h : ∀ y, place y = b → P y) (hx : P x) :
    ∀ y, Function.update place x b y = b → P y := by
  intro y hy
  by_cases he : y = x
  · exact he ▸ hx
  · rw [Function.update_of_ne he] at hy
    exact h y hy

theorem forall_left {P : Slot ι → Prop} (h : ∀ y, place y = q → P y) (hb : b ≠ q) :
    ∀ y, Function.update place x b y = q → P y := by
  intro y hy
  by_cases he : y = x
  · subst he
    rw [Function.update_self] at hy
    exact absurd hy hb
  · rw [Function.update_of_ne he] at hy
    exact h y hy

theorem Right.keep (h : l.Right place q) (hx : place x ≠ q) (hb : b ≠ q) : l.Right (Function.update place x b) q := by
  apply h.replace
  intro y
  by_cases hy : y = x
  · subst hy
    rw [Function.update_self]
    exact iff_of_false hb hx
  · rw [Function.update_of_ne hy]

/-- To move a slot it is enough to see to the place it leaves and the place it comes to. -/
theorem PlacedBy.move (h : l.PlacedBy n place) (hn : l'.next = l.next) (hslabs : l'.slabs = l.slabs)
    (hsame : ∀ q, place x ≠ q → b ≠ q → Same l l' q) (hx : place x ≠ .nowhere) (hb : b ≠ .nowhere)
    (hleft : l'.Right (Function.update place x b) (place x)) (hcome : l'.Right (Function.update place x b) b) :
    l'.PlacedBy n (Function.update place x b) where
  allocated y := by
    rw [hslabs, ← h.allocated]
    by_cases hy : y = x
    · subst hy
      rw [Function.update_self]
      exact iff_of_true hb hx
    · rw [Function.update_of_ne hy]
  right q := by
    by_cases hxq : place x = q
    · exact hxq ▸ hleft
    · by_cases hbq : b = q
      · exact hbq ▸ hcome
      · exact ((h.right q).keep hxq hbq).congr hn (hsame q hxq hbq)

theorem Right.left (h : l.Right place (.hands t)) (hx : l.hands t = (p, x) :: hs) (hb : b ≠ .hands t)
    (he : l'.hands t = hs) : l'.Right (Function.update place x b) (.hands t) := by
  have ⟨ho, hp⟩ := h
  rw [hx] at ho hp
  refine ⟨?_, ?_⟩
  · rw [he]
    exact ho.take hb
  · rw [he]
    exact fun y hy => hp y (List.mem_cons_of_mem _ hy)

theorem Right.come (h : l.Right place (.hands t)) (hp : x.pool = p) (hx : place x ≠ .hands t)
    (he : l'.hands t = (p, x) :: l.hands t) : l'.Right (Function.update place x (.hands t)) (.hands t) := by
  refine ⟨?_, ?_⟩
  · rw [he]
    exact h.1.put hx
  · rw [he]
    exact List.forall_mem_cons.mpr ⟨hp, h.2⟩

/-- A link is written in a slot that is in the hands of a call or held. -/
theorem Kept.write (h : l.Kept n) (hx : (∃ t p, (p, x) ∈ l.hands t) ∨ ∃ p, x ∈ l.held p) (v : Option (Slot ι)) :
    Kept n {l with next := Function.update l.next x v} := by
  have ⟨place, h⟩ := h
  have hplace : (∃ t, place x = .hands t) ∨ ∃ p, place x = .held p := by
    cases hx with
    | inl hx =>
      have ⟨t, p, hx⟩ := hx
      exact .inl ⟨t, h.place_hands hx⟩
    | inr hx =>
      have ⟨p, hx⟩ := hx
      exact .inr ⟨p, h.place_held hx⟩
  refine ⟨place, h.allocated, fun q => ?_⟩
  cases q with
  | nowhere => trivial
  | free p =>
    have ⟨⟨xs, hs⟩, hp⟩ := h.right (.free p)
    exact ⟨⟨xs, hs.write (by grind) v⟩, hp⟩
  | cached t =>
    have ⟨⟨xs, hs, hc⟩, hp⟩ := h.right (.cached t)
    exact ⟨⟨xs, hs.write (by grind) v, hc⟩, hp⟩
  | hands t => exact h.right (.hands t)
  | held p => exact h.right (.held p)

/-- A new slab, all of it in the hands of the call that allocated it. -/
theorem Kept.allocate [DecidableEq τ] (h : l.Kept n) (ht : l.hands t = []) :
    Kept n {l with
      slabs := Function.update l.slabs p (l.slabs p + 1)
      hands := Function.update l.hands t ((slotsFrom n p (l.slabs p) 0).map (p, ·))} := by
  obtain ⟨place, h⟩ := h
  have hnone : ∀ x, place x ≠ .hands t := by
    intro x hx
    have hm := ((h.right (.hands t)).1.mem_iff x).mpr hx
    rw [ht] at hm
    cases hm
  have hfresh : ∀ x ∈ slotsFrom n p (l.slabs p) 0, place x = .nowhere := by
    intro x hx
    obtain ⟨hp, hs, _⟩ := mem_slotsFrom.mp hx
    by_contra hplace
    have hlt := ((h.allocated x).mp hplace).1
    rw [hp, hs] at hlt
    exact lt_irrefl _ hlt
  refine ⟨fun x => if x ∈ slotsFrom n p (l.slabs p) 0 then .hands t else place x, fun x => ?_, fun q => ?_⟩
  · have hx := h.allocated x
    have hm := @mem_slotsFrom _ p x n (l.slabs p) 0
    grind
  · by_cases hq : q = .hands t
    · subst hq
      refine ⟨?_, ?_⟩
      · simp only [Function.update_self, snd_pairs]
        refine ⟨nodup_slotsFrom .., fun x => ?_⟩
        have := hnone x
        grind
      · simp only [Function.update_self]
        intro y hy
        obtain ⟨x, hx, he⟩ := List.mem_map.mp hy
        exact he ▸ (mem_slotsFrom.mp hx).1
    · by_cases hw : q = .nowhere
      · subst hw
        trivial
      · refine ((h.right q).replace fun y => ?_).congr rfl ?_
        · have := hfresh y
          grind
        · cases q <;> grind [Same]

section Moves
variable [DecidableEq τ]

theorem Kept.localPop (h : l.Kept n) (hhead : (l.cache t).head = some x) (ho : (l.cache t).owner = some p)
    (hc : (l.cache t).count < 2 ^ 64) :
    Kept n {l with
      cache := Function.update l.cache t ((l.cache t).popped (l.next x))
      hands := Function.update l.hands t ((p, x) :: l.hands t)} := by
  have ⟨place, h⟩ := h
  have ⟨⟨xs, hs, hlen⟩, hp⟩ := h.right (.cached t)
  rw [hhead] at hs
  have ⟨xs', he, hx, hs'⟩ := hs.pop (q := .hands t) (by simp)
  have hhands := h.right (.hands t)
  refine ⟨_, h.move (x := x) (b := .hands t) rfl rfl ?_ (by simp [hx]) (by simp) ?_ ?_⟩
  · intro q hxq hbq
    cases q <;> grind [Same]
  · rw [hx]
    refine ⟨⟨xs', ?_, ?_⟩, ?_⟩
    · simp only [Function.update_self]
      exact hs'
    · simp only [Function.update_self, LocalCache.popped]
      rw [he, List.length_cons] at hlen
      omega
    · simp only [Function.update_self]
      exact forall_left hp (by simp)
  · have hpool := hp x hx
    rw [ho] at hpool
    exact hhands.come (Option.some.inj hpool).symm (by simp [hx]) (Function.update_self ..)

theorem Kept.localPush (h : l.Kept n) (hx : l.hands t = (p, x) :: hs) (hn : l.next x = (l.cache t).head)
    (ho : (l.cache t).owner = some p) (hc : (l.cache t).count + 1 < 2 ^ 64) :
    Kept n {l with
      cache := Function.update l.cache t ((l.cache t).pushed x)
      hands := Function.update l.hands t hs} := by
  have ⟨place, h⟩ := h
  have ⟨⟨xs, hstack, hlen⟩, hp⟩ := h.right (.cached t)
  have hhands := h.right (.hands t)
  have ⟨hplace, hpool⟩ := hhands.head hx
  refine ⟨_, h.move (x := x) (b := .cached t) rfl rfl ?_ (by simp [hplace]) (by simp) ?_ ?_⟩
  · intro q hxq hbq
    cases q <;> grind [Same]
  · rw [hplace]
    exact hhands.left hx (by simp) (Function.update_self ..)
  · refine ⟨⟨x :: xs, ?_, ?_⟩, ?_⟩
    · simp only [Function.update_self]
      exact hstack.push (by simp [hplace]) hn
    · simp only [Function.update_self, LocalCache.pushed, List.length_cons]
      omega
    · simp only [Function.update_self]
      apply forall_come hp
      exact ho.trans (congrArg some hpool.symm)

theorem Kept.push (h : l.Kept n) (hx : l.hands t = (p, x) :: hs) (hn : l.next x = l.freeList p) :
    Kept n {l with
      freeList := Function.update l.freeList p (some x)
      hands := Function.update l.hands t hs} := by
  have ⟨place, h⟩ := h
  have ⟨⟨xs, hstack⟩, hp⟩ := h.right (.free p)
  have hhands := h.right (.hands t)
  have ⟨hplace, hpool⟩ := hhands.head hx
  refine ⟨_, h.move (x := x) (b := .free p) rfl rfl ?_ (by simp [hplace]) (by simp) ?_ ?_⟩
  · intro q hxq hbq
    cases q <;> grind [Same]
  · rw [hplace]
    exact hhands.left hx (by simp) (Function.update_self ..)
  · refine ⟨⟨x :: xs, ?_⟩, ?_⟩
    · simp only [Function.update_self]
      exact hstack.push (by simp [hplace]) hn
    · exact forall_come hp hpool

theorem Kept.pop (h : l.Kept n) (hx : l.freeList p = some x) :
    Kept n {l with
      freeList := Function.update l.freeList p (l.next x)
      hands := Function.update l.hands t ((p, x) :: l.hands t)} := by
  have ⟨place, h⟩ := h
  have ⟨⟨xs, hs⟩, hp⟩ := h.right (.free p)
  rw [hx] at hs
  have ⟨xs', _, hplace, hs'⟩ := hs.pop (q := .hands t) (by simp)
  have hhands := h.right (.hands t)
  refine ⟨_, h.move (x := x) (b := .hands t) rfl rfl ?_ (by simp [hplace]) (by simp) ?_ ?_⟩
  · intro q hxq hbq
    cases q <;> grind [Same]
  · rw [hplace]
    refine ⟨⟨xs', ?_⟩, forall_left hp (by simp)⟩
    simp only [Function.update_self]
    exact hs'
  · exact hhands.come (hp x hplace) (by simp [hplace]) (Function.update_self ..)

/-- A slot goes to a holder. -/
theorem Kept.hold (h : l.Kept n) (hx : l.hands t = (p, x) :: hs) :
    Kept n {l with
      held := Function.update l.held p (x :: l.held p)
      hands := Function.update l.hands t hs} := by
  have ⟨place, h⟩ := h
  have ⟨hheld, hp⟩ := h.right (.held p)
  have hhands := h.right (.hands t)
  have ⟨hplace, hpool⟩ := hhands.head hx
  refine ⟨_, h.move (x := x) (b := .held p) rfl rfl ?_ (by simp [hplace]) (by simp) ?_ ?_⟩
  · intro q hxq hbq
    cases q <;> grind [Same]
  · rw [hplace]
    exact hhands.left hx (by simp) (Function.update_self ..)
  · refine ⟨?_, forall_come hp hpool⟩
    simp only [Function.update_self]
    exact hheld.put (by simp [hplace])

/-- A holder gives a slot up. -/
theorem Kept.giveUp (h : l.Kept n) (hx : x ∈ l.held p) :
    Kept n {l with
      held := Function.update l.held p ((l.held p).erase x)
      hands := Function.update l.hands t ((p, x) :: l.hands t)} := by
  have ⟨place, h⟩ := h
  have ⟨hheld, hp⟩ := h.right (.held p)
  have hhands := h.right (.hands t)
  have hplace := h.place_held hx
  refine ⟨_, h.move (x := x) (b := .hands t) rfl rfl ?_ (by simp [hplace]) (by simp) ?_ ?_⟩
  · intro q hxq hbq
    cases q <;> grind [Same]
  · rw [hplace]
    refine ⟨?_, forall_left hp (by simp)⟩
    simp only [Function.update_self]
    exact hheld.erase (by simp)
  · exact hhands.come (hp x hplace) (by simp [hplace]) (Function.update_self ..)

omit [DecidableEq ι] in
/-- An empty cache passes to another pool. -/
theorem Kept.rebind (h : l.Kept n) (he : (l.cache t).owner = none ∨ (l.cache t).head = none ∨ (l.cache t).count = 0) :
    Kept n {l with cache := Function.update l.cache t {owner := some p}} := by
  have ⟨place, h⟩ := h
  have ⟨⟨xs, hs, hlen⟩, hp⟩ := h.right (.cached t)
  have hnil : xs = [] := by
    cases hxs : xs with
    | nil => rfl
    | cons x xs =>
      rw [hxs] at hs hlen
      rcases he with he | he | he
      · have := hp x (hs.owns.place_eq List.mem_cons_self)
        rw [he] at this
        cases this
      · have := hs.chain.1
        rw [he] at this
        cases this
      · rw [he] at hlen
        cases hlen
  subst hnil
  have hnone : ∀ x, place x ≠ .cached t := fun x hx => List.not_mem_nil ((hs.owns.mem_iff x).mpr hx)
  refine ⟨place, h.allocated, fun q => ?_⟩
  by_cases hq : q = .cached t
  · subst hq
    refine ⟨⟨[], ⟨?_, hs.owns⟩, ?_⟩, fun x hx => absurd hx (hnone x)⟩
    · simp only [Function.update_self]
      rfl
    · simp only [Function.update_self]
      rfl
  · refine (h.right q).congr rfl ?_
    cases q <;> grind [Same]

end Moves

end Ledger
end Zpc.AsyncObjectPool
