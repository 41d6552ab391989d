import Zpc.AlignedBlocks

/-!
# The stack allocator

Memory handed out upwards from the start of one upstream block and taken back in the
opposite order. A request that does not fit throws, but only after the head has moved.
-/
namespace Zpc
open AlignedBlocks

structure StackAllocator where
  data : ℕ
  head : ℕ
  tail : ℕ
  align : ℕ
  deriving DecidableEq

namespace StackAllocator
/-- What the upstream resource hands out: aligned bytes that end before the addresses do. -/
structure Upstream where
  data : ℕ
  total : ℕ
  align : ℕ
  align_dvd : align ∣ 2 ^ 64
  aligned : align ∣ data
  pos : 0 < data
  lt : data + total < 2 ^ 64

def create (mem : Upstream) : StackAllocator := ⟨mem.data, mem.data, mem.data + mem.total, mem.align⟩

/-- The block, none when `bad_alloc` is thrown, and the allocator afterwards. -/
def allocate (s : StackAllocator) (bytes : ℕ) : Option ℕ × StackAllocator :=
  let ret := (s.head + s.align - 1 - (s.head + s.align - 1) % 2 ^ 64 % s.align) % 2 ^ 64
  let s := {s with head := (ret + bytes) % 2 ^ 64}
  (if s.tail < s.head then none else some ret, s)

/-- None when `bad_alloc` is thrown, which leaves the allocator as it is. -/
def deallocate (s : StackAllocator) (p : ℕ) : Option StackAllocator :=
  if s.head ≤ p then none
  else if p < s.data then none
  else some {s with head := p}

def capacity (s : StackAllocator) : ℕ := (s.tail + 2 ^ 64 - s.data) % 2 ^ 64

def used (s : StackAllocator) : ℕ := (s.head + 2 ^ 64 - s.data) % 2 ^ 64

def available (s : StackAllocator) : ℕ := (s.tail + 2 ^ 64 - s.head) % 2 ^ 64

section Runs
inductive Op
  | allocate (bytes : ℕ)
  | deallocate

/-- An allocator with the blocks that are live, newest first. -/
structure Config where
  s : StackAllocator
  live : List Block

/-- Deallocations are made in stack order. The flag tells whether an allocation threw. -/
def Config.step (c : Config) : Op → Bool × Config
  | .allocate bytes =>
    match c.s.allocate bytes with
    | (some p, s) => (false, ⟨s, ⟨p, bytes⟩ :: c.live⟩)
    | (none, s) => (true, ⟨s, c.live⟩)
  | .deallocate =>
    match c.live with
    | [] => (false, c)
    | b :: live => (false, ⟨(c.s.deallocate b.start).getD c.s, live⟩)

structure Sound (c : Config) : Prop where
  aligned : ∀ b ∈ c.live, c.s.align ∣ b.start
  disjoint : c.live.Pairwise fun a b => Disjoint a.bytes b.bytes
  inside : ∀ b ∈ c.live, c.s.data ≤ b.start ∧ b.start + b.size ≤ c.s.tail
  account : c.s.used + c.s.available = c.s.capacity

def Room (s : StackAllocator) (bytes : ℕ) : Prop := roundUp s.head s.align + bytes ≤ s.tail

def Answers (c : Config) : Op → Prop
  | .allocate bytes => (c.s.Room bytes → (c.step (.allocate bytes)).1 = false) ∧
      ((c.step (.allocate bytes)).1 = true → (c.step (.allocate bytes)).2 = c)
  | .deallocate => True

def Safe (c : Config) : List Op → Prop
  | [] => Sound c
  | op :: ops => Sound c ∧ Answers c op ∧ Safe (c.step op).2 ops

def Accepts (s : StackAllocator) : Op → Prop
  | .allocate bytes => s.Room bytes
  | .deallocate => True

/-- Every allocation of the run fits when it is made. -/
def Fits (c : Config) : List Op → Prop
  | [] => True
  | op :: ops => c.s.Accepts op ∧ Fits (c.step op).2 ops

/-- The blocks lie in order between the start and the head. -/
structure Laid (c : Config) : Prop where
  align_dvd : c.s.align ∣ 2 ^ 64
  pos : 0 < c.s.data
  lt : c.s.tail < 2 ^ 64
  head_le : c.s.head ≤ c.s.tail
  stacked : Stacked c.s.data c.s.head c.live
  aligned : ∀ b ∈ c.live, c.s.align ∣ b.start

variable {s : StackAllocator} {c : Config} {bytes : ℕ}

theorem Laid.create (mem : Upstream) : Laid ⟨create mem, []⟩ where
  align_dvd := mem.align_dvd
  pos := mem.pos
  lt := mem.lt
  head_le := Nat.le_add_right _ _
  stacked := .nil (Nat.le_refl _)
  aligned := nofun

theorem align_pos (h : s.align ∣ 2 ^ 64) : 0 < s.align := Nat.pos_of_dvd_of_pos h (Nat.two_pow_pos 64)

/-- Rounding up goes around at the end of the addresses. -/
theorem allocate_eq (h : s.align ∣ 2 ^ 64) (bytes : ℕ) :
    s.allocate bytes =
      (if s.tail < (roundUp s.head s.align % 2 ^ 64 + bytes) % 2 ^ 64 then none
        else some (roundUp s.head s.align % 2 ^ 64),
        {s with head := (roundUp s.head s.align % 2 ^ 64 + bytes) % 2 ^ 64}) := by
  unfold allocate
  rw [Nat.mod_mod_of_dvd _ h]
  rfl

theorem step_allocate (h : c.s.align ∣ 2 ^ 64) (bytes : ℕ) :
    c.step (.allocate bytes) =
      if c.s.tail < (roundUp c.s.head c.s.align % 2 ^ 64 + bytes) % 2 ^ 64 then
        (true, ⟨{c.s with head := (roundUp c.s.head c.s.align % 2 ^ 64 + bytes) % 2 ^ 64}, c.live⟩)
      else
        (false, ⟨{c.s with head := (roundUp c.s.head c.s.align % 2 ^ 64 + bytes) % 2 ^ 64},
          ⟨roundUp c.s.head c.s.align % 2 ^ 64, bytes⟩ :: c.live⟩) := by
  unfold Config.step
  simp only [allocate_eq h]
  split_ifs <;> rfl

theorem Laid.sound (hc : Laid c) : Sound c where
  aligned := hc.aligned
  disjoint := hc.stacked.disjoint
  inside b hb := by
    have hin := hc.stacked.mem_le hb
    have hle := hc.head_le
    exact ⟨hin.1, by omega⟩
  account := by
    have hlo := hc.stacked.lo_le
    have hle := hc.head_le
    have hlt := hc.lt
    unfold used available capacity
    omega

theorem Laid.allocate_room (hc : Laid c) (hroom : c.s.Room bytes) :
    c.step (.allocate bytes) = (false, ⟨{c.s with head := roundUp c.s.head c.s.align + bytes},
      ⟨roundUp c.s.head c.s.align, bytes⟩ :: c.live⟩) := by
  have hlt := hc.lt
  unfold Room at hroom
  rw [step_allocate hc.align_dvd, Nat.mod_eq_of_lt (by omega : roundUp c.s.head c.s.align < 2 ^ 64),
    Nat.mod_eq_of_lt (by omega), if_neg (by omega)]

/-- A step that the allocator has room for. -/
theorem Laid.step (hc : Laid c) {op : Op} (hop : c.s.Accepts op) : Answers c op ∧ Laid (c.step op).2 := by
  cases op with
  | allocate bytes =>
    have hroom : c.s.Room bytes := hop
    have hstep := hc.allocate_room hroom
    have hle := le_roundUp (a := c.s.head) (align_pos hc.align_dvd)
    refine ⟨⟨fun _ => by rw [hstep], fun hthrown => absurd hthrown (by rw [hstep]; exact Bool.false_ne_true)⟩, ?_⟩
    rw [hstep]
    refine ⟨hc.align_dvd, hc.pos, hc.lt, hroom, .cons (hc.stacked.raise hle) (Nat.le_refl _), fun b hb => ?_⟩
    rcases List.mem_cons.mp hb with rfl | hb
    · exact dvd_roundUp _ _
    · exact hc.aligned b hb
  | deallocate =>
    refine ⟨trivial, ?_⟩
    obtain ⟨s, live⟩ := c
    cases live with
    | nil => exact hc
    | cons b live =>
      obtain ⟨hdvd, hpos, hlt, hle, hstacked, haligned⟩ := hc
      cases hstacked with
      | cons hrest hend =>
        have haligned' : ∀ b ∈ live, s.align ∣ b.start := fun a ha => haligned a (List.mem_cons_of_mem b ha)
        have hlo : s.data ≤ b.start := hrest.lo_le
        have hend : b.start + b.size ≤ s.head := hend
        have hle : s.head ≤ s.tail := hle
        simp only [Config.step, deallocate]
        split_ifs with hempty hlow
        · -- the newest block is empty and nothing is taken back
          have hbelow : b.start ≤ s.head := by omega
          exact ⟨hdvd, hpos, hlt, hle, hrest.raise hbelow, haligned'⟩
        · omega
        · have hbelow : b.start ≤ s.tail := by omega
          exact ⟨hdvd, hpos, hlt, hbelow, hrest, haligned'⟩

/-- Without room the block lies outside, or the head has moved although the call failed. -/
theorem Laid.no_room (hc : Laid c) (hroom : ¬ c.s.Room bytes) :
    ¬ (Answers c (.allocate bytes) ∧ Sound (c.step (.allocate bytes)).2) := by
  have hle := hc.head_le
  have hlt := hc.lt
  have hpos := hc.pos
  unfold Room at hroom
  intro ⟨⟨_, hkept⟩, hsound⟩
  have hup := roundUp_le (a := c.s.head) hc.align_dvd (by omega) (align_pos hc.align_dvd)
  rw [step_allocate hc.align_dvd] at hkept hsound
  split_ifs at hkept hsound with hthrown
  · have hsame := congrArg (fun c => c.s.head) (hkept rfl)
    simp only at hsame
    omega
  · have hin := hsound.inside _ List.mem_cons_self
    simp only at hin
    omega

theorem Safe.sound {ops : List Op} (h : Safe c ops) : Sound c := by
  cases ops with
  | nil => exact h
  | cons op ops => exact h.1

theorem Laid.safe_iff (hc : Laid c) (ops : List Op) : Safe c ops ↔ Fits c ops := by
  induction ops generalizing c with
  | nil => exact ⟨fun _ => trivial, fun _ => hc.sound⟩
  | cons op ops ih =>
    constructor
    · intro ⟨hsound, hanswers, hsafe⟩
      have hop : c.s.Accepts op := by
        cases op with
        | allocate bytes =>
          by_contra hroom
          exact hc.no_room hroom ⟨hanswers, hsafe.sound⟩
        | deallocate => trivial
      exact ⟨hop, (ih (hc.step hop).2).mp hsafe⟩
    · intro ⟨hop, hfits⟩
      have hstep := hc.step hop
      exact ⟨hc.sound, hstep.1, (ih hstep.2).mpr hfits⟩

theorem run_safe_iff (mem : Upstream) (ops : List Op) : Safe ⟨create mem, []⟩ ops ↔ Fits ⟨create mem, []⟩ ops :=
  (Laid.create mem).safe_iff ops

end Runs

section Example
theorem eight_dvd : 8 ∣ 2 ^ 64 := by decide

def someBytes : Upstream := ⟨64, 64, 8, eight_dvd, by decide, by decide, by decide⟩

/-- After a request for 100 bytes of 64 there is no room for the 8 that would have fitted. -/
theorem failed_allocate_keeps_head : ¬ ∀ ops : List Op, Safe ⟨create someBytes, []⟩ ops := by
  intro hall
  have hfits := ((Laid.create someBytes).safe_iff _).mp (hall [.allocate 100, .allocate 8])
  exact absurd hfits.1 (show ¬ (64 + 100 ≤ 128) by decide)

end Example
end StackAllocator
end Zpc
