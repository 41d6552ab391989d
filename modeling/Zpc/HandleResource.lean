import Zpc.AlignedBlocks

/-!
# The handle resource

Blocks that are kept as offsets into one buffer of an upstream resource. When a request does
not fit the buffer is replaced by a larger one and its bytes are copied. The upstream resource
may answer with any address that its contract allows.
-/
namespace Zpc
open AlignedBlocks

/-- The handle is 0 before there is a buffer. -/
structure HandleResource where
  bufSize : ℕ
  align : ℕ
  handle : ℕ
  head : ℕ
  deriving DecidableEq

namespace HandleResource
abbrev Memory := ℕ → UInt8

abbrev Alignment := {a : ℕ // a ∣ 2 ^ 64}

/-- What the upstream resource is asked for, with the address of the block. -/
structure Grant where
  ptr : ℕ
  bytes : ℕ
  alignment : ℕ
  deriving DecidableEq

inductive Event
  | allocated (g : Grant)
  | freed (g : Grant)

/-- A call: the block, none when an exception leaves it, and the state afterwards. -/
structure Outcome where
  ret : Option ℕ
  r : HandleResource
  mem : Memory
  events : List Event

def create (initSize : ℕ) : HandleResource := ⟨initSize, 0, 0, 0⟩

/-- Nothing is known of the memory after a copy between ranges that overlap. -/
def memcpy (mem : Memory) (dst src n : ℕ) : Memory :=
  if dst + n ≤ src ∨ src + n ≤ dst then fun a => if dst ≤ a ∧ a < dst + n then mem (src + (a - dst)) else mem a
  else fun _ => 0

def alignedHead (r : HandleResource) (alignment : ℕ) : ℕ :=
  (r.head + alignment - 1 - (r.head + alignment - 1) % 2 ^ 64 % alignment) % 2 ^ 64

def newHead (r : HandleResource) (bytes alignment : ℕ) : ℕ := (r.alignedHead alignment + bytes) % 2 ^ 64

def grownSize (r : HandleResource) (bytes alignment : ℕ) : ℕ :=
  (r.newHead bytes alignment + 2 ^ 64 - r.handle) % 2 ^ 64 * 2 % 2 ^ 64

/-- The first request asks for a buffer. -/
def ensure (r : HandleResource) (alignment : ℕ) (initial : Option ℕ) : Option (HandleResource × List Event) :=
  if r.handle = 0 then
    initial.map fun base =>
      ({r with handle := base, head := base, align := alignment}, [.allocated ⟨base, r.bufSize, alignment⟩])
  else some (r, [])

/-- The size and the alignment are recorded before the upstream resource is asked. -/
def grow (r : HandleResource) (mem : Memory) (bytes alignment : ℕ) (growth : Option ℕ) : Outcome :=
  let offset := (r.alignedHead alignment + 2 ^ 64 - r.handle) % 2 ^ 64
  let bufSize := r.grownSize bytes alignment
  match growth with
  | none => ⟨none, ⟨bufSize, alignment, r.handle, r.newHead bytes alignment⟩, mem, []⟩
  | some base =>
    let ret := (base + offset) % 2 ^ 64
    ⟨some ret, ⟨bufSize, alignment, base, (ret + bytes) % 2 ^ 64⟩, memcpy mem base r.handle r.bufSize,
      [.allocated ⟨base, bufSize, alignment⟩, .freed ⟨r.handle, r.bufSize, alignment⟩]⟩

def take (r : HandleResource) (mem : Memory) (bytes alignment : ℕ) (growth : Option ℕ) : Outcome :=
  if r.newHead bytes alignment ≤ (r.handle + r.bufSize) % 2 ^ 64 then
    ⟨some (r.alignedHead alignment), {r with head := r.newHead bytes alignment}, mem, []⟩
  else r.grow mem bytes alignment growth

def doAllocate (r : HandleResource) (mem : Memory) (bytes alignment : ℕ) (initial growth : Option ℕ) : Outcome :=
  match r.ensure alignment initial with
  | none => ⟨none, r, mem, []⟩
  | some (r, events) =>
    {r.take mem bytes alignment growth with events := events ++ (r.take mem bytes alignment growth).events}

/-- None when `bad_alloc` is thrown, which leaves the resource as it is. -/
def doDeallocate (r : HandleResource) (p : ℕ) : Option HandleResource :=
  if r.head ≤ p then none
  else if p < r.handle then none
  else some {r with head := p}

/-- What the destructor asks for. -/
def destroy (r : HandleResource) : List Event := if r.handle = 0 then [] else [.freed ⟨r.handle, r.bufSize, r.align⟩]

section Runs
/-- A request carries what the upstream resource answers, should it be asked. -/
inductive Op
  | allocate (bytes : ℕ) (alignment : Alignment) (initial growth : Option ℕ)
  | deallocate
  | write (offset : ℕ) (value : UInt8)

/-- A resource with the offset ranges of the live blocks, newest first, and the upstream requests so far. -/
structure Config where
  r : HandleResource
  mem : Memory
  live : List Block
  log : List Event

/-- The block returned is recorded by its offset. -/
def Config.record (c : Config) (bytes : ℕ) (o : Outcome) : Config :=
  match o.ret with
  | none => ⟨o.r, o.mem, c.live, c.log ++ o.events⟩
  | some p => ⟨o.r, o.mem, ⟨(p + 2 ^ 64 - o.r.handle) % 2 ^ 64, bytes⟩ :: c.live, c.log ++ o.events⟩

/-- Deallocations are made in stack order, writes go to live blocks. -/
def Config.step (c : Config) : Op → Config
  | .allocate bytes alignment initial growth => c.record bytes (c.r.doAllocate c.mem bytes alignment initial growth)
  | .deallocate =>
    match c.live with
    | [] => c
    | b :: live => {c with r := (c.r.doDeallocate (c.r.handle + b.start)).getD c.r, live := live}
  | .write offset value =>
    if c.live.any fun b => b.start ≤ offset && offset < b.start + b.size then
      {c with mem := fun a => if a = c.r.handle + offset then value else c.mem a}
    else c

def settle : List Grant → List Event → Option (List Grant)
  | out, [] => some out
  | out, .allocated g :: events => settle (g :: out) events
  | out, .freed g :: events => if g ∈ out then settle (out.erase g) events else none

structure Sound (c : Config) : Prop where
  disjoint : c.live.Pairwise fun a b => Disjoint a.bytes b.bytes
  inside : ∀ b ∈ c.live, b.start + b.size ≤ c.r.bufSize
  settled : settle [] (c.log ++ c.r.destroy) = some []

/-- The block is aligned where it is returned, and the older blocks keep their contents. -/
structure Fair (c : Config) (alignment : Alignment) (o : Outcome) : Prop where
  aligned : ∀ p, o.ret = some p → alignment.val ∣ p
  kept : ∀ b ∈ c.live, ∀ x ∈ b.bytes, o.mem (o.r.handle + x) = c.mem (c.r.handle + x)

def Answers (c : Config) : Op → Prop
  | .allocate bytes alignment initial growth => Fair c alignment (c.r.doAllocate c.mem bytes alignment initial growth)
  | _ => True

def Safe (c : Config) : List Op → Prop
  | [] => Sound c
  | op :: ops => Sound c ∧ Answers c op ∧ Safe (c.step op) ops

/-- The contract of an upstream block. -/
structure Granted (base bytes alignment : ℕ) : Prop where
  pos : 0 < base
  aligned : alignment ∣ base
  lt : base + bytes < 2 ^ 64

/-- The upstream resource keeps its contract when it is asked: a new buffer lies apart from
the one it replaces. -/
def Honest (c : Config) : Op → Prop
  | .allocate bytes alignment initial growth =>
    (c.r.handle = 0 → ∀ base, initial = some base → Granted base c.r.bufSize alignment) ∧
      ∀ r events, c.r.ensure alignment initial = some (r, events) → ∀ base, growth = some base →
        Granted base (r.grownSize bytes alignment) alignment ∧
          (base + r.grownSize bytes alignment ≤ r.handle ∨ r.handle + r.bufSize ≤ base)
  | _ => True

/-- The request fits, or the buffer grows for a request of its own alignment, which the
upstream resource can answer, without an overflow of the sizes. -/
def Accepts (c : Config) : Op → Prop
  | .allocate bytes alignment initial growth =>
    ∀ r events, c.r.ensure alignment initial = some (r, events) →
      roundUp r.head alignment + bytes ≤ r.handle + r.bufSize ∨
        (alignment.val = r.align ∧ growth.isSome ∧ roundUp r.head alignment + bytes < 2 ^ 64 ∧
          2 * (roundUp r.head alignment + bytes - r.handle) < 2 ^ 64)
  | _ => True

/-- A condition on every step of a run. -/
def Along (step : Config → Op → Prop) (c : Config) : List Op → Prop
  | [] => True
  | op :: ops => step c op ∧ Along step (c.step op) ops

/-- There is a buffer, and the blocks lie in order between its start and the head. -/
structure Ready (r : HandleResource) (live : List Block) (log : List Event) : Prop where
  pos : 0 < r.handle
  aligned : r.align ∣ r.handle
  lt : r.handle + r.bufSize < 2 ^ 64
  low : r.handle ≤ r.head
  high : r.head ≤ r.handle + r.bufSize
  stacked : Stacked 0 (r.head - r.handle) live
  settled : settle [] log = some [⟨r.handle, r.bufSize, r.align⟩]

def Laid (c : Config) : Prop := (c.r.handle = 0 ∧ c.live = [] ∧ settle [] c.log = some []) ∨ Ready c.r c.live c.log

variable {r : HandleResource} {c : Config} {live : List Block} {log events events' : List Event} {out out' : List Grant}
  {mem : Memory} {bytes : ℕ} {alignment : Alignment} {initial growth : Option ℕ}

theorem settle_append (h : settle out events = some out') : settle out (events ++ events') = settle out' events' := by
  induction events generalizing out with
  | nil => rw [List.nil_append, Option.some_inj.mp h]
  | cons event events ih =>
    cases event with
    | allocated g => exact ih h
    | freed g =>
      unfold settle at h
      split_ifs at h with hg
      rw [List.cons_append, settle, if_pos hg]
      exact ih h

theorem Laid.create (initSize : ℕ) (mem : Memory) : Laid ⟨create initSize, mem, [], []⟩ := .inl ⟨rfl, rfl, rfl⟩

theorem Laid.sound (hc : Laid c) : Sound c := by
  rcases hc with ⟨hnull, hlive, hlog⟩ | hready
  · refine ⟨by rw [hlive]; exact .nil, by rw [hlive]; exact nofun, ?_⟩
    rw [settle_append hlog, destroy, if_pos hnull]
    rfl
  · refine ⟨hready.stacked.disjoint, fun b hb => ?_, ?_⟩
    · have hin := hready.stacked.mem_le hb
      have hhigh := hready.high
      omega
    · rw [settle_append hready.settled, destroy, if_neg (Nat.ne_of_gt hready.pos), settle, if_pos List.mem_cons_self,
        List.erase_cons_head]
      rfl

theorem alignedHead_eq (r : HandleResource) (alignment : Alignment) :
    r.alignedHead alignment = roundUp r.head alignment % 2 ^ 64 := by
  unfold alignedHead
  rw [Nat.mod_mod_of_dvd _ alignment.property]
  rfl

theorem alignment_pos (alignment : Alignment) : 0 < alignment.val :=
  Nat.pos_of_dvd_of_pos alignment.property (Nat.two_pow_pos 64)

/-- The head, once it is aligned and moved without going around. -/
theorem Ready.heads (hr : Ready r live log) (bytes : ℕ) (alignment : Alignment)
    (hlt : roundUp r.head alignment + bytes < 2 ^ 64) :
    r.alignedHead alignment = roundUp r.head alignment ∧ r.newHead bytes alignment = roundUp r.head alignment + bytes ∧
      r.handle ≤ roundUp r.head alignment ∧ r.head ≤ roundUp r.head alignment := by
  have hle := le_roundUp (a := r.head) (alignment_pos alignment)
  have hlow := hr.low
  have halign : r.alignedHead alignment = roundUp r.head alignment := by
    rw [alignedHead_eq, Nat.mod_eq_of_lt (by omega)]
  refine ⟨halign, ?_, by omega, hle⟩
  rw [newHead, halign, Nat.mod_eq_of_lt hlt]

/-- What a request does once there is a buffer. -/
structure Placed (r : HandleResource) (mem : Memory) (live : List Block) (log : List Event) (bytes : ℕ)
    (alignment : Alignment) (o : Outcome) : Prop where
  block : ∃ p, o.ret = some p ∧ alignment.val ∣ p ∧
    Ready o.r (⟨(p + 2 ^ 64 - o.r.handle) % 2 ^ 64, bytes⟩ :: live) (log ++ o.events)
  kept : ∀ b ∈ live, ∀ x ∈ b.bytes, o.mem (o.r.handle + x) = mem (r.handle + x)

theorem Ready.take_fits (hr : Ready r live log) (hfits : roundUp r.head alignment + bytes ≤ r.handle + r.bufSize) :
    Placed r mem live log bytes alignment (r.take mem bytes alignment growth) := by
  have hlt := hr.lt
  obtain ⟨halign, hnew, hlow, hle⟩ := hr.heads bytes alignment (by omega)
  have htake : r.take mem bytes alignment growth =
      ⟨some (roundUp r.head alignment), {r with head := roundUp r.head alignment + bytes}, mem, []⟩ := by
    rw [take, hnew, halign, if_pos (by rwa [Nat.mod_eq_of_lt hlt])]
  have hoffset : (roundUp r.head alignment + 2 ^ 64 - r.handle) % 2 ^ 64 = roundUp r.head alignment - r.handle := by
    omega
  rw [htake]
  refine ⟨⟨_, rfl, dvd_roundUp _ _, ?_⟩, fun _ _ _ _ => rfl⟩
  refine ⟨hr.pos, hr.aligned, hlt, Nat.le_trans hlow (Nat.le_add_right _ _), hfits, ?_,
    by rw [List.append_nil]; exact hr.settled⟩
  rw [hoffset]
  exact .cons (hr.stacked.raise (Nat.sub_le_sub_right hle _)) (by simp only; omega)

theorem memcpy_apply {dst src n x : ℕ} (hapart : dst + n ≤ src ∨ src + n ≤ dst) (hx : x < n) :
    memcpy mem dst src n (dst + x) = mem (src + x) := by
  rw [memcpy, if_pos hapart, if_pos ⟨Nat.le_add_right dst x, Nat.add_lt_add_left hx dst⟩, Nat.add_sub_cancel_left]

/-- The old buffer is freed as it was asked for, since the alignment is the same. -/
theorem settle_grow {old new : Grant} (h : settle [] log = some [old]) :
    settle [] (log ++ [.allocated new, .freed old]) = some [new] := by
  rw [settle_append h]
  show (if old ∈ [new, old] then settle ([new, old].erase old) [] else none) = some [new]
  rw [if_pos (List.mem_cons_of_mem new List.mem_cons_self), List.erase_cons]
  split_ifs with hsame
  · rw [settle, eq_of_beq hsame]
  · rw [List.erase_cons_head, settle]

theorem Ready.take_grows (hr : Ready r live log) (hfull : r.handle + r.bufSize < roundUp r.head alignment + bytes)
    (halignment : alignment.val = r.align) (hlt : roundUp r.head alignment + bytes < 2 ^ 64)
    (hdouble : 2 * (roundUp r.head alignment + bytes - r.handle) < 2 ^ 64) {base : ℕ}
    (hgranted : Granted base (r.grownSize bytes alignment) alignment)
    (hapart : base + r.grownSize bytes alignment ≤ r.handle ∨ r.handle + r.bufSize ≤ base) :
    Placed r mem live log bytes alignment (r.take mem bytes alignment (some base)) := by
  obtain ⟨halign, hnew, hlow, hle⟩ := hr.heads bytes alignment hlt
  have hend := hr.lt
  have hhigh := hr.high
  have hlow' := hr.low
  obtain ⟨offset, hoffset⟩ := Nat.exists_eq_add_of_le hlow
  have hgrown : r.grownSize bytes alignment = 2 * (offset + bytes) := by
    unfold grownSize
    omega
  rw [hgrown] at hgranted hapart
  have hgrant := hgranted.lt
  have htake : r.take mem bytes alignment (some base) =
      ⟨some (base + offset), ⟨2 * (offset + bytes), alignment, base, base + offset + bytes⟩,
        memcpy mem base r.handle r.bufSize,
        [.allocated ⟨base, 2 * (offset + bytes), alignment⟩, .freed ⟨r.handle, r.bufSize, r.align⟩]⟩ := by
    have hoffset' : (roundUp r.head alignment + 2 ^ 64 - r.handle) % 2 ^ 64 = offset := by omega
    rw [take, hnew, if_neg (by rw [Nat.mod_eq_of_lt hend]; omega), grow]
    simp only [halign, hoffset', hgrown]
    rw [Nat.mod_eq_of_lt (by omega : base + offset < 2 ^ 64), Nat.mod_eq_of_lt (by omega), halignment]
  have hdvd : alignment.val ∣ offset := by
    have hup := dvd_roundUp r.head alignment
    rw [hoffset] at hup
    exact (Nat.dvd_add_right (by rw [halignment]; exact hr.aligned)).mp hup
  rw [htake]
  refine ⟨⟨_, rfl, Nat.dvd_add hgranted.aligned hdvd, ?_⟩, fun b hb x hx => memcpy_apply ?_ ?_⟩
  · refine ⟨hgranted.pos, hgranted.aligned, hgrant, by simp only; omega, by simp only; omega, ?_, settle_grow hr.settled⟩
    rw [show (base + offset + 2 ^ 64 - base) % 2 ^ 64 = offset by omega]
    exact .cons (hr.stacked.raise (by simp only; omega)) (by simp only; omega)
  · omega
  · have hin := hr.stacked.mem_le hb
    have hx' := hx.2
    omega

/-- The first buffer makes the resource ready. -/
theorem Laid.ensure (hc : Laid c)
    (hinitial : c.r.handle = 0 → ∀ base, initial = some base → Granted base c.r.bufSize alignment)
    (hensure : c.r.ensure alignment initial = some (r, events)) :
    Ready r c.live (c.log ++ events) ∧ (c.live = [] ∨ r = c.r) := by
  unfold HandleResource.ensure at hensure
  rcases hc with ⟨hnull, hlive, hlog⟩ | hready
  · rw [if_pos hnull, Option.map_eq_some_iff] at hensure
    obtain ⟨base, hbase, heq⟩ := hensure
    obtain ⟨rfl, rfl⟩ := Prod.mk.inj heq
    have hgranted := hinitial hnull base hbase
    refine ⟨⟨hgranted.pos, hgranted.aligned, hgranted.lt, Nat.le_refl _, Nat.le_add_right _ _, ?_, ?_⟩, .inl hlive⟩
    · rw [hlive]
      exact .nil (Nat.zero_le _)
    · rw [settle_append hlog]
      rfl
  · rw [if_neg (Nat.ne_of_gt hready.pos), Option.some_inj] at hensure
    obtain ⟨rfl, rfl⟩ := Prod.mk.inj hensure
    rw [List.append_nil]
    exact ⟨hready, .inr rfl⟩

theorem doAllocate_none (hensure : r.ensure alignment initial = none) :
    r.doAllocate mem bytes alignment initial growth = ⟨none, r, mem, []⟩ := by
  unfold doAllocate
  rw [hensure]

theorem doAllocate_some {r' : HandleResource} (hensure : r.ensure alignment initial = some (r', events)) :
    r.doAllocate mem bytes alignment initial growth =
      {r'.take mem bytes alignment growth with events := events ++ (r'.take mem bytes alignment growth).events} := by
  unfold doAllocate
  rw [hensure]

/-- A request that the condition lets through. -/
theorem Laid.allocate (hc : Laid c) (hhonest : Honest c (.allocate bytes alignment initial growth))
    (haccepts : Accepts c (.allocate bytes alignment initial growth)) :
    Fair c alignment (c.r.doAllocate c.mem bytes alignment initial growth) ∧
      Laid (c.record bytes (c.r.doAllocate c.mem bytes alignment initial growth)) := by
  cases hensure : c.r.ensure alignment initial with
  | none =>
    rw [doAllocate_none hensure, Config.record, List.append_nil]
    exact ⟨⟨nofun, fun _ _ _ _ => rfl⟩, hc⟩
  | some made =>
    obtain ⟨r, events⟩ := made
    obtain ⟨hready, hsame⟩ := hc.ensure hhonest.1 hensure
    have hplaced : Placed r c.mem c.live (c.log ++ events) bytes alignment (r.take c.mem bytes alignment growth) := by
      by_cases hfits : roundUp r.head alignment + bytes ≤ r.handle + r.bufSize
      · exact hready.take_fits hfits
      · obtain ⟨halignment, hsome, hlt, hdouble⟩ := (haccepts r events hensure).resolve_left hfits
        obtain ⟨base, rfl⟩ := Option.isSome_iff_exists.mp hsome
        obtain ⟨hgranted, hapart⟩ := hhonest.2 r events hensure base rfl
        exact hready.take_grows (by omega) halignment hlt hdouble hgranted hapart
    obtain ⟨⟨p, hp, hdvd, hready'⟩, hkept⟩ := hplaced
    rw [doAllocate_some hensure]
    refine ⟨⟨fun q hq => ?_, fun b hb x hx => ?_⟩, .inr ?_⟩
    · rw [hp, Option.some_inj] at hq
      rwa [← hq]
    · rcases hsame with hnil | rfl
      · rw [hnil] at hb
        cases hb
      · exact hkept b hb x hx
    · unfold Config.record
      rw [hp]
      rwa [List.append_assoc] at hready'

theorem Laid.deallocate (hc : Laid c) : Laid (c.step .deallocate) := by
  obtain ⟨r, mem, live, log⟩ := c
  cases live with
  | nil => exact hc
  | cons b live =>
    rcases hc with ⟨-, hlive, -⟩ | hready
    · cases hlive
    · refine .inr ?_
      obtain ⟨hpos, haligned, hlt, hlow, hhigh, hstacked, hsettled⟩ := hready
      cases hstacked with
      | cons hrest hend =>
        have hend : b.start + b.size ≤ r.head - r.handle := hend
        have hhigh : r.head ≤ r.handle + r.bufSize := hhigh
        simp only [Config.step, doDeallocate]
        split_ifs with hempty hunder
        · -- the newest block is empty and nothing is taken back
          have hbelow : b.start ≤ r.head - r.handle := by omega
          exact ⟨hpos, haligned, hlt, hlow, hhigh, hrest.raise hbelow, hsettled⟩
        · omega
        · have hbelow : r.handle + b.start ≤ r.handle + r.bufSize := by omega
          refine ⟨hpos, haligned, hlt, Nat.le_add_right _ _, hbelow, ?_, hsettled⟩
          simp only [Option.getD_some]
          rwa [Nat.add_sub_cancel_left]

theorem Laid.step (hc : Laid c) {op : Op} (hhonest : Honest c op) (haccepts : Accepts c op) :
    Answers c op ∧ Laid (c.step op) := by
  cases op with
  | allocate bytes alignment initial growth => exact hc.allocate hhonest haccepts
  | deallocate => exact ⟨trivial, hc.deallocate⟩
  | write offset value =>
    refine ⟨trivial, ?_⟩
    unfold Config.step
    simp only
    split <;> exact hc

theorem Laid.safe (hc : Laid c) {ops : List Op} (hhonest : Along Honest c ops) (haccepts : Along Accepts c ops) :
    Safe c ops := by
  induction ops generalizing c with
  | nil => exact hc.sound
  | cons op ops ih =>
    obtain ⟨hanswers, hstep⟩ := hc.step hhonest.1 haccepts.1
    exact ⟨hc.sound, hanswers, ih hstep hhonest.2 haccepts.2⟩

theorem run_safe_of_accepts (initSize : ℕ) (mem : Memory) (ops : List Op)
    (hhonest : Along Honest ⟨create initSize, mem, [], []⟩ ops)
    (haccepts : Along Accepts ⟨create initSize, mem, [], []⟩ ops) : Safe ⟨create initSize, mem, [], []⟩ ops :=
  (Laid.create initSize mem).safe hhonest haccepts

end Runs

section Example
/-- Two requests, the second too large for the buffer of 16 bytes at address 8. -/
def requests (second : Alignment) : List Op :=
  [.allocate 8 ⟨8, by decide⟩ (some 8) none, .allocate 64 second none (some 1024)]

theorem requests_honest (second : Alignment)
    (hgranted : Granted 1024 ((⟨16, 8, 8, 16⟩ : HandleResource).grownSize 64 second) second) :
    Along Honest ⟨create 16, fun _ => 0, [], []⟩ (requests second) := by
  refine ⟨⟨?_, ?_⟩, ⟨?_, ?_⟩, trivial⟩
  · rintro - base hbase
    obtain rfl := Option.some_inj.mp hbase
    exact ⟨by decide, by decide, by decide⟩
  · rintro r events - base hbase
    cases hbase
  · intro hnull
    exact absurd hnull (by decide)
  · intro r events hensure base hbase
    obtain rfl := Option.some_inj.mp hbase
    obtain ⟨rfl, rfl⟩ := Prod.mk.inj (Option.some_inj.mp hensure)
    exact ⟨hgranted, .inr (by decide)⟩

/-- After growth for alignment 64 the block is at address 1080. -/
theorem grown_block_misaligned : ¬ ∀ (initSize : ℕ) (mem : Memory) (ops : List Op),
    Along Honest ⟨create initSize, mem, [], []⟩ ops → Safe ⟨create initSize, mem, [], []⟩ ops := by
  intro hall
  have hhonest := requests_honest ⟨64, by decide⟩ ⟨by decide, by decide, by decide⟩
  have hsafe := hall 16 (fun _ => 0) _ hhonest
  have haligned : 64 ∣ 1080 := hsafe.2.2.2.1.aligned 1080 rfl
  exact absurd haligned (by decide)

theorem run_safe_of_accepts_equal : Along Honest ⟨create 16, fun _ => 0, [], []⟩ (requests ⟨8, by decide⟩) ∧
    Along Accepts ⟨create 16, fun _ => 0, [], []⟩ (requests ⟨8, by decide⟩) ∧
    Safe ⟨create 16, fun _ => 0, [], []⟩ (requests ⟨8, by decide⟩) := by
  have hhonest := requests_honest ⟨8, by decide⟩ ⟨by decide, by decide, by decide⟩
  have haccepts : Along Accepts ⟨create 16, fun _ => 0, [], []⟩ (requests ⟨8, by decide⟩) := by
    refine ⟨fun r events hensure => ?_, fun r events hensure => ?_, trivial⟩
    · obtain ⟨rfl, rfl⟩ := Prod.mk.inj (Option.some_inj.mp hensure)
      exact .inl (by decide)
    · obtain ⟨rfl, rfl⟩ := Prod.mk.inj (Option.some_inj.mp hensure)
      exact .inr ⟨rfl, rfl, by decide, by decide⟩
  exact ⟨hhonest, haccepts, run_safe_of_accepts 16 (fun _ => 0) _ hhonest haccepts⟩

end Example
end HandleResource
end Zpc
