import Zpc.RingBuffer

/-!
# The ring buffer container

Elements in an array used around in a circle. The indices are machine integers: as long as
they do not overflow, the container is a list of bounded length from which a push drops the
oldest element and a pop takes the newest.
-/
namespace Zpc.Container
structure RingBuffer (T : Type) (size : ℕ) where
  buf : Vector T size
  head : ℤ
  tail : ℤ
  count : ℤ

namespace RingBuffer
variable {T : Type} {size start : ℕ} {b b' : RingBuffer T size} {l l' : List T} {x : T}

/-- The result of an operation on `int`, none where it overflows. -/
def toInt (x : ℤ) : Option ℤ := if -2 ^ 31 ≤ x ∧ x < 2 ^ 31 then some x else none

def create (buf : Vector T size) : RingBuffer T size := ⟨buf, 1, 0, 0⟩

def incTail (b : RingBuffer T size) : Option (RingBuffer T size) := do
  let tail ← toInt (b.tail + 1)
  let count ← toInt (b.count + 1)
  return {b with tail := if tail = size then 0 else tail, count := count}

def decTail (b : RingBuffer T size) : Option (RingBuffer T size) := do
  if b.count = 0 then return b
  let tail ← toInt (b.tail - 1)
  let count ← toInt (b.count - 1)
  return {b with tail := if tail < 0 then (size : ℤ) - 1 else tail, count := count}

def incHead (b : RingBuffer T size) : Option (RingBuffer T size) := do
  if b.count = 0 then return b
  let head ← toInt (b.head + 1)
  let count ← toInt (b.count - 1)
  return {b with head := if head = size then 0 else head, count := count}

def read (b : RingBuffer T size) (idx : ℤ) : Option T := if 0 ≤ idx then b.buf[idx.toNat]? else none

def back (b : RingBuffer T size) : Option T := b.read b.tail

/-- The assignment `back() = element`. -/
def setBack (b : RingBuffer T size) (element : T) : Option (RingBuffer T size) :=
  if h : 0 ≤ b.tail ∧ b.tail.toNat < size then some {b with buf := b.buf.set b.tail.toNat element h.2} else none

/-- `push_back()`, which leaves the element to be assigned. -/
def extend (b : RingBuffer T size) : Option (RingBuffer T size) := do
  let b ← b.incTail
  if size < b.count then b.incHead else return b

def pushBack (b : RingBuffer T size) (element : T) : Option (RingBuffer T size) := do
  let b ← b.extend
  b.setBack element

def pop (b : RingBuffer T size) : Option (RingBuffer T size) := b.decTail

/-- `operator[]` -/
def subscript (b : RingBuffer T size) (index : ℤ) : Option T := do
  let index ← toInt (index + b.head)
  b.read (index.tmod size)

inductive Op (T : Type)
  | extend
  | push (element : T)
  | pop

def apply (b : RingBuffer T size) : Op T → Option (RingBuffer T size)
  | .extend => b.extend
  | .push element => b.pushBack element
  | .pop => b.pop

section Lists
inductive ListStep (size : ℕ) : List T → Op T → List T → Prop
  | extend (l : List T) (x : T) : ListStep size l .extend ((l ++ [x]).rtake size)
  | push (l : List T) (x : T) : ListStep size l (.push x) ((l ++ [x]).rtake size)
  | pop (l : List T) : ListStep size l .pop l.dropLast

structure Serves (b : RingBuffer T size) (l : List T) : Prop where
  size : b.count = l.length
  get (i : ℕ) (hi : i < l.length) : b.subscript i = some l[i]
  back (hne : l ≠ []) : b.back = some (l.getLast hne)

/-- Every state of a run answers as the list of its elements does. -/
def Refines (b : RingBuffer T size) (l : List T) : List (Op T) → Prop
  | [] => Serves b l
  | op :: ops => Serves b l ∧ ∃ b' l', b.apply op = some b' ∧ ListStep size l op l' ∧ Refines b' l' ops

def Small (b : RingBuffer T size) : Prop := b.head + b.count ≤ 2 ^ 31

/-- Nor does the operation overflow a counter. -/
def Accepts (b : RingBuffer T size) : Op T → Prop
  | .pop => True
  | .extend | .push _ => b.count + 1 < 2 ^ 31 ∧ (b.count = size → b.head + 1 < 2 ^ 31)

def Fits (b : RingBuffer T size) : List (Op T) → Prop
  | [] => b.Small
  | op :: ops => b.Small ∧ b.Accepts op ∧ ∀ b', b.apply op = some b' → Fits b' ops

end Lists

section Ring
/-- The ring from its head to its tail holds the elements of a list. -/
structure Holds (b : RingBuffer T size) (l : List T) (start : ℕ) : Prop where
  window : RingBuffer.Window size (fun i => b.buf[i]?) start l
  pos : 0 < start
  count : b.count = l.length
  tail : b.tail = (((start + l.length - 1) % size : ℕ) : ℤ)
  head : ∃ n : ℕ, b.head = n ∧ n < 2 ^ 31 ∧ n % size = start % size ∧ (n < size ∨ size = 1)

theorem toInt_of_lt {x : ℤ} (hlo : -2 ^ 31 ≤ x) (hhi : x < 2 ^ 31) : toInt x = some x := if_pos ⟨hlo, hhi⟩

theorem Holds.create (hsize : 0 < size) (buf : Vector T size) : Holds (create buf) [] 1 := by
  refine ⟨.nil _ _ _, Nat.one_pos, rfl, by rw [List.length_nil, Nat.zero_mod]; rfl, 1, rfl, by decide, rfl, ?_⟩
  omega

theorem Holds.incTail (hb : Holds b l start) (hsize : 0 < size) (hmax : size < 2 ^ 31) (hcount : b.count + 1 < 2 ^ 31) :
    b.incTail = some {b with tail := (((start + l.length) % size : ℕ) : ℤ), count := (l.length : ℤ) + 1} := by
  have hpos := hb.pos
  have hnext := RingBuffer.add_one_mod (a := start + l.length - 1) hsize
  have hlt := Nat.mod_lt (start + l.length - 1) hsize
  rw [Nat.sub_add_cancel (by omega)] at hnext
  have htail : toInt (b.tail + 1) = some (b.tail + 1) := toInt_of_lt (by rw [hb.tail]; omega) (by rw [hb.tail]; omega)
  have hcount' : toInt (b.count + 1) = some (b.count + 1) := toInt_of_lt (by rw [hb.count]; omega) hcount
  unfold RingBuffer.incTail
  rw [htail, hcount', hb.tail, hb.count, hnext]
  simp only [Option.bind_eq_bind, Option.bind_some, Option.pure_def]
  congr 2
  split_ifs <;> omega

/-- The head moves on when the ring was full. -/
theorem Holds.extend (hb : Holds b l start) (hsize : 0 < size) (hmax : size < 2 ^ 31)
    (haccept : b.count + 1 < 2 ^ 31 ∧ (b.count = size → b.head + 1 < 2 ^ 31)) :
    ∃ b', b.extend = some b' ∧ b'.buf = b.buf ∧ b'.tail = (((start + l.length) % size : ℕ) : ℤ) ∧
      ∀ (buf : Vector T size) (x : T),
        (∀ i < size, buf[i]? = if i = (start + l.length) % size then some x else b.buf[i]?) →
        Holds {b' with buf := buf} ((l ++ [x]).rtake size) (start + (l.length + 1 - size)) := by
  have hle := hb.window.le
  have hpos := hb.pos
  obtain ⟨n, hhead, hn, hmod, hwrap⟩ := hb.head
  have hlen : ∀ x : T, ((l ++ [x]).rtake size).length = min (l.length + 1) size := by
    intro x
    rw [List.rtake, List.length_drop, List.length_append, List.length_singleton]
    omega
  have hlast : start + (l.length + 1 - size) + min (l.length + 1) size - 1 = start + l.length := by omega
  unfold RingBuffer.extend
  rw [hb.incTail hsize hmax haccept.1]
  simp only [Option.bind_eq_bind, Option.bind_some]
  by_cases hfull : l.length = size
  · have hhead' : toInt (b.head + 1) = some (b.head + 1) :=
      toInt_of_lt (by omega) (haccept.2 (by rw [hb.count, hfull]))
    have hcount' : toInt ((l.length : ℤ) + 1 - 1) = some ((l.length : ℤ) + 1 - 1) := toInt_of_lt (by omega) (by omega)
    rw [if_pos (by omega), incHead, if_neg (by simp only; omega)]
    simp only [hhead', hcount', Option.bind_eq_bind, Option.bind_some, Option.pure_def]
    refine ⟨_, rfl, rfl, rfl, fun buf x hbuf => ⟨hb.window.push hsize hbuf, by omega, ?_, ?_, ?_⟩⟩
    · simp only [hlen]
      omega
    · simp only [hlen, hlast]
    · have hstep : (n + 1) % size = (start + (l.length + 1 - size)) % size := by
        rw [show start + (l.length + 1 - size) = start + 1 by omega, Nat.add_mod, hmod, ← Nat.add_mod]
      have haccept' := haccept.2 (by rw [hb.count, hfull])
      simp only [hhead]
      split_ifs with hturn
      · have hturn : n + 1 = size := by exact_mod_cast hturn
        exact ⟨0, rfl, by decide, by rw [← hstep, hturn, Nat.mod_self, Nat.zero_mod], .inl hsize⟩
      · exact ⟨n + 1, by push_cast; rfl, by omega, hstep, by omega⟩
  · rw [if_neg (by omega)]
    refine ⟨_, rfl, rfl, rfl, fun buf x hbuf => ⟨hb.window.push hsize hbuf, by omega, ?_, ?_, ?_⟩⟩
    · simp only [hlen]
      omega
    · simp only [hlen, hlast]
    · exact ⟨n, hhead, hn, by rw [hmod, show start + (l.length + 1 - size) = start by omega], hwrap⟩

theorem Holds.push_slot (hb : Holds b l start) (hsize : 0 < size) (hmax : size < 2 ^ 31) (x : T)
    (haccept : b.count + 1 < 2 ^ 31 ∧ (b.count = size → b.head + 1 < 2 ^ 31)) :
    ∃ b', b.pushBack x = some b' ∧ Holds b' ((l ++ [x]).rtake size) (start + (l.length + 1 - size)) := by
  obtain ⟨b', hextend, hbuf, htail, hholds⟩ := hb.extend hsize hmax haccept
  have hlt := Nat.mod_lt (start + l.length) hsize
  refine ⟨_, ?_, hholds (b'.buf.set _ x hlt) x fun i hi => ?_⟩
  · unfold pushBack
    rw [hextend]
    simp only [Option.bind_eq_bind, Option.bind_some, setBack, htail, Int.toNat_natCast]
    rw [dif_pos ⟨Int.natCast_nonneg _, hlt⟩]
  · rw [Vector.getElem?_set, hbuf]
    simp only [eq_comm]

theorem Holds.extend_slot (hb : Holds b l start) (hsize : 0 < size) (hmax : size < 2 ^ 31)
    (haccept : b.count + 1 < 2 ^ 31 ∧ (b.count = size → b.head + 1 < 2 ^ 31)) :
    ∃ b' x, b.extend = some b' ∧ Holds b' ((l ++ [x]).rtake size) (start + (l.length + 1 - size)) := by
  obtain ⟨b', hextend, hbuf, htail, hholds⟩ := hb.extend hsize hmax haccept
  have hlt := Nat.mod_lt (start + l.length) hsize
  refine ⟨b', b.buf[(start + l.length) % size], hextend, hholds b'.buf _ fun i hi => ?_⟩
  rw [hbuf]
  split_ifs with hi'
  · rw [hi', Vector.getElem?_eq_getElem hlt]
  · rfl

theorem Holds.pop (hb : Holds b l start) (hsize : 0 < size) (hmax : size < 2 ^ 31) :
    ∃ b', b.pop = some b' ∧ Holds b' l.dropLast start := by
  have hcount := hb.count
  have hle := hb.window.le
  unfold RingBuffer.pop decTail
  by_cases hnil : l = []
  · subst hnil
    exact ⟨b, if_pos hcount, hb⟩
  · have hlen := List.length_pos_of_ne_nil hnil
    have hpos := hb.pos
    have hprev := RingBuffer.sub_mod_window (show 1 ≤ start + l.length - 1 by omega) hsize hsize
    have hlt := Nat.mod_lt (start + l.length - 1) hsize
    have htail : toInt (b.tail - 1) = some (b.tail - 1) := toInt_of_lt (by rw [hb.tail]; omega) (by rw [hb.tail]; omega)
    have hcount' : toInt (b.count - 1) = some (b.count - 1) := toInt_of_lt (by omega) (by omega)
    rw [if_neg (by omega), htail, hcount']
    refine ⟨_, rfl, hb.window.dropLast, hpos, ?_, ?_, hb.head⟩
    · rw [List.length_dropLast]
      simp only
      omega
    · rw [List.length_dropLast, show start + (l.length - 1) - 1 = start + l.length - 1 - 1 by omega, hprev]
      simp only [hb.tail]
      split_ifs <;> omega

theorem Holds.get (hb : Holds b l start) (hsmall : b.Small) {i : ℕ} (hi : i < l.length) :
    b.subscript i = some l[i] := by
  have hcount := hb.count
  obtain ⟨n, hhead, hn, hmod, hwrap⟩ := hb.head
  have hidx : toInt (i + b.head) = some ((i + n : ℕ) : ℤ) := by
    unfold Small at hsmall
    rw [toInt_of_lt (by omega) (by omega), hhead, Int.natCast_add]
  have hget := hb.window.get i hi
  unfold subscript
  simp only [hidx, Option.bind_eq_bind, Option.bind_some, ← Int.ofNat_tmod]
  rw [read, if_pos (Int.natCast_nonneg _), Int.toNat_natCast, ← hget, Nat.add_mod i n, hmod, ← Nat.add_mod,
    Nat.add_comm]

theorem Holds.back (hb : Holds b l start) (hne : l ≠ []) : b.back = some (l.getLast hne) := by
  have hlen := List.length_pos_of_ne_nil hne
  have hget := hb.window.get (l.length - 1) (by omega)
  rw [← Nat.add_sub_assoc hlen] at hget
  rw [RingBuffer.back, hb.tail, read, if_pos (Int.natCast_nonneg _), Int.toNat_natCast, hget, List.getLast_eq_getElem]

/-- The index of the newest element would overflow. -/
theorem Serves.small (hserves : Serves b l) (hhead : b.head < 2 ^ 31) : b.Small := by
  have hcount := hserves.size
  by_contra hlarge
  unfold Small at hlarge
  have hlast := hserves.get (l.length - 1) (by omega)
  unfold subscript at hlast
  rw [toInt, if_neg (by omega)] at hlast
  exact absurd hlast (Option.some_ne_none _).symm

theorem Holds.head_lt (hb : Holds b l start) : b.head < 2 ^ 31 := by
  obtain ⟨n, hhead, hn, -⟩ := hb.head
  omega

theorem Holds.serves (hb : Holds b l start) (hsmall : b.Small) : Serves b l :=
  ⟨hb.count, fun _ hi => hb.get hsmall hi, hb.back⟩

theorem Serves.unique (hserves : Serves b l) (hserves' : Serves b l') : l = l' := by
  have hlen : l.length = l'.length := by
    have hcount := hserves.size
    have hcount' := hserves'.size
    omega
  apply List.ext_getElem hlen
  intro i hi hi'
  exact Option.some_inj.mp ((hserves.get i hi).symm.trans (hserves'.get i hi'))

/-- The step of an operation without overflow. -/
theorem Holds.apply (hb : Holds b l start) (hsize : 0 < size) (hmax : size < 2 ^ 31) {op : Op T}
    (haccept : b.Accepts op) :
    ∃ b' l' start', b.apply op = some b' ∧ ListStep size l op l' ∧ Holds b' l' start' := by
  cases op with
  | extend =>
    obtain ⟨b', x, hextend, hb'⟩ := hb.extend_slot hsize hmax haccept
    exact ⟨b', _, _, hextend, .extend l x, hb'⟩
  | push x =>
    obtain ⟨b', hpush, hb'⟩ := hb.push_slot hsize hmax x haccept
    exact ⟨b', _, _, hpush, .push l x, hb'⟩
  | pop =>
    obtain ⟨b', hpop, hb'⟩ := hb.pop hsize hmax
    exact ⟨b', _, _, hpop, .pop l, hb'⟩

theorem Holds.extend_overflow (hb : Holds b l start) (hsize : 0 < size) (hmax : size < 2 ^ 31)
    (hover : ¬ (b.count + 1 < 2 ^ 31 ∧ (b.count = size → b.head + 1 < 2 ^ 31))) : b.extend = none := by
  unfold RingBuffer.extend
  by_cases hcount : b.count + 1 < 2 ^ 31
  · -- the ring is full and its head is at the end of the integers
    rw [hb.incTail hsize hmax hcount]
    have hfull : b.count = size ∧ 2 ^ 31 ≤ b.head + 1 := by omega
    have hlen := hb.count
    simp only [Option.bind_eq_bind, Option.bind_some]
    rw [if_pos (by omega), incHead, if_neg (by simp only; omega), toInt, if_neg (by simp only; omega)]
    rfl
  · have hnone : toInt (b.count + 1) = none := if_neg (by omega)
    unfold RingBuffer.incTail
    rw [hnone]
    cases toInt (b.tail + 1) <;> rfl

theorem Holds.accepts (hb : Holds b l start) (hsize : 0 < size) (hmax : size < 2 ^ 31) {op : Op T}
    (happly : b.apply op = some b') : b.Accepts op := by
  by_contra hover
  cases op with
  | extend =>
    have hnone : b.extend = none := hb.extend_overflow hsize hmax hover
    exact absurd (hnone.symm.trans happly) (Option.some_ne_none b').symm
  | push x =>
    have hnone : b.pushBack x = none := by
      rw [pushBack, hb.extend_overflow hsize hmax hover]
      rfl
    exact absurd (hnone.symm.trans happly) (Option.some_ne_none b').symm
  | pop => exact hover trivial

theorem Refines.serves {ops : List (Op T)} (href : Refines b l ops) : Serves b l := by
  cases ops with
  | nil => exact href
  | cons op ops => exact href.1

theorem Holds.refines_iff (hb : Holds b l start) (hsize : 0 < size) (hmax : size < 2 ^ 31) (ops : List (Op T)) :
    Refines b l ops ↔ Fits b ops := by
  induction ops generalizing b l start with
  | nil => exact ⟨fun hserves => Serves.small hserves hb.head_lt, hb.serves⟩
  | cons op ops ih =>
    constructor
    · intro ⟨hserves, b', l', happly, hstep, href⟩
      have haccept := hb.accepts hsize hmax happly
      refine ⟨hserves.small hb.head_lt, haccept, fun b'' happly' => ?_⟩
      obtain rfl : b' = b'' := Option.some_inj.mp (happly.symm.trans happly')
      obtain ⟨b'', l'', start', happly', -, hb'⟩ := hb.apply hsize hmax haccept
      obtain rfl : b' = b'' := Option.some_inj.mp (happly.symm.trans happly')
      -- what the state answers tells its list
      obtain rfl := href.serves.unique (hb'.serves (href.serves.small hb'.head_lt))
      exact (ih hb').mp href
    · intro ⟨hsmall, haccept, hfits⟩
      obtain ⟨b', l', start', happly, hstep, hb'⟩ := hb.apply hsize hmax haccept
      exact ⟨hb.serves hsmall, b', l', happly, hstep, (ih hb').mpr (hfits b' happly)⟩

/-- Rings of at least two slots keep their head inside, so that only large ones overflow. -/
theorem Holds.fits (hb : Holds b l start) (hlow : 2 ≤ size) (hhigh : size ≤ 2 ^ 30) (ops : List (Op T)) : Fits b ops := by
  have hsmall : ∀ {b : RingBuffer T size} {l start}, Holds b l start → b.Small := by
    intro b l start hb
    have hle := hb.window.le
    have hcount := hb.count
    obtain ⟨n, hhead, -, -, hin⟩ := hb.head
    unfold Small
    omega
  induction ops generalizing b l start with
  | nil => exact hsmall hb
  | cons op ops ih =>
    have hle := hb.window.le
    have hcount := hb.count
    have haccept : b.Accepts op := by
      obtain ⟨n, hhead, -, -, hin⟩ := hb.head
      cases op with
      | pop => trivial
      | extend | push => exact ⟨by omega, fun _ => by omega⟩
    refine ⟨hsmall hb, haccept, fun b' happly => ?_⟩
    obtain ⟨b'', l', start', happly', -, hb'⟩ := hb.apply (by omega) (by omega) haccept
    obtain rfl : b' = b'' := Option.some_inj.mp (happly.symm.trans happly')
    exact ih hb'

end Ring

theorem run_refines_iff (hsize : 0 < size) (hmax : size < 2 ^ 31) (buf : Vector T size) (ops : List (Op T)) :
    (Refines (create buf) [] ops ↔ Fits (create buf) ops) ∧ (2 ≤ size → size ≤ 2 ^ 30 → Refines (create buf) [] ops) := by
  have hb := Holds.create hsize buf
  refine ⟨hb.refines_iff hsize hmax ops, fun hlow hhigh => ?_⟩
  exact (hb.refines_iff hsize hmax ops).mpr (hb.fits hlow hhigh ops)

section Example
def oneSlot (n : ℤ) : RingBuffer Unit 1 := ⟨⟨#[()], rfl⟩, n, 0, 1⟩

/-- In a ring of one slot the head counts the pushes. -/
theorem push_oneSlot (n : ℕ) (hn : 0 < n) (hlt : (n : ℤ) + 1 < 2 ^ 31) :
    (oneSlot n).apply (.push ()) = some (oneSlot (n + 1 : ℕ)) := by
  have hhead : toInt ((n : ℤ) + 1) = some ((n : ℤ) + 1) := toInt_of_lt (by omega) hlt
  have hsmall : toInt 1 = some 1 ∧ toInt 2 = some 2 :=
    ⟨toInt_of_lt (by decide) (by decide), toInt_of_lt (by decide) (by decide)⟩
  have htail : (oneSlot n).incTail = some {oneSlot n with count := 2} := by
    simp [RingBuffer.incTail, oneSlot, hsmall]
  have hturn : incHead {oneSlot n with count := 2} = some (oneSlot (n + 1 : ℕ)) := by
    rw [incHead, if_neg (show (2 : ℤ) ≠ 0 by decide)]
    simp only [oneSlot, hhead, Int.reduceSub, hsmall, Option.bind_eq_bind, Option.bind_some, Option.pure_def]
    rw [if_neg (by omega), Int.natCast_add, Int.natCast_one]
  have hextend : (oneSlot n).extend = some (oneSlot (n + 1 : ℕ)) := by
    rw [RingBuffer.extend, htail, Option.bind_eq_bind, Option.bind_some, if_pos (show ((1 : ℕ) : ℤ) < 2 by decide),
      hturn]
  rw [RingBuffer.apply, pushBack, hextend]
  rfl

theorem not_fits_oneSlot (n m : ℕ) (hn : 0 < n) (hover : 2 ^ 31 ≤ n + m) :
    ¬ Fits (oneSlot n) (.replicate m (.push ())) := by
  induction m generalizing n with
  | zero =>
    intro hfits
    have hsmall : (n : ℤ) + 1 ≤ 2 ^ 31 := hfits
    omega
  | succ m ih =>
    intro ⟨_, haccept, hfits⟩
    have hlt : (n : ℤ) + 1 < 2 ^ 31 := haccept.2 rfl
    exact ih (n + 1) (Nat.succ_pos n) (by omega) (hfits _ (push_oneSlot n hn hlt))

/-- Too many pushes into a ring of one slot. -/
theorem single_slot_overflows : ¬ ∀ ops : List (Op Unit), Refines (create (⟨#[()], rfl⟩ : Vector Unit 1)) [] ops := by
  intro hall
  have hb := Holds.create Nat.one_pos (⟨#[()], rfl⟩ : Vector Unit 1)
  have hfits := (hb.refines_iff Nat.one_pos (by decide) _).mp (hall (.push () :: .replicate (2 ^ 31) (.push ())))
  exact not_fits_oneSlot 1 (2 ^ 31) Nat.one_pos (by decide) (hfits.2.2 (oneSlot 1) rfl)

theorem run_refines_iff_bytes : 0 < 3 ∧ 3 < 2 ^ 31 ∧
    (Refines (create (⟨#[7, 8, 9], rfl⟩ : Vector ℕ 3)) [] [.push 1, .pop, .push 2] ↔
      Fits (create (⟨#[7, 8, 9], rfl⟩ : Vector ℕ 3)) [.push 1, .pop, .push 2]) ∧
    (2 ≤ 3 → 3 ≤ 2 ^ 30 → Refines (create (⟨#[7, 8, 9], rfl⟩ : Vector ℕ 3)) [] [.push 1, .pop, .push 2]) :=
  ⟨by decide, by decide, run_refines_iff (by decide) (by decide) ⟨#[7, 8, 9], rfl⟩ [.push 1, .pop, .push 2]⟩

end Example
end RingBuffer
end Zpc.Container
