import Zpc.ActionMapPhases
import Zpc.RingBuffer

/-!
# InputBuffer

The snapshots of the last frames in a ring, and the queries that look back over them. The
ring holds the newest snapshots pushed since it was last cleared. The two queries of the
current frame read the array in front of its first slot while nothing is stored.
-/
namespace Zpc
open ActionMap

structure InputBuffer (F : Type*) (size : ℕ) where
  buffer : Vector (ActionSnapshot F) size
  head : ℤ
  count : ℤ

namespace InputBuffer
variable {F : Type*} {size : ℕ} {b b' : InputBuffer F size} {h : List (ActionSnapshot F)} {snap : ActionSnapshot F}

def read (b : InputBuffer F size) (idx : ℤ) : Option (ActionSnapshot F) :=
  if 0 ≤ idx then b.buffer[idx.toNat]? else none

def write (b : InputBuffer F size) (idx : ℤ) (snap : ActionSnapshot F) : Option (Vector (ActionSnapshot F) size) :=
  if hidx : 0 ≤ idx ∧ idx.toNat < size then some (b.buffer.set idx.toNat snap hidx.2) else none

def push (b : InputBuffer F size) (snap : ActionSnapshot F) : Option (InputBuffer F size) :=
  let head := (b.head + 1).tmod size
  (b.write head snap).map fun buffer => ⟨buffer, head, if b.count < size then b.count + 1 else b.count⟩

def clear (b : InputBuffer F size) : InputBuffer F size := { b with head := -1, count := 0 }

def current (b : InputBuffer F size) : Option (ActionSnapshot F) := b.read b.head

def ago (b : InputBuffer F size) (n : ℤ) : Option (ActionSnapshot F) :=
  let n := if b.count ≤ n then b.count - 1 else n
  let n := if n < 0 then 0 else n
  let idx := b.head - n
  b.read (if idx < 0 then idx + size else idx)

def full (b : InputBuffer F size) : Bool := decide (size ≤ b.count)

section Queries
variable [FloatArith F]

/-- The array starts out as empty snapshots. -/
def create (size : ℕ) (ctx : FrameContext F) : InputBuffer F size := ⟨Vector.replicate size (.empty ctx), -1, 0⟩

def wasPressed (b : InputBuffer F size) (id : ActionId) (frames : ℤ) : Option Bool :=
  let frames := if b.count < frames then b.count else frames
  (List.range frames.toNat).anyM fun i : ℕ => (b.ago i).map (·.justPressed id)

def heldFor (b : InputBuffer F size) (id : ActionId) (frames : ℤ) : Option Bool :=
  if b.count < frames then some false
  else (List.range frames.toNat).allM fun i : ℕ => (b.ago i).map (·.isActive id)

def durationOf (id : ActionId) (snap : ActionSnapshot F) : F := match snap.find id with
  | some st => if st.phase == .pressed || st.phase == .held then st.heldDuration else 0.0
  | none => 0.0

def heldDuration (b : InputBuffer F size) (id : ActionId) : Option F := b.current.map (durationOf id)

inductive Query
  | current
  | ago (n : ℤ)
  | count
  | full
  | wasPressed (id : ActionId) (frames : ℤ)
  | heldFor (id : ActionId) (frames : ℤ)
  | heldDuration (id : ActionId)

inductive Answer (F : Type*)
  | snapshot (snap : ActionSnapshot F)
  | flag (holds : Bool)
  | number (n : ℤ)
  | duration (t : F)

def ask (b : InputBuffer F size) : Query → Option (Answer F)
  | .current => b.current.map .snapshot
  | .ago n => (b.ago n).map .snapshot
  | .count => some (.number b.count)
  | .full => some (.flag b.full)
  | .wasPressed id frames => (b.wasPressed id frames).map .flag
  | .heldFor id frames => (b.heldFor id frames).map .flag
  | .heldDuration id => (b.heldDuration id).map .duration

end Queries

inductive Op (F : Type*)
  | push (snap : ActionSnapshot F)
  | clear

def apply (b : InputBuffer F size) : Op F → Option (InputBuffer F size)
  | .push snap => b.push snap
  | .clear => some b.clear

def run (b : InputBuffer F size) (ops : List (Op F)) : Option (InputBuffer F size) := ops.foldlM apply b

section Ring
variable {start : ℕ}

/-- The ring holds a history, oldest snapshot first, which ends in the slot of the head. -/
structure Holds (b : InputBuffer F size) (h : List (ActionSnapshot F)) (start : ℕ) : Prop where
  window : RingBuffer.Window size (fun i => b.buffer[i]?) start h
  count : b.count = h.length
  head : b.head = if h = [] then -1 else (((start + h.length - 1) % size : ℕ) : ℤ)

theorem Holds.clear (b : InputBuffer F size) : Holds b.clear [] 0 := ⟨.nil _ _ _, rfl, rfl⟩

theorem Holds.head_cons (hb : Holds b h start) (hne : h ≠ []) : b.head = (((start + h.length - 1) % size : ℕ) : ℤ) := by
  rw [hb.head, if_neg hne]

/-- The slot that the next push goes to is the one behind the window. -/
theorem Holds.next_head (hb : Holds b h start) :
    ∃ start', Holds b h start' ∧ (b.head + 1).tmod size = (((start' + h.length) % size : ℕ) : ℤ) := by
  by_cases hnil : h = []
  · subst hnil
    refine ⟨0, ⟨.nil _ _ _, hb.count, hb.head⟩, ?_⟩
    rw [hb.head, if_pos rfl]
    simp
  · have hlen := List.length_pos_of_ne_nil hnil
    refine ⟨start, hb, ?_⟩
    rw [hb.head_cons hnil, ← Int.natCast_succ, ← Int.ofNat_tmod, Nat.succ_eq_add_one, Nat.mod_add_mod,
      Nat.sub_add_cancel (by omega)]

theorem Holds.push (hb : Holds b h start) (hsize : 0 < size) (snap : ActionSnapshot F) :
    ∃ b' start', b.push snap = some b' ∧ Holds b' ((h ++ [snap]).rtake size) start' := by
  obtain ⟨start, hb, hhead⟩ := hb.next_head
  have hlt := Nat.mod_lt (start + h.length) hsize
  have hle := hb.window.le
  have hlen : ((h ++ [snap]).rtake size).length = min (h.length + 1) size := by
    rw [List.rtake, List.length_drop, List.length_append, List.length_singleton]
    omega
  have hne : (h ++ [snap]).rtake size ≠ [] := by
    apply List.ne_nil_of_length_pos
    rw [hlen]
    omega
  have hpush : b.push snap = some ⟨b.buffer.set _ snap hlt, (((start + h.length) % size : ℕ) : ℤ),
      if b.count < size then b.count + 1 else b.count⟩ := by
    unfold InputBuffer.push
    simp only [hhead]
    rw [write, dif_pos ⟨Int.natCast_nonneg _, hlt⟩]
    rfl
  refine ⟨_, start + (h.length + 1 - size), hpush, hb.window.push hsize fun i hi => ?_, ?_, ?_⟩
  · rw [Vector.getElem?_set]
    simp only [eq_comm]
  · rw [hlen, hb.count]
    push_cast
    split_ifs <;> omega
  · rw [if_neg hne, hlen, show start + (h.length + 1 - size) + min (h.length + 1) size - 1 = start + h.length by omega]

theorem Holds.current (hb : Holds b h start) : b.current = h.getLast? := by
  by_cases hnil : h = []
  · subst hnil
    rw [InputBuffer.current, hb.head]
    rfl
  · have hlen := List.length_pos_of_ne_nil hnil
    have hget := hb.window.get (h.length - 1) (by omega)
    rw [← Nat.add_sub_assoc hlen] at hget
    rw [InputBuffer.current, hb.head_cons hnil, read, if_pos (Int.natCast_nonneg _), Int.toNat_natCast, hget,
      List.getLast?_eq_getElem?, List.getElem?_eq_getElem]

theorem clamp_eq {len : ℕ} (hlen : 0 < len) (n : ℤ) :
    (if (if (len : ℤ) ≤ n then (len : ℤ) - 1 else n) < 0 then 0 else if (len : ℤ) ≤ n then (len : ℤ) - 1 else n) =
      ((min n.toNat (len - 1) : ℕ) : ℤ) := by
  split_ifs <;> omega

theorem Holds.ago (hb : Holds b h start) (hne : h ≠ []) (n : ℤ) :
    b.ago n = h.reverse[min n.toNat (h.length - 1)]? := by
  have hlen := List.length_pos_of_ne_nil hne
  have hle := hb.window.le
  unfold InputBuffer.ago
  simp only [hb.count, clamp_eq hlen, hb.head_cons hne]
  generalize hi : min n.toNat (h.length - 1) = i
  have hilt : i < h.length := by omega
  have hget := hb.window.get (h.length - 1 - i) (by omega)
  rw [show start + (h.length - 1 - i) = start + h.length - 1 - i by omega,
    RingBuffer.sub_mod_window (show i ≤ start + h.length - 1 by omega) (show i ≤ size by omega) (by omega)] at hget
  rw [List.getElem?_reverse hilt, List.getElem?_eq_getElem (by omega), ← hget]
  generalize (start + h.length - 1) % size = last
  -- the index goes around below zero where the slots go around
  rw [read, if_pos (by split_ifs <;> omega)]
  congr 1
  split_ifs <;> omega

/-- While nothing is stored, the last slot of the array is read. -/
theorem Holds.ago_isSome (hb : Holds b h start) (hsize : 0 < size) (n : ℤ) : (b.ago n).isSome := by
  by_cases hnil : h = []
  · subst hnil
    have hcount : b.count = 0 := hb.count
    have hhead : b.head = -1 := hb.head
    unfold InputBuffer.ago
    simp only [hcount, hhead]
    rw [show (if (if 0 ≤ n then (0 : ℤ) - 1 else n) < 0 then 0 else if 0 ≤ n then (0 : ℤ) - 1 else n) = 0 by
      split_ifs <;> omega]
    rw [if_pos (by omega), read, if_pos (by omega), Vector.getElem?_eq_getElem (by omega)]
    rfl
  · have hlen := List.length_pos_of_ne_nil hnil
    rw [hb.ago hnil, List.getElem?_eq_getElem (by rw [List.length_reverse]; omega)]
    rfl

end Ring

section History
/-- The snapshots pushed since the last clear. -/
def record (h : List (ActionSnapshot F)) : Op F → List (ActionSnapshot F)
  | .push snap => h ++ [snap]
  | .clear => []

/-- The bounded history, oldest snapshot first. -/
def history (size : ℕ) (ops : List (Op F)) : List (ActionSnapshot F) := (ops.foldl record []).rtake size

variable {start : ℕ}

/-- Dropping the oldest snapshots early loses none of the newest. -/
theorem rtake_concat_rtake {α : Type*} (l : List α) (x : α) (n : ℕ) :
    (l.rtake n ++ [x]).rtake n = (l ++ [x]).rtake n := by
  cases n with
  | zero => rw [List.rtake_zero, List.rtake_zero]
  | succ n =>
    rw [List.rtake_concat_succ, List.rtake_concat_succ, List.rtake_eq_reverse_take_reverse,
      List.rtake_eq_reverse_take_reverse, List.reverse_reverse, List.take_take, min_eq_left (Nat.le_succ n),
      ← List.rtake_eq_reverse_take_reverse]

theorem history_concat_push (ops : List (Op F)) (snap : ActionSnapshot F) :
    history size (ops ++ [.push snap]) = (history size ops ++ [snap]).rtake size := by
  rw [history, history, rtake_concat_rtake, List.foldl_append]
  rfl

theorem history_concat_clear (ops : List (Op F)) : history size (ops ++ [.clear]) = [] := by
  rw [history, List.foldl_append]
  exact List.rtake_nil size

theorem anyM_eq_some {α : Type*} {seen : α → Option Bool} {q : α → Bool} {l : List α}
    (hseen : ∀ a ∈ l, seen a = some (q a)) :
    l.anyM seen = some (l.any q) := by
  induction l with
  | nil => rfl
  | cons a l ih =>
    rw [List.anyM_cons, hseen a List.mem_cons_self, List.any_cons, ih fun a ha => hseen a (List.mem_cons_of_mem _ ha)]
    cases q a <;> rfl

/-- A loop over the frames of a window finds what the window has. -/
theorem anyM_window {α : Type*} {seen : ℕ → Option Bool} {p : α → Bool} {l : List α} {k : ℕ} (hk : k ≤ l.length)
    (hseen : ∀ i (hi : i < l.length), seen i = some (p l[i])) : (List.range k).anyM seen = some ((l.take k).any p) := by
  have hall : ∀ i ∈ List.range k, seen i = some (l[i]?.any p) := by
    intro i hi
    have hlt : i < l.length := Nat.lt_of_lt_of_le (List.mem_range.mp hi) hk
    rw [hseen i hlt, List.getElem?_eq_getElem hlt]
    rfl
  rw [anyM_eq_some hall, Option.some_inj, Bool.eq_iff_iff, List.any_eq_true, List.any_eq_true]
  constructor
  · intro ⟨i, hi, hp⟩
    have hlt : i < l.length := Nat.lt_of_lt_of_le (List.mem_range.mp hi) hk
    rw [List.getElem?_eq_getElem hlt] at hp
    exact ⟨l[i], List.mem_take_iff_getElem.mpr ⟨i, by rw [List.mem_range] at hi; omega, rfl⟩, hp⟩
  · intro ⟨x, hx, hp⟩
    obtain ⟨i, hi, rfl⟩ := List.mem_take_iff_getElem.mp hx
    refine ⟨i, List.mem_range.mpr (by omega), ?_⟩
    rw [List.getElem?_eq_getElem (by omega)]
    exact hp

theorem Holds.seen {α : Type*} (hb : Holds b h start) (p : ActionSnapshot F → α) (i : ℕ) (hi : i < h.reverse.length) :
    (b.ago i).map p = some (p h.reverse[i]) := by
  have hlen : i < h.length := by rwa [List.length_reverse] at hi
  rw [hb.ago (List.ne_nil_of_length_pos (by omega)), Int.toNat_natCast, min_eq_left (by omega),
    List.getElem?_eq_getElem hi]
  rfl

theorem Holds.wasPressed (hb : Holds b h start) (id : ActionId) (frames : ℤ) :
    b.wasPressed id frames = some ((h.rtake frames.toNat).any (·.justPressed id)) := by
  have hcount := hb.count
  unfold InputBuffer.wasPressed
  simp only
  rw [anyM_window (l := h.reverse) (p := (·.justPressed id)) (by rw [List.length_reverse]; split_ifs <;> omega)
      (hb.seen (·.justPressed id)),
    List.rtake_eq_reverse_take_reverse, List.any_reverse]
  split_ifs with hlt
  · rw [List.take_of_length_le (by rw [List.length_reverse]; omega),
      List.take_of_length_le (by rw [List.length_reverse]; omega)]
  · rfl

theorem Holds.heldFor (hb : Holds b h start) (id : ActionId) (frames : ℤ) :
    b.heldFor id frames = some (decide (frames ≤ h.length) && (h.rtake frames.toNat).all (·.isActive id)) := by
  have hcount := hb.count
  unfold InputBuffer.heldFor
  split_ifs with hlt
  · rw [decide_eq_false (by omega), Bool.false_and]
  · have hneg : ∀ i (hi : i < h.reverse.length),
        (! ·) <$> (b.ago i).map (·.isActive id) = some (!h.reverse[i].isActive id) := by
      intro i hi
      rw [hb.seen (·.isActive id) i hi]
      rfl
    rw [decide_eq_true (by omega), Bool.true_and, List.allM_eq_not_anyM_not,
      anyM_window (l := h.reverse) (p := fun snap => !snap.isActive id) (by rw [List.length_reverse]; omega) hneg,
      List.rtake_eq_reverse_take_reverse, List.all_reverse, List.all_eq_not_any_not]
    rfl

variable [FloatArith F]

/-- The answer that a history gives. An empty one has no newest snapshot to answer with. -/
def recalled (size : ℕ) (h : List (ActionSnapshot F)) : Query → Option (Answer F)
  | .current => h.getLast?.map .snapshot
  | .ago n => h.reverse[min n.toNat (h.length - 1)]?.map .snapshot
  | .count => some (.number h.length)
  | .full => some (.flag (decide (h.length = size)))
  | .wasPressed id frames => some (.flag ((h.rtake frames.toNat).any (·.justPressed id)))
  | .heldFor id frames => some (.flag (decide (frames ≤ h.length) && (h.rtake frames.toNat).all (·.isActive id)))
  | .heldDuration id => h.getLast?.map fun snap => .duration (durationOf id snap)

/-- The query stays inside the array, and where the history has an answer it is given. -/
def Answered (b : InputBuffer F size) (h : List (ActionSnapshot F)) (query : Query) : Prop :=
  ∃ answer, b.ask query = some answer ∧ ∀ expected, recalled size h query = some expected → answer = expected

/-- The queries that read the slot of the current frame unconditionally. -/
def Query.readsCurrent : Query → Prop
  | .current | .heldDuration _ => True
  | _ => False

theorem holds_run (hsize : 0 < size) (ctx : FrameContext F) (ops : List (Op F)) :
    ∃ b start, (create size ctx).run ops = some b ∧ Holds b (history size ops) start := by
  induction ops using List.reverseRecOn with
  | nil =>
    have hnil : history size ([] : List (Op F)) = [] := List.rtake_nil size
    rw [hnil]
    exact ⟨create size ctx, 0, rfl, .nil _ _ _, rfl, rfl⟩
  | append_singleton ops op ih =>
    obtain ⟨b, start, hrun, hb⟩ := ih
    have hstep : (create size ctx).run (ops ++ [op]) = b.apply op := by
      have hrun : ops.foldlM apply (create size ctx) = some b := hrun
      rw [run, List.foldlM_append, hrun]
      exact bind_pure (b.apply op)
    cases op with
    | push snap =>
      obtain ⟨b', start', hpush, hb'⟩ := hb.push hsize snap
      exact ⟨b', start', hstep.trans hpush, by rwa [history_concat_push]⟩
    | clear => exact ⟨b.clear, 0, hstep, by rw [history_concat_clear]; exact .clear b⟩

theorem Answered.of_eq {query : Query} (heq : b.ask query = recalled size h query)
    (hsome : (recalled size h query).isSome) :
    Answered b h query := by
  obtain ⟨answer, hanswer⟩ := Option.isSome_iff_exists.mp hsome
  refine ⟨answer, heq.trans hanswer, fun expected hexpected => ?_⟩
  rwa [hanswer, Option.some_inj] at hexpected

/-- Nothing is read in front of the array by the queries that look for stored snapshots. -/
theorem Holds.answered (hb : Holds b h start) (hsize : 0 < size) (query : Query) (hread : query.readsCurrent → h ≠ []) :
    Answered b h query := by
  cases query with
  | current =>
    refine .of_eq (by rw [ask, hb.current]; rfl) ?_
    rw [recalled, List.getLast?_eq_some_getLast (hread trivial)]
    rfl
  | heldDuration id =>
    refine .of_eq (by rw [ask, heldDuration, hb.current, Option.map_map]; rfl) ?_
    rw [recalled, List.getLast?_eq_some_getLast (hread trivial)]
    rfl
  | ago n =>
    by_cases hnil : h = []
    · obtain ⟨snap, hsnap⟩ := Option.isSome_iff_exists.mp (hb.ago_isSome hsize n)
      subst hnil
      exact ⟨.snapshot snap, by rw [ask, hsnap]; rfl, fun _ he => nomatch he⟩
    · have hlen := List.length_pos_of_ne_nil hnil
      refine .of_eq (by rw [ask, hb.ago hnil]; rfl) ?_
      rw [recalled, List.getElem?_eq_getElem (by rw [List.length_reverse]; omega)]
      rfl
  | count => exact .of_eq (by rw [ask, hb.count]; rfl) rfl
  | full =>
    have hle := hb.window.le
    refine .of_eq ?_ rfl
    rw [ask, full, hb.count, recalled, decide_eq_decide.mpr (show (size : ℤ) ≤ h.length ↔ h.length = size by omega)]
  | wasPressed id frames => exact .of_eq (by rw [ask, hb.wasPressed]; rfl) rfl
  | heldFor id frames => exact .of_eq (by rw [ask, hb.heldFor]; rfl) rfl

theorem Holds.ask_nil (hb : Holds b [] start) {query : Query} (hread : query.readsCurrent) : b.ask query = none := by
  have hcurrent : b.current = none := hb.current
  cases query with
  | current => rw [ask, hcurrent]; rfl
  | heldDuration id => rw [ask, heldDuration, hcurrent]; rfl
  | ago | count | full | wasPressed | heldFor => exact hread.elim

theorem run_answered_iff (hsize : 0 < size) (ctx : FrameContext F) (ops : List (Op F)) (query : Query) :
    ∃ b, (create size ctx).run ops = some b ∧
      (Answered b (history size ops) query ↔ (query.readsCurrent → history size ops ≠ [])) := by
  obtain ⟨b, start, hrun, hb⟩ := holds_run hsize ctx ops
  refine ⟨b, hrun, fun ⟨answer, hanswer, _⟩ hread hnil => ?_, hb.answered hsize query⟩
  rw [hnil] at hb
  rw [hb.ask_nil hread] at hanswer
  exact absurd hanswer (Option.some_ne_none answer).symm

end History
section Example
def noFrames : InputBuffer ℚ 16 := create 16 ⟨0, 0⟩

/-- Nothing is pushed, and the current snapshot is asked for. -/
theorem current_of_empty : ¬ ∀ (ops : List (Op ℚ)) (query : Query), ∃ b, noFrames.run ops = some b ∧
    Answered b (history 16 ops) query := by
  intro hall
  obtain ⟨b, hrun, answer, hanswer, -⟩ := hall [] .current
  obtain rfl : noFrames = b := Option.some_inj.mp hrun
  exact absurd hanswer (by rw [show noFrames.ask .current = none from rfl]; exact nofun)

theorem run_answered_cleared : 0 < 16 ∧ ∃ b, noFrames.run [.push (.empty ⟨0, 0⟩), .clear] = some b ∧
    (Answered b (history 16 [.push (.empty ⟨0, 0⟩), .clear]) (.ago 3) ↔
      (Query.readsCurrent (.ago 3) → history (F := ℚ) 16 [.push (.empty ⟨0, 0⟩), .clear] ≠ [])) :=
  ⟨by decide, run_answered_iff (by decide) ⟨0, 0⟩ [.push (.empty ⟨0, 0⟩), .clear] (.ago 3)⟩

end Example

end InputBuffer
end Zpc
