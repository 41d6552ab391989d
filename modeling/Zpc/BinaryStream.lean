import Mathlib.Data.List.Basic
import Mathlib.Tactic.Ring

/-!
# Binary streams

Values that are copied to a stream of bytes and back. A reader overwrites an old value, and keeps what it could not
overwrite once the stream has run out. A reader inverts a writer on a value when it reads back that value, and no more
than its bytes, whatever follows them.
-/
namespace BinaryStream
/-! ## Bytes of numbers -/

/-- Bytes of a number, the low ones first. -/
def toBytes : ℕ → ℕ → List UInt8
  | 0, _ => []
  | w + 1, n => UInt8.ofNat n :: toBytes w (n / 256)

def ofBytes : List UInt8 → ℕ
  | [] => 0
  | b :: bs => b.toNat + 256 * ofBytes bs

@[simp] theorem length_toBytes (w n : ℕ) : (toBytes w n).length = w := by
  induction w generalizing n with
  | zero => rfl
  | succ w ih => rw [toBytes, List.length_cons, ih]

theorem ofBytes_toBytes {w n : ℕ} (h : n < 256 ^ w) : ofBytes (toBytes w n) = n := by
  induction w generalizing n with
  | zero => simpa [toBytes, ofBytes, eq_comm] using h
  | succ w ih =>
    have hdiv : n / 256 < 256 ^ w := by
      apply Nat.div_lt_of_lt_mul
      rwa [pow_succ'] at h
    rw [toBytes, ofBytes, ih hdiv, UInt8.toNat_ofNat']
    exact Nat.mod_add_div n 256

/-! ## Values with a layout -/

/-- A type whose values are their bytes. -/
class Pod (α : Type) where
  size : ℕ
  bytes : α → List UInt8
  ofBytes : List UInt8 → α
  length_bytes : ∀ a, (bytes a).length = size
  ofBytes_bytes : ∀ a, ofBytes (bytes a) = a

attribute [simp] Pod.length_bytes Pod.ofBytes_bytes

variable {α β : Type}

instance : Pod UInt32 where
  size := 4
  bytes n := toBytes 4 n.toNat
  ofBytes bs := UInt32.ofNat (BinaryStream.ofBytes bs)
  length_bytes _ := length_toBytes ..
  ofBytes_bytes n := by
    rw [ofBytes_toBytes (by simpa using n.toNat_lt), UInt32.ofNat_toNat]

instance : Pod Bool where
  size := 1
  bytes b := [if b then 1 else 0]
  ofBytes bs := bs.headD 0 != 0
  length_bytes _ := rfl
  ofBytes_bytes b := by cases b <;> rfl

instance [Pod α] [Pod β] : Pod (α × β) where
  size := Pod.size α + Pod.size β
  bytes p := Pod.bytes p.1 ++ Pod.bytes p.2
  ofBytes bs := (Pod.ofBytes (bs.take (Pod.size α)), Pod.ofBytes (bs.drop (Pod.size α)))
  length_bytes p := by simp
  ofBytes_bytes p := by
    rw [List.take_left' (Pod.length_bytes _), List.drop_left' (Pod.length_bytes _)]
    simp

/-- The layout of a record is that of its fields. -/
abbrev Pod.ofFields [Pod β] (fields : α → β) (make : β → α) (h : ∀ a, make (fields a) = a) : Pod α where
  size := Pod.size β
  bytes a := Pod.bytes (fields a)
  ofBytes bs := make (Pod.ofBytes bs)
  length_bytes a := Pod.length_bytes _
  ofBytes_bytes a := by rw [Pod.ofBytes_bytes, h]

/-! ## Writing -/

abbrev OutStream := StateM (List UInt8)

def write (bs : List UInt8) : OutStream Unit := modify (· ++ bs)

def writePod [Pod α] (v : α) : OutStream Unit := write (Pod.bytes v)

/-- A count of four bytes before the elements. -/
def writePodVector [Pod α] (v : List α) : OutStream Unit := do
  let count := UInt32.ofNat v.length
  writePod count
  if 0 < count then write ((v.take count.toNat).flatMap Pod.bytes)

def writeString (s : List UInt8) : OutStream Unit := do
  let len := UInt32.ofNat s.length
  writePod len
  if 0 < len then write (s.take len.toNat)

/-- What a writer writes to an empty stream. -/
def written (w : OutStream Unit) : List UInt8 := (w.run []).2

/-! ## Reading -/

structure InStream where
  data : List UInt8
  failed : Bool := false

/-- Overwrites memory, as far as there are bytes. -/
def read (memory : List UInt8) : StateM InStream (List UInt8) := fun is =>
  if is.failed then (memory, is)
  else if memory.length ≤ is.data.length then
    (is.data.take memory.length, {is with data := is.data.drop memory.length})
  else (is.data ++ memory.drop is.data.length, ⟨[], true⟩)

def readPod [Pod α] (v : α) : StateM InStream α := do
  let memory ← read (Pod.bytes v)
  return Pod.ofBytes memory

def resize [Inhabited α] (v : List α) (count : ℕ) : List α := v.take count ++ List.replicate (count - v.length) default

/-- The elements that a stretch of memory holds. -/
def elements [Pod α] : ℕ → List UInt8 → List α
  | 0, _ => []
  | n + 1, memory => Pod.ofBytes (memory.take (Pod.size α)) :: elements n (memory.drop (Pod.size α))

def readPodVector [Pod α] [Inhabited α] (v : List α) : StateM InStream (List α) := do
  let count ← readPod (0 : UInt32)
  let v := resize v count.toNat
  if 0 < count then
    let memory ← read (v.flatMap Pod.bytes)
    return elements count.toNat memory
  else return v

def readString (s : List UInt8) : StateM InStream (List UInt8) := do
  let len ← readPod (0 : UInt32)
  let s := resize s len.toNat
  if 0 < len then read s else return s

/-! ## Reading back -/

/-- The reader gets the value back from what the writer appends, and leaves what follows. -/
def Inverts (w : OutStream Unit) (r : StateM InStream α) (a : α) : Prop :=
  ∃ bs, (∀ out, w.run out = ((), out ++ bs)) ∧ ∀ rest, r.run ⟨bs ++ rest, false⟩ = (a, ⟨rest, false⟩)

variable {w w' : OutStream Unit} {r : StateM InStream α} {a : α} {b : β}

theorem Inverts.run (h : Inverts w r a) (rest : List UInt8) :
    r.run ⟨written w ++ rest, false⟩ = (a, ⟨rest, false⟩) := by
  obtain ⟨bs, hw, hr⟩ := h
  have hwritten : written w = bs := by simp [written, hw]
  rw [hwritten, hr]

theorem Inverts.bind {f : α → StateM InStream β} (h : Inverts w r a) (h' : Inverts w' (f a) b) :
    Inverts (do w; w') (r >>= f) b := by
  obtain ⟨bs, hw, hr⟩ := h
  obtain ⟨bs', hw', hr'⟩ := h'
  refine ⟨bs ++ bs', fun out => ?_, fun rest => ?_⟩
  · rw [StateT.run_bind, hw]
    exact (hw' _).trans (by rw [List.append_assoc])
  · rw [StateT.run_bind, List.append_assoc, hr]
    exact hr' rest

theorem inverts_pure (a : α) : Inverts (pure ()) (pure a) a :=
  ⟨[], fun out => by rw [List.append_nil]; rfl, fun _ => rfl⟩

/-- After the last field the reader only puts the record together. -/
theorem Inverts.last {f : α → β} (h : Inverts w r a) : Inverts w (r >>= fun a => pure (f a)) (f a) := by
  have hb : Inverts (do w; pure ()) (r >>= fun a => pure (f a)) (f a) := h.bind (inverts_pure (f a))
  rwa [show (do w; pure ()) = w from bind_pure w] at hb

theorem inverts_write {memory bs : List UInt8} (h : memory.length = bs.length) : Inverts (write bs) (read memory) bs := by
  refine ⟨bs, fun _ => rfl, fun rest => ?_⟩
  unfold read
  simp only [StateT.run, Bool.false_eq_true, if_false]
  rw [if_pos (by simp [h]), h, List.take_left, List.drop_left]

theorem inverts_pod [Pod α] (old v : α) : Inverts (writePod v) (readPod old) v := by
  have hread : Inverts (write (Pod.bytes v)) (read (Pod.bytes old)) (Pod.bytes v) := inverts_write (by simp)
  have h : Inverts (writePod v) (readPod old) (Pod.ofBytes (Pod.bytes v)) := hread.last
  rwa [Pod.ofBytes_bytes] at h

theorem length_flatMap_bytes [Pod α] (v : List α) : (v.flatMap Pod.bytes).length = v.length * Pod.size α := by
  induction v with
  | nil => simp
  | cons a v ih => rw [List.flatMap_cons, List.length_append, ih, Pod.length_bytes, List.length_cons]; ring

theorem elements_flatMap [Pod α] (v : List α) : elements v.length (v.flatMap Pod.bytes) = v := by
  induction v with
  | nil => rfl
  | cons a v ih =>
    rw [List.length_cons, List.flatMap_cons, elements, List.take_left' (Pod.length_bytes a),
      List.drop_left' (Pod.length_bytes a), ih, Pod.ofBytes_bytes]

theorem length_resize [Inhabited α] (v : List α) (count : ℕ) : (resize v count).length = count := by
  simp only [resize, List.length_append, List.length_take, List.length_replicate]
  omega

theorem resize_zero [Inhabited α] (v : List α) : resize v 0 = [] := by
  simp [resize]

theorem toNat_count {n : ℕ} (h : n < 2 ^ 32) : (UInt32.ofNat n).toNat = n := UInt32.toNat_ofNat_of_lt' h

theorem count_pos {n : ℕ} (h : n < 2 ^ 32) : 0 < UInt32.ofNat n ↔ 0 < n := by
  rw [UInt32.lt_iff_toNat_lt, toNat_count h]
  rfl

theorem inverts_podVector [Pod α] [Inhabited α] (old : List α) {v : List α} (h : v.length < 2 ^ 32) :
    Inverts (writePodVector v) (readPodVector old) v := by
  apply (inverts_pod (0 : UInt32) (UInt32.ofNat v.length)).bind
  rw [toNat_count h, List.take_length]
  by_cases hpos : 0 < v.length
  · rw [if_pos ((count_pos h).mpr hpos), if_pos ((count_pos h).mpr hpos)]
    have hread : Inverts (write (v.flatMap Pod.bytes)) (read ((resize old v.length).flatMap Pod.bytes))
        (v.flatMap Pod.bytes) := by
      apply inverts_write
      rw [length_flatMap_bytes, length_flatMap_bytes, length_resize]
    have hlast : Inverts (write (v.flatMap Pod.bytes))
        (read ((resize old v.length).flatMap Pod.bytes) >>= fun memory => pure (elements v.length memory : List α))
        (elements v.length (v.flatMap Pod.bytes)) := hread.last
    rwa [elements_flatMap] at hlast
  · rw [if_neg (mt (count_pos h).mp hpos), if_neg (mt (count_pos h).mp hpos)]
    have hnil : v = [] := List.length_eq_zero_iff.mp (by omega)
    rw [hnil, List.length_nil, resize_zero]
    exact inverts_pure []

theorem inverts_string (old : List UInt8) {s : List UInt8} (h : s.length < 2 ^ 32) :
    Inverts (writeString s) (readString old) s := by
  apply (inverts_pod (0 : UInt32) (UInt32.ofNat s.length)).bind
  rw [toNat_count h, List.take_length]
  by_cases hpos : 0 < s.length
  · rw [if_pos ((count_pos h).mpr hpos), if_pos ((count_pos h).mpr hpos)]
    exact inverts_write (length_resize old s.length)
  · rw [if_neg (mt (count_pos h).mp hpos), if_neg (mt (count_pos h).mp hpos)]
    have hnil : s = [] := List.length_eq_zero_iff.mp (by omega)
    rw [hnil, List.length_nil, resize_zero]
    exact inverts_pure []

/-- Elements written one after the other are read over as many old ones. -/
theorem inverts_forM {write : α → OutStream Unit} {read : α → StateM InStream α} {v olds : List α}
    (h : ∀ a ∈ v, ∀ old, Inverts (write a) (read old) a) (hlen : olds.length = v.length) :
    Inverts (v.forM write) (olds.mapM read) v := by
  induction v generalizing olds with
  | nil =>
    rw [List.length_eq_zero_iff.mp hlen]
    exact inverts_pure []
  | cons a v ih =>
    cases olds with
    | nil => cases hlen
    | cons old olds =>
      rw [List.mapM_cons]
      apply (h a List.mem_cons_self old).bind
      exact (ih (fun b hb => h b (List.mem_cons_of_mem a hb)) (Nat.succ.inj hlen)).last

/-! ## Streams that end early -/

/-- A writer that only adds bytes. -/
def Appends (w : OutStream Unit) : Prop := ∃ bs, ∀ out, w.run out = ((), out ++ bs)

theorem appends_write (bs : List UInt8) : Appends (write bs) := ⟨bs, fun _ => rfl⟩

theorem appends_pure : Appends (pure ()) := ⟨[], fun out => by rw [List.append_nil]; rfl⟩

theorem appends_pod [Pod α] (v : α) : Appends (writePod v) := appends_write _

theorem Appends.bind (h : Appends w) (h' : Appends w') : Appends (do w; w') := by
  obtain ⟨bs, hw⟩ := h
  obtain ⟨bs', hw'⟩ := h'
  refine ⟨bs ++ bs', fun out => ?_⟩
  rw [StateT.run_bind, hw]
  exact (hw' _).trans (by rw [List.append_assoc])

theorem appends_podVector [Pod α] (v : List α) : Appends (writePodVector v) := by
  apply (appends_pod _).bind
  split
  · exact appends_write _
  · exact appends_pure

theorem appends_string (s : List UInt8) : Appends (writeString s) := by
  apply (appends_pod _).bind
  split
  · exact appends_write _
  · exact appends_pure

theorem appends_forM {write : α → OutStream Unit} (v : List α) (h : ∀ a, Appends (write a)) : Appends (v.forM write) := by
  induction v with
  | nil => exact appends_pure
  | cons a v ih => exact (h a).bind ih

/-- What is written after a value follows its bytes. -/
theorem written_pod_bind [Pod α] (v : α) (h : Appends w) :
    ∃ rest, written (do writePod v; w) = Pod.bytes v ++ rest := by
  obtain ⟨bs, hw⟩ := h
  refine ⟨bs, ?_⟩
  unfold written
  rw [StateT.run_bind]
  exact congrArg Prod.snd (hw _)

/-- A value read from the first bytes of a stream is completed by the old one. -/
theorem readPod_take [Pod α] (old v : α) (rest : List UInt8) (n : ℕ) :
    ((readPod old).run ⟨(Pod.bytes v ++ rest).take n, false⟩).1 =
      Pod.ofBytes ((Pod.bytes v).take n ++ (Pod.bytes old).drop n) := by
  have hlen : (Pod.bytes old).length = (Pod.bytes v).length := by simp
  have hread : ((read (Pod.bytes old)).run ⟨(Pod.bytes v ++ rest).take n, false⟩).1 =
      (Pod.bytes v).take n ++ (Pod.bytes old).drop n := by
    unfold read
    simp only [StateT.run, Bool.false_eq_true, if_false]
    by_cases hn : (Pod.bytes v).length ≤ n
    · have hdrop : (Pod.bytes old).drop n = [] := List.drop_of_length_le (hlen ▸ hn)
      rw [List.take_append, List.take_of_length_le hn, hdrop, List.append_nil, if_pos (by simp), hlen, List.take_left]
    · have hn : n < (Pod.bytes v).length := by omega
      rw [List.take_append_of_le_length hn.le, if_neg (by rw [List.length_take]; omega), List.length_take,
        Nat.min_eq_left hn.le]
  exact congrArg Pod.ofBytes hread

theorem ofBytes_append [Pod α] [Pod β] {bs : List UInt8} (h : bs.length = Pod.size α) (rest : List UInt8) :
    (Pod.ofBytes (bs ++ rest) : α × β) = (Pod.ofBytes bs, Pod.ofBytes rest) :=
  Prod.ext (congrArg Pod.ofBytes (List.take_left' h)) (congrArg Pod.ofBytes (List.drop_left' h))

/-- The first bytes of a number, completed by those of zero. -/
theorem ofBytes_take {w n : ℕ} (h : n < 256 ^ w) (k : ℕ) :
    ofBytes ((toBytes w n).take k ++ (toBytes w 0).drop k) = n % 256 ^ k := by
  induction w generalizing n k with
  | zero =>
    have hn : n = 0 := by simpa using h
    simp [toBytes, ofBytes, hn]
  | succ w ih =>
    cases k with
    | zero => rw [List.take_zero, List.drop_zero, List.nil_append, ofBytes_toBytes (Nat.pow_pos (by decide)), pow_zero,
        Nat.mod_one]
    | succ k =>
      have hdiv : n / 256 < 256 ^ w := by
        apply Nat.div_lt_of_lt_mul
        rwa [pow_succ'] at h
      have hmod : n % 256 ^ (k + 1) = n % 256 + 256 * (n / 256 % 256 ^ k) := by rw [pow_succ', Nat.mod_mul]
      rw [toBytes, toBytes, List.take_succ_cons, List.drop_succ_cons, List.cons_append, ofBytes, Nat.zero_div, ih hdiv,
        UInt8.toNat_ofNat', hmod]

end BinaryStream
