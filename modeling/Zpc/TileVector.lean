import Zpc.VectorSerialization
import Mathlib.Tactic.Ring

/-!
# Tile vectors

A `TileVector` stores its elements in tiles: a tile holds, channel by channel, the values of as many elements as it has
lanes. Its buffer is a `Vector` that grows by whole tiles. Appended properties come after the old ones, in a tile vector
of more channels that the old values are copied into.
-/
namespace Zpc
variable {T : Type*}

section Definitions
def Vector.alignedCapacity (v : Vector T) (newSize alignment : ℕ) : ℕ :=
  let newCapacity := v.geometricSizeGrowth newSize
  let r := newCapacity % alignment
  newCapacity + if r ≠ 0 then alignment - r else 0

/-- `alignedResize`; a vector on virtual memory grows in place. -/
def Vector.alignedResize (junk : T) (onVirtual : Bool) (v : Vector T) (newSize alignment : ℕ) : Option (Vector T) :=
  if newSize < v.size then some { v with size := newSize }
  else if v.size < newSize then
    if v.capacity < newSize then
      if onVirtual then some { v with
        base := v.base ++ List.replicate (v.alignedCapacity newSize alignment - v.base.length) junk
        capacity := v.alignedCapacity newSize alignment
        size := newSize }
      else (v.copyTo (Vector.allocate junk v.onHost (v.alignedCapacity newSize alignment))).map fun tmp =>
        { tmp with size := newSize }
    else some { v with size := newSize }
  else some v

/-- The copy constructor of `Vector`, which keeps the capacity. -/
def Vector.copy (junk : T) (o : Vector T) : Option (Vector T) :=
  o.copyTo { Vector.allocate junk o.onHost o.capacity with size := o.size }

/-- `Resource::copy` of the first `count` slots. -/
def Vector.copySlots (src dst : Vector T) (count : ℕ) : Option (Vector T) :=
  if count ≤ src.base.length ∧ count ≤ dst.base.length then
    some { dst with base := src.base.take count ++ dst.base.drop count }
  else none

structure PropertyTag where
  name : String
  numChannels : ℕ

structure TileVector (T : Type*) where
  buffer : Vector T
  tags : List PropertyTag
  size : ℕ
  numChannels : ℕ

namespace TileVector
variable (lane : ℕ) (junk : T) (onVirtual : Bool)

def countTiles (elementCount : ℕ) : ℕ := (elementCount + lane - 1) / lane

def numTotalChannels (tags : List PropertyTag) : ℕ := tags.foldl (fun cnt tag => cnt + tag.numChannels) 0

/-- The constructor. -/
def make (onHost : Bool) (channelTags : List PropertyTag) (count : ℕ) : TileVector T where
  buffer := Vector.allocate junk onHost (countTiles lane count * lane * numTotalChannels channelTags)
  tags := channelTags
  size := count
  numChannels := numTotalChannels channelTags

/-- The address of an element's value in a channel, for `operator[]` and for views. -/
def address (t : TileVector T) (chn idx : ℕ) : ℕ := (idx / lane * t.numChannels + chn) * lane + idx % lane

def get (t : TileVector T) (chn idx : ℕ) : Option T := t.buffer.base[t.address lane chn idx]?

def set (t : TileVector T) (chn idx : ℕ) (val : T) : Option (TileVector T) :=
  if t.address lane chn idx < t.buffer.base.length then
    some { t with buffer := { t.buffer with base := t.buffer.base.set (t.address lane chn idx) val } }
  else none

/-- `capacity`, which divides by the number of the channels. -/
def capacity (t : TileVector T) : Option ℕ := if t.numChannels = 0 then none else some (t.buffer.capacity / t.numChannels)

def resize (t : TileVector T) (newSize : ℕ) : Option (TileVector T) :=
  (t.buffer.alignedResize junk onVirtual (countTiles lane newSize * lane * t.numChannels) (lane * t.numChannels)).map
    fun buffer => { t with buffer := buffer, size := newSize }

/-- The copy constructor, which copies once more what the buffer has room for. -/
def copy (junk : T) (o : TileVector T) : Option (TileVector T) :=
  (o.buffer.copy junk).bind fun buffer => o.capacity.bind fun capacity =>
    if 0 < capacity then
      (o.buffer.copySlots buffer (o.numChannels * capacity)).map fun buffer => { o with buffer := buffer }
    else some { o with buffer := buffer }

/-- The loop of `append_channels` over the new tags, with the flag that tells whether there is one. -/
def appendTags (tags : List PropertyTag) (modified : Bool) : List PropertyTag → Except String (List PropertyTag × Bool)
  | [] => .ok (tags, modified)
  | tag :: rest => match tags.find? (·.name = tag.name) with
    | none => appendTags (tags ++ [tag]) true rest
    | some old =>
      if old.numChannels ≠ tag.numChannels then
        .error ("append_channels: property[" ++ tag.name ++ "] currently has [" ++ toString old.numChannels ++
          "] channels, cannot change it to [" ++ toString tag.numChannels ++ "] channels.")
      else appendTags tags modified rest

/-- `TileVectorCopy` on an element: the channels of the source, and zeros in the others. -/
def tileVectorCopy (zero : T) (src dst : TileVector T) (i : ℕ) : Option (TileVector T) :=
  (List.range dst.numChannels).foldlM (fun dst chn =>
    if chn < src.numChannels then (src.get lane chn i).bind fun val => dst.set lane chn i val
    else dst.set lane chn i zero) dst

/-- `append_channels`; the elements are copied in some order. -/
def appendChannels (zero : T) (order : List ℕ) (t : TileVector T) (newTags : List PropertyTag) :
    Except String (Option (TileVector T)) :=
  match appendTags t.tags false newTags with
  | .error e => .error e
  | .ok (tags, modified) =>
    if modified then .ok (order.foldlM (tileVectorCopy lane zero t) (make lane junk t.buffer.onHost tags t.size))
    else .ok (some t)

/-- The loop of `getPropertyOffset`. -/
def propertyOffset (str : String) : ℤ → List PropertyTag → ℤ
  | _, [] => -1
  | offset, tag :: rest => if str = tag.name then offset else propertyOffset str (offset + tag.numChannels) rest

def extended (zero : T) (src : TileVector T) (chn idx : ℕ) : Option T :=
  if chn < src.numChannels then src.get lane chn idx else some zero

/-- The tile vectors that come from constructions, resizes, copies and appended channels. -/
inductive Reached : TileVector T → Prop
  | make (onHost : Bool) (channelTags : List PropertyTag) (count : ℕ) : Reached (make lane junk onHost channelTags count)
  | resize {t t' : TileVector T} (h : Reached t) (newSize : ℕ) (he : t.resize lane junk onVirtual newSize = some t') :
      Reached t'
  | copy {t t' : TileVector T} (h : Reached t) (he : copy junk t = some t') : Reached t'
  | appendChannels {t t' : TileVector T} (h : Reached t) (zero : T) (order : List ℕ)
      (ho : order.Perm (List.range t.size)) (newTags : List PropertyTag)
      (he : t.appendChannels lane junk zero order newTags = .ok (some t')) : Reached t'
  | write {t t' : TileVector T} (h : Reached t) (chn idx : ℕ) (val : T) (he : t.set lane chn idx val = some t') : Reached t'

/-- The buffer has the whole tiles of the elements, for the channels of the tags. -/
structure Valid (t : TileVector T) : Prop where
  buffer : t.buffer.Valid
  size_eq : t.buffer.size = countTiles lane t.size * lane * t.numChannels
  channels : t.numChannels = numTotalChannels t.tags

structure SameShape (t t' : TileVector T) : Prop where
  tags : t'.tags = t.tags
  size : t'.size = t.size
  numChannels : t'.numChannels = t.numChannels

end TileVector
end Definitions

namespace Vector
variable {junk : T} {onVirtual : Bool} {v : Vector T} {newSize alignment : ℕ}

theorem getElem?_of_take {l l' : List T} {n a : ℕ} (h : l.take n = l'.take n) (ha : a < n) : l[a]? = l'[a]? := by
  rw [← List.getElem?_take_of_lt ha, h, List.getElem?_take_of_lt ha]

/-- What is read after the first slots have been overwritten. -/
theorem getElem?_take_append_drop {l l' : List T} {n a : ℕ} (hn : n ≤ l.length) :
    (l.take n ++ l'.drop n)[a]? = if a < n then l[a]? else l'[a]? := by
  have htake : (l.take n).length = n := List.length_take_of_le hn
  by_cases ha : a < n
  · rw [if_pos ha, List.getElem?_append_left (by omega), List.getElem?_take_of_lt ha]
  · rw [if_neg ha, List.getElem?_append_right (by omega), htake, List.getElem?_drop, Nat.add_sub_cancel' (by omega)]

/-- A growth in place or into new memory keeps the elements up to the new size. -/
theorem alignedResize_spec (h : v.Valid) (junk : T) (onVirtual : Bool) (newSize alignment : ℕ) :
    ∃ w, v.alignedResize junk onVirtual newSize alignment = some w ∧ w.Valid ∧ w.size = newSize ∧
      ∀ a < v.size, a < newSize → w.base[a]? = v.base[a]? := by
  have hsize := h.size_le
  have hcapacity := h.capacity_le
  have hgrowth := le_geometricSizeGrowth v newSize
  rw [alignedResize]
  by_cases hlt : newSize < v.size
  · exact ⟨_, if_pos hlt, ⟨hlt.le.trans hsize, hcapacity⟩, rfl, fun _ _ _ => rfl⟩
  rw [if_neg hlt]
  by_cases hgt : v.size < newSize
  case neg => exact ⟨_, if_neg hgt, h, by omega, fun _ _ _ => rfl⟩
  rw [if_pos hgt]
  by_cases hcap : v.capacity < newSize
  case neg => exact ⟨_, if_neg hcap, ⟨Nat.le_of_not_lt hcap, hcapacity⟩, rfl, fun _ _ _ => rfl⟩
  rw [if_pos hcap]
  have hroom : newSize ≤ v.alignedCapacity newSize alignment := hgrowth.trans (Nat.le_add_right _ _)
  generalize v.alignedCapacity newSize alignment = newCapacity at hroom ⊢
  cases onVirtual with
  | true =>
    refine ⟨_, rfl, ⟨hroom, ?_⟩, rfl, fun a ha _ => ?_⟩
    · show newCapacity ≤ (v.base ++ _).length
      rw [List.length_append, List.length_replicate]
      omega
    · exact List.getElem?_append_left (by omega)
  | false =>
    have hfit : v.size ≤ (allocate junk v.onHost newCapacity).base.length := by
      rw [allocate, List.length_replicate]
      omega
    obtain ⟨w, hw, -, -, hc, hlen, htake⟩ := copyTo_spec h.size_le_length hfit
    rw [allocate, List.length_replicate] at hlen
    refine ⟨{ w with size := newSize }, ?_, ⟨?_, ?_⟩, rfl, fun a ha _ => getElem?_of_take htake ha⟩
    · show (v.copyTo (allocate junk v.onHost newCapacity)).map _ = _
      rw [hw, Option.map_some]
    · exact hc ▸ hroom
    · rw [hlen, hc]
      exact le_rfl

theorem copy_spec (h : v.Valid) (junk : T) : ∃ w, v.copy junk = some w ∧ w.Valid ∧ w.size = v.size ∧
    w.capacity = v.capacity ∧ w.onHost = v.onHost ∧ w.base.length = v.capacity ∧
    ∀ a < v.size, w.base[a]? = v.base[a]? := by
  have hfit : v.size ≤ ({ allocate junk v.onHost v.capacity with size := v.size } : Vector T).base.length := by
    show v.size ≤ (List.replicate v.capacity junk).length
    rw [List.length_replicate]
    exact h.size_le
  obtain ⟨w, hw, hhost, hsize, hc, hlen, htake⟩ := copyTo_spec h.size_le_length hfit
  have hlen' : w.base.length = v.capacity := hlen.trans (List.length_replicate ..)
  have hc' : w.capacity = v.capacity := hc
  have hsize' : w.size = v.size := hsize
  refine ⟨w, hw, ⟨?_, ?_⟩, hsize', hc', hhost, hlen', fun a ha => getElem?_of_take htake ha⟩
  · rw [hsize', hc']
    exact h.size_le
  · rw [hc', hlen']

end Vector

namespace TileVector
variable {lane : ℕ} {junk zero : T} {onVirtual : Bool} {t t' src dst : TileVector T} {c c' i i' : ℕ}

section Addresses
theorem address_div (hl : 0 < lane) (t : TileVector T) (c i : ℕ) :
    t.address lane c i / lane = i / lane * t.numChannels + c := by
  rw [address, Nat.mul_comm _ lane, Nat.mul_add_div hl, Nat.div_eq_of_lt (Nat.mod_lt i hl), Nat.add_zero]

theorem address_mod (t : TileVector T) (c i : ℕ) : t.address lane c i % lane = i % lane := by
  rw [address, Nat.mul_comm _ lane, Nat.mul_add_mod, Nat.mod_mod]

/-- Different places have different addresses. -/
theorem address_inj (hl : 0 < lane) (hc : c < t.numChannels) (hc' : c' < t.numChannels)
    (h : t.address lane c i = t.address lane c' i') : c = c' ∧ i = i' := by
  have hdiv := congrArg (· / lane) h
  have hmod := congrArg (· % lane) h
  simp only [address_div hl, address_mod] at hdiv hmod
  have hpos : 0 < t.numChannels := Nat.zero_lt_of_lt hc
  have htile := congrArg (· / t.numChannels) hdiv
  have hchn := congrArg (· % t.numChannels) hdiv
  simp only [Nat.mul_comm _ t.numChannels, Nat.mul_add_div hpos, Nat.div_eq_of_lt hc, Nat.div_eq_of_lt hc', Nat.add_zero,
    Nat.mul_add_mod, Nat.mod_eq_of_lt hc, Nat.mod_eq_of_lt hc'] at htile hchn
  refine ⟨hchn, ?_⟩
  rw [← Nat.div_add_mod i lane, htile, hmod, Nat.div_add_mod]

theorem tile_lt {n : ℕ} (hl : 0 < lane) (hi : i < n) : i / lane < countTiles lane n := by
  rw [countTiles, ← Nat.succ_le_iff, Nat.le_div_iff_mul_le hl, Nat.succ_mul]
  have h := Nat.div_mul_le_self i lane
  omega

/-- An element below the size has its values within the whole tiles. -/
theorem address_lt {n : ℕ} (hl : 0 < lane) (hc : c < t.numChannels) (hi : i < n) :
    t.address lane c i < countTiles lane n * lane * t.numChannels := by
  have htile := tile_lt hl hi
  calc t.address lane c i < (i / lane * t.numChannels + c + 1) * lane := by
        rw [address, Nat.succ_mul]
        exact Nat.add_lt_add_left (Nat.mod_lt i hl) _
    _ ≤ (i / lane * t.numChannels + t.numChannels) * lane := Nat.mul_le_mul_right _ (by omega)
    _ = (i / lane + 1) * lane * t.numChannels := by ring
    _ ≤ countTiles lane n * lane * t.numChannels :=
        Nat.mul_le_mul_right _ (Nat.mul_le_mul_right _ htile)

theorem Valid.address_lt_size (h : Valid lane t) (hl : 0 < lane) (hc : c < t.numChannels) (hi : i < t.size) :
    t.address lane c i < t.buffer.size := h.size_eq ▸ address_lt hl hc hi

end Addresses

section Operations
theorem make_valid (onHost : Bool) (channelTags : List PropertyTag) (count : ℕ) :
    Valid lane (make lane junk onHost channelTags count) where
  buffer := ⟨le_rfl, by rw [make, Vector.allocate, List.length_replicate]⟩
  size_eq := rfl
  channels := rfl

theorem Valid.resize (h : Valid lane t) (hl : 0 < lane) (junk : T) (onVirtual : Bool) (newSize : ℕ) :
    ∃ t', t.resize lane junk onVirtual newSize = some t' ∧ Valid lane t' ∧ t'.size = newSize ∧ t'.tags = t.tags ∧
      t'.numChannels = t.numChannels ∧
      ∀ c < t.numChannels, ∀ i < t.size, i < newSize → t'.get lane c i = t.get lane c i := by
  obtain ⟨w, hw, hvalid, hsize, hkeep⟩ := Vector.alignedResize_spec h.buffer junk onVirtual
    (countTiles lane newSize * lane * t.numChannels) (lane * t.numChannels)
  refine ⟨{ t with buffer := w, size := newSize }, ?_, ⟨hvalid, hsize, h.channels⟩, rfl, rfl, rfl,
    fun c hc i hi hi' => ?_⟩
  · rw [TileVector.resize, hw, Option.map_some]
  · exact hkeep _ (h.address_lt_size hl hc hi) (address_lt hl hc hi')

/-- A copy of a tile vector with channels. -/
theorem Valid.copy (h : Valid lane t) (hl : 0 < lane) (junk : T) (hn : t.numChannels ≠ 0) :
    ∃ t', copy junk t = some t' ∧ Valid lane t' ∧ t'.size = t.size ∧ t'.tags = t.tags ∧
      t'.numChannels = t.numChannels ∧
      ∀ c < t.numChannels, ∀ i < t.size, t'.get lane c i = t.get lane c i := by
  obtain ⟨w, hw, hvalid, hsize, hc, -, hlen, hkeep⟩ := Vector.copy_spec h.buffer junk
  have hcount : t.numChannels * (t.buffer.capacity / t.numChannels) ≤ t.buffer.capacity := Nat.mul_div_le _ _
  have hcapacity := h.buffer.capacity_le
  have hcap : t.capacity = some (t.buffer.capacity / t.numChannels) := if_neg hn
  rw [TileVector.copy, hw, Option.bind_some, hcap, Option.bind_some]
  split
  case isFalse =>
    refine ⟨_, rfl, ⟨hvalid, hsize.trans h.size_eq, h.channels⟩, rfl, rfl, rfl, fun c hc i hi => ?_⟩
    exact hkeep _ (h.address_lt_size hl hc hi)
  case isTrue =>
    rw [Vector.copySlots, if_pos ⟨hcount.trans hcapacity, by rw [hlen]; exact hcount⟩, Option.map_some]
    refine ⟨_, rfl, ⟨⟨hvalid.size_le, ?_⟩, hsize.trans h.size_eq, h.channels⟩, rfl, rfl, rfl, fun c hc i hi => ?_⟩
    · show w.capacity ≤ (t.buffer.base.take _ ++ w.base.drop _).length
      rw [List.length_append, List.length_take, List.length_drop, hlen]
      omega
    · have hlt := h.address_lt_size hl hc hi
      show (t.buffer.base.take _ ++ w.base.drop _)[t.address lane c i]? = t.buffer.base[t.address lane c i]?
      rw [Vector.getElem?_take_append_drop (hcount.trans hcapacity)]
      split
      next => rfl
      next => exact hkeep _ hlt

end Operations

section Writes
theorem SameShape.trans {u : TileVector T} (h : SameShape t t') (h' : SameShape t' u) : SameShape t u :=
  ⟨h'.tags.trans h.tags, h'.size.trans h.size, h'.numChannels.trans h.numChannels⟩

theorem Valid.exists_get (h : Valid lane t) (hl : 0 < lane) (hc : c < t.numChannels) (hi : i < t.size) :
    ∃ val, t.get lane c i = some val :=
  ⟨_, List.getElem?_eq_getElem ((h.address_lt_size hl hc hi).trans_le
    (h.buffer.size_le.trans h.buffer.capacity_le))⟩

theorem Valid.of_set {val : T} (h : Valid lane t) (hs : t.set lane c i val = some t') :
    Valid lane t' ∧ SameShape t t' := by
  rw [set] at hs
  split at hs
  case isFalse => cases hs
  case isTrue =>
    cases hs
    refine ⟨⟨⟨h.buffer.size_le, ?_⟩, h.size_eq, h.channels⟩, rfl, rfl, rfl⟩
    show t.buffer.capacity ≤ (t.buffer.base.set _ val).length
    rw [List.length_set]
    exact h.buffer.capacity_le

/-- A write is read back, and nothing else changes. -/
theorem Valid.set (h : Valid lane t) (hl : 0 < lane) (hc : c < t.numChannels) (hi : i < t.size) (val : T) :
    ∃ t', t.set lane c i val = some t' ∧ Valid lane t' ∧ SameShape t t' ∧ ∀ c' < t.numChannels, ∀ i',
      t'.get lane c' i' = if c' = c ∧ i' = i then some val else t.get lane c' i' := by
  have hlt : t.address lane c i < t.buffer.base.length :=
    (h.address_lt_size hl hc hi).trans_le (h.buffer.size_le.trans h.buffer.capacity_le)
  have hset : t.set lane c i val = some
      { t with buffer := { t.buffer with base := t.buffer.base.set (t.address lane c i) val } } := if_pos hlt
  obtain ⟨hvalid, hshape⟩ := h.of_set hset
  refine ⟨_, hset, hvalid, hshape, fun c' hc' i' => ?_⟩
  show (t.buffer.base.set (t.address lane c i) val)[t.address lane c' i']? = _
  by_cases heq : c' = c ∧ i' = i
  · obtain ⟨rfl, rfl⟩ := heq
    rw [if_pos ⟨rfl, rfl⟩, List.getElem?_set_self hlt]
  · have hne : t.address lane c i ≠ t.address lane c' i' := fun ha => by
      obtain ⟨rfl, rfl⟩ := address_inj hl hc hc' ha
      exact heq ⟨rfl, rfl⟩
    rw [if_neg heq, List.getElem?_set_ne hne]
    rfl

theorem copyChannel_eq (zero : T) (src dst : TileVector T) (chn i : ℕ) :
    (if chn < src.numChannels then (src.get lane chn i).bind fun val => dst.set lane chn i val
      else dst.set lane chn i zero) = (extended lane zero src chn i).bind fun val => dst.set lane chn i val := by
  rw [extended]
  split
  next => rfl
  next => rfl

theorem exists_extended (hsrc : Valid lane src) (hl : 0 < lane) (zero : T) (chn : ℕ) (hi : i < src.size) :
    ∃ val, extended lane zero src chn i = some val := by
  rw [extended]
  split
  next hc => exact hsrc.exists_get hl hc hi
  next => exact ⟨zero, rfl⟩

theorem copyChannels_spec (hsrc : Valid lane src) (hl : 0 < lane) (zero : T) (hi : i < src.size) (chns : List ℕ)
    (dst : TileVector T) (hdst : Valid lane dst) (hsize : dst.size = src.size) (hchns : ∀ c ∈ chns, c < dst.numChannels) :
    ∃ dst', chns.foldlM (fun dst chn =>
        if chn < src.numChannels then (src.get lane chn i).bind fun val => dst.set lane chn i val
        else dst.set lane chn i zero) dst = some dst' ∧ Valid lane dst' ∧ SameShape dst dst' ∧
      ∀ c < dst.numChannels, ∀ j, dst'.get lane c j =
        if c ∈ chns ∧ j = i then extended lane zero src c i else dst.get lane c j := by
  induction chns generalizing dst with
  | nil => exact ⟨dst, rfl, hdst, ⟨rfl, rfl, rfl⟩, fun c _ j => by rw [if_neg (by simp)]⟩
  | cons chn chns ih =>
    obtain ⟨val, hval⟩ := exists_extended hsrc hl zero chn hi
    obtain ⟨mid, hset, hmid, hshape, hget⟩ := hdst.set hl (hchns chn List.mem_cons_self) (hsize ▸ hi) val
    obtain ⟨dst', hfold, hvalid, hshape', hget'⟩ := ih mid hmid (hshape.size.trans hsize) fun c hc =>
      hshape.numChannels ▸ hchns c (List.mem_cons_of_mem _ hc)
    refine ⟨dst', ?_, hvalid, hshape.trans hshape', fun c hc j => ?_⟩
    · rw [List.foldlM_cons, copyChannel_eq, hval, Option.bind_some, hset]
      exact hfold
    · rw [hget' c (hshape.numChannels ▸ hc) j, hget c hc j]
      simp only [List.mem_cons]
      by_cases hj : j = i
      case neg => simp only [hj, and_false, if_false]
      by_cases hmem : c ∈ chns
      · simp only [hmem, or_true, hj, and_true, if_true]
      · by_cases heq : c = chn
        · simp only [heq, hj, hval, true_or, and_true, if_true, ite_self]
        · simp only [heq, hmem, hj, or_false, false_and, if_false]

/-- Whichever order the elements are copied in. -/
theorem copyElements_spec (hsrc : Valid lane src) (hl : 0 < lane) (zero : T) (order : List ℕ)
    (horder : ∀ i ∈ order, i < src.size) (dst : TileVector T) (hdst : Valid lane dst) (hsize : dst.size = src.size) :
    ∃ dst', order.foldlM (tileVectorCopy lane zero src) dst = some dst' ∧ Valid lane dst' ∧ SameShape dst dst' ∧
      ∀ c < dst.numChannels, ∀ j, dst'.get lane c j =
        if j ∈ order then extended lane zero src c j else dst.get lane c j := by
  induction order generalizing dst with
  | nil => exact ⟨dst, rfl, hdst, ⟨rfl, rfl, rfl⟩, fun c _ j => by rw [if_neg List.not_mem_nil]⟩
  | cons i order ih =>
    obtain ⟨mid, hcopy, hmid, hshape, hget⟩ := copyChannels_spec hsrc hl zero (horder i List.mem_cons_self)
      (List.range dst.numChannels) dst hdst hsize fun c hc => List.mem_range.mp hc
    obtain ⟨dst', hfold, hvalid, hshape', hget'⟩ := ih (fun j hj => horder j (List.mem_cons_of_mem _ hj)) mid hmid
      (hshape.size.trans hsize)
    refine ⟨dst', ?_, hvalid, hshape.trans hshape', fun c hc j => ?_⟩
    · rw [List.foldlM_cons]
      show (tileVectorCopy lane zero src dst i).bind _ = _
      rw [tileVectorCopy, hcopy]
      exact hfold
    · rw [hget' c (hshape.numChannels ▸ hc) j, hget c hc j]
      simp only [List.mem_cons]
      by_cases hmem : j ∈ order
      · simp only [hmem, or_true, if_true]
      · by_cases hj : j = i
        · simp only [hj, List.mem_range, hc, true_and, true_or, if_true, ite_self]
        · simp only [hmem, hj, and_false, or_false, if_false]

end Writes

section Tags
theorem numTotalChannels_append (tags extra : List PropertyTag) :
    numTotalChannels tags ≤ numTotalChannels (tags ++ extra) := by
  rw [numTotalChannels, numTotalChannels, List.foldl_append]
  generalize tags.foldl _ 0 = cnt
  induction extra generalizing cnt with
  | nil => exact le_rfl
  | cons tag extra ih => exact (Nat.le_add_right _ _).trans (ih _)

/-- New tags come after the old ones. -/
theorem appendTags_eq {newTags tags tags' : List PropertyTag} {m m' : Bool}
    (h : appendTags tags m newTags = .ok (tags', m')) : ∃ extra, tags' = tags ++ extra := by
  induction newTags generalizing tags m with
  | nil =>
    cases h
    exact ⟨[], (List.append_nil _).symm⟩
  | cons tag rest ih =>
    rw [appendTags] at h
    split at h
    case h_1 =>
      obtain ⟨extra, rfl⟩ := ih h
      exact ⟨tag :: extra, by rw [List.append_assoc, List.singleton_append]⟩
    case h_2 =>
      split at h
      case isTrue => cases h
      case isFalse => exact ih h

/-- A property keeps its offset when tags come after it. -/
theorem propertyOffset_append {tags : List PropertyTag} {str : String} (h : ∃ tag ∈ tags, tag.name = str)
    (extra : List PropertyTag) (offset : ℤ) :
    propertyOffset str offset (tags ++ extra) = propertyOffset str offset tags := by
  induction tags generalizing offset with
  | nil =>
    obtain ⟨tag, hmem, -⟩ := h
    cases hmem
  | cons tag tags ih =>
    rw [List.cons_append, propertyOffset, propertyOffset]
    by_cases hname : str = tag.name
    · rw [if_pos hname, if_pos hname]
    · rw [if_neg hname, if_neg hname]
      obtain ⟨old, hmem, hold⟩ := h
      refine ih ⟨old, (List.mem_cons.mp hmem).resolve_left ?_, hold⟩ _
      rintro rfl
      exact hname hold.symm

end Tags

theorem Valid.appendChannels (h : Valid lane t) (hl : 0 < lane) (junk zero : T) {order : List ℕ}
    (horder : order.Perm (List.range t.size)) {newTags : List PropertyTag} {r : Option (TileVector T)}
    (hr : t.appendChannels lane junk zero order newTags = .ok r) :
    ∃ t', r = some t' ∧ Valid lane t' ∧ t'.size = t.size ∧ t.numChannels ≤ t'.numChannels ∧
      (∀ c < t.numChannels, ∀ i < t.size, t'.get lane c i = t.get lane c i) ∧
      ∀ tag ∈ t.tags, propertyOffset tag.name 0 t'.tags = propertyOffset tag.name 0 t.tags := by
  rw [TileVector.appendChannels] at hr
  split at hr
  case h_1 => cases hr
  case h_2 tags modified htags =>
    obtain ⟨extra, rfl⟩ := appendTags_eq htags
    split at hr
    case isFalse =>
      cases hr
      exact ⟨t, rfl, h, rfl, le_rfl, fun _ _ _ _ => rfl, fun _ _ => rfl⟩
    case isTrue =>
      have hmem : ∀ i, i ∈ order ↔ i < t.size := fun i => horder.mem_iff.trans List.mem_range
      obtain ⟨t', hcopy, hvalid, hshape, hget⟩ := copyElements_spec h hl zero order (fun i => (hmem i).mp)
        (make lane junk t.buffer.onHost (t.tags ++ extra) t.size) (make_valid _ _ _) rfl
      have hle : t.numChannels ≤ numTotalChannels (t.tags ++ extra) := h.channels ▸ numTotalChannels_append _ _
      rw [hcopy] at hr
      cases hr
      refine ⟨t', rfl, hvalid, hshape.size, hshape.numChannels ▸ hle, fun c hc i hi => ?_, fun tag htag => ?_⟩
      · rw [hget c (hc.trans_le hle) i, if_pos ((hmem i).mpr hi), extended, if_pos hc]
      · rw [hshape.tags]
        exact propertyOffset_append ⟨tag, htag, rfl⟩ _ _

section Runs
theorem Reached.valid (hl : 0 < lane) (h : Reached lane junk onVirtual t) : Valid lane t := by
  induction h with
  | make onHost channelTags count => exact make_valid _ _ _
  | resize _ newSize he ih =>
    obtain ⟨w, hw, hvalid, -⟩ := ih.resize hl junk onVirtual newSize
    rw [hw] at he
    cases he
    exact hvalid
  | @copy t t' _ he ih =>
    by_cases hn : t.numChannels = 0
    case pos =>
      obtain ⟨w, hw, -⟩ := Vector.copy_spec ih.buffer junk
      have hcap : t.capacity = none := if_pos hn
      rw [TileVector.copy, hw, Option.bind_some, hcap] at he
      cases he
    case neg =>
      obtain ⟨w, hw, hvalid, -⟩ := ih.copy hl junk hn
      rw [hw] at he
      cases he
      exact hvalid
  | appendChannels _ zero order ho newTags he ih =>
    obtain ⟨w, hw, hvalid, -⟩ := ih.appendChannels hl junk zero ho he
    cases hw
    exact hvalid
  | write _ chn idx val he ih => exact (ih.of_set he).1

end Runs
end TileVector
end Zpc
