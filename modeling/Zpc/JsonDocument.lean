import Zpc.BinaryFloat

/-!
# JSON documents

The tree of values that a writer is handed and that a parser gives back. Strings are their bytes. A double that is not
finite has no JSON form: a writer leaves it out, and the document is not complete.
-/
namespace JsonDocument
open BinaryFloat

inductive Json
  | bool (b : Bool)
  | int (n : ℤ)
  | double (d : Double)
  | string (s : List UInt8)
  | array (elems : List Json)
  | object (members : List (String × Json))
  | missing

namespace Json
mutual

/-- Nothing is left out. -/
def complete : Json → Bool
  | .array elems => completeElems elems
  | .object members => completeMembers members
  | .missing => false
  | _ => true

def completeElems : List Json → Bool
  | [] => true
  | v :: elems => v.complete && completeElems elems

def completeMembers : List (String × Json) → Bool
  | [] => true
  | (_, v) :: members => v.complete && completeMembers members

end

@[simp] theorem complete_bool (b : Bool) : (bool b).complete = true := by simp [complete]
@[simp] theorem complete_int (n : ℤ) : (int n).complete = true := by simp [complete]
@[simp] theorem complete_string (s : List UInt8) : (string s).complete = true := by simp [complete]

theorem complete_array {elems : List Json} : (array elems).complete = true ↔ ∀ v ∈ elems, v.complete = true := by
  have h : ∀ l, completeElems l = true ↔ ∀ v ∈ l, v.complete = true := by
    intro l
    induction l with
    | nil => simp [completeElems]
    | cons v l ih => simp [completeElems, ih]
  simp only [complete, h]

theorem complete_object {members : List (String × Json)} :
    (object members).complete = true ↔ ∀ m ∈ members, m.2.complete = true := by
  have h : ∀ l, completeMembers l = true ↔ ∀ m ∈ l, m.2.complete = true := by
    intro l
    induction l with
    | nil => simp [completeMembers]
    | cons m l ih => simp [completeMembers, ih]
  simp only [complete, h]

/-- The first member of that name. Only objects have members. -/
def find (v : Json) (key : String) : Option Json :=
  match v with
  | .object members => members.lookup key
  | _ => none

def elements : Json → List Json
  | .array elems => elems
  | _ => []

def isObject : Json → Bool
  | .object _ => true
  | _ => false

/-! ## Numbers and strings -/

def getBool? : Json → Option Bool
  | .bool b => some b
  | _ => none

def getUint? : Json → Option UInt32
  | .int n => if 0 ≤ n ∧ n < 4294967296 then some (UInt32.ofNat n.toNat) else none
  | _ => none

def getInt? : Json → Option ℤ
  | .int n => if -2147483648 ≤ n ∧ n < 2147483648 then some n else none
  | _ => none

def getFloat? : Json → Option UInt32
  | .double d => some d.toSingle
  | .int n => if -2147483648 ≤ n ∧ n < 2147483648 then some (singleOfInt n) else none
  | _ => none

def getString? : Json → Option (List UInt8)
  | .string s => some s
  | _ => none

def toInt32 (n : UInt32) : ℤ := if n.toNat < 2147483648 then n.toNat else n.toNat - 4294967296
def ofInt32 (n : ℤ) : UInt32 := UInt32.ofNat (n % 4294967296).toNat

@[simp] theorem ofInt32_toInt32 (n : UInt32) : ofInt32 (toInt32 n) = n := by
  have hlt := n.toNat_lt
  apply UInt32.toNat_inj.mp
  unfold ofInt32 toInt32
  rw [UInt32.toNat_ofNat']
  split <;> omega

def uint (n : UInt32) : Json := .int n.toNat
def ofFloat (f : UInt32) : Json :=
  match toDouble f with
  | some d => .double d
  | none => .missing

@[simp] theorem complete_uint (n : UInt32) : (uint n).complete = true := complete_int _

theorem complete_ofFloat {f : UInt32} (h : IsFinite f) : (ofFloat f).complete = true := by
  unfold ofFloat
  cases hd : toDouble f with
  | some d => simp [complete]
  | none => exact absurd h (toDouble_eq_none.mp hd)

@[simp] theorem getString?_string (s : List UInt8) : (string s).getString? = some s := rfl

@[simp] theorem getUint?_uint (n : UInt32) : (uint n).getUint? = some n := by
  have hlt := n.toNat_lt
  unfold uint getUint?
  simp only
  rw [if_pos (by omega)]
  simp

@[simp] theorem getInt?_toInt32 (n : UInt32) : (int (toInt32 n)).getInt? = some (toInt32 n) := by
  have hlt := n.toNat_lt
  unfold getInt?
  simp only
  rw [if_pos]
  unfold toInt32
  split <;> omega

theorem getFloat?_ofFloat {f : UInt32} (h : IsFinite f) : (ofFloat f).getFloat? = some f := by
  unfold ofFloat
  cases hd : toDouble f with
  | some d => exact congrArg some (toSingle_toDouble hd)
  | none => exact absurd h (toDouble_eq_none.mp hd)

end Json

/-- A library that writes documents to text and parses text. An error is the text of the exception. -/
structure Library where
  Text : Type
  write : Json → Text
  parse : Text → Except String Json

/-- What was written complete is parsed back. -/
def Library.Faithful (lib : Library) : Prop := ∀ doc : Json, doc.complete = true → lib.parse (lib.write doc) = .ok doc

/-- Documents handed over as trees. -/
def trees : Library where
  Text := Json
  write := id
  parse doc := if doc.complete then .ok doc else .error "JSON parse error"

theorem trees_faithful : trees.Faithful := fun _ h => if_pos h

/-! ## Hexadecimal words -/

def hexDigit (d : ℕ) : UInt8 := UInt8.ofNat (if d < 10 then 48 + d else 87 + d)

/-- `w` lowercase digits of a number. -/
def hexDigits : ℕ → ℕ → List UInt8
  | 0, _ => []
  | w + 1, n => hexDigits w (n / 16) ++ [hexDigit (n % 16)]

/-- The format `0x{:08x}`. -/
def hexWord (n : UInt32) : List UInt8 := [48, 120] ++ hexDigits 8 n.toNat

def digitValue? (c : UInt8) : Option ℕ :=
  if 48 ≤ c ∧ c ≤ 57 then some (c.toNat - 48)
  else if 97 ≤ c ∧ c ≤ 102 then some (c.toNat - 87)
  else if 65 ≤ c ∧ c ≤ 70 then some (c.toNat - 55)
  else none

def isSpace (c : UInt8) : Bool := c = 32 || (9 ≤ c && c ≤ 13)

/-- The leading digits of a string, and whether there are any. -/
def leadingDigits : List UInt8 → ℕ → ℕ × Bool
  | [], n => (n, false)
  | c :: s, n =>
    match digitValue? c with
    | some d => ((leadingDigits s (16 * n + d)).1, true)
    | none => (n, false)

def skipPrefix (s : List UInt8) : List UInt8 :=
  match s with
  | 48 :: x :: c :: s => if (x = 120 ∨ x = 88) ∧ (digitValue? c).isSome then c :: s else 48 :: x :: c :: s
  | s => s

/-- `std::stoul` to the base sixteen. -/
def stoul (s : List UInt8) : Except String ℕ :=
  let s := s.dropWhile isSpace
  let negative := s.head? = some 45
  let s := if s.head? = some 45 ∨ s.head? = some 43 then s.tail else s
  let n := leadingDigits (skipPrefix s) 0
  if n.2 = false then .error "stoul"
  else if 2 ^ 64 ≤ n.1 then .error "stoul"
  else .ok (if negative then (2 ^ 64 - n.1) % 2 ^ 64 else n.1)

theorem digitValue?_hexDigit {d : ℕ} (h : d < 16) : digitValue? (hexDigit d) = some d := by
  have hall : ∀ d < 16, digitValue? (hexDigit d) = some d := by decide
  exact hall d h

theorem leadingDigits_append {s s' : List UInt8} {n : ℕ} (hs : ∀ c ∈ s, (digitValue? c).isSome) (hne : s ≠ []) :
    leadingDigits (s ++ s') n = ((leadingDigits s' (leadingDigits s n).1).1, true) := by
  induction s generalizing n with
  | nil => exact absurd rfl hne
  | cons c s ih =>
    have ⟨d, hd⟩ := Option.isSome_iff_exists.mp (hs c List.mem_cons_self)
    simp only [List.cons_append, leadingDigits, hd]
    by_cases hnil : s = []
    · simp [hnil, leadingDigits]
    · rw [ih (fun c hc => hs c (List.mem_cons_of_mem _ hc)) hnil]

theorem isSome_hexDigits {w n : ℕ} : ∀ c ∈ hexDigits w n, (digitValue? c).isSome := by
  induction w generalizing n with
  | zero => exact fun c hc => absurd hc List.not_mem_nil
  | succ w ih =>
    intro c hc
    rw [hexDigits, List.mem_append, List.mem_singleton] at hc
    cases hc with
    | inl h => exact ih c h
    | inr h => rw [h, digitValue?_hexDigit (Nat.mod_lt n (by decide))]; rfl

theorem leadingDigits_hexDigits {w n : ℕ} (h : n < 16 ^ w) : (leadingDigits (hexDigits w n) 0).1 = n := by
  induction w generalizing n with
  | zero => simpa [hexDigits, leadingDigits, eq_comm] using h
  | succ w ih =>
    have hdiv : n / 16 < 16 ^ w := by
      apply Nat.div_lt_of_lt_mul
      rwa [pow_succ'] at h
    have hdigit := digitValue?_hexDigit (Nat.mod_lt n (show 0 < 16 by decide))
    rw [hexDigits]
    by_cases hw : hexDigits w (n / 16) = []
    · have hzero := ih hdiv
      rw [hw] at hzero ⊢
      simp only [leadingDigits] at hzero
      simp only [List.nil_append, leadingDigits, hdigit]
      omega
    · rw [leadingDigits_append isSome_hexDigits hw, ih hdiv]
      simp only [leadingDigits, hdigit]
      omega

theorem stoul_hexWord (n : UInt32) : stoul (hexWord n) = .ok n.toNat := by
  have hlt := n.toNat_lt
  have ⟨c, s, hs⟩ : ∃ c s, hexDigits 8 n.toNat = c :: s := by
    cases hd : hexDigits 8 n.toNat with
    | nil => simp [hexDigits] at hd
    | cons c s => exact ⟨c, s, rfl⟩
  have hc : (digitValue? c).isSome := isSome_hexDigits c (hs ▸ List.mem_cons_self)
  have hvalue : (leadingDigits (c :: s) 0).1 = n.toNat := by
    rw [← hs]
    exact leadingDigits_hexDigits (by simpa using hlt)
  have hany : (leadingDigits (c :: s) 0).2 = true := by
    have ⟨d, hd⟩ := Option.isSome_iff_exists.mp hc
    simp [leadingDigits, hd]
  have hskip : skipPrefix (48 :: 120 :: c :: s) = c :: s := by
    simp [skipPrefix, hc]
  have hspace : (48 :: 120 :: c :: s).dropWhile isSpace = 48 :: 120 :: c :: s := rfl
  unfold stoul hexWord
  rw [hs]
  simp only [List.cons_append, List.nil_append, hspace, List.head?_cons]
  rw [if_neg (show ¬(some (48 : UInt8) = some 45 ∨ some (48 : UInt8) = some 43) by decide), hskip, hany,
    if_neg (by decide), hvalue, if_neg (by omega), if_neg (by decide)]

end JsonDocument
