import Zpc.MetadataDsl

/-!
# Printed metadata

What a map of metadata looks like as text: lexemes with any white space around them. The tokenizer gives the lexemes back,
wherever a key or a number is followed by something that cannot continue it.
-/
namespace Zpc.Metadata
section Numerals

def decimalNat (n : ℕ) : Text :=
  if n = 0 then [48] else (Nat.digits 10 n).reverse.map fun d => UInt8.ofNat (48 + d)

def decimal (n : ℤ) : Text := if n < 0 then minus :: decimalNat n.natAbs else decimalNat n.natAbs

theorem toNat_digit {d : ℕ} (h : d < 10) : (UInt8.ofNat (48 + d)).toNat = 48 + d := by
  rw [UInt8.toNat_ofNat']
  exact Nat.mod_eq_of_lt (by omega)

theorem isDigit_digit {d : ℕ} (h : d < 10) : isDigit (UInt8.ofNat (48 + d)) := by
  have := toNat_digit h
  simp only [isDigit, Bool.and_eq_true, decide_eq_true_eq, UInt8.le_iff_toNat_le, this]
  exact ⟨Nat.le_add_right _ _, Nat.add_le_add_left (Nat.lt_succ_iff.mp h) 48⟩

theorem isDigit_of_mem_decimalNat {n : ℕ} {c : UInt8} (h : c ∈ decimalNat n) : isDigit c := by
  unfold decimalNat at h
  split_ifs at h
  · rw [List.mem_singleton] at h
    subst h
    decide
  · obtain ⟨d, hd, rfl⟩ := List.mem_map.mp h
    exact isDigit_digit (Nat.digits_lt_base (by norm_num) (List.mem_reverse.mp hd))

theorem decimalNat_ne_nil (n : ℕ) : decimalNat n ≠ [] := by
  unfold decimalNat
  split_ifs with h
  · simp
  · simpa using Nat.digits_ne_nil_iff_ne_zero.mpr h

theorem digitsValue_decimalNat (n : ℕ) : digitsValue (decimalNat n) = n := by
  unfold decimalNat
  split_ifs with h
  · simp [digitsValue, h]
  · have horner : ∀ l : List ℕ, (∀ d ∈ l, d < 10) →
        digitsValue (l.reverse.map fun d => UInt8.ofNat (48 + d)) = Nat.ofDigits 10 l := by
      intro l hl
      rw [Nat.ofDigits_eq_foldr, digitsValue, List.foldl_map, List.foldl_reverse]
      refine List.foldr_ext _ _ _ fun d hd n => ?_
      rw [toNat_digit (hl d hd)]
      simp [Nat.add_comm]
    rw [horner _ fun d hd => Nat.digits_lt_base (by norm_num) hd, Nat.ofDigits_digits]

theorem isNumberChar_of_isDigit {c : UInt8} (h : isDigit c) : isNumberChar c := by simp [isNumberChar, h]

theorem dot_notMem_decimal (n : ℤ) : dot ∉ decimal n := by
  have hdot : isDigit dot = false := by decide
  unfold decimal
  split_ifs
  · rw [List.mem_cons, not_or]
    exact ⟨by decide, fun h => by simp [isDigit_of_mem_decimalNat h] at hdot⟩
  · exact fun h => by simp [isDigit_of_mem_decimalNat h] at hdot

theorem takeWhile_decimalNat (n : ℕ) : (decimalNat n).takeWhile isDigit = decimalNat n :=
  List.takeWhile_eq_self_iff.mpr fun _ => isDigit_of_mem_decimalNat

theorem decimalNat_eq_cons (n : ℕ) : ∃ c s, decimalNat n = c :: s ∧ isDigit c := by
  obtain ⟨c, s, h⟩ := List.exists_cons_of_ne_nil (decimalNat_ne_nil n)
  exact ⟨c, s, h, isDigit_of_mem_decimalNat (h ▸ List.mem_cons_self)⟩

theorem not_minus_of_isDigit {c : UInt8} (h : isDigit c) : c ≠ minus := by
  rintro rfl
  exact absurd h (by decide)

theorem splitSign_decimal (n : ℤ) : splitSign (decimal n) = (decide (n < 0), decimalNat n.natAbs) := by
  unfold decimal splitSign
  split_ifs with h0 h1 h1
  · simp [h0]
  · simp at h1
  · obtain ⟨c, s, hc, hd⟩ := decimalNat_eq_cons n.natAbs
    exact absurd (by simpa [hc] using h1) (not_minus_of_isDigit hd)
  · simp [h0]

theorem stoi_decimal {n : ℤ} (h : -2147483648 ≤ n ∧ n ≤ 2147483647) : stoi (decimal n) = .ok n := by
  have hv : (if decide (n < 0) = true then -((digitsValue (decimalNat n.natAbs) : ℕ) : ℤ)
      else (digitsValue (decimalNat n.natAbs) : ℕ)) = n := by
    rw [digitsValue_decimalNat]
    split_ifs with hn <;> simp at hn <;> omega
  simp only [stoi, splitSign_decimal, takeWhile_decimalNat, if_neg (decimalNat_ne_nil _), hv]
  exact if_neg (by omega)

end Numerals

section Lexemes
def isLetter (c : UInt8) : Bool := 65 ≤ c && c ≤ 90 || 97 ≤ c && c ≤ 122 || c = 95

def IsIdentifier : Text → Prop
  | [] => False
  | c :: k => isLetter c ∧ ∀ d ∈ k, isLetter d ∨ isDigit d

def escape (s : Text) : Text := s.flatMap fun c => if c = quote ∨ c = backslash then [backslash, c] else [c]

inductive Lexeme
  | key (k : Text)
  | string (s : Text)
  | int (n : ℤ)
  | comma | equal | listStart | listEnd

def Lexeme.text : Lexeme → Text
  | .key k => k
  | .string s => quote :: (escape s ++ [quote])
  | .int n => decimal n
  | .comma => [44]
  | .equal => [61]
  | .listStart => [40]
  | .listEnd => [41]

def Lexeme.token : Lexeme → Token
  | .key k => ⟨.key, k⟩
  | .string s => ⟨.string, s⟩
  | .int n => ⟨.number, decimal n⟩
  | .comma => ⟨.comma, [44]⟩
  | .equal => ⟨.equal, [61]⟩
  | .listStart => ⟨.listStart, [40]⟩
  | .listEnd => ⟨.listEnd, [41]⟩

def Lexeme.Valid : Lexeme → Prop
  | .key k => IsIdentifier k
  | .string s => eof ∉ s
  | _ => True

def Lexeme.IsMark : Lexeme → Prop
  | .key _ | .string _ | .int _ => False
  | _ => True

/-- A key or a number has to be followed by a mark. -/
def Lexeme.Before : Lexeme → Lexeme → Prop
  | .key _, l | .int _, l => l.IsMark
  | _, _ => True

/-- A text is `ls` with white space before each lexeme and at the end. -/
inductive Layout : List Lexeme → Text → Prop
  | nil {ws : Text} (h : ∀ c ∈ ws, isSpace c) : Layout [] ws
  | cons {ws t : Text} {l : Lexeme} {ls : List Lexeme} (h : ∀ c ∈ ws, isSpace c) (ht : Layout ls t) :
      Layout (l :: ls) (ws ++ (l.text ++ t))

theorem isLetter_cases {c : UInt8} (h : isLetter c) :
    isKeyChar c ∧ isDigit c = false ∧ c ≠ minus ∧ c ≠ quote ∧ isSpace c = false := by
  simp [isLetter, isKeyChar, isDigit, isSpace, minus, quote, eof, UInt8.le_iff_toNat_le, ← UInt8.toNat_inj] at *
  omega

theorem isDigit_cases {c : UInt8} (h : isDigit c) : isKeyChar c ∧ isSpace c = false ∧ c ≠ quote := by
  simp [isKeyChar, isDigit, isSpace, quote, eof, UInt8.le_iff_toNat_le, ← UInt8.toNat_inj] at *
  omega

theorem isKeyChar_cases {c : UInt8} (h : isKeyChar c) : c ≠ eof ∧ c ≠ 61 ∧ c ≠ 44 ∧ c ≠ 40 ∧ c ≠ 41 := by
  simp_all [isKeyChar]

theorem isSpace_cases {c : UInt8} (h : isSpace c) : isKeyChar c = false ∧ isNumberChar c = false := by
  simp [isKeyChar, isNumberChar, isDigit, dot, isSpace, UInt8.le_iff_toNat_le, ← UInt8.toNat_inj] at *
  omega

end Lexemes

section Tokens
variable {ws t : Text}

theorem span_append {f : UInt8 → Bool} {w : Text} (hw : ∀ c ∈ w, f c) (ht : f (currentChar t) = false) :
    (w ++ t).takeWhile f = w ∧ (w ++ t).dropWhile f = t := by
  rw [List.takeWhile_append_of_pos hw, List.dropWhile_append_of_pos hw]
  cases t with
  | nil => simp
  | cons c t =>
    have hc : f c = false := ht
    simp [hc]

theorem consumeWhitespace_append {c : UInt8} (hw : ∀ c ∈ ws, isSpace c) (hc : isSpace c = false) :
    consumeWhitespace (ws ++ c :: t) = c :: t :=
  (span_append (t := c :: t) hw hc).2

theorem nextToken_spaces (hw : ∀ c ∈ ws, isSpace c) : nextToken ws = (⟨.end, []⟩, []) := by
  have : consumeWhitespace ws = [] := List.dropWhile_eq_nil_iff.mpr hw
  simp [nextToken, this, currentChar]

theorem stringLoop_quote : stringLoop (quote :: t) = ([], t) := by
  rw [stringLoop.eq_def]
  exact if_pos (.inl rfl)

theorem stringLoop_escaped {c : UInt8} :
    stringLoop (backslash :: c :: t) =
      ((if c = quote then quote else backslash) :: (stringLoop t).1, (stringLoop t).2) := by
  rw [stringLoop.eq_def]
  simp only
  rw [if_neg (by decide), if_pos trivial]

theorem stringLoop_plain {c : UInt8} (h : c ≠ eof) (hq : c ≠ quote) (hb : c ≠ backslash) :
    stringLoop (c :: t) = (c :: (stringLoop t).1, (stringLoop t).2) := by
  rw [stringLoop.eq_def]
  simp only
  rw [if_neg (by simp [h, hq]), if_neg hb]

/-- A text between quotes is read back. -/
theorem stringLoop_escape : ∀ s : Text, eof ∉ s → stringLoop (escape s ++ quote :: t) = (s, t)
  | [], _ => stringLoop_quote
  | c :: s, h => by
    rw [List.mem_cons, not_or] at h
    have ih := stringLoop_escape s h.2
    by_cases hc : c = quote ∨ c = backslash
    · have hesc : escape (c :: s) ++ quote :: t = backslash :: c :: (escape s ++ quote :: t) := by simp [escape, hc]
      have hval : (if c = quote then quote else backslash) = c := by rcases hc with rfl | rfl <;> rfl
      rw [hesc, stringLoop_escaped, ih, hval]
    · have hesc : escape (c :: s) ++ quote :: t = c :: (escape s ++ quote :: t) := by simp [escape, hc]
      rw [not_or] at hc
      rw [hesc, stringLoop_plain (Ne.symm h.1) hc.1 hc.2, ih]

/-- The character behind a lexeme does not continue it. -/
def Lexeme.EndsAt (c : UInt8) : Lexeme → Prop
  | .key _ => isKeyChar c = false
  | .int _ => isNumberChar c = false
  | _ => True

theorem nextToken_key {k : Text} (hw : ∀ c ∈ ws, isSpace c) (hk : IsIdentifier k)
    (ht : isKeyChar (currentChar t) = false) : nextToken (ws ++ (k ++ t)) = (⟨.key, k⟩, t) := by
  cases k with
  | nil => exact hk.elim
  | cons c k =>
    obtain ⟨hc, hd, hm, hq, hs⟩ := isLetter_cases hk.1
    obtain ⟨h0, h1, h2, h3, h4⟩ := isKeyChar_cases hc
    have hall : ∀ d ∈ c :: k, isKeyChar d := by
      intro d hd
      rcases List.mem_cons.mp hd with rfl | hd
      · exact hc
      · exact (hk.2 d hd).elim (fun h => (isLetter_cases h).1) fun h => (isDigit_cases h).1
    have hspan := span_append hall ht
    rw [List.cons_append] at hspan ⊢
    simp only [nextToken, consumeWhitespace_append hw hs, currentChar, List.headD_cons, h0, h1, h2, h3, h4, hd, hm, hq,
      key, hspan, if_false, Bool.false_or, decide_false, Bool.false_eq_true]

theorem nextToken_string {s : Text} (hw : ∀ c ∈ ws, isSpace c) (hs : eof ∉ s) :
    nextToken (ws ++ (quote :: (escape s ++ [quote]) ++ t)) = (⟨.string, s⟩, t) := by
  have hsp : isSpace quote = false := by decide
  rw [List.cons_append, nextToken, consumeWhitespace_append hw hsp]
  simp only [currentChar, List.headD_cons, List.append_assoc, List.singleton_append]
  rw [if_neg (by decide), if_neg (by decide), if_neg (by decide), if_neg (by decide), if_neg (by decide),
    if_neg (by decide), if_pos trivial]
  simp only [string, currentChar, List.headD_cons, if_true, nextChar, List.tail_cons, stringLoop_escape s hs]

theorem nextToken_int {n : ℤ} (hw : ∀ c ∈ ws, isSpace c) (ht : isNumberChar (currentChar t) = false) :
    nextToken (ws ++ (decimal n ++ t)) = (⟨.number, decimal n⟩, t) := by
  have hspan := span_append (fun c hc => isNumberChar_of_isDigit (isDigit_of_mem_decimalNat (n := n.natAbs) hc)) ht
  unfold decimal
  split_ifs with hn
  · have hsp : isSpace minus = false := by decide
    rw [List.cons_append, nextToken, consumeWhitespace_append hw hsp]
    simp only [currentChar, List.headD_cons]
    rw [if_neg (by decide), if_neg (by decide), if_neg (by decide), if_neg (by decide), if_neg (by decide),
      if_pos (by decide)]
    simp only [number, currentChar, List.headD_cons, if_true, nextChar, List.tail_cons, hspan]
  · obtain ⟨c, s, hc, hd⟩ := decimalNat_eq_cons n.natAbs
    obtain ⟨hkey, hsp, hq⟩ := isDigit_cases hd
    obtain ⟨h0, h1, h2, h3, h4⟩ := isKeyChar_cases hkey
    rw [hc, List.cons_append] at hspan ⊢
    simp only [nextToken, consumeWhitespace_append hw hsp, currentChar, List.headD_cons, h0, h1, h2, h3, h4, hd,
      number, hspan, not_minus_of_isDigit hd, if_false, if_true, Bool.true_or]

theorem nextToken_lexeme {l : Lexeme} (hw : ∀ c ∈ ws, isSpace c) (hv : l.Valid) (ht : l.EndsAt (currentChar t)) :
    nextToken (ws ++ (l.text ++ t)) = (l.token, t) := by
  cases l with
  | key k => exact nextToken_key hw hv ht
  | string s => exact nextToken_string hw hv
  | int n => exact nextToken_int hw ht
  | _ =>
    simp only [Lexeme.text, Lexeme.token, List.singleton_append]
    rw [nextToken, consumeWhitespace_append hw (by decide)]
    rfl

end Tokens

end Zpc.Metadata

/-!
## Printed metadata is read back

A map of strings, integers and lists of either, printed with its pairs separated by commas and white space anywhere between
the lexemes, is parsed to that map. Each step of the parser takes the lexemes of what it reads off the front.
-/
namespace Zpc.Metadata
section Reading

variable {l m : Lexeme} {ls : List Lexeme} {p : Parser} {t : Text}

/-- A parser that stands before a layout of `ls`. -/
def Reads (ls : List Lexeme) (p : Parser) : Prop :=
  ∃ t, p = .start t ∧ Layout ls t ∧ (∀ l ∈ ls, l.Valid) ∧ ls.IsChain Lexeme.Before

theorem before_of_isMark (h : m.IsMark) : l.Before m := by
  cases l <;> simp_all [Lexeme.Before]

theorem endsAt_eof : l.EndsAt eof := by
  cases l <;> simp [Lexeme.EndsAt] <;> decide

theorem endsAt_of_isSpace {c : UInt8} (h : isSpace c) : l.EndsAt c := by
  cases l <;> simp [Lexeme.EndsAt, isSpace_cases h]

theorem endsAt_of_isMark (h : m.IsMark) : l.EndsAt (currentChar (m.text ++ t)) := by
  cases m <;> simp only [Lexeme.IsMark] at h <;> cases l <;> simp [Lexeme.EndsAt, Lexeme.text, currentChar] <;> decide

/-- What may stand behind a lexeme does not continue it. -/
theorem Layout.endsAt (h : Layout ls t) (hb : ∀ m ∈ ls.head?, l.Before m) : l.EndsAt (currentChar t) := by
  cases h with
  | nil hw =>
    cases t with
    | nil => exact endsAt_eof
    | cons c t => exact endsAt_of_isSpace (hw c List.mem_cons_self)
  | @cons ws s m ls hw ht =>
    cases ws with
    | nil =>
      have hm : l.Before m := hb m rfl
      cases l with
      | key k => exact endsAt_of_isMark hm
      | int n => exact endsAt_of_isMark hm
      | _ => trivial
    | cons c ws => exact endsAt_of_isSpace (hw c List.mem_cons_self)

theorem Reads.end (h : Reads [] p) : p.currentToken = ⟨.end, []⟩ := by
  obtain ⟨t, rfl, ht, -, -⟩ := h
  cases ht with
  | nil hw => simp [Parser.start, nextToken_spaces hw]

theorem Reads.token (h : Reads (l :: ls) p) : p.currentToken = l.token ∧ Reads ls p.nextToken := by
  obtain ⟨t, rfl, ht, hv, hc⟩ := h
  rw [List.isChain_cons] at hc
  cases ht with
  | @cons ws s l ls hw ht =>
    have hn := nextToken_lexeme hw (hv l List.mem_cons_self) (ht.endsAt hc.1)
    refine ⟨by rw [Parser.start, hn], s, by rw [Parser.nextToken, Parser.start, hn, Parser.start], ht, ?_, hc.2⟩
    exact fun m hm => hv m (List.mem_cons_of_mem l hm)

theorem Reads.type (h : Reads ls p) : p.currentToken.type = (ls.head?.elim .end fun l => l.token.type) := by
  cases ls with
  | nil => rw [h.end]; rfl
  | cons l ls => rw [h.token.1]; rfl

theorem Reads.skipComma_comma (h : Reads (.comma :: ls) p) : Reads ls (skipComma p) := by
  rw [skipComma, if_pos (by rw [h.token.1]; rfl)]
  exact h.token.2

theorem Reads.skipComma_of_ne (h : Reads ls p) (hc : ls.head? ≠ some .comma) : Reads ls (skipComma p) := by
  have : p.currentToken.type ≠ .comma := by
    rw [h.type]
    cases ls with
    | nil => simp
    | cons l ls => cases l <;> simp_all [Lexeme.token]
  rwa [skipComma, if_neg this]

end Reading

section Values
/-- What a printed map has as values. -/
inductive Value
  | string (s : Text)
  | int (n : ℤ)
  | strings (l : List Text)
  | ints (l : List ℤ)

def Value.Valid : Value → Prop
  | .string s => eof ∉ s
  | .int n => -2147483648 ≤ n ∧ n ≤ 2147483647
  | .strings l => l ≠ [] ∧ ∀ s ∈ l, eof ∉ s
  | .ints l => ∀ n ∈ l, |n| ≤ 2 ^ 24

def Value.meta : Value → MetaValue
  | .string s => .string s
  | .int n => .int n
  | .strings l => .stringList l
  | .ints l => .floatList (l.map fun n : ℤ => (n : ℚ))

/-- The elements of a list, separated by commas, up to its end. -/
def elements : List Lexeme → List Lexeme
  | [] => [.listEnd]
  | [l] => [l, .listEnd]
  | l :: ls => l :: .comma :: elements ls

def Value.lexemes : Value → List Lexeme
  | .string s => [.string s]
  | .int n => [.int n]
  | .strings l => .listStart :: elements (l.map .string)
  | .ints l => .listStart :: elements (l.map .int)

/-- The lexemes of a map, its pairs in any order. -/
def print : List (Text × Value) → List Lexeme
  | [] => []
  | [(k, v)] => .key k :: .equal :: v.lexemes
  | (k, v) :: items => .key k :: .equal :: (v.lexemes ++ .comma :: print items)

theorem elements_cons (l : Lexeme) {ls : List Lexeme} (h : ls ≠ []) :
    elements (l :: ls) = l :: .comma :: elements ls := by
  cases ls with
  | nil => exact absurd rfl h
  | cons m ls => rfl

theorem print_cons (k : Text) (v : Value) {items : List (Text × Value)} (h : items ≠ []) :
    print ((k, v) :: items) = .key k :: .equal :: (v.lexemes ++ .comma :: print items) := by
  cases items with
  | nil => exact absurd rfl h
  | cons i items => rfl

end Values

section WellSpaced
theorem isChain_elements : ∀ ls : List Lexeme, (elements ls).IsChain Lexeme.Before
  | [] => .singleton _
  | [l] => List.isChain_cons_cons.mpr ⟨before_of_isMark trivial, .singleton _⟩
  | l :: m :: ls => by
    refine List.isChain_cons_cons.mpr ⟨before_of_isMark trivial, ?_⟩
    exact (isChain_elements (m :: ls)).cons fun _ _ => trivial

theorem isChain_lexemes (v : Value) : v.lexemes.IsChain Lexeme.Before := by
  cases v with
  | string s => exact .singleton _
  | int n => exact .singleton _
  | strings l => exact (isChain_elements _).cons fun _ _ => trivial
  | ints l => exact (isChain_elements _).cons fun _ _ => trivial

theorem isChain_print : ∀ items : List (Text × Value), (print items).IsChain Lexeme.Before
  | [] => .nil
  | [(k, v)] => List.isChain_cons_cons.mpr ⟨before_of_isMark trivial, (isChain_lexemes v).cons fun _ _ => trivial⟩
  | (k, v) :: i :: items => by
    have hcomma : (Lexeme.comma :: print (i :: items)).IsChain Lexeme.Before :=
      (isChain_print (i :: items)).cons fun _ _ => trivial
    have hv : (v.lexemes ++ .comma :: print (i :: items)).IsChain Lexeme.Before := by
      refine List.isChain_append.mpr ⟨isChain_lexemes v, hcomma, fun l _ m hm => ?_⟩
      obtain rfl : Lexeme.comma = m := by simpa using hm
      exact before_of_isMark trivial
    exact List.isChain_cons_cons.mpr ⟨before_of_isMark trivial, hv.cons fun _ _ => trivial⟩

theorem valid_of_mem_elements : ∀ {ls : List Lexeme}, (∀ l ∈ ls, l.Valid) → ∀ l ∈ elements ls, l.Valid
  | [], _ => by simp [elements, Lexeme.Valid]
  | [l], h => by simpa [elements, Lexeme.Valid] using h l
  | l :: m :: ls, h => by
    rw [List.forall_mem_cons] at h
    rw [elements_cons l (List.cons_ne_nil m ls), List.forall_mem_cons, List.forall_mem_cons]
    exact ⟨h.1, trivial, valid_of_mem_elements h.2⟩

theorem Value.Valid.lexemes {v : Value} (h : v.Valid) : ∀ l ∈ v.lexemes, l.Valid := by
  cases v with
  | string s => exact List.forall_mem_singleton.mpr h
  | int n => simp [Value.lexemes, Lexeme.Valid]
  | strings l =>
    refine List.forall_mem_cons.mpr ⟨trivial, valid_of_mem_elements fun m hm => ?_⟩
    obtain ⟨s, hs, rfl⟩ := List.mem_map.mp hm
    exact h.2 s hs
  | ints l =>
    refine List.forall_mem_cons.mpr ⟨trivial, valid_of_mem_elements fun m hm => ?_⟩
    obtain ⟨n, hn, rfl⟩ := List.mem_map.mp hm
    trivial

theorem valid_of_mem_print : ∀ {items : List (Text × Value)}, (∀ i ∈ items, IsIdentifier i.1 ∧ i.2.Valid) →
    ∀ l ∈ print items, l.Valid
  | [], _ => by simp [print]
  | [(k, v)], h => by
    have hi := h (k, v) (List.mem_singleton_self _)
    exact List.forall_mem_cons.mpr ⟨hi.1, List.forall_mem_cons.mpr ⟨trivial, hi.2.lexemes⟩⟩
  | (k, v) :: i :: items, h => by
    rw [List.forall_mem_cons] at h
    rw [print_cons k v (List.cons_ne_nil i items), List.forall_mem_cons, List.forall_mem_cons, List.forall_mem_append,
      List.forall_mem_cons]
    exact ⟨h.1.1, trivial, h.1.2.lexemes, trivial, valid_of_mem_print h.2⟩

end WellSpaced

section Parsing
variable (origin : Text) {n : ℕ} {p : Parser} {ls : List Lexeme}

theorem Reads.weight_nextToken {l : Lexeme} (h : Reads (l :: ls) p) : p.nextToken.weight < p.weight := by
  refine weight_nextToken_lt ?_
  rw [h.token.1]
  cases l <;> simp [Lexeme.token]

theorem expect_lexeme {l : Lexeme} (h : Reads (l :: ls) p) :
    expect origin l.token.type p = .ok (l.token.value, p.nextToken) := by
  rw [expect, if_neg (by simp [h.token.1]), h.token.1]

theorem parseValue_string {s : Text} (h : Reads (.string s :: ls) p) (hm : ∀ m ∈ ls.head?, m.IsMark)
    (hn : 2 * p.weight < n) : parseValue origin n p = .ok (.string s, p.nextToken) := by
  have hw := h.weight_nextToken
  obtain ⟨n, rfl⟩ : ∃ k, n = k + 2 := ⟨n - 2, by omega⟩
  have hne : p.nextToken.currentToken.type ≠ .string := by
    rw [h.token.2.type]
    cases ls with
    | nil => simp
    | cons m ls => cases m <;> simp_all [Lexeme.token, Lexeme.IsMark]
  have he : expect origin .string p = .ok (s, p.nextToken) := expect_lexeme origin h
  simp only [parseValue, h.token.1, Lexeme.token, he]
  simp only [Bind.bind, Except.bind, parseStrings, hne, if_false]

theorem parseValue_int {i : ℤ} (h : Reads (.int i :: ls) p) (hi : -2147483648 ≤ i ∧ i ≤ 2147483647)
    (hn : 2 * p.weight < n) : parseValue origin n p = .ok (.int i, p.nextToken) := by
  have hw := h.weight_nextToken
  obtain ⟨n, rfl⟩ : ∃ k, n = k + 1 := ⟨n - 1, by omega⟩
  have he : expect origin .number p = .ok (decimal i, p.nextToken) := expect_lexeme origin h
  simp only [parseValue, h.token.1, Lexeme.token, he]
  simp only [Bind.bind, Except.bind, dot_notMem_decimal, if_false, stoi_decimal hi, Pure.pure, Except.pure]

def Lexeme.elementText : Lexeme → Option Text
  | .string s => some s
  | _ => none

def Lexeme.elementNumber : Lexeme → Option ℚ
  | .int i => some (toFloat i)
  | _ => none

def Lexeme.IsElement : Lexeme → Prop
  | .string _ => True
  | .int i => -2147483648 ≤ i ∧ i ≤ 2147483647
  | _ => False

/-- One round of the loop. -/
theorem parseList_element {l : Lexeme} {strings : List Text} {numbers : List ℚ} (h : Reads (l :: ls) p)
    (hl : l.IsElement) (hm : ∀ m ∈ ls.head?, m.IsMark) (hn : 2 * p.weight < n) :
    parseList origin (n + 1) strings numbers p =
      parseList origin n (strings ++ l.elementText.toList) (numbers ++ l.elementNumber.toList) (skipComma p.nextToken) := by
  cases l with
  | string s =>
    simp only [parseList, h.token.1, Lexeme.token, parseValue_string origin h hm hn]
    simp [Bind.bind, Except.bind, Lexeme.elementText, Lexeme.elementNumber]
  | int i =>
    simp only [parseList, h.token.1, Lexeme.token, parseValue_int origin h hl hn]
    simp [Bind.bind, Except.bind, Lexeme.elementText, Lexeme.elementNumber]
  | _ => exact hl.elim

theorem parseList_end {strings : List Text} {numbers : List ℚ} (h : Reads (.listEnd :: ls) p) :
    parseList origin (n + 1) strings numbers p = .ok (listValue strings numbers, p.nextToken) := by
  rw [parseList, if_pos (by rw [h.token.1]; rfl)]

theorem filterMap_cons_toList {α β : Type} (f : α → Option β) (a : α) (l : List α) :
    (a :: l).filterMap f = (f a).toList ++ l.filterMap f := by
  rw [List.filterMap_cons]
  cases f a <;> rfl

theorem parseList_elements : ∀ (l : List Lexeme) (strings : List Text) (numbers : List ℚ) {n : ℕ} {p : Parser},
    Reads (elements l ++ ls) p → (∀ e ∈ l, e.IsElement) → 2 * p.weight + 1 < n →
    ∃ p', Reads ls p' ∧ parseList origin n strings numbers p =
      .ok (listValue (strings ++ l.filterMap Lexeme.elementText) (numbers ++ l.filterMap Lexeme.elementNumber), p')
  | [], _, _, n, p, h, _, hn => by
    obtain ⟨n, rfl⟩ : ∃ k, n = k + 1 := ⟨n - 1, by omega⟩
    exact ⟨p.nextToken, h.token.2, by simp [parseList_end origin h]⟩
  | [e], strings, numbers, n, p, h, he, hn => by
    have hw := h.weight_nextToken
    obtain ⟨n, rfl⟩ : ∃ k, n = k + 2 := ⟨n - 2, by omega⟩
    have hend : Reads (.listEnd :: ls) (skipComma p.nextToken) := h.token.2.skipComma_of_ne (by simp)
    have hmark : ∀ m ∈ (Lexeme.listEnd :: ls).head?, m.IsMark := by simp [Lexeme.IsMark]
    refine ⟨_, hend.token.2, ?_⟩
    rw [parseList_element origin h (he e (List.mem_singleton_self e)) hmark (by omega), parseList_end origin hend,
      filterMap_cons_toList, filterMap_cons_toList, List.filterMap_nil, List.append_nil, List.filterMap_nil,
      List.append_nil]
  | e :: f :: l, strings, numbers, n, p, h, he, hn => by
    have hw := h.weight_nextToken
    have hs := weight_skipComma_le p.nextToken
    obtain ⟨n, rfl⟩ : ∃ k, n = k + 1 := ⟨n - 1, by omega⟩
    rw [List.forall_mem_cons] at he
    have hrest : Reads (elements (f :: l) ++ ls) (skipComma p.nextToken) := h.token.2.skipComma_comma
    have hmark : ∀ m ∈ (Lexeme.comma :: (elements (f :: l) ++ ls)).head?, m.IsMark := by simp [Lexeme.IsMark]
    obtain ⟨p', hp', heq⟩ := parseList_elements (f :: l) (strings ++ e.elementText.toList)
      (numbers ++ e.elementNumber.toList) (n := n) hrest he.2 (by omega)
    refine ⟨p', hp', ?_⟩
    rw [parseList_element origin h he.1 hmark (by omega), heq, filterMap_cons_toList _ e,
      filterMap_cons_toList _ e, List.append_assoc, List.append_assoc]

theorem parseValue_list {l : List Lexeme} (h : Reads (.listStart :: (elements l ++ ls)) p)
    (hl : ∀ e ∈ l, e.IsElement) (hn : 2 * p.weight < n) :
    ∃ p', Reads ls p' ∧ parseValue origin n p =
      .ok (listValue (l.filterMap Lexeme.elementText) (l.filterMap Lexeme.elementNumber), p') := by
  have hw := h.weight_nextToken
  obtain ⟨n, rfl⟩ : ∃ k, n = k + 1 := ⟨n - 1, by omega⟩
  obtain ⟨p', hp', heq⟩ := parseList_elements origin l [] [] (n := n) h.token.2 hl (by omega)
  refine ⟨p', hp', ?_⟩
  simp only [parseValue, h.token.1, Lexeme.token, heq, List.nil_append]

theorem toFloat_intCast {i : ℤ} (h : |i| ≤ 2 ^ 24) : toFloat i = i :=
  RationalRounding.nearest_eq_self_iff.mpr (RationalRounding.representable_intCast_of_le (by norm_num) (by norm_num) h)

theorem listValue_strings {l : List Text} (h : l ≠ []) :
    listValue ((l.map Lexeme.string).filterMap Lexeme.elementText)
      ((l.map Lexeme.string).filterMap Lexeme.elementNumber) = .stringList l := by
  have ht : (Lexeme.elementText ∘ Lexeme.string) = some := rfl
  rw [List.filterMap_map, ht, List.filterMap_some, listValue, if_pos h]

theorem listValue_ints {l : List ℤ} (h : ∀ i ∈ l, |i| ≤ 2 ^ 24) :
    listValue ((l.map Lexeme.int).filterMap Lexeme.elementText) ((l.map Lexeme.int).filterMap Lexeme.elementNumber) =
      .floatList (l.map fun i : ℤ => (i : ℚ)) := by
  have ht : (l.map Lexeme.int).filterMap Lexeme.elementText = [] := by
    rw [List.filterMap_map]
    exact List.filterMap_eq_nil_iff.mpr fun _ _ => rfl
  have hq : (l.map Lexeme.int).filterMap Lexeme.elementNumber = l.map fun i : ℤ => (i : ℚ) := by
    rw [List.filterMap_map, ← List.filterMap_eq_map]
    exact List.filterMap_congr fun i hi => congrArg some (toFloat_intCast (h i hi))
  rw [ht, hq]
  rfl

/-- A printed value is read back, where a mark or the end stands behind it. -/
theorem parseValue_lexemes {v : Value} (h : Reads (v.lexemes ++ ls) p) (hv : v.Valid) (hm : ∀ m ∈ ls.head?, m.IsMark)
    (hn : 2 * p.weight < n) : ∃ p', Reads ls p' ∧ parseValue origin n p = .ok (v.meta, p') := by
  cases v with
  | string s => exact ⟨_, h.token.2, parseValue_string origin h hm hn⟩
  | int i => exact ⟨_, h.token.2, parseValue_int origin h hv hn⟩
  | strings l =>
    obtain ⟨p', hp', heq⟩ := parseValue_list origin (l := l.map .string) h (by simp [Lexeme.IsElement]) hn
    exact ⟨p', hp', by rw [heq, listValue_strings hv.1]; rfl⟩
  | ints l =>
    have he : ∀ e ∈ l.map Lexeme.int, e.IsElement := by
      intro e he
      obtain ⟨i, hi, rfl⟩ := List.mem_map.mp he
      have := abs_le.mp (hv i hi)
      exact ⟨by omega, by omega⟩
    obtain ⟨p', hp', heq⟩ := parseValue_list origin h he hn
    exact ⟨p', hp', by rw [heq, listValue_ints hv]; rfl⟩

theorem insertOrAssign_of_notMem (k : Text) (v : MetaValue) : ∀ {m : List (Text × MetaValue)}, k ∉ m.map Prod.fst →
    insertOrAssign k v m = m ++ [(k, v)]
  | [], _ => rfl
  | (k', v') :: m, h => by
    rw [List.map_cons, List.mem_cons, not_or] at h
    rw [insertOrAssign, if_neg h.1, insertOrAssign_of_notMem k v h.2, List.cons_append]

/-- A pair is read, and what is left stands behind its comma. -/
theorem parse_pair {k : Text} {v : Value} (ast : List (Text × MetaValue))
    (h : Reads (.key k :: .equal :: (v.lexemes ++ ls)) p) (hv : v.Valid) (hm : ∀ m ∈ ls.head?, m.IsMark)
    (hn : 2 * p.weight < n) :
    ∃ p', Reads ls p' ∧ (skipComma p').weight < p.weight ∧
      parse origin (n + 1) ast p = parse origin n (insertOrAssign k v.meta ast) (skipComma p') := by
  have hw := h.weight_nextToken
  have hw' := h.token.2.weight_nextToken
  obtain ⟨p', hp', heq⟩ := parseValue_lexemes origin (n := n) h.token.2.token.2 hv hm (by omega)
  have hlt : p'.weight < p.nextToken.nextToken.weight := by
    have := parseValue_ends origin (n := n) (p := p.nextToken.nextToken) (by omega)
    rwa [heq] at this
  have he : expect origin .key p = .ok (k, p.nextToken) := expect_lexeme origin h
  have hs := weight_skipComma_le p'
  refine ⟨p', hp', by omega, ?_⟩
  simp only [parse, h.token.1, Lexeme.token, he]
  simp only [Bind.bind, Except.bind, h.token.2.token.1, Lexeme.token, if_true, heq, reduceCtorEq, if_false]

/-- The loop over the pairs, by induction on the pairs that are left. -/
theorem parse_print : ∀ (items : List (Text × Value)) {n : ℕ} {ast : List (Text × MetaValue)} {p : Parser},
    Reads (print items) p → (∀ i ∈ items, i.2.Valid) → (ast.map Prod.fst ++ items.map Prod.fst).Nodup →
    2 * p.weight + 1 < n → parse origin n ast p = .ok (ast ++ items.map fun i => (i.1, i.2.meta))
  | [], n, ast, p, h, _, _, hn => by
    obtain ⟨n, rfl⟩ : ∃ k, n = k + 1 := ⟨n - 1, by omega⟩
    rw [parse, if_pos (by rw [h.end]), List.map_nil, List.append_nil]
  | (k, v) :: items, n, ast, p, h, hv, hd, hn => by
    obtain ⟨n, rfl⟩ : ∃ k, n = k + 1 := ⟨n - 1, by omega⟩
    rw [List.forall_mem_cons] at hv
    have hnotMem : k ∉ ast.map Prod.fst := fun hk => (List.nodup_append.mp hd).2.2 k hk k List.mem_cons_self rfl
    have hnodup : ((insertOrAssign k v.meta ast).map Prod.fst ++ items.map Prod.fst).Nodup := by
      simpa [insertOrAssign_of_notMem k v.meta hnotMem] using hd
    have step : ∃ q, Reads (print items) q ∧ q.weight < p.weight ∧
        parse origin (n + 1) ast p = parse origin n (insertOrAssign k v.meta ast) q := by
      by_cases h0 : items = []
      · subst h0
        have hr : Reads (.key k :: .equal :: (v.lexemes ++ [])) p := by rwa [List.append_nil]
        obtain ⟨p', hp', hlt, heq⟩ := parse_pair origin ast hr hv.1 (by simp) (n := n) (by omega)
        exact ⟨_, hp'.skipComma_of_ne (by simp), hlt, heq⟩
      · rw [print_cons k v h0] at h
        obtain ⟨p', hp', hlt, heq⟩ := parse_pair origin ast h hv.1 (by simp [Lexeme.IsMark]) (n := n) (by omega)
        exact ⟨_, hp'.skipComma_comma, hlt, heq⟩
    obtain ⟨q, hq, hlt, heq⟩ := step
    rw [heq, parse_print items hq hv.2 hnodup (by omega), insertOrAssign_of_notMem k v.meta hnotMem]
    simp

end Parsing

section Container
theorem foldl_insertOrAssign : ∀ (items m : List (Text × MetaValue)),
    (m.map Prod.fst ++ items.map Prod.fst).Nodup →
    items.foldl (fun m p => insertOrAssign p.1 p.2 m) m = m ++ items
  | [], m, _ => (List.append_nil m).symm
  | (k, v) :: items, m, h => by
    have hnotMem : k ∉ m.map Prod.fst := fun hk => (List.nodup_append.mp h).2.2 k hk k List.mem_cons_self rfl
    have hnodup : ((m ++ [(k, v)]).map Prod.fst ++ items.map Prod.fst).Nodup := by simpa using h
    rw [List.foldl_cons, insertOrAssign_of_notMem k v hnotMem, foldl_insertOrAssign items _ hnodup]
    simp

/-- No prefix is the beginning of a text under another. -/
theorem splitPrefix_append {pfx : Text × MetadataType} (h : pfx ∈ prefixes) (text : Text) :
    splitPrefix (pfx.1 ++ text) = (pfx.2, text) := by
  simp only [prefixes, List.mem_cons, List.not_mem_nil, or_false] at h
  rcases h with rfl | rfl | rfl | rfl | rfl | rfl | rfl | rfl | rfl <;> rfl

theorem parseText_print {items : List (Text × Value)} {text : Text} (ht : Layout (print items) text)
    (hi : ∀ i ∈ items, IsIdentifier i.1 ∧ i.2.Valid) (hd : (items.map Prod.fst).Nodup) :
    parseText text = .ok (items.map fun i => (i.1, i.2.meta)) := by
  have hr : Reads (print items) (.start text) := ⟨text, rfl, ht, valid_of_mem_print hi, isChain_print items⟩
  have hw := weight_start text
  rw [parseText, parse_print text items hr (fun i h => (hi i h).2) (by simpa using hd) (by omega), List.nil_append]

/-- A printed map is parsed to that map under every prefix, and every text to a map or an exception. -/
theorem parse_printed_or_stop :
    (∀ (items : List (Text × Value)) (text : Text), (items.map Prod.fst).Nodup →
      (∀ i ∈ items, IsIdentifier i.1 ∧ i.2.Valid) → Layout (print items) text → ∀ pfx ∈ prefixes,
        parseMetadataDsl (pfx.1 ++ text) = .ok ⟨pfx.2, items.map fun i => (i.1, i.2.meta)⟩) ∧
    ∀ inDsl : Text, (∃ c, parseMetadataDsl inDsl = .ok c) ∨ ∃ e, parseMetadataDsl inDsl = .error (.thrown e) := by
  refine ⟨fun items text hd hi ht pfx hp => ?_, fun inDsl => ?_⟩
  · have hparse := parseText_print ht hi hd
    simp only [parseMetadataDsl, splitPrefix_append hp]
    by_cases h0 : text = []
    · subst h0
      have hnil : parseText [] = .ok [] := by rfl
      rw [if_pos rfl, ← Except.ok.inj (hnil.symm.trans hparse)]
    · rw [if_neg h0, hparse]
      simp only [Bind.bind, Except.bind, Pure.pure, Except.pure]
      rw [foldl_insertOrAssign _ [] (by simpa [Function.comp_def] using hd), List.nil_append]
  · cases h : parseMetadataDsl inDsl with
    | ok c => exact .inl ⟨c, rfl⟩
    | error e =>
      cases e with
      | thrown e => exact .inr ⟨e, rfl⟩
      | fuel => exact absurd h (parseMetadataDsl_ne_fuel inDsl)

theorem parse_printed_or_stop_field :
    parseMetadataDsl (ascii "#field a = \"x\\\"\"") = .ok ⟨.structField, [(ascii "a", .string (ascii "x\""))]⟩ := by
  have ht : Layout (print [(ascii "a", .string (ascii "x\""))]) (ascii "a = \"x\\\"\"") :=
    @Layout.cons [] _ _ _ (by simp) (@Layout.cons [32] _ _ _ (by simp; decide) (@Layout.cons [32] _ _ _ (by simp; decide)
      (@Layout.nil [] (by simp))))
  have hi : IsIdentifier (ascii "a") := ⟨by decide, by simp⟩
  have hv : (Value.string (ascii "x\"")).Valid := show eof ∉ ascii "x\"" by decide
  exact parse_printed_or_stop.1 [(ascii "a", .string (ascii "x\""))] _ (List.nodup_singleton _)
    (List.forall_mem_singleton.mpr ⟨hi, hv⟩) ht (ascii "#field ", .structField) (by decide)

end Container

end Zpc.Metadata
