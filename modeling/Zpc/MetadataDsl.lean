import Zpc.RationalRounding

/-!
# The metadata DSL

The annotations of reflected declarations: a prefix that names the kind of declaration, then pairs of a key and a value.
A tokenizer with one character of lookahead feeds a recursive parser. A character is a byte, and `char` is signed: the end
of the input reads as the byte 255, which is `EOF`.
-/
namespace Zpc.Metadata
abbrev Text := List UInt8

def ascii (s : String) : Text := s.toList.map fun c => UInt8.ofNat c.toNat

inductive MetadataType | none | struct | enum | function | enumValue | structField | functionParameter | trait
  deriving DecidableEq, Repr

inductive TokenType | key | string | number | listStart | listEnd | equal | comma | enum | «end»
  deriving DecidableEq, Repr

structure Token where
  type : TokenType
  value : Text
  deriving DecidableEq, Repr

/-- A `MetaValue`; floats by the number they stand for. -/
inductive MetaValue
  | string (s : Text)
  | int (n : ℤ)
  | float (q : ℚ)
  | stringList (l : List Text)
  | floatList (l : List ℚ)
  deriving DecidableEq

section Errors
def tokenTypeToString : TokenType → String
  | .key => "key"
  | .string => "string"
  | .number => "number"
  | .listStart => "list start"
  | .listEnd => "list end"
  | .equal => "equal"
  | .comma => "comma"
  | .end => "end"
  | .enum => "unknown"

inductive Error
  | unexpectedToken (expected found : TokenType) (metadata : Text)
  | unexpectedValue (found : TokenType) (value metadata : Text)
  | invalidArgument (function : String)
  | outOfRange (function : String)
  deriving DecidableEq

/-- The text of an exception. -/
def Error.what : Error → Text
  | .unexpectedToken expected found metadata =>
    ascii ("Unexpected token when expecting " ++ tokenTypeToString expected ++ ", found " ++ tokenTypeToString found ++
      ". Metadata: ") ++ metadata
  | .unexpectedValue found value metadata =>
    ascii ("Unexpected value type " ++ tokenTypeToString found ++ ": '") ++ value ++ ascii "'. Metadata: " ++ metadata
  | .invalidArgument function => ascii function
  | .outOfRange function => ascii function

/-- Why a computation stops: an exception, or the end of what it may spend. -/
inductive Stop
  | thrown (e : Error)
  | fuel
  deriving DecidableEq

end Errors

section Characters
def eof : UInt8 := 255

def isSpace (c : UInt8) : Bool := c = 32 || (9 ≤ c && c ≤ 13)

def isDigit (c : UInt8) : Bool := 48 ≤ c && c ≤ 57

def dot : UInt8 := 46
def minus : UInt8 := 45
def quote : UInt8 := 34
def backslash : UInt8 := 92

end Characters

section Tokenizer
/-- The characters from `currentChar` on. -/
abbrev Stream := List UInt8

def currentChar (s : Stream) : UInt8 := s.headD eof

def nextChar (s : Stream) : Stream := s.tail

def consumeWhitespace (s : Stream) : Stream := s.dropWhile isSpace

def isNumberChar (c : UInt8) : Bool := isDigit c || c = dot

def number (s : Stream) : Token × Stream :=
  if currentChar s = minus then
    (⟨.number, minus :: (nextChar s).takeWhile isNumberChar⟩, (nextChar s).dropWhile isNumberChar)
  else (⟨.number, s.takeWhile isNumberChar⟩, s.dropWhile isNumberChar)

def isKeyChar (c : UInt8) : Bool :=
  c ≠ eof && c ≠ 61 && c ≠ 44 && c ≠ 40 && c ≠ 41 && !isSpace c

def key (s : Stream) : Token × Stream := (⟨.key, s.takeWhile isKeyChar⟩, s.dropWhile isKeyChar)

/-- The loop of `string`, with the closing quote skipped. -/
def stringLoop : Stream → Text × Stream
  | [] => ([], [])
  | c :: s =>
    if c = quote ∨ c = eof then ([], s)
    else if c = backslash then
      match s with
      | [] => ([backslash], [])
      | d :: s =>
        let rest := stringLoop s
        ((if d = quote then quote else backslash) :: rest.1, rest.2)
    else
      let rest := stringLoop s
      (c :: rest.1, rest.2)

def string (s : Stream) : Token × Stream :=
  let s := if currentChar s = quote then nextChar s else s
  (⟨.string, (stringLoop s).1⟩, (stringLoop s).2)

def nextToken (s : Stream) : Token × Stream :=
  let s := consumeWhitespace s
  if currentChar s = eof then (⟨.end, []⟩, s)
  else if currentChar s = 61 then (⟨.equal, [61]⟩, nextChar s)
  else if currentChar s = 44 then (⟨.comma, [44]⟩, nextChar s)
  else if currentChar s = 40 then (⟨.listStart, [40]⟩, nextChar s)
  else if currentChar s = 41 then (⟨.listEnd, [41]⟩, nextChar s)
  else if isDigit (currentChar s) || currentChar s = minus then number s
  else if currentChar s = quote then string s
  else key s

end Tokenizer

section Numbers
def digitsValue (ds : Text) : ℕ := ds.foldl (fun n c => 10 * n + (c.toNat - 48)) 0

def splitSign (t : Text) : Bool × Text := if t.headD 0 = minus then (true, t.tail) else (false, t)

/-- `std::stoi`. -/
def stoi (t : Text) : Except Stop ℤ :=
  let ds := (splitSign t).2.takeWhile isDigit
  if ds = [] then .error (.thrown (.invalidArgument "stoi"))
  else
    let n : ℤ := if (splitSign t).1 then -digitsValue ds else digitsValue ds
    if n < -2147483648 ∨ 2147483647 < n then .error (.thrown (.outOfRange "stoi")) else .ok n

/-- The conversion to `float`: 24 bits of precision, subnormal numbers from `2 ^ -149` on, ties to even. -/
def toFloat (q : ℚ) : ℚ := RationalRounding.nearest 24 (-149) q

/-- `std::stof`, which also throws where a tiny result is inexact. -/
def stof (t : Text) : Except Stop ℚ :=
  let ds := (splitSign t).2.takeWhile isDigit
  let rest := (splitSign t).2.dropWhile isDigit
  let fs := if rest.headD 0 = dot then rest.tail.takeWhile isDigit else []
  if ds ++ fs = [] then .error (.thrown (.invalidArgument "stof"))
  else
    let m : ℚ := digitsValue (ds ++ fs) / 10 ^ fs.length
    let q : ℚ := if (splitSign t).1 then -m else m
    let r := toFloat q
    if 2 ^ 128 ≤ |r| ∨ r ≠ q ∧ |r| < 2 ^ (-126 : ℤ) then .error (.thrown (.outOfRange "stof")) else .ok r

end Numbers

section Parser
structure Parser where
  currentToken : Token
  rest : Stream

def Parser.nextToken (p : Parser) : Parser := ⟨(Metadata.nextToken p.rest).1, (Metadata.nextToken p.rest).2⟩

def Parser.start (input : Text) : Parser := ⟨(Metadata.nextToken input).1, (Metadata.nextToken input).2⟩

variable (origin : Text)

def expect (tokenExpected : TokenType) (p : Parser) : Except Stop (Text × Parser) :=
  if p.currentToken.type ≠ tokenExpected then
    .error (.thrown (.unexpectedToken tokenExpected p.currentToken.type origin))
  else .ok (p.currentToken.value, p.nextToken)

/-- Adjacent strings are one string. -/
def parseStrings : ℕ → Text → Parser → Except Stop (MetaValue × Parser)
  | 0, _, _ => .error .fuel
  | n + 1, result, p =>
    if p.currentToken.type = .string then do
      let (value, p) ← expect origin .string p
      parseStrings n (result ++ value) p
    else .ok (.string result, p)

/-- What a list gives back of its two accumulators. -/
def listValue (stringList : List Text) (numericList : List ℚ) : MetaValue :=
  if stringList ≠ [] then .stringList stringList else .floatList numericList

def skipComma (p : Parser) : Parser := if p.currentToken.type = .comma then p.nextToken else p

mutual

def parseValue : ℕ → Parser → Except Stop (MetaValue × Parser)
  | 0, _ => .error .fuel
  | n + 1, p =>
    match p.currentToken.type with
    | .string => do
      let (result, p) ← expect origin .string p
      parseStrings origin n result p
    | .number => do
      let (result, p) ← expect origin .number p
      if dot ∈ result then
        let q ← stof result
        return (.float q, p)
      let i ← stoi result
      return (.int i, p)
    | .listStart => parseList n [] [] p.nextToken
    | .key => .ok (.string p.currentToken.value, p.nextToken)
    | type => .error (.thrown (.unexpectedValue type p.currentToken.value origin))

/-- The loop of `parse_list`, from behind its opening parenthesis. -/
def parseList : ℕ → List Text → List ℚ → Parser → Except Stop (MetaValue × Parser)
  | 0, _, _, _ => .error .fuel
  | n + 1, stringList, numericList, p =>
    if p.currentToken.type = .listEnd then .ok (listValue stringList numericList, p.nextToken)
    else do
      let (val, p) ← parseValue n p
      match val with
      | .string s => parseList n (stringList ++ [s]) numericList (skipComma p)
      | .float q => parseList n stringList (numericList ++ [q]) (skipComma p)
      | .int i => parseList n stringList (numericList ++ [toFloat i]) (skipComma p)
      | _ => parseList n stringList numericList (skipComma p)

end

/-- `m[k] = v`. -/
def insertOrAssign (k : Text) (v : MetaValue) : List (Text × MetaValue) → List (Text × MetaValue)
  | [] => [(k, v)]
  | (k', v') :: m => if k = k' then (k, v) :: m else (k', v') :: insertOrAssign k v m

def parse : ℕ → List (Text × MetaValue) → Parser → Except Stop (List (Text × MetaValue))
  | 0, _, _ => .error .fuel
  | n + 1, ast, p =>
    if p.currentToken.type = .end then .ok ast
    else do
      let (k, p) ← expect origin .key p
      if p.currentToken.type = .equal then
        let (v, p) ← parseValue origin n p.nextToken
        parse n (insertOrAssign k v ast) (skipComma p)
      else parse n (insertOrAssign k (.string (ascii "true")) ast) (skipComma p)

end Parser

section Container
structure MetadataContainer where
  type : MetadataType
  properties : List (Text × MetaValue)
  deriving DecidableEq

def prefixes : List (Text × MetadataType) :=
  [(ascii "#struct ", .struct), (ascii "#enum ", .enum), (ascii "#function ", .function), (ascii "#method ", .function),
    (ascii "#enum_value ", .enumValue), (ascii "#field ", .structField), (ascii "#property ", .structField),
    (ascii "#param ", .functionParameter), (ascii "#trait ", .trait)]

/-- The type of the first prefix that matches and what follows it, or the whole text without a type. -/
def splitPrefix (inDsl : Text) : MetadataType × Text :=
  match prefixes.find? fun p => p.1.isPrefixOf inDsl with
  | some p => (p.2, inDsl.drop p.1.length)
  | none => (.none, inDsl)

/-- `DSLParser(metadata).parse()`. Every call of the parser spends one of twice the length of the text, and a few more. -/
def parseText (metadata : Text) : Except Stop (List (Text × MetaValue)) :=
  parse metadata (2 * metadata.length + 4) [] (.start metadata)

def parseMetadataDsl (inDsl : Text) : Except Stop MetadataContainer :=
  let (type, metadata) := splitPrefix inDsl
  if metadata = [] then .ok ⟨type, []⟩
  else do
    let ast ← parseText metadata
    return ⟨type, ast.foldl (fun m p => insertOrAssign p.1 p.2 m) []⟩

end Container

end Zpc.Metadata

/-!
## Parsing ends on every text

What is left to read is weighed: the characters behind the current token, and one more while that token is not the end.
Taking a token never makes the weight larger, and makes it smaller unless the token was the end.
-/
namespace Zpc.Metadata
section Weight

theorem length_dropWhile_le (f : UInt8 → Bool) (s : Stream) : (s.dropWhile f).length ≤ s.length :=
  (List.dropWhile_suffix f).length_le

theorem length_stringLoop_le (s : Stream) : (stringLoop s).2.length ≤ s.length := by
  fun_induction stringLoop s with
  | case1 => simp
  | case2 => simp
  | case3 => simp
  | case4 _ _ _ _ ih => exact ih.trans (by simp; omega)
  | case5 _ _ _ _ _ ih => exact ih.trans (by simp)

@[simp] theorem number_type (s : Stream) : (number s).1.type = .number := by
  unfold number
  split_ifs <;> rfl

@[simp] theorem string_type (s : Stream) : (string s).1.type = .string := rfl

@[simp] theorem key_type (s : Stream) : (key s).1.type = .key := rfl

theorem length_string_le {c : UInt8} {s : Stream} (h : c = quote) : (string (c :: s)).2.length ≤ s.length := by
  simpa [string, currentChar, nextChar, h] using length_stringLoop_le s

theorem length_number_le {c : UInt8} {s : Stream} (h : isDigit c ∨ c = minus) :
    (number (c :: s)).2.length ≤ s.length := by
  by_cases hc : c = minus
  · simpa [number, currentChar, nextChar, hc] using length_dropWhile_le isNumberChar s
  · have hd : isNumberChar c := by simp_all [isNumberChar]
    simpa [number, currentChar, hc, hd] using length_dropWhile_le isNumberChar s

theorem length_key_le {c : UInt8} {s : Stream} (h : isKeyChar c) : (key (c :: s)).2.length ≤ s.length := by
  simpa [key, h] using length_dropWhile_le isKeyChar s

theorem not_isSpace_head {s : Stream} {c : UInt8} {t : Stream} (h : consumeWhitespace s = c :: t) : isSpace c = false := by
  have := List.head?_dropWhile_not isSpace s
  simp_all [consumeWhitespace]

/-- A token other than the end takes a character at least. -/
def Takes (s : Stream) (r : Token × Stream) : Prop :=
  r.2.length + (if r.1.type = .end then 0 else 1) ≤ s.length

theorem Takes.of_lt {s : Stream} {r : Token × Stream} (h : r.2.length < s.length) : Takes s r := by
  unfold Takes
  split_ifs <;> omega

theorem takes_nextToken (s : Stream) : Takes s (nextToken s) := by
  have hw : (consumeWhitespace s).length ≤ s.length := length_dropWhile_le isSpace s
  cases hs : consumeWhitespace s with
  | nil => simp [Takes, nextToken, hs, currentChar]
  | cons c t =>
    have hl : t.length < s.length := by rw [hs] at hw; exact hw
    have took : ∀ r : Token × Stream, r.2.length ≤ t.length → Takes s r := fun r hr => .of_lt (hr.trans_lt hl)
    simp only [nextToken, hs, currentChar, List.headD_cons, nextChar, List.tail_cons]
    split_ifs with h0 h1 h2 h3 h4 h5 h6
    · exact hl
    · exact took _ le_rfl
    · exact took _ le_rfl
    · exact took _ le_rfl
    · exact took _ le_rfl
    · exact took _ (length_number_le (by simpa using h5))
    · exact took _ (length_string_le h6)
    · exact took _ (length_key_le (by simp [isKeyChar, not_isSpace_head hs, h0, h1, h2, h3, h4]))

def Parser.weight (p : Parser) : ℕ := p.rest.length + if p.currentToken.type = .end then 0 else 1

theorem weight_start (s : Text) : (Parser.start s).weight ≤ s.length := takes_nextToken s

theorem weight_nextToken_le (p : Parser) : p.nextToken.weight ≤ p.weight :=
  (takes_nextToken p.rest).trans (Nat.le_add_right _ _)

theorem weight_nextToken_lt {p : Parser} (h : p.currentToken.type ≠ .end) : p.nextToken.weight < p.weight := by
  have : p.nextToken.weight ≤ p.rest.length := takes_nextToken p.rest
  simp only [Parser.weight, h, if_false]
  exact Nat.lt_succ_of_le this

theorem weight_skipComma_le (p : Parser) : (skipComma p).weight ≤ p.weight := by
  unfold skipComma
  split_ifs
  · exact weight_nextToken_le p
  · exact le_rfl

end Weight

section Ends
variable {α β : Type}

/-- A computation that throws, or leaves a parser lighter than `w`. -/
def Ends (w : ℕ) : Except Stop (α × Parser) → Prop
  | .ok r => r.2.weight < w
  | .error e => e ≠ .fuel

theorem Ends.mono {w w' : ℕ} {x : Except Stop (α × Parser)} (h : Ends w x) (hw : w ≤ w') : Ends w' x := by
  cases x with
  | error e => exact h
  | ok r => exact lt_of_lt_of_le h hw

theorem Ends.bind {w w' : ℕ} {x : Except Stop (α × Parser)} {f : α × Parser → Except Stop (β × Parser)}
    (h : Ends w x) (hf : ∀ a p, p.weight < w → Ends w' (f (a, p))) : Ends w' (x >>= f) := by
  cases x with
  | error e => exact h
  | ok r => exact hf r.1 r.2 h

theorem stoi_ne_fuel (t : Text) : stoi t ≠ .error .fuel := by
  simp only [stoi]
  split_ifs <;> simp

theorem stof_ne_fuel (t : Text) : stof t ≠ .error .fuel := by
  simp only [stof]
  split_ifs <;> simp

variable (origin : Text)

theorem expect_ends (type : TokenType) (p : Parser) (h : type ≠ .end) : Ends p.weight (expect origin type p) := by
  unfold expect
  split_ifs with ht
  · simp [Ends]
  · exact weight_nextToken_lt (by simp_all)

theorem parseStrings_ends : ∀ (n : ℕ) (result : Text) (p : Parser), p.weight < n →
    Ends (p.weight + 1) (parseStrings origin n result p)
  | 0, _, _, h => absurd h (Nat.not_lt_zero _)
  | n + 1, result, p, h => by
    simp only [parseStrings]
    split_ifs
    · refine (expect_ends origin .string p (by simp)).bind fun value p' hp => ?_
      exact (parseStrings_ends n (result ++ value) p' (by omega)).mono (by omega)
    · exact Nat.lt_succ_self _

/-- The calls of the two functions alternate, and every second one takes a token. -/
theorem parseValue_parseList_ends : ∀ n : ℕ,
    (∀ p : Parser, 2 * p.weight < n → Ends p.weight (parseValue origin n p)) ∧
    (∀ (l : List Text) (m : List ℚ) (p : Parser), 2 * p.weight + 1 < n →
      Ends (p.weight + 1) (parseList origin n l m p))
  | 0 => ⟨fun _ h => absurd h (Nat.not_lt_zero _), fun _ _ _ h => absurd h (Nat.not_lt_zero _)⟩
  | n + 1 => by
    obtain ⟨hv, hl⟩ := parseValue_parseList_ends n
    refine ⟨fun p hp => ?_, fun l m p hp => ?_⟩
    · unfold parseValue
      split
      · refine (expect_ends origin .string p (by simp)).bind fun result p' hp' => ?_
        exact (parseStrings_ends origin n result p' (by omega)).mono (by omega)
      · refine (expect_ends origin .number p (by simp)).bind fun result p' hp' => ?_
        simp only
        split_ifs
        · cases h : stof result with
          | error e => exact fun he => stof_ne_fuel result (he ▸ h)
          | ok q => exact hp'
        · cases h : stoi result with
          | error e => exact fun he => stoi_ne_fuel result (he ▸ h)
          | ok i => exact hp'
      · have := weight_nextToken_lt (p := p) (by simp_all)
        exact (hl [] [] p.nextToken (by omega)).mono (by omega)
      · exact weight_nextToken_lt (p := p) (by simp_all)
      · simp [Ends]
    · unfold parseList
      split_ifs with ht
      · exact Nat.lt_succ_of_le (weight_nextToken_le p)
      · refine (hv p (by omega)).bind fun val p' hp' => ?_
        have hs := weight_skipComma_le p'
        cases val <;> exact (hl _ _ (skipComma p') (by omega)).mono (by omega)

theorem parseValue_ends {n : ℕ} {p : Parser} (h : 2 * p.weight < n) : Ends p.weight (parseValue origin n p) :=
  (parseValue_parseList_ends origin n).1 p h

theorem parse_ne_fuel : ∀ (n : ℕ) (ast : List (Text × MetaValue)) (p : Parser), 2 * p.weight + 1 < n →
    parse origin n ast p ≠ .error .fuel
  | 0, _, _, h => absurd h (Nat.not_lt_zero _)
  | n + 1, ast, p, h => by
    unfold parse
    split_ifs with he
    · simp
    · have hk := expect_ends origin .key p (by simp)
      cases hx : expect origin .key p with
      | error e =>
        rw [hx] at hk
        simpa [Bind.bind, Except.bind, Ends] using hk
      | ok r =>
        obtain ⟨k, p'⟩ := r
        have hp' : p'.weight < p.weight := by simpa [hx, Ends] using hk
        simp only [Bind.bind, Except.bind]
        split_ifs with hq
        · have hn := weight_nextToken_lt (p := p') (by simp_all)
          have hv := parseValue_ends origin (n := n) (p := p'.nextToken) (by omega)
          cases hy : parseValue origin n p'.nextToken with
          | error e =>
            rw [hy] at hv
            simpa [Ends] using hv
          | ok r =>
            obtain ⟨v, p''⟩ := r
            have hp'' : p''.weight < p'.nextToken.weight := by simpa [hy, Ends] using hv
            have hs := weight_skipComma_le p''
            exact parse_ne_fuel n _ (skipComma p'') (by omega)
        · have hs := weight_skipComma_le p'
          exact parse_ne_fuel n _ _ (by omega)

end Ends

theorem parseText_ne_fuel (metadata : Text) : parseText metadata ≠ .error .fuel := by
  have := weight_start metadata
  exact parse_ne_fuel metadata _ _ _ (by omega)

theorem parseMetadataDsl_ne_fuel (inDsl : Text) : parseMetadataDsl inDsl ≠ .error .fuel := by
  simp only [parseMetadataDsl]
  split_ifs with h
  · simp
  · have := parseText_ne_fuel (splitPrefix inDsl).2
    cases hp : parseText (splitPrefix inDsl).2 with
    | error e => simpa [hp, Bind.bind, Except.bind] using this
    | ok ast => simp [Bind.bind, Except.bind, Pure.pure, Except.pure]

end Zpc.Metadata
