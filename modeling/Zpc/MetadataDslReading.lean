import Zpc.MetadataDslRoundTrip

/-!
# What a metadata text says

A reading of the text that loses nothing: quoted strings with every character between their quotes, numbers as they are
written, lists with all their elements in order. It follows the tokens of the parser but converts nothing, and on every text
that is accepted what the parser returns is an evaluation of it.
-/
namespace Zpc.Metadata
section Reading

/-- A character between quotes: as it is, behind a backslash, or the byte that ends the tokenizer's input. -/
inductive Piece
  | plain (c : UInt8)
  | escaped (c : UInt8)
  | cut
  deriving DecidableEq

def Piece.char : Piece → UInt8
  | .plain c | .escaped c => c
  | .cut => eof

/-- What the tokenizer makes of it. -/
def Piece.read : Piece → Text
  | .plain c => [c]
  | .escaped c => [if c = quote then quote else backslash]
  | .cut => []

/-- The characters up to the closing quote. -/
def pieces : Stream → List Piece
  | [] => []
  | c :: s =>
    if c = quote then []
    else if c = eof then [.cut]
    else if c = backslash then
      match s with
      | [] => [.plain backslash]
      | d :: s => .escaped d :: pieces s
    else .plain c :: pieces s

inductive Expr
  | quoted (ps : List Piece)
  | number (t : Text)
  | word (k : Text)
  | flag
  | list (l : List Expr)

/-- The quoted strings that stand next to each other. -/
def readStrings : ℕ → Stream → List Piece × Stream
  | 0, s => ([], s)
  | n + 1, s =>
    if (nextToken s).1.type = .string then
      let (ps, s') := readStrings n (nextToken s).2
      (pieces (consumeWhitespace s).tail ++ ps, s')
    else ([], s)

def skipCommaOf (s : Stream) : Stream := if (nextToken s).1.type = .comma then (nextToken s).2 else s

mutual

def readValue : ℕ → Stream → Option (Expr × Stream)
  | 0, _ => none
  | n + 1, s =>
    match (nextToken s).1.type with
    | .string => some (.quoted (readStrings (n + 1) s).1, (readStrings (n + 1) s).2)
    | .number => some (.number (nextToken s).1.value, (nextToken s).2)
    | .listStart => (readList n (nextToken s).2).map fun r => (.list r.1, r.2)
    | .key => some (.word (nextToken s).1.value, (nextToken s).2)
    | _ => none

def readList : ℕ → Stream → Option (List Expr × Stream)
  | 0, _ => none
  | n + 1, s =>
    if (nextToken s).1.type = .listEnd then some ([], (nextToken s).2)
    else do
      let (e, s) ← readValue n s
      let (l, s) ← readList n (skipCommaOf s)
      return (e :: l, s)

end

def readProperty (n : ℕ) (s : Stream) : Option (Expr × Stream) :=
  if (nextToken s).1.type = .equal then readValue n (nextToken s).2 else some (.flag, s)

/-- The pairs of a text, and what stands behind its end. -/
def read : ℕ → Stream → Option (List (Text × Expr) × Stream)
  | 0, _ => none
  | n + 1, s =>
    if (nextToken s).1.type = .end then some ([], (nextToken s).2)
    else do
      let (e, s') ← readProperty n (nextToken s).2
      let (items, s') ← read n (skipCommaOf s')
      return (((nextToken s).1.value, e) :: items, s')

/-- The reading of a text without its prefix. -/
def reading (inDsl : Text) : Option (List (Text × Expr) × Stream) :=
  read (2 * (splitPrefix inDsl).2.length + 4) (splitPrefix inDsl).2

end Reading

section Evaluation
def MetaValue.text : MetaValue → Option Text
  | .string s => some s
  | _ => none

def MetaValue.number : MetaValue → Option ℚ
  | .int i => some (toFloat i)
  | .float q => some q
  | _ => none

/-- What the parser makes of an expression. -/
inductive Evaluates : Expr → MetaValue → Prop
  | quoted (ps : List Piece) : Evaluates (.quoted ps) (.string (ps.flatMap Piece.read))
  | word (k : Text) : Evaluates (.word k) (.string k)
  | flag : Evaluates .flag (.string (ascii "true"))
  | float {t : Text} {q : ℚ} (h : stof t = .ok q) : Evaluates (.number t) (.float q)
  | int {t : Text} {i : ℤ} (hd : dot ∉ t) (h : stoi t = .ok i) : Evaluates (.number t) (.int i)
  | list {l : List Expr} {vs : List MetaValue} (h : List.Forall₂ Evaluates l vs) :
      Evaluates (.list l) (listValue (vs.filterMap MetaValue.text) (vs.filterMap MetaValue.number))

theorem stringLoop_eq (s : Stream) : (stringLoop s).1 = (pieces s).flatMap Piece.read := by
  fun_induction stringLoop s with
  | case1 => rfl
  | case2 c s h =>
    rcases h with rfl | rfl <;> rw [pieces.eq_def] <;> rfl
  | case3 h => rfl
  | case4 h d s rest ih =>
    rw [pieces.eq_def]
    exact congrArg _ ih
  | case5 c s h hb rest ih =>
    rw [not_or] at h
    rw [pieces.eq_def]
    simp only [h.1, h.2, hb, if_false]
    exact congrArg (c :: ·) ih

theorem value_of_string {s : Stream} (h : (nextToken s).1.type = .string) :
    (nextToken s).1.value = (pieces (consumeWhitespace s).tail).flatMap Piece.read := by
  revert h
  simp only [nextToken]
  split_ifs with h0 h1 h2 h3 h4 h5 h6
  · simp
  · simp
  · simp
  · simp
  · simp
  · simp
  · intro _
    simp only [string, if_pos h6, nextChar, stringLoop_eq]
  · simp

end Evaluation

section Correspondence
variable {origin : Text} {n : ℕ} {s : Stream} {p' : Parser}

theorem nextToken_start (s : Stream) : (Parser.start s).nextToken = .start (nextToken s).2 := rfl

theorem currentToken_start (s : Stream) : (Parser.start s).currentToken = (nextToken s).1 := rfl

theorem skipComma_start (s : Stream) : skipComma (.start s) = .start (skipCommaOf s) := by
  unfold skipComma skipCommaOf
  split_ifs with h h' h'
  · rfl
  · exact absurd h h'
  · exact absurd h' h
  · rfl

theorem expect_start {type : TokenType} {r : Text × Parser} (h : expect origin type (.start s) = .ok r) :
    (nextToken s).1.type = type ∧ r = ((nextToken s).1.value, .start (nextToken s).2) := by
  unfold expect at h
  split_ifs at h with ht
  exact ⟨by simpa [currentToken_start] using ht, (Except.ok.inj h).symm⟩

theorem bind_eq_ok {α β : Type} {x : Except Stop α} {f : α → Except Stop β} {b : β} (h : (x >>= f) = .ok b) :
    ∃ a, x = .ok a ∧ f a = .ok b := by
  cases x with
  | error e => simp [Bind.bind, Except.bind] at h
  | ok a => exact ⟨a, rfl, h⟩

theorem parseStrings_start : ∀ {n : ℕ} {result : Text} {s : Stream} {r : MetaValue × Parser},
    parseStrings origin n result (.start s) = .ok r →
    r = (.string (result ++ (readStrings n s).1.flatMap Piece.read), .start (readStrings n s).2)
  | 0, _, _, _, h => by simp [parseStrings] at h
  | n + 1, result, s, r, h => by
    rw [parseStrings, currentToken_start] at h
    split_ifs at h with ht
    · obtain ⟨a, ha, h⟩ := bind_eq_ok h
      obtain ⟨-, rfl⟩ := expect_start ha
      rw [parseStrings_start h, readStrings, if_pos ht, value_of_string ht]
      simp
    · rw [readStrings, if_neg ht, ← Except.ok.inj h, List.flatMap_nil, List.append_nil]

/-- Where the parser returns a value, the reading has an expression there that evaluates to it. -/
theorem parseValue_parseList_start : ∀ n : ℕ,
    (∀ {s : Stream} {r : MetaValue × Parser}, parseValue origin n (.start s) = .ok r →
      ∃ e s', readValue n s = some (e, s') ∧ r.2 = .start s' ∧ Evaluates e r.1) ∧
    (∀ {strings : List Text} {numbers : List ℚ} {s : Stream} {r : MetaValue × Parser},
      parseList origin n strings numbers (.start s) = .ok r →
      ∃ l s' vs, readList n s = some (l, s') ∧ r.2 = .start s' ∧ List.Forall₂ Evaluates l vs ∧
        r.1 = listValue (strings ++ vs.filterMap MetaValue.text) (numbers ++ vs.filterMap MetaValue.number))
  | 0 => ⟨fun h => by simp [parseValue] at h, fun h => by simp [parseList] at h⟩
  | n + 1 => by
    obtain ⟨hv, hl⟩ := parseValue_parseList_start n
    refine ⟨fun {s r} h => ?_, fun {strings numbers s r} h => ?_⟩
    · rw [parseValue, currentToken_start, nextToken_start] at h
      split at h
      · rename_i heq
        obtain ⟨a, ha, h⟩ := bind_eq_ok h
        obtain ⟨-, rfl⟩ := expect_start ha
        have hr : readStrings (n + 1) s = (pieces (consumeWhitespace s).tail ++ (readStrings n (nextToken s).2).1,
            (readStrings n (nextToken s).2).2) := by rw [readStrings, if_pos heq]
        refine ⟨_, _, by rw [readValue, heq], ?_, ?_⟩ <;> rw [parseStrings_start h, hr]
        rw [value_of_string heq, ← List.flatMap_append]
        exact .quoted _
      · rename_i heq
        obtain ⟨a, ha, h⟩ := bind_eq_ok h
        obtain ⟨-, rfl⟩ := expect_start ha
        refine ⟨.number (nextToken s).1.value, (nextToken s).2, by rw [readValue, heq], ?_⟩
        simp only at h
        split_ifs at h with hd
        · obtain ⟨q, hq, h⟩ := bind_eq_ok h
          obtain rfl := (Except.ok.inj h).symm
          exact ⟨rfl, .float hq⟩
        · obtain ⟨i, hi, h⟩ := bind_eq_ok h
          obtain rfl := (Except.ok.inj h).symm
          exact ⟨rfl, .int hd hi⟩
      · rename_i heq
        obtain ⟨l, s', vs, hr, hp, he, hval⟩ := hl h
        refine ⟨.list l, s', by rw [readValue, heq]; simp only [hr, Option.map_some], hp, ?_⟩
        rw [hval]
        exact .list he
      · rename_i heq
        obtain rfl := (Except.ok.inj h).symm
        exact ⟨.word (nextToken s).1.value, (nextToken s).2, by rw [readValue, heq], rfl, .word _⟩
      · simp at h
    · rw [parseList, currentToken_start, nextToken_start] at h
      rw [readList]
      split_ifs at h with ht
      · obtain rfl := (Except.ok.inj h).symm
        exact ⟨[], (nextToken s).2, [], by rw [if_pos ht], rfl, .nil, by simp⟩
      · obtain ⟨⟨v, p'⟩, ha, h⟩ := bind_eq_ok h
        obtain ⟨e, s', hr, rfl, he⟩ := hv ha
        have hrest : ∃ strings' numbers', parseList origin n strings' numbers' (.start (skipCommaOf s')) = .ok r ∧
            strings' = strings ++ v.text.toList ∧ numbers' = numbers ++ v.number.toList := by
          rw [← skipComma_start]
          cases v <;> exact ⟨_, _, h, by simp [MetaValue.text], by simp [MetaValue.number]⟩
        obtain ⟨strings', numbers', h, rfl, rfl⟩ := hrest
        obtain ⟨l, s'', vs, hr', hp, hes, hval⟩ := hl h
        refine ⟨e :: l, s'', v :: vs, ?_, hp, .cons he hes, ?_⟩
        · rw [if_neg ht, hr]
          simp only [Option.bind_eq_bind, Option.bind_some, hr']
          rfl
        · rw [hval, filterMap_cons_toList, filterMap_cons_toList, List.append_assoc, List.append_assoc]

theorem parseValue_start {r : MetaValue × Parser} (h : parseValue origin n (.start s) = .ok r) :
    ∃ e s', readValue n s = some (e, s') ∧ r.2 = .start s' ∧ Evaluates e r.1 :=
  (parseValue_parseList_start n).1 h

/-- The pairs of an accepted text, each with its value, make up what is returned. -/
theorem parse_start : ∀ {n : ℕ} {ast m : List (Text × MetaValue)} {s : Stream},
    parse origin n ast (.start s) = .ok m →
    ∃ items s' vs, read n s = some (items, s') ∧
      List.Forall₂ (fun (i : Text × Expr) (v : Text × MetaValue) => i.1 = v.1 ∧ Evaluates i.2 v.2) items vs ∧
      m = vs.foldl (fun m p => insertOrAssign p.1 p.2 m) ast
  | 0, _, _, _, h => by simp [parse] at h
  | n + 1, ast, m, s, h => by
    rw [parse, currentToken_start] at h
    rw [read]
    split_ifs at h with ht
    · obtain rfl := (Except.ok.inj h).symm
      exact ⟨[], _, [], if_pos ht, .nil, rfl⟩
    · obtain ⟨a, ha, h⟩ := bind_eq_ok h
      obtain ⟨-, rfl⟩ := expect_start ha
      simp only [nextToken_start] at h
      rw [if_neg ht]
      set k := (nextToken s).1.value
      set s₁ := (nextToken s).2
      have step : ∃ e s₂ v, readProperty n s₁ = some (e, s₂) ∧ Evaluates e v ∧
          parse origin n (insertOrAssign k v ast) (.start (skipCommaOf s₂)) = .ok m := by
        rw [readProperty]
        by_cases hq : (nextToken s₁).1.type = .equal
        · have hq' : (Parser.start s₁).currentToken.type = .equal := hq
          rw [if_pos hq'] at h
          obtain ⟨⟨v, p'⟩, ha, h⟩ := bind_eq_ok h
          obtain ⟨e, s₂, hr, rfl, he⟩ := parseValue_start ha
          exact ⟨e, s₂, v, by rw [if_pos hq, hr], he, by rwa [← skipComma_start]⟩
        · have hq' : (Parser.start s₁).currentToken.type ≠ .equal := hq
          rw [if_neg hq', skipComma_start] at h
          exact ⟨.flag, s₁, _, if_neg hq, .flag, h⟩
      obtain ⟨e, s₂, v, hr, he, h⟩ := step
      obtain ⟨items, s', vs, hr', hvs, hm⟩ := parse_start h
      refine ⟨(k, e) :: items, s', (k, v) :: vs, ?_, .cons ⟨rfl, he⟩ hvs, hm⟩
      simp only [hr, Option.bind_eq_bind, Option.bind_some, hr']
      rfl

end Correspondence

end Zpc.Metadata
