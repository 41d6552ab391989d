import Mathlib.Data.List.Infix

/-!
# String literals of C++

The lexical rules by which a string literal denotes characters. Line ends become new-lines first; a backslash before a
new-line is then removed with it, but not in a raw string, which ends at the first `)"`.
-/
namespace CppLiterals
abbrev Text := List UInt8

def quote : UInt8 := 34
def close : UInt8 := 41
def backslash : UInt8 := 92
def newline : UInt8 := 10
def carriageReturn : UInt8 := 13

/-- A carriage return, with or without a line feed behind it, is one new-line. -/
def newlines : Text → Text
  | [] => []
  | c :: s =>
    if c = carriageReturn then if s.head? = some newline then newlines s else newline :: newlines s
    else c :: newlines s

/-- Lines that end in a backslash joined with the next. -/
def splice : Text → Text
  | [] => []
  | c :: s => if c = backslash ∧ s.head? = some newline then (splice s).tail else c :: splice s

/-- What stands before the end of a raw string without a delimiter, and what behind it. -/
def readRaw : Text → Option (Text × Text)
  | [] => none
  | c :: s =>
    if c = close ∧ s.head? = some quote then some ([], s.tail) else (readRaw s).map fun r => (c :: r.1, r.2)

/-- The simple escape sequences. -/
def simpleEscape (c : UInt8) : Option UInt8 :=
  if c = 39 ∨ c = 34 ∨ c = 63 ∨ c = 92 then some c
  else [(97, 7), (98, 8), (102, 12), (110, 10), (114, 13), (116, 9), (118, 11)].lookup c

/-- The characters of an ordinary string, and what stands behind it; numeric escapes are not read. -/
def readString : Text → Option (Text × Text)
  | [] => none
  | [c] => if c = quote then some ([], []) else none
  | c :: d :: s =>
    if c = quote then some ([], d :: s)
    else if c = newline then none
    else if c = backslash then (simpleEscape d).bind fun e => (readString s).map fun r => (e :: r.1, r.2)
    else (readString (d :: s)).map fun r => (c :: r.1, r.2)

/-- What is read where nothing stands behind it. -/
def whole : Option (Text × Text) → Option Text
  | some (s, []) => some s
  | _ => none

/-- What a text denotes that is one string literal. -/
def denotes (literal : Text) : Option Text :=
  match newlines literal with
  | 82 :: 34 :: 40 :: s => whole (readRaw s)
  | _ =>
    match splice (newlines literal) with
    | 34 :: s => whole (readString s)
    | _ => none

theorem whole_eq_some {x : Option (Text × Text)} {t : Text} : whole x = some t ↔ x = some (t, []) := by
  rcases x with _ | ⟨s, _ | ⟨c, r⟩⟩ <;> simp [whole]

section Raw
variable {s t : Text}

theorem newlines_eq_self (h : carriageReturn ∉ s) : newlines s = s := by
  induction s with
  | nil => rfl
  | cons c s ih =>
    rw [List.mem_cons, not_or] at h
    rw [newlines, if_neg (Ne.symm h.1), ih h.2]

theorem carriageReturn_notMem_newlines (s : Text) : carriageReturn ∉ newlines s := by
  induction s with
  | nil => exact List.not_mem_nil
  | cons c s ih =>
    rw [newlines]
    split_ifs with hc
    · exact ih
    · exact List.not_mem_cons_of_ne_of_not_mem (by decide) ih
    · exact List.not_mem_cons_of_ne_of_not_mem (Ne.symm hc) ih

theorem newlines_append_of_ne {c : UInt8} (hc : c ≠ newline) (s t : Text) :
    newlines (s ++ c :: t) = newlines s ++ newlines (c :: t) := by
  induction s with
  | nil => rfl
  | cons d s ih =>
    have hhead : (s ++ c :: t).head? = some newline ↔ s.head? = some newline := by
      cases s with
      | nil => simp [hc]
      | cons => rfl
    rw [List.cons_append, newlines, newlines, ih]
    simp only [hhead]
    split_ifs <;> rfl

/-- What is read of a raw string stands before its end. -/
theorem readRaw_eq {r : Text × Text} (h : readRaw s = some r) : s = r.1 ++ close :: quote :: r.2 := by
  induction s generalizing r with
  | nil => cases h
  | cons c s ih =>
    rw [readRaw] at h
    split_ifs at h with hc
    · obtain ⟨rfl, hs⟩ := hc
      rw [← Option.some.inj h, List.nil_append, List.eq_cons_of_mem_head? hs]
      rfl
    · obtain ⟨r', hr', rfl⟩ := Option.map_eq_some_iff.mp h
      rw [ih hr', List.cons_append]

/-- A raw string is read whole if and only if its end does not stand in it. -/
theorem readRaw_append_iff : readRaw (s ++ [close, quote]) = some (s, []) ↔ ¬ [close, quote] <:+: s := by
  induction s with
  | nil => simp [readRaw]
  | cons c s ih =>
    have hhead : c = close ∧ (s ++ [close, quote]).head? = some quote ↔ [close, quote] <+: c :: s := by
      cases s with
      | nil => simp [close, quote]
      | cons d s => simp [eq_comm]
    rw [List.cons_append, readRaw, List.infix_cons_iff, not_or, ← ih, ← hhead]
    split_ifs with hp
    · simp [hp]
    · rw [and_iff_right hp]
      cases readRaw (s ++ [close, quote]) <;> simp [Prod.ext_iff]

def rawLiteral (s : Text) : Text := [82, 34, 40] ++ s ++ [close, quote]

theorem denotes_rawLiteral (s t : Text) :
    denotes (rawLiteral s) = some t ↔ readRaw (newlines s ++ [close, quote]) = some (t, []) := by
  have hn : newlines (rawLiteral s) = 82 :: 34 :: 40 :: (newlines s ++ [close, quote]) := by
    have hs : newlines (s ++ [close, quote]) = newlines s ++ [close, quote] := newlines_append_of_ne (by decide) s [quote]
    rw [rawLiteral, List.append_assoc, List.cons_append, List.cons_append, List.cons_append, List.nil_append, newlines,
      newlines, newlines, hs]
    rfl
  rw [denotes, hn]
  exact whole_eq_some

/-- A raw string literal denotes its text, where the end does not stand in the text and no line end changes. -/
theorem denotes_rawLiteral_self : denotes (rawLiteral s) = some s ↔ carriageReturn ∉ s ∧ ¬ [close, quote] <:+: s := by
  rw [denotes_rawLiteral]
  constructor
  · intro h
    have hs : newlines s = s := List.append_cancel_right (readRaw_eq h)
    rw [hs] at h
    exact ⟨hs ▸ carriageReturn_notMem_newlines s, readRaw_append_iff.mp h⟩
  · rintro ⟨hc, h⟩
    rw [newlines_eq_self hc]
    exact readRaw_append_iff.mpr h

end Raw

section Ordinary
/-- A text with its quotes, backslashes and new-lines escaped. -/
def escape : Text → Text
  | [] => []
  | c :: s =>
    if c = quote then backslash :: quote :: escape s
    else if c = backslash then backslash :: backslash :: escape s
    else if c = newline then backslash :: 110 :: escape s
    else c :: escape s

def ordinaryLiteral (s : Text) : Text := quote :: (escape s ++ [quote])

/-- What the reader of an ordinary string meets behind the opening quote. -/
def spliced (s : Text) : Text := splice (newlines (escape s ++ [quote]))

theorem denotes_ordinaryLiteral (s t : Text) :
    denotes (ordinaryLiteral s) = some t ↔ readString (spliced s) = some (t, []) := by
  have hn : newlines (ordinaryLiteral s) = 34 :: newlines (escape s ++ [quote]) := rfl
  have hs : splice (34 :: newlines (escape s ++ [quote])) = 34 :: spliced s := rfl
  rw [denotes, hn]
  simp only [hs]
  exact whole_eq_some

/-- No new-line stands in an escaped text, so that line ends there are carriage returns. -/
theorem head_escape_ne (s : Text) : (escape s ++ [quote]).head? ≠ some newline := by
  cases s with
  | nil => decide
  | cons c s =>
    rw [escape]
    split_ifs with h1 h2 h3
    · nofun
    · nofun
    · nofun
    · simpa using h3

theorem head_newlines (s : Text) (c : UInt8) : (newlines (escape (c :: s) ++ [quote])).head? = some newline ↔
    c = carriageReturn := by
  rw [escape]
  split_ifs with h1 h2 h3
  · subst h1
    exact ⟨nofun, nofun⟩
  · subst h2
    exact ⟨nofun, nofun⟩
  · subst h3
    exact ⟨nofun, nofun⟩
  · rw [List.cons_append, newlines]
    split_ifs with hc hn
    · exact absurd hn (head_escape_ne s)
    · simp [hc]
    · simp [h3, hc]

theorem spliced_nil : spliced [] = [quote] := rfl

theorem spliced_quote (s : Text) : spliced (quote :: s) = backslash :: quote :: spliced s := rfl

theorem spliced_newline (s : Text) : spliced (newline :: s) = backslash :: 110 :: spliced s := rfl

theorem spliced_carriageReturn (s : Text) : spliced (carriageReturn :: s) = newline :: spliced s := by
  have hn : newlines (carriageReturn :: (escape s ++ [quote])) = newline :: newlines (escape s ++ [quote]) := by
    rw [newlines, if_pos rfl, if_neg (head_escape_ne s)]
  rw [spliced, escape, if_neg (by decide), if_neg (by decide), if_neg (by decide), List.cons_append, hn, splice,
    if_neg fun h => absurd h.1 (by decide)]
  rfl

/-- A backslash before a carriage return goes with it. -/
theorem spliced_backslash_carriageReturn (s : Text) :
    spliced (backslash :: carriageReturn :: s) = backslash :: spliced s := by
  have hn : newlines (escape (backslash :: carriageReturn :: s) ++ [quote]) =
      backslash :: backslash :: newlines (escape (carriageReturn :: s) ++ [quote]) := rfl
  have hs : splice (newlines (escape (carriageReturn :: s) ++ [quote])) = newline :: spliced s :=
    spliced_carriageReturn s
  rw [spliced, hn, splice, if_neg fun h => absurd h.2 nofun, splice,
    if_pos ⟨rfl, (head_newlines s carriageReturn).mpr rfl⟩, hs, List.tail_cons]

theorem spliced_backslash {s : Text} (h : s.head? ≠ some carriageReturn) :
    spliced (backslash :: s) = backslash :: backslash :: spliced s := by
  have hn : newlines (escape (backslash :: s) ++ [quote]) =
      backslash :: backslash :: newlines (escape s ++ [quote]) := rfl
  have hhead : (newlines (escape s ++ [quote])).head? ≠ some newline := by
    cases s with
    | nil => decide
    | cons c s => rwa [ne_eq, head_newlines s c, ← Option.some_inj]
  rw [spliced, hn, splice, if_neg fun h => absurd h.2 nofun, splice, if_neg fun h => hhead h.2]
  rfl

theorem spliced_cons {c : UInt8} (s : Text) (h1 : c ≠ quote) (h2 : c ≠ backslash) (h3 : c ≠ newline)
    (h4 : c ≠ carriageReturn) : spliced (c :: s) = c :: spliced s := by
  rw [spliced, escape, if_neg h1, if_neg h2, if_neg h3, List.cons_append, newlines, if_neg h4, splice,
    if_neg fun h => h2 h.1]
  rfl

theorem readString_escaped (d : UInt8) (s : Text) : readString (backslash :: d :: s) =
    (simpleEscape d).bind fun e => (readString s).map fun r => (e :: r.1, r.2) := by
  rw [readString, if_neg (by decide), if_neg (by decide), if_pos rfl]

theorem readString_cons {c : UInt8} {s : Text} (h : s ≠ []) (h1 : c ≠ quote) (h2 : c ≠ backslash) (h3 : c ≠ newline) :
    readString (c :: s) = (readString s).map fun r => (c :: r.1, r.2) := by
  obtain ⟨d, s, rfl⟩ := List.exists_cons_of_ne_nil h
  rw [readString, if_neg h1, if_neg h3, if_neg h2]

theorem spliced_ne_nil (s : Text) : spliced s ≠ [] := by
  cases s with
  | nil => nofun
  | cons c s =>
    by_cases h1 : c = quote
    · rw [h1, spliced_quote]; nofun
    by_cases h2 : c = backslash
    · by_cases h : s.head? = some carriageReturn
      · rw [h2, List.eq_cons_of_mem_head? h, spliced_backslash_carriageReturn]; nofun
      · rw [h2, spliced_backslash h]; nofun
    by_cases h3 : c = newline
    · rw [h3, spliced_newline]; nofun
    by_cases h4 : c = carriageReturn
    · rw [h4, spliced_carriageReturn]; nofun
    · rw [spliced_cons s h1 h2 h3 h4]; nofun

theorem readString_spliced {s : Text} (h : carriageReturn ∉ s) : readString (spliced s) = some (s, []) := by
  induction s with
  | nil => rfl
  | cons c s ih =>
    rw [List.mem_cons, not_or] at h
    by_cases h1 : c = quote
    · rw [h1, spliced_quote, readString_escaped, ih h.2]; rfl
    by_cases h2 : c = backslash
    · rw [h2, spliced_backslash fun hc => h.2 (List.mem_of_mem_head? hc), readString_escaped, ih h.2]; rfl
    by_cases h3 : c = newline
    · rw [h3, spliced_newline, readString_escaped, ih h.2]; rfl
    rw [spliced_cons s h1 h2 h3 (Ne.symm h.1), readString_cons (spliced_ne_nil s) h1 h2 h3, ih h.2]
    rfl

theorem map_cons_eq_some {x : Option (Text × Text)} {c : UInt8} {t : Text}
    (h : (x.map fun r => (c :: r.1, r.2)) = some (t, [])) : ∃ t', x = some (t', []) ∧ t.length = t'.length + 1 := by
  obtain ⟨⟨t', r⟩, hx, h⟩ := Option.map_eq_some_iff.mp h
  obtain ⟨rfl, rfl⟩ := Prod.mk.inj h
  exact ⟨t', hx, rfl⟩

theorem length_readString_escaped {d : UInt8} {u t : Text} (h : readString (backslash :: d :: u) = some (t, [])) :
    ∃ t', readString u = some (t', []) ∧ t.length = t'.length + 1 := by
  rw [readString_escaped] at h
  obtain ⟨e, -, h⟩ := Option.bind_eq_some_iff.mp h
  exact map_cons_eq_some h

/-- What is read has no more characters than the text, one more where a backslash is left over from before it, and fewer
where a line end stood in it. -/
theorem length_read_le : ∀ (n : ℕ) (s : Text), s.length ≤ n →
    (∀ t, readString (spliced s) = some (t, []) → t.length ≤ s.length ∧ (carriageReturn ∈ s → t.length < s.length)) ∧
    ∀ t, readString (backslash :: spliced s) = some (t, []) → t.length ≤ s.length + 1
  | 0, s, h => by
    obtain rfl := List.eq_nil_of_length_eq_zero (Nat.le_zero.mp h)
    refine ⟨fun t ht => ?_, fun t ht => by cases ht⟩
    obtain rfl : [] = t := by injection ht with ht; exact (Prod.mk.inj ht).1
    exact ⟨le_rfl, nofun⟩
  | n + 1, [], h => length_read_le n [] (Nat.zero_le n)
  | n + 1, c :: s, h => by
    have hs : s.length ≤ n := Nat.le_of_succ_le_succ h
    obtain ⟨hA, hB⟩ := length_read_le n s hs
    have kept : c ≠ carriageReturn → ∀ t t' : Text, readString (spliced s) = some (t', []) → t.length = t'.length + 1 →
        t.length ≤ s.length + 1 ∧ (carriageReturn = c ∨ carriageReturn ∈ s → t.length < s.length + 1) := by
      intro hne t t' ht' hlen
      have := hA t' ht'
      exact ⟨by omega, fun hc => by have := this.2 (hc.resolve_left (Ne.symm hne)); omega⟩
    simp only [List.length_cons, List.mem_cons]
    by_cases h1 : c = quote
    · rw [h1, spliced_quote]
      refine ⟨fun t ht => ?_, fun t ht => ?_⟩
      · obtain ⟨t', ht', hlen⟩ := length_readString_escaped ht
        exact h1 ▸ kept (by rw [h1]; decide) t t' ht' hlen
      · -- the quote is no longer escaped, and ends the string too early
        obtain ⟨t', ht', -⟩ := length_readString_escaped ht
        obtain ⟨d, u, hu⟩ := List.exists_cons_of_ne_nil (spliced_ne_nil s)
        rw [hu, readString, if_pos rfl] at ht'
        cases ht'
    by_cases h2 : c = backslash
    · subst h2
      cases s with
      | cons d s =>
        by_cases hd : d = carriageReturn
        · subst hd
          obtain ⟨hA', hB'⟩ := length_read_le n s (by simp at hs; omega)
          rw [spliced_backslash_carriageReturn]
          refine ⟨fun t ht => ?_, fun t ht => ?_⟩
          · have := hB' t ht
            simp only [List.length_cons]
            omega
          · obtain ⟨t', ht', hlen⟩ := length_readString_escaped ht
            have := hA' t' ht'
            simp only [List.length_cons]
            omega
        · rw [spliced_backslash (by simpa using hd)]
          refine ⟨fun t ht => ?_, fun t ht => ?_⟩
          · obtain ⟨t', ht', hlen⟩ := length_readString_escaped ht
            exact kept (by decide) t t' ht' hlen
          · obtain ⟨t', ht', hlen⟩ := length_readString_escaped ht
            have := hB t' ht'
            omega
      | nil =>
        refine ⟨fun t ht => ?_, fun t ht => by cases ht⟩
        obtain rfl : [backslash] = t := by injection ht with ht; exact (Prod.mk.inj ht).1
        exact ⟨le_rfl, by decide⟩
    by_cases h3 : c = newline
    · rw [h3, spliced_newline]
      refine ⟨fun t ht => ?_, fun t ht => ?_⟩
      · obtain ⟨t', ht', hlen⟩ := length_readString_escaped ht
        exact h3 ▸ kept (by rw [h3]; decide) t t' ht' hlen
      · obtain ⟨t', ht', hlen⟩ := length_readString_escaped ht
        rw [readString_cons (spliced_ne_nil s) (by decide) (by decide) (by decide)] at ht'
        obtain ⟨t'', ht'', hlen'⟩ := map_cons_eq_some ht'
        have := hA t'' ht''
        omega
    by_cases h4 : c = carriageReturn
    · rw [h4, spliced_carriageReturn]
      obtain ⟨d, u, hu⟩ := List.exists_cons_of_ne_nil (spliced_ne_nil s)
      refine ⟨fun t ht => ?_, fun t ht => ?_⟩
      · rw [hu] at ht
        cases ht
      · rw [readString_escaped] at ht
        cases ht
    · rw [spliced_cons s h1 h2 h3 h4]
      refine ⟨fun t ht => ?_, fun t ht => ?_⟩
      · rw [readString_cons (spliced_ne_nil s) h1 h2 h3] at ht
        obtain ⟨t', ht', hlen⟩ := map_cons_eq_some ht
        exact kept h4 t t' ht' hlen
      · obtain ⟨t', ht', hlen⟩ := length_readString_escaped ht
        have := hA t' ht'
        omega

/-- An ordinary string literal with the text escaped denotes it, where no line end stands in the text. -/
theorem denotes_ordinaryLiteral_self {s : Text} : denotes (ordinaryLiteral s) = some s ↔ carriageReturn ∉ s := by
  rw [denotes_ordinaryLiteral]
  refine ⟨fun h hc => ?_, readString_spliced⟩
  exact lt_irrefl _ (((length_read_le _ s le_rfl).1 s h).2 hc)

end Ordinary

end CppLiterals
