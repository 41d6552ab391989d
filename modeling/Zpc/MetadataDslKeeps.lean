import Zpc.MetadataDslReading

/-!
# What an accepted metadata text loses

The elements of the lists and the characters between quotes, as the text says them, against those of the values that are
returned. A list keeps its elements when all are strings or all are numbers that a `float` has, and a string its characters
when only quotes and backslashes are escaped.
-/
namespace Zpc.Metadata
section Contents

/-- An element of a list, with what it says. -/
inductive Elem
  | text (s : Text)
  | number (q : ℚ)
  | malformed (t : Text)
  | nested
  deriving DecidableEq

/-- The number that a numeral stands for, where all of it is one numeral. -/
def exactValue (t : Text) : Option ℚ :=
  let ds := (splitSign t).2.takeWhile isDigit
  let rest := (splitSign t).2.dropWhile isDigit
  if ds ++ rest.tail ≠ [] ∧ rest.headD dot = dot ∧ ∀ c ∈ rest.tail, isDigit c then
    let m : ℚ := digitsValue (ds ++ rest.tail) / 10 ^ rest.tail.length
    some (if (splitSign t).1 then -m else m)
  else none

def Expr.elem : Expr → Elem
  | .quoted ps => .text (ps.map Piece.char)
  | .word k => .text k
  | .flag => .text (ascii "true")
  | .number t => (exactValue t).elim (.malformed t) .number
  | .list _ => .nested

mutual

def Expr.lists : Expr → List (List Expr)
  | .list l => l :: Expr.listsOf l
  | _ => []

def Expr.listsOf : List Expr → List (List Expr)
  | [] => []
  | e :: l => e.lists ++ Expr.listsOf l

def Expr.quotedChars : Expr → Text
  | .quoted ps => ps.map Piece.char
  | .list l => Expr.quotedCharsOf l
  | _ => []

def Expr.quotedCharsOf : List Expr → Text
  | [] => []
  | e :: l => e.quotedChars ++ Expr.quotedCharsOf l

end

def Elem.chars : Elem → Text
  | .text s => s
  | _ => []

def Expr.elems : Expr → List Elem
  | .list l => l.map Expr.elem
  | _ => []

def Expr.chars : Expr → Text
  | .list l => l.flatMap fun e => e.elem.chars
  | e => e.elem.chars

def MetaValue.elems : MetaValue → List Elem
  | .stringList l => l.map .text
  | .floatList l => l.map .number
  | _ => []

def MetaValue.chars : MetaValue → Text
  | .string s => s
  | .stringList l => l.flatten
  | _ => []

end Contents

section Properties
/-- No list and no quoted string starts in what is not read. -/
def Silent (unread : Stream) : Prop := quote ∉ unread ∧ 40 ∉ unread

/-- Every element of a list and every quoted character is in the value of its key, in order. -/
def Keeps (inDsl : Text) (c : MetadataContainer) : Prop :=
  ∃ items unread, reading inDsl = some (items, unread) ∧ Silent unread ∧
    ∀ i ∈ items, ∃ v, c.properties.lookup i.1 = some v ∧
      (∀ l ∈ i.2.lists, List.Sublist (l.map Expr.elem) v.elems) ∧ List.Sublist i.2.quotedChars v.chars

/-- Only quotes and backslashes are escaped, and the string is not cut. -/
def Piece.Plain : Piece → Prop
  | .plain _ => True
  | .escaped c => c = quote ∨ c = backslash
  | .cut => False

def Expr.PlainText : Expr → Prop
  | .quoted ps => ∀ p ∈ ps, p.Plain
  | .word _ | .flag => True
  | _ => False

def Expr.PlainNumber : Expr → Prop
  | .number t => ∃ q, exactValue t = some q ∧ RationalRounding.Representable 24 (-149) q
  | _ => False

def Expr.Clean : Expr → Prop
  | .quoted ps => ∀ p ∈ ps, p.Plain
  | .list l => (∀ e ∈ l, e.PlainText) ∨ ∀ e ∈ l, e.PlainNumber
  | _ => True

/-- The last expression of each key is clean and has what the earlier ones have. -/
def Lossless (inDsl : Text) : Prop :=
  ∃ items unread, reading inDsl = some (items, unread) ∧ Silent unread ∧
    ∀ i ∈ items, ∃ e, items.reverse.lookup i.1 = some e ∧ e.Clean ∧
      (∀ l ∈ i.2.lists, List.Sublist (l.map Expr.elem) e.elems) ∧ List.Sublist i.2.quotedChars e.chars

end Properties

section Strings
theorem length_read_le (ps : List Piece) : (ps.flatMap Piece.read).length ≤ ps.length := by
  induction ps with
  | nil => simp
  | cons p ps ih => cases p <;> simp [Piece.read] at ih ⊢ <;> omega

theorem plain_of_sublist : ∀ {ps : List Piece}, List.Sublist (ps.map Piece.char) (ps.flatMap Piece.read) →
    ∀ p ∈ ps, p.Plain
  | [], _ => by simp
  | p :: ps, h => by
    have hlen := length_read_le ps
    have heq := h.eq_of_length_le (by simpa using length_read_le (p :: ps))
    cases p with
    | plain c =>
      rw [List.map_cons, List.flatMap_cons] at heq
      have htail := (List.cons.inj heq).2
      exact List.forall_mem_cons.mpr ⟨trivial, plain_of_sublist (htail ▸ List.Sublist.refl _)⟩
    | escaped c =>
      rw [List.map_cons, List.flatMap_cons] at heq
      obtain ⟨hhead, htail⟩ := List.cons.inj heq
      refine List.forall_mem_cons.mpr ⟨?_, plain_of_sublist (htail ▸ List.Sublist.refl _)⟩
      simp only [Piece.char] at hhead
      split_ifs at hhead with hc
      · exact .inl hc
      · exact .inr hhead
    | cut =>
      have := congrArg List.length heq
      simp [Piece.read] at this hlen
      omega

theorem read_of_plain {ps : List Piece} (h : ∀ p ∈ ps, p.Plain) : ps.flatMap Piece.read = ps.map Piece.char := by
  induction ps with
  | nil => rfl
  | cons p ps ih =>
    rw [List.forall_mem_cons] at h
    have hp : p.read = [p.char] := by
      cases p with
      | plain c => rfl
      | escaped c => rcases h.1 with rfl | rfl <;> rfl
      | cut => exact h.1.elim
    rw [List.flatMap_cons, ih h.2, hp, List.map_cons, List.singleton_append]

end Strings

section Numbers
theorem fraction_eq {rest : Text} (hd : rest.headD dot = dot) (hr : ∀ c ∈ rest.tail, isDigit c) :
    (if rest.headD 0 = dot then rest.tail.takeWhile isDigit else []) = rest.tail := by
  cases rest with
  | nil => rfl
  | cons c rest =>
    have hc : c = dot := hd
    subst hc
    exact (if_pos rfl).trans (List.takeWhile_eq_self_iff.mpr hr)

theorem eq_of_ite_error {α : Type} {c : Prop} [Decidable c] {e : Stop} {x y : α}
    (h : (if c then Except.error e else Except.ok x) = Except.ok y) : x = y := by
  split_ifs at h
  exact Except.ok.inj h

theorem stof_exact {t : Text} {q r : ℚ} (h : stof t = .ok r) (hq : exactValue t = some q) : r = toFloat q := by
  simp only [exactValue] at hq
  split at hq
  · rename_i hc
    simp only [stof, fraction_eq hc.2.1 hc.2.2, if_neg hc.1] at h
    rw [← eq_of_ite_error h, ← Option.some.inj hq]
  · simp at hq

theorem mem_splitSign {t : Text} {c : UInt8} (h : c ∈ (splitSign t).2) : c ∈ t := by
  unfold splitSign at h
  split_ifs at h
  · exact List.mem_of_mem_tail h
  · exact h

theorem stoi_exact {t : Text} {q : ℚ} {i : ℤ} (hd : dot ∉ t) (h : stoi t = .ok i) (hq : exactValue t = some q) :
    q = i := by
  simp only [exactValue] at hq
  split at hq
  · rename_i hc
    have hrest : (splitSign t).2.dropWhile isDigit = [] := by
      cases hr : (splitSign t).2.dropWhile isDigit with
      | nil => rfl
      | cons c rest =>
        have hdot : c = dot := by simpa [hr] using hc.2.1
        have hmem : c ∈ (splitSign t).2 := (List.dropWhile_suffix isDigit).subset (hr ▸ List.mem_cons_self)
        exact absurd (mem_splitSign hmem) (hdot ▸ hd)
    simp only [hrest, List.tail_nil, List.append_nil, List.length_nil, pow_zero, div_one] at hq hc
    simp only [stoi, if_neg hc.1] at h
    rw [← eq_of_ite_error h, ← Option.some.inj hq]
    split_ifs <;> simp
  · simp at hq

/-- A number that a list keeps is one that a `float` has. -/
theorem number_elem_iff {t : Text} {v : MetaValue} (h : Evaluates (.number t) v) :
    (∃ q, v.number = some q ∧ (Expr.number t).elem = .number q) ↔ (Expr.number t).PlainNumber := by
  have elem_eq : ∀ q, (Expr.number t).elem = .number q ↔ exactValue t = some q := by
    intro q
    cases he : exactValue t <;> simp [Expr.elem, he]
  simp only [elem_eq, Expr.PlainNumber, ← RationalRounding.nearest_eq_self_iff]
  cases h with
  | float h =>
    constructor
    · rintro ⟨q, hv, hq⟩
      obtain rfl := Option.some.inj hv
      exact ⟨_, hq, (stof_exact h hq).symm⟩
    · rintro ⟨q, hq, hround⟩
      exact ⟨q, congrArg some ((stof_exact h hq).trans hround), hq⟩
  | int hd h =>
    constructor
    · rintro ⟨q, hv, hq⟩
      obtain rfl := Option.some.inj hv
      exact ⟨_, hq, congrArg toFloat (stoi_exact hd h hq)⟩
    · rintro ⟨q, hq, hround⟩
      exact ⟨q, congrArg some ((congrArg toFloat (stoi_exact hd h hq).symm).trans hround), hq⟩

end Numbers

section Lists
variable {l : List Expr} {vs : List MetaValue}

theorem text_elem_iff {e : Expr} {v : MetaValue} (h : Evaluates e v) :
    (∃ s, v.text = some s ∧ e.elem = .text s) ↔ e.PlainText := by
  cases h with
  | quoted ps =>
    simp only [MetaValue.text, Option.some.injEq, exists_eq_left', Expr.elem, Elem.text.injEq, Expr.PlainText]
    exact ⟨fun h => plain_of_sublist (h ▸ List.Sublist.refl _), fun h => (read_of_plain h).symm⟩
  | word k => simp [MetaValue.text, Expr.elem, Expr.PlainText]
  | flag => simp [MetaValue.text, Expr.elem, Expr.PlainText]
  | float h => simp [MetaValue.text, Expr.PlainText]
  | int hd h => simp [MetaValue.text, Expr.PlainText]
  | list h =>
    simp only [Expr.elem, Expr.PlainText, reduceCtorEq, and_false, exists_false]

/-- Elements that are all found, in order, among as many values are each the one that its value gives. -/
theorem exists_of_sublist {α β γ : Type} {R : α → β → Prop} {f : β → Option γ} {g : α → γ} :
    ∀ {l : List α} {vs : List β}, List.Forall₂ R l vs → List.Sublist (l.map g) (vs.filterMap f) →
      ∀ a ∈ l, ∃ b, R a b ∧ f b = some (g a)
  | [], [], _, _ => by simp
  | a :: l, b :: vs, .cons hr h, hs => by
    have hlen := (List.length_filterMap_le f vs).trans h.length_eq.ge
    cases hb : f b with
    | none =>
      rw [List.filterMap_cons_none hb] at hs
      have := hs.length_le
      simp at this
      omega
    | some c =>
      rw [List.filterMap_cons_some hb, List.map_cons] at hs
      have heq := hs.eq_of_length_le (by simpa using hlen)
      obtain ⟨rfl, htail⟩ := List.cons.inj heq
      exact List.forall_mem_cons.mpr ⟨⟨b, hr, hb⟩, exists_of_sublist h (htail ▸ List.Sublist.refl _)⟩

theorem elems_listValue_texts (strings : List Text) : (listValue strings []).elems = strings.map .text := by
  unfold listValue
  split_ifs with h
  · rfl
  · rw [not_not.mp h]
    rfl

theorem chars_listValue_texts (strings : List Text) : (listValue strings []).chars = strings.flatten := by
  unfold listValue
  split_ifs with h
  · rfl
  · rw [not_not.mp h]
    rfl

theorem text_none_of_number {v : MetaValue} (h : v.number.isSome) : v.text = none := by
  cases v <;> simp_all [MetaValue.number, MetaValue.text]

theorem number_none_of_text {v : MetaValue} (h : v.text.isSome) : v.number = none := by
  cases v <;> simp_all [MetaValue.number, MetaValue.text]

theorem values_of_plainText (h : List.Forall₂ Evaluates l vs) (hl : ∀ e ∈ l, e.PlainText) :
    (vs.filterMap MetaValue.text).map .text = l.map Expr.elem ∧ vs.filterMap MetaValue.number = [] := by
  induction h with
  | nil => exact ⟨rfl, rfl⟩
  | @cons e v l vs he h ih =>
    rw [List.forall_mem_cons] at hl
    obtain ⟨s, hs, helem⟩ := (text_elem_iff he).mpr hl.1
    obtain ⟨ht, hn⟩ := ih hl.2
    have hnone : v.number = none := number_none_of_text (by simp [hs])
    exact ⟨by rw [List.filterMap_cons_some hs, List.map_cons, ht, List.map_cons, helem],
      by rw [List.filterMap_cons_none hnone, hn]⟩

theorem values_of_plainNumber (h : List.Forall₂ Evaluates l vs) (hl : ∀ e ∈ l, e.PlainNumber) :
    (vs.filterMap MetaValue.number).map .number = l.map Expr.elem ∧ vs.filterMap MetaValue.text = [] := by
  induction h with
  | nil => exact ⟨rfl, rfl⟩
  | @cons e v l vs he h ih =>
    rw [List.forall_mem_cons] at hl
    cases e with
    | number t =>
      obtain ⟨q, hq, helem⟩ := (number_elem_iff he).mpr hl.1
      obtain ⟨hn, ht⟩ := ih hl.2
      have hnone : v.text = none := text_none_of_number (by simp [hq])
      exact ⟨by rw [List.filterMap_cons_some hq, List.map_cons, hn, List.map_cons, helem],
        by rw [List.filterMap_cons_none hnone, ht]⟩
    | _ => exact hl.1.elim

/-- A clean expression and its value have the same contents. -/
theorem contents_of_clean {e : Expr} {v : MetaValue} (h : Evaluates e v) (hc : e.Clean) :
    v.elems = e.elems ∧ v.chars = e.chars := by
  cases h with
  | quoted ps => exact ⟨rfl, read_of_plain hc⟩
  | word k => exact ⟨rfl, rfl⟩
  | flag => exact ⟨rfl, rfl⟩
  | @float t q h =>
    refine ⟨rfl, ?_⟩
    cases he : exactValue t <;> simp [MetaValue.chars, Expr.chars, Expr.elem, he, Elem.chars]
  | @int t i hd h =>
    refine ⟨rfl, ?_⟩
    cases he : exactValue t <;> simp [MetaValue.chars, Expr.chars, Expr.elem, he, Elem.chars]
  | @list l vs h =>
    have hchars : (Expr.list l).chars = (l.map Expr.elem).flatMap Elem.chars := by
      rw [List.flatMap_map]
      rfl
    rcases hc with hl | hl
    · obtain ⟨ht, hn⟩ := values_of_plainText h hl
      rw [hn, elems_listValue_texts, chars_listValue_texts, hchars, ← ht, List.flatMap_map]
      exact ⟨ht, List.flatMap_id.symm⟩
    · obtain ⟨hn, ht⟩ := values_of_plainNumber h hl
      rw [ht, hchars, ← hn, List.flatMap_map]
      exact ⟨hn, by simp [listValue, MetaValue.chars, Elem.chars]⟩

/-- An expression whose own contents are kept is clean. -/
theorem clean_of_kept {e : Expr} {v : MetaValue} (h : Evaluates e v)
    (hl : ∀ l ∈ e.lists, List.Sublist (l.map Expr.elem) v.elems) (hq : List.Sublist e.quotedChars v.chars) : e.Clean := by
  cases h with
  | quoted ps => exact plain_of_sublist hq
  | word k => trivial
  | flag => trivial
  | float h => trivial
  | int hd h => trivial
  | @list l vs h =>
    have hs := hl l List.mem_cons_self
    by_cases h0 : vs.filterMap MetaValue.text = []
    · have helems : (listValue (vs.filterMap MetaValue.text) (vs.filterMap MetaValue.number)).elems =
          vs.filterMap fun v => v.number.map .number := by
        rw [listValue, if_neg (not_not.mpr h0), MetaValue.elems, List.map_filterMap]
      refine .inr fun e he => ?_
      obtain ⟨v, hv, hn⟩ := exists_of_sublist h (helems ▸ hs) e he
      obtain ⟨q, hq, helem⟩ := Option.map_eq_some_iff.mp hn
      cases e with
      | number t => exact (number_elem_iff hv).mp ⟨q, hq, helem.symm⟩
      | _ =>
        cases hv
        all_goals simp_all [Expr.elem, MetaValue.number]
    · have helems : (listValue (vs.filterMap MetaValue.text) (vs.filterMap MetaValue.number)).elems =
          vs.filterMap fun v => v.text.map .text := by
        rw [listValue, if_pos h0, MetaValue.elems, List.map_filterMap]
      refine .inl fun e he => ?_
      obtain ⟨v, hv, hn⟩ := exists_of_sublist h (helems ▸ hs) e he
      obtain ⟨t, ht, helem⟩ := Option.map_eq_some_iff.mp hn
      exact (text_elem_iff hv).mp ⟨t, ht, helem.symm⟩

end Lists

section Maps
theorem lookup_cons_ite {α : Type} (k k' : Text) (a : α) (m : List (Text × α)) :
    ((k', a) :: m).lookup k = if k = k' then some a else m.lookup k := by
  rw [List.lookup_cons]
  by_cases h : k = k'
  · simp [h]
  · rw [if_neg h, beq_false_of_ne h]

theorem lookup_insertOrAssign (k k' : Text) (v : MetaValue) : ∀ m : List (Text × MetaValue),
    (insertOrAssign k v m).lookup k' = if k' = k then some v else m.lookup k'
  | [] => by simp [insertOrAssign, lookup_cons_ite]
  | (k₁, v₁) :: m => by
    have ih := lookup_insertOrAssign k k' v m
    rw [insertOrAssign]
    split_ifs with hk hk' hk' <;> simp_all [lookup_cons_ite]

theorem lookup_foldl (k : Text) : ∀ (vs m : List (Text × MetaValue)),
    (vs.foldl (fun m p => insertOrAssign p.1 p.2 m) m).lookup k = (vs.reverse.lookup k).or (m.lookup k)
  | [], m => by simp
  | p :: vs, m => by
    rw [List.foldl_cons, lookup_foldl k vs, lookup_insertOrAssign, List.reverse_cons, List.lookup_append,
      Option.or_assoc, lookup_cons_ite]
    split_ifs <;> simp

theorem nodup_insertOrAssign (k : Text) (v : MetaValue) : ∀ {m : List (Text × MetaValue)}, (m.map Prod.fst).Nodup →
    ((insertOrAssign k v m).map Prod.fst).Nodup := by
  intro m h
  by_cases hk : k ∈ m.map Prod.fst
  · have hkeys : (insertOrAssign k v m).map Prod.fst = m.map Prod.fst := by
      induction m with
      | nil => simp at hk
      | cons p m ih =>
        rw [insertOrAssign]
        split_ifs with h1
        · simp [h1]
        · rw [List.map_cons, List.nodup_cons] at h
          rw [List.map_cons, List.mem_cons] at hk
          rw [List.map_cons, List.map_cons, ih h.2 (hk.resolve_left h1)]
    rwa [hkeys]
  · rw [insertOrAssign_of_notMem k v hk, List.map_append, List.nodup_append]
    refine ⟨h, List.nodup_singleton k, fun a ha b hb => ?_⟩
    obtain rfl := List.mem_singleton.mp hb
    rintro rfl
    exact hk ha

theorem nodup_foldl : ∀ (vs : List (Text × MetaValue)) {m : List (Text × MetaValue)}, (m.map Prod.fst).Nodup →
    ((vs.foldl (fun m p => insertOrAssign p.1 p.2 m) m).map Prod.fst).Nodup
  | [], _, h => h
  | p :: vs, _, h => nodup_foldl vs (nodup_insertOrAssign p.1 p.2 h)

/-- The keys of two lists that go together find what goes together. -/
theorem lookup_of_forall₂ {R : Expr → MetaValue → Prop} (k : Text) {items : List (Text × Expr)}
    {vs : List (Text × MetaValue)} (h : List.Forall₂ (fun i v => i.1 = v.1 ∧ R i.2 v.2) items vs)
    (hk : k ∈ items.map Prod.fst) : ∃ e v, items.lookup k = some e ∧ vs.lookup k = some v ∧ R e v := by
  induction h with
  | nil => simp at hk
  | @cons i v items vs hr h ih =>
    rw [lookup_cons_ite, lookup_cons_ite, ← hr.1]
    by_cases hki : k = i.1
    · exact ⟨i.2, v.2, if_pos hki, if_pos hki, hr.2⟩
    · rw [List.map_cons, List.mem_cons] at hk
      simpa only [if_neg hki] using ih (hk.resolve_left hki)

/-- What is returned for an accepted text, by its reading. -/
theorem exists_reading {inDsl : Text} {c : MetadataContainer} (h : parseMetadataDsl inDsl = .ok c) :
    ∃ items unread, reading inDsl = some (items, unread) ∧ ∀ k ∈ items.map Prod.fst,
      ∃ e v, items.reverse.lookup k = some e ∧ c.properties.lookup k = some v ∧ Evaluates e v := by
  have hc : ∃ m, parseText (splitPrefix inDsl).2 = .ok m ∧
      c.properties = m.foldl (fun m p => insertOrAssign p.1 p.2 m) [] := by
    simp only [parseMetadataDsl] at h
    split_ifs at h with h0
    · rw [h0, ← Except.ok.inj h]
      exact ⟨[], rfl, rfl⟩
    · obtain ⟨m, hm, h⟩ := bind_eq_ok h
      exact ⟨m, hm, by rw [← Except.ok.inj h]⟩
  obtain ⟨m, hm, hprops⟩ := hc
  obtain ⟨items, unread, vs, hr, hvs, rfl⟩ := parse_start hm
  have hnodup := nodup_foldl vs (m := []) List.nodup_nil
  rw [foldl_insertOrAssign _ [] hnodup, List.nil_append] at hprops
  refine ⟨items, unread, hr, fun k hk => ?_⟩
  obtain ⟨e, v, he, hv, hev⟩ := lookup_of_forall₂ k (List.forall₂_reverse_iff.mpr hvs) (by simpa using hk)
  exact ⟨e, v, he, by rw [hprops, lookup_foldl, hv]; rfl, hev⟩

/-- An accepted text is kept if and only if it is lossless. -/
theorem keeps_iff_lossless {inDsl : Text} {c : MetadataContainer} (h : parseMetadataDsl inDsl = .ok c) :
    Keeps inDsl c ↔ Lossless inDsl := by
  obtain ⟨items, unread, hr, hlast⟩ := exists_reading h
  have clean_of_keeps : ∀ k e v, items.reverse.lookup k = some e → c.properties.lookup k = some v → Evaluates e v →
      (∀ i ∈ items, ∃ v, c.properties.lookup i.1 = some v ∧
        (∀ l ∈ i.2.lists, List.Sublist (l.map Expr.elem) v.elems) ∧ List.Sublist i.2.quotedChars v.chars) → e.Clean := by
    intro k e v he hv hev hkeep
    obtain ⟨l₁, l₂, hl, -⟩ := List.lookup_eq_some_iff.mp he
    have hmem : (k, e) ∈ items := by
      rw [← List.mem_reverse, hl]
      simp
    obtain ⟨v', hv', hlists, hquoted⟩ := hkeep _ hmem
    obtain rfl : v = v' := Option.some.inj (hv.symm.trans hv')
    exact clean_of_kept hev hlists hquoted
  constructor
  · rintro ⟨items', unread', hr', hs, hkeep⟩
    obtain ⟨rfl, rfl⟩ := Prod.mk.inj (Option.some.inj (hr.symm.trans hr'))
    refine ⟨items, unread, hr, hs, fun i hi => ?_⟩
    obtain ⟨e, v, he, hv, hev⟩ := hlast i.1 (List.mem_map_of_mem hi)
    have hclean := clean_of_keeps i.1 e v he hv hev hkeep
    obtain ⟨v', hv', hlists, hquoted⟩ := hkeep i hi
    obtain rfl : v = v' := Option.some.inj (hv.symm.trans hv')
    obtain ⟨helems, hchars⟩ := contents_of_clean hev hclean
    exact ⟨e, he, hclean, helems ▸ hlists, hchars ▸ hquoted⟩
  · rintro ⟨items', unread', hr', hs, hcond⟩
    obtain ⟨rfl, rfl⟩ := Prod.mk.inj (Option.some.inj (hr.symm.trans hr'))
    refine ⟨items, unread, hr, hs, fun i hi => ?_⟩
    obtain ⟨e, v, he, hv, hev⟩ := hlast i.1 (List.mem_map_of_mem hi)
    obtain ⟨e', he', hclean, hlists, hquoted⟩ := hcond i hi
    obtain rfl : e = e' := Option.some.inj (he.symm.trans he')
    obtain ⟨helems, hchars⟩ := contents_of_clean hev hclean
    exact ⟨v, hv, helems ▸ hlists, hchars ▸ hquoted⟩

/-- A number next to a word: the list that is returned has the word alone. -/
def mixedList : Text := ascii "#field a = (b, 1)"

theorem parse_mixedList : parseMetadataDsl mixedList = .ok ⟨.structField, [(ascii "a", .stringList [ascii "b"])]⟩ := by rfl

theorem reading_mixedList :
    reading mixedList = some ([(ascii "a", .list [.word (ascii "b"), .number (ascii "1")])], []) := by rfl

theorem not_keeps_mixedList : ¬ Keeps mixedList ⟨.structField, [(ascii "a", .stringList [ascii "b"])]⟩ := by
  rintro ⟨items, unread, hr, -, hkeep⟩
  obtain ⟨rfl, -⟩ := Prod.mk.inj (Option.some.inj (reading_mixedList.symm.trans hr))
  obtain ⟨v, hv, hl, -⟩ := hkeep _ List.mem_cons_self
  obtain rfl := Option.some.inj hv
  exact absurd (hl _ List.mem_cons_self).length_le (by decide)

theorem not_keeps_every_element : ¬ ∀ inDsl c, parseMetadataDsl inDsl = .ok c → Keeps inDsl c :=
  fun h => not_keeps_mixedList (h _ _ parse_mixedList)

theorem keeps_iff_lossless_mixedList : ¬ Lossless mixedList :=
  fun h => not_keeps_mixedList ((keeps_iff_lossless parse_mixedList).mpr h)

end Maps

end Zpc.Metadata
