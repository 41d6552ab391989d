import Zpc.CppLiterals
import Zpc.MetadataDslRoundTrip

/-!
# The literals of generated headers

Keys and parameters are written as raw strings, values as ordinary strings with escapes, and default expressions as both: raw
strings of escaped text, in which the escapes are read as they stand.
-/
namespace Zpc.Codegen
open Metadata (Text ascii MetaValue MetadataContainer decimal)
open CppLiterals (rawLiteral ordinaryLiteral denotes quote close backslash newline carriageReturn)

section Emission
variable (formatFloat : ℚ → Text)

def escapeString : Text → Text := CppLiterals.escape

/-- The values of a list, with commas between them. -/
def joined (l : List Text) : Text := [44].intercalate l

def metaValueLiteral : MetaValue → Text
  | .string s => quote :: (escapeString s ++ [quote])
  | .int n => quote :: (decimal n ++ [quote])
  | .float q => quote :: (formatFloat q ++ [quote])
  | .stringList l => quote :: (joined (l.map escapeString) ++ [quote])
  | .floatList l => quote :: (joined (l.map formatFloat) ++ [quote])

def metaEntry (p : Text × MetaValue) : Text :=
  ascii "  \x7b" ++ rawLiteral p.1 ++ ascii ", " ++ metaValueLiteral formatFloat p.2 ++ ascii "\x7d,\n"

def emitMetaArray (arrayName : Text) (container : MetadataContainer) : Text :=
  ascii "static const ::zs::reflect::MetaEntry " ++ arrayName ++ ascii "[] = \x7b\n" ++
    container.properties.flatMap (metaEntry formatFloat) ++ ascii "\x7d;\n"

structure Param where
  name : Text
  typeName : Text
  hasDefault : Bool
  defaultExpr : Text

def defaultLiteral (p : Param) : Text :=
  if p.hasDefault then rawLiteral (escapeString p.defaultExpr) else ascii "nullptr"

def paramEntry (p : Param) : Text :=
  ascii "  \x7b" ++ rawLiteral p.name ++ ascii ", " ++ rawLiteral p.typeName ++ ascii ", " ++
    ascii (if p.hasDefault then "true" else "false") ++ ascii ", " ++ defaultLiteral p ++ ascii "\x7d,\n"

def emitParamArray (arrayName : Text) (params : List Param) : Text :=
  ascii "static const ::zs::reflect::ParamInfo " ++ arrayName ++ ascii "[] = \x7b\n" ++ params.flatMap paramEntry ++
    ascii "\x7d;\n"

end Emission

section Literals
theorem infix_of_mem {α : Type} {f : α → Text} {a : α} {l : List α} {s : Text} (ha : a ∈ l) (hs : s <:+: f a) :
    s <:+: l.flatMap f := by
  obtain ⟨l₁, l₂, rfl⟩ := List.append_of_mem ha
  rw [List.flatMap_append, List.flatMap_cons]
  exact (hs.trans (List.infix_append [] (f a) (l₂.flatMap f))).trans (List.suffix_append _ _).isInfix

theorem escapeString_cons (c : UInt8) (s : Text) : escapeString (c :: s) =
    if c = quote then backslash :: quote :: escapeString s
    else if c = backslash then backslash :: backslash :: escapeString s
    else if c = newline then backslash :: 110 :: escapeString s
    else c :: escapeString s := rfl

theorem length_le_escapeString (s : Text) : s.length ≤ (escapeString s).length := by
  induction s with
  | nil => exact le_rfl
  | cons c s ih =>
    rw [escapeString_cons]
    split_ifs <;> simp only [List.length_cons] <;> omega

def Plain (s : Text) : Prop := quote ∉ s ∧ backslash ∉ s ∧ newline ∉ s

theorem escapeString_eq_self_iff {s : Text} : escapeString s = s ↔ Plain s := by
  induction s with
  | nil => exact ⟨fun _ => ⟨nofun, nofun, nofun⟩, fun _ => rfl⟩
  | cons c s ih =>
    have hlen := length_le_escapeString s
    rw [escapeString_cons]
    by_cases h : c = quote ∨ c = backslash ∨ c = newline
    · have hne : ∀ d e : UInt8, d :: e :: escapeString s ≠ c :: s := fun d e heq => by
        have := congrArg List.length heq
        simp at this
        omega
      have hp : ¬ Plain (c :: s) := by
        rintro ⟨hq, hb, hn⟩
        rcases h with rfl | rfl | rfl
        · exact hq List.mem_cons_self
        · exact hb List.mem_cons_self
        · exact hn List.mem_cons_self
      refine iff_of_false ?_ hp
      split_ifs <;> first | exact hne _ _ | simp_all
    · obtain ⟨hq, hb, hn⟩ := not_or.mp h |>.imp id not_or.mp
      rw [if_neg hq, if_neg hb, if_neg hn]
      simp only [List.cons.injEq, true_and, ih, Plain, List.mem_cons, not_or]
      exact ⟨fun h => ⟨⟨Ne.symm hq, h.1⟩, ⟨Ne.symm hb, h.2.1⟩, Ne.symm hn, h.2.2⟩, fun h => ⟨h.1.2, h.2.1.2, h.2.2.2⟩⟩

theorem carriageReturn_notMem_escapeString {s : Text} (h : carriageReturn ∉ s) : carriageReturn ∉ escapeString s := by
  induction s with
  | nil => exact h
  | cons c s ih =>
    rw [List.mem_cons, not_or] at h
    rw [escapeString_cons]
    split_ifs <;> simp only [List.mem_cons, not_or] <;> exact ⟨by first | exact h.1 | decide, by
      first | exact ⟨by decide, ih h.2⟩ | exact ih h.2⟩

/-- A raw string of escaped text denotes the text where nothing was escaped. -/
theorem denotes_raw_escapeString {s : Text} :
    denotes (rawLiteral (escapeString s)) = some s ↔ Plain s ∧ carriageReturn ∉ s := by
  constructor
  · intro h
    have hs : CppLiterals.newlines (escapeString s) = s :=
      List.append_cancel_right (CppLiterals.readRaw_eq ((CppLiterals.denotes_rawLiteral _ _).mp h))
    have hc : carriageReturn ∉ s := hs ▸ CppLiterals.carriageReturn_notMem_newlines (escapeString s)
    rw [CppLiterals.newlines_eq_self (carriageReturn_notMem_escapeString hc)] at hs
    exact ⟨escapeString_eq_self_iff.mp hs, hc⟩
  · rintro ⟨hp, hc⟩
    have hs := escapeString_eq_self_iff.mpr hp
    rw [hs]
    refine CppLiterals.denotes_rawLiteral_self.mpr ⟨hc, fun hi => hp.1 (hi.subset ?_)⟩
    exact List.mem_cons_of_mem _ List.mem_cons_self

theorem key_infix (formatFloat : ℚ → Text) (arrayName : Text) (container : MetadataContainer) {p : Text × MetaValue}
    (hp : p ∈ container.properties) : metaEntry formatFloat p <:+: emitMetaArray formatFloat arrayName container := by
  refine (infix_of_mem hp (List.infix_refl _)).trans ?_
  unfold emitMetaArray
  exact List.infix_append _ _ _

theorem param_infix (arrayName : Text) (params : List Param) {p : Param} (hp : p ∈ params) :
    paramEntry p <:+: emitParamArray arrayName params := by
  refine (infix_of_mem hp (List.infix_refl _)).trans ?_
  unfold emitParamArray
  exact List.infix_append _ _ _

/-- The literals of a key, of a string value and of a default expression each denote what they stand for. -/
def Faithful (formatFloat : ℚ → Text) (container : MetadataContainer) (params : List Param) : Prop :=
  (∀ p ∈ container.properties, denotes (rawLiteral p.1) = some p.1 ∧
    ∀ s, p.2 = .string s → denotes (metaValueLiteral formatFloat p.2) = some s) ∧
  ∀ p ∈ params, p.hasDefault = true → denotes (defaultLiteral p) = some p.defaultExpr

/-- No carriage returns anywhere, no end of a raw string in a key, and nothing to escape in a default expression. -/
def Literal (container : MetadataContainer) (params : List Param) : Prop :=
  (∀ p ∈ container.properties, (carriageReturn ∉ p.1 ∧ ¬ [close, quote] <:+: p.1) ∧
    ∀ s, p.2 = .string s → carriageReturn ∉ s) ∧
  ∀ p ∈ params, p.hasDefault = true → Plain p.defaultExpr ∧ carriageReturn ∉ p.defaultExpr

/-- The entries with these literals stand in the header. -/
theorem literals_denote_iff (formatFloat : ℚ → Text) (arrayName : Text) (container : MetadataContainer)
    (params : List Param) :
    ((∀ p ∈ container.properties, metaEntry formatFloat p <:+: emitMetaArray formatFloat arrayName container) ∧
      ∀ p ∈ params, paramEntry p <:+: emitParamArray arrayName params) ∧
    (Faithful formatFloat container params ↔ Literal container params) := by
  refine ⟨⟨fun p => key_infix formatFloat arrayName container, fun p => param_infix arrayName params⟩, ?_⟩
  have hvalue : ∀ (v : MetaValue) (s : Text), v = .string s →
      (denotes (metaValueLiteral formatFloat v) = some s ↔ carriageReturn ∉ s) := by
    rintro _ s rfl
    exact CppLiterals.denotes_ordinaryLiteral_self
  have hdefault : ∀ p : Param, p.hasDefault = true →
      (denotes (defaultLiteral p) = some p.defaultExpr ↔ Plain p.defaultExpr ∧ carriageReturn ∉ p.defaultExpr) := by
    intro p hp
    rw [defaultLiteral, if_pos hp]
    exact denotes_raw_escapeString
  refine and_congr (forall₂_congr fun p _ => and_congr CppLiterals.denotes_rawLiteral_self ?_) ?_
  · exact forall₂_congr fun s hs => hvalue p.2 s hs
  · exact forall₂_congr fun p _ => forall_congr' fun hp => hdefault p hp

/-- A default expression with quotes is read back with backslashes before them. -/
theorem not_faithful_quoted : ¬ ∀ formatFloat container params, Faithful formatFloat container params := by
  intro h
  have := (h (fun _ => []) ⟨.none, []⟩ [⟨ascii "s", ascii "const char *", true, ascii "\"a\""⟩]).2 _ List.mem_cons_self rfl
  revert this
  decide

end Literals

end Zpc.Codegen
