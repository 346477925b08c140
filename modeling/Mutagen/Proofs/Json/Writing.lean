import Mathlib.Data.List.TakeWhile
import Mutagen.Proofs.Json.Reading

/-!
# What is written is read

Each form lays out the tokens of a value (`layout_write`), so what is written in it is one way to
write that value (`writtenAs_write`). The compact form keeps to one line (`newline_notMem_compact`).
-/

namespace Mutagen.Json

mutual
def Spelled : Json → Prop
  | .null | .bool _ => True
  | .number spelling => isNumber spelling = true
  | .string spelling => Quoted.Spelling spelling
  | .array items => SpelledItems items
  | .object members => SpelledMembers members

def SpelledItems : List Json → Prop
  | [] => True
  | item :: rest => item.Spelled ∧ SpelledItems rest

def SpelledMembers : List (List Char × Json) → Prop
  | [] => True
  | (name, value) :: rest => Quoted.Spelling name ∧ value.Spelled ∧ SpelledMembers rest
end

variable {c : Char} {cs space : List Char} {token : Token} {tokens : List Token}

theorem spelledItems_iff {items : List Json} :
    SpelledItems items ↔ ∀ item ∈ items, item.Spelled := by
  induction items with
  | nil => simp [SpelledItems]
  | cons item items ih => simp [SpelledItems, ih]

theorem spelledMembers_iff {members : List (List Char × Json)} :
    SpelledMembers members ↔ ∀ member ∈ members, Quoted.Spelling member.1 ∧ member.2.Spelled := by
  induction members with
  | nil => simp [SpelledMembers]
  | cons member members ih => simp [SpelledMembers, ih, and_assoc]

-- ---------------------------------------------------------------------------
-- Numbers and texts
-- ---------------------------------------------------------------------------

theorem isNumber_encode (n : Nat) : isNumber (Decimal.encode n) = true := by
  have hcanonical := Decimal.isCanonical_encode n
  generalize Decimal.encode n = digits at hcanonical
  obtain ⟨⟨hne, hdigits⟩, hlead⟩ : (digits ≠ [] ∧ ∀ x ∈ digits, x.isDigit = true) ∧
      (¬digits.head? = some '0' ∨ digits = ['0']) := by
    simpa [Decimal.isCanonical] using hcanonical
  have htake : digits.takeWhile Char.isDigit = digits := List.takeWhile_eq_self_iff.mpr hdigits
  have hdrop : digits.dropWhile Char.isDigit = [] := List.dropWhile_eq_nil_iff.mpr hdigits
  have hunsigned : isUnsigned digits = true := by
    simpa [isUnsigned, htake, hdrop, hne, isFraction, isFraction.isScale] using hlead
  unfold isNumber
  split
  · exact absurd (hdigits '-' List.mem_cons_self) (by decide)
  · exact hunsigned

theorem spelling_decimal (n : Nat) : Quoted.Spelling (Decimal.encode n) := by
  have hplain : ∀ d < 10, ¬d.digitChar < ' ' ∧ d.digitChar ≠ '"' ∧ d.digitChar ≠ '\\' := by decide
  have hdigits : ∀ c ∈ Decimal.encode n, c.isDigit = true :=
    fun c hc => Nat.isDigit_of_mem_toDigits (by decide) (by decide) hc
  generalize Decimal.encode n = digits at hdigits
  induction digits with
  | nil => exact .nil
  | cons c digits ih =>
    obtain ⟨d, hd, rfl⟩ := Decimal.exists_digitChar (hdigits c List.mem_cons_self)
    obtain ⟨hspace, hquote, hslash⟩ := hplain d hd
    exact .plain hspace hquote hslash (ih fun c hc => hdigits c (List.mem_cons_of_mem _ hc))

theorem spelled_ofNat (n : Nat) : (ofNat n).Spelled := isNumber_encode n

theorem spelled_ofText (text : String) : (ofText text).Spelled := Quoted.spelling_encode _

-- ---------------------------------------------------------------------------
-- Layouts
-- ---------------------------------------------------------------------------

/-- Where a text goes on like this, every token before it is over. -/
def Closed (rest : List Char) : Prop := ∀ c ∈ rest.head?, isNumeric c = false ∧ c.isAlpha = false

theorem Closed.ends (h : Closed cs) (token : Token) : token.Ends cs := by
  cases token with
  | number => exact fun c hc => (h c hc).1
  | null | bool => exact fun c hc => (h c hc).2
  | openArray | closeArray | openObject | closeObject | colon | comma | string => trivial

theorem closed_nil : Closed [] := by simp [Closed]

theorem closed_mark (h : punctuation? c = some token) (cs : List Char) : Closed (c :: cs) := by
  intro x hx
  cases hx
  unfold punctuation? at h
  split at h <;> first | exact ⟨rfl, rfl⟩ | cases h

theorem Closed.prepend (h : Closed cs) (hspace : ∀ c ∈ space, isSpace c = true) :
    Closed (space ++ cs) := by
  cases space with
  | nil => exact h
  | cons c rest =>
    intro x hx
    cases hx
    rcases isSpace_cases (hspace c List.mem_cons_self) with rfl | rfl | rfl | rfl <;>
      exact ⟨rfl, rfl⟩

theorem Layout.prepend (h : Layout tokens cs) (hspace : ∀ c ∈ space, isSpace c = true) :
    Layout tokens (space ++ cs) := by
  induction space with
  | nil => exact h
  | cons c rest ih =>
    refine .space (hspace c List.mem_cons_self) (ih fun x hx => ?_)
    exact hspace x (List.mem_cons_of_mem _ hx)

theorem Layout.mark (hmark : punctuation? c = some token) (h : Layout tokens cs) :
    Layout (token :: tokens) (c :: cs) := by
  obtain ⟨hsound, hends, hchars⟩ := token_of_punctuation? hmark
  have hlayout := Layout.token hsound hends h
  rwa [hchars] at hlayout

theorem Layout.name {name : List Char} (hname : Quoted.Spelling name) (form : Form)
    (h : Layout tokens cs) :
    Layout (.string name :: .colon :: tokens) (quoted name ++ ':' :: (form.afterColon ++ cs)) :=
  .token hname trivial ((h.prepend form.isSpace_afterColon).mark rfl)

mutual
theorem layout_write (form : Form) : (value : Json) → value.Spelled → (level : Nat) →
    {tokens : List Token} → {cs : List Char} → Layout tokens cs → Closed cs →
    Layout (value.tokens ++ tokens) (value.write form level ++ cs)
  | .null, _, _, _, _, h, hc => .token trivial (hc.ends .null) h
  | .bool true, _, _, _, _, h, hc => .token trivial (hc.ends (.bool true)) h
  | .bool false, _, _, _, _, h, hc => .token trivial (hc.ends (.bool false)) h
  | .number spelling, hs, _, _, _, h, hc => .token hs (hc.ends (.number spelling)) h
  | .string spelling, hs, _, _, _, h, hc => .token hs (hc.ends (.string spelling)) h
  | .array [], _, _, _, _, h, _ => .mark rfl (.mark rfl h)
  | .object [], _, _, _, _, h, _ => .mark rfl (.mark rfl h)
  | .array (item :: rest), hs, level, _, cs, h, _ => by
    have hend := (h.mark (c := ']') rfl).prepend (form.isSpace_gap level)
    have hclosed := (closed_mark (c := ']') rfl cs).prepend (form.isSpace_gap level)
    have hitems := layout_writeItems form (item :: rest) hs (level + 1) hend hclosed
    simpa [tokens, write] using hitems.mark (c := '[') rfl
  | .object (member :: rest), hs, level, _, cs, h, _ => by
    have hend := (h.mark (c := '\x7d') rfl).prepend (form.isSpace_gap level)
    have hclosed := (closed_mark (c := '\x7d') rfl cs).prepend (form.isSpace_gap level)
    have hmembers := layout_writeMembers form (member :: rest) hs (level + 1) hend hclosed
    simpa [tokens, write] using hmembers.mark (c := '\x7b') rfl

theorem layout_writeItems (form : Form) : (items : List Json) → SpelledItems items → (level : Nat) →
    {tokens : List Token} → {cs : List Char} → Layout tokens cs → Closed cs →
    Layout ([Token.comma].intercalate (itemTokens items) ++ tokens)
      (writeItems form level items ++ cs)
  | [], _, _, _, _, h, _ => h
  | [item], hs, level, _, _, h, hc => by
    have hitem := layout_write form item hs.1 level h hc
    simpa [itemTokens, writeItems] using hitem.prepend (form.isSpace_gap level)
  | item :: next :: rest, hs, level, _, _, h, hc => by
    have hrest := (layout_writeItems form (next :: rest) hs.2 level h hc).mark (c := ',') rfl
    have hitem := layout_write form item hs.1 level hrest (closed_mark rfl _)
    simpa [itemTokens, writeItems] using hitem.prepend (form.isSpace_gap level)

theorem layout_writeMembers (form : Form) : (members : List (List Char × Json)) →
    SpelledMembers members → (level : Nat) → {tokens : List Token} → {cs : List Char} →
    Layout tokens cs → Closed cs →
    Layout ([Token.comma].intercalate (memberTokens members) ++ tokens)
      (writeMembers form level members ++ cs)
  | [], _, _, _, _, h, _ => h
  | [(name, value)], hs, level, _, _, h, hc => by
    have hvalue := (layout_write form value hs.2.1 level h hc).name hs.1 form
    simpa [memberTokens, writeMembers] using hvalue.prepend (form.isSpace_gap level)
  | (name, value) :: next :: rest, hs, level, _, _, h, hc => by
    have hrest := (layout_writeMembers form (next :: rest) hs.2.2 level h hc).mark (c := ',') rfl
    have hvalue := (layout_write form value hs.2.1 level hrest (closed_mark rfl _)).name hs.1 form
    simpa [memberTokens, writeMembers] using hvalue.prepend (form.isSpace_gap level)
end

-- ---------------------------------------------------------------------------
-- One line
-- ---------------------------------------------------------------------------

structure Form.Flat (form : Form) : Prop where
  gap : ∀ level, '\n' ∉ form.gap level
  afterColon : '\n' ∉ form.afterColon

theorem flat_compactForm : compactForm.Flat where
  gap _ := List.not_mem_nil
  afterColon := List.not_mem_nil

theorem newline_notMem_of_isNumber (h : isNumber cs = true) : '\n' ∉ cs := by
  obtain ⟨first, more, rfl, hfirst, hmore⟩ := isNumber_cases h
  intro hn
  rcases List.mem_cons.mp hn with rfl | hn
  · exact absurd hfirst (by decide)
  · exact absurd (hmore _ hn) (by decide)

theorem newline_notMem_quoted (h : Quoted.Spelling cs) : '\n' ∉ quoted cs := by
  simp [quoted, Quoted.newline_notMem_of_spelling h]

mutual
theorem newline_notMem_write {form : Form} (hform : form.Flat) : (value : Json) → value.Spelled →
    (level : Nat) → '\n' ∉ value.write form level
  | .null, _, _ | .bool true, _, _ | .bool false, _, _ | .array [], _, _ | .object [], _, _ => by
    simp [write]
  | .number spelling, hs, _ => newline_notMem_of_isNumber hs
  | .string spelling, hs, _ => newline_notMem_quoted hs
  | .array (item :: rest), hs, level => by
    have hitems := newline_notMem_writeItems hform (item :: rest) hs (level + 1)
    simp [write, hitems, hform.gap]
  | .object (member :: rest), hs, level => by
    have hmembers := newline_notMem_writeMembers hform (member :: rest) hs (level + 1)
    simp [write, hmembers, hform.gap]

theorem newline_notMem_writeItems {form : Form} (hform : form.Flat) : (items : List Json) →
    SpelledItems items → (level : Nat) → '\n' ∉ writeItems form level items
  | [], _, _ => List.not_mem_nil
  | [item], hs, level => by
    simp [writeItems, newline_notMem_write hform item hs.1, hform.gap]
  | item :: next :: rest, hs, level => by
    have hrest := newline_notMem_writeItems hform (next :: rest) hs.2 level
    simp [writeItems, newline_notMem_write hform item hs.1, hrest, hform.gap]

theorem newline_notMem_writeMembers {form : Form} (hform : form.Flat) :
    (members : List (List Char × Json)) → SpelledMembers members → (level : Nat) →
    '\n' ∉ writeMembers form level members
  | [], _, _ => List.not_mem_nil
  | [(name, value)], hs, level => by
    simp [writeMembers, newline_notMem_quoted hs.1, newline_notMem_write hform value hs.2.1,
      hform.gap, hform.afterColon]
  | (name, value) :: next :: rest, hs, level => by
    have hrest := newline_notMem_writeMembers hform (next :: rest) hs.2.2 level
    simp [writeMembers, newline_notMem_quoted hs.1, newline_notMem_write hform value hs.2.1, hrest,
      hform.gap, hform.afterColon]
end

variable {value : Json}

theorem newline_notMem_compact (h : value.Spelled) : '\n' ∉ value.compact.toList := by
  rw [compact, String.toList_ofList]
  exact newline_notMem_write flat_compactForm value h 0

-- ---------------------------------------------------------------------------
-- There and back
-- ---------------------------------------------------------------------------

/-- White space after a value does not matter. -/
theorem writtenAs_write (h : value.Spelled) (form : Form) (rest : String)
    (hrest : ∀ c ∈ rest.toList, isSpace c = true) :
    value.WrittenAs (String.ofList (value.write form 0) ++ rest) := by
  have hspace : Layout [] rest.toList := by simpa using Layout.nil.prepend hrest
  have hclosed : Closed rest.toList := by simpa using closed_nil.prepend hrest
  have hlayout := layout_write form value h 0 hspace hclosed
  rw [WrittenAs, String.toList_append, String.toList_ofList]
  simpa using hlayout

theorem writtenAs_compact (h : value.Spelled) : value.WrittenAs value.compact := by
  simpa [compact] using writtenAs_write h compactForm "" (by simp)

theorem writtenAs_pretty (h : value.Spelled) : value.WrittenAs value.pretty := by
  simpa [pretty] using writtenAs_write h prettyForm "" (by simp)

end Mutagen.Json
