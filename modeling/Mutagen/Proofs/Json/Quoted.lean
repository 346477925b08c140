import Mutagen.Json.Quoted

/-!
# What stands between quotes

Scanning finds the closing quote behind exactly the spellings that are allowed
(`scan?_eq_some_iff`), none of which breaks a line. Encoding gives such a spelling of every text, from
which decoding gets the text back (`decode?_encode`), as it does from every other spelling of that
text (`decode?_eq_some_iff`).
-/

namespace Mutagen.Json.Quoted

/-- What can stand between quotes: escapes, and characters that stand for themselves. -/
inductive Spelling : List Char → Prop
  | nil : Spelling []
  | unit {a b c d : Char} {rest : List Char} (h : (unit? a b c d).isSome = true)
      (hrest : Spelling rest) : Spelling ('\\' :: 'u' :: a :: b :: c :: d :: rest)
  | short {letter : Char} {rest : List Char} (h : (ofShort? letter).isSome = true)
      (hrest : Spelling rest) : Spelling ('\\' :: letter :: rest)
  | plain {c : Char} {rest : List Char} (hspace : ¬c < ' ') (hquote : c ≠ '"') (hslash : c ≠ '\\')
      (hrest : Spelling rest) : Spelling (c :: rest)

/-- The text that a spelling stands for. Characters stand for themselves, and an escape, or two of
them that spell surrogates, for one character. -/
inductive Spells : List Char → List Char → Prop
  | nil : Spells [] []
  | plain {c : Char} {spelling text : List Char} (hslash : c ≠ '\\') (h : Spells spelling text) :
      Spells (c :: spelling) (c :: text)
  | short {letter c : Char} {spelling text : List Char} (hletter : ofShort? letter = some c)
      (h : Spells spelling text) : Spells ('\\' :: letter :: spelling) (c :: text)
  | unit {a b c d : Char} {n : Nat} {spelling text : List Char} (hunit : unit? a b c d = some n)
      (hlead : isLead n = false) (htrail : isTrail n = false) (h : Spells spelling text) :
      Spells ('\\' :: 'u' :: a :: b :: c :: d :: spelling) (Char.ofNat n :: text)
  | pair {a b c d e f g k : Char} {lead trail : Nat} {spelling text : List Char}
      (hunit : unit? a b c d = some lead) (hlead : isLead lead = true)
      (hunit' : unit? e f g k = some trail) (htrail : isTrail trail = true)
      (h : Spells spelling text) :
      Spells ('\\' :: 'u' :: a :: b :: c :: d :: '\\' :: 'u' :: e :: f :: g :: k :: spelling)
        (joined lead trail :: text)

variable {spelling text rest cs : List Char}

-- ---------------------------------------------------------------------------
-- Scanning
-- ---------------------------------------------------------------------------

theorem letter_ne_u {letter : Char} (h : (ofShort? letter).isSome = true) : letter ≠ 'u' := by
  rintro rfl
  cases h

theorem scan?_of_spelling (h : Spelling spelling) (rest : List Char) :
    scan? (spelling ++ '"' :: rest) = some (spelling, rest) := by
  induction h with
  | nil => simp [scan?]
  | unit h _ ih => simp [scan?, h, ih]
  | short h _ ih => simp [scan?, letter_ne_u h, h, ih]
  | plain hspace _ hslash _ ih => simp [scan?, hspace, hslash, ih]

theorem spelling_of_scan? (h : scan? cs = some (spelling, rest)) :
    Spelling spelling ∧ cs = spelling ++ '"' :: rest := by
  fun_induction scan? cs generalizing spelling rest with
  | case1 => cases h
  | case2 more =>
    cases h
    exact ⟨.nil, rfl⟩
  | case3 a b c d more hunit ih =>
    obtain ⟨⟨_, _⟩, found, he⟩ := Option.map_eq_some_iff.1 h
    cases he
    obtain ⟨hrest, rfl⟩ := ih found
    exact ⟨.unit hunit hrest, rfl⟩
  | case4 => cases h
  | case5 letter more _ hletter ih =>
    obtain ⟨⟨_, _⟩, found, he⟩ := Option.map_eq_some_iff.1 h
    cases he
    obtain ⟨hrest, rfl⟩ := ih found
    exact ⟨.short hletter hrest, rfl⟩
  | case6 => cases h
  | case7 => cases h
  | case8 c more hquote _ _ hplain ih =>
    obtain ⟨⟨_, _⟩, found, he⟩ := Option.map_eq_some_iff.1 h
    cases he
    obtain ⟨hrest, rfl⟩ := ih found
    obtain ⟨hspace, hslash⟩ := not_or.mp hplain
    exact ⟨.plain hspace hquote hslash hrest, rfl⟩

theorem scan?_eq_some_iff :
    scan? cs = some (spelling, rest) ↔ Spelling spelling ∧ cs = spelling ++ '"' :: rest := by
  refine ⟨spelling_of_scan?, ?_⟩
  rintro ⟨h, rfl⟩
  exact scan?_of_spelling h rest

instance (spelling : List Char) : Decidable (Spelling spelling) :=
  decidable_of_iff (scan? (spelling ++ ['"']) = some (spelling, [])) (by simp [scan?_eq_some_iff])

-- ---------------------------------------------------------------------------
-- Line breaks
-- ---------------------------------------------------------------------------

theorem isSome_of_unit? {a b c d : Char} (h : (unit? a b c d).isSome = true) :
    ∀ x ∈ [a, b, c, d], (hexValue? x).isSome = true := by
  obtain ⟨n, h⟩ := Option.isSome_iff_exists.mp h
  obtain ⟨va, ha, h⟩ := Option.bind_eq_some_iff.mp h
  obtain ⟨vb, hb, h⟩ := Option.bind_eq_some_iff.mp h
  obtain ⟨vc, hc, h⟩ := Option.bind_eq_some_iff.mp h
  obtain ⟨vd, hd, -⟩ := Option.bind_eq_some_iff.mp h
  simp [ha, hb, hc, hd]

theorem newline_notMem_of_spelling (h : Spelling spelling) : '\n' ∉ spelling := by
  induction h with
  | nil => simp
  | @unit a b c d rest h _ ih =>
    have hunit : '\n' ∉ [a, b, c, d] := fun hn => absurd (isSome_of_unit? h _ hn) (by decide)
    simpa [ih] using hunit
  | @short letter rest h _ ih =>
    have hletter : '\n' ≠ letter := by
      rintro rfl
      cases h
    simp [ih, hletter]
  | @plain c rest hspace _ _ _ ih =>
    have hplain : '\n' ≠ c := by
      rintro rfl
      exact hspace (by decide)
    simp [ih, hplain]

-- ---------------------------------------------------------------------------
-- Encoding
-- ---------------------------------------------------------------------------

theorem ofShort?_of_shortOf? {c letter : Char} (h : shortOf? c = some letter) :
    ofShort? letter = some c := by
  unfold shortOf? at h
  split at h <;> cases h <;> rfl

theorem unit?_control {n : Nat} (h : n < 32) :
    unit? '0' '0' (Nat.digitChar (n / 16)) (Nat.digitChar (n % 16)) = some n := by
  have all : ∀ n < 32,
      unit? '0' '0' (Nat.digitChar (n / 16)) (Nat.digitChar (n % 16)) = some n := by decide
  exact all n h

theorem encodeChar_cases (c : Char) :
    (∃ letter, encodeChar c = ['\\', letter] ∧ ofShort? letter = some c) ∨
      (∃ a b, encodeChar c = ['\\', 'u', '0', '0', a, b] ∧ unit? '0' '0' a b = some c.toNat ∧
        c.toNat < 32) ∨
      (encodeChar c = [c] ∧ ¬c < ' ' ∧ c ≠ '"' ∧ c ≠ '\\') := by
  unfold encodeChar
  split
  · rename_i letter h
    exact .inl ⟨letter, rfl, ofShort?_of_shortOf? h⟩
  · rename_i hnone
    split
    · rename_i h
      exact .inr (.inl ⟨_, _, rfl, unit?_control h, h⟩)
    · rename_i h
      refine .inr (.inr ⟨rfl, h, ?_, ?_⟩)
      · rintro rfl
        cases hnone
      · rintro rfl
        cases hnone

theorem encode_cons (c : Char) (cs : List Char) : encode (c :: cs) = encodeChar c ++ encode cs :=
  List.flatMap_cons

theorem spelling_encode (cs : List Char) : Spelling (encode cs) := by
  induction cs with
  | nil => exact .nil
  | cons c cs ih =>
    rw [encode_cons]
    obtain ⟨letter, he, h⟩ | ⟨a, b, he, h, -⟩ | ⟨he, hspace, hquote, hslash⟩ := encodeChar_cases c
    · rw [he]
      exact .short (h ▸ rfl) ih
    · rw [he]
      exact .unit (h ▸ rfl) ih
    · rw [he]
      exact .plain hspace hquote hslash ih

theorem decode?_encode (cs : List Char) : decode? (encode cs) = some cs := by
  induction cs with
  | nil => rfl
  | cons c cs ih =>
    rw [encode_cons]
    obtain ⟨letter, he, h⟩ | ⟨a, b, he, h, hlt⟩ | ⟨he, -, -, hslash⟩ := encodeChar_cases c
    · have hu : letter ≠ 'u' := letter_ne_u (h ▸ rfl)
      simp [he, decode?, hu, h, ih]
    · -- A control character lies below the surrogates.
      have htrail : isTrail c.toNat = false := by simp [isTrail]; omega
      have hlead : isLead c.toNat = false := by simp [isLead]; omega
      simp [he, decode?, h, htrail, hlead, ih, Char.ofNat_toNat]
    · simp [he, decode?, hslash, ih]

-- ---------------------------------------------------------------------------
-- Decoding
-- ---------------------------------------------------------------------------

theorem isTrail_of_isLead {n : Nat} (h : isLead n = true) : isTrail n = false := by
  simp only [isLead, isTrail, Bool.and_eq_true, decide_eq_true_eq, Bool.and_eq_false_iff,
    decide_eq_false_iff_not] at *
  omega

theorem decode?_of_spells (h : Spells spelling text) : decode? spelling = some text := by
  induction h with
  | nil => rfl
  | plain hslash _ ih => simp [decode?, hslash, ih]
  | @short letter _ _ _ hletter _ ih =>
    have hu : letter ≠ 'u' := letter_ne_u (by rw [hletter, Option.isSome_some])
    simp [decode?, hu, hletter, ih]
  | unit hunit hlead htrail _ ih => simp [decode?, hunit, hlead, htrail, ih]
  | pair hunit hlead hunit' htrail _ ih =>
    simp [decode?, hunit, hlead, isTrail_of_isLead hlead, hunit', Option.filter, htrail, ih]

theorem spells_of_decode? (h : decode? spelling = some text) : Spells spelling text := by
  fun_induction decode? spelling generalizing text with
  | case1 =>
    cases h
    exact .nil
  | case2 => cases h
  | case3 => cases h
  | case4 => cases h
  | case5 a b c d lead hunit _ hlead e f g k rest trail htrail ih =>
    obtain ⟨later, hlater, rfl⟩ := Option.map_eq_some_iff.mp h
    obtain ⟨hunit', htrail⟩ := Option.filter_eq_some_iff.mp htrail
    exact .pair hunit hlead hunit' htrail (ih hlater)
  | case6 => cases h
  | case7 a b c d rest n hunit htrail hlead ih =>
    obtain ⟨later, hlater, rfl⟩ := Option.map_eq_some_iff.mp h
    exact .unit hunit (by simpa using hlead) (by simpa using htrail) (ih hlater)
  | case8 => cases h
  | case9 letter rest _ c hletter ih =>
    obtain ⟨later, hlater, rfl⟩ := Option.map_eq_some_iff.mp h
    exact .short hletter (ih hlater)
  | case10 => cases h
  | case11 c rest _ _ hslash ih =>
    obtain ⟨later, hlater, rfl⟩ := Option.map_eq_some_iff.mp h
    exact .plain hslash (ih hlater)

theorem decode?_eq_some_iff : decode? spelling = some text ↔ Spells spelling text :=
  ⟨spells_of_decode?, decode?_of_spells⟩

end Mutagen.Json.Quoted
