import Mutagen.Json.Token
import Mutagen.Json.Writer
import Mutagen.Proofs.Json.Quoted

/-!
# The layout of tokens in a text

A text lays out tokens one after the other, with white space around them. It is cut into exactly
the tokens that it lays out (`tokens?_eq_some_iff`).
-/

namespace Mutagen.Json

namespace Token

def chars : Token → List Char
  | .openArray => ['[']
  | .closeArray => [']']
  | .openObject => ['\x7b']
  | .closeObject => ['\x7d']
  | .colon => [':']
  | .comma => [',']
  | .null => "null".toList
  | .bool true => "true".toList
  | .bool false => "false".toList
  | .number spelling => spelling
  | .string spelling => quoted spelling

def Sound : Token → Prop
  | .number spelling => isNumber spelling = true
  | .string spelling => Quoted.Spelling spelling
  | _ => True

/-- Whether a token is over where the text goes on with `rest`. Numbers and words are not over
before a character that could belong to them. -/
def Ends (rest : List Char) : Token → Prop
  | .number _ => ∀ c ∈ rest.head?, isNumeric c = false
  | .null | .bool _ => ∀ c ∈ rest.head?, c.isAlpha = false
  | _ => True

end Token

inductive Layout : List Token → List Char → Prop
  | nil : Layout [] []
  | space {c : Char} {tokens : List Token} {cs : List Char} (hc : isSpace c = true)
      (h : Layout tokens cs) : Layout tokens (c :: cs)
  | token {token : Token} {tokens : List Token} {cs : List Char} (hsound : token.Sound)
      (hends : token.Ends cs) (h : Layout tokens cs) : Layout (token :: tokens) (token.chars ++ cs)

variable {c : Char} {cs rest : List Char} {token : Token} {tokens : List Token}

-- ---------------------------------------------------------------------------
-- Numbers
-- ---------------------------------------------------------------------------

theorem isNumeric_of_isDigit (h : c.isDigit = true) : isNumeric c = true := by simp [isNumeric, h]

theorem isNumeric_of_dropWhile (h : ∀ x ∈ cs.dropWhile Char.isDigit, isNumeric x = true) :
    ∀ x ∈ cs, isNumeric x = true := by
  intro x hx
  have hsplit : cs.takeWhile Char.isDigit ++ cs.dropWhile Char.isDigit = cs :=
    List.takeWhile_append_dropWhile
  rw [← hsplit] at hx
  rcases List.mem_append.mp hx with hx | hx
  · exact isNumeric_of_isDigit (List.all_eq_true.mp List.all_takeWhile x hx)
  · exact h x hx

theorem isNumeric_of_areDigits (h : areDigits cs = true) : ∀ x ∈ cs, isNumeric x = true := by
  have hall : ∀ x ∈ cs, x.isDigit = true := by simp_all [areDigits]
  exact fun x hx => isNumeric_of_isDigit (hall x hx)

theorem isNumeric_of_isExponent (h : isExponent cs = true) : ∀ x ∈ cs, isNumeric x = true := by
  unfold isExponent at h
  split at h
  · exact List.forall_mem_cons.mpr ⟨rfl, isNumeric_of_areDigits h⟩
  · exact List.forall_mem_cons.mpr ⟨rfl, isNumeric_of_areDigits h⟩
  · exact isNumeric_of_areDigits h

theorem isNumeric_of_isScale (h : isFraction.isScale cs = true) : ∀ x ∈ cs, isNumeric x = true := by
  cases cs with
  | nil => simp
  | cons c rest =>
    obtain ⟨hc, hrest⟩ : (c = 'e' ∨ c = 'E') ∧ isExponent rest = true := by
      simpa [isFraction.isScale] using h
    refine List.forall_mem_cons.mpr ⟨?_, isNumeric_of_isExponent hrest⟩
    rcases hc with rfl | rfl <;> rfl

theorem isNumeric_of_isFraction (h : isFraction cs = true) : ∀ x ∈ cs, isNumeric x = true := by
  unfold isFraction at h
  split at h
  · simp
  · refine List.forall_mem_cons.mpr ⟨rfl, isNumeric_of_dropWhile ?_⟩
    exact isNumeric_of_isScale (Bool.and_eq_true_iff.mp h).2
  · exact isNumeric_of_isScale h

theorem isUnsigned_cases (h : isUnsigned cs = true) :
    ∃ digit more, cs = digit :: more ∧ digit.isDigit = true ∧ ∀ x ∈ cs, isNumeric x = true := by
  obtain ⟨hwhole, hfraction⟩ := Bool.and_eq_true_iff.mp h
  have hnumeric := isNumeric_of_dropWhile (isNumeric_of_isFraction hfraction)
  cases cs with
  | nil => cases hwhole
  | cons digit more =>
    refine ⟨digit, more, rfl, ?_, hnumeric⟩
    cases hdigit : digit.isDigit with
    | true => rfl
    | false => simp [hdigit] at hwhole

theorem isNumber_cases (h : isNumber cs = true) :
    ∃ first more, cs = first :: more ∧ (first.isDigit = true ∨ first = '-') ∧
      ∀ x ∈ more, isNumeric x = true := by
  unfold isNumber at h
  split at h
  · obtain ⟨-, -, -, -, hnumeric⟩ := isUnsigned_cases h
    exact ⟨'-', _, rfl, .inr rfl, hnumeric⟩
  · obtain ⟨digit, more, rfl, hdigit, hnumeric⟩ := isUnsigned_cases h
    exact ⟨digit, more, rfl, .inl hdigit, fun x hx => hnumeric x (List.mem_cons_of_mem _ hx)⟩

-- ---------------------------------------------------------------------------
-- Single tokens
-- ---------------------------------------------------------------------------

theorem longest?_eq_some_iff {belongs : Char → Bool} {make? : List Char → Option Token} :
    longest? belongs make? c cs = some (token, rest) ↔
      ∃ more, cs = more ++ rest ∧ (∀ x ∈ more, belongs x = true) ∧
        (∀ x ∈ rest.head?, belongs x = false) ∧ make? (c :: more) = some token := by
  constructor
  · intro h
    obtain ⟨made, hmake, he⟩ := Option.map_eq_some_iff.mp h
    cases he
    refine ⟨cs.takeWhile belongs, List.takeWhile_append_dropWhile.symm,
      List.all_eq_true.mp List.all_takeWhile, fun x hx => ?_, hmake⟩
    have hstop := List.head?_dropWhile_not belongs cs
    rw [Option.mem_def.mp hx] at hstop
    exact hstop
  · rintro ⟨more, rfl, hmore, hrest, hmake⟩
    have hstop : rest.takeWhile belongs = [] ∧ rest.dropWhile belongs = rest := by
      cases rest with
      | nil => exact ⟨rfl, rfl⟩
      | cons x later => simp [hrest x rfl]
    rw [longest?, List.takeWhile_append_of_pos hmore, List.dropWhile_append_of_pos hmore, hstop.1,
      hstop.2, List.append_nil, hmake]
    rfl

theorem token_of_punctuation? (h : punctuation? c = some token) :
    token.Sound ∧ token.Ends rest ∧ token.chars = [c] := by
  unfold punctuation? at h
  split at h <;> cases h <;> exact ⟨trivial, trivial, rfl⟩

theorem token_of_word? (h : word? cs = some token) (hrest : ∀ x ∈ rest.head?, x.isAlpha = false) :
    token.Sound ∧ token.Ends rest ∧ token.chars = cs := by
  unfold word? at h
  split at h
  · cases h
    exact ⟨trivial, hrest, by simp_all [Token.chars]⟩
  · split at h
    · cases h
      exact ⟨trivial, hrest, by simp_all [Token.chars]⟩
    · split at h
      · cases h
        exact ⟨trivial, hrest, by simp_all [Token.chars]⟩
      · cases h

theorem token_of_number? (h : number? cs = some token)
    (hrest : ∀ x ∈ rest.head?, isNumeric x = false) :
    token.Sound ∧ token.Ends rest ∧ token.chars = cs := by
  unfold number? at h
  split at h
  · rename_i hnumber
    cases h
    exact ⟨hnumber, hrest, rfl⟩
  · cases h

theorem token_of_token? (h : token? c cs = some (token, rest)) :
    token.Sound ∧ token.Ends rest ∧ token.chars ++ rest = c :: cs := by
  unfold token? at h
  split at h
  · rename_i hmark
    cases h
    obtain ⟨hsound, hends, hchars⟩ := token_of_punctuation? hmark
    exact ⟨hsound, hends, by rw [hchars, List.singleton_append]⟩
  · split at h
    · rename_i hquote
      obtain ⟨⟨spelling, _⟩, hscan, he⟩ := Option.map_eq_some_iff.mp h
      cases he
      obtain ⟨hspelling, rfl⟩ := Quoted.scan?_eq_some_iff.mp hscan
      exact ⟨hspelling, trivial, by simp [Token.chars, quoted, hquote]⟩
    · split at h
      · obtain ⟨more, rfl, -, hrest, hmake⟩ := longest?_eq_some_iff.mp h
        obtain ⟨hsound, hends, hchars⟩ := token_of_number? hmake hrest
        exact ⟨hsound, hends, by rw [hchars, List.cons_append]⟩
      · obtain ⟨more, rfl, -, hrest, hmake⟩ := longest?_eq_some_iff.mp h
        obtain ⟨hsound, hends, hchars⟩ := token_of_word? hmake hrest
        exact ⟨hsound, hends, by rw [hchars, List.cons_append]⟩

theorem isSpace_cases (h : isSpace c = true) : c = ' ' ∨ c = '\n' ∨ c = '\r' ∨ c = '\t' := by
  simpa [isSpace, or_assoc] using h

theorem token?_of_space (h : isSpace c = true) (cs : List Char) : token? c cs = none := by
  rcases isSpace_cases h with rfl | rfl | rfl | rfl <;> rfl

theorem token?_word {first : Char} {more : List Char} (hword : word? (first :: more) = some token)
    (hmore : more.all Char.isAlpha = true) (hrest : ∀ x ∈ rest.head?, x.isAlpha = false)
    (hplain : ∀ cs, token? first cs = longest? Char.isAlpha word? first cs) :
    token? first (more ++ rest) = some (token, rest) := by
  rw [hplain]
  exact longest?_eq_some_iff.mpr ⟨more, rfl, List.all_eq_true.mp hmore, hrest, hword⟩

/-- Where a number starts, nothing else does. -/
theorem starts_number {first : Char} (h : first.isDigit = true ∨ first = '-') :
    punctuation? first = none ∧ first ≠ '"' ∧
      (isNumeric first && first != 'e' && first != 'E') = true := by
  rcases h with h | rfl
  · have all : ∀ d < 10, punctuation? d.digitChar = none ∧ d.digitChar ≠ '"' ∧
        (isNumeric d.digitChar && d.digitChar != 'e' && d.digitChar != 'E') = true := by decide
    obtain ⟨d, hd, rfl⟩ := Decimal.exists_digitChar h
    exact all d hd
  · decide

theorem token?_number {first : Char} {more : List Char} (hnumber : isNumber (first :: more) = true)
    (hfirst : first.isDigit = true ∨ first = '-') (hmore : ∀ x ∈ more, isNumeric x = true)
    (hrest : ∀ x ∈ rest.head?, isNumeric x = false) :
    token? first (more ++ rest) = some (.number (first :: more), rest) := by
  obtain ⟨hmark, hquote, hstart⟩ := starts_number hfirst
  simp only [token?, hmark, hquote, if_false, hstart, if_true]
  exact longest?_eq_some_iff.mpr ⟨more, rfl, hmore, hrest, by rw [number?, if_pos hnumber]⟩

theorem exists_token? (hsound : token.Sound) (hends : token.Ends rest) :
    ∃ c cs, token.chars ++ rest = c :: cs ∧ token? c cs = some (token, rest) := by
  cases token with
  | openArray | closeArray | openObject | closeObject | colon | comma => exact ⟨_, _, rfl, rfl⟩
  | null => exact ⟨'n', "ull".toList ++ rest, rfl, token?_word rfl rfl hends fun _ => rfl⟩
  | bool value =>
    cases value with
    | true => exact ⟨'t', "rue".toList ++ rest, rfl, token?_word rfl rfl hends fun _ => rfl⟩
    | false => exact ⟨'f', "alse".toList ++ rest, rfl, token?_word rfl rfl hends fun _ => rfl⟩
  | number spelling =>
    obtain ⟨first, more, rfl, hfirst, hmore⟩ := isNumber_cases hsound
    exact ⟨first, _, rfl, token?_number hsound hfirst hmore hends⟩
  | string spelling =>
    have hscan : Quoted.scan? (spelling ++ '"' :: rest) = some (spelling, rest) :=
      Quoted.scan?_eq_some_iff.mpr ⟨hsound, rfl⟩
    refine ⟨'"', spelling ++ '"' :: rest, by simp [Token.chars, quoted], ?_⟩
    simp [token?, punctuation?, hscan]

-- ---------------------------------------------------------------------------
-- All tokens
-- ---------------------------------------------------------------------------

theorem layout_of_tokens? (h : tokens? cs = some tokens) : Layout tokens cs := by
  fun_induction tokens? cs generalizing tokens with
  | case1 =>
    cases h
    exact .nil
  | case2 c cs hc ih => exact .space hc (ih h)
  | case3 => cases h
  | case4 c cs _ token rest htoken ih =>
    obtain ⟨later, hlater, rfl⟩ := Option.map_eq_some_iff.mp h
    obtain ⟨hsound, hends, hchars⟩ := token_of_token? htoken
    exact hchars ▸ .token hsound hends (ih hlater)

theorem tokens?_cons (htoken : token? c cs = some (token, rest)) :
    tokens? (c :: cs) = (tokens? rest).map (token :: ·) := by
  have hspace : isSpace c = false := by
    cases hspace : isSpace c with
    | false => rfl
    | true =>
      rw [token?_of_space hspace] at htoken
      cases htoken
  rw [tokens?, if_neg (by simp [hspace])]
  split
  · rename_i hnone
    cases htoken.symm.trans hnone
  · rename_i hsome
    cases htoken.symm.trans hsome
    rfl

theorem tokens?_of_layout (h : Layout tokens cs) : tokens? cs = some tokens := by
  induction h with
  | nil => rw [tokens?]
  | space hc _ ih => rw [tokens?, if_pos hc, ih]
  | token hsound hends _ ih =>
    obtain ⟨c, rest, hchars, htoken⟩ := exists_token? hsound hends
    rw [hchars, tokens?_cons htoken, ih]
    rfl

theorem tokens?_eq_some_iff : tokens? cs = some tokens ↔ Layout tokens cs :=
  ⟨layout_of_tokens?, tokens?_of_layout⟩

end Mutagen.Json
