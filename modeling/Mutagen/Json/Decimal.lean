/-!
# Natural numbers in decimal

A natural number is spelled with digits alone and without a leading zero.
-/

namespace Mutagen.Json.Decimal

def encode (n : Nat) : List Char := Nat.toDigits 10 n

def isCanonical (spelling : List Char) : Bool :=
  spelling != [] && spelling.all Char.isDigit && (spelling.head? != some '0' || spelling == ['0'])

def decode? (spelling : List Char) : Option Nat :=
  if isCanonical spelling then some (Nat.ofDigitChars 10 spelling 0) else none

def below? (bound : Nat) (spelling : List Char) : Option Nat :=
  (decode? spelling).filter (· < bound)

theorem head?_digits {n : Nat} (h : 0 < n) : (Nat.toDigits 10 n).head? ≠ some '0' := by
  induction n using Nat.strongRecOn with
  | ind n ih =>
    by_cases small : n < 10
    · rw [Nat.toDigits_of_lt_base small]
      have all : ∀ m < 10, 0 < m → [m.digitChar].head? ≠ some '0' := by decide
      exact all n small h
    · have ih := ih (n / 10) (by omega) (by omega)
      rw [Nat.toDigits_of_base_le (by decide) (by omega)]
      have filled : Nat.toDigits 10 (n / 10) ≠ [] := Nat.toDigits_ne_nil
      obtain ⟨c, cs, hc⟩ := List.exists_cons_of_ne_nil filled
      simpa [hc] using ih

theorem isCanonical_encode (n : Nat) : isCanonical (encode n) = true := by
  have filled : Nat.toDigits 10 n ≠ [] := Nat.toDigits_ne_nil
  have digits : (Nat.toDigits 10 n).all Char.isDigit = true :=
    List.all_eq_true.2 fun c h => Nat.isDigit_of_mem_toDigits (by decide) (by decide) h
  rcases Nat.eq_zero_or_pos n with rfl | h
  · decide
  · simp [isCanonical, encode, filled, digits, head?_digits h]

theorem decode?_encode (n : Nat) : decode? (encode n) = some n := by
  rw [decode?, isCanonical_encode]
  simp [encode, Nat.ofDigitChars_toDigits]

theorem below?_encode {bound n : Nat} (h : n < bound) : below? bound (encode n) = some n := by
  simp [below?, decode?_encode, h]

-- ---------------------------------------------------------------------------
-- One spelling for each number
-- ---------------------------------------------------------------------------

theorem exists_digitChar {c : Char} (h : c.isDigit = true) : ∃ d < 10, d.digitChar = c := by
  have bounds : 48 ≤ c.toNat ∧ c.toNat ≤ 57 := by
    simpa [Char.isDigit, UInt32.le_iff_toNat_le] using h
  have shifted : ∀ d < 10, d.digitChar = Char.ofNat (48 + d) := by decide
  refine ⟨c.toNat - 48, by omega, ?_⟩
  rw [shifted _ (by omega), show 48 + (c.toNat - 48) = c.toNat by omega, Char.ofNat_toNat]

theorem toDigits_ofDigitChars {digits : List Char} (h : ∀ c ∈ digits, c.isDigit = true) {n : Nat}
    (hn : 0 < n) :
    Nat.toDigits 10 (Nat.ofDigitChars 10 digits n) = Nat.toDigits 10 n ++ digits := by
  induction digits generalizing n with
  | nil => simp
  | cons c digits ih =>
    obtain ⟨d, hd, rfl⟩ := exists_digitChar (h c List.mem_cons_self)
    have later : ∀ c ∈ digits, c.isDigit = true := fun c hc => h c (List.mem_cons_of_mem _ hc)
    rw [Nat.ofDigitChars_cons_digitChar_of_lt_ten hd, ih later (by omega),
      ← Nat.toDigits_append_toDigits (by decide) hn hd, Nat.toDigits_of_lt_base hd,
      List.append_assoc, List.singleton_append]

theorem encode_ofDigitChars {spelling : List Char} (h : isCanonical spelling = true) :
    encode (Nat.ofDigitChars 10 spelling 0) = spelling := by
  cases spelling with
  | nil => simp [isCanonical] at h
  | cons c digits =>
    obtain ⟨⟨hc, later⟩, leading⟩ :
        (c.isDigit = true ∧ ∀ c ∈ digits, c.isDigit = true) ∧
          (¬c = '0' ∨ c = '0' ∧ digits = []) := by
      simpa [isCanonical] using h
    obtain ⟨d, hd, rfl⟩ := exists_digitChar hc
    rw [encode, Nat.ofDigitChars_cons_digitChar_of_lt_ten hd]
    rcases leading with nonzero | ⟨zero, rfl⟩
    · have positive : 0 < 10 * 0 + d := by
        rcases Nat.eq_zero_or_pos d with rfl | hpos
        · exact absurd rfl nonzero
        · omega
      rw [toDigits_ofDigitChars later positive, Nat.toDigits_of_lt_base (by omega),
        List.singleton_append, Nat.mul_zero, Nat.zero_add]
    · rw [Nat.ofDigitChars_nil, Nat.toDigits_of_lt_base (by omega), Nat.mul_zero, Nat.zero_add]

theorem decode?_eq_some_iff {spelling : List Char} {n : Nat} :
    decode? spelling = some n ↔ spelling = encode n := by
  constructor
  · intro h
    unfold decode? at h
    split at h
    · rename_i canonical
      cases h
      exact (encode_ofDigitChars canonical).symm
    · cases h
  · rintro rfl
    exact decode?_encode n

theorem encode_inj {m n : Nat} : encode m = encode n ↔ m = n := by
  refine ⟨fun h => ?_, congrArg encode⟩
  have hm := decode?_encode m
  rw [h, decode?_encode] at hm
  exact (Option.some.inj hm).symm

theorem below?_eq_some_iff {bound : Nat} {spelling : List Char} {n : Nat} :
    below? bound spelling = some n ↔ spelling = encode n ∧ n < bound := by
  rw [below?, Option.filter_eq_some_iff, decode?_eq_some_iff, decide_eq_true_eq]

end Mutagen.Json.Decimal
