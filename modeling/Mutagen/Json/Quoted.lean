/-!
# Quoted text

How a text is spelled between quotes. Encoding escapes the quote, the backslash and the control
characters below the space, and nothing else; decoding knows every escape. A character beyond
U+FFFF may be spelled as the escapes of its two surrogates, and a surrogate without the other one
spells nothing.
-/

namespace Mutagen.Json.Quoted

/-- The letter that stands for a character in a short escape. -/
def shortOf? : Char → Option Char
  | '"' => some '"'
  | '\\' => some '\\'
  | '\x08' => some 'b'
  | '\x0c' => some 'f'
  | '\n' => some 'n'
  | '\r' => some 'r'
  | '\t' => some 't'
  | _ => none

def ofShort? : Char → Option Char
  | '"' => some '"'
  | '\\' => some '\\'
  | '/' => some '/'
  | 'b' => some '\x08'
  | 'f' => some '\x0c'
  | 'n' => some '\n'
  | 'r' => some '\r'
  | 't' => some '\t'
  | _ => none

def encodeChar (c : Char) : List Char :=
  match shortOf? c with
  | some letter => ['\\', letter]
  | none =>
    if c < ' ' then
      ['\\', 'u', '0', '0', Nat.digitChar (c.toNat / 16), Nat.digitChar (c.toNat % 16)]
    else [c]

def encode (text : List Char) : List Char := text.flatMap encodeChar

def hexValue? (c : Char) : Option Nat :=
  if '0' ≤ c ∧ c ≤ '9' then some (c.toNat - '0'.toNat)
  else if 'a' ≤ c ∧ c ≤ 'f' then some (c.toNat - 'a'.toNat + 10)
  else if 'A' ≤ c ∧ c ≤ 'F' then some (c.toNat - 'A'.toNat + 10)
  else none

def unit? (a b c d : Char) : Option Nat := do
  return (((← hexValue? a) * 16 + (← hexValue? b)) * 16 + (← hexValue? c)) * 16 + (← hexValue? d)

/-- The first of two surrogates. -/
def isLead (unit : Nat) : Bool := 0xD800 ≤ unit && unit < 0xDC00

def isTrail (unit : Nat) : Bool := 0xDC00 ≤ unit && unit < 0xE000

/-- The character beyond U+FFFF that two surrogates spell. -/
def joined (lead trail : Nat) : Char :=
  Char.ofNat (0x10000 + (lead - 0xD800) * 0x400 + (trail - 0xDC00))

def decode? : List Char → Option (List Char)
  | [] => some []
  | '\\' :: 'u' :: a :: b :: c :: d :: rest =>
    match unit? a b c d with
    | none => none
    | some unit =>
      if isTrail unit then none
      else if isLead unit then
        match rest with
        | '\\' :: 'u' :: e :: f :: g :: h :: rest =>
          match (unit? e f g h).filter isTrail with
          | none => none
          | some trail => (decode? rest).map (joined unit trail :: ·)
        | _ => none
      else (decode? rest).map (Char.ofNat unit :: ·)
  | '\\' :: letter :: rest =>
    match ofShort? letter with
    | none => none
    | some c => (decode? rest).map (c :: ·)
  | c :: rest => if c = '\\' then none else (decode? rest).map (c :: ·)

/-- Reads up to the closing quote: the spelling, and what follows the quote. Escapes have to be
well formed, and control characters below the space are not allowed. -/
def scan? : List Char → Option (List Char × List Char)
  | [] => none
  | '"' :: rest => some ([], rest)
  | '\\' :: 'u' :: a :: b :: c :: d :: rest =>
    if (unit? a b c d).isSome then
      (scan? rest).map fun found => ('\\' :: 'u' :: a :: b :: c :: d :: found.1, found.2)
    else none
  | '\\' :: letter :: rest =>
    if (ofShort? letter).isSome then
      (scan? rest).map fun found => ('\\' :: letter :: found.1, found.2)
    else none
  | c :: rest =>
    if c < ' ' ∨ c = '\\' then none
    else (scan? rest).map fun found => (c :: found.1, found.2)

theorem length_of_scan? {cs spelling rest : List Char} (h : scan? cs = some (spelling, rest)) :
    rest.length < cs.length := by
  fun_induction scan? cs generalizing spelling rest with
  | case1 => cases h
  | case2 => cases h; simp
  | case3 a b c d more _ ih =>
    obtain ⟨⟨_, _⟩, found, he⟩ := Option.map_eq_some_iff.1 h
    cases he
    have := ih found
    simp only [List.length_cons]
    omega
  | case4 => cases h
  | case5 letter more _ _ ih =>
    obtain ⟨⟨_, _⟩, found, he⟩ := Option.map_eq_some_iff.1 h
    cases he
    have := ih found
    simp only [List.length_cons]
    omega
  | case6 => cases h
  | case7 => cases h
  | case8 c more _ _ _ _ ih =>
    obtain ⟨⟨_, _⟩, found, he⟩ := Option.map_eq_some_iff.1 h
    cases he
    have := ih found
    simp only [List.length_cons]
    omega

end Mutagen.Json.Quoted
