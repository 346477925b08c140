import Mutagen.Json.Quoted

/-!
# JSON tokens

A text is first cut into tokens. White space may stand around each of them; a number or a word
reaches as far as its characters do.
-/

namespace Mutagen.Json

inductive Token
  | openArray
  | closeArray
  | openObject
  | closeObject
  | colon
  | comma
  | null
  | bool (value : Bool)
  | number (spelling : List Char)
  | string (spelling : List Char)
  deriving BEq, DecidableEq, Repr

def isSpace (c : Char) : Bool := c == ' ' || c == '\n' || c == '\r' || c == '\t'

-- ---------------------------------------------------------------------------
-- Numbers
-- ---------------------------------------------------------------------------

def isNumeric (c : Char) : Bool :=
  c.isDigit || c == '-' || c == '+' || c == '.' || c == 'e' || c == 'E'

def areDigits (cs : List Char) : Bool := cs != [] && cs.all Char.isDigit

def isExponent : List Char → Bool
  | '+' :: digits => areDigits digits
  | '-' :: digits => areDigits digits
  | digits => areDigits digits

/-- What may follow the digits before a point or an exponent. -/
def isFraction : List Char → Bool
  | [] => true
  | '.' :: rest =>
    rest.takeWhile Char.isDigit != [] && isScale (rest.dropWhile Char.isDigit)
  | rest => isScale rest
where
  isScale : List Char → Bool
    | [] => true
    | c :: rest => (c == 'e' || c == 'E') && isExponent rest

def isUnsigned (cs : List Char) : Bool :=
  let whole := cs.takeWhile Char.isDigit
  whole != [] && (whole.head? != some '0' || whole == ['0']) &&
    isFraction (cs.dropWhile Char.isDigit)

def isNumber : List Char → Bool
  | '-' :: rest => isUnsigned rest
  | cs => isUnsigned cs

-- ---------------------------------------------------------------------------
-- Tokens
-- ---------------------------------------------------------------------------

def punctuation? : Char → Option Token
  | '[' => some .openArray
  | ']' => some .closeArray
  | '\x7b' => some .openObject
  | '\x7d' => some .closeObject
  | ':' => some .colon
  | ',' => some .comma
  | _ => none

def word? (cs : List Char) : Option Token :=
  if cs = "null".toList then some .null
  else if cs = "true".toList then some (.bool true)
  else if cs = "false".toList then some (.bool false)
  else none

def number? (cs : List Char) : Option Token := if isNumber cs then some (.number cs) else none

/-- The characters that make up a token with its first one, and the token they make up. -/
def longest? (belongs : Char → Bool) (make? : List Char → Option Token) (c : Char)
    (cs : List Char) : Option (Token × List Char) :=
  (make? (c :: cs.takeWhile belongs)).map (·, cs.dropWhile belongs)

def token? (c : Char) (cs : List Char) : Option (Token × List Char) :=
  match punctuation? c with
  | some token => some (token, cs)
  | none =>
    if c = '"' then (Quoted.scan? cs).map fun found => (.string found.1, found.2)
    else if isNumeric c && c != 'e' && c != 'E' then longest? isNumeric number? c cs
    else longest? Char.isAlpha word? c cs

theorem length_of_token? {c : Char} {cs rest : List Char} {token : Token}
    (h : token? c cs = some (token, rest)) : rest.length < (c :: cs).length := by
  have shorter (p : Char → Bool) : (cs.dropWhile p).length ≤ cs.length :=
    (List.dropWhile_sublist p).length_le
  unfold token? longest? at h
  split at h
  · cases h
    simp
  · split at h
    · obtain ⟨⟨_, _⟩, found, he⟩ := Option.map_eq_some_iff.1 h
      cases he
      have := Quoted.length_of_scan? found
      simp only [List.length_cons]
      omega
    · split at h
      all_goals
        obtain ⟨_, _, he⟩ := Option.map_eq_some_iff.1 h
        cases he
        have := shorter
        simp only [List.length_cons]
        exact Nat.lt_succ_of_le (shorter _)

def tokens? : List Char → Option (List Token)
  | [] => some []
  | c :: cs =>
    if isSpace c then tokens? cs
    else match _h : token? c cs with
      | none => none
      | some (token, rest) => (tokens? rest).map (token :: ·)
termination_by cs => cs.length
decreasing_by
  · simp
  · exact length_of_token? _h

end Mutagen.Json
