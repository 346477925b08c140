/-!
# Positions in a text

A position is a line and a column, both from zero. Only `\n` ends a line; columns count bytes.
-/

namespace Mutagen

structure Position where
  line : Nat
  column : Nat
  deriving BEq, DecidableEq, Repr

/-- The range from `start` up to, not including, `stop`. -/
structure Span where
  start : Position
  stop : Position
  deriving BEq, DecidableEq, Repr

namespace Position

def advance (p : Position) (c : Char) : Position :=
  if c = '\n' then ⟨p.line + 1, 0⟩ else ⟨p.line, p.column + c.utf8Size⟩

/-- The position `offset` bytes after `p`, where `cs` follows `p`. Bytes inside a character, or
beyond the last one, only move the column. -/
def walk (p : Position) : List Char → Nat → Position
  | _, 0 => p
  | [], offset + 1 => ⟨p.line, p.column + (offset + 1)⟩
  | c :: cs, offset + 1 =>
    if c.utf8Size ≤ offset + 1 then walk (p.advance c) cs (offset + 1 - c.utf8Size)
    else ⟨p.line, p.column + (offset + 1)⟩

def ofOffset (text : String) (offset : Nat) : Position := walk ⟨0, 0⟩ text.toList offset

end Position

def Span.ofOffsets (text : String) (start stop : Nat) : Span :=
  ⟨.ofOffset text start, .ofOffset text stop⟩

end Mutagen
