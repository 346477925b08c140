import Mathlib.Algebra.GroupWithZero.Nat
import Mathlib.Data.List.TakeWhile
import Mutagen.Proofs.Text.Bytes
import Mutagen.Proofs.Text.Position

/-!
# From positions back to offsets

The position of an offset counts the line breaks before the offset and the bytes since the last of
them (`Position.line_ofOffset`, `Position.column_ofOffset`). So the offset can be found again: it
is the length of the lines before the position, and the column (`Position.toOffset_ofOffset`). The
spans of two ranges then lie to each other exactly as the ranges do.
-/

namespace Mutagen

namespace Text

/-- The lines that `\n` ends, each with its break, and what is left behind the last break. -/
def feedLines : List Char → List (List Char)
  | [] => []
  | c :: cs =>
    if c = '\n' then [c] :: feedLines cs
    else match feedLines cs with
      | [] => [[c]]
      | first :: rest => (c :: first) :: rest

def lengthOfLines (cs : List Char) (count : Nat) : Nat := (((feedLines cs).take count).map width).sum

@[simp] theorem lengthOfLines_zero (cs : List Char) : lengthOfLines cs 0 = 0 := rfl

theorem lengthOfLines_break (cs : List Char) (count : Nat) :
    lengthOfLines ('\n' :: cs) (count + 1) = 1 + lengthOfLines cs count := by
  have hsize : '\n'.utf8Size = 1 := rfl
  simp [lengthOfLines, feedLines, hsize]

theorem lengthOfLines_cons {c : Char} (h : c ≠ '\n') (cs : List Char) (count : Nat) :
    lengthOfLines (c :: cs) (count + 1) = c.utf8Size + lengthOfLines cs (count + 1) := by
  rw [lengthOfLines, lengthOfLines, feedLines, if_neg h]
  cases feedLines cs with
  | nil => simp
  | cons first rest => simp [Nat.add_assoc]

end Text

namespace Bytes

def sinceBreak (bytes : Bytes) : Nat := (bytes.reverse.takeWhile (· != newline)).length

theorem sinceBreak_append_of_notMem (first : Bytes) {rest : Bytes} (h : newline ∉ rest) :
    sinceBreak (first ++ rest) = sinceBreak first + rest.length := by
  have hall : ∀ b ∈ rest.reverse, (b != newline) = true := fun b hb =>
    bne_iff_ne.mpr fun hbreak => h (hbreak ▸ List.mem_reverse.mp hb)
  rw [sinceBreak, List.reverse_append, List.takeWhile_append_of_pos hall, List.length_append,
    List.length_reverse, Nat.add_comm]
  rfl

theorem sinceBreak_append_of_mem (first : Bytes) {rest : Bytes} (h : newline ∈ rest) :
    sinceBreak (first ++ rest) = sinceBreak rest := by
  have hbreak : (rest.reverse.takeWhile (· != newline)).length ≠ rest.reverse.length := by
    intro hlength
    have hwhole := (List.takeWhile_prefix (· != newline)).eq_of_length hlength
    have hnewline := List.takeWhile_eq_self_iff.mp hwhole newline (List.mem_reverse.mpr h)
    simp at hnewline
  rw [sinceBreak, List.reverse_append, List.takeWhile_append, if_neg hbreak]
  rfl

theorem sinceBreak_of_notMem {bytes : Bytes} (h : newline ∉ bytes) :
    sinceBreak bytes = bytes.length := by
  have happend := sinceBreak_append_of_notMem [] h
  have hnil : sinceBreak [] = 0 := rfl
  rwa [List.nil_append, hnil, Nat.zero_add] at happend

end Bytes

namespace Position

open Bytes Text

-- ---------------------------------------------------------------------------
-- Columns
-- ---------------------------------------------------------------------------

theorem column_walk (p : Position) {cs : List Char} {n : Nat} (h : n ≤ width cs) :
    (walk p cs n).column =
      if newline ∈ (ofChars cs).take n then sinceBreak ((ofChars cs).take n) else p.column + n := by
  fun_induction walk p cs n with
  | case1 => simp
  | case2 => simp
  | case3 p c cs n hc ih =>
    have htake : (ofChars (c :: cs)).take (n + 1) =
        String.utf8EncodeChar c ++ (ofChars cs).take (n + 1 - c.utf8Size) := by
      rw [ofChars_cons, List.take_append, String.length_utf8EncodeChar,
        List.take_of_length_le (by rwa [String.length_utf8EncodeChar])]
    have hle : n + 1 - c.utf8Size ≤ width cs := by
      rw [width_cons] at h
      omega
    have hlength : ((ofChars cs).take (n + 1 - c.utf8Size)).length = n + 1 - c.utf8Size := by
      rwa [List.length_take, length_ofChars, Nat.min_eq_left]
    rw [ih hle, htake]
    simp only [List.mem_append, newline_mem_utf8EncodeChar]
    by_cases hrest : newline ∈ (ofChars cs).take (n + 1 - c.utf8Size)
    · rw [if_pos hrest, if_pos (.inr hrest), sinceBreak_append_of_mem _ hrest]
    · rw [if_neg hrest]
      by_cases hbreak : c = '\n'
      · subst hbreak
        rw [if_pos (.inl rfl), sinceBreak_append_of_notMem _ hrest, hlength]
        rfl
      · rw [if_neg (not_or.mpr ⟨hbreak, hrest⟩), advance, if_neg hbreak]
        dsimp only
        omega
  | case4 p c cs n hc =>
    -- the offset is inside a character of several bytes, which breaks no line
    have hbreak : newline ∉ (ofChars (c :: cs)).take (n + 1) := by
      rw [ofChars_cons, List.take_append_of_le_length (by rw [String.length_utf8EncodeChar]; omega)]
      intro hmem
      have hnewline := newline_mem_utf8EncodeChar.mp (List.mem_of_mem_take hmem)
      subst hnewline
      exact hc (Nat.le_add_left 1 n)
    rw [if_neg hbreak]

theorem column_ofOffset {text : String} {n : Nat} (h : n ≤ text.utf8ByteSize) :
    (ofOffset text n).column = sinceBreak ((ofText text).take n) := by
  have hle : n ≤ width text.toList := width_toList text ▸ h
  rw [ofOffset, column_walk _ hle, ofText_eq]
  split
  · rfl
  · rename_i hbreak
    rw [sinceBreak_of_notMem hbreak, List.length_take, length_ofChars, Nat.min_eq_left hle,
      Nat.zero_add]

-- ---------------------------------------------------------------------------
-- Offsets
-- ---------------------------------------------------------------------------

/-- The offset of a position: the lines before it, each with its break, and the column. -/
def toOffset (text : String) (p : Position) : Nat := lengthOfLines text.toList p.line + p.column

/-- A walk stays in its line or comes to a later one, where the column starts anew. -/
theorem walk_cases (p : Position) (cs : List Char) (n : Nat) :
    walk p cs n = ⟨p.line, p.column + n⟩ ∨
      ∃ count, (walk p cs n).line = p.line + (count + 1) ∧
        lengthOfLines cs (count + 1) + (walk p cs n).column = n := by
  fun_induction walk p cs n with
  | case1 => exact .inl rfl
  | case2 => exact .inl rfl
  | case3 p c cs n hc ih =>
    by_cases hbreak : c = '\n'
    · subst hbreak
      have hadvance : p.advance '\n' = ⟨p.line + 1, 0⟩ := if_pos rfl
      have hsize : '\n'.utf8Size = 1 := rfl
      rw [hadvance, hsize, Nat.add_sub_cancel] at ih ⊢
      rcases ih with hstay | ⟨count, hline, hcolumn⟩
      · refine .inr ⟨0, ?_, ?_⟩
        · rw [hstay]
        · rw [hstay, lengthOfLines_break, lengthOfLines_zero, Nat.zero_add, Nat.add_zero,
            Nat.add_comm]
      · refine .inr ⟨count + 1, ?_, ?_⟩
        · rw [hline, Nat.add_assoc, Nat.add_comm 1]
        · rw [lengthOfLines_break, Nat.add_assoc, hcolumn, Nat.add_comm]
    · have hadvance : p.advance c = ⟨p.line, p.column + c.utf8Size⟩ := if_neg hbreak
      rw [hadvance] at ih ⊢
      rcases ih with hstay | ⟨count, hline, hcolumn⟩
      · refine .inl ?_
        rw [hstay, Nat.add_assoc, Nat.add_sub_cancel' hc]
      · refine .inr ⟨count, hline, ?_⟩
        rw [lengthOfLines_cons hbreak, Nat.add_assoc, hcolumn, Nat.add_sub_cancel' hc]
  | case4 => exact .inl rfl

theorem toOffset_ofOffset (text : String) (n : Nat) : (ofOffset text n).toOffset text = n := by
  rcases walk_cases ⟨0, 0⟩ text.toList n with hstay | ⟨count, hline, hcolumn⟩
  · rw [ofOffset, hstay]
    simp [toOffset]
  · rw [toOffset, ofOffset, hline, Nat.zero_add, hcolumn]

-- ---------------------------------------------------------------------------
-- Order
-- ---------------------------------------------------------------------------

theorem not_lt_of_le {p q : Position} (h : p ≤ q) : ¬q < p := by
  rw [le_def] at h
  rw [lt_def]
  omega

theorem ofOffset_lt_iff {text : String} {m n : Nat} : ofOffset text m < ofOffset text n ↔ m < n :=
  ⟨fun h => Nat.lt_of_not_le fun hle => not_lt_of_le (ofOffset_le text hle) h, ofOffset_lt text⟩

theorem ofOffset_le_iff {text : String} {m n : Nat} : ofOffset text m ≤ ofOffset text n ↔ m ≤ n :=
  ⟨fun h => Nat.le_of_not_lt fun hlt => not_lt_of_le h (ofOffset_lt text hlt), ofOffset_le text⟩

end Position

namespace Span

variable {text : String} {a b c d : Nat}

theorem within_ofOffsets :
    (ofOffsets text a b).Within (ofOffsets text c d) ↔ c ≤ a ∧ b ≤ d :=
  and_congr Position.ofOffset_le_iff Position.ofOffset_le_iff

theorem apart_ofOffsets :
    (ofOffsets text a b).Apart (ofOffsets text c d) ↔ b ≤ c ∨ d ≤ a :=
  or_congr Position.ofOffset_le_iff Position.ofOffset_le_iff

end Span

end Mutagen
