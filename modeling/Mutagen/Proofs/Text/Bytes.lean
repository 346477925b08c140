import Mutagen.Proofs.Text.Between
import Mutagen.Text.Encoding
import Mutagen.Text.Position

/-!
# Texts as bytes

The bytes of a text are those of its characters, one after the other. A line break is one byte
that no other character has in it, so the line of an offset is the number of such bytes before it
(`Position.line_ofOffset`).
-/

namespace Mutagen

namespace Bytes

def ofChars (cs : List Char) : Bytes := cs.flatMap String.utf8EncodeChar

@[simp] theorem ofChars_nil : ofChars [] = [] := rfl

@[simp] theorem ofChars_cons (c : Char) (cs : List Char) :
    ofChars (c :: cs) = String.utf8EncodeChar c ++ ofChars cs := rfl

@[simp] theorem ofChars_append (first second : List Char) :
    ofChars (first ++ second) = ofChars first ++ ofChars second := List.flatMap_append

theorem ofText_ofList (cs : List Char) : ofText (String.ofList cs) = ofChars cs := by
  simp [ofText, ofChars, String.toByteArray_ofList, List.utf8Encode]

theorem ofText_eq (text : String) : ofText text = ofChars text.toList := by
  rw [← ofText_ofList, String.ofList_toList]

theorem ofText_inj {text text' : String} (h : ofText text = ofText text') : text = text' :=
  Except.ok.inj ((toText_eq_ok_iff.mpr rfl).symm.trans (toText_eq_ok_iff.mpr h))

theorem length_ofChars (cs : List Char) : (ofChars cs).length = Text.width cs := by
  induction cs with
  | nil => rfl
  | cons c cs ih => simp [ih]

theorem length_ofText (text : String) : (ofText text).length = text.utf8ByteSize := by
  rw [ofText_eq, length_ofChars, Text.width_toList]

theorem ofChars_between {text : String} {m n : Nat} (hm : Text.IsCut text m)
    (hn : Text.IsCut text n) (h : m ≤ n) :
    ofChars (Text.between text m n) = ((ofText text).drop m).take (n - m) := by
  obtain ⟨first, rest, he, rfl⟩ := Text.isCut_iff.mp hm
  obtain ⟨first', rest', he', rfl⟩ := Text.isCut_iff.mp hn
  obtain ⟨middle, rfl, rfl⟩ := Text.exists_middle (he.symm.trans he') h
  rw [Text.width_append, Text.between_eq he', ofText_eq, he', Nat.add_sub_cancel_left,
    ← length_ofChars first, ← length_ofChars middle]
  simp

-- ---------------------------------------------------------------------------
-- Line breaks
-- ---------------------------------------------------------------------------

abbrev newline : UInt8 := 10

/-- Bytes of a character that takes several of them have their highest bit set. -/
theorem high_of_mem_utf8EncodeChar {c : Char} (hc : 127 < c.val.toNat) {b : UInt8}
    (h : b ∈ String.utf8EncodeChar c) : 128 ≤ b.toNat := by
  have hbyte : ∀ n, 128 ≤ n → n < 256 → b = UInt8.ofNat n → 128 ≤ b.toNat := by
    rintro n hle hlt rfl
    rw [UInt8.toNat_ofNat', Nat.mod_eq_of_lt hlt]
    exact hle
  unfold String.utf8EncodeChar at h
  dsimp only at h
  rw [if_neg (by omega)] at h
  split at h
  · simp only [List.mem_cons, List.not_mem_nil, or_false] at h
    rcases h with h | h <;> exact hbyte _ (by omega) (by omega) h
  · split at h
    · simp only [List.mem_cons, List.not_mem_nil, or_false] at h
      rcases h with h | h | h <;> exact hbyte _ (by omega) (by omega) h
    · simp only [List.mem_cons, List.not_mem_nil, or_false] at h
      rcases h with h | h | h | h <;> exact hbyte _ (by omega) (by omega) h

theorem newline_mem_utf8EncodeChar {c : Char} :
    newline ∈ String.utf8EncodeChar c ↔ c = '\n' := by
  constructor
  · intro h
    by_cases hc : 127 < c.val.toNat
    · exact absurd (high_of_mem_utf8EncodeChar hc h) (by decide)
    · have hbyte : newline = UInt8.ofNat c.val.toNat := by
        unfold String.utf8EncodeChar at h
        dsimp only at h
        rw [if_pos (by omega)] at h
        exact List.mem_singleton.mp h
      have hval : c.val.toNat = 10 := by
        have hnat := congrArg UInt8.toNat hbyte
        rw [UInt8.toNat_ofNat', Nat.mod_eq_of_lt (by omega)] at hnat
        exact hnat.symm
      exact Char.ext (UInt32.toNat.inj hval)
  · rintro rfl
    decide

theorem newline_mem_ofText {text : String} : newline ∈ ofText text ↔ '\n' ∈ text.toList := by
  simp [ofText_eq, ofChars, newline_mem_utf8EncodeChar]

theorem count_newline_char (c : Char) :
    (String.utf8EncodeChar c).count newline = if c = '\n' then 1 else 0 := by
  split
  · rename_i h
    subst h
    rfl
  · rename_i h
    exact List.count_eq_zero.mpr (mt newline_mem_utf8EncodeChar.mp h)

theorem count_newline_ofChars (cs : List Char) : (ofChars cs).count newline = cs.count '\n' := by
  induction cs with
  | nil => rfl
  | cons c cs ih =>
    rw [ofChars_cons, List.count_append, count_newline_char, ih, List.count_cons]
    simp [Nat.add_comm]

end Bytes

namespace Position

open Bytes

theorem line_advance (p : Position) (c : Char) :
    (p.advance c).line = p.line + (String.utf8EncodeChar c).count newline := by
  rw [count_newline_char, advance]
  split <;> rfl

theorem line_walk (p : Position) (cs : List Char) (n : Nat) :
    (walk p cs n).line = p.line + ((ofChars cs).take n).count newline := by
  fun_induction walk p cs n with
  | case1 => simp
  | case2 => simp
  | case3 p c cs n h ih =>
    have hchar : (String.utf8EncodeChar c).take (n + 1) = String.utf8EncodeChar c :=
      List.take_of_length_le (by rwa [String.length_utf8EncodeChar])
    rw [ih, line_advance, ofChars_cons, List.take_append, String.length_utf8EncodeChar, hchar,
      List.count_append, Nat.add_assoc]
  | case4 p c cs n h =>
    -- the offset is inside a character of several bytes
    have hc : c ≠ '\n' := by
      rintro rfl
      exact h (Nat.le_add_left 1 n)
    have hchar : newline ∉ (String.utf8EncodeChar c).take (n + 1) :=
      fun hmem => hc (newline_mem_utf8EncodeChar.mp (List.mem_of_mem_take hmem))
    have hlength : n + 1 ≤ (String.utf8EncodeChar c).length := by
      rw [String.length_utf8EncodeChar]
      omega
    rw [ofChars_cons, List.take_append_of_le_length hlength, List.count_eq_zero.mpr hchar]
    rfl

theorem line_ofOffset (text : String) (n : Nat) :
    (ofOffset text n).line = ((ofText text).take n).count newline := by
  rw [ofOffset, line_walk, ofText_eq, Nat.zero_add]

theorem line_ofOffset_mono (text : String) {m n : Nat} (h : m ≤ n) :
    (ofOffset text m).line ≤ (ofOffset text n).line := by
  rw [line_ofOffset, line_ofOffset]
  exact (List.take_sublist_take_left h).count_le newline

theorem line_ofOffset_le (text : String) (n : Nat) :
    (ofOffset text n).line ≤ text.toList.count '\n' := by
  rw [line_ofOffset, ← count_newline_ofChars, ← ofText_eq]
  exact (List.take_sublist ..).count_le newline

end Position

end Mutagen
