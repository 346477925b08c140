/-!
# Text in bytes

Reading bytes as UTF-8, and saying where and how bytes stop being UTF-8.
-/

namespace Mutagen

abbrev Bytes := List UInt8

/-- Where bytes stop being UTF-8: the length of the valid part, and the number of bytes that form
no character, unless the bytes end inside a character that was sound so far. -/
structure EncodingError where
  validUpTo : Nat
  invalid : Option Nat
  deriving BEq, DecidableEq, Repr

namespace EncodingError

def message (e : EncodingError) : String :=
  match e.invalid with
  | some n => s!"invalid utf-8 sequence of {n} bytes from index {e.validUpTo}"
  | none => s!"incomplete utf-8 byte sequence from index {e.validUpTo}"

def following? (b : UInt8) : Option (List (UInt8 × UInt8)) :=
  let tail : UInt8 × UInt8 := (0x80, 0xBF)
  if b ≤ 0x7F then some []
  else if 0xC2 ≤ b ∧ b ≤ 0xDF then some [tail]
  else if b = 0xE0 then some [(0xA0, 0xBF), tail]
  else if b = 0xED then some [(0x80, 0x9F), tail]
  else if 0xE1 ≤ b ∧ b ≤ 0xEF then some [tail, tail]
  else if b = 0xF0 then some [(0x90, 0xBF), tail, tail]
  else if 0xF1 ≤ b ∧ b ≤ 0xF3 then some [tail, tail, tail]
  else if b = 0xF4 then some [(0x80, 0x8F), tail, tail]
  else none

/-- Looks for the first fault, `pending` bytes into a character that starts at `valid` and still
needs bytes in the ranges `due`. -/
def find? (valid pending : Nat) (due : List (UInt8 × UInt8)) : Bytes → Option EncodingError
  | [] => if pending = 0 then none else some ⟨valid, none⟩
  | b :: bytes =>
    match due with
    | [] =>
      match following? b with
      | none => some ⟨valid, some 1⟩
      | some [] => find? (valid + 1) 0 [] bytes
      | some due => find? valid 1 due bytes
    | [(low, high)] =>
      if low ≤ b ∧ b ≤ high then find? (valid + pending + 1) 0 [] bytes
      else some ⟨valid, some pending⟩
    | (low, high) :: due =>
      if low ≤ b ∧ b ≤ high then find? valid (pending + 1) due bytes
      else some ⟨valid, some pending⟩

def ofBytes (bytes : Bytes) : EncodingError := (find? 0 0 [] bytes).getD ⟨0, none⟩

end EncodingError

namespace Bytes

def ofText (text : String) : Bytes := text.toByteArray.data.toList

def toText (bytes : Bytes) : Except EncodingError String :=
  match String.fromUTF8? bytes.toByteArray with
  | some text => .ok text
  | none => .error (.ofBytes bytes)

theorem toText_eq_ok_iff {bytes : Bytes} {text : String} :
    toText bytes = .ok text ↔ bytes = ofText text := by
  constructor
  · intro h
    unfold toText String.fromUTF8? at h
    split at h
    · rename_i found hf
      split at hf
      · cases hf
        cases h
        simp [ofText, String.fromUTF8]
      · simp at hf
    · simp at h
  · rintro rfl
    have same : (ofText text).toByteArray = text.toByteArray := by
      apply ByteArray.ext
      simp [ofText, List.data_toByteArray]
    have sound : (ofText text).toByteArray.IsValidUTF8 := same ▸ text.isValidUTF8
    unfold toText String.fromUTF8?
    rw [dif_pos sound]
    simp only [String.fromUTF8, Except.ok.injEq]
    rw [← String.toByteArray_inj]
    exact same

end Bytes

end Mutagen
