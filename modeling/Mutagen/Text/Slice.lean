/-!
# Slices of a text by byte offsets

Offsets count bytes of the UTF-8 form. A cut exists only at a character boundary: inside a
character or beyond the end there is none. `splitAt?_eq_some_iff` pins the cut down.
-/

namespace Mutagen.Text

def width : List Char → Nat
  | [] => 0
  | c :: cs => c.utf8Size + width cs

def splitAt? : List Char → Nat → Option (List Char × List Char)
  | cs, 0 => some ([], cs)
  | [], _ + 1 => none
  | c :: cs, offset + 1 =>
    if c.utf8Size ≤ offset + 1 then
      (splitAt? cs (offset + 1 - c.utf8Size)).map fun parts => (c :: parts.1, parts.2)
    else none

def before? (text : String) (offset : Nat) : Option String :=
  (splitAt? text.toList offset).map fun parts => String.ofList parts.1

def from? (text : String) (offset : Nat) : Option String :=
  (splitAt? text.toList offset).map fun parts => String.ofList parts.2

def slice? (text : String) (start stop : Nat) : Option String :=
  if start ≤ stop then do
    let (_, rest) ← splitAt? text.toList start
    let (middle, _) ← splitAt? rest (stop - start)
    return String.ofList middle
  else none

-- ---------------------------------------------------------------------------
-- The cut
-- ---------------------------------------------------------------------------

@[simp] theorem width_nil : width [] = 0 := rfl

@[simp] theorem width_cons (c : Char) (cs : List Char) : width (c :: cs) = c.utf8Size + width cs :=
  rfl

@[simp] theorem width_append (first second : List Char) :
    width (first ++ second) = width first + width second := by
  induction first with
  | nil => simp
  | cons c cs ih => simp [ih, Nat.add_assoc]

@[simp] theorem splitAt?_zero (cs : List Char) : splitAt? cs 0 = some ([], cs) := by
  cases cs <;> rfl

theorem splitAt?_append (first second : List Char) :
    splitAt? (first ++ second) (width first) = some (first, second) := by
  induction first with
  | nil => simp
  | cons c cs ih =>
    have positive := c.utf8Size_pos
    obtain ⟨n, hn⟩ : ∃ n, c.utf8Size + width cs = n + 1 := ⟨c.utf8Size + width cs - 1, by omega⟩
    have rest : n + 1 - c.utf8Size = width cs := by omega
    simp only [List.cons_append, width_cons, hn, splitAt?, rest, ih]
    simp [show c.utf8Size ≤ n + 1 by omega]

theorem splitAt?_sound {cs before after : List Char} {offset : Nat}
    (h : splitAt? cs offset = some (before, after)) :
    cs = before ++ after ∧ width before = offset := by
  induction cs generalizing offset before after with
  | nil => cases offset <;> simp_all [splitAt?]
  | cons c cs ih =>
    cases offset with
    | zero => simp_all
    | succ offset =>
      simp only [splitAt?] at h
      split at h
      · obtain ⟨⟨head, tail⟩, hs, he⟩ := Option.map_eq_some_iff.1 h
        obtain ⟨rfl, hw⟩ := ih hs
        simp only [Prod.mk.injEq] at he
        obtain ⟨rfl, rfl⟩ := he
        exact ⟨rfl, by simp only [width_cons]; omega⟩
      · simp at h

theorem splitAt?_eq_some_iff {cs before after : List Char} {offset : Nat} :
    splitAt? cs offset = some (before, after) ↔ cs = before ++ after ∧ width before = offset := by
  refine ⟨splitAt?_sound, ?_⟩
  rintro ⟨rfl, rfl⟩
  exact splitAt?_append before after

end Mutagen.Text
