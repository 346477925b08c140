import Mutagen.Text.Slice

/-!
# The text between two offsets

Cuts exist at the character boundaries of a text. Between cuts the pieces of a text fit together
(`between_append`).
-/

namespace Mutagen.Text

def IsCut (text : String) (offset : Nat) : Prop := (splitAt? text.toList offset).isSome = true

instance (text : String) (offset : Nat) : Decidable (IsCut text offset) :=
  inferInstanceAs (Decidable (_ = true))

def between (text : String) (start stop : Nat) : List Char :=
  ((slice? text start stop).getD "").toList

variable {text : String} {m n k : Nat}

theorem isCut_iff : IsCut text n ↔ ∃ before after, text.toList = before ++ after ∧ width before = n := by
  rw [IsCut, Option.isSome_iff_exists]
  constructor
  · rintro ⟨⟨before, after⟩, h⟩
    exact ⟨before, after, splitAt?_eq_some_iff.mp h⟩
  · rintro ⟨before, after, h⟩
    exact ⟨(before, after), splitAt?_eq_some_iff.mpr h⟩

theorem isCut_zero (text : String) : IsCut text 0 := isCut_iff.mpr ⟨[], text.toList, rfl, rfl⟩

theorem isCut_width (text : String) : IsCut text (width text.toList) :=
  isCut_iff.mpr ⟨text.toList, [], by simp, rfl⟩

theorem IsCut.le_width (h : IsCut text n) : n ≤ width text.toList := by
  obtain ⟨before, after, he, rfl⟩ := isCut_iff.mp h
  rw [he, width_append]
  exact Nat.le_add_right ..

theorem eq_nil_of_width {cs : List Char} (h : width cs = 0) : cs = [] := by
  cases cs with
  | nil => rfl
  | cons c cs =>
    have hpos := c.utf8Size_pos
    rw [width_cons] at h
    omega

theorem width_toList (text : String) : width text.toList = text.utf8ByteSize := by
  have hchars : ∀ cs, width cs = (String.ofList cs).utf8ByteSize := by
    intro cs
    induction cs with
    | nil => rfl
    | cons c cs ih =>
      rw [width_cons, ih, ← List.singleton_append, String.ofList_append, String.utf8ByteSize_append]
      simp
  rw [hchars, String.ofList_toList]

theorem exists_middle {first rest first' rest' : List Char} (h : first ++ rest = first' ++ rest')
    (hw : width first ≤ width first') : ∃ middle, first' = first ++ middle ∧ rest = middle ++ rest' := by
  rcases List.append_eq_append_iff.mp h with ⟨middle, hf, hr⟩ | ⟨middle, hf, hr⟩
  · exact ⟨middle, hf, hr⟩
  · rw [hf, width_append] at hw
    obtain rfl : middle = [] := eq_nil_of_width (by omega)
    exact ⟨[], by simpa using hf.symm, by simpa using hr.symm⟩

theorem slice?_eq {first middle rest : List Char} (h : text.toList = first ++ middle ++ rest) :
    slice? text (width first) (width first + width middle) = some (String.ofList middle) := by
  have hfirst : splitAt? text.toList (width first) = some (first, middle ++ rest) :=
    splitAt?_eq_some_iff.mpr ⟨by simpa using h, rfl⟩
  simp [slice?, hfirst, splitAt?_append]

theorem slice?_eq_some_iff {piece : String} : slice? text m n = some piece ↔
    ∃ first rest, text.toList = first ++ piece.toList ++ rest ∧ width first = m ∧
      m + width piece.toList = n := by
  constructor
  · intro h
    unfold slice? at h
    split at h
    · rename_i hle
      cases hfirst : splitAt? text.toList m with
      | none => simp [hfirst] at h
      | some outer =>
        cases hmiddle : splitAt? outer.2 (n - m) with
        | none => simp [hfirst, hmiddle] at h
        | some inner =>
          obtain rfl : String.ofList inner.1 = piece := by simpa [hfirst, hmiddle] using h
          obtain ⟨he, hw⟩ := splitAt?_sound hfirst
          obtain ⟨he', hw'⟩ := splitAt?_sound hmiddle
          refine ⟨outer.1, inner.2, by simp [he, ← he'], hw, ?_⟩
          rw [String.toList_ofList, hw']
          exact Nat.add_sub_cancel' hle
    · cases h
  · rintro ⟨first, rest, he, rfl, rfl⟩
    simpa using slice?_eq he

/-- The text has these bytes in that range. -/
def IsSlice (text : String) (start stop : Nat) (piece : String) : Prop :=
  ∃ before after, text = before ++ piece ++ after ∧ before.utf8ByteSize = start ∧
    start + piece.utf8ByteSize = stop

theorem isSlice_iff {piece : String} : IsSlice text m n piece ↔ slice? text m n = some piece := by
  rw [slice?_eq_some_iff]
  constructor
  · rintro ⟨before, after, rfl, rfl, rfl⟩
    exact ⟨before.toList, after.toList, by simp, width_toList before, by rw [width_toList]⟩
  · rintro ⟨first, rest, he, rfl, rfl⟩
    refine ⟨String.ofList first, String.ofList rest, ?_, ?_, ?_⟩
    · simp [← String.toList_inj, he]
    · rw [← width_toList, String.toList_ofList]
    · rw [width_toList]

theorem exists_slice? (hm : IsCut text m) (hn : IsCut text n) (h : m ≤ n) :
    ∃ piece, slice? text m n = some piece := by
  obtain ⟨first, rest, he, rfl⟩ := isCut_iff.mp hm
  obtain ⟨first', rest', he', rfl⟩ := isCut_iff.mp hn
  obtain ⟨middle, rfl, rfl⟩ := exists_middle (he.symm.trans he') h
  rw [width_append]
  exact ⟨_, slice?_eq he'⟩

theorem between_eq {first middle rest : List Char} (h : text.toList = first ++ middle ++ rest) :
    between text (width first) (width first + width middle) = middle := by
  simp [between, slice?_eq h]

theorem width_between (hm : IsCut text m) (hn : IsCut text n) (h : m ≤ n) :
    width (between text m n) = n - m := by
  obtain ⟨first, rest, he, rfl⟩ := isCut_iff.mp hm
  obtain ⟨first', rest', he', rfl⟩ := isCut_iff.mp hn
  obtain ⟨middle, rfl, rfl⟩ := exists_middle (he.symm.trans he') h
  rw [width_append, between_eq he', Nat.add_sub_cancel_left]

@[simp] theorem between_self (text : String) (n : Nat) : between text n n = [] := by
  unfold between slice?
  cases splitAt? text.toList n <;> simp

theorem between_append (hm : IsCut text m) (hn : IsCut text n) (hk : IsCut text k) (hmn : m ≤ n)
    (hnk : n ≤ k) : between text m n ++ between text n k = between text m k := by
  obtain ⟨first, rest, he, rfl⟩ := isCut_iff.mp hm
  obtain ⟨first', rest', he', rfl⟩ := isCut_iff.mp hn
  obtain ⟨first'', rest'', he'', rfl⟩ := isCut_iff.mp hk
  obtain ⟨middle, rfl, rfl⟩ := exists_middle (he.symm.trans he') hmn
  obtain ⟨middle', rfl, rfl⟩ := exists_middle (he'.symm.trans he'') hnk
  have hleft := between_eq he'
  have hright := between_eq he''
  have hwhole : text.toList = first ++ (middle ++ middle') ++ rest'' := by simpa using he
  have hboth := between_eq hwhole
  rw [← width_append] at hleft hright hboth
  rw [hleft, hright, List.append_assoc first, hboth]

end Mutagen.Text
