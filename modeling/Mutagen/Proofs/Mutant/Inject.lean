import Mutagen.Mutant.Basic
import Mutagen.Proofs.Text.Between

/-!
# Mutants in their text

A mutant that records what stands in its range can be put into the text, and what it replaced can
be put back (`fits_of_slice?`).
-/

namespace Mutagen

namespace Text

variable {text : String} {first rest : List Char}

theorem before?_eq (h : text.toList = first ++ rest) :
    before? text (width first) = some (String.ofList first) := by
  rw [before?, splitAt?_eq_some_iff.mpr ⟨h, rfl⟩]
  rfl

theorem from?_eq (h : text.toList = first ++ rest) :
    from? text (width first) = some (String.ofList rest) := by
  rw [from?, splitAt?_eq_some_iff.mpr ⟨h, rfl⟩]
  rfl

end Text

namespace Mutant

open Text

/-- The mutant that puts back what another one has replaced, in the text with that one in it. -/
def inverse (m : Mutant) : Mutant :=
  { m with
    stop := m.start + m.replacement.utf8ByteSize
    removed := m.replacement
    replacement := m.removed }

/-- The range of a mutant is a range of the text and holds what the mutant removes. It can be
replaced, and restored after that. -/
structure Fits (m : Mutant) (text : String) : Prop where
  le : m.start ≤ m.stop
  le_size : m.stop ≤ text.utf8ByteSize
  cut : IsCut text m.start ∧ IsCut text m.stop
  removed : slice? text m.start m.stop = some m.removed
  restores : ∃ mutated, m.inject? text = some mutated ∧ m.inverse.inject? mutated = some text

variable {m : Mutant} {text : String} {first rest : List Char}

theorem inject?_eq (h : text.toList = first ++ m.removed.toList ++ rest)
    (hstart : width first = m.start) (hstop : m.start + width m.removed.toList = m.stop) :
    m.inject? text = some (String.ofList (first ++ m.replacement.toList ++ rest)) := by
  have hbefore : before? text m.start = some (String.ofList first) := by
    rw [← hstart]
    exact before?_eq (by rw [h, List.append_assoc])
  have hafter : from? text m.stop = some (String.ofList rest) := by
    rw [← hstop, ← hstart, ← width_append]
    exact from?_eq h
  simp [inject?, hbefore, hafter, String.ofList_append, String.append_assoc]

theorem inverse_inject?_eq (h : text.toList = first ++ m.removed.toList ++ rest)
    (hstart : width first = m.start) :
    m.inverse.inject? (String.ofList (first ++ m.replacement.toList ++ rest)) = some text := by
  have hstop : m.start + width m.replacement.toList = m.inverse.stop := by
    rw [width_toList]
    rfl
  have hback : m.inverse.inject? (String.ofList (first ++ m.replacement.toList ++ rest)) =
      some (String.ofList (first ++ m.removed.toList ++ rest)) :=
    inject?_eq String.toList_ofList hstart hstop
  rw [hback, ← h, String.ofList_toList]

theorem fits_of_slice? (h : slice? text m.start m.stop = some m.removed) : m.Fits text := by
  obtain ⟨first, rest, he, hstart, hstop⟩ := slice?_eq_some_iff.mp h
  have hcut : IsCut text m.stop := by
    refine isCut_iff.mpr ⟨first ++ m.removed.toList, rest, he, ?_⟩
    rw [width_append, hstart, hstop]
  exact {
    le := hstop ▸ Nat.le_add_right ..
    le_size := width_toList text ▸ hcut.le_width
    cut := ⟨isCut_iff.mpr ⟨first, _, he.trans (List.append_assoc ..), hstart⟩, hcut⟩
    removed := h
    restores := ⟨_, inject?_eq he hstart hstop, inverse_inject?_eq he hstart⟩ }

/-- The mutant that replaces a node fits the text, at the range of the node. -/
theorem fits_of_ofSite? {file operator replacement : String} {site : Site}
    (h : ofSite? file operator text site replacement = some m) :
    m.file = file ∧ m.operator = operator ∧ m.start = site.start ∧ m.stop = site.stop ∧
      m.replacement = replacement ∧ m.Fits text := by
  obtain ⟨removed, hr, hm⟩ := Option.bind_eq_some_iff.mp h
  cases hm
  exact ⟨rfl, rfl, rfl, rfl, rfl, fits_of_slice? hr⟩

end Mutant

end Mutagen
