import Mathlib.Data.List.Basic
import Mathlib.Data.List.TakeWhile
import Mutagen.Text.Blank

/-!
# Trimmed texts

Trimming takes the white space off both ends of a text and leaves the rest as it is, and what is
left is the only text of which this is true (`trimmed_iff`).
-/

namespace Mutagen.Text

def blanks : List Char :=
  ['\t', '\n', '\u000b', '\u000c', '\r', ' ', '\u0085', '\u00a0', '\u1680', '\u2000', '\u2001',
    '\u2002', '\u2003', '\u2004', '\u2005', '\u2006', '\u2007', '\u2008', '\u2009', '\u200a',
    '\u2028', '\u2029', '\u202f', '\u205f', '\u3000']

theorem isBlank_iff {c : Char} : isBlank c = true ↔ c ∈ blanks := by
  have heq (d : Char) : c = d ↔ c.toNat = d.toNat := Char.toNat_inj.symm
  have hle (d : Char) : c ≤ d ↔ c.toNat ≤ d.toNat := Iff.rfl
  have hge (d : Char) : d ≤ c ↔ d.toNat ≤ c.toNat := Iff.rfl
  simp only [isBlank, blanks, Bool.or_eq_true, Bool.and_eq_true, decide_eq_true_eq, beq_iff_eq,
    List.mem_cons, List.not_mem_nil, or_false, heq, hle, hge, Char.reduceToNat]
  omega

/-- What is shown of a text without the white space at its ends. -/
structure Trimmed (text shown : String) : Prop where
  parts : ∃ before after, text.toList = before ++ shown.toList ++ after ∧
    (∀ c ∈ before, c ∈ blanks) ∧ ∀ c ∈ after, c ∈ blanks
  first : ∀ c ∈ shown.toList.head?, c ∉ blanks
  last : ∀ c ∈ shown.toList.getLast?, c ∉ blanks

variable {text shown : String} {cs : List Char}

-- ---------------------------------------------------------------------------
-- Ends without white space
-- ---------------------------------------------------------------------------

theorem dropWhile_blank (h : ∀ c ∈ cs, c ∈ blanks) : cs.dropWhile isBlank = [] := by
  rw [List.dropWhile_eq_nil_iff]
  exact fun c hc => isBlank_iff.mpr (h c hc)

theorem dropWhile_append_blank {before : List Char} (h : ∀ c ∈ before, c ∈ blanks) :
    (before ++ cs).dropWhile isBlank = cs.dropWhile isBlank :=
  List.dropWhile_append_of_pos fun c hc => isBlank_iff.mpr (h c hc)

theorem dropWhile_eq_self (h : ∀ c ∈ cs.head?, c ∉ blanks) : cs.dropWhile isBlank = cs := by
  cases cs with
  | nil => rfl
  | cons c cs => exact List.dropWhile_cons_of_neg fun hc => h c rfl (isBlank_iff.mp hc)

theorem head?_dropWhile (cs : List Char) : ∀ c ∈ (cs.dropWhile isBlank).head?, c ∉ blanks := by
  intro c hc hmem
  have hnot := List.head?_dropWhile_not isBlank cs
  rw [Option.mem_def.mp hc] at hnot
  simp [isBlank_iff.mpr hmem] at hnot

theorem exists_dropWhile (cs : List Char) :
    ∃ before, cs = before ++ cs.dropWhile isBlank ∧ ∀ c ∈ before, c ∈ blanks :=
  ⟨cs.takeWhile isBlank, List.takeWhile_append_dropWhile.symm, fun _ hc =>
    isBlank_iff.mp (List.mem_takeWhile_imp hc)⟩

-- ---------------------------------------------------------------------------
-- Trimming
-- ---------------------------------------------------------------------------

theorem trimmed_trim (text : String) : Trimmed text (trim text) := by
  obtain ⟨before, hbefore, hblank⟩ := exists_dropWhile text.toList
  have hfirst := head?_dropWhile text.toList
  generalize hinner : text.toList.dropWhile isBlank = inner at hbefore hfirst
  obtain ⟨after, hafter, hblank'⟩ := exists_dropWhile inner.reverse
  have hlast := head?_dropWhile inner.reverse
  generalize hkept : inner.reverse.dropWhile isBlank = kept at hafter hlast
  have hparts : inner = kept.reverse ++ after.reverse := by
    rw [← List.reverse_append, ← hafter, List.reverse_reverse]
  have htrim : (trim text).toList = kept.reverse := by
    simp [trim, hinner, hkept]
  refine ⟨⟨before, after.reverse, ?_, hblank, ?_⟩, ?_, ?_⟩
  · rw [htrim, List.append_assoc, ← hparts]
    exact hbefore
  · simpa using hblank'
  · rw [htrim]
    intro c hc
    refine hfirst c ?_
    rw [hparts]
    exact List.mem_head?_append_of_mem_head? hc
  · rw [htrim, List.getLast?_reverse]
    exact hlast

theorem trimmed_iff : Trimmed text shown ↔ shown = trim text := by
  constructor
  · rintro ⟨⟨before, after, hparts, hbefore, hafter⟩, hfirst, hlast⟩
    have hlast' : ∀ c ∈ shown.toList.reverse.head?, c ∉ blanks := by
      rwa [List.head?_reverse]
    have hafter' : ∀ c ∈ after.reverse, c ∈ blanks := by simpa using hafter
    rw [← String.toList_inj, trim, hparts, List.append_assoc, dropWhile_append_blank hbefore,
      String.toList_ofList]
    by_cases hshown : shown.toList = []
    · simp [hshown, dropWhile_blank hafter]
    · have hinner : ∀ c ∈ (shown.toList ++ after).head?, c ∉ blanks := by
        rwa [List.head?_append_of_ne_nil _ hshown]
      rw [dropWhile_eq_self hinner, List.reverse_append, dropWhile_append_blank hafter',
        dropWhile_eq_self hlast', List.reverse_reverse]
  · rintro rfl
    exact trimmed_trim text

end Mutagen.Text
