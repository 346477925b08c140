import Mathlib
import Mutagen.Proofs.Diff.Lines

/-!
# The diff of a mutant

Wherever a mutant can be put into a text, its diff tells the lines of the text and of the mutated
text apart, and leaves nothing out (`Mutant.diff_tells`).
-/

namespace Mutagen.Mutant

/-- The diff is what the marked lines of both texts show. It is empty only if nothing changes, and
whatever a break ends in it starts with a sign, so that all of it is printed. -/
theorem diff_tells (m : Mutant) {text mutated : String} (h : m.inject? text = some mutated) :
    ∃ marked diff, m.diff? text = some diff ∧ Diff.Shows marked diff.toList ∧
      (Text.Cut (Diff.oldItems marked) text.toList ∧
        (Diff.oldItems marked).flatten = text.toList) ∧
      (Text.Cut (Diff.newItems marked) mutated.toList ∧
        (Diff.newItems marked).flatten = mutated.toList) ∧
      (diff = "" ↔ mutated = text) ∧
      (∀ line ∈ Text.feedLines diff.toList, Diff.Signed line) ∧
      Command.diffLines diff = String.join ((Text.feedLines diff.toList).map fun line =>
        "      " ++ String.ofList (Text.unended line) ++ "\n") := by
  obtain ⟨hold, hnew⟩ := Diff.sides_ofTexts text mutated
  have hsigned : ∀ line ∈ Text.feedLines (Diff.render (Diff.ofTexts text mutated)).toList,
      Diff.Signed line := by
    rw [Diff.render, String.toList_ofList]
    exact Diff.signed_of_mem_feedLines fun p => Diff.feed_notMem_of_mem_ofTexts
  refine ⟨Diff.ofTexts text mutated, Diff.render (Diff.ofTexts text mutated), ?_, ?_, ?_, ?_, ?_,
    hsigned, Diff.diffLines_of_signed hsigned⟩
  · rw [diff?, h]
    rfl
  · rw [Diff.render, String.toList_ofList]
    exact Diff.shows_flatMap _
  · rw [hold]
    exact ⟨Text.cut_lines _, Text.flatten_lines _⟩
  · rw [hnew]
    exact ⟨Text.cut_lines _, Text.flatten_lines _⟩
  · rw [Diff.render_eq_empty_iff]
    constructor
    · intro hkept
      have hlines := Diff.oldItems_eq_newItems hkept
      rw [hold, hnew] at hlines
      have htext := congrArg List.flatten hlines
      rw [Text.flatten_lines, Text.flatten_lines] at htext
      exact (String.toList_inj.mp htext).symm
    · rintro rfl p hp
      exact Diff.kept_of_mem_ofTexts_self _ hp

/-- The ranges of these mutants end before they start, so that a part of the text is there twice. -/
def backward (stop : Nat) : Mutant := ⟨"a.js", ⟨⟨1, 3⟩, ⟨1, 2⟩⟩, 6, stop, "doubling", "", ""⟩

theorem diff_tells_backward :
    (backward 5).inject? "a\r\nb\rc" = some "a\r\nb\rcc" ∧
      (backward 5).diff? "a\r\nb\rc" = some "- c\n+ cc\n" ∧
      (∃ marked, Diff.Shows marked "- c\n+ cc\n".toList ∧
        Text.Cut (Diff.oldItems marked) "a\r\nb\rc".toList ∧
        Text.Cut (Diff.newItems marked) "a\r\nb\rcc".toList) ∧
      Command.diffLines "- c\n+ cc\n" = "      - c\n      + cc\n" ∧
      -- the line that is inserted here has a break of its own
      (backward 3).inject? "a\r\nb\rc" = some "a\r\nb\rcb\rc" ∧
      (backward 3).diff? "a\r\nb\rc" = some "+ cb\r" ∧
      ∃ marked, Diff.Shows marked "+ cb\r".toList ∧
        Text.Cut (Diff.newItems marked) "a\r\nb\rcb\rc".toList := by
  have hdouble : (backward 5).inject? "a\r\nb\rc" = some "a\r\nb\rcc" := by decide +kernel
  have hshown : (backward 5).diff? "a\r\nb\rc" = some "- c\n+ cc\n" := by cbv
  have hdouble' : (backward 3).inject? "a\r\nb\rc" = some "a\r\nb\rcb\rc" := by decide +kernel
  have hshown' : (backward 3).diff? "a\r\nb\rc" = some "+ cb\r" := by cbv
  obtain ⟨marked, diff, hdiff, hshows, ⟨hold, -⟩, ⟨hnew, -⟩, -, -, hprinted⟩ :=
    diff_tells _ hdouble
  obtain rfl := Option.some.inj (hshown.symm.trans hdiff)
  obtain ⟨marked', diff', hdiff', hshows', -, ⟨hnew', -⟩, -⟩ := diff_tells _ hdouble'
  obtain rfl := Option.some.inj (hshown'.symm.trans hdiff')
  refine ⟨hdouble, hshown, ⟨marked, hshows, hold, hnew⟩, ?_, hdouble', hshown',
    marked', hshows', hnew'⟩
  rw [hprinted]
  decide +kernel

end Mutagen.Mutant
