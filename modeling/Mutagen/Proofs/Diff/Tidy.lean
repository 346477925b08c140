import Mutagen.Diff.Shift
import Mutagen.Proofs.Diff.Shortest

/-!
# Tidying keeps the sides

However far edits are moved, a tidied script leads where the script led before (`same_tidy`). A
move is a chain of four small steps, each of which keeps both sides (`Same`).
-/

namespace Mutagen.Diff

variable {α : Type}

namespace Script

structure Same (first second : Script α) : Prop where
  source : first.source = second.source
  target : first.target = second.target

namespace Same

variable {first second third : Script α}

theorem refl (s : Script α) : Same s s := ⟨rfl, rfl⟩

theorem symm (h : Same first second) : Same second first := ⟨h.source.symm, h.target.symm⟩

theorem trans (h : Same first second) (h' : Same second third) : Same first third :=
  ⟨h.source.trans h'.source, h.target.trans h'.target⟩

theorem inside (before : List (Edit α)) (after : Script α) (h : Same first second) :
    Same (before.reverse ++ (first ++ after)) (before.reverse ++ (second ++ after)) where
  source := by simp only [source_append, h.source]
  target := by simp only [target_append, h.target]

-- ---------------------------------------------------------------------------
-- Steps
-- ---------------------------------------------------------------------------

theorem nothing (mark : Mark) : Same ([] : Script α) [⟨mark, []⟩] := by
  constructor <;> simp [Script.source, Script.target]

theorem join (mark : Mark) (a b : List α) : Same [⟨mark, a ++ b⟩] [⟨mark, a⟩, ⟨mark, b⟩] := by
  constructor <;> simp only [Script.source, Script.target] <;> split <;> simp

/-- Deletions and insertions do not get into each other's way. -/
theorem swap {e : Edit α} {mark : Mark} (he : e.mark ≠ .kept) (hmark : mark ≠ .kept)
    (hne : e.mark ≠ mark) (items : List α) : Same [⟨mark, items⟩, e] [e, ⟨mark, items⟩] := by
  obtain ⟨other, more⟩ := e
  cases mark <;> cases other <;> first | contradiction | skip
  all_goals constructor <;> simp [Script.source, Script.target]

/-- An insertion slides over kept items that it repeats. -/
theorem slide (moved rest : List α) :
    Same [⟨.inserted, moved ++ rest⟩, ⟨.kept, moved⟩] [⟨.kept, moved⟩, ⟨.inserted, rest ++ moved⟩] := by
  constructor <;> simp [Script.source, Script.target]

end Same

end Script

-- ---------------------------------------------------------------------------
-- Moves
-- ---------------------------------------------------------------------------

open Script

def Gap.filled (g : Gap α) (mark : Mark) : Script α := g.before.reverse ++ ⟨mark, g.items⟩ :: g.after

theorem same_keepBefore (items : List α) (after : List (Edit α)) :
    Same (keepBefore items after) (⟨.kept, items⟩ :: after) := by
  unfold keepBefore
  split
  · exact (Same.join .kept items _).inside [] _
  · exact .refl _

theorem same_keepAfter (items : List α) (before : List (Edit α)) :
    Same (keepAfter items before).reverse (before.reverse ++ [⟨.kept, items⟩]) := by
  unfold keepAfter
  split
  · rename_i more rest
    simpa using (Same.join .kept more items).inside rest []
  · rw [List.reverse_cons]
    exact .refl _

theorem filled_cons (e : Edit α) (before : List (Edit α)) (items : List α) (after : List (Edit α))
    (mark : Mark) : Gap.filled ⟨e :: before, items, after⟩ mark =
      before.reverse ++ ([e, ⟨mark, items⟩] ++ after) := by
  simp [Gap.filled]

theorem same_slideUp (before : List (Edit α)) (moved fixed : List α) (after : List (Edit α)) :
    Same (Gap.filled ⟨before, moved ++ fixed, keepBefore moved after⟩ .inserted)
      (before.reverse ++ ([⟨.kept, moved⟩, ⟨.inserted, fixed ++ moved⟩] ++ after)) := by
  refine .trans ?_ ((Same.slide moved fixed).inside before after)
  have hkeep := (same_keepBefore moved after).inside (⟨.inserted, moved ++ fixed⟩ :: before) []
  simpa [Gap.filled] using hkeep

theorem same_slideDown (before : List (Edit α)) (moved fixed : List α) (after : List (Edit α)) :
    Same (Gap.filled ⟨keepAfter moved before, fixed ++ moved, after⟩ .inserted)
      (before.reverse ++ ([⟨.inserted, moved ++ fixed⟩, ⟨.kept, moved⟩] ++ after)) := by
  refine .trans ?_ ((Same.slide moved fixed).symm.inside before after)
  have hkeep := (same_keepAfter moved before).inside [] (⟨.inserted, fixed ++ moved⟩ :: after)
  simpa [Gap.filled] using hkeep

section Shifts

variable [DecidableEq α] {mark : Mark}

/-- Only insertions slide, and over no more than they repeat. -/
theorem slide_cases {common : Nat} (h : slide mark common ≠ 0) :
    mark = .inserted ∧ slide mark common = common := by
  unfold slide at h ⊢
  split at h
  · rename_i hmark
    exact ⟨hmark, if_pos hmark⟩
  · exact absurd rfl h

theorem slideUp_parts {e : Edit α} {items : List α} (hkept : ¬e.mark ≠ .kept)
    (h : slide mark (sharedEnd e.items items) ≠ 0) :
    let n := slide mark (sharedEnd e.items items)
    mark = .inserted ∧ e = ⟨.kept, e.items.take (e.items.length - n) ++ items.drop (items.length - n)⟩ := by
  intro n
  obtain ⟨hmark, hcommon⟩ := slide_cases h
  obtain ⟨other, kept⟩ := e
  obtain rfl : other = .kept := Classical.not_not.mp hkept
  refine ⟨hmark, ?_⟩
  congr 1
  show kept = kept.take (kept.length - n) ++ items.drop (items.length - n)
  rw [show n = sharedEnd kept items from hcommon, ← drop_sharedEnd, List.take_append_drop]

theorem slideDown_parts {e : Edit α} {items : List α} (hkept : ¬e.mark ≠ .kept)
    (h : slide mark (shared e.items items) ≠ 0) :
    let n := slide mark (shared e.items items)
    mark = .inserted ∧ e = ⟨.kept, items.take n ++ e.items.drop n⟩ := by
  intro n
  obtain ⟨hmark, hcommon⟩ := slide_cases h
  obtain ⟨other, kept⟩ := e
  obtain rfl : other = .kept := Classical.not_not.mp hkept
  refine ⟨hmark, ?_⟩
  congr 1
  show kept = items.take n ++ kept.drop n
  rw [show n = shared kept items from hcommon, ← take_shared, List.take_append_drop]

theorem same_shiftUp (hmark : mark ≠ .kept) (before : List (Edit α)) (items : List α)
    (after : List (Edit α)) :
    Same ((shiftUp mark before items after).filled mark) (Gap.filled ⟨before, items, after⟩ mark) := by
  fun_induction shiftUp mark before items after with
  | case1 => exact .refl _
  | case2 items after e rest he ih =>
    obtain ⟨_, more⟩ := e
    cases he
    rw [filled_cons]
    exact ih.trans ((Same.join _ more items).inside rest after)
  | case3 items after e rest he hkept ih =>
    rw [filled_cons]
    exact ih.trans ((Same.swap hkept hmark he items).inside rest after)
  | case4 items after e rest he hkept hempty ih =>
    obtain ⟨other, more⟩ := e
    cases List.length_eq_zero_iff.mp hempty
    rw [filled_cons]
    exact ih.trans ((Same.nothing other).inside rest (⟨mark, items⟩ :: after))
  | case5 => exact .refl _
  | case6 items after e rest he hkept n stays moved turned hne hn hstays ih =>
    obtain ⟨rfl, hparts⟩ := slideUp_parts hkept hn
    rw [show e = ⟨.kept, stays ++ moved⟩ from hparts, hstays, List.nil_append, filled_cons]
    refine ih.trans ((same_slideUp rest moved _ after).trans ?_)
    rw [List.take_append_drop]
    exact .refl _
  | case7 items after e rest he hkept n stays moved turned hne hn hstays ih =>
    obtain ⟨rfl, hparts⟩ := slideUp_parts hkept hn
    rw [show e = ⟨.kept, stays ++ moved⟩ from hparts, filled_cons]
    refine ih.trans ((same_slideUp (⟨.kept, stays⟩ :: rest) moved _ after).trans ?_)
    rw [List.take_append_drop]
    have hjoin := (Same.join .kept stays moved).inside rest (⟨.inserted, items⟩ :: after)
    simpa using hjoin.symm

theorem same_shiftDown (hmark : mark ≠ .kept) (before : List (Edit α)) (items : List α)
    (after : List (Edit α)) :
    Same ((shiftDown mark before items after).filled mark)
      (Gap.filled ⟨before, items, after⟩ mark) := by
  fun_induction shiftDown mark before items after with
  | case1 => exact .refl _
  | case2 before items e rest he ih =>
    obtain ⟨_, more⟩ := e
    cases he
    exact ih.trans ((Same.join _ items more).inside before rest)
  | case3 before items e rest he hkept ih =>
    rw [filled_cons] at ih
    exact ih.trans ((Same.swap hkept hmark he items).symm.inside before rest)
  | case4 before items e rest he hkept hempty ih =>
    obtain ⟨other, more⟩ := e
    cases List.length_eq_zero_iff.mp hempty
    have hnothing := (Same.nothing other).inside (⟨mark, items⟩ :: before) rest
    refine ih.trans ?_
    simpa [Gap.filled] using hnothing
  | case5 => exact .refl _
  | case6 before items e rest he hkept n stays moved turned hne hn hstays ih =>
    obtain ⟨rfl, hparts⟩ := slideDown_parts hkept hn
    rw [show e = ⟨.kept, moved ++ stays⟩ from hparts, hstays, List.append_nil]
    refine ih.trans ((same_slideDown before moved _ rest).trans ?_)
    rw [List.take_append_drop]
    exact .refl _
  | case7 before items e rest he hkept n stays moved turned hne hn hstays ih =>
    obtain ⟨rfl, hparts⟩ := slideDown_parts hkept hn
    rw [show e = ⟨.kept, moved ++ stays⟩ from hparts]
    refine ih.trans ((same_slideDown before moved _ (⟨.kept, stays⟩ :: rest)).trans ?_)
    rw [List.take_append_drop]
    have hjoin := (Same.join .kept moved stays).inside (⟨.inserted, items⟩ :: before) rest
    simpa [Gap.filled] using hjoin.symm

-- ---------------------------------------------------------------------------
-- Sweeps
-- ---------------------------------------------------------------------------

theorem same_sweep (hmark : mark ≠ .kept) (before after : List (Edit α)) :
    Same (sweep mark hmark before after) (before.reverse ++ after) := by
  fun_induction sweep mark hmark before after with
  | case1 before =>
    rw [List.append_nil]
    exact .refl _
  | case2 before e rest he up down ih =>
    obtain ⟨_, items⟩ := e
    cases he
    rw [List.reverse_cons, List.append_assoc] at ih
    have hdown := same_shiftDown hmark up.before up.items up.after
    exact ih.trans (hdown.trans (same_shiftUp hmark before items rest))
  | case3 before e rest he ih =>
    rwa [List.reverse_cons, List.append_assoc] at ih

/-- Tidying moves edits, and each script leads where it led. -/
theorem same_tidy (s : Script α) : Same (tidy s) s :=
  (same_sweep (by decide) [] _).trans (same_sweep (by decide) [] s)

theorem sweep_of_kept (hmark : mark ≠ .kept) (before after : List (Edit α))
    (h : ∀ e ∈ after, e.mark = .kept) : sweep mark hmark before after = before.reverse ++ after := by
  induction after generalizing before with
  | nil => rw [sweep, List.append_nil]
  | cons e rest ih =>
    obtain ⟨he, hrest⟩ := List.forall_mem_cons.mp h
    have hne : e.mark ≠ mark := fun heq => hmark (heq.symm.trans he)
    rw [sweep, if_neg hne, ih (e :: before) hrest, List.reverse_cons, List.append_assoc]
    rfl

theorem tidy_of_kept {s : Script α} (h : ∀ e ∈ s, e.mark = .kept) : tidy s = s := by
  rw [tidy, sweep_of_kept (by decide) [] s h]
  exact sweep_of_kept (by decide) [] s h

end Shifts

end Mutagen.Diff
