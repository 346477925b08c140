import Mutagen.Diff.Script

/-!
# Tidying an edit script

Deletions first and insertions then are moved up as far as they go and down as far as they go.
On the way an edit joins with others of its mark, changes places with those of the other mark,
and, if it is an insertion, slides over kept items that repeat at its end.
-/

namespace Mutagen.Diff

variable {α : Type} [DecidableEq α]

/-- The edits around a place of a script, those before it with the nearest first. -/
structure Gap (α : Type) where
  before : List (Edit α)
  items : List α
  after : List (Edit α)

/-- Keeps `items` right before `after`, in one run with what is kept there. -/
def keepBefore (items : List α) : List (Edit α) → List (Edit α)
  | ⟨.kept, more⟩ :: rest => ⟨.kept, items ++ more⟩ :: rest
  | after => ⟨.kept, items⟩ :: after

def keepAfter (items : List α) : List (Edit α) → List (Edit α)
  | ⟨.kept, more⟩ :: rest => ⟨.kept, more ++ items⟩ :: rest
  | before => ⟨.kept, items⟩ :: before

/-- The number of kept items that an edit can slide over: a deletion over none. -/
def slide (mark : Mark) (common : Nat) : Nat := if mark = .inserted then common else 0

def weight : List (Edit α) → Nat
  | [] => 0
  | e :: rest => e.items.length + 1 + weight rest

def shiftUp (mark : Mark) (before : List (Edit α)) (items : List α) (after : List (Edit α)) :
    Gap α :=
  match before with
  | [] => ⟨[], items, after⟩
  | e :: rest =>
    if e.mark = mark then shiftUp mark rest (e.items ++ items) after
    else if e.mark ≠ .kept then shiftUp mark rest items (e :: after)
    else
      let n := slide mark (sharedEnd e.items items)
      let stays := e.items.take (e.items.length - n)
      let moved := items.drop (items.length - n)
      let turned := moved ++ items.take (items.length - n)
      if e.items.length = 0 then shiftUp mark rest items after
      else if n = 0 then ⟨before, items, after⟩
      else if stays = [] then shiftUp mark rest turned (keepBefore moved after)
      else shiftUp mark (⟨.kept, stays⟩ :: rest) turned (keepBefore moved after)
termination_by weight before
decreasing_by all_goals simp only [weight, List.length_take]; omega

def shiftDown (mark : Mark) (before : List (Edit α)) (items : List α) (after : List (Edit α)) :
    Gap α :=
  match after with
  | [] => ⟨before, items, []⟩
  | e :: rest =>
    if e.mark = mark then shiftDown mark before (items ++ e.items) rest
    else if e.mark ≠ .kept then shiftDown mark (e :: before) items rest
    else
      let n := slide mark (shared e.items items)
      let stays := e.items.drop n
      let moved := items.take n
      let turned := items.drop n ++ moved
      if e.items.length = 0 then shiftDown mark before items rest
      else if n = 0 then ⟨before, items, after⟩
      else if stays = [] then shiftDown mark (keepAfter moved before) turned rest
      else shiftDown mark (keepAfter moved before) turned (⟨.kept, stays⟩ :: rest)
termination_by weight after
decreasing_by all_goals simp only [weight, List.length_drop]; omega

-- ---------------------------------------------------------------------------
-- Sweeps
-- ---------------------------------------------------------------------------

def occurrences (mark : Mark) (edits : List (Edit α)) : Nat := edits.countP (·.mark = mark)

omit [DecidableEq α] in
theorem occurrences_keepBefore {mark : Mark} (h : mark ≠ .kept) (items : List α)
    (after : List (Edit α)) : occurrences mark (keepBefore items after) = occurrences mark after := by
  unfold keepBefore
  split <;> simp [occurrences, h.symm]

theorem occurrences_shiftUp {mark : Mark} (h : mark ≠ .kept) (before : List (Edit α))
    (items : List α) (after : List (Edit α)) :
    occurrences mark (shiftUp mark before items after).after = occurrences mark after := by
  fun_induction shiftUp mark before items after with
  | case1 => rfl
  | case2 _ _ _ _ _ ih => exact ih
  | case3 _ _ _ _ hm _ ih => rw [ih]; simp [occurrences, hm]
  | case4 _ _ _ _ _ _ _ ih => exact ih
  | case5 => rfl
  | case6 _ _ _ _ _ _ _ _ _ _ _ _ _ ih => rw [ih, occurrences_keepBefore h]
  | case7 _ _ _ _ _ _ _ _ _ _ _ _ _ ih => rw [ih, occurrences_keepBefore h]

theorem occurrences_shiftDown (mark : Mark) (before : List (Edit α)) (items : List α)
    (after : List (Edit α)) :
    occurrences mark (shiftDown mark before items after).after ≤ occurrences mark after := by
  fun_induction shiftDown mark before items after with
  | case1 => exact Nat.le_refl _
  | case2 _ _ _ _ hm ih => exact Nat.le_trans ih (by simp [occurrences, hm])
  | case3 _ _ _ _ hm _ ih => exact Nat.le_trans ih (by simp [occurrences, hm])
  | case4 _ _ _ _ hm _ _ ih => exact Nat.le_trans ih (by simp [occurrences, hm])
  | case5 => exact Nat.le_refl _
  | case6 _ _ _ _ hm _ _ _ _ _ _ _ _ ih => exact Nat.le_trans ih (by simp [occurrences, hm])
  | case7 _ _ e _ hm hk _ _ _ _ _ _ _ ih =>
    refine Nat.le_trans ih ?_
    have kept : e.mark = .kept := Classical.not_not.1 hk
    simp [occurrences, ← kept, hm]

def sweep (mark : Mark) (h : mark ≠ .kept) (before after : List (Edit α)) : Script α :=
  match after with
  | [] => before.reverse
  | e :: rest =>
    if e.mark = mark then
      let up := shiftUp mark before e.items rest
      let down := shiftDown mark up.before up.items up.after
      sweep mark h (⟨mark, down.items⟩ :: down.before) down.after
    else sweep mark h (e :: before) rest
termination_by (occurrences mark after, after.length)
decreasing_by
  · rename_i hm
    have up := occurrences_shiftUp h before e.items rest
    have down := occurrences_shiftDown mark (shiftUp mark before e.items rest).before
      (shiftUp mark before e.items rest).items (shiftUp mark before e.items rest).after
    exact Prod.Lex.left _ _ (by simp [occurrences, hm] at *; omega)
  · rename_i hm
    simp only [occurrences, List.countP_cons, hm, decide_false, Bool.false_eq_true, if_false]
    exact Prod.Lex.right _ (by simp)

def tidy (script : Script α) : Script α :=
  sweep .inserted (by decide) [] (sweep .deleted (by decide) [] script)

end Mutagen.Diff
