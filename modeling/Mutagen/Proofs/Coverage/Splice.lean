import Mutagen.Proofs.Coverage.Order
import Mutagen.Proofs.Text.Between

/-!
# Splicing as copying

Splicing copies the text between the offsets and puts the insertions in between (`spliced`).
It succeeds whenever all offsets are cuts (`render?_eq`), and can be done piece by piece
(`spliced_append`).
-/

namespace Mutagen.Insertion

open Text

def spliced (text : String) (start stop : Nat) : List Insertion → List Char
  | [] => between text start stop
  | i :: rest => between text start i.offset ++ i.text.toList ++ spliced text i.offset stop rest

variable {text : String} {start middle stop : Nat}

theorem splice?_eq {before after : List Char} (h : text.toList = before ++ after)
    {insertions : List Insertion} (hcut : ∀ i ∈ insertions, IsCut text i.offset)
    (hle : ∀ i ∈ insertions, width before ≤ i.offset)
    (hsort : insertions.Pairwise fun a b => a.offset ≤ b.offset) :
    splice? (width before) after insertions =
      some (spliced text (width before) (width text.toList) insertions) := by
  induction insertions generalizing before after with
  | nil =>
    have hbetween := between_eq (show text.toList = before ++ after ++ [] by simpa using h)
    rw [← width_append, ← h] at hbetween
    simp [splice?, spliced, hbetween]
  | cons i rest ih =>
    obtain ⟨before', after', h', hw⟩ := isCut_iff.mp (hcut i (by simp))
    obtain ⟨piece, rfl, rfl⟩ := exists_middle (h.symm.trans h') (hw ▸ hle i (by simp))
    obtain ⟨hfirst, hrest⟩ := List.pairwise_cons.mp hsort
    have hsplit : splitAt? (piece ++ after') (i.offset - width before) = some (piece, after') := by
      rw [← hw, width_append, Nat.add_sub_cancel_left]
      exact splitAt?_append piece after'
    have hbetween := between_eq h'
    have ih := ih h' (fun j hj => hcut j (by simp [hj])) (fun j hj => hw ▸ hfirst j hj) hrest
    rw [← width_append, hw] at hbetween
    rw [hw] at ih
    simp [splice?, spliced, hsplit, hbetween, ih]

theorem render?_eq {insertions : List Insertion} (h : ∀ i ∈ insertions, IsCut text i.offset) :
    render? text insertions =
      some (String.ofList (spliced text 0 (width text.toList) (sort insertions))) := by
  have htext : text.toList = [] ++ text.toList := rfl
  have hsplice := splice?_eq htext (fun i hi => h i (mem_sort.mp hi)) (fun i _ => Nat.zero_le _)
    (pairwise_offset_sort insertions)
  rw [width_nil] at hsplice
  rw [render?, hsplice]
  rfl

theorem spliced_append {first rest : List Insertion} (hstart : IsCut text start)
    (hmiddle : IsCut text middle) (hstop : IsCut text stop) (hsm : start ≤ middle)
    (hms : middle ≤ stop) (hfirst : ∀ i ∈ first, IsCut text i.offset ∧ i.offset ≤ middle)
    (hrest : ∀ i ∈ rest, IsCut text i.offset ∧ middle ≤ i.offset) :
    spliced text start stop (first ++ rest) =
      spliced text start middle first ++ spliced text middle stop rest := by
  induction first generalizing start with
  | nil =>
    cases rest with
    | nil => exact (between_append hstart hmiddle hstop hsm hms).symm
    | cons i rest =>
      obtain ⟨hcut, hle⟩ := hrest i (by simp)
      have hbetween := between_append hstart hmiddle hcut hsm hle
      simp [spliced, ← hbetween]
  | cons i first ih =>
    obtain ⟨hcut, hle⟩ := hfirst i (by simp)
    have ih := ih hcut hle fun j hj => hfirst j (by simp [hj])
    simp [spliced, ih]

theorem spliced_gap {rest : List Insertion} (hstart : IsCut text start)
    (hmiddle : IsCut text middle) (hstop : IsCut text stop) (hsm : start ≤ middle)
    (hms : middle ≤ stop) (hrest : ∀ i ∈ rest, IsCut text i.offset ∧ middle ≤ i.offset) :
    spliced text start stop rest = between text start middle ++ spliced text middle stop rest :=
  have hnone : ∀ i ∈ ([] : List Insertion), IsCut text i.offset ∧ i.offset ≤ middle := nofun
  spliced_append hstart hmiddle hstop hsm hms hnone hrest

theorem spliced_end {first : List Insertion} (hstart : IsCut text start)
    (hmiddle : IsCut text middle) (hstop : IsCut text stop) (hsm : start ≤ middle)
    (hms : middle ≤ stop) (hfirst : ∀ i ∈ first, IsCut text i.offset ∧ i.offset ≤ middle) :
    spliced text start stop first = spliced text start middle first ++ between text middle stop := by
  have hnone : ∀ i ∈ ([] : List Insertion), IsCut text i.offset ∧ middle ≤ i.offset := nofun
  have happend := spliced_append hstart hmiddle hstop hsm hms hfirst hnone
  rwa [List.append_nil] at happend

theorem exists_split {insertions : List Insertion}
    (hsort : insertions.Pairwise fun a b => a.offset ≤ b.offset)
    (hgap : ∀ i ∈ insertions, i.offset ≤ start ∨ stop ≤ i.offset) :
    ∃ first rest, insertions = first ++ rest ∧ (∀ i ∈ first, i.offset ≤ start) ∧
      ∀ i ∈ rest, stop ≤ i.offset := by
  induction insertions with
  | nil => exact ⟨[], [], rfl, nofun, nofun⟩
  | cons i insertions ih =>
    obtain ⟨hfirst, hrest⟩ := List.pairwise_cons.mp hsort
    rcases hgap i List.mem_cons_self with hle | hge
    · obtain ⟨first, rest, rfl, hle', hge⟩ := ih hrest fun j hj => hgap j (List.mem_cons_of_mem _ hj)
      exact ⟨i :: first, rest, rfl, List.forall_mem_cons.mpr ⟨hle, hle'⟩, hge⟩
    · refine ⟨[], i :: insertions, rfl, nofun, List.forall_mem_cons.mpr ⟨hge, fun j hj => ?_⟩⟩
      exact Nat.le_trans hge (hfirst j hj)

/-- The text is kept in one piece where the insertions leave a gap. -/
theorem render?_gap {insertions : List Insertion} (hcut : ∀ i ∈ insertions, IsCut text i.offset)
    (hstart : IsCut text start) (hstop : IsCut text stop) (hle : start ≤ stop)
    (hgap : ∀ i ∈ insertions, i.offset ≤ start ∨ stop ≤ i.offset) :
    ∃ before after, render? text insertions =
      some (String.ofList (before ++ between text start stop ++ after)) := by
  obtain ⟨first, rest, hsort, hfirst, hrest⟩ := exists_split (pairwise_offset_sort insertions)
    fun i hi => hgap i (mem_sort.mp hi)
  have hcut' : ∀ i ∈ first ++ rest, IsCut text i.offset := fun i hi =>
    hcut i (mem_sort.mp (hsort ▸ hi))
  have hbefore : ∀ i ∈ first, IsCut text i.offset ∧ i.offset ≤ start := fun i hi =>
    ⟨hcut' i (List.mem_append_left _ hi), hfirst i hi⟩
  have hafter : ∀ i ∈ rest, IsCut text i.offset ∧ stop ≤ i.offset := fun i hi =>
    ⟨hcut' i (List.mem_append_right _ hi), hrest i hi⟩
  refine ⟨spliced text 0 start first, spliced text stop (width text.toList) rest, ?_⟩
  rw [render?_eq hcut, hsort,
    spliced_append (isCut_zero text) hstart (isCut_width text) (Nat.zero_le _) hstart.le_width
      hbefore fun i hi => ⟨(hafter i hi).1, Nat.le_trans hle (hafter i hi).2⟩,
    spliced_gap hstart hstop (isCut_width text) hle hstop.le_width hafter, List.append_assoc]

end Mutagen.Insertion
