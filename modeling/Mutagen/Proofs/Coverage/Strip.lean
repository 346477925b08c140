import Mutagen.Proofs.Coverage.Numbering
import Mutagen.Proofs.Coverage.Splice
import Mutagen.Proofs.Coverage.Weave

/-!
# Stripping insertions

A rendered text is woven from its source and the insertions (`exists_render?`). So the source can
be had back from it, and is found there line by line (`Plan.render?_strip`).
-/

namespace Mutagen

namespace Insertion

open Bytes Text

variable {text : String} {cursor stop shift : Nat} {insertions : List Insertion}

theorem ofChars_spliced (hcursor : IsCut text cursor)
    (h : Onward cursor text.utf8ByteSize insertions)
    (hcuts : ∀ i ∈ insertions, IsCut text i.offset) :
    ofChars (spliced text cursor text.utf8ByteSize insertions) =
      weave (ofText text) cursor insertions := by
  induction insertions generalizing cursor with
  | nil =>
    have hstop := isCut_width text
    have hle := hcursor.le_width
    rw [width_toList] at hstop hle
    rw [spliced, weave, ofChars_between hcursor hstop hle]
    refine List.take_of_length_le (Nat.le_of_eq ?_)
    rw [List.length_drop, length_ofText]
  | cons i rest ih =>
    have hi := hcuts i List.mem_cons_self
    have hrest := ih hi h.tail fun j hj => hcuts j (List.mem_cons_of_mem _ hj)
    rw [spliced, weave, ofChars_append, ofChars_append, ofChars_between hcursor hi h.head.1, hrest,
      ofText_eq i.text]

/-- Each insertion is found in its range. -/
theorem slices_spliced {output : String} {before : List Char} (hcursor : IsCut text cursor)
    (h : Onward cursor stop insertions) (hcuts : ∀ i ∈ insertions, IsCut text i.offset)
    (houtput : output.toList = before ++ spliced text cursor stop insertions)
    (hbefore : width before = cursor + shift) :
    (ranges shift insertions).map (fun r => slice? output r.1 r.2) =
      insertions.map fun i => some i.text := by
  induction insertions generalizing cursor shift before with
  | nil => rfl
  | cons i rest ih =>
    have hi := hcuts i List.mem_cons_self
    have hle := h.head.1
    have hstart : width (before ++ between text cursor i.offset) = i.offset + shift := by
      rw [width_append, hbefore, width_between hcursor hi hle]
      omega
    have hslice : slice? output (i.offset + shift) (i.offset + shift + i.text.utf8ByteSize) =
        some i.text := by
      refine slice?_eq_some_iff.mpr ⟨_, spliced text i.offset stop rest, ?_, hstart, ?_⟩
      · simp [houtput, spliced]
      · rw [width_toList]
    have hnext : width (before ++ between text cursor i.offset ++ i.text.toList) =
        i.offset + (shift + i.text.utf8ByteSize) := by
      rw [width_append, hstart, width_toList, Nat.add_assoc]
    have hrest := ih hi h.tail (fun j hj => hcuts j (List.mem_cons_of_mem _ hj))
      (by simp [houtput, spliced]) hnext
    rw [ranges, List.map_cons, List.map_cons, hslice, hrest]

theorem onward_sort (h : ∀ i ∈ insertions, IsCut text i.offset) :
    Onward 0 text.utf8ByteSize (sort insertions) where
  bounds i hi := by
    have hle := (h i (mem_sort.mp hi)).le_width
    rw [width_toList] at hle
    exact ⟨Nat.zero_le _, hle⟩
  sorted := pairwise_offset_sort insertions

theorem exists_render? (h : ∀ i ∈ insertions, IsCut text i.offset) :
    ∃ output, render? text insertions = some output ∧
      output.toList = spliced text 0 text.utf8ByteSize (sort insertions) ∧
      ofText output = weave (ofText text) 0 (sort insertions) := by
  refine ⟨_, render?_eq h, ?_, ?_⟩
  · rw [String.toList_ofList, width_toList]
  · rw [ofText_ofList, width_toList]
    exact ofChars_spliced (isCut_zero text) (onward_sort h) fun i hi => h i (mem_sort.mp hi)

section

variable {output : String} (hbytes : ofText output = weave (ofText text) 0 insertions)
  (h : Onward 0 text.utf8ByteSize insertions)

include hbytes h

theorem kept_woven : (ofText output).kept (ranges 0 insertions) =
    (ofText text).zipIdx.map fun p => (p.1, landing insertions p.2) := by
  rw [← length_ofText] at h
  rw [hbytes]
  exact kept_weave h 0

theorem utf8ByteSize_woven : output.utf8ByteSize = text.utf8ByteSize + growth insertions := by
  rw [← length_ofText] at h
  rw [← length_ofText, ← length_ofText, hbytes, ← length_weave h (Nat.zero_le _), Nat.zero_add]

theorem line_woven (hlines : ∀ i ∈ insertions, newline ∉ ofText i.text) (n : Nat) :
    (Position.ofOffset output (landing insertions n)).line = (Position.ofOffset text n).line := by
  rw [← length_ofText] at h
  rw [Position.line_ofOffset, Position.line_ofOffset, hbytes]
  exact count_take_weave h hlines (Nat.zero_le n)

end

end Insertion

-- ---------------------------------------------------------------------------
-- Plans
-- ---------------------------------------------------------------------------

def Text.lineCount (text : String) : Nat := (Position.ofOffset text text.utf8ByteSize).line + 1

namespace Coverage

open Bytes Text Insertion

theorem newline_notMem_increment {object : String} (h : '\n' ∉ object.toList) (table : Table)
    (id : Nat) : '\n' ∉ (increment object table id).toList := by
  have hdigits : '\n' ∉ Nat.toDigits 10 id := fun hmem =>
    absurd (Nat.isDigit_of_mem_toDigits (by decide) (by decide) hmem) (by decide)
  cases table <;> simp [increment, h, hdigits]

/-- Counters break no lines if the name of the object does not. -/
theorem newline_notMem_insertions {object : String} (h : '\n' ∉ object.toList) (text : String)
    (root : Node) {i : Insertion} (hi : i ∈ (Plan.ofTree object text root).insertions) :
    '\n' ∉ i.text.toList := by
  obtain ⟨-, hinsertions⟩ := Plan.ofTree_eq object text root
  rw [hinsertions] at hi
  obtain ⟨s, hs, id, -, -, hi⟩ := mem_insertionsOf hi
  rcases text_of_mem_insertionsAt (List.mem_filter.mp hs).2 hi with hi | ⟨table, hi | hi⟩
  · rw [hi]
    decide
  · rw [hi]
    exact newline_notMem_increment h table _
  · rw [hi, String.toList_append, List.mem_append, not_or]
    exact ⟨by decide, newline_notMem_increment h table _⟩

/-- Rendering a plan puts each insertion into the text once, in order, and nothing else changes:
what is outside of the insertions is the text, byte for byte. Insertions without line breaks, such
as those of counters for an object without one, leave every byte in its line. -/
theorem Plan.render?_strip :
    (∀ (plan : Plan) (text : String), (∀ i ∈ plan.insertions, IsCut text i.offset) →
      ∃ output, plan.render? text = some output ∧
        let order := sort plan.insertions
        let spots := ranges 0 order
        (order.Perm plan.insertions ∧
          (order.Pairwise fun a b => a.offset < b.offset ∨
            a.offset = b.offset ∧ (b.closing = true → a.closing = true)) ∧
          ∀ i, order.filter (sameRank i) = plan.insertions.filter (sameRank i)) ∧
        (spots.map (fun r => slice? output r.1 r.2) = order.map (fun i => some i.text) ∧
          spots.Pairwise fun r r' => r.2 ≤ r'.1) ∧
        (ofText output).strip spots = ofText text ∧
        (ofText output).kept spots =
          (ofText text).zipIdx.map (fun p => (p.1, landing plan.insertions p.2)) ∧
        output.utf8ByteSize =
          text.utf8ByteSize + (plan.insertions.map (·.text.utf8ByteSize)).sum ∧
        ((∀ i ∈ plan.insertions, '\n' ∉ i.text.toList) →
          (∀ n, (Position.ofOffset output (landing plan.insertions n)).line =
            (Position.ofOffset text n).line) ∧
          lineCount output = lineCount text)) ∧
    ∀ (object text : String) (root : Node), '\n' ∉ object.toList →
      ∀ i ∈ (Plan.ofTree object text root).insertions, '\n' ∉ i.text.toList := by
  refine ⟨fun plan text h => ?_, fun object text root h i hi =>
    newline_notMem_insertions h text root hi⟩
  obtain ⟨output, hrender, hchars, hbytes⟩ := exists_render? h
  have honward := onward_sort h
  have hperm : (sort plan.insertions).Perm plan.insertions := List.mergeSort_perm ..
  have hkept := kept_woven hbytes honward
  have hsize := utf8ByteSize_woven hbytes honward
  rw [growth, (hperm.map _).sum_nat] at hsize
  simp only [landing_perm hperm] at hkept
  refine ⟨output, hrender, ⟨hperm, (pairwise_sort _).imp precedes_iff.mp, fun i => filter_sort i _⟩,
    ⟨?_, pairwise_ranges honward 0⟩, ?_, hkept, hsize, fun hlines => ?_⟩
  · have hstart : output.toList = [] ++ spliced text 0 text.utf8ByteSize _ := hchars
    exact slices_spliced (isCut_zero text) honward (fun i hi => h i (mem_sort.mp hi)) hstart rfl
  · rw [strip, hkept, List.map_map]
    exact List.zipIdx_map_fst ..
  · have hline := line_woven hbytes honward fun i hi =>
      mt newline_mem_ofText.mp (hlines i (mem_sort.mp hi))
    refine ⟨fun n => landing_perm hperm n ▸ hline n, ?_⟩
    have hlast := hline text.utf8ByteSize
    rw [honward.landing_stop, ← utf8ByteSize_woven hbytes honward] at hlast
    rw [lineCount, lineCount, hlast]

theorem Plan.render?_strip_ties :
    let insertions : List Insertion := [⟨2, false, "A"⟩, ⟨2, true, "\x7d"⟩, ⟨4, true, "é"⟩,
      ⟨2, false, "C"⟩, ⟨0, false, "D"⟩, ⟨2, true, "E"⟩]
    (∀ i ∈ insertions, IsCut "é\nb" i.offset) ∧ (∀ i ∈ insertions, '\n' ∉ i.text.toList) ∧
      ∃ output, render? ⟨.empty, insertions⟩ "é\nb" = some output ∧ output.utf8ByteSize = 11 ∧
        (ofText output)[8]? = some 98 ∧ (Position.ofOffset output 8).line = 1 ∧
        '\n' ∉ "V".toList ∧
        ∀ i ∈ (ofTree "V" "function f()\x7bif(a)b();\x7d" guardedCall).insertions,
          '\n' ∉ i.text.toList := by
  intro insertions
  have hcuts : ∀ i ∈ insertions, IsCut "é\nb" i.offset := by decide
  have hlines : ∀ i ∈ insertions, '\n' ∉ i.text.toList := by decide
  obtain ⟨output, hrender, -, -, -, hkept, hsize, hline⟩ :=
    render?_strip.1 ⟨.empty, insertions⟩ "é\nb" hcuts
  have hobject : '\n' ∉ "V".toList := by decide
  refine ⟨hcuts, hlines, output, hrender, hsize.trans (by decide), ?_, ?_, hobject,
    render?_strip.2 "V" _ guardedCall hobject⟩
  · have hlanded : (98, 8) ∈ (ofText output).kept (ranges 0 (sort insertions)) := by
      rw [hkept]
      decide +kernel
    exact List.mem_zipIdx_iff_getElem?.mp (List.mem_filter.mp hlanded).1
  · exact ((hline hlines).1 3).trans (by decide)

end Coverage

end Mutagen
