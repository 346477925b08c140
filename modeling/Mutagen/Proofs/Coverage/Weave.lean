import Mathlib.Algebra.GroupWithZero.Nat
import Mutagen.Coverage.Splice
import Mutagen.Proofs.Text.Bytes

/-!
# Insertions among bytes

In terms of bytes a rendered text is woven from the source and the insertions (`weave`). Each
insertion has a range of its own there (`ranges`). The bytes outside of these ranges are those of
the source, each moved on by the insertions before it (`kept_weave`), and they keep their lines if
no insertion breaks one (`count_take_weave`).
-/

namespace Mutagen

-- ---------------------------------------------------------------------------
-- Bytes outside of ranges
-- ---------------------------------------------------------------------------

namespace Bytes

/-- The bytes outside of some ranges, with their places. The first byte is at `base`. -/
def kept (ranges : List (Nat × Nat)) (bytes : Bytes) (base : Nat := 0) : List (UInt8 × Nat) :=
  (bytes.zipIdx base).filter fun p => ranges.all fun r => p.2 < r.1 || r.2 ≤ p.2

def strip (ranges : List (Nat × Nat)) (bytes : Bytes) : Bytes := (kept ranges bytes).map (·.1)

variable {ranges : List (Nat × Nat)} {bytes : Bytes} {base : Nat}

theorem kept_append (ranges : List (Nat × Nat)) (first rest : Bytes) (base : Nat) :
    kept ranges (first ++ rest) base =
      kept ranges first base ++ kept ranges rest (base + first.length) := by
  simp [kept, List.zipIdx_append]

theorem kept_of_outside (h : ∀ r ∈ ranges, base + bytes.length ≤ r.1 ∨ r.2 ≤ base) :
    kept ranges bytes base = bytes.zipIdx base := by
  refine List.filter_eq_self.mpr fun p hp => List.all_eq_true.mpr fun r hr => ?_
  obtain ⟨hle, hlt, -⟩ := List.mem_zipIdx hp
  rw [Bool.or_eq_true, decide_eq_true_eq, decide_eq_true_eq]
  have hr := h r hr
  omega

theorem kept_of_inside {r : Nat × Nat} (hr : r ∈ ranges) (hstart : r.1 ≤ base)
    (hstop : base + bytes.length ≤ r.2) : kept ranges bytes base = [] := by
  refine List.filter_eq_nil_iff.mpr fun p hp hall => ?_
  obtain ⟨hle, hlt, -⟩ := List.mem_zipIdx hp
  have hr := List.all_eq_true.mp hall r hr
  rw [Bool.or_eq_true, decide_eq_true_eq, decide_eq_true_eq] at hr
  omega

theorem kept_cons_behind {r : Nat × Nat} (h : r.2 ≤ base) (ranges : List (Nat × Nat))
    (bytes : Bytes) : kept (r :: ranges) bytes base = kept ranges bytes base := by
  refine List.filter_congr fun p hp => ?_
  obtain ⟨hle, -, -⟩ := List.mem_zipIdx hp
  rw [List.all_cons, decide_eq_true (Nat.le_trans h hle), Bool.or_true, Bool.true_and]

end Bytes

namespace Insertion

open Bytes Text

-- ---------------------------------------------------------------------------
-- Where everything goes
-- ---------------------------------------------------------------------------

def ranges (shift : Nat) : List Insertion → List (Nat × Nat)
  | [] => []
  | i :: rest =>
    (i.offset + shift, i.offset + shift + i.text.utf8ByteSize) ::
      ranges (shift + i.text.utf8ByteSize) rest

def growth (insertions : List Insertion) : Nat := (insertions.map (·.text.utf8ByteSize)).sum

/-- The place that the byte at `offset` gets. What is inserted at its offset comes before it. -/
def landing (insertions : List Insertion) (offset : Nat) : Nat :=
  offset + growth (insertions.filter (·.offset ≤ offset))

def weave (bytes : Bytes) (cursor : Nat) : List Insertion → Bytes
  | [] => bytes.drop cursor
  | i :: rest =>
    (bytes.drop cursor).take (i.offset - cursor) ++ .ofText i.text ++ weave bytes i.offset rest

structure Onward (cursor stop : Nat) (insertions : List Insertion) : Prop where
  bounds : ∀ i ∈ insertions, cursor ≤ i.offset ∧ i.offset ≤ stop
  sorted : insertions.Pairwise fun a b => a.offset ≤ b.offset

variable {bytes : Bytes} {cursor stop shift n : Nat} {i : Insertion} {rest insertions : List Insertion}

theorem Onward.head (h : Onward cursor stop (i :: rest)) : cursor ≤ i.offset ∧ i.offset ≤ stop :=
  h.bounds i List.mem_cons_self

theorem Onward.tail (h : Onward cursor stop (i :: rest)) : Onward i.offset stop rest where
  bounds j hj := ⟨(List.pairwise_cons.mp h.sorted).1 j hj, (h.bounds j (List.mem_cons_of_mem _ hj)).2⟩
  sorted := (List.pairwise_cons.mp h.sorted).2

theorem growth_cons (i : Insertion) (rest : List Insertion) :
    growth (i :: rest) = i.text.utf8ByteSize + growth rest := by simp [growth]

theorem landing_cons_of_le (h : i.offset ≤ n) (rest : List Insertion) :
    landing (i :: rest) n = i.text.utf8ByteSize + landing rest n := by
  rw [landing, List.filter_cons_of_pos (by simpa using h), growth_cons, landing]
  omega

theorem Onward.from_head (h : Onward cursor stop (i :: rest)) : Onward i.offset stop (i :: rest) where
  bounds j hj := by
    rcases List.mem_cons.mp hj with rfl | hj
    · exact ⟨Nat.le_refl _, h.head.2⟩
    · exact h.tail.bounds j hj
  sorted := h.sorted

theorem Onward.landing_eq (h : Onward cursor stop insertions) (hn : n < cursor) :
    landing insertions n = n := by
  have hnone : insertions.filter (·.offset ≤ n) = [] := by
    refine List.filter_eq_nil_iff.mpr fun j hj => ?_
    have hle := (h.bounds j hj).1
    simp only [decide_eq_true_eq]
    omega
  rw [landing, hnone]
  rfl

theorem landing_perm {insertions' : List Insertion} (h : insertions.Perm insertions') (n : Nat) :
    landing insertions n = landing insertions' n :=
  congrArg (n + ·) ((h.filter _).map _).sum_nat

-- ---------------------------------------------------------------------------
-- Weaving
-- ---------------------------------------------------------------------------

theorem le_of_mem_ranges (h : Onward cursor stop insertions) {r : Nat × Nat}
    (hr : r ∈ ranges shift insertions) : cursor + shift ≤ r.1 ∧ r.1 ≤ r.2 := by
  induction insertions generalizing cursor shift with
  | nil => cases hr
  | cons i rest ih =>
    have hle := h.head.1
    rcases List.mem_cons.mp hr with rfl | hr
    · exact ⟨Nat.add_le_add_right hle _, Nat.le_add_right ..⟩
    · have hrest := ih h.tail hr
      omega

theorem pairwise_ranges (h : Onward cursor stop insertions) (shift : Nat) :
    (ranges shift insertions).Pairwise fun r r' => r.2 ≤ r'.1 := by
  induction insertions generalizing cursor shift with
  | nil => exact .nil
  | cons i rest ih =>
    refine List.pairwise_cons.mpr ⟨fun r hr => ?_, ih h.tail _⟩
    have hle := (le_of_mem_ranges h.tail hr).1
    dsimp only
    omega

/-- What is copied up to an offset, and what is left then. -/
theorem exists_copied {m : Nat} (hle : cursor ≤ m) (hge : m ≤ bytes.length) :
    ∃ copied, (bytes.drop cursor).take (m - cursor) = copied ∧
      bytes.drop cursor = copied ++ bytes.drop m ∧ cursor + copied.length = m := by
  refine ⟨_, rfl, ?_, ?_⟩
  · have hdrop : (bytes.drop cursor).drop (m - cursor) = bytes.drop m := by
      rw [List.drop_drop, Nat.add_sub_cancel' hle]
    rw [← hdrop, List.take_append_drop]
  · rw [List.length_take, List.length_drop]
    omega

theorem length_weave (h : Onward cursor bytes.length insertions) (hcursor : cursor ≤ bytes.length) :
    cursor + (weave bytes cursor insertions).length = bytes.length + growth insertions := by
  induction insertions generalizing cursor with
  | nil =>
    rw [weave, List.length_drop, Nat.add_sub_cancel' hcursor]
    rfl
  | cons i rest ih =>
    obtain ⟨copied, htake, -, hlength⟩ := exists_copied h.head.1 h.head.2
    have hrest := ih h.tail h.head.2
    rw [weave, htake, growth_cons, List.length_append, List.length_append, length_ofText]
    omega

/-- Outside of the insertions are the bytes of the source, each where it lands. -/
theorem kept_weave (h : Onward cursor bytes.length insertions) (shift : Nat) :
    kept (ranges shift insertions) (weave bytes cursor insertions) (cursor + shift) =
      ((bytes.drop cursor).zipIdx cursor).map fun p => (p.1, landing insertions p.2 + shift) := by
  induction insertions generalizing cursor shift with
  | nil =>
    rw [weave, kept_of_outside (by simp [ranges]), Nat.add_comm,
      ← List.map_snd_add_zipIdx_eq_zipIdx]
    rfl
  | cons i rest ih =>
    obtain ⟨copied, htake, hdrop, hlength⟩ := exists_copied h.head.1 h.head.2
    have hbase : cursor + shift + copied.length = i.offset + shift := by omega
    have hbefore : kept (ranges shift (i :: rest)) copied (cursor + shift) =
        copied.zipIdx (cursor + shift) := by
      refine kept_of_outside fun r hr => .inl ?_
      rw [hbase]
      exact (le_of_mem_ranges h.from_head hr).1
    have hinside : kept (ranges shift (i :: rest)) (ofText i.text) (i.offset + shift) = [] :=
      kept_of_inside List.mem_cons_self (Nat.le_refl _) (Nat.le_of_eq (by rw [length_ofText]))
    have hbehind : kept (ranges shift (i :: rest)) (weave bytes i.offset rest)
        (i.offset + (shift + i.text.utf8ByteSize)) = _ :=
      (kept_cons_behind (Nat.le_of_eq (Nat.add_assoc ..)) ..).trans (ih h.tail _)
    rw [weave, htake, kept_append, kept_append, List.length_append, hbefore, hbase, hinside,
      List.append_nil, ← Nat.add_assoc (cursor + shift), hbase, length_ofText,
      Nat.add_assoc i.offset, hbehind, hdrop, List.zipIdx_append, List.map_append, hlength]
    congr 1
    · rw [Nat.add_comm cursor, ← List.map_snd_add_zipIdx_eq_zipIdx]
      refine List.map_congr_left fun p hp => ?_
      obtain ⟨-, hlt, -⟩ := List.mem_zipIdx hp
      rw [h.from_head.landing_eq (by omega)]
      rfl
    · refine List.map_congr_left fun p hp => ?_
      obtain ⟨hp, -, -⟩ := List.mem_zipIdx hp
      rw [landing_cons_of_le hp, Prod.mk.injEq]
      exact ⟨rfl, by omega⟩

-- ---------------------------------------------------------------------------
-- Lines
-- ---------------------------------------------------------------------------

theorem Onward.landing_stop (h : Onward cursor stop insertions) :
    landing insertions stop = stop + growth insertions := by
  have hall : insertions.filter (·.offset ≤ stop) = insertions :=
    List.filter_eq_self.mpr fun i hi => by simpa using (h.bounds i hi).2
  rw [landing, hall]

theorem le_landing (insertions : List Insertion) (n : Nat) : n ≤ landing insertions n :=
  Nat.le_add_right ..

theorem count_take_weave (h : Onward cursor bytes.length insertions)
    (hlines : ∀ i ∈ insertions, newline ∉ ofText i.text) (hcursor : cursor ≤ n) :
    ((weave bytes cursor insertions).take (landing insertions n - cursor)).count newline =
      ((bytes.drop cursor).take (n - cursor)).count newline := by
  induction insertions generalizing cursor with
  | nil => rfl
  | cons i rest ih =>
    obtain ⟨copied, htake, hdrop, hlength⟩ := exists_copied h.head.1 h.head.2
    rw [weave, htake, hdrop]
    by_cases hi : i.offset ≤ n
    · have hrest := ih h.tail (fun j hj => hlines j (List.mem_cons_of_mem _ hj)) hi
      have hnone : (ofText i.text).count newline = 0 :=
        List.count_eq_zero.mpr (hlines i List.mem_cons_self)
      have hle := Nat.le_trans hi (le_landing rest n)
      have hleft : landing (i :: rest) n - cursor =
          (copied ++ ofText i.text).length + (landing rest n - i.offset) := by
        rw [landing_cons_of_le hi, List.length_append, length_ofText]
        omega
      have hright : n - cursor = copied.length + (n - i.offset) := by omega
      rw [hleft, hright, List.take_length_add_append, List.take_length_add_append]
      simp only [List.count_append, hnone, hrest, Nat.add_zero]
    · have hlt : n < i.offset := Nat.lt_of_not_le hi
      rw [h.from_head.landing_eq hlt, List.append_assoc, List.take_append_of_le_length (by omega),
        List.take_append_of_le_length (by omega)]

end Insertion

end Mutagen
