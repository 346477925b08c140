import Mutagen.Coverage.Splice

/-!
# The order of insertions

Two insertions have the same rank if neither has to come before the other. Sorting puts the ranks
in order and keeps the insertions of one rank as they stand, which determines its result
(`sort_eq`).
-/

namespace Mutagen.Insertion

def sameRank (a b : Insertion) : Bool := a.offset == b.offset && a.closing == b.closing

theorem sameRank_iff {a b : Insertion} :
    sameRank a b = true ↔ a.offset = b.offset ∧ a.closing = b.closing := by
  simp [sameRank]

theorem precedes_iff {a b : Insertion} : precedes a b = true ↔
    a.offset < b.offset ∨ a.offset = b.offset ∧ (b.closing = true → a.closing = true) := by
  cases ha : a.closing <;> cases hb : b.closing <;> simp [precedes, ha, hb]

theorem precedes_trans (a b c : Insertion) (hab : precedes a b = true) (hbc : precedes b c = true) :
    precedes a c = true := by
  rw [precedes_iff] at hab hbc ⊢
  rcases hab with hab | ⟨hab, hclose⟩ <;> rcases hbc with hbc | ⟨hbc, hclose'⟩
  · exact .inl (Nat.lt_trans hab hbc)
  · exact .inl (hbc ▸ hab)
  · exact .inl (hab ▸ hbc)
  · exact .inr ⟨hab.trans hbc, fun hc => hclose (hclose' hc)⟩

theorem precedes_total (a b : Insertion) : (precedes a b || precedes b a) = true := by
  rw [Bool.or_eq_true, precedes_iff, precedes_iff]
  rcases Nat.lt_trichotomy a.offset b.offset with h | h | h
  · exact .inl (.inl h)
  · cases hb : b.closing
    · exact .inl (.inr ⟨h, by simp⟩)
    · exact .inr (.inr ⟨h.symm, by simp⟩)
  · exact .inr (.inl h)

theorem precedes_of_sameRank {a b : Insertion} (h : sameRank a b = true) : precedes a b = true := by
  obtain ⟨ho, hc⟩ := sameRank_iff.mp h
  exact precedes_iff.mpr (.inr ⟨ho, by simp [hc]⟩)

theorem sameRank_of_precedes {a b : Insertion} (hab : precedes a b = true)
    (hba : precedes b a = true) : sameRank a b = true := by
  rw [precedes_iff] at hab hba
  refine sameRank_iff.mpr ⟨by omega, Bool.eq_iff_iff.mpr ⟨?_, ?_⟩⟩
  · rcases hba with hba | ⟨-, hba⟩
    · omega
    · exact hba
  · rcases hab with hab | ⟨-, hab⟩
    · omega
    · exact hab

-- ---------------------------------------------------------------------------
-- Sorting
-- ---------------------------------------------------------------------------

theorem pairwise_sort (l : List Insertion) : (sort l).Pairwise fun a b => precedes a b = true :=
  List.pairwise_mergeSort precedes_trans precedes_total l

theorem pairwise_offset_sort (l : List Insertion) :
    (sort l).Pairwise fun a b => a.offset ≤ b.offset := by
  refine (pairwise_sort l).imp fun hab => ?_
  rcases precedes_iff.mp hab with hab | ⟨hab, -⟩
  · exact Nat.le_of_lt hab
  · exact Nat.le_of_eq hab

theorem mem_sort {l : List Insertion} {i : Insertion} : i ∈ sort l ↔ i ∈ l := List.mem_mergeSort

@[simp] theorem sort_nil : sort [] = [] := List.mergeSort_nil

@[simp] theorem sort_singleton (i : Insertion) : sort [i] = [i] := List.mergeSort_singleton i

theorem filter_sort (a : Insertion) (l : List Insertion) :
    (sort l).filter (sameRank a) = l.filter (sameRank a) := by
  have hpair : (l.filter (sameRank a)).Pairwise fun b c => precedes b c = true := by
    refine List.pairwise_of_forall_mem_list fun b hb c hc => ?_
    obtain ⟨-, hb⟩ := List.mem_filter.mp hb
    obtain ⟨-, hc⟩ := List.mem_filter.mp hc
    rw [sameRank_iff] at hb hc
    exact precedes_of_sameRank (sameRank_iff.mpr ⟨hb.1.symm.trans hc.1, hb.2.symm.trans hc.2⟩)
  have hsort : List.Sublist (l.filter (sameRank a)) (sort l) :=
    List.sublist_mergeSort precedes_trans precedes_total hpair List.filter_sublist
  have hsub : List.Sublist (l.filter (sameRank a)) ((sort l).filter (sameRank a)) := by
    simpa using hsort.filter (sameRank a)
  refine (hsub.eq_of_length ?_).symm
  exact ((List.mergeSort_perm l precedes).filter _).length_eq.symm

theorem sameRank_self (a : Insertion) : sameRank a a = true := sameRank_iff.mpr ⟨rfl, rfl⟩

theorem precedes_head {a b : Insertion} {l : List Insertion}
    (h : (a :: l).Pairwise fun a b => precedes a b = true) (hb : b ∈ a :: l) :
    precedes a b = true := by
  rcases List.mem_cons.mp hb with rfl | hb
  · exact precedes_of_sameRank (sameRank_self b)
  · exact (List.pairwise_cons.mp h).1 b hb

theorem eq_of_pairwise {l l' : List Insertion} (h : l.Pairwise fun a b => precedes a b = true)
    (h' : l'.Pairwise fun a b => precedes a b = true)
    (hrank : ∀ a, l.filter (sameRank a) = l'.filter (sameRank a)) : l = l' := by
  have hmem : ∀ a, a ∈ l ↔ a ∈ l' := fun a => by
    simpa [sameRank_self] using congrArg (a ∈ ·) (hrank a)
  induction l generalizing l' with
  | nil => exact (List.eq_nil_iff_forall_not_mem.mpr fun a ha => by simpa using (hmem a).mpr ha).symm
  | cons a rest ih =>
    cases l' with
    | nil => simpa using hmem a
    | cons b rest' =>
      have hab : sameRank a b = true := sameRank_of_precedes
        (precedes_head h ((hmem b).mpr (by simp))) (precedes_head h' ((hmem a).mp (by simp)))
      obtain rfl : a = b := by
        have hfirst := hrank a
        rw [List.filter_cons_of_pos (sameRank_self a), List.filter_cons_of_pos hab] at hfirst
        exact (List.cons.inj hfirst).1
      have hrest : ∀ c, rest.filter (sameRank c) = rest'.filter (sameRank c) := by
        intro c
        have hc := hrank c
        simp only [List.filter_cons] at hc
        split at hc
        · exact (List.cons.inj hc).2
        · exact hc
      have hmem' : ∀ c, c ∈ rest ↔ c ∈ rest' := fun c => by
        simpa [sameRank_self] using congrArg (c ∈ ·) (hrest c)
      rw [ih (List.pairwise_cons.mp h).2 (List.pairwise_cons.mp h').2 hrest hmem']

theorem sort_eq {l l' : List Insertion} (h : l'.Pairwise fun a b => precedes a b = true)
    (hrank : ∀ a, l.filter (sameRank a) = l'.filter (sameRank a)) : sort l = l' :=
  eq_of_pairwise (pairwise_sort l) h fun a => (filter_sort a l).trans (hrank a)

theorem sort_append {l l' : List Insertion} (h : ∀ a ∈ l, ∀ b ∈ l', precedes a b = true) :
    sort (l ++ l') = sort l ++ sort l' := by
  refine sort_eq (List.pairwise_append.mpr ⟨pairwise_sort l, pairwise_sort l', ?_⟩) fun a => ?_
  · exact fun a ha b hb => h a (mem_sort.mp ha) b (mem_sort.mp hb)
  · simp only [List.filter_append, filter_sort]

theorem sort_cons {i : Insertion} {l : List Insertion} (h : ∀ a ∈ l, precedes i a = true) :
    sort (i :: l) = i :: sort l := by
  have hi : ∀ a ∈ [i], ∀ b ∈ l, precedes a b = true := by simpa using h
  have happend := sort_append hi
  rwa [sort_singleton, List.singleton_append] at happend

theorem filter_swap {i b : Insertion} (h : b = i ∨ sameRank i b = false) (a : Insertion)
    (l : List Insertion) :
    (i :: b :: l).filter (sameRank a) = (b :: i :: l).filter (sameRank a) := by
  rcases h with rfl | h
  · rfl
  · by_cases hi : sameRank a i = true
    · have hb : ¬sameRank a b = true := by
        intro hb
        rw [sameRank_iff] at hi hb
        have hib := sameRank_iff.mpr ⟨hi.1.symm.trans hb.1, hi.2.symm.trans hb.2⟩
        rw [h] at hib
        cases hib
      simp [hi, hb]
    · simp [List.filter_cons, hi]

/-- Insertions of other ranks may change places with one, and its likes may as well. -/
theorem sort_move {i : Insertion} {first : List Insertion} (rest : List Insertion)
    (h : ∀ a ∈ first, a = i ∨ sameRank i a = false) :
    sort (i :: (first ++ rest)) = sort (first ++ i :: rest) := by
  refine sort_eq (pairwise_sort _) fun a => ?_
  rw [filter_sort]
  induction first with
  | nil => rfl
  | cons b bs ih =>
    have ih := ih fun c hc => h c (List.mem_cons_of_mem _ hc)
    rw [List.cons_append, filter_swap (h b (by simp)), List.cons_append, List.filter_cons, ih,
      ← List.filter_cons]

end Mutagen.Insertion
