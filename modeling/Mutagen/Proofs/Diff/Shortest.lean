import Mutagen.Diff.Snake

/-!
# Where scripts lead

The script of a shortest way leads from the old list to the new one, wherever the search for its
middle ends (`leads_shortest`): what it keeps is common to both lists, and the rest is cut at one
point.
-/

namespace Mutagen.Diff

variable {α : Type}

structure Script.Leads (s : Script α) (old new : List α) : Prop where
  source : s.source = old
  target : s.target = new

namespace Script

theorem leads_nil : Leads ([] : Script α) [] [] := ⟨rfl, rfl⟩

theorem leads_kept (items : List α) : Leads [⟨.kept, items⟩] items items := by
  constructor <;> simp [source, target]

theorem leads_deleted (items : List α) : Leads [⟨.deleted, items⟩] items [] := by
  constructor <;> simp [source, target]

theorem leads_inserted (items : List α) : Leads [⟨.inserted, items⟩] [] items := by
  constructor <;> simp [source, target]

theorem Leads.append {first second : Script α} {a b c d : List α} (h : first.Leads a b)
    (h' : second.Leads c d) : (first ++ second).Leads (a ++ c) (b ++ d) where
  source := by rw [source_append, h.source, h'.source]
  target := by rw [target_append, h.target, h'.target]

theorem leads_kept_or_nil (n : Nat) (items : List α) (h : n = 0 → items = []) :
    Leads (if n = 0 then [] else [⟨.kept, items⟩]) items items := by
  split
  · rename_i hn
    rw [h hn]
    exact leads_nil
  · exact leads_kept items

end Script

-- ---------------------------------------------------------------------------
-- Common ends
-- ---------------------------------------------------------------------------

section Ends

variable [DecidableEq α]

theorem take_shared (first second : List α) :
    first.take (shared first second) = second.take (shared first second) := by
  fun_induction shared first second with
  | case1 first a second ih => rw [List.take_succ_cons, List.take_succ_cons, ih]
  | case2 => rfl
  | case3 => rfl

theorem shared_le_left (first second : List α) : shared first second ≤ first.length := by
  fun_induction shared first second with
  | case1 first a second ih => exact Nat.succ_le_succ ih
  | case2 => exact Nat.zero_le _
  | case3 => exact Nat.zero_le _

theorem shared_le_right (first second : List α) : shared first second ≤ second.length := by
  fun_induction shared first second with
  | case1 first a second ih => exact Nat.succ_le_succ ih
  | case2 => exact Nat.zero_le _
  | case3 => exact Nat.zero_le _

theorem shared_self (items : List α) : shared items items = items.length := by
  induction items with
  | nil => rfl
  | cons a items ih => rw [shared, if_pos rfl, ih, List.length_cons]

theorem drop_sharedEnd (first second : List α) :
    first.drop (first.length - sharedEnd first second) =
      second.drop (second.length - sharedEnd first second) := by
  have htake := take_shared first.reverse second.reverse
  rw [List.take_reverse, List.take_reverse] at htake
  exact List.reverse_inj.mp htake

theorem sharedEnd_le_left (first second : List α) : sharedEnd first second ≤ first.length := by
  have hle := shared_le_left first.reverse second.reverse
  rwa [List.length_reverse] at hle

theorem sharedEnd_le_right (first second : List α) : sharedEnd first second ≤ second.length := by
  have hle := shared_le_right first.reverse second.reverse
  rwa [List.length_reverse] at hle

/-- What two lists end with in common lies behind what they begin with in common. -/
theorem ends_le_left (first second : List α) :
    shared first second + sharedEnd (first.drop (shared first second))
      (second.drop (shared first second)) ≤ first.length := by
  refine Nat.add_le_of_le_sub' (shared_le_left first second) ?_
  rw [← List.length_drop]
  exact sharedEnd_le_left _ _

theorem ends_le_right (first second : List α) :
    shared first second + sharedEnd (first.drop (shared first second))
      (second.drop (shared first second)) ≤ second.length := by
  refine Nat.add_le_of_le_sub' (shared_le_right first second) ?_
  rw [← List.length_drop]
  exact sharedEnd_le_right _ _

end Ends

theorem drop_end {head tail : Nat} {items : List α} (h : head + tail ≤ items.length) :
    (items.drop head).drop ((items.drop head).length - tail) = items.drop (items.length - tail) := by
  rw [List.drop_drop, List.length_drop]
  congr 1
  omega

theorem inner_ends {head tail : Nat} {items : List α} (h : head + tail ≤ items.length) :
    items.take head ++ inner head tail items ++ items.drop (items.length - tail) = items := by
  rw [← drop_end h, List.append_assoc, inner, List.length_drop, List.take_append_drop,
    List.take_append_drop]

-- ---------------------------------------------------------------------------
-- Shortest ways
-- ---------------------------------------------------------------------------

variable [DecidableEq α]

/-- Both lists without their common ends are cut at one point, or not at all. -/
theorem leads_cut {old new : List α} {before behind : Nat → Nat → Script α}
    (hbefore : ∀ x y, Divides old.length new.length x y →
      (before x y).Leads (old.take x) (new.take y))
    (hbehind : ∀ x y, Divides old.length new.length x y →
      (behind x y).Leads (old.drop x) (new.drop y)) :
    Script.Leads (match middle? old new with
      | none => [⟨.deleted, old⟩, ⟨.inserted, new⟩]
      | some (x, y) =>
        if Divides old.length new.length x y then before x y ++ behind x y
        else [⟨.deleted, old⟩, ⟨.inserted, new⟩]) old new := by
  have hreplaced : Script.Leads [⟨.deleted, old⟩, ⟨.inserted, new⟩] old new := by
    constructor <;> simp [Script.source, Script.target]
  split
  · exact hreplaced
  · rename_i x y hmiddle
    split
    · rename_i hdivides
      have happend := (hbefore x y hdivides).append (hbehind x y hdivides)
      rwa [List.take_append_drop, List.take_append_drop] at happend
    · exact hreplaced

theorem leads_shortest (old new : List α) : (shortest old new).Leads old new := by
  induction old, new using shortest.induct with
  | case1 old new head tail oldCore newCore hbefore hbehind =>
    have hhead : old.take head = new.take head := take_shared old new
    have hold : head + tail ≤ old.length := ends_le_left old new
    have hnew : head + tail ≤ new.length := ends_le_right old new
    have htail : old.drop (old.length - tail) = new.drop (new.length - tail) := by
      have hdrop := drop_sharedEnd (old.drop head) (new.drop head)
      rwa [drop_end hold, drop_end hnew] at hdrop
    have hends (core : Script α) (hcore : core.Leads oldCore newCore) :
        Script.Leads ((if head = 0 then [] else [⟨.kept, old.take head⟩]) ++ core ++
          (if tail = 0 then [] else [⟨.kept, old.drop (old.length - tail)⟩])) old new := by
      have hfirst := Script.leads_kept_or_nil head (old.take head) fun h => by simp [h]
      have hlast := Script.leads_kept_or_nil tail (old.drop (old.length - tail)) fun h => by
        simp [h]
      have hall := (hfirst.append hcore).append hlast
      rwa [inner_ends hold, hhead, htail, inner_ends hnew, ← hhead, ← htail] at hall
    rw [shortest]
    refine hends _ ?_
    split
    · rename_i hnil
      exact ⟨hnil.1.symm, hnil.2.symm⟩
    split
    · rename_i hnil
      rw [show newCore = [] from hnil]
      exact Script.leads_deleted oldCore
    split
    · rename_i hnil
      rw [show oldCore = [] from hnil]
      exact Script.leads_inserted newCore
    · exact leads_cut hbefore hbehind

theorem kept_of_mem_shortest_self (items : List α) {e : Edit α} (h : e ∈ shortest items items) :
    e.mark = .kept := by
  have hcore : inner items.length 0 items = [] := by simp [inner]
  have hend : sharedEnd ([] : List α) [] = 0 := rfl
  rw [shortest, shared_self, List.drop_length, hend] at h
  simp only [hcore, and_self, if_true, List.append_nil] at h
  split at h
  · cases h
  · obtain rfl := List.mem_singleton.mp h
    rfl

end Mutagen.Diff
