import Mutagen.Proofs.Operator.Standard
import Mutagen.Survey.Basic

/-!
# Gathering over a file

Gathering succeeds if every element does, and then joins what they give (`gather_eq_ok_iff`).
Otherwise it ends at the first element that fails (`gather_eq_error_iff`). What is gathered in a
file is what each operator says at each site (`mutantsOf_eq_gather`).
-/

namespace Mutagen

section

variable {α β γ ε : Type} {f : α → Except ε (List β)} {as : List α}

theorem gather_cons_of_error {a : α} {e : ε} (h : f a = .error e) (as : List α) :
    gather f (a :: as) = .error e := by
  simp [gather, h, bind, Except.bind]

theorem gather_cons_of_ok {a : α} {first : List β} (h : f a = .ok first) (as : List α) :
    gather f (a :: as) = (gather f as).map (first ++ ·) := by
  cases hrest : gather f as <;>
    simp [gather, h, hrest, bind, Except.bind, pure, Except.pure, Except.map]

-- ---------------------------------------------------------------------------
-- Success
-- ---------------------------------------------------------------------------

theorem gather_of_ok {g : α → List β} (h : ∀ a ∈ as, f a = .ok (g a)) :
    gather f as = .ok (as.flatMap g) := by
  induction as with
  | nil => rfl
  | cons a rest ih =>
    rw [gather_cons_of_ok (h a List.mem_cons_self), ih fun b hb => h b (List.mem_cons_of_mem _ hb)]
    rfl

theorem ok_of_gather_ok {found : List β} (h : gather f as = .ok found) :
    ∀ a ∈ as, ∃ here, f a = .ok here := by
  induction as generalizing found with
  | nil => simp
  | cons a rest ih =>
    cases ha : f a with
    | error e =>
      rw [gather_cons_of_error ha] at h
      cases h
    | ok here =>
      cases hrest : gather f rest with
      | error e =>
        rw [gather_cons_of_ok ha, hrest] at h
        cases h
      | ok others =>
        intro b hb
        rcases List.mem_cons.mp hb with rfl | hb
        · exact ⟨here, ha⟩
        · exact ih hrest b hb

theorem gather_eq_ok_iff {found : List β} : gather f as = .ok found ↔
    ∃ g : α → List β, (∀ a ∈ as, f a = .ok (g a)) ∧ as.flatMap g = found := by
  constructor
  · intro h
    have hg : ∀ a ∈ as, f a = .ok ((f a).toOption.getD []) := by
      intro a ha
      obtain ⟨here, hf⟩ := ok_of_gather_ok h a ha
      rw [hf]
      rfl
    exact ⟨_, hg, Except.ok.inj ((gather_of_ok hg).symm.trans h)⟩
  · rintro ⟨g, hg, rfl⟩
    exact gather_of_ok hg

-- ---------------------------------------------------------------------------
-- Failure
-- ---------------------------------------------------------------------------

theorem gather_eq_error_iff {e : ε} : gather f as = .error e ↔
    ∃ before a after, as = before ++ a :: after ∧ (∀ b ∈ before, ∃ found, f b = .ok found) ∧
      f a = .error e := by
  constructor
  · intro h
    induction as with
    | nil => cases h
    | cons a rest ih =>
      cases ha : f a with
      | error e' =>
        rw [gather_cons_of_error ha] at h
        exact ⟨[], a, rest, rfl, by simp, ha.trans h⟩
      | ok here =>
        cases hrest : gather f rest with
        | error e' =>
          rw [gather_cons_of_ok ha, hrest] at h
          cases h
          obtain ⟨before, b, after, rfl, hbefore, hb⟩ := ih hrest
          refine ⟨a :: before, b, after, rfl, fun c hc => ?_, hb⟩
          rcases List.mem_cons.mp hc with rfl | hc
          · exact ⟨here, ha⟩
          · exact hbefore c hc
        | ok others =>
          rw [gather_cons_of_ok ha, hrest] at h
          cases h
  · rintro ⟨before, a, after, rfl, hbefore, ha⟩
    induction before with
    | nil => exact gather_cons_of_error ha after
    | cons b rest ih =>
      obtain ⟨here, hb⟩ := hbefore b List.mem_cons_self
      rw [List.cons_append, gather_cons_of_ok hb,
        ih fun c hc => hbefore c (List.mem_cons_of_mem _ hc)]
      rfl

-- ---------------------------------------------------------------------------
-- Rows and columns
-- ---------------------------------------------------------------------------

theorem gather_append (first second : List α) : gather f (first ++ second) =
    match gather f first with
    | .error e => .error e
    | .ok found => (gather f second).map (found ++ ·) := by
  induction first with
  | nil => cases h : gather f second <;> simp [gather, h, Except.map]
  | cons a rest ih =>
    cases ha : f a with
    | error e => simp only [List.cons_append, gather_cons_of_error ha]
    | ok here =>
      rw [List.cons_append, gather_cons_of_ok ha, gather_cons_of_ok ha, ih]
      cases gather f rest with
      | error e => rfl
      | ok others => cases gather f second <;> simp [Except.map]

theorem gather_map (g : γ → α) (cs : List γ) : gather f (cs.map g) = gather (fun c => f (g c)) cs := by
  induction cs with
  | nil => rfl
  | cons c rest ih => rw [List.map_cons, gather, gather, ih]

/-- Gathering row by row is gathering over all pairs of a row and a column. -/
theorem gather_gather (f : α → γ → Except ε (List β)) (as : List α) (cs : List γ) :
    gather (fun a => gather (f a) cs) as =
      gather (fun p => f p.1 p.2) (as.flatMap fun a => cs.map fun c => (a, c)) := by
  induction as with
  | nil => rfl
  | cons a rest ih =>
    rw [List.flatMap_cons, gather_append, gather_map, ← ih]
    cases ha : gather (f a) cs with
    | error e => exact gather_cons_of_error (f := fun a => gather (f a) cs) ha rest
    | ok here => exact gather_cons_of_ok (f := fun a => gather (f a) cs) ha rest

end

-- ---------------------------------------------------------------------------
-- Operators at sites
-- ---------------------------------------------------------------------------

namespace Survey

variable {path text : String} {site : Site} {o : Operator}

/-- The questions that a survey asks about a file, in order: every operator at every site. -/
def places (s : Survey) (root : Node) : List (Site × Operator) :=
  (root.sitesOfKind s.registry.kinds).flatMap fun site => s.registry.operators.map fun o => (site, o)

theorem mem_places {s : Survey} {root : Node} : (site, o) ∈ s.places root ↔
    site ∈ root.sitesOfKind s.registry.kinds ∧ o ∈ s.registry.operators := by
  simp [places]

theorem mutantsOf_eq_gather (s : Survey) (path text : String) (root : Node) :
    s.mutantsOf path text root =
      gather (fun place => consult path text place.1 place.2) (s.places root) :=
  gather_gather (consult path text) _ _

theorem consult_eq_ok_iff {found : List Mutant} : consult path text site o = .ok found ↔
    if o.applies site = true then o.mutants path text site = .ok found else found = [] := by
  unfold consult
  split
  · split <;> simp_all
  · simp [eq_comm]

theorem exists_consult_ok : (∃ found, consult path text site o = .ok found) ↔
    o.Works path text site := by
  simp only [consult_eq_ok_iff, Operator.Works]
  split <;> simp_all

theorem consult_eq_error_iff {e : SurveyError} : consult path text site o = .error e ↔
    o.applies site = true ∧
      ∃ cause, o.mutants path text site = .error cause ∧ e = .failed path o.name cause := by
  unfold consult
  split
  · rename_i happlies
    cases o.mutants path text site <;> simp [happlies, eq_comm]
  · simp [*]

end Survey

end Mutagen
