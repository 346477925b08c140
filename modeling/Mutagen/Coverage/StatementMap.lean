import Mutagen.Text.Position

/-!
# Statement maps

A finite map from ids to spans. Its entries are kept in increasing order of their ids.
-/

namespace Mutagen

structure StatementMap where
  entries : List (Nat × Span)
  sorted : entries.Pairwise (fun a b => a.1 < b.1)
  deriving DecidableEq, Repr

namespace StatementMap

def empty : StatementMap := ⟨[], .nil⟩

def size (m : StatementMap) : Nat := m.entries.length

def ids (m : StatementMap) : List Nat := m.entries.map (·.1)

def get? (m : StatementMap) (id : Nat) : Option Span :=
  (m.entries.find? (·.1 == id)).map (·.2)

-- ---------------------------------------------------------------------------
-- Insertion
-- ---------------------------------------------------------------------------

/-- Puts an entry in its place, and in the place of an entry with the same id. -/
def place (entry : Nat × Span) : List (Nat × Span) → List (Nat × Span)
  | [] => [entry]
  | e :: rest =>
    if entry.1 < e.1 then entry :: e :: rest
    else if entry.1 = e.1 then entry :: rest
    else e :: place entry rest

theorem mem_place {entry e : Nat × Span} {entries : List (Nat × Span)}
    (h : e ∈ place entry entries) : e = entry ∨ e ∈ entries := by
  induction entries with
  | nil => exact .inl (by simpa [place] using h)
  | cons first rest ih =>
    unfold place at h
    split at h
    · simpa using h
    · split at h
      · rcases List.mem_cons.1 h with rfl | h
        · exact .inl rfl
        · exact .inr (List.mem_cons_of_mem _ h)
      · rcases List.mem_cons.1 h with rfl | h
        · exact .inr List.mem_cons_self
        · exact (ih h).imp_right (List.mem_cons_of_mem _)

theorem sorted_place (entry : Nat × Span) {entries : List (Nat × Span)}
    (h : entries.Pairwise (fun a b => a.1 < b.1)) :
    (place entry entries).Pairwise (fun a b => a.1 < b.1) := by
  induction entries with
  | nil => simp [place]
  | cons first rest ih =>
    obtain ⟨below, sortedRest⟩ := List.pairwise_cons.1 h
    unfold place
    split
    · rename_i less
      refine List.pairwise_cons.2 ⟨fun e he => ?_, h⟩
      rcases List.mem_cons.1 he with rfl | he
      · exact less
      · exact Nat.lt_trans less (below e he)
    · split
      · rename_i same
        exact List.pairwise_cons.2 ⟨fun e he => same ▸ below e he, sortedRest⟩
      · refine List.pairwise_cons.2 ⟨fun e he => ?_, ih sortedRest⟩
        rcases mem_place he with rfl | he
        · omega
        · exact below e he

def insert (m : StatementMap) (id : Nat) (span : Span) : StatementMap :=
  ⟨place (id, span) m.entries, sorted_place _ m.sorted⟩

def ofEntries (entries : List (Nat × Span)) : StatementMap :=
  entries.foldl (fun m e => m.insert e.1 e.2) empty

-- ---------------------------------------------------------------------------
-- Numbering
-- ---------------------------------------------------------------------------

def push (m : StatementMap) (span : Span) : StatementMap × Nat :=
  let id := m.size + 1
  (m.insert id span, id)

end StatementMap

end Mutagen
