/-!
# Edit scripts

A script says how one list becomes another: which items are kept, which are deleted and which are
inserted. Its two sides are the lists it leads from and to.
-/

namespace Mutagen.Diff

inductive Mark
  | kept
  | deleted
  | inserted
  deriving BEq, DecidableEq, Repr

structure Edit (α : Type) where
  mark : Mark
  items : List α
  deriving BEq, DecidableEq, Repr

abbrev Script (α : Type) := List (Edit α)

variable {α : Type}

namespace Script

def source : Script α → List α
  | [] => []
  | e :: rest => (if e.mark = .inserted then [] else e.items) ++ source rest

def target : Script α → List α
  | [] => []
  | e :: rest => (if e.mark = .deleted then [] else e.items) ++ target rest

/-- Items with their marks, where all that is deleted between two kept runs comes before what is
inserted there. -/
def marked (deleted inserted : List α) : Script α → List (Mark × α)
  | [] => deleted.map (.deleted, ·) ++ inserted.map (.inserted, ·)
  | ⟨.deleted, items⟩ :: rest => marked (deleted ++ items) inserted rest
  | ⟨.inserted, items⟩ :: rest => marked deleted (inserted ++ items) rest
  | ⟨.kept, items⟩ :: rest =>
    deleted.map (.deleted, ·) ++ inserted.map (.inserted, ·) ++ items.map (.kept, ·) ++
      marked [] [] rest

@[simp] theorem source_append (first second : Script α) :
    source (first ++ second) = source first ++ source second := by
  induction first with
  | nil => rfl
  | cons e rest ih => simp [source, ih]

@[simp] theorem target_append (first second : Script α) :
    target (first ++ second) = target first ++ target second := by
  induction first with
  | nil => rfl
  | cons e rest ih => simp [target, ih]

end Script

def shared [DecidableEq α] : List α → List α → Nat
  | a :: first, b :: second => if a = b then shared first second + 1 else 0
  | _, _ => 0

def sharedEnd [DecidableEq α] (first second : List α) : Nat := shared first.reverse second.reverse

end Mutagen.Diff
