import Mathlib.Data.List.Basic
import Mathlib.Data.List.Pairwise
import Mutagen.Proofs.Mutant.Inject
import Mutagen.Proofs.Tree.Nodes

/-!
# The seams of a mutant

Where the replacement of a mutant meets what stands around it, two tokens can become one: a sign
next to the same sign, or a name next to a name. Nothing but the two characters that meet decides
this (`Mutant.fused_iff`), and where a bare token stands it is one of its kind
(`Node.Spells.endingAt?_eq`).
-/

namespace Mutagen

namespace Text

def isSign (c : Char) : Bool := c == '+' || c == '-'

def isNamePart (c : Char) : Bool := c.isAlphanum || c == '_' || c == '$'

def fuses (a b : Char) : Bool := if isSign a then a == b else isNamePart a && isNamePart b

/-- Two characters meet and can be read as parts of one token. -/
def Fuse (a? b? : Option Char) : Prop := ∃ a ∈ a?, ∃ b ∈ b?, fuses a b = true

instance (a? b? : Option Char) : Decidable (Fuse a? b?) :=
  -- not by search, which would go through all characters
  @Option.decidableExistsMem _ _ (fun _ => Option.decidableExistsMem b?) a?

def endingAt? (text : String) (offset : Nat) : Option Char :=
  (before? text offset).bind (·.toList.getLast?)

def startingAt? (text : String) (offset : Nat) : Option Char :=
  (from? text offset).bind (·.toList.head?)

def Fused (text : String) (offset : Nat) : Prop :=
  Fuse (endingAt? text offset) (startingAt? text offset)

instance (text : String) (offset : Nat) : Decidable (Fused text offset) :=
  inferInstanceAs (Decidable (Fuse _ _))

-- ---------------------------------------------------------------------------
-- Signs
-- ---------------------------------------------------------------------------

variable {a? b? : Option Char} {c : Char}

theorem isSign_iff : isSign c = true ↔ c = '+' ∨ c = '-' := by simp [isSign]

theorem isNamePart_of_isSign (h : isSign c = true) : isNamePart c = false := by
  rcases isSign_iff.mp h with rfl | rfl <;> decide

theorem fuse_sign_left (h : isSign c = true) : Fuse (some c) b? ↔ b? = some c := by
  have hpair : ∀ b, fuses c b = true ↔ c = b := fun b => by simp [fuses, h]
  simp [Fuse, hpair]

theorem fuse_sign_right (h : isSign c = true) : Fuse a? (some c) ↔ a? = some c := by
  have hpair : ∀ a, fuses a c = true ↔ a = c := by
    intro a
    unfold fuses
    split
    · exact beq_iff_eq
    · rename_i ha
      simp only [isNamePart_of_isSign h, Bool.and_false, Bool.false_eq_true, false_iff]
      rintro rfl
      exact ha h
  simp [Fuse, hpair]

theorem not_fuse_right (hsign : isSign c = false) (hname : isNamePart c = false) :
    ¬Fuse a? (some c) := by
  rintro ⟨a, -, b, hb, hfuses⟩
  cases hb
  unfold fuses at hfuses
  split at hfuses
  · rename_i ha
    rw [eq_of_beq hfuses, hsign] at ha
    cases ha
  · simp [hname] at hfuses

-- ---------------------------------------------------------------------------
-- Characters next to a cut
-- ---------------------------------------------------------------------------

variable {text : String} {first rest : List Char} {m n : Nat}

theorem endingAt?_eq (h : text.toList = first ++ rest) :
    endingAt? text (width first) = first.getLast? := by
  simp [endingAt?, before?_eq h]

theorem startingAt?_eq (h : text.toList = first ++ rest) :
    startingAt? text (width first) = rest.head? := by
  simp [startingAt?, from?_eq h]

theorem endingAt?_of_slice? {piece : String} (h : slice? text m n = some piece)
    (hpiece : piece ≠ "") : endingAt? text n = piece.toList.getLast? := by
  obtain ⟨first, rest, he, rfl, rfl⟩ := slice?_eq_some_iff.mp h
  rw [← width_append, endingAt?_eq he]
  exact List.getLast?_append_of_ne_nil _ (by simpa using hpiece)

theorem startingAt?_of_slice? {piece : String} (h : slice? text m n = some piece)
    (hpiece : piece ≠ "") : startingAt? text m = piece.toList.head? := by
  obtain ⟨first, rest, he, rfl, -⟩ := slice?_eq_some_iff.mp h
  rw [startingAt?_eq (he.trans (List.append_assoc ..))]
  exact List.head?_append_of_ne_nil _ (by simpa using hpiece)

end Text

-- ---------------------------------------------------------------------------
-- Bare tokens
-- ---------------------------------------------------------------------------

namespace Node

variable {text : String} {root s t : Node}

/-- The node is a token whose kind is what stands in its place. -/
structure Spells (text : String) (t : Node) : Prop where
  leaf : t.children = []
  nonempty : t.kind ≠ ""
  piece : Text.slice? text t.start t.stop = some t.kind

instance (text : String) (t : Node) : Decidable (t.Spells text) :=
  decidable_of_iff
    (t.children.isEmpty = true ∧ t.kind ≠ "" ∧ Text.slice? text t.start t.stop = some t.kind)
    ⟨fun ⟨leaf, nonempty, piece⟩ => ⟨List.isEmpty_iff.mp leaf, nonempty, piece⟩,
      fun h => ⟨List.isEmpty_iff.mpr h.leaf, h.nonempty, h.piece⟩⟩

theorem Spells.endingAt?_eq (h : t.Spells text) :
    Text.endingAt? text t.stop = t.kind.toList.getLast? :=
  Text.endingAt?_of_slice? h.piece h.nonempty

theorem Spells.startingAt?_eq (h : t.Spells text) :
    Text.startingAt? text t.start = t.kind.toList.head? :=
  Text.startingAt?_of_slice? h.piece h.nonempty

theorem Spells.start_lt_stop (h : t.Spells text) : t.start < t.stop := by
  obtain ⟨first, rest, -, -, hstop⟩ := Text.slice?_eq_some_iff.mp h.piece
  have hwidth : Text.width t.kind.toList ≠ 0 := fun hzero =>
    h.nonempty (String.toList_eq_nil_iff.mp (Text.eq_nil_of_width hzero))
  omega

def Apart (a b : Node) : Prop := a.stop ≤ b.start ∨ b.stop ≤ a.start

instance : Std.Symm Apart := ⟨fun _ _ => Or.symm⟩

theorem Ordered.apart_of_leaf (hroot : root.Ordered) (hs : s ∈ root.nodes) (ht : t ∈ root.nodes)
    (hsleaf : s.children = []) (htleaf : t.children = []) (hne : s ≠ t) : Apart s t := by
  have hleaves : (root.nodes.filter (·.children.isEmpty)).Pairwise Apart := by
    rw [List.pairwise_filter]
    exact hroot.pairwise_leaf.imp fun hab ha _ => .inl (hab (List.isEmpty_iff.mp ha))
  exact hleaves.forall (List.mem_filter.mpr ⟨hs, List.isEmpty_iff.mpr hsleaf⟩)
    (List.mem_filter.mpr ⟨ht, List.isEmpty_iff.mpr htleaf⟩) hne

/-- Only one token stops at an offset. -/
theorem Spells.eq_of_stop_eq (hroot : root.Ordered) (hs : s ∈ root.nodes) (ht : t ∈ root.nodes)
    (hspells : s.Spells text) (htspells : t.Spells text) (h : s.stop = t.stop) : s = t := by
  by_contra hne
  have hsrange := hspells.start_lt_stop
  have htrange := htspells.start_lt_stop
  rcases hroot.apart_of_leaf hs ht hspells.leaf htspells.leaf hne with hle | hle <;> omega

end Node

-- ---------------------------------------------------------------------------
-- The seams
-- ---------------------------------------------------------------------------

namespace Mutant

open Text

variable {m : Mutant} {text mutated : String}

/-- At the seams the ends of the replacement meet what stood around the replaced range. -/
theorem fused_iff (h : m.Fits text) (hinject : m.inject? text = some mutated)
    (hreplacement : m.replacement ≠ "") :
    (Fused mutated m.start ↔ Fuse (endingAt? text m.start) m.replacement.toList.head?) ∧
      (Fused mutated (m.start + m.replacement.utf8ByteSize) ↔
        Fuse m.replacement.toList.getLast? (startingAt? text m.stop)) := by
  obtain ⟨first, rest, he, hstart, hstop⟩ := slice?_eq_some_iff.mp h.removed
  have hne : m.replacement.toList ≠ [] := by simpa using hreplacement
  have hmutated : mutated.toList = first ++ m.replacement.toList ++ rest := by
    rw [inject?_eq he hstart hstop] at hinject
    cases hinject
    exact String.toList_ofList
  have hleft : startingAt? mutated m.start = m.replacement.toList.head? := by
    rw [← hstart, startingAt?_eq (hmutated.trans (List.append_assoc ..))]
    exact List.head?_append_of_ne_nil _ hne
  have hright : endingAt? mutated (m.start + m.replacement.utf8ByteSize) =
      m.replacement.toList.getLast? := by
    rw [← hstart, ← width_toList, ← width_append, endingAt?_eq hmutated]
    exact List.getLast?_append_of_ne_nil _ hne
  have hbefore : endingAt? mutated m.start = endingAt? text m.start := by
    rw [← hstart, endingAt?_eq (hmutated.trans (List.append_assoc ..)),
      endingAt?_eq (he.trans (List.append_assoc ..))]
  have hbehind : startingAt? mutated (m.start + m.replacement.utf8ByteSize) =
      startingAt? text m.stop := by
    rw [← hstop, ← hstart, ← width_toList, ← width_append, ← width_append, startingAt?_eq hmutated,
      startingAt?_eq he]
  constructor
  · rw [Fused, hbefore, hleft]
  · rw [Fused, hright, hbehind]

theorem fused_behind_sign {c : Char} (h : m.Fits text) (hinject : m.inject? text = some mutated)
    (hc : isSign c = true) (hreplacement : m.replacement = String.singleton c) :
    Fused mutated (m.start + 1) ↔ startingAt? text m.stop = some c := by
  have hsize : c.utf8Size = 1 := by
    rcases isSign_iff.mp hc with rfl | rfl <;> rfl
  obtain ⟨-, hright⟩ := fused_iff h hinject (by simp [hreplacement])
  rw [hreplacement, String.utf8ByteSize_singleton, hsize] at hright
  rw [hright]
  simpa using fuse_sign_left hc

end Mutant

end Mutagen
