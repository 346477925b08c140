import Mutagen.Proofs.Coverage.Splice
import Mutagen.Proofs.Coverage.Visit

/-!
# Where insertions stand

What is inserted for a subtree stays within its range, and only what closes stands at its end
(`within_insertionsOf`). So the insertions for what comes first in a text precede all others
(`Within.precedes`).
-/

namespace Mutagen.Coverage

open Text Insertion

-- ---------------------------------------------------------------------------
-- Room for counters
-- ---------------------------------------------------------------------------

def Opens (text : String) (body : Node) : Prop :=
  slice? text body.start (body.start + 1) = some "\x7b"

instance (text : String) (body : Node) : Decidable (Opens text body) :=
  inferInstanceAs (Decidable (_ = _))

/-- The body of a function: a block that opens with a brace, of one byte, before all else, and
does not end there. -/
structure Braced (text : String) (body : Node) : Prop where
  named : body.isNamed = true
  block : body.kind = "statement_block"
  opens : Opens text body
  lt : body.start + 1 < body.stop
  behind : ∀ child ∈ body.children, child.isNamed = true → body.start + 1 ≤ child.start

instance (text : String) (body : Node) : Decidable (Braced text body) :=
  decidable_of_iff
    (body.isNamed = true ∧ body.kind = "statement_block" ∧
      Opens text body ∧ body.start + 1 < body.stop ∧
      ∀ child ∈ body.children, child.isNamed = true → body.start + 1 ≤ child.start)
    ⟨fun ⟨named, block, opens, lt, behind⟩ => ⟨named, block, opens, lt, behind⟩,
      fun h => ⟨h.named, h.block, h.opens, h.lt, h.behind⟩⟩

structure Room (text : String) (s : Site) : Prop where
  lt : s.start < s.stop
  braced : declarations.contains s.kind = true → ∀ body ∈ s.child? "body", Braced text body.node

instance (text : String) (s : Site) : Decidable (Room text s) :=
  decidable_of_iff
    (s.start < s.stop ∧
      (declarations.contains s.kind = true → ∀ body ∈ s.child? "body", Braced text body.node))
    ⟨fun ⟨lt, braced⟩ => ⟨lt, braced⟩, fun h => ⟨h.lt, h.braced⟩⟩

structure Roomy (text : String) (above : List Surround) (n : Node) : Prop
    extends n.Fits text where
  room : ∀ s ∈ counted above n, Room text s

instance (text : String) (above : List Surround) (n : Node) : Decidable (Roomy text above n) :=
  decidable_of_iff (n.Fits text ∧ ∀ s ∈ counted above n, Room text s)
    ⟨fun ⟨fits, room⟩ => ⟨fits, room⟩, fun h => ⟨h.toFits, h.room⟩⟩

variable {text : String}

theorem Room.of_inside {s body : Site} (h : Room text s) (hs : Slot.ofSite s = .inside body) :
    Braced text body.node := by
  obtain ⟨hd, hb⟩ := Slot.ofSite_inside hs
  exact h.braced hd body hb

theorem Opens.isCut {body : Node} (h : Opens text body) : IsCut text (body.start + 1) := by
  obtain ⟨first, rest, he, hfirst, hw⟩ := slice?_eq_some_iff.mp h
  exact isCut_iff.mpr ⟨_, rest, he, by rw [width_append, hfirst, hw]⟩

-- ---------------------------------------------------------------------------
-- Counted sites of a node and of its children
-- ---------------------------------------------------------------------------

def countedFrom (above : List Surround) (label : Label) (before children : List Node) :
    List Site :=
  (Site.constructsFrom above label before children).filter isCounted

theorem counted_mk (above : List Surround) (label : Label) (children : List Node) :
    counted above (.mk label children) =
      (if isCounted ⟨.mk label children, above⟩ then [⟨.mk label children, above⟩] else []) ++
        countedFrom above label [] children := by
  unfold counted Site.constructs countedFrom
  rw [List.filter_cons]
  split <;> rfl

theorem mem_counted_self {above : List Surround} {label : Label} {children : List Node}
    (h : isCounted ⟨.mk label children, above⟩ = true) :
    ⟨.mk label children, above⟩ ∈ counted above (.mk label children) := by
  rw [counted_mk, if_pos h]
  exact List.mem_append_left _ (List.mem_singleton_self _)

theorem countedFrom_cons (above : List Surround) (label : Label) (before : List Node)
    (child : Node) (rest : List Node) :
    countedFrom above label before (child :: rest) =
      (if child.isNamed then counted (⟨label, before, rest⟩ :: above) child else []) ++
        countedFrom above label (child :: before) rest := by
  unfold countedFrom counted
  rw [Site.constructsFrom, List.filter_append]
  split <;> rfl

theorem mem_countedFrom {above : List Surround} {label : Label} {before children : List Node}
    {s : Site} (h : s ∈ countedFrom above label before children) :
    ∃ child ∈ children, child.isNamed = true ∧ s.node ∈ child.nodes := by
  obtain ⟨hs, -⟩ := List.mem_filter.mp h
  exact Site.node_mem_constructsFrom hs

-- ---------------------------------------------------------------------------
-- Offsets
-- ---------------------------------------------------------------------------

structure Within (text : String) (start stop : Nat) (i : Insertion) : Prop where
  cut : IsCut text i.offset
  le : start ≤ i.offset
  le_stop : i.offset ≤ stop
  opens : i.closing = false → i.offset < stop
  closes : i.closing = true → start < i.offset ∧ i.text = "\x7d"

theorem Within.mono {start stop start' stop' : Nat} {i : Insertion} (h : Within text start stop i)
    (hstart : start' ≤ start) (hstop : stop ≤ stop') : Within text start' stop' i where
  cut := h.cut
  le := Nat.le_trans hstart h.le
  le_stop := Nat.le_trans h.le_stop hstop
  opens hi := Nat.lt_of_lt_of_le (h.opens hi) hstop
  closes hi := ⟨Nat.lt_of_le_of_lt hstart (h.closes hi).1, (h.closes hi).2⟩

theorem Within.precedes {start middle stop : Nat} {i j : Insertion}
    (hi : Within text start middle i) (hj : Within text middle stop j) :
    i.precedes j = true := by
  rw [Insertion.precedes_iff]
  rcases Nat.lt_or_eq_of_le (Nat.le_trans hi.le_stop hj.le) with hlt | heq
  · exact .inl hlt
  · refine .inr ⟨heq, fun hclose => ?_⟩
    have hlt := (hj.closes hclose).1
    exact absurd hi.le_stop (Nat.not_le_of_lt (heq ▸ hlt))

theorem opening_within {start stop offset : Nat} {inserted : String} (hcut : IsCut text offset)
    (hle : start ≤ offset) (hlt : offset < stop) :
    Within text start stop ⟨offset, false, inserted⟩ :=
  ⟨hcut, hle, Nat.le_of_lt hlt, fun _ => hlt, (nomatch ·)⟩

theorem closing_within {start stop : Nat} (hcut : IsCut text stop) (hlt : start < stop) :
    Within text start stop ⟨stop, true, "\x7d"⟩ :=
  ⟨hcut, Nat.le_of_lt hlt, Nat.le_refl _, (nomatch ·), fun _ => ⟨hlt, rfl⟩⟩

theorem isCut_insertionsAt {object : String} {s : Site} {id : Nat} {i : Insertion}
    (hcut : IsCut text s.start ∧ IsCut text s.stop)
    (hopens : ∀ body, Slot.ofSite s = .inside body → Opens text body.node)
    (h : i ∈ insertionsAt object s id) : IsCut text i.offset := by
  unfold insertionsAt at h
  split at h
  · rename_i body hslot
    obtain rfl := List.mem_singleton.mp h
    exact (hopens body hslot).isCut
  · obtain rfl := List.mem_singleton.mp h
    exact hcut.1
  · rcases List.mem_cons.mp h with rfl | h
    · exact hcut.1
    · obtain rfl := List.mem_singleton.mp h
      exact hcut.2
  · cases h

theorem within_insertionsAt {object : String} {s : Site} {id : Nat} {i : Insertion}
    (hfit : s.node.Fits text) (hroom : Room text s) (h : i ∈ insertionsAt object s id) :
    Within text s.start s.stop i := by
  unfold insertionsAt at h
  split at h
  · rename_i body hslot
    obtain rfl := List.mem_singleton.mp h
    have hbody := hroom.of_inside hslot
    obtain ⟨hstart, hstop⟩ := hfit.self.inside body.node (Site.child?_mem (Slot.ofSite_inside hslot).2)
    exact opening_within hbody.opens.isCut (Nat.le_succ_of_le hstart) (Nat.lt_of_lt_of_le hbody.lt hstop)
  · obtain rfl := List.mem_singleton.mp h
    exact opening_within hfit.cut_self.1 (Nat.le_refl _) hroom.lt
  · rcases List.mem_cons.mp h with rfl | h
    · exact opening_within hfit.cut_self.1 (Nat.le_refl _) hroom.lt
    · obtain rfl := List.mem_singleton.mp h
      exact closing_within hfit.cut_self.2 hroom.lt
  · cases h

theorem within_insertionsOf (object : String) {above : List Surround} {n : Node}
    (h : Roomy text above n) (next : Nat) :
    ∀ i ∈ insertionsOf object next (counted above n), Within text n.start n.stop i := by
  intro i hi
  obtain ⟨s, hs, id, -, -, hi⟩ := mem_insertionsOf hi
  have hmem : s.node ∈ n.nodes := Site.node_mem_constructs (List.mem_filter.mp hs).1
  obtain ⟨hstart, -, hstop⟩ := h.range_of_mem hmem
  exact (within_insertionsAt (h.toFits.of_mem hmem) (h.room s hs) hi).mono hstart hstop

-- ---------------------------------------------------------------------------
-- Around a subtree
-- ---------------------------------------------------------------------------

theorem le_of_mem_sort {start stop : Nat} {inner : List Insertion}
    (h : ∀ i ∈ inner, Within text start stop i) :
    ∀ i ∈ sort inner, IsCut text i.offset ∧ start ≤ i.offset := by
  intro i hi
  have hi := h i (mem_sort.mp hi)
  exact ⟨hi.cut, hi.le⟩

theorem le_stop_of_mem_sort {start stop : Nat} {inner : List Insertion}
    (h : ∀ i ∈ inner, Within text start stop i) :
    ∀ i ∈ sort inner, IsCut text i.offset ∧ i.offset ≤ stop := by
  intro i hi
  have hi := h i (mem_sort.mp hi)
  exact ⟨hi.cut, hi.le_stop⟩

/-- What opens a stretch of text comes before all that stands within it. -/
theorem spliced_opening {start stop : Nat} {inserted : String} {inner : List Insertion}
    (h : ∀ i ∈ inner, Within text start stop i) (cursor : Nat) :
    spliced text cursor stop (sort (⟨start, false, inserted⟩ :: inner)) =
      between text cursor start ++ inserted.toList ++ spliced text start stop (sort inner) := by
  rw [sort_cons]
  · rfl
  · intro i hi
    rw [precedes_iff]
    rcases Nat.lt_or_eq_of_le (h i hi).le with hlt | heq
    · exact .inl hlt
    · refine .inr ⟨heq, fun hclose => ?_⟩
      exact absurd heq (Nat.ne_of_lt ((h i hi).closes hclose).1)

theorem sort_closing {start stop : Nat} {inner : List Insertion}
    (h : ∀ i ∈ inner, Within text start stop i) :
    sort (⟨stop, true, "\x7d"⟩ :: inner) = sort inner ++ [⟨stop, true, "\x7d"⟩] := by
  have hmove : sort (⟨stop, true, "\x7d"⟩ :: (inner ++ [])) =
      sort (inner ++ [⟨stop, true, "\x7d"⟩]) := by
    refine sort_move [] fun i hi => ?_
    cases hsame : sameRank ⟨stop, true, "\x7d"⟩ i with
    | false => exact .inr rfl
    | true =>
      obtain ⟨hoffset, hclose⟩ := sameRank_iff.mp hsame
      obtain ⟨-, hbrace⟩ := (h i hi).closes hclose.symm
      obtain ⟨offset, closing, inserted⟩ := i
      cases hoffset
      cases hclose
      cases hbrace
      exact .inl rfl
  rw [List.append_nil] at hmove
  rw [hmove, sort_append, sort_singleton]
  intro i hi j hj
  obtain rfl := List.mem_singleton.mp hj
  rw [precedes_iff]
  cases hclose : i.closing with
  | false => exact .inl ((h i hi).opens hclose)
  | true => exact (Nat.lt_or_eq_of_le (h i hi).le_stop).imp_right fun heq => ⟨heq, fun _ => rfl⟩

theorem spliced_closing {start stop : Nat} {inner : List Insertion} (hstart : IsCut text start)
    (hstop : IsCut text stop) (hle : start ≤ stop) (h : ∀ i ∈ inner, Within text start stop i) :
    spliced text start stop (sort (⟨stop, true, "\x7d"⟩ :: inner)) =
      spliced text start stop (sort inner) ++ ['\x7d'] := by
  rw [sort_closing h, spliced_append hstart hstop hstop hle (Nat.le_refl _)
    (le_stop_of_mem_sort h)]
  · simp [spliced]
  · intro i hi
    obtain rfl := List.mem_singleton.mp hi
    exact ⟨hstop, Nat.le_refl _⟩

-- ---------------------------------------------------------------------------
-- Trees with a place for every counter
-- ---------------------------------------------------------------------------

/-- A tree that cuts its text only between characters, in which function bodies open with a brace of
one byte. -/
structure Placeable (text : String) (root : Node) : Prop where
  cut : ∀ n ∈ root.nodes, IsCut text n.start ∧ IsCut text n.stop
  opens : ∀ s ∈ counted [] root, declarations.contains s.kind = true →
    ∀ body ∈ s.child? "body", Opens text body.node

instance (text : String) (root : Node) : Decidable (Placeable text root) :=
  decidable_of_iff
    ((∀ n ∈ root.nodes, IsCut text n.start ∧ IsCut text n.stop) ∧
      ∀ s ∈ counted [] root, declarations.contains s.kind = true →
        ∀ body ∈ s.child? "body", Opens text body.node)
    ⟨fun ⟨cut, opens⟩ => ⟨cut, opens⟩, fun h => ⟨h.cut, h.opens⟩⟩

theorem Placeable.isCut {root : Node} (h : Placeable text root) (object : String) :
    ∀ i ∈ (Plan.ofTree object text root).insertions, IsCut text i.offset := by
  intro i hi
  rw [(Plan.ofTree_eq object text root).2] at hi
  obtain ⟨s, hs, id, -, -, hi⟩ := mem_insertionsOf hi
  have hmem : s.node ∈ root.nodes := Site.node_mem_constructs (List.mem_filter.mp hs).1
  refine isCut_insertionsAt (h.cut _ hmem) (fun body hslot => ?_) hi
  obtain ⟨hd, hbody⟩ := Slot.ofSite_inside hslot
  exact h.opens s hs hd body hbody

/-- A tree that fits its text, in which function bodies open with a brace of one byte. -/
structure Readable (text : String) (root : Node) : Prop extends root.Fits text where
  opens : ∀ s ∈ counted [] root, declarations.contains s.kind = true →
    ∀ body ∈ s.child? "body", Opens text body.node

instance (text : String) (root : Node) : Decidable (Readable text root) :=
  decidable_of_iff
    (root.Fits text ∧ ∀ s ∈ counted [] root, declarations.contains s.kind = true →
      ∀ body ∈ s.child? "body", Opens text body.node)
    ⟨fun ⟨fits, opens⟩ => ⟨fits, opens⟩, fun h => ⟨h.toFits, h.opens⟩⟩

theorem Readable.placeable {root : Node} (h : Readable text root) : Placeable text root :=
  ⟨h.cut, h.opens⟩

theorem Readable.isCut {root : Node} (h : Readable text root) (object : String) :
    ∀ i ∈ (Plan.ofTree object text root).insertions, IsCut text i.offset :=
  h.placeable.isCut object

end Mutagen.Coverage
