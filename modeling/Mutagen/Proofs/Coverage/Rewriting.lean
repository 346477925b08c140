import Mutagen.Proofs.Coverage.Ahead

/-!
# Instrumenting by recursion on the tree

`rewrite` puts the counters of a subtree into its text without offsets or sorting: each node is
its children, rewritten, with the text between them. This is what the sorted insertions of a
subtree amount to (`splices`), so a plan renders to the rewritten text (`Plan.render?_ofTree`).
-/

namespace Mutagen.Coverage

open Text Insertion

mutual
/-- The text of a subtree with the counters of its sites, whose ids start with `next`. If the node
is the body of a declaration, `owner` is the id of that declaration. -/
def rewrite (object text : String) (above : List Surround) (next : Nat) (owner : Option Nat) :
    Node → List Char
  | .mk label children =>
    match Slot.ofSite ⟨.mk label children, above⟩ with
    | .inside _ =>
      rewriteFrom object text above label (next + 1) (some next) [] label.start children
    | .before =>
      (counter object .statements next).toList ++
        rewriteFrom object text above label (next + 1) none [] label.start children
    | .around =>
      ['\x7b'] ++ (counter object .statements next).toList ++
        rewriteFrom object text above label (next + 1) none [] label.start children ++ ['\x7d']
    | .nowhere =>
      match owner with
      | none => rewriteFrom object text above label next none [] label.start children
      | some id =>
        between text label.start (label.start + 1) ++ (counter object .functions id).toList ++
          rewriteFrom object text above label next none [] (label.start + 1) children

/-- The text of a node from `cursor` on, where only the children that follow `before` are to come.
If the node is a declaration, `id` is its id. -/
def rewriteFrom (object text : String) (above : List Surround) (label : Label) (next : Nat)
    (id : Option Nat) (before : List Node) (cursor : Nat) : List Node → List Char
  | [] => between text cursor label.stop
  | child :: rest =>
    if child.isNamed then
      let s : Site := ⟨child, ⟨label, before, rest⟩ :: above⟩
      between text cursor child.start ++
        rewrite object text s.above next (if s.fills "body" then id else none) child ++
        rewriteFrom object text above label (next + (counted s.above child).length) id
          (child :: before) child.stop rest
    else rewriteFrom object text above label next id (child :: before) cursor rest
end

def rewriting (object text : String) (root : Node) : String :=
  String.ofList
    (between text 0 root.start ++ rewrite object text [] 1 none root ++
      between text root.stop (width text.toList))

variable {object text : String} {above : List Surround} {label : Label} {id : Option Nat}
  {before rest : List Node} {child : Node} {cursor next : Nat}

-- ---------------------------------------------------------------------------
-- The insertions of a subtree
-- ---------------------------------------------------------------------------

def Splices (object text : String) (n : Node) : Prop :=
  ∀ (above : List Surround) (next : Nat) (owner : Option Nat), Roomy text above n →
    (owner.isSome = true → Braced text n) →
    spliced text n.start n.stop
        (sort (leadOf object owner n ++ insertionsOf object next (counted above n))) =
      rewrite object text above next owner n

theorem spliced_named (h : Ahead text above label id before (child :: rest) cursor)
    (hn : child.isNamed = true) (hchild : Splices object text child) :
    spliced text cursor label.stop (sort (leadFrom object id before (child :: rest) ++
        insertionsOf object next (countedFrom above label before (child :: rest)))) =
      between text cursor child.start ++
        rewrite object text (⟨label, before, rest⟩ :: above) next
          (if Site.fills ⟨child, ⟨label, before, rest⟩ :: above⟩ "body" then id else none) child ++
        spliced text child.stop label.stop (sort (leadFrom object id (child :: before) rest ++
          insertionsOf object (next + (counted (⟨label, before, rest⟩ :: above) child).length)
            (countedFrom above label (child :: before) rest))) := by
  have hroomy := h.roomy hn
  obtain ⟨hstart, hstop⟩ := hroomy.cut_self
  have hbehind := h.behind child List.mem_cons_self hn
  have hle : child.start ≤ child.stop := hroomy.self.le
  have hfirst := within_subtree object next hroomy h.owner
  have hrest := h.pass.within object
    (next + (counted (⟨label, before, rest⟩ :: above) child).length)
  rw [sort_named h hn,
    spliced_append h.cut hstop h.cut_stop (Nat.le_trans hbehind hle) h.pass.le
      (le_stop_of_mem_sort hfirst) (le_of_mem_sort hrest),
    spliced_gap h.cut hstart hstop hbehind hle (le_of_mem_sort hfirst),
    hchild _ next _ hroomy h.owner]

theorem spliced_children (next : Nat) {children : List Node}
    (hs : ∀ c ∈ children, Splices object text c)
    (h : Ahead text above label id before children cursor) :
    spliced text cursor label.stop (sort (leadFrom object id before children ++
        insertionsOf object next (countedFrom above label before children))) =
      rewriteFrom object text above label next id before cursor children := by
  induction children generalizing before cursor next with
  | nil =>
    have hnone : leadFrom object id before [] = [] := by simp [leadFrom, bodyAmong]
    rw [hnone, rewriteFrom]
    simp [insertionsOf, countedFrom, Site.constructsFrom, spliced]
  | cons child rest ih =>
    have hrest := fun c hc => hs c (List.mem_cons_of_mem _ hc)
    rw [rewriteFrom]
    cases hn : child.isNamed with
    | true =>
      rw [spliced_named h hn (hs child List.mem_cons_self), ih _ hrest h.pass]
      rfl
    -- the text of a child without a name is copied with what comes before the next one
    | false =>
      rw [insertions_unnamed hn h, ih _ hrest (h.skip hn)]
      rfl

/-- What the children of a node with no counter for a body get. -/
theorem spliced_inner {children : List Node} (hs : ∀ c ∈ children, Splices object text c)
    (h : Ahead text above label none [] children cursor) (next : Nat) :
    (∀ i ∈ insertionsOf object next (countedFrom above label [] children),
      Within text cursor label.stop i) ∧
    spliced text cursor label.stop
        (sort (insertionsOf object next (countedFrom above label [] children))) =
      rewriteFrom object text above label next none [] cursor children := by
  have hwithin := h.within object next
  have hspliced := spliced_children next hs h
  rw [leadFrom_none, List.nil_append] at hwithin hspliced
  exact ⟨hwithin, hspliced⟩

-- ---------------------------------------------------------------------------
-- One slot after the other
-- ---------------------------------------------------------------------------

variable {children : List Node}

theorem splices_inside {body : Site} (hs : ∀ c ∈ children, Splices object text c)
    (h : Roomy text above (.mk label children))
    (hslot : Slot.ofSite ⟨.mk label children, above⟩ = .inside body) :
    spliced text label.start label.stop
        (sort (insertionsOf object next (counted above (.mk label children)))) =
      rewrite object text above next none (.mk label children) := by
  have hcounted : isCounted ⟨.mk label children, above⟩ = true := by simp [isCounted, hslot]
  have hbody : bodyAmong [] children = some body.node :=
    bodyAmong_of_child? (Slot.ofSite_inside hslot).2
  have hbraced : Braced text body.node :=
    (h.room _ (mem_counted_self hcounted)).of_inside hslot
  have hahead : Ahead text above label (some next) [] children label.start := by
    refine h.ahead fun _ b hb => ?_
    rw [hbody] at hb
    cases hb
    exact hbraced
  have hall : insertionsOf object next (counted above (.mk label children)) =
      leadFrom object (some next) [] children ++
        insertionsOf object (next + 1) (countedFrom above label [] children) := by
    rw [insertionsOf_counted hcounted, insertionsAt, hslot, leadFrom, hbody]
    rfl
  rw [hall, spliced_children (next + 1) hs hahead]
  simp only [rewrite, hslot]

theorem splices_before (hs : ∀ c ∈ children, Splices object text c)
    (h : Roomy text above (.mk label children))
    (hslot : Slot.ofSite ⟨.mk label children, above⟩ = .before) :
    spliced text label.start label.stop
        (sort (insertionsOf object next (counted above (.mk label children)))) =
      rewrite object text above next none (.mk label children) := by
  have hcounted : isCounted ⟨.mk label children, above⟩ = true := by simp [isCounted, hslot]
  have hall : insertionsOf object next (counted above (.mk label children)) =
      ⟨label.start, false, counter object .statements next⟩ ::
        insertionsOf object (next + 1) (countedFrom above label [] children) := by
    rw [insertionsOf_counted hcounted, insertionsAt, hslot]
    rfl
  obtain ⟨hwithin, hinner⟩ := spliced_inner hs (h.ahead nofun) (next + 1)
  rw [hall, spliced_opening hwithin, hinner, between_self]
  simp only [rewrite, hslot, List.nil_append]

theorem splices_around (hs : ∀ c ∈ children, Splices object text c)
    (h : Roomy text above (.mk label children))
    (hslot : Slot.ofSite ⟨.mk label children, above⟩ = .around) :
    spliced text label.start label.stop
        (sort (insertionsOf object next (counted above (.mk label children)))) =
      rewrite object text above next none (.mk label children) := by
  have hcounted : isCounted ⟨.mk label children, above⟩ = true := by simp [isCounted, hslot]
  have hall : insertionsOf object next (counted above (.mk label children)) =
      ⟨label.start, false, "\x7b" ++ counter object .statements next⟩ ::
        ⟨label.stop, true, "\x7d"⟩ ::
        insertionsOf object (next + 1) (countedFrom above label [] children) := by
    rw [insertionsOf_counted hcounted, insertionsAt, hslot]
    rfl
  have hlt : label.start < label.stop := (h.room _ (mem_counted_self hcounted)).lt
  obtain ⟨hstart, hstop⟩ : IsCut text label.start ∧ IsCut text label.stop := h.cut_self
  obtain ⟨hwithin, hinner⟩ := spliced_inner hs (h.ahead nofun) (next + 1)
  have hclosed : ∀ i ∈ ⟨label.stop, true, "\x7d"⟩ ::
      insertionsOf object (next + 1) (countedFrom above label [] children),
      Within text label.start label.stop i := by
    rintro i (_ | ⟨_, hi⟩)
    · exact closing_within hstop hlt
    · exact hwithin i hi
  rw [hall, spliced_opening hclosed, spliced_closing hstart hstop (Nat.le_of_lt hlt) hwithin, hinner,
    between_self]
  simp only [rewrite, hslot, String.toList_append, List.nil_append, List.append_assoc]
  rfl

theorem splices_nowhere {owner : Option Nat} (hs : ∀ c ∈ children, Splices object text c)
    (h : Roomy text above (.mk label children))
    (howner : owner.isSome = true → Braced text (.mk label children))
    (hslot : Slot.ofSite ⟨.mk label children, above⟩ = .nowhere) :
    spliced text label.start label.stop (sort (leadOf object owner (.mk label children) ++
        insertionsOf object next (counted above (.mk label children)))) =
      rewrite object text above next owner (.mk label children) := by
  have hcounted : isCounted ⟨.mk label children, above⟩ = false := by simp [isCounted, hslot]
  rw [counted_mk, hcounted]
  simp only [rewrite, hslot]
  cases owner with
  | none =>
    obtain ⟨-, hspliced⟩ := spliced_inner hs (h.ahead nofun) next
    exact hspliced
  | some id =>
    obtain ⟨hwithin, hspliced⟩ := spliced_inner hs (h.ahead_braced (howner rfl)) next
    rw [← hspliced]
    exact spliced_opening hwithin label.start

theorem splices (object text : String) (n : Node) : Splices object text n := by
  induction n using Node.ind with
  | mk label children ih =>
    intro above next owner h howner
    cases owner with
    -- the body of a declaration is a block, which has no counter of its own
    | some id => exact splices_nowhere ih h howner (Slot.ofSite_of_block (howner rfl).block)
    | none =>
      cases hslot : Slot.ofSite ⟨.mk label children, above⟩ with
      | inside body => exact splices_inside ih h hslot
      | before => exact splices_before ih h hslot
      | around => exact splices_around ih h hslot
      | nowhere => exact splices_nowhere ih h howner hslot

-- ---------------------------------------------------------------------------
-- The whole text
-- ---------------------------------------------------------------------------

/-- The plan for a tree that has room for its counters renders to the text rewritten by recursion
on the tree. -/
theorem Plan.render?_ofTree (object : String) {text : String} {root : Node}
    (h : Roomy text [] root) :
    (ofTree object text root).render? text = some (rewriting object text root) := by
  obtain ⟨-, hinsertions⟩ := Plan.ofTree_eq object text root
  obtain ⟨hstart, hstop⟩ := h.cut_self
  have hle : root.start ≤ root.stop := h.self.le
  have hwithin := within_insertionsOf object h 1
  have hroot : spliced text root.start root.stop (sort (insertionsOf object 1 (counted [] root))) =
      rewrite object text [] 1 none root := splices object text root [] 1 none h nofun
  rw [Plan.render?, hinsertions, Insertion.render?_eq fun i hi => (hwithin i hi).cut, rewriting,
    spliced_gap (isCut_zero text) hstart (isCut_width text) (Nat.zero_le _) hstart.le_width
      (le_of_mem_sort hwithin),
    spliced_end hstart hstop (isCut_width text) hle hstop.le_width (le_stop_of_mem_sort hwithin),
    hroot, List.append_assoc]

theorem render?_ofTree_guardedCall :
    let text := "function f()\x7bif(a)b();\x7d"
    Roomy text [] guardedCall ∧ (Plan.ofTree "V" text guardedCall).render? text =
      some "function f()\x7bV.f['1']++;V.s['2']++;if(a)\x7bV.s['3']++;b();\x7d\x7d" := by
  have h : Roomy "function f()\x7bif(a)b();\x7d" [] guardedCall := by decide +kernel
  have hcode : rewriting "V" "function f()\x7bif(a)b();\x7d" guardedCall =
      "function f()\x7bV.f['1']++;V.s['2']++;if(a)\x7bV.s['3']++;b();\x7d\x7d" := by
    decide +kernel
  exact ⟨h, hcode ▸ Plan.render?_ofTree "V" h⟩

end Mutagen.Coverage
