import Mutagen.Proofs.Coverage.Offsets

/-!
# The children ahead

The insertions of a node are made child by child, while the body of a declaration has a counter
that was made before all of them. `Ahead` is what holds of the children that are still to come,
and `sort_named` puts the insertions of the first of them before the others.
-/

namespace Mutagen.Coverage

open Text Insertion

variable {object text : String}

-- ---------------------------------------------------------------------------
-- The counter in a body
-- ---------------------------------------------------------------------------

def leadOf (object : String) (owner : Option Nat) (body : Node) : List Insertion :=
  match owner with
  | none => []
  | some id => [⟨body.start + 1, false, counter object .functions id⟩]

def bodyAmong (before children : List Node) : Option Node :=
  if before.all (·.field != some "body") then children.find? (·.field == some "body") else none

def leadFrom (object : String) (id : Option Nat) (before children : List Node) :
    List Insertion :=
  match bodyAmong before children with
  | none => []
  | some body => leadOf object id body

theorem bodyAmong_cons (label : Label) (above : List Surround) (before : List Node) (child : Node)
    (rest : List Node) : bodyAmong before (child :: rest) =
      if Site.fills ⟨child, ⟨label, before, rest⟩ :: above⟩ "body" then some child
      else bodyAmong (child :: before) rest := by
  by_cases hc : child.field = some "body"
  · simp [bodyAmong, Site.fills, hc]
  · simp [bodyAmong, Site.fills, hc, List.find?_cons_of_neg]

theorem bodyAmong_of_fills {label : Label} {above : List Surround} {before : List Node}
    {child : Node} {rest : List Node}
    (h : Site.fills ⟨child, ⟨label, before, rest⟩ :: above⟩ "body" = true) :
    bodyAmong (child :: before) rest = none := by
  obtain ⟨hc, -⟩ : child.field = some "body" ∧ _ := by simpa [Site.fills] using h
  simp [bodyAmong, hc]

theorem mem_of_bodyAmong {before children : List Node} {body : Node}
    (h : bodyAmong before children = some body) : body ∈ children := by
  unfold bodyAmong at h
  split at h
  · exact List.mem_of_find?_eq_some h
  · cases h

theorem mem_leadOf {id : Option Nat} {body : Node} {i : Insertion} (h : i ∈ leadOf object id body) :
    ∃ owner, id = some owner ∧ i = ⟨body.start + 1, false, counter object .functions owner⟩ := by
  cases id with
  | none => cases h
  | some owner => exact ⟨owner, rfl, List.mem_singleton.mp h⟩

theorem mem_leadFrom {id : Option Nat} {before children : List Node} {i : Insertion}
    (h : i ∈ leadFrom object id before children) :
    ∃ body, bodyAmong before children = some body ∧ i ∈ leadOf object id body := by
  unfold leadFrom at h
  split at h
  · cases h
  · rename_i body hbody
    exact ⟨body, hbody, h⟩

theorem Slot.ofSite_of_block {s : Site} (h : s.kind = "statement_block") :
    Slot.ofSite s = .nowhere := by
  have hd : declarations.contains s.kind = false := by rw [h]; rfl
  have hs : statements.contains s.kind = false := by rw [h]; rfl
  rw [ofSite, hd, hs]
  rfl

-- ---------------------------------------------------------------------------
-- What is still to come of a node
-- ---------------------------------------------------------------------------

/-- From `cursor` on there are only the children that follow `before`, with room for what they
get. -/
structure Ahead (text : String) (above : List Surround) (label : Label) (id : Option Nat)
    (before children : List Node) (cursor : Nat) : Prop where
  cut : IsCut text cursor
  cut_stop : IsCut text label.stop
  le : cursor ≤ label.stop
  fits : ∀ child ∈ children, child.Fits text
  room : ∀ s ∈ countedFrom above label before children, Room text s
  apart : children.Pairwise fun a b => a.stop ≤ b.start
  behind : ∀ child ∈ children, child.isNamed = true → cursor ≤ child.start
  le_stop : ∀ child ∈ children, child.stop ≤ label.stop
  body : id.isSome = true → ∀ body ∈ bodyAmong before children, Braced text body

variable {above : List Surround} {label : Label} {id : Option Nat} {before rest : List Node}
  {child : Node} {cursor next : Nat}

theorem Ahead.body_rest (h : Ahead text above label id before (child :: rest) cursor)
    (hid : id.isSome = true) : ∀ body ∈ bodyAmong (child :: before) rest, Braced text body := by
  intro body hbody
  cases hf : Site.fills ⟨child, ⟨label, before, rest⟩ :: above⟩ "body" with
  | true =>
    rw [bodyAmong_of_fills hf] at hbody
    cases hbody
  | false =>
    refine h.body hid body ?_
    rwa [bodyAmong_cons label above, hf]

theorem Ahead.skip (h : Ahead text above label id before (child :: rest) cursor)
    (hn : child.isNamed = false) : Ahead text above label id (child :: before) rest cursor where
  cut := h.cut
  cut_stop := h.cut_stop
  le := h.le
  fits c hc := h.fits c (List.mem_cons_of_mem _ hc)
  room s hs := by
    refine h.room s ?_
    rwa [countedFrom_cons, hn]
  apart := (List.pairwise_cons.mp h.apart).2
  behind c hc := h.behind c (List.mem_cons_of_mem _ hc)
  le_stop c hc := h.le_stop c (List.mem_cons_of_mem _ hc)
  body := h.body_rest

theorem Ahead.pass (h : Ahead text above label id before (child :: rest) cursor) :
    Ahead text above label id (child :: before) rest child.stop where
  cut := (h.fits child List.mem_cons_self).cut_self.2
  cut_stop := h.cut_stop
  le := h.le_stop child List.mem_cons_self
  fits c hc := h.fits c (List.mem_cons_of_mem _ hc)
  room s hs := by
    refine h.room s ?_
    rw [countedFrom_cons]
    exact List.mem_append_right _ hs
  apart := (List.pairwise_cons.mp h.apart).2
  behind c hc _ := (List.pairwise_cons.mp h.apart).1 c hc
  le_stop c hc := h.le_stop c (List.mem_cons_of_mem _ hc)
  body := h.body_rest

theorem Ahead.roomy (h : Ahead text above label id before (child :: rest) cursor)
    (hn : child.isNamed = true) : Roomy text (⟨label, before, rest⟩ :: above) child where
  toFits := h.fits child List.mem_cons_self
  room s hs := by
    refine h.room s ?_
    rw [countedFrom_cons, hn]
    exact List.mem_append_left _ hs

/-- The first child is the body of the declaration `id`, or not a body. -/
theorem Ahead.owner (h : Ahead text above label id before (child :: rest) cursor)
    (ho : (if Site.fills ⟨child, ⟨label, before, rest⟩ :: above⟩ "body" then id
      else none).isSome = true) : Braced text child := by
  split at ho
  · rename_i hf
    refine h.body ho child ?_
    rw [bodyAmong_cons label above, hf]
    rfl
  · cases ho

theorem within_leadOf {owner : Option Nat} {n : Node} (h : owner.isSome = true → Braced text n)
    {i : Insertion} (hi : i ∈ leadOf object owner n) : Within text n.start n.stop i := by
  obtain ⟨id, rfl, rfl⟩ := mem_leadOf hi
  exact opening_within (h rfl).opens.isCut (Nat.le_succ _) (h rfl).lt

theorem within_subtree (object : String) (next : Nat) {owner : Option Nat} {n : Node}
    (hn : Roomy text above n) (h : owner.isSome = true → Braced text n) :
    ∀ i ∈ leadOf object owner n ++ insertionsOf object next (counted above n),
      Within text n.start n.stop i := by
  intro i hi
  rcases List.mem_append.mp hi with hi | hi
  · exact within_leadOf h hi
  · exact within_insertionsOf object hn next i hi

theorem Ahead.within (object : String) (next : Nat) {children : List Node}
    (h : Ahead text above label id before children cursor) :
    ∀ i ∈ leadFrom object id before children ++
      insertionsOf object next (countedFrom above label before children),
      Within text cursor label.stop i := by
  intro i hi
  rcases List.mem_append.mp hi with hi | hi
  · obtain ⟨body, hbody, hi⟩ := mem_leadFrom hi
    have hid : id.isSome = true := by
      obtain ⟨owner, rfl, -⟩ := mem_leadOf hi
      rfl
    have hbraced := h.body hid body hbody
    have hmem := mem_of_bodyAmong hbody
    exact (within_leadOf (fun _ => hbraced) hi).mono (h.behind body hmem hbraced.named)
      (h.le_stop body hmem)
  · obtain ⟨s, hs, id, -, -, hi⟩ := mem_insertionsOf hi
    obtain ⟨child, hc, hn, hmem⟩ := mem_countedFrom hs
    have hfit := h.fits child hc
    obtain ⟨hstart, -, hstop⟩ := hfit.range_of_mem hmem
    exact (within_insertionsAt (hfit.of_mem hmem) (h.room s hs) hi).mono
      (Nat.le_trans (h.behind child hc hn) hstart) (Nat.le_trans hstop (h.le_stop child hc))

theorem Roomy.ahead {children : List Node} (h : Roomy text above (.mk label children))
    (hid : id.isSome = true → ∀ body ∈ bodyAmong [] children, Braced text body) :
    Ahead text above label id [] children label.start where
  cut := h.cut_self.1
  cut_stop := h.cut_self.2
  le := h.self.le
  fits child hc := h.toFits.of_mem (Node.mem_nodes_child hc)
  room s hs := by
    refine h.room s ?_
    rw [counted_mk]
    exact List.mem_append_right _ hs
  apart := h.self.apart
  behind child hc _ := (h.self.inside child hc).1
  le_stop child hc := (h.self.inside child hc).2
  body := hid

theorem Roomy.ahead_braced {children : List Node} (h : Roomy text above (.mk label children))
    (hb : Braced text (.mk label children)) :
    Ahead text above label none [] children (label.start + 1) :=
  have hfirst : Ahead text above label none [] children label.start := h.ahead nofun
  { hfirst with
    cut := hb.opens.isCut
    le := Nat.le_of_lt hb.lt
    behind := hb.behind }

theorem leadFrom_none (before children : List Node) : leadFrom object none before children = [] := by
  unfold leadFrom
  split <;> rfl

theorem bodyAmong_of_child? {s body : Site} (h : s.child? "body" = some body) :
    bodyAmong [] s.node.children = some body.node := by
  rw [bodyAmong, List.all_nil, if_pos rfl, ← Site.node_child?, h]
  rfl

theorem insertionsOf_counted {children : List Node}
    (h : isCounted ⟨.mk label children, above⟩ = true) (object : String) (next : Nat) :
    insertionsOf object next (counted above (.mk label children)) =
      insertionsAt object ⟨.mk label children, above⟩ next ++
        insertionsOf object (next + 1) (countedFrom above label [] children) := by
  rw [counted_mk, if_pos h, List.singleton_append, insertionsOf_cons]

-- ---------------------------------------------------------------------------
-- One child after the other
-- ---------------------------------------------------------------------------

theorem sort_leadFrom (h : Ahead text above label id before (child :: rest) cursor)
    {first : List Insertion} (hfirst : ∀ i ∈ first, i.offset ≤ child.stop)
    (later : List Insertion) :
    sort (leadFrom object id (child :: before) rest ++ (first ++ later)) =
      sort (first ++ (leadFrom object id (child :: before) rest ++ later)) := by
  cases hlead : leadFrom object id (child :: before) rest with
  | nil => rfl
  | cons i others =>
    obtain ⟨body, hbody, hi⟩ := mem_leadFrom (hlead ▸ List.mem_cons_self)
    obtain ⟨owner, rfl, rfl⟩ := mem_leadOf hi
    obtain rfl : others = [] := by simpa [leadFrom, hbody, leadOf, eq_comm] using hlead
    have hle : child.stop ≤ body.start :=
      (List.pairwise_cons.mp h.apart).1 body (mem_of_bodyAmong hbody)
    -- a counter behind a later brace has another offset than all that came so far
    refine sort_move later fun i hi => .inr ?_
    have hlt := hfirst i hi
    rw [Bool.eq_false_iff, Ne, sameRank_iff]
    rintro ⟨hoffset, -⟩
    simp only at hoffset
    omega

/-- In order, all that a named child gets comes before all that is for later ones. -/
theorem sort_named (h : Ahead text above label id before (child :: rest) cursor)
    (hn : child.isNamed = true) :
    sort (leadFrom object id before (child :: rest) ++
        insertionsOf object next (countedFrom above label before (child :: rest))) =
      sort (leadOf object
          (if Site.fills ⟨child, ⟨label, before, rest⟩ :: above⟩ "body" then id else none) child ++
        insertionsOf object next (counted (⟨label, before, rest⟩ :: above) child)) ++
      sort (leadFrom object id (child :: before) rest ++
        insertionsOf object (next + (counted (⟨label, before, rest⟩ :: above) child).length)
          (countedFrom above label (child :: before) rest)) := by
  have hchild := within_subtree object next (h.roomy hn) h.owner
  have hrest := h.pass.within object
    (next + (counted (⟨label, before, rest⟩ :: above) child).length)
  rw [← sort_append fun i hi j hj => (hchild i hi).precedes (hrest j hj), countedFrom_cons, hn,
    if_pos rfl, insertionsOf_append, leadFrom, bodyAmong_cons label above]
  cases hf : Site.fills ⟨child, ⟨label, before, rest⟩ :: above⟩ "body" with
  | true => simp [leadFrom, bodyAmong_of_fills hf]
  | false =>
    have hfirst := fun i hi => (within_insertionsOf object (h.roomy hn) next i hi).le_stop
    exact sort_leadFrom h hfirst _

theorem insertions_unnamed (hn : child.isNamed = false)
    (h : Ahead text above label id before (child :: rest) cursor) :
    leadFrom object id before (child :: rest) ++
        insertionsOf object next (countedFrom above label before (child :: rest)) =
      leadFrom object id (child :: before) rest ++
        insertionsOf object next (countedFrom above label (child :: before) rest) := by
  have hlead : leadFrom object id before (child :: rest) =
      leadFrom object id (child :: before) rest := by
    cases hf : Site.fills ⟨child, ⟨label, before, rest⟩ :: above⟩ "body" with
    | false => rw [leadFrom, bodyAmong_cons label above, hf, leadFrom]; rfl
    | true =>
      have hbody : bodyAmong before (child :: rest) = some child := by
        rw [bodyAmong_cons label above, hf]
        rfl
      have hid : id = none := by
        rw [← Option.not_isSome_iff_eq_none]
        intro hid
        have hbraced := h.body hid child hbody
        exact absurd hbraced.named (by simp [hn])
      simp [leadFrom, hbody, bodyAmong_of_fills hf, hid, leadOf]
  rw [hlead, countedFrom_cons, hn]
  rfl

end Mutagen.Coverage
