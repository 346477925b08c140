import Mutagen.Proofs.Coverage.Visit
import Mutagen.Proofs.Text.Position

/-!
# Ids, counters and spans

In the plan for a well-formed tree the counted sites have the ids from one on, in the order in
which a search finds them. Each id has one counter and the span of its site, and the spans lie to
each other as nodes of a tree do (`Plan.numbering_ofTree`).
-/

namespace Mutagen.Coverage

-- ---------------------------------------------------------------------------
-- Counters tell ids apart
-- ---------------------------------------------------------------------------

def access (table : Table) (id : Nat) : List Char :=
  '.' :: table.name.toList ++ ['[', '\''] ++ Nat.toDigits 10 id ++ ['\'', ']', '+', '+', ';']

theorem counter_toList (object : String) (table : Table) (id : Nat) :
    (counter object table id).toList = object.toList ++ access table id := by
  simp [counter, access]

theorem access_inj {table table' : Table} {id id' : Nat} (h : access table id = access table' id') :
    table = table' ∧ id = id' := by
  cases table <;> cases table' <;> simp [access, Table.name] at h <;>
    exact ⟨rfl, by simpa [Nat.ofDigitChars_toDigits] using congrArg (Nat.ofDigitChars 10 · 0) h⟩

theorem counter_inj {object : String} {table table' : Table} {id id' : Nat} :
    counter object table id = counter object table' id' ↔ table = table' ∧ id = id' := by
  refine ⟨fun h => access_inj ?_, fun ⟨ht, hi⟩ => ht ▸ hi ▸ rfl⟩
  simpa [counter_toList] using congrArg String.toList h

theorem cons_append_ne {c : Char} {name first second : List Char} (h : second.head? ≠ some c) :
    c :: (name ++ first) ≠ name ++ second := by
  induction name with
  | nil =>
    intro he
    obtain rfl : c :: first = second := he
    exact h rfl
  | cons d ds ih =>
    intro he
    obtain ⟨rfl, he⟩ := List.cons.inj he
    exact ih he

/-- A brace in front cannot be mistaken for a part of the object, whatever its name is. -/
theorem brace_counter_ne (object : String) (table table' : Table) (id id' : Nat) :
    "\x7b" ++ counter object table id ≠ counter object table' id' := by
  intro h
  have hlist := congrArg String.toList h
  have hbrace : "\x7b".toList = ['\x7b'] := rfl
  rw [String.toList_append, counter_toList, counter_toList, hbrace, List.singleton_append] at hlist
  have hhead : (access table' id').head? ≠ some '\x7b' := by simp [access]
  exact cons_append_ne hhead hlist

-- ---------------------------------------------------------------------------
-- Counters among the insertions
-- ---------------------------------------------------------------------------

def tableOf (s : Site) : Table := if declarations.contains s.kind then .functions else .statements

/-- An insertion brings a counter, alone or behind an opening brace. -/
def Brings (object : String) (table : Table) (id : Nat) (i : Insertion) : Prop :=
  i.text = increment object table id ∨ i.text = "\x7b" ++ increment object table id

instance (object : String) (table : Table) (id : Nat) : DecidablePred (Brings object table id) :=
  fun _ => inferInstanceAs (Decidable (_ ∨ _))

theorem brings_iff {object : String} {table : Table} {id : Nat} {i : Insertion} :
    Brings object table id i ↔
      i.text = counter object table id ∨ i.text = "\x7b" ++ counter object table id := by
  rw [Brings, counter_eq]

theorem brings_counter {object : String} {table table' : Table} {id id' offset : Nat} :
    Brings object table id ⟨offset, false, counter object table' id'⟩ ↔
      id = id' ∧ table' = table := by
  rw [brings_iff]
  constructor
  · rintro (h | h)
    · obtain ⟨ht, hi⟩ := counter_inj.mp h
      exact ⟨hi.symm, ht⟩
    · exact (brace_counter_ne _ _ _ _ _ h.symm).elim
  · rintro ⟨rfl, rfl⟩
    exact .inl rfl

theorem brings_brace {object : String} {table table' : Table} {id id' offset : Nat} :
    Brings object table id ⟨offset, false, "\x7b" ++ counter object table' id'⟩ ↔
      id = id' ∧ table' = table := by
  rw [brings_iff]
  constructor
  · rintro (h | h)
    · exact (brace_counter_ne _ _ _ _ _ h).elim
    · obtain ⟨ht, hi⟩ := counter_inj.mp ((String.append_right_inj _).mp h)
      exact ⟨hi.symm, ht⟩
  · rintro ⟨rfl, rfl⟩
    exact .inr rfl

theorem not_brings_closing (object : String) (table : Table) (id offset : Nat) :
    ¬Brings object table id ⟨offset, true, "\x7d"⟩ := by
  rw [brings_iff]
  rintro (h | h)
  · have hlength := congrArg (fun text => text.toList.length) h
    simp [counter_toList, access] at hlength
    omega
  · have hhead := congrArg (fun text => text.toList.head?) h
    simp at hhead

theorem countP_insertionsAt (object : String) (table : Table) {s : Site} (id id' : Nat)
    (h : isCounted s = true) :
    (insertionsAt object s id').countP (Brings object table id ·) =
      if id = id' ∧ tableOf s = table then 1 else 0 := by
  unfold insertionsAt
  rcases isCounted_cases h with ⟨body, hslot⟩ | hslot
  · have htable : tableOf s = .functions := if_pos (Slot.ofSite_inside hslot).1
    simp [hslot, List.countP_cons, brings_counter, htable]
  · have htable : tableOf s = .statements := by
      rw [tableOf, (Slot.ofSite_statement hslot).1]
      rfl
    rcases hslot with hslot | hslot
    · simp [hslot, List.countP_cons, brings_counter, htable]
    · simp [hslot, List.countP_cons, brings_brace, not_brings_closing, htable]

theorem text_of_mem_insertionsAt {object : String} {s : Site} {id : Nat} {i : Insertion}
    (h : isCounted s = true) (hi : i ∈ insertionsAt object s id) :
    i.text = "\x7d" ∨ ∃ table, Brings object table id i := by
  unfold insertionsAt at hi
  rcases isCounted_cases h with ⟨body, hslot⟩ | hslot | hslot
  · obtain rfl : i = _ := by simpa [hslot] using hi
    exact .inr ⟨.functions, brings_counter.mpr ⟨rfl, rfl⟩⟩
  · obtain rfl : i = _ := by simpa [hslot] using hi
    exact .inr ⟨.statements, brings_counter.mpr ⟨rfl, rfl⟩⟩
  · rw [hslot] at hi
    rcases List.mem_cons.mp hi with rfl | hi
    · exact .inr ⟨.statements, brings_brace.mpr ⟨rfl, rfl⟩⟩
    · obtain rfl := List.mem_singleton.mp hi
      exact .inl rfl

theorem countP_insertionsOf (object : String) (table : Table) (id : Nat) {sites : List Site}
    (h : ∀ s ∈ sites, isCounted s = true) (next : Nat) :
    (insertionsOf object next sites).countP (Brings object table id ·) =
      if next ≤ id ∧ sites[id - next]?.map tableOf = some table then 1 else 0 := by
  induction sites generalizing next with
  | nil => simp [insertionsOf]
  | cons s rest ih =>
    rw [insertionsOf_cons, List.countP_append, countP_insertionsAt object table id next (h s (by simp)),
      ih (fun s hs => h s (List.mem_cons_of_mem _ hs))]
    rcases Nat.lt_trichotomy id next with hlt | rfl | hlt
    · rw [if_neg (by omega), if_neg (by omega), if_neg (by omega)]
    · rw [if_neg (show ¬(id + 1 ≤ id ∧ _) by omega)]
      simp
    · obtain ⟨k, rfl⟩ : ∃ k, id = next + 1 + k := ⟨id - (next + 1), by omega⟩
      have hfirst : next + 1 + k - next = k + 1 := by omega
      have hrest : next + 1 + k - (next + 1) = k := by omega
      have hne : next + 1 + k ≠ next := by omega
      have hle : next ≤ next + 1 + k := by omega
      simp only [hfirst, hrest, hne, hle, Nat.le_add_right, List.getElem?_cons_succ, false_and,
        true_and, if_false, Nat.zero_add]

-- ---------------------------------------------------------------------------
-- Spans of the sites
-- ---------------------------------------------------------------------------

theorem ids_entriesOf (text : String) (next : Nat) (sites : List Site) :
    (entriesOf text next sites).map (·.1) = List.range' next sites.length := by
  rw [entriesOf, List.map_map, ← List.zipIdx_map_snd]
  rfl

theorem find?_entriesOf (text : String) (sites : List Site) (next k : Nat) :
    ((entriesOf text next sites).find? (·.1 == next + k)).map (·.2) =
      sites[k]?.map (spanOf text) := by
  induction sites generalizing next k with
  | nil => simp [entriesOf]
  | cons s rest ih =>
    rw [entriesOf_cons]
    cases k with
    | zero => simp
    | succ k => simpa [Nat.add_assoc, Nat.add_comm 1 k] using ih (next + 1) k

theorem pairwise_entriesOf {text : String} {sites : List Site} {R : Span → Span → Prop}
    (h : sites.Pairwise fun a b => R (spanOf text a) (spanOf text b)) (next : Nat) :
    (entriesOf text next sites).Pairwise fun a b => R a.2 b.2 := by
  induction h generalizing next with
  | nil => exact .nil
  | cons hfirst _ ih =>
    rw [entriesOf_cons]
    refine .cons (fun e he => ?_) (ih (next + 1))
    obtain ⟨⟨other, id⟩, hp, rfl⟩ := List.mem_map.mp he
    obtain ⟨-, -, hother⟩ := List.mem_zipIdx hp
    exact hfirst other (hother ▸ List.getElem_mem _)

def SpanLeads (a b : Span) : Prop := a.start ≤ b.start ∧ (b.Within a ∨ a.Apart b)

theorem spanLeads_spanOf (text : String) {a b : Site} (h : Node.Leads a.node b.node) :
    SpanLeads (spanOf text a) (spanOf text b) := by
  have hle {m n : Nat} (h : m ≤ n) := Position.ofOffset_le text h
  exact ⟨hle h.1, h.2.imp (fun hin => ⟨hle h.1, hle hin⟩) fun hapart => .inl (hle hapart)⟩

-- ---------------------------------------------------------------------------
-- The plan
-- ---------------------------------------------------------------------------

/-- The plan for a well-formed tree numbers the counted ones of the nodes that a search for all
statements and declarations finds: there is an entry with the span of each and one counter for
it, in the table for its kind. Nothing but these counters and closing braces is inserted. -/
theorem Plan.numbering_ofTree (object text : String) {root : Node} (h : root.WellFormed) :
    let plan := Plan.ofTree object text root
    let nodes := (root.sitesOfKind (statements ++ declarations)).filter isCounted
    plan.map.ids = List.range' 1 nodes.length ∧
      (∀ k, plan.map.get? (k + 1) = nodes[k]?.map fun s => .ofOffsets text s.start s.stop) ∧
      (∀ id table, plan.insertions.countP (Brings object table id ·) =
        if 1 ≤ id ∧ nodes[id - 1]?.map tableOf = some table then 1 else 0) ∧
      (∀ i ∈ plan.insertions, i.text = "\x7d" ∨ ∃ id table, Brings object table id i) ∧
      plan.map.entries.Pairwise fun a b =>
        a.2.start ≤ b.2.start ∧ (b.2.Within a.2 ∨ a.2.Apart b.2) := by
  intro plan nodes
  obtain ⟨hentries, hinsertions⟩ := Plan.ofTree_eq object text root
  rw [counted_eq_sitesOfKind h] at hentries hinsertions
  have hcounted : ∀ s ∈ nodes, isCounted s = true := fun s hs => (List.mem_filter.mp hs).2
  refine ⟨?_, fun k => ?_, fun id table => ?_, fun i hi => ?_, ?_⟩
  · rw [StatementMap.ids, hentries, ids_entriesOf]
  · rw [StatementMap.get?, hentries, Nat.add_comm, find?_entriesOf]
    rfl
  · rw [hinsertions, countP_insertionsOf object table id hcounted]
  · rw [hinsertions] at hi
    obtain ⟨s, hs, id, -, -, hi⟩ := mem_insertionsOf hi
    exact (text_of_mem_insertionsAt (hcounted s hs) hi).imp_right fun hbrings => ⟨id, hbrings⟩
  · rw [hentries]
    refine pairwise_entriesOf (R := SpanLeads) ?_ 1
    refine List.Pairwise.imp (spanLeads_spanOf text) ?_
    exact (h.pairwise_sitesOfKind _).sublist List.filter_sublist

theorem numbering_ofTree_guardedCall :
    let plan := Plan.ofTree "V" "function f()\x7bif(a)b();\x7d" guardedCall
    guardedCall.WellFormed ∧ plan.map.ids = [1, 2, 3] ∧
      plan.map.get? 3 = some ⟨⟨0, 18⟩, ⟨0, 22⟩⟩ ∧
      plan.insertions.map (·.text) =
        ["V.f['1']++;", "V.s['2']++;", "\x7bV.s['3']++;", "\x7d"] ∧
      plan.insertions.countP (Brings "V" .functions 1 ·) = 1 ∧
      plan.insertions.countP (Brings "V" .functions 2 ·) = 0 := by
  have h : guardedCall.WellFormed := by decide +kernel
  obtain ⟨hids, hget, hcount, -, -⟩ :=
    Plan.numbering_ofTree "V" "function f()\x7bif(a)b();\x7d" h
  rw [Node.sitesOfKind_eq_filter] at hids hget hcount
  exact ⟨h, hids, hget 2, by decide +kernel, hcount 1 .functions, hcount 2 .functions⟩

end Mutagen.Coverage
