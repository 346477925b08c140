import Mutagen.Command.Mutate
import Mutagen.Proofs.Diff.Tidy
import Mutagen.Proofs.Text.Locate

/-!
# What a line diff shows

The marked lines of a diff make up both texts, cut where lines end, and nothing but kept lines
stand between equal texts. Shown with their signs, they can be told apart again: whatever follows
a `\n` starts with a sign, so that none of it is left out when it is printed.
-/

namespace Mutagen

namespace Text

-- ---------------------------------------------------------------------------
-- Lines
-- ---------------------------------------------------------------------------

def Unbroken (cs : List Char) : Prop := '\n' ∉ cs ∧ '\r' ∉ cs

/-- The lines of a text. A line ends after `\n`, after `\r\n` and after any other `\r`; the last
one ends with the text. -/
inductive Cut : List (List Char) → List Char → Prop
  | nil : Cut [] []
  | last {body} : Unbroken body → body ≠ [] → Cut [body] body
  | feed {body lines cs} : Unbroken body → Cut lines cs →
      Cut ((body ++ ['\n']) :: lines) (body ++ '\n' :: cs)
  | returnFeed {body lines cs} : Unbroken body → Cut lines cs →
      Cut ((body ++ ['\r', '\n']) :: lines) (body ++ '\r' :: '\n' :: cs)
  | loneReturn {body lines cs} : Unbroken body → cs.head? ≠ some '\n' → Cut lines cs →
      Cut ((body ++ ['\r']) :: lines) (body ++ '\r' :: cs)

theorem unbroken_nil : Unbroken [] := by simp [Unbroken]

theorem Unbroken.cons {c : Char} {cs : List Char} (h : Unbroken cs) (hc : ¬(c = '\r' ∨ c = '\n')) :
    Unbroken (c :: cs) := by
  obtain ⟨hreturn, hfeed⟩ := not_or.mp hc
  exact ⟨List.not_mem_cons_of_ne_of_not_mem (Ne.symm hfeed) h.1,
    List.not_mem_cons_of_ne_of_not_mem (Ne.symm hreturn) h.2⟩

theorem Cut.cons {c : Char} {first cs : List Char} {rest : List (List Char)}
    (h : Cut (first :: rest) cs) (hc : ¬(c = '\r' ∨ c = '\n')) :
    Cut ((c :: first) :: rest) (c :: cs) := by
  cases h with
  | last hbody hne => exact .last (hbody.cons hc) (List.cons_ne_nil _ _)
  | feed hbody hrest => exact .feed (hbody.cons hc) hrest
  | returnFeed hbody hrest => exact .returnFeed (hbody.cons hc) hrest
  | loneReturn hbody hhead hrest => exact .loneReturn (hbody.cons hc) hhead hrest

theorem cut_lines (cs : List Char) : Cut (lines cs) cs := by
  fun_induction lines cs with
  | case1 => exact .nil
  | case2 cs ih => exact .returnFeed unbroken_nil ih
  | case3 c cs hpair hc ih =>
    rcases hc with rfl | rfl
    · refine .loneReturn unbroken_nil (fun hhead => ?_) ih
      obtain ⟨more, rfl⟩ := List.head?_eq_some_iff.mp hhead
      exact hpair more rfl rfl
    · exact .feed unbroken_nil ih
  | case4 c cs hpair hc he ih =>
    rw [he] at ih
    cases ih
    exact .last (unbroken_nil.cons hc) (List.cons_ne_nil _ _)
  | case5 c cs hpair hc first rest he ih =>
    rw [he] at ih
    exact ih.cons hc

theorem Cut.feed_notMem {lines : List (List Char)} {cs line : List Char} (h : Cut lines cs)
    (hmem : line ∈ lines) : '\n' ∉ line.dropLast := by
  induction h with
  | nil => cases hmem
  | last hbody _ =>
    obtain rfl := List.mem_singleton.mp hmem
    exact fun h => hbody.1 ((List.dropLast_prefix _).subset h)
  | feed hbody _ ih =>
    rcases List.mem_cons.mp hmem with rfl | hmem
    · rw [List.dropLast_concat]
      exact hbody.1
    · exact ih hmem
  | @returnFeed body lines cs hbody _ ih =>
    rcases List.mem_cons.mp hmem with rfl | hmem
    · have hpair : body ++ ['\r', '\n'] = (body ++ ['\r']) ++ ['\n'] := by simp
      rw [hpair, List.dropLast_concat]
      simp [hbody.1]
    · exact ih hmem
  | loneReturn hbody _ _ ih =>
    rcases List.mem_cons.mp hmem with rfl | hmem
    · rw [List.dropLast_concat]
      exact hbody.1
    · exact ih hmem

-- ---------------------------------------------------------------------------
-- Lines as they are read again
-- ---------------------------------------------------------------------------

theorem feedLines_append_feed {body : List Char} (h : '\n' ∉ body) (cs : List Char) :
    feedLines (body ++ '\n' :: cs) = (body ++ ['\n']) :: feedLines cs := by
  induction body with
  | nil => rfl
  | cons c body ih =>
    have hc := List.ne_of_not_mem_cons h
    rw [List.cons_append, feedLines, if_neg hc.symm, ih (List.not_mem_of_not_mem_cons h)]
    rfl

/-- What no break ends stays the start of a line. -/
theorem exists_feedLines_append {body : List Char} (h : '\n' ∉ body) (hne : body ≠ [])
    (cs : List Char) : ∃ more rest, feedLines (body ++ cs) = (body ++ more) :: rest ∧
      ∀ line ∈ rest, line ∈ feedLines cs := by
  induction body with
  | nil => exact absurd rfl hne
  | cons c body ih =>
    have hc := List.ne_of_not_mem_cons h
    rw [List.cons_append, feedLines, if_neg hc.symm]
    cases body with
    | nil =>
      rw [List.nil_append]
      cases feedLines cs with
      | nil => exact ⟨[], [], rfl, by simp⟩
      | cons first rest => exact ⟨first, rest, rfl, fun line => List.mem_cons_of_mem first⟩
    | cons d body =>
      obtain ⟨more, rest, heq, hrest⟩ := ih (List.not_mem_of_not_mem_cons h) (List.cons_ne_nil _ _)
      rw [heq]
      exact ⟨more, rest, rfl, hrest⟩

/-- A line without the break at its end. -/
def unended : List Char → List Char
  | [] | ['\n'] | ['\r', '\n'] => []
  | c :: cs => c :: unended cs

theorem unended_cons {c : Char} {line : List Char} (hfeed : c ≠ '\n')
    (hpair : c = '\r' → line ≠ ['\n']) : unended (c :: line) = c :: unended line := by
  rw [unended]
  · rintro rfl
    exact absurd rfl hfeed
  · rintro rfl rfl
    exact hpair rfl rfl

theorem flatten_feedLines (cs : List Char) : (feedLines cs).flatten = cs := by
  fun_induction feedLines cs with
  | case1 => rfl
  | case2 cs ih => rw [List.flatten_cons, ih, List.singleton_append]
  | case3 c cs hc he ih =>
    rw [he] at ih
    rw [← ih]
    rfl
  | case4 c cs hc first rest he ih =>
    rw [he] at ih
    rw [← ih]
    rfl

theorem shownLines_eq (cs : List Char) : shownLines cs = (feedLines cs).map unended := by
  fun_induction shownLines cs with
  | case1 => rfl
  | case2 cs ih => simp [feedLines, unended, ih]
  | case3 cs ih => simp [feedLines, unended, ih]
  | case4 c cs hfeed hpair he ih =>
    rw [he] at ih
    rw [feedLines, if_neg hfeed, List.map_eq_nil_iff.mp ih.symm, List.map_singleton,
      unended_cons hfeed fun _ => List.cons_ne_nil _ _ |>.symm]
    rfl
  | case5 c cs hfeed hpair first rest he ih =>
    rw [he] at ih
    obtain ⟨line, more, hlines, rfl, rfl⟩ := List.map_eq_cons_iff.mp ih.symm
    have hline : c = '\r' → line ≠ ['\n'] := by
      rintro rfl rfl
      have hcs := flatten_feedLines cs
      rw [hlines] at hcs
      exact hpair more.flatten rfl hcs.symm
    rw [feedLines, if_neg hfeed, hlines, List.map_cons, unended_cons hfeed hline]

end Text

namespace Diff

-- ---------------------------------------------------------------------------
-- Marked items
-- ---------------------------------------------------------------------------

section Marked

variable {α : Type}

def oldItems (marked : List (Mark × α)) : List α := (marked.filter (·.1 ≠ .inserted)).map (·.2)

def newItems (marked : List (Mark × α)) : List α := (marked.filter (·.1 ≠ .deleted)).map (·.2)

@[simp] theorem oldItems_append (first second : List (Mark × α)) :
    oldItems (first ++ second) = oldItems first ++ oldItems second := by
  simp [oldItems]

@[simp] theorem newItems_append (first second : List (Mark × α)) :
    newItems (first ++ second) = newItems first ++ newItems second := by
  simp [newItems]

theorem oldItems_map (mark : Mark) (items : List α) :
    oldItems (items.map (mark, ·)) = if mark = .inserted then [] else items := by
  cases mark <;> simp [oldItems, List.filter_map, Function.comp_def]

theorem newItems_map (mark : Mark) (items : List α) :
    newItems (items.map (mark, ·)) = if mark = .deleted then [] else items := by
  cases mark <;> simp [newItems, List.filter_map, Function.comp_def]

/-- Nothing is lost when deletions are brought before insertions. -/
theorem sides_marked (deleted inserted : List α) (s : Script α) :
    oldItems (Script.marked deleted inserted s) = deleted ++ s.source ∧
      newItems (Script.marked deleted inserted s) = inserted ++ s.target := by
  fun_induction Script.marked deleted inserted s with
  | case1 => simp [oldItems_map, newItems_map, Script.source, Script.target]
  | case2 deleted inserted items rest ih => simp [ih, Script.source, Script.target]
  | case3 deleted inserted items rest ih => simp [ih, Script.source, Script.target]
  | case4 deleted inserted items rest ih =>
    simp [ih, oldItems_map, newItems_map, Script.source, Script.target]

theorem kept_of_mem_marked {s : Script α} (h : ∀ e ∈ s, e.mark = .kept) {p : Mark × α}
    (hp : p ∈ Script.marked [] [] s) : p.1 = .kept := by
  induction s with
  | nil => cases hp
  | cons e rest ih =>
    obtain ⟨he, hrest⟩ := List.forall_mem_cons.mp h
    obtain ⟨_, items⟩ := e
    cases he
    rcases List.mem_append.mp hp with hitem | hp
    · obtain ⟨a, -, rfl⟩ := List.mem_map.mp hitem
      rfl
    · exact ih hrest hp

theorem oldItems_eq_newItems {marked : List (Mark × α)} (h : ∀ p ∈ marked, p.1 = .kept) :
    oldItems marked = newItems marked := by
  rw [oldItems, newItems, List.filter_eq_self.mpr fun p hp => by simp [h p hp],
    List.filter_eq_self.mpr fun p hp => by simp [h p hp]]

end Marked

theorem sides_ofTexts (old new : String) :
    oldItems (ofTexts old new) = Text.lines old.toList ∧
      newItems (ofTexts old new) = Text.lines new.toList := by
  have hleads := leads_shortest (Text.lines old.toList) (Text.lines new.toList)
  obtain ⟨hsource, htarget⟩ := same_tidy (shortest (Text.lines old.toList) (Text.lines new.toList))
  obtain ⟨hold, hnew⟩ := sides_marked [] []
    (tidy (shortest (Text.lines old.toList) (Text.lines new.toList)))
  rw [hsource, hleads.source] at hold
  rw [htarget, hleads.target] at hnew
  exact ⟨hold, hnew⟩

theorem kept_of_mem_ofTexts_self (text : String) {p : Mark × List Char}
    (h : p ∈ ofTexts text text) : p.1 = .kept := by
  have hkept : ∀ e ∈ shortest (Text.lines text.toList) (Text.lines text.toList), e.mark = .kept :=
    fun e he => kept_of_mem_shortest_self _ he
  rw [ofTexts, tidy_of_kept hkept] at h
  exact kept_of_mem_marked hkept h

-- ---------------------------------------------------------------------------
-- What is shown
-- ---------------------------------------------------------------------------

/-- A line as it is or, where no break ends it, with a `\n` behind it. -/
inductive Completed (line : List Char) : List Char → Prop
  | ended (h : line.getLast? = some '\n' ∨ line.getLast? = some '\r') : Completed line line
  | unended (h : line.getLast? ≠ some '\n' ∧ line.getLast? ≠ some '\r') :
      Completed line (line ++ ['\n'])

/-- The deleted and the inserted lines, completed, each behind its sign. -/
inductive Shows : List (Mark × List Char) → List Char → Prop
  | nil : Shows [] []
  | kept {line rest diff} : Shows rest diff → Shows ((.kept, line) :: rest) diff
  | deleted {line whole rest diff} : Completed line whole → Shows rest diff →
      Shows ((.deleted, line) :: rest) ('-' :: ' ' :: whole ++ diff)
  | inserted {line whole rest diff} : Completed line whole → Shows rest diff →
      Shows ((.inserted, line) :: rest) ('+' :: ' ' :: whole ++ diff)

theorem completed_shownLine (line : List Char) : Completed line (shownLine line) := by
  unfold shownLine
  split
  · rename_i h
    exact .ended (.inl h)
  · rename_i h
    exact .ended (.inr h)
  · rename_i hfeed hreturn
    exact .unended ⟨hfeed, hreturn⟩

theorem shows_flatMap (marked : List (Mark × List Char)) : Shows marked (marked.flatMap shown) := by
  induction marked with
  | nil => exact .nil
  | cons p rest ih =>
    obtain ⟨mark, line⟩ := p
    rw [List.flatMap_cons]
    cases mark with
    | kept => exact .kept ih
    | deleted => exact .deleted (completed_shownLine line) ih
    | inserted => exact .inserted (completed_shownLine line) ih

-- ---------------------------------------------------------------------------
-- Signs
-- ---------------------------------------------------------------------------

theorem render_eq_empty_iff {marked : List (Mark × List Char)} :
    render marked = "" ↔ ∀ p ∈ marked, p.1 = .kept := by
  rw [render, String.ofList_eq_empty_iff, List.flatMap_eq_nil_iff]
  refine forall₂_congr fun p _ => ?_
  obtain ⟨mark, line⟩ := p
  cases mark <;> simp [shown]

def Signed (line : List Char) : Prop := ['-', ' '] <+: line ∨ ['+', ' '] <+: line

theorem Signed.unended {line : List Char} (h : Signed line) : Signed (Text.unended line) := by
  rcases h with ⟨rest, rfl⟩ | ⟨rest, rfl⟩
  · exact .inl ⟨Text.unended rest, rfl⟩
  · exact .inr ⟨Text.unended rest, rfl⟩

theorem shownLine_cases {line : List Char} (h : '\n' ∉ line.dropLast) :
    '\n' ∉ shownLine line ∨ ∃ body, '\n' ∉ body ∧ shownLine line = body ++ ['\n'] := by
  rcases List.eq_nil_or_concat line with rfl | ⟨body, c, rfl⟩
  · exact .inr ⟨[], List.not_mem_nil, rfl⟩
  · rw [List.concat_eq_append] at h ⊢
    rw [List.dropLast_concat] at h
    rw [shownLine, List.getLast?_concat]
    split
    · rename_i hc
      cases hc
      exact .inr ⟨body, h, rfl⟩
    · rename_i hc
      cases hc
      exact .inl (by simp [h])
    · rename_i hfeed _
      refine .inr ⟨body ++ [c], ?_, rfl⟩
      have hc : '\n' ≠ c := fun hc => hfeed (congrArg some hc.symm)
      simp [h, hc]

/-- What is shown of a line leaves the lines behind it signed. -/
theorem signed_shown {p : Mark × List Char} {cs : List Char} (hp : '\n' ∉ p.2.dropLast)
    (h : ∀ line ∈ Text.feedLines cs, Signed line) :
    ∀ line ∈ Text.feedLines (shown p ++ cs), Signed line := by
  have hsigned (sign : Char) (hfeed : '\n' ≠ sign) (hsign : ∀ more, Signed (sign :: ' ' :: more)) :
      ∀ line ∈ Text.feedLines (sign :: ' ' :: shownLine p.2 ++ cs), Signed line := by
    have hhead {body : List Char} (hbody : '\n' ∉ body) : '\n' ∉ sign :: ' ' :: body := by
      simp [hfeed, hbody]
    intro line hline
    rcases shownLine_cases hp with hbody | ⟨body, hbody, hshown⟩
    · obtain ⟨more, rest, heq, hrest⟩ :=
        Text.exists_feedLines_append (hhead hbody) (List.cons_ne_nil _ _) cs
      rw [heq] at hline
      rcases List.mem_cons.mp hline with rfl | hline
      · exact hsign _
      · exact h line (hrest line hline)
    · have heq := Text.feedLines_append_feed (hhead hbody) cs
      rw [hshown, ← List.cons_append, ← List.cons_append, List.append_assoc, List.singleton_append,
        heq] at hline
      rcases List.mem_cons.mp hline with rfl | hline
      · exact hsign _
      · exact h line hline
  obtain ⟨mark, line⟩ := p
  cases mark with
  | kept => exact h
  | deleted => exact hsigned '-' (by decide) fun more => .inl ⟨more, rfl⟩
  | inserted => exact hsigned '+' (by decide) fun more => .inr ⟨more, rfl⟩

theorem signed_of_mem_feedLines {marked : List (Mark × List Char)}
    (h : ∀ p ∈ marked, '\n' ∉ p.2.dropLast) :
    ∀ line ∈ Text.feedLines (marked.flatMap shown), Signed line := by
  induction marked with
  | nil => exact fun line hline => absurd hline List.not_mem_nil
  | cons p rest ih =>
    obtain ⟨hp, hrest⟩ := List.forall_mem_cons.mp h
    rw [List.flatMap_cons]
    exact signed_shown hp (ih hrest)

theorem feed_notMem_of_mem_ofTexts {old new : String} {p : Mark × List Char}
    (h : p ∈ ofTexts old new) : '\n' ∉ p.2.dropLast := by
  obtain ⟨hold, hnew⟩ := sides_ofTexts old new
  by_cases hmark : p.1 = .inserted
  · have hmem : p.2 ∈ newItems (ofTexts old new) :=
      List.mem_map_of_mem (List.mem_filter.mpr ⟨h, by simp [hmark]⟩)
    exact (Text.cut_lines new.toList).feed_notMem (hnew ▸ hmem)
  · have hmem : p.2 ∈ oldItems (ofTexts old new) :=
      List.mem_map_of_mem (List.mem_filter.mpr ⟨h, by simpa using hmark⟩)
    exact (Text.cut_lines old.toList).feed_notMem (hold ▸ hmem)

theorem diffLine_of_signed {line : List Char} (h : Signed line) :
    Command.diffLine line = "      " ++ String.ofList line ++ "\n" := by
  rcases h with ⟨rest, rfl⟩ | ⟨rest, rfl⟩ <;> rfl

/-- Where all lines are signed, all lines are printed. -/
theorem diffLines_of_signed {diff : String} (h : ∀ line ∈ Text.feedLines diff.toList, Signed line) :
    Command.diffLines diff = String.join ((Text.feedLines diff.toList).map fun line =>
      "      " ++ String.ofList (Text.unended line) ++ "\n") := by
  rw [Command.diffLines, Text.shownLines_eq, List.map_map]
  congr 1
  exact List.map_congr_left fun line hline => diffLine_of_signed (h line hline).unended

end Diff

end Mutagen
