import Mutagen.Proofs.Text.Blank
import Mutagen.Proofs.Text.Bytes
import Mutagen.Proofs.Tree.Faults
import Mutagen.Proofs.Tree.Tokens
import Mutagen.SyntaxError

/-!
# What a syntax error blames

The error for a broken tree is about its first fault: about the token that is missing, about the
first token of what had to be skipped, or about the first one behind what was understood and given
up. Its line is one of the text, and not before the fault (`ofTree_blames`).
-/

namespace Mutagen

namespace SyntaxError

variable {text : String} {root fault t : Node}

/-- Where the token to blame for a fault is looked for: in the fault itself or, if that has a named
child, in all that starts at its end or behind it. -/
def scope (root fault : Node) : List Node :=
  if fault.children.any (·.isNamed) then root.nodes.filter (fault.stop ≤ ·.start)
  else fault.nodes

def IsToken (n : Node) : Prop := n.children = [] ∧ n.start < n.stop ∧ n.kind ≠ "comment"

instance (n : Node) : Decidable (IsToken n) := decidable_of_iff _ Node.isToken_iff

structure Blamed (root fault t : Node) : Prop where
  mem : t ∈ scope root fault
  token : IsToken t
  first : ∀ u ∈ scope root fault, IsToken u → t.start ≤ u.start

/-- The line of a byte, counted from one. -/
def lineAt (text : String) (offset : Nat) : Nat :=
  ((Bytes.ofText text).take offset).count Bytes.newline + 1

def Says (e : SyntaxError) (line : Nat) (message : String) : Prop :=
  e.line = line ∧ e.cause.message = message

-- ---------------------------------------------------------------------------
-- The token to blame
-- ---------------------------------------------------------------------------

theorem filter_scope (root fault : Node) : (scope root fault).filter (·.isToken) =
    if fault.children.any (·.isNamed) then root.tokens.filter (fault.stop ≤ ·.start)
    else fault.tokens := by
  unfold scope
  split
  · simp only [Node.tokens_eq_filter, List.filter_filter, Bool.and_comm]
  · rw [Node.tokens_eq_filter]

theorem culprit?_eq (root fault : Node) :
    culprit? root fault = ((scope root fault).filter (·.isToken)).head? := by
  rw [filter_scope, culprit?]
  split
  · rw [List.head?_filter]
  · rfl

theorem pairwise_scope (hroot : root.Ordered) (hfault : fault ∈ root.nodes) :
    ((scope root fault).filter (·.isToken)).Pairwise fun a b => a.stop ≤ b.start := by
  rw [filter_scope]
  split
  · exact hroot.pairwise_tokens.sublist List.filter_sublist
  · exact (hroot.of_mem hfault).pairwise_tokens

theorem mem_nodes_of_scope (hfault : fault ∈ root.nodes) (ht : t ∈ scope root fault) :
    t ∈ root.nodes := by
  unfold scope at ht
  split at ht
  · exact (List.mem_filter.mp ht).1
  · exact Node.mem_nodes_trans hfault ht

theorem start_le_of_scope (hroot : root.Ordered) (hfault : fault ∈ root.nodes)
    (ht : t ∈ scope root fault) : fault.start ≤ t.start := by
  unfold scope at ht
  split at ht
  · have hstop : fault.stop ≤ t.start := by simpa using (List.mem_filter.mp ht).2
    exact Nat.le_trans (hroot fault hfault).le hstop
  · exact ((hroot.of_mem hfault).range_of_mem ht).1

/-- Tokens that stand one behind the other: the head of the list is the one that starts first. -/
theorem head?_eq_some_iff {tokens : List Node} (htokens : ∀ u ∈ tokens, u.start < u.stop)
    (h : tokens.Pairwise fun a b => a.stop ≤ b.start) :
    tokens.head? = some t ↔ t ∈ tokens ∧ ∀ u ∈ tokens, t.start ≤ u.start := by
  cases h with
  | nil => simp
  | @cons first rest hfirst hrest =>
    have hnonempty := htokens first List.mem_cons_self
    rw [List.head?_cons, Option.some.injEq]
    constructor
    · rintro rfl
      refine ⟨List.mem_cons_self, fun u hu => ?_⟩
      rcases List.mem_cons.mp hu with rfl | hu
      · exact Nat.le_refl _
      · exact Nat.le_of_lt (Nat.lt_of_lt_of_le hnonempty (hfirst u hu))
    · rintro ⟨ht, hmin⟩
      rcases List.mem_cons.mp ht with rfl | ht
      · rfl
      · have hlater := hfirst t ht
        have hearlier := hmin first List.mem_cons_self
        omega

theorem culprit?_eq_some_iff (hroot : root.Ordered) (hfault : fault ∈ root.nodes) :
    culprit? root fault = some t ↔ Blamed root fault t := by
  have htokens : ∀ u ∈ (scope root fault).filter (·.isToken), u.start < u.stop := fun u hu =>
    (Node.isToken_iff.mp (List.mem_filter.mp hu).2).2.1
  rw [culprit?_eq, head?_eq_some_iff htokens (pairwise_scope hroot hfault)]
  simp only [List.mem_filter, Node.isToken_iff]
  exact ⟨fun ⟨⟨mem, token⟩, first⟩ => ⟨mem, token, fun u hu hutoken => first u ⟨hu, hutoken⟩⟩,
    fun h => ⟨⟨h.mem, h.token⟩, fun u hu => h.first u hu.1 hu.2⟩⟩

theorem culprit?_eq_none_iff (hroot : root.Ordered) (hfault : fault ∈ root.nodes) :
    culprit? root fault = none ↔ ¬∃ t, Blamed root fault t := by
  simp only [← culprit?_eq_some_iff hroot hfault, Option.eq_none_iff_forall_ne_some, not_exists]

-- ---------------------------------------------------------------------------
-- Lines and messages
-- ---------------------------------------------------------------------------

theorem lineOf_eq (text : String) (n : Nat) : lineOf text n = lineAt text n :=
  congrArg (· + 1) (Position.line_ofOffset text n)

theorem lineOf_mono (text : String) {m n : Nat} (h : m ≤ n) : lineOf text m ≤ lineOf text n :=
  Nat.succ_le_succ (Position.line_ofOffset_mono text h)

theorem lineOf_le (text : String) (n : Nat) : lineOf text n ≤ 1 + text.toList.count '\n' := by
  rw [Nat.add_comm]
  exact Nat.succ_le_succ (Position.line_ofOffset_le text n)

theorem message_unexpectedToken_ne (token : String) :
    (SyntaxCause.unexpectedToken token).message ≠ SyntaxCause.unexpectedEnd.message := by
  intro h
  have hchars : ("Unexpected token " ++ token).toList = "Unexpected end of input".toList :=
    congrArg String.toList h
  rw [String.toList_append] at hchars
  -- the two part at the twelfth character
  have hprefix := congrArg (List.take 12) hchars
  rw [List.take_append_of_le_length (by decide)] at hprefix
  exact absurd hprefix (by decide)

-- ---------------------------------------------------------------------------
-- The error
-- ---------------------------------------------------------------------------

section
variable (hfirst : root.firstFault? = some fault)
include hfirst

theorem ofTree_of_missing (h : fault.label.isMissing = true) :
    ofTree text root = ⟨lineOf text fault.start, .missing fault.kind⟩ := by
  simp [ofTree, hfirst, h]

theorem ofTree_of_culprit (h : fault.label.isMissing = false) (ht : culprit? root fault = some t)
    {piece : String} (hpiece : Text.slice? text t.start t.stop = some piece) :
    ofTree text root = ⟨lineOf text t.start, .unexpectedToken (Text.trim piece)⟩ := by
  simp [ofTree, hfirst, h, ht, hpiece]

theorem ofTree_of_end (h : fault.label.isMissing = false) (ht : culprit? root fault = none) :
    ofTree text root = ⟨lineOf text root.stop, .unexpectedEnd⟩ := by
  simp [ofTree, hfirst, h, ht]

end

theorem exists_line (text : String) (hroot : root.Ordered) (hfault : fault ∈ root.nodes)
    (hfirst : root.firstFault? = some fault) :
    ∃ offset, fault.start ≤ offset ∧ (ofTree text root).line = lineOf text offset := by
  simp only [ofTree, hfirst]
  split
  · exact ⟨fault.start, Nat.le_refl _, rfl⟩
  · split
    · obtain ⟨-, hle, hstop⟩ := hroot.range_of_mem hfault
      exact ⟨root.stop, Nat.le_trans hle hstop, rfl⟩
    · rename_i token htoken
      have hblamed := (culprit?_eq_some_iff hroot hfault).mp htoken
      exact ⟨token.start, start_le_of_scope hroot hfault hblamed.mem, rfl⟩

theorem ofTree_blames (hroot : root.Ordered) (hcuts : root.Cuts text) (htraced : root.Traced)
    (hfault : root.nodes.find? (·.isFault) = some fault) :
    let e := ofTree text root
    (fault.label.isMissing = true →
      e.Says (lineAt text fault.start) ("Missing " ++ fault.kind)) ∧
    (fault.label.isMissing = false →
      (∀ t, Blamed root fault t → ∃ piece shown, Text.IsSlice text t.start t.stop piece ∧
        Text.Trimmed piece shown ∧ e.Says (lineAt text t.start) ("Unexpected token " ++ shown)) ∧
      ((¬∃ t, Blamed root fault t) →
        e.Says (lineAt text root.stop) "Unexpected end of input") ∧
      (e.cause.message = "Unexpected end of input" ↔ ¬∃ t, Blamed root fault t)) ∧
    lineAt text fault.start ≤ e.line ∧ e.line ≤ 1 + text.toList.count '\n' := by
  intro e
  have hmem : fault ∈ root.nodes := List.mem_of_find?_eq_some hfault
  have hfirst : root.firstFault? = some fault := htraced.firstFault?_eq ▸ hfault
  have htoken : fault.label.isMissing = false → ∀ t, Blamed root fault t →
      ∃ piece, Text.slice? text t.start t.stop = some piece ∧
        e = ⟨lineOf text t.start, .unexpectedToken (Text.trim piece)⟩ := by
    intro hpresent t ht
    have htree := mem_nodes_of_scope hmem ht.mem
    obtain ⟨hstart, hstop⟩ := hcuts t htree
    obtain ⟨piece, hpiece⟩ := Text.exists_slice? hstart hstop (hroot t htree).le
    have hculprit := (culprit?_eq_some_iff hroot hmem).mpr ht
    exact ⟨piece, hpiece, ofTree_of_culprit hfirst hpresent hculprit hpiece⟩
  have hend : fault.label.isMissing = false → (¬∃ t, Blamed root fault t) →
      e = ⟨lineOf text root.stop, .unexpectedEnd⟩ := fun hpresent hnone =>
    ofTree_of_end hfirst hpresent ((culprit?_eq_none_iff hroot hmem).mpr hnone)
  refine ⟨fun hmissing => ?_, fun hpresent => ⟨fun t ht => ?_, fun hnone => ?_, ?_⟩, ?_⟩
  · rw [show e = _ from ofTree_of_missing hfirst hmissing]
    exact ⟨lineOf_eq _ _, rfl⟩
  · obtain ⟨piece, hpiece, he⟩ := htoken hpresent t ht
    rw [he]
    exact ⟨piece, Text.trim piece, Text.isSlice_iff.mpr hpiece, Text.trimmed_trim piece,
      lineOf_eq _ _, rfl⟩
  · rw [hend hpresent hnone]
    exact ⟨lineOf_eq _ _, rfl⟩
  · refine ⟨fun hmessage hsome => ?_, fun hnone => ?_⟩
    · obtain ⟨t, ht⟩ := hsome
      obtain ⟨piece, -, he⟩ := htoken hpresent t ht
      rw [he] at hmessage
      exact message_unexpectedToken_ne _ hmessage
    · rw [hend hpresent hnone]
      rfl
  · obtain ⟨offset, hle, hline⟩ := exists_line text hroot hmem hfirst
    rw [show e.line = _ from hline, ← lineOf_eq]
    exact ⟨lineOf_mono text hle, lineOf_le text offset⟩

/-- The head of a function that lacks its parameters, with a comment behind it. -/
def headless : Node :=
  .mk ⟨"ERROR", true, true, false, true, 0, 18, none⟩ [
    .mk ⟨"function", false, false, false, false, 0, 8, none⟩ [],
    .mk ⟨"identifier", true, false, false, false, 9, 18, none⟩ []]

def brace : Node := .mk ⟨"\x7b", false, false, false, false, 24, 25, none⟩ []

/-- What stands behind that head, on the next line, is a block. -/
def strayBody : Node :=
  .mk ⟨"program", true, false, false, true, 0, 26, none⟩ [
    headless,
    .mk ⟨"comment", true, false, false, false, 19, 23, none⟩ [],
    .mk ⟨"statement_block", true, false, false, false, 24, 26, none⟩ [
      brace,
      .mk ⟨"\x7d", false, false, false, false, 25, 26, none⟩ []]]

/-- What had to be skipped, behind a statement: a mark with white space around it. -/
def skipped : Node := .mk ⟨"ERROR", true, true, false, false, 3, 8, none⟩ []

def strayMark : Node :=
  .mk ⟨"program", true, false, false, true, 0, 8, none⟩ [
    .mk ⟨"empty_statement", true, false, false, false, 0, 1, none⟩ [],
    skipped]

theorem ofTree_blames_strayBody :
    let text := "function something // c\n\x7b\x7d"
    let text' := ";\r\n\u00a0#\u0085"
    strayBody.Ordered ∧ strayBody.Cuts text ∧ strayBody.Traced ∧
      strayBody.nodes.find? (·.isFault) = some headless ∧ Blamed strayBody headless brace ∧
      (ofTree text strayBody).Says 2 "Unexpected token \x7b" ∧
      strayMark.Ordered ∧ strayMark.Cuts text' ∧ strayMark.Traced ∧
      strayMark.nodes.find? (·.isFault) = some skipped ∧ Blamed strayMark skipped skipped ∧
      (ofTree text' strayMark).Says 2 "Unexpected token #" := by
  intro text text'
  have hroot : strayBody.Ordered := by decide +kernel
  have hcuts : strayBody.Cuts text := by decide +kernel
  have htraced : strayBody.Traced := by decide +kernel
  have hfault : strayBody.nodes.find? (·.isFault) = some headless := rfl
  have hblamed : Blamed strayBody headless brace :=
    ⟨.tail _ (.tail _ (.head _)), by decide, by decide +kernel⟩
  have hroot' : strayMark.Ordered := by decide +kernel
  have hcuts' : strayMark.Cuts text' := by decide +kernel
  have htraced' : strayMark.Traced := by decide +kernel
  have hfault' : strayMark.nodes.find? (·.isFault) = some skipped := rfl
  have hblamed' : Blamed strayMark skipped skipped :=
    ⟨.head _, by decide, by decide +kernel⟩
  -- the piece that the theorem speaks of is the one that can be computed
  have hsays {text whole shown : String} {root fault t : Node} {line : Nat} (hroot : root.Ordered)
      (hcuts : root.Cuts text) (htraced : root.Traced)
      (hfault : root.nodes.find? (·.isFault) = some fault) (hpresent : fault.label.isMissing = false)
      (hblamed : Blamed root fault t) (hwhole : Text.slice? text t.start t.stop = some whole)
      (htrim : Text.trim whole = shown) (hline : lineAt text t.start = line) :
      (ofTree text root).Says line ("Unexpected token " ++ shown) := by
    obtain ⟨-, hblames, -⟩ := ofTree_blames hroot hcuts htraced hfault
    obtain ⟨piece, shown', hpiece, htrimmed, hsays⟩ := (hblames hpresent).1 t hblamed
    obtain rfl := Option.some.inj (hwhole.symm.trans (Text.isSlice_iff.mp hpiece))
    obtain rfl := Text.trimmed_iff.mp htrimmed
    rwa [htrim, hline] at hsays
  have hbrace : Text.slice? text brace.start brace.stop = some "\x7b" := by decide +kernel
  have hmark : Text.slice? text' skipped.start skipped.stop = some "\u00a0#\u0085" := by
    decide +kernel
  have htrim : Text.trim "\x7b" = "\x7b" := by decide +kernel
  have htrim' : Text.trim "\u00a0#\u0085" = "#" := by decide +kernel
  have hline : lineAt text brace.start = 2 := by decide +kernel
  have hline' : lineAt text' skipped.start = 2 := by decide +kernel
  exact ⟨hroot, hcuts, htraced, hfault, hblamed,
    hsays hroot hcuts htraced hfault rfl hblamed hbrace htrim hline,
    hroot', hcuts', htraced', hfault', hblamed',
    hsays hroot' hcuts' htraced' hfault' rfl hblamed' hmark htrim' hline'⟩

end SyntaxError

end Mutagen
