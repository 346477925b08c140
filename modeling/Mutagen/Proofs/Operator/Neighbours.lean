import Mutagen.Proofs.Mutant.Seam
import Mutagen.Proofs.Operator.Standard
import Mutagen.Proofs.SyntaxError.Clean

/-!
# What mutants are put next to

The operators look at a node and its nearest surroundings, but the token next to a node can be
anywhere in the tree. A negated number is kept off a minus sign only if that is its own left
sibling (`negateNumber_fused_iff`), and swapped signs and uncovered operands are not kept off
anything (`swapped_fused_iff`).
-/

namespace Mutagen.Operator

open Text

variable {file text : String} {root : Node} {s : Site} {found : List Mutant} {m : Mutant}

structure Made (o : Operator) (file text : String) (root : Node) (s : Site) (m : Mutant) : Prop where
  fits : root.Fits text
  clean : root.Clean
  site : s ∈ root.sitesOfKind o.kinds
  applies : o.applies s = true
  made : ∃ found, o.mutants file text s = .ok found ∧ m ∈ found

-- ---------------------------------------------------------------------------
-- Negated numbers
-- ---------------------------------------------------------------------------

def IsBase (s : Site) : Prop :=
  ∃ parent, s.parent? = some parent ∧ parent.kind = "binary_expression" ∧
    tokenKind? parent = some "**" ∧ s.fills "left" = true

def IsBehindSign (s : Site) : Prop :=
  ∃ previous, s.previous? = some previous ∧ (previous.kind = "-" ∨ previous.kind = "+") ∧
    previous.stop = s.start

theorem mustEnclose_iff : mustEnclose s = true ↔ IsBase s ∨ IsBehindSign s := by
  unfold mustEnclose
  rw [Bool.or_eq_true]
  refine or_congr ?_ ?_
  · cases h : s.parent? <;> simp [IsBase, h, and_assoc]
  · cases h : s.previous? <;> simp [IsBehindSign, h]

theorem head?_negated (h : negateNumber.mutants file text s = .ok found) (hm : m ∈ found) :
    m.Fits text ∧ m.start = s.start ∧
      m.replacement.toList.head? = some (if mustEnclose s then '(' else '-') := by
  simp only [negateNumber] at h
  split at h
  · cases h
  · obtain ⟨-, -, hstart, -, hreplacement, hfits⟩ :=
      Mutant.fits_of_ofSite? (ofSite?_of_single h hm)
    refine ⟨hfits, hstart, ?_⟩
    rw [hreplacement]
    split <;> simp

/-- Without parentheses around it, a negated number fuses with a minus sign before it. -/
theorem fused_negated {mutated : String} (hfits : m.Fits text)
    (hinject : m.inject? text = some mutated)
    (hhead : m.replacement.toList.head? = some (if mustEnclose s then '(' else '-')) :
    Fused mutated m.start ↔ mustEnclose s = false ∧ endingAt? text m.start = some '-' := by
  have hne : m.replacement ≠ "" := by
    intro hempty
    rw [hempty] at hhead
    cases hhead
  rw [(Mutant.fused_iff hfits hinject hne).1, hhead]
  cases mustEnclose s with
  | false => simp [fuse_sign_right (show isSign '-' = true from rfl)]
  | true => simp [not_fuse_right (show isSign '(' = false from rfl) (by decide)]

/-- Signs are bare tokens, whatever the tree is like. -/
def SpellsSigns (text : String) (root : Node) : Prop :=
  ∀ n ∈ root.nodes, n.kind = "-" ∨ n.kind = "+" → n.Spells text

instance (text : String) (root : Node) : Decidable (SpellsSigns text root) :=
  inferInstanceAs (Decidable (∀ n ∈ root.nodes, _ → _))

/-- The token right before a number is the sign that the operator looks for only if it is the left
sibling. -/
theorem isBehindSign_iff (hroot : root.Ordered) (hsigns : SpellsSigns text root)
    (hs : s ∈ Site.sites [] root) {t : Node} (ht : t ∈ root.nodes) (hspells : t.Spells text)
    (hstop : t.stop = s.start) :
    IsBehindSign s ↔ (t.kind = "-" ∨ t.kind = "+") ∧ s.previous? = some t := by
  constructor
  · rintro ⟨previous, hprevious, hkind, hend⟩
    have hmem := Site.previous?_mem hs hprevious
    obtain rfl : previous = t := Node.Spells.eq_of_stop_eq hroot hmem ht
      (hsigns previous hmem hkind) hspells (hend.trans hstop.symm)
    exact ⟨hkind, hprevious⟩
  · rintro ⟨hkind, hprevious⟩
    exact ⟨t, hprevious, hkind, hstop⟩

/-- A negated number fuses with what stands before it just when that is a minus sign and no
parentheses are put around the number. With a token right before it, that is so just when the token
ends in a minus sign, the number is not the base of a power, and the token is not the minus sign to
the left of the number under the same parent. -/
theorem negateNumber_fused_iff (hroot : root.Ordered) (hsigns : SpellsSigns text root)
    (hs : s ∈ Site.sites [] root) (h : negateNumber.mutants file text s = .ok found)
    (hm : m ∈ found) :
    ∃ mutated, m.inject? text = some mutated ∧
      (Fused mutated m.start ↔
        m.replacement.toList.head? = some '-' ∧ endingAt? text m.start = some '-') ∧
      ∀ t ∈ root.nodes, t.Spells text → t.stop = m.start →
        (Fused mutated m.start ↔
          t.kind.toList.getLast? = some '-' ∧ ¬IsBase s ∧ ¬(t.kind = "-" ∧ s.previous? = some t)) := by
  obtain ⟨hfits, hstart, hhead⟩ := head?_negated h hm
  obtain ⟨mutated, hinject, -⟩ := hfits.restores
  have hfused := fused_negated hfits hinject hhead
  have hopen : m.replacement.toList.head? = some '-' ↔ mustEnclose s = false := by
    rw [hhead]
    cases mustEnclose s <;> simp
  refine ⟨mutated, hinject, by rw [hfused, hopen], fun t ht hspells hstop => ?_⟩
  have hlast : endingAt? text m.start = t.kind.toList.getLast? := hstop ▸ hspells.endingAt?_eq
  rw [hfused, hlast, ← Bool.not_eq_true, mustEnclose_iff, not_or,
    isBehindSign_iff hroot hsigns hs ht hspells (hstop.trans hstart)]
  constructor
  · rintro ⟨⟨hbase, hsign⟩, hminus⟩
    exact ⟨hminus, hbase, fun ⟨hkind, hprevious⟩ => hsign ⟨.inl hkind, hprevious⟩⟩
  · rintro ⟨hminus, hbase, hsign⟩
    refine ⟨⟨hbase, ?_⟩, hminus⟩
    rintro ⟨hkind | hkind, hprevious⟩
    · exact hsign ⟨hkind, hprevious⟩
    · rw [hkind] at hminus
      exact absurd hminus (by decide)

/-- The tree of `x = …;` around that of the right side. -/
def assigned (right : Node) : Node :=
  .mk ⟨"program", true, false, false, false, 0, right.stop + 1, none⟩ [
    .mk ⟨"expression_statement", true, false, false, false, 0, right.stop + 1, none⟩ [
      .mk ⟨"assignment_expression", true, false, false, false, 0, right.stop, none⟩ [
        .mk ⟨"identifier", true, false, false, false, 0, 1, some "left"⟩ [],
        .mk ⟨"=", false, false, false, false, 2, 3, none⟩ [],
        right],
      .mk ⟨";", false, false, false, false, right.stop, right.stop + 1, none⟩ []]]

def operand (kind role : String) (start stop : Nat) : Node :=
  .mk ⟨kind, true, false, false, false, start, stop, some role⟩ []

def bare (kind : String) (start stop : Nat) : Node :=
  .mk ⟨kind, false, false, false, false, start, stop, some "operator"⟩ []

/-- The tree of `x = a-1*b;`. -/
def subtracted : Node :=
  assigned (.mk ⟨"binary_expression", true, false, false, false, 4, 9, some "right"⟩ [
    operand "identifier" "left" 4 5,
    bare "-" 5 6,
    .mk ⟨"binary_expression", true, false, false, false, 6, 9, some "right"⟩ [
      operand "number" "left" 6 7,
      bare "*" 7 8,
      operand "identifier" "right" 8 9]])

def factor : Site := (Site.sites [] subtracted).get ⟨9, by decide⟩

def negation : Mutant := ⟨"a.js", ⟨⟨0, 6⟩, ⟨0, 7⟩⟩, 6, 7, "numeric_negation", "1", "-1"⟩

theorem negateNumber_fused_iff_factor :
    subtracted.Ordered ∧ SpellsSigns "x = a-1*b;" subtracted ∧ factor ∈ Site.sites [] subtracted ∧
      negateNumber.mutants "a.js" "x = a-1*b;" factor = .ok [negation] ∧
      negation.inject? "x = a-1*b;" = some "x = a--1*b;" ∧ Fused "x = a--1*b;" 6 := by
  have hroot : subtracted.Ordered := by decide +kernel
  have hsigns : SpellsSigns "x = a-1*b;" subtracted := by decide +kernel
  have hs : factor ∈ Site.sites [] subtracted := List.get_mem ..
  have hfound : negateNumber.mutants "a.js" "x = a-1*b;" factor = .ok [negation] := rfl
  obtain ⟨mutated, hinject, -, hfused⟩ :=
    negateNumber_fused_iff hroot hsigns hs hfound List.mem_cons_self
  have hminus := hfused (bare "-" 5 6) (List.mem_of_getElem? (i := 7) rfl) (by decide +kernel) rfl
  have hmutated : negation.inject? "x = a-1*b;" = some "x = a--1*b;" := by decide +kernel
  rw [hmutated] at hinject
  cases hinject
  refine ⟨hroot, hsigns, hs, hfound, hmutated, hminus.mpr ⟨by decide, ?_, ?_⟩⟩
  · rintro ⟨parent, hparent, -, hpower, -⟩
    cases hparent
    revert hpower
    decide
  · rintro ⟨-, hprevious⟩
    cases hprevious

theorem not_negateNumber_apart : ¬∀ (file text : String) (root : Node) (s : Site) (m : Mutant),
    negateNumber.Made file text root s m → m.replacement.toList.head? = some '-' →
    endingAt? text m.start ≠ some '-' := by
  intro h
  have hmade : negateNumber.Made "a.js" "x = a-1*b;" subtracted factor negation := {
    fits := by decide +kernel
    clean := by decide +kernel
    site := Node.mem_sitesOfKind.mpr ⟨List.get_mem .., rfl, List.mem_cons_self⟩
    applies := rfl
    made := ⟨[negation], rfl, List.mem_cons_self⟩ }
  exact h _ _ _ _ _ hmade rfl (by decide +kernel)

-- ---------------------------------------------------------------------------
-- Swapped signs and uncovered operands
-- ---------------------------------------------------------------------------

theorem arithmeticSwap_of_signSwap {kind sign : String} (h : signSwap kind = some sign) :
    arithmeticSwap kind = some sign := by
  unfold signSwap at h
  split at h
  · cases h
    rfl
  · cases h
    rfl
  · cases h

def Swaps (m : Mutant) (s : Site) : Prop :=
  ∃ token, token? s = some token ∧ token.kind ≠ "!" ∧ m.start = token.start ∧ m.stop = token.stop ∧
    ∀ sign, signSwap token.kind = some sign → m.replacement = sign

def Uncovers (text : String) (m : Mutant) (s : Site) : Prop :=
  tokenKind? s = some "!" ∧ m.start = s.start ∧ m.stop = s.stop ∧
    ∃ argument, s.child? "argument" = some argument ∧
      slice? text argument.start argument.stop = some m.replacement

theorem tokenKind?_of_token? {token : Site} (h : token? s = some token) :
    tokenKind? s = some token.kind := by
  rw [tokenKind?, h]
  rfl

theorem swaps_of_swapToken {table : String → Option String} {name : String}
    (htable : ∀ kind sign, signSwap kind = some sign → table kind = some sign)
    (h : swapToken table name file text s = .ok found) (hm : m ∈ found)
    (hbang : table "!" = none ∨ tokenKind? s ≠ some "!") : m.Fits text ∧ Swaps m s := by
  obtain ⟨token, swapped, ht, hswap, hofSite⟩ := ofSite?_of_swapToken h hm
  obtain ⟨-, -, hstart, hstop, hreplacement, hfits⟩ := Mutant.fits_of_ofSite? hofSite
  refine ⟨hfits, token, ht, fun hkind => ?_, hstart, hstop, fun sign hsign => ?_⟩
  · rcases hbang with hnone | hother
    · rw [hkind, hnone] at hswap
      cases hswap
    · exact hother (hkind ▸ tokenKind?_of_token? ht)
  · rw [htable _ _ hsign] at hswap
    rw [hreplacement, Option.some.inj hswap]

theorem uncovers_of_dropNegation {name : String} (hkind : tokenKind? s = some "!")
    (h : dropNegation name file text s = .ok found) (hm : m ∈ found) :
    m.Fits text ∧ Uncovers text m s := by
  obtain ⟨argument, uncovered, ha, hu, hofSite⟩ := ofSite?_of_dropNegation h hm
  obtain ⟨-, -, hstart, hstop, rfl, hfits⟩ := Mutant.fits_of_ofSite? hofSite
  exact ⟨hfits, hkind, hstart, hstop, argument, ha, hu⟩

theorem swaps_or_uncovers {o : Operator} (ho : o = arithmetic ∨ o = unary)
    (h : o.mutants file text s = .ok found) (hm : m ∈ found) :
    m.Fits text ∧ (Swaps m s ∨ Uncovers text m s) := by
  rcases ho with rfl | rfl
  · obtain ⟨hfits, hswaps⟩ :=
      swaps_of_swapToken (fun _ _ => arithmeticSwap_of_signSwap) h hm (.inl rfl)
    exact ⟨hfits, .inl hswaps⟩
  · simp only [unary] at h
    split at h
    · rename_i hkind
      obtain ⟨hfits, huncovers⟩ := uncovers_of_dropNegation hkind h hm
      exact ⟨hfits, .inr huncovers⟩
    · rename_i hkind
      obtain ⟨hfits, hswaps⟩ := swaps_of_swapToken (fun _ _ => id) h hm (.inr hkind)
      exact ⟨hfits, .inl hswaps⟩

theorem fused_uncovered {mutated : String} {argument : Site} (hfits : m.Fits text)
    (hinject : m.inject? text = some mutated)
    (hslice : slice? text argument.start argument.stop = some m.replacement)
    (hrange : argument.start < argument.stop) :
    Fused mutated m.start ↔ Fuse (endingAt? text m.start) (startingAt? text argument.start) := by
  have hne : m.replacement ≠ "" := by
    intro hempty
    rw [hempty] at hslice
    obtain ⟨_, _, -, -, hwidth⟩ := slice?_eq_some_iff.mp hslice
    exact absurd hwidth (Nat.ne_of_lt hrange)
  rw [startingAt?_of_slice? hslice hne]
  exact (Mutant.fused_iff hfits hinject hne).1

/-- A sign that is put in fuses with what stands behind it just when that begins with the same sign,
and the operand of a negation fuses with what stood before the negation just when the characters
that come together do. -/
theorem swapped_fused_iff {o : Operator} (ho : o = arithmetic ∨ o = unary)
    (h : o.mutants file text s = .ok found) (hm : m ∈ found) :
    ∃ mutated, m.inject? text = some mutated ∧
      (∀ token sign, token? s = some token → signSwap token.kind = some sign →
        m.start = token.start ∧ m.stop = token.stop ∧ m.replacement = sign) ∧
      (∀ c, isSign c = true → m.replacement = String.singleton c →
        (Fused mutated (m.start + 1) ↔ startingAt? text m.stop = some c) ∧
        ∀ t : Node, t.Spells text → t.start = m.stop →
          (Fused mutated (m.start + 1) ↔ t.kind.toList.head? = some c)) ∧
      (tokenKind? s = some "!" → ∀ argument, s.child? "argument" = some argument →
        argument.start < argument.stop → m.start = s.start ∧ m.stop = s.stop ∧
        (Fused mutated m.start ↔
          Fuse (endingAt? text m.start) (startingAt? text argument.start)) ∧
        ∀ t : Node, t.Spells text → t.stop = m.start →
          (Fused mutated m.start ↔
            Fuse t.kind.toList.getLast? (startingAt? text argument.start))) := by
  obtain ⟨hfits, hmade⟩ := swaps_or_uncovers ho h hm
  obtain ⟨mutated, hinject, -⟩ := hfits.restores
  refine ⟨mutated, hinject, fun token sign htoken hsign => ?_, fun c hc hreplacement => ?_,
    fun hbang argument hargument hrange => ?_⟩
  · rcases hmade with ⟨token', htoken', -, hstart, hstop, hsigns⟩ | ⟨hbang, -⟩
    · obtain rfl : token' = token := Option.some.inj (htoken'.symm.trans htoken)
      exact ⟨hstart, hstop, hsigns sign hsign⟩
    · rw [tokenKind?_of_token? htoken] at hbang
      rw [Option.some.inj hbang] at hsign
      cases hsign
  · have hfused := Mutant.fused_behind_sign hfits hinject hc hreplacement
    refine ⟨hfused, fun t hspells hstart => ?_⟩
    rw [hfused, ← hstart, hspells.startingAt?_eq]
  · rcases hmade with ⟨token, htoken, hkind, -⟩ | ⟨-, hstart, hstop, argument', hargument', hslice⟩
    · rw [tokenKind?_of_token? htoken] at hbang
      exact absurd (Option.some.inj hbang) hkind
    · obtain rfl : argument' = argument := Option.some.inj (hargument'.symm.trans hargument)
      have hfused := fused_uncovered hfits hinject hslice hrange
      refine ⟨hstart, hstop, hfused, fun t hspells hend => ?_⟩
      rw [hfused, ← hend, hspells.endingAt?_eq]

/-- The tree of `x = a+-typeof!y;`. -/
def signed : Node :=
  assigned (.mk ⟨"binary_expression", true, false, false, false, 4, 15, some "right"⟩ [
    operand "identifier" "left" 4 5,
    bare "+" 5 6,
    .mk ⟨"unary_expression", true, false, false, false, 6, 15, some "right"⟩ [
      bare "-" 6 7,
      .mk ⟨"unary_expression", true, false, false, false, 7, 15, some "argument"⟩ [
        bare "typeof" 7 13,
        .mk ⟨"unary_expression", true, false, false, false, 13, 15, some "argument"⟩ [
          bare "!" 13 14,
          operand "identifier" "argument" 14 15]]]])

def sum : Site := (Site.sites [] signed).get ⟨5, by decide⟩

def negated : Site := (Site.sites [] signed).get ⟨12, by decide⟩

def swap : Mutant := ⟨"a.js", ⟨⟨0, 5⟩, ⟨0, 6⟩⟩, 5, 6, "arithmetic", "+", "-"⟩

def uncovering : Mutant := ⟨"a.js", ⟨⟨0, 13⟩, ⟨0, 15⟩⟩, 13, 15, "unary", "!y", "y"⟩

theorem swapped_fused_iff_signed :
    arithmetic.mutants "a.js" "x = a+-typeof!y;" sum = .ok [swap] ∧
      swap.inject? "x = a+-typeof!y;" = some "x = a--typeof!y;" ∧ Fused "x = a--typeof!y;" 6 ∧
      unary.mutants "a.js" "x = a+-typeof!y;" negated = .ok [uncovering] ∧
      uncovering.inject? "x = a+-typeof!y;" = some "x = a+-typeofy;" ∧
      Fused "x = a+-typeofy;" 13 := by
  have hsum : arithmetic.mutants "a.js" "x = a+-typeof!y;" sum = .ok [swap] := rfl
  have hnegated : unary.mutants "a.js" "x = a+-typeof!y;" negated = .ok [uncovering] := rfl
  obtain ⟨difference, hswap, -, hsigns, -⟩ :=
    swapped_fused_iff (.inl rfl) hsum List.mem_cons_self
  obtain ⟨merged, huncover, -, -, hoperand⟩ :=
    swapped_fused_iff (.inr rfl) hnegated List.mem_cons_self
  have hdifference : swap.inject? "x = a+-typeof!y;" = some "x = a--typeof!y;" := by decide +kernel
  have hmerged : uncovering.inject? "x = a+-typeof!y;" = some "x = a+-typeofy;" := by decide +kernel
  rw [hdifference] at hswap
  rw [hmerged] at huncover
  cases hswap
  cases huncover
  refine ⟨hsum, hdifference, ?_, hnegated, hmerged, ?_⟩
  · obtain ⟨-, hsign⟩ := hsigns '-' rfl rfl
    exact (hsign (bare "-" 6 7) (by decide +kernel) rfl).mpr rfl
  · obtain ⟨-, -, -, hkeyword⟩ := hoperand rfl _ rfl (by decide)
    have hstarts : startingAt? "x = a+-typeof!y;" 14 = some 'y' := by decide +kernel
    exact (hkeyword (bare "typeof" 7 13) (by decide +kernel) rfl).mpr ⟨'f', rfl, 'y', hstarts, rfl⟩

theorem not_swapped_apart :
    (¬∀ (o : Operator) (file text : String) (root : Node) (s : Site) (m : Mutant),
      o = arithmetic ∨ o = unary → o.Made file text root s m → ∀ c, isSign c = true →
      m.replacement = String.singleton c → startingAt? text m.stop ≠ some c) ∧
    ¬∀ (file text : String) (root : Node) (s : Site) (m : Mutant),
      unary.Made file text root s m → tokenKind? s = some "!" → ∀ a b,
      endingAt? text m.start = some a → m.replacement.toList.head? = some b →
      ¬(isNamePart a = true ∧ isNamePart b = true) := by
  have hfits : signed.Fits "x = a+-typeof!y;" := by decide +kernel
  have hclean : signed.Clean := by decide +kernel
  have hswap : arithmetic.Made "a.js" "x = a+-typeof!y;" signed sum swap :=
    ⟨hfits, hclean, Node.mem_sitesOfKind.mpr ⟨List.get_mem .., rfl, List.mem_cons_self⟩, rfl,
      [swap], rfl, List.mem_cons_self⟩
  have huncovering : unary.Made "a.js" "x = a+-typeof!y;" signed negated uncovering :=
    ⟨hfits, hclean, Node.mem_sitesOfKind.mpr ⟨List.get_mem .., rfl, List.mem_cons_self⟩, rfl,
      [uncovering], rfl, List.mem_cons_self⟩
  refine ⟨fun h => ?_, fun h => ?_⟩
  · exact h _ _ _ _ _ _ (.inl rfl) hswap '-' rfl rfl (by decide +kernel)
  · exact h _ _ _ _ _ huncovering rfl 'f' 'y' (by decide +kernel) rfl (by decide)

end Mutagen.Operator
