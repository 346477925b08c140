import Mutagen.Text.Position

/-!
# The order of positions

Positions are ordered by line, then by column. A byte further on is at a greater position
(`Position.ofOffset_lt`), so that spans lie to each other as their byte ranges do.
-/

namespace Mutagen

namespace Position

instance : LT Position := ⟨fun p q => p.line < q.line ∨ p.line = q.line ∧ p.column < q.column⟩

instance : LE Position := ⟨fun p q => p.line < q.line ∨ p.line = q.line ∧ p.column ≤ q.column⟩

theorem lt_def {p q : Position} :
    p < q ↔ p.line < q.line ∨ p.line = q.line ∧ p.column < q.column := Iff.rfl

theorem le_def {p q : Position} :
    p ≤ q ↔ p.line < q.line ∨ p.line = q.line ∧ p.column ≤ q.column := Iff.rfl

instance (p q : Position) : Decidable (p ≤ q) := decidable_of_iff _ le_def.symm

instance (p q : Position) : Decidable (p < q) := decidable_of_iff _ lt_def.symm

theorem le_refl (p : Position) : p ≤ p := .inr ⟨rfl, Nat.le_refl _⟩

theorem le_of_lt {p q : Position} (h : p < q) : p ≤ q := h.imp_right fun ⟨hl, hc⟩ => ⟨hl, Nat.le_of_lt hc⟩

theorem lt_of_lt_of_le {p q r : Position} (h : p < q) (h' : q ≤ r) : p < r := by
  rw [lt_def] at h ⊢
  rw [le_def] at h'
  omega

theorem lt_advance (p : Position) (c : Char) : p < p.advance c := by
  have hpos := c.utf8Size_pos
  unfold advance
  split
  · exact .inl (Nat.lt_succ_self _)
  · exact .inr ⟨rfl, by simpa using hpos⟩

/-- The bytes inside a character are before all that follows it. -/
theorem lt_advance_of_lt {p : Position} {c : Char} {n : Nat} (h : n < c.utf8Size) :
    ⟨p.line, p.column + n⟩ < p.advance c := by
  unfold advance
  split
  · exact .inl (Nat.lt_succ_self _)
  · exact .inr ⟨rfl, by simpa using h⟩

theorem le_walk (p : Position) (cs : List Char) (n : Nat) : p ≤ walk p cs n := by
  fun_induction walk p cs n with
  | case1 => exact le_refl _
  | case2 p n => exact .inr ⟨rfl, Nat.le_add_right ..⟩
  | case3 p c cs n h ih => exact le_of_lt (lt_of_lt_of_le (p.lt_advance c) ih)
  | case4 p c cs n h => exact .inr ⟨rfl, Nat.le_add_right ..⟩

theorem walk_lt_walk (p : Position) (cs : List Char) {m n : Nat} (h : m < n) :
    walk p cs m < walk p cs n := by
  induction cs generalizing p m n with
  | nil =>
    obtain _ | m := m <;> obtain _ | n := n
    · cases h
    · exact .inr ⟨rfl, by simp [walk]⟩
    · cases h
    · exact .inr ⟨rfl, by simpa [walk] using h⟩
  | cons c cs ih =>
    obtain _ | n := n
    · cases h
    obtain _ | m := m
    · simp only [walk]
      split
      · exact lt_of_lt_of_le (p.lt_advance c) (le_walk ..)
      · exact .inr ⟨rfl, by simp⟩
    simp only [walk]
    split
    · rw [if_pos (by omega)]
      exact ih _ (by omega)
    · rename_i hm
      split
      · exact lt_of_lt_of_le (lt_advance_of_lt (by omega)) (le_walk ..)
      · exact .inr ⟨rfl, by simpa using h⟩

theorem walk_le (p : Position) (cs : List Char) (n : Nat) :
    (walk p cs n).line + (walk p cs n).column ≤ p.line + p.column + n := by
  fun_induction walk p cs n with
  | case1 => exact Nat.le_refl _
  | case2 => exact Nat.le_of_eq (Nat.add_assoc ..).symm
  | case3 p c cs n h ih =>
    have hadvance : (p.advance c).line + (p.advance c).column ≤ p.line + p.column + c.utf8Size := by
      have hpos := c.utf8Size_pos
      unfold advance
      split <;> dsimp only <;> omega
    omega
  | case4 => exact Nat.le_of_eq (Nat.add_assoc ..).symm

theorem ofOffset_bound (text : String) (n : Nat) :
    (ofOffset text n).line ≤ n ∧ (ofOffset text n).column ≤ n := by
  have hle : (ofOffset text n).line + (ofOffset text n).column ≤ 0 + 0 + n := walk_le ..
  omega

theorem ofOffset_lt (text : String) {m n : Nat} (h : m < n) : ofOffset text m < ofOffset text n :=
  walk_lt_walk _ _ h

theorem ofOffset_le (text : String) {m n : Nat} (h : m ≤ n) : ofOffset text m ≤ ofOffset text n := by
  rcases Nat.lt_or_eq_of_le h with h | rfl
  · exact le_of_lt (ofOffset_lt text h)
  · exact le_refl _

end Position

namespace Span

def Within (a b : Span) : Prop := b.start ≤ a.start ∧ a.stop ≤ b.stop

def Apart (a b : Span) : Prop := a.stop ≤ b.start ∨ b.stop ≤ a.start

instance (a b : Span) : Decidable (a.Within b) := inferInstanceAs (Decidable (_ ∧ _))

instance (a b : Span) : Decidable (a.Apart b) := inferInstanceAs (Decidable (_ ∨ _))

end Span

end Mutagen
