import Mutagen.Proofs.Json.Fields
import Mutagen.Proofs.Json.Writing
import Mutagen.Proofs.Text.Position
import Mutagen.Text.Json

/-!
# Positions and spans in JSON

A position or a span whose numbers fit into words is read from exactly its forms: objects with the
fields in any order and others in between, and arrays (`Span.ofJson?_eq_some_iff`). What is written
is one of them.
-/

namespace Mutagen

variable {value : Json}

namespace Position

def InWords (p : Position) : Prop := p.line < Json.wordBound ∧ p.column < Json.wordBound

instance (p : Position) : Decidable p.InWords := inferInstanceAs (Decidable (_ ∧ _))

def HeldBy (p : Position) (value : Json) : Prop :=
  Json.Holds [("line", .ofNat p.line), ("column", .ofNat p.column)] value

variable {p : Position}

theorem spelled_toJson (p : Position) : p.toJson.Spelled :=
  ⟨Json.Quoted.spelling_encode _, Json.spelled_ofNat _, Json.Quoted.spelling_encode _,
    Json.spelled_ofNat _, trivial⟩

theorem ofJson?_eq_some_iff : ofJson? value = some p ↔ p.InWords ∧ p.HeldBy value := by
  constructor
  · intro h
    obtain ⟨values, hfields, h⟩ := Option.bind_eq_some_iff.mp h
    split at h
    · obtain ⟨line, hline, h⟩ := Option.bind_eq_some_iff.mp h
      obtain ⟨column, hcolumn, h⟩ := Option.bind_eq_some_iff.mp h
      cases h
      obtain ⟨rfl, hline'⟩ := Json.toNat?_eq_some_iff.mp hline
      obtain ⟨rfl, hcolumn'⟩ := Json.toNat?_eq_some_iff.mp hcolumn
      exact ⟨⟨hline', hcolumn'⟩,
        (Json.fields?_eq_some_iff [("line", _), ("column", _)] (by simp)).mp hfields⟩
    · cases h
  · rintro ⟨⟨hline, hcolumn⟩, hheld⟩
    have hfields : value.fields? ["line", "column"] = some [.ofNat p.line, .ofNat p.column] :=
      (Json.fields?_eq_some_iff _ (by simp)).mpr hheld
    simp [ofJson?, hfields, Json.toNat?_eq_some_iff.mpr ⟨rfl, hline⟩,
      Json.toNat?_eq_some_iff.mpr ⟨rfl, hcolumn⟩]

theorem heldBy_toJson (p : Position) : p.HeldBy p.toJson :=
  Json.holds_written [("line", .ofNat p.line), ("column", .ofNat p.column)]

theorem ofJson?_toJson (h : p.InWords) : ofJson? p.toJson = some p :=
  ofJson?_eq_some_iff.mpr ⟨h, p.heldBy_toJson⟩

theorem inWords_of_ofJson? (h : ofJson? value = some p) : p.InWords := (ofJson?_eq_some_iff.mp h).1

theorem inWords_ofOffset {n : Nat} (h : n < Json.wordBound) (text : String) :
    (ofOffset text n).InWords :=
  have hbound := ofOffset_bound text n
  ⟨Nat.lt_of_le_of_lt hbound.1 h, Nat.lt_of_le_of_lt hbound.2 h⟩

end Position

namespace Span

def InWords (s : Span) : Prop := s.start.InWords ∧ s.stop.InWords

instance (s : Span) : Decidable s.InWords := inferInstanceAs (Decidable (_ ∧ _))

def HeldBy (s : Span) (value : Json) : Prop :=
  ∃ start stop, s.start.HeldBy start ∧ s.stop.HeldBy stop ∧
    Json.Holds [("start", start), ("end", stop)] value

variable {s : Span}

theorem spelled_toJson (s : Span) : s.toJson.Spelled :=
  ⟨Json.Quoted.spelling_encode _, s.start.spelled_toJson, Json.Quoted.spelling_encode _,
    s.stop.spelled_toJson, trivial⟩

theorem ofJson?_eq_some_iff : ofJson? value = some s ↔ s.InWords ∧ s.HeldBy value := by
  constructor
  · intro h
    obtain ⟨values, hfields, h⟩ := Option.bind_eq_some_iff.mp h
    split at h
    · rename_i start stop
      obtain ⟨_, hstart, h⟩ := Option.bind_eq_some_iff.mp h
      obtain ⟨_, hstop, h⟩ := Option.bind_eq_some_iff.mp h
      cases h
      obtain ⟨hstart, hstart'⟩ := Position.ofJson?_eq_some_iff.mp hstart
      obtain ⟨hstop, hstop'⟩ := Position.ofJson?_eq_some_iff.mp hstop
      exact ⟨⟨hstart, hstop⟩, start, stop, hstart', hstop',
        (Json.fields?_eq_some_iff [("start", start), ("end", stop)] (by simp)).mp hfields⟩
    · cases h
  · rintro ⟨⟨hstart, hstop⟩, start, stop, hstart', hstop', hheld⟩
    have hfields : value.fields? ["start", "end"] = some [start, stop] :=
      (Json.fields?_eq_some_iff _ (by simp)).mpr hheld
    simp [ofJson?, hfields, Position.ofJson?_eq_some_iff.mpr ⟨hstart, hstart'⟩,
      Position.ofJson?_eq_some_iff.mpr ⟨hstop, hstop'⟩]

theorem heldBy_toJson (s : Span) : s.HeldBy s.toJson :=
  ⟨_, _, s.start.heldBy_toJson, s.stop.heldBy_toJson,
    Json.holds_written [("start", s.start.toJson), ("end", s.stop.toJson)]⟩

theorem ofJson?_toJson (h : s.InWords) : ofJson? s.toJson = some s :=
  ofJson?_eq_some_iff.mpr ⟨h, s.heldBy_toJson⟩

theorem inWords_of_ofJson? (h : ofJson? value = some s) : s.InWords := (ofJson?_eq_some_iff.mp h).1

theorem inWords_ofOffsets {start stop : Nat} (hstart : start < Json.wordBound)
    (hstop : stop < Json.wordBound) (text : String) : (ofOffsets text start stop).InWords :=
  ⟨Position.inWords_ofOffset hstart text, Position.inWords_ofOffset hstop text⟩

end Span

end Mutagen
