import Mutagen.Mutant.Json
import Mutagen.Proofs.Json.Record

/-!
# The forms of a mutant

A mutant, its span and the positions in it can each be given as an object or as an array, and texts
in any spelling. What is read depends on the values of the fields alone: a mutant is read from
exactly the texts that write one of its forms (`decode?_forms`).
-/

namespace Mutagen

namespace Mutant

def InWords (m : Mutant) : Prop :=
  m.span.InWords ∧ m.start < Json.wordBound ∧ m.stop < Json.wordBound

/-- The value is a form of the mutant, with any form of its span and any spelling of its texts. -/
def HeldBy (m : Mutant) (value : Json) : Prop :=
  ∃ file span operator removed replacement : Json, file.IsText m.file ∧ m.span.HeldBy span ∧
    operator.IsText m.operator ∧ removed.IsText m.removed ∧ replacement.IsText m.replacement ∧
    Json.Holds [("source_file", file), ("span", span), ("start_byte", .ofNat m.start),
      ("end_byte", .ofNat m.stop), ("operator", operator), ("original", removed),
      ("replacement", replacement)] value

variable {m : Mutant} {value : Json}

-- ---------------------------------------------------------------------------
-- Values
-- ---------------------------------------------------------------------------

theorem ofJson?_eq_some_iff : ofJson? value = some m ↔ m.InWords ∧ m.HeldBy value := by
  constructor
  · intro h
    obtain ⟨values, hfields, h⟩ := Option.bind_eq_some_iff.mp h
    split at h
    · rename_i file span start stop operator removed replacement
      obtain ⟨_, hfile, h⟩ := Option.bind_eq_some_iff.mp h
      obtain ⟨_, hspan, h⟩ := Option.bind_eq_some_iff.mp h
      obtain ⟨_, hstart, h⟩ := Option.bind_eq_some_iff.mp h
      obtain ⟨_, hstop, h⟩ := Option.bind_eq_some_iff.mp h
      obtain ⟨_, hoperator, h⟩ := Option.bind_eq_some_iff.mp h
      obtain ⟨_, hremoved, h⟩ := Option.bind_eq_some_iff.mp h
      obtain ⟨_, hreplacement, h⟩ := Option.bind_eq_some_iff.mp h
      cases h
      obtain ⟨hspan, hspan'⟩ := Span.ofJson?_eq_some_iff.mp hspan
      obtain ⟨rfl, hstart'⟩ := Json.toNat?_eq_some_iff.mp hstart
      obtain ⟨rfl, hstop'⟩ := Json.toNat?_eq_some_iff.mp hstop
      refine ⟨⟨hspan, hstart', hstop'⟩, file, span, operator, removed, replacement,
        Json.toText?_eq_some_iff.mp hfile, hspan', Json.toText?_eq_some_iff.mp hoperator,
        Json.toText?_eq_some_iff.mp hremoved, Json.toText?_eq_some_iff.mp hreplacement, ?_⟩
      exact (Json.fields?_eq_some_iff [("source_file", _), ("span", _), ("start_byte", _),
        ("end_byte", _), ("operator", _), ("original", _), ("replacement", _)] (by simp)).mp
        hfields
    · cases h
  · rintro ⟨⟨hspan, hstart, hstop⟩, file, span, operator, removed, replacement, hfile, hspan',
      hoperator, hremoved, hreplacement, hheld⟩
    have hfields : value.fields? fieldNames = some [file, span, .ofNat m.start, .ofNat m.stop,
        operator, removed, replacement] := (Json.fields?_eq_some_iff _ (by simp)).mpr hheld
    simp [ofJson?, hfields, Json.toNat?_eq_some_iff.mpr ⟨rfl, hstart⟩,
      Json.toNat?_eq_some_iff.mpr ⟨rfl, hstop⟩, Json.toText?_eq_some_iff.mpr hfile,
      Span.ofJson?_eq_some_iff.mpr ⟨hspan, hspan'⟩, Json.toText?_eq_some_iff.mpr hoperator,
      Json.toText?_eq_some_iff.mpr hremoved, Json.toText?_eq_some_iff.mpr hreplacement]

theorem heldBy_toJson (m : Mutant) : m.HeldBy m.toJson :=
  ⟨_, _, _, _, _, Json.isText_ofText _, m.span.heldBy_toJson, Json.isText_ofText _,
    Json.isText_ofText _, Json.isText_ofText _,
    Json.holds_written [("source_file", .ofText m.file), ("span", m.span.toJson),
      ("start_byte", .ofNat m.start), ("end_byte", .ofNat m.stop), ("operator", .ofText m.operator),
      ("original", .ofText m.removed), ("replacement", .ofText m.replacement)]⟩

theorem HeldBy.not_spoilt {members : List (List Char × Json)} {name : String}
    (h : m.HeldBy (.object members)) (hname : name ∈ fieldNames) : ¬Json.Spoilt members name := by
  obtain ⟨file, span, operator, removed, replacement, hfile, ⟨_, _, -, -, hspan⟩, hoperator,
    hremoved, hreplacement, hheld⟩ := h
  refine hheld.not_spoilt (by simp) ?_ hname
  simp [hfile.ne_null, hspan.ne_null, hoperator.ne_null, hremoved.ne_null, hreplacement.ne_null,
    Json.ofNat]

theorem HeldBy.length_eq {items : List Json} (h : m.HeldBy (.array items)) :
    items.length = fieldNames.length := by
  obtain ⟨_, _, _, _, _, -, -, -, -, -, hheld⟩ := h
  cases hheld
  rfl

-- ---------------------------------------------------------------------------
-- Texts
-- ---------------------------------------------------------------------------

theorem decode?_eq_some_iff {text : String} :
    decode? text = some m ↔ m.InWords ∧ ∃ value, value.WrittenAs text ∧ m.HeldBy value := by
  simp only [decode?, Option.bind_eq_some_iff, Json.parse?_eq_some_iff, ofJson?_eq_some_iff]
  constructor
  · rintro ⟨value, hwritten, hwords, hheld⟩
    exact ⟨hwords, value, hwritten, hheld⟩
  · rintro ⟨hwords, value, hwritten, hheld⟩
    exact ⟨value, hwritten, hwords, hheld⟩

theorem decode?_eq_none {text : String} (hwritten : value.WrittenAs text)
    (h : ∀ m : Mutant, ¬m.HeldBy value) : decode? text = none := by
  rw [decode?, Json.bind_parse? hwritten, Option.eq_none_iff_forall_ne_some]
  exact fun m hm => h m (ofJson?_eq_some_iff.mp hm).2

/-- A mutant is read from exactly the texts that write a form of it. No object is read in which a
field is missing, repeated or null, and no array with more or fewer items than there are fields. -/
theorem decode?_forms :
    (∀ (text : String) (m : Mutant), decode? text = some m ↔
      m.InWords ∧ ∃ value, value.WrittenAs text ∧ m.HeldBy value) ∧
    (∀ (text : String) (members : List (List Char × Json)) (name : String),
      (Json.object members).WrittenAs text → name ∈ fieldNames → Json.Spoilt members name →
      decode? text = none) ∧
    ∀ (text : String) (items : List Json), (Json.array items).WrittenAs text →
      items.length ≠ fieldNames.length → decode? text = none := by
  refine ⟨fun text m => decode?_eq_some_iff, fun text members name hwritten hname hspoilt => ?_,
    fun text items hwritten hlength => ?_⟩
  · exact decode?_eq_none hwritten fun m hm => hm.not_spoilt hname hspoilt
  · exact decode?_eq_none hwritten fun m hm => hlength hm.length_eq

def negated : Mutant where
  file := "a.js"
  span := ⟨⟨0, 4⟩, ⟨0, 5⟩⟩
  start := 4
  stop := 5
  operator := "numeric_negation"
  removed := "1"
  replacement := "-1"

/-- Its members in another order, with others in between. One name and one text are spelled with
escapes, and of the ends of the span one is an object and the other an array. -/
def shuffled : List (List Char × Json) :=
  [("replacement".toList, .ofText "-1"),
    ("note".toList, .array [.null, .object [("span".toList, .number "-1.5e3".toList)], .bool true]),
    ("end_byte".toList, .ofNat 5),
    ("sp\\u0061n".toList, .array [
      .object [("column".toList, .ofNat 4), ("row".toList, .object []), ("line".toList, .ofNat 0)],
      .array [.ofNat 0, .ofNat 5]]),
    ("original".toList, .string "\\u0031".toList),
    ("source_file".toList, .ofText "a.js"),
    ("note".toList, .string "\\ud800".toList),
    ("start_byte".toList, .ofNat 4),
    ("operator".toList, .ofText "numeric_negation")]

theorem decode?_forms_shuffled :
    decode? (Json.object shuffled).pretty = some negated ∧
    decode? (Json.object (("span".toList, .null) :: shuffled)).pretty = none ∧
    decode? (Json.object shuffled.tail).pretty = none ∧
    decode? (Json.array [.null]).pretty = none := by
  obtain ⟨hforms, hobject, harray⟩ := decode?_forms
  have hspelled : Json.SpelledMembers shuffled := by
    simp only [shuffled, Json.SpelledMembers, Json.Spelled, Json.SpelledItems, Json.ofText,
      Json.ofNat]
    decide +kernel
  obtain ⟨hwords, hheld⟩ : negated.InWords ∧ negated.HeldBy (.object shuffled) :=
    ofJson?_eq_some_iff.mp (by decide +kernel)
  refine ⟨(hforms _ negated).mpr ⟨hwords, _, Json.writtenAs_pretty hspelled, hheld⟩,
    hobject _ _ "span" (Json.writtenAs_pretty ⟨by decide +kernel, trivial, hspelled⟩) (by decide) ?_,
    hobject _ _ "replacement" (Json.writtenAs_pretty hspelled.2.2) (by decide) ?_,
    harray _ _ (Json.writtenAs_pretty ⟨trivial, trivial⟩) (by decide)⟩
  · exact .null List.mem_cons_self (by decide +kernel)
  · exact .missing (by decide +kernel)

end Mutant

end Mutagen
