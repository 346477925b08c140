import Mutagen.Command.Mutate
import Mutagen.Proofs.Mutant.Forms

/-!
# Mutants through JSON

A mutant with numbers that fit into words comes back from its text, whatever its strings are, and so
does a list of mutants from the line that lists it. What is read from any other text is such a
mutant too (`roundTrip_encode`).
-/

namespace Mutagen.Mutant

open Command (World MutateOptions)

variable {m : Mutant} {mutants : List Mutant} {value : Json} {text : String}

-- ---------------------------------------------------------------------------
-- One mutant
-- ---------------------------------------------------------------------------

theorem spelled_toJson (m : Mutant) : m.toJson.Spelled :=
  Json.spelledMembers_iff.mpr <| by
    simp [fieldNames, Json.nameOf, Json.Quoted.spelling_encode, Json.spelled_ofText,
      Json.spelled_ofNat, Span.spelled_toJson]

theorem ofJson?_toJson (h : m.InWords) : ofJson? m.toJson = some m :=
  ofJson?_eq_some_iff.mpr ⟨h, m.heldBy_toJson⟩

theorem writtenAs_encode (m : Mutant) : m.toJson.WrittenAs m.encode :=
  Json.writtenAs_compact m.spelled_toJson

theorem decode?_encode (h : m.InWords) : decode? m.encode = some m := by
  rw [decode?, Json.bind_parse? m.writtenAs_encode, ofJson?_toJson h]

theorem inWords_of_decode? (h : decode? text = some m) : m.InWords := (decode?_eq_some_iff.mp h).1

-- ---------------------------------------------------------------------------
-- Lists of mutants
-- ---------------------------------------------------------------------------

theorem mapM_ofJson?_toJson (h : ∀ m ∈ mutants, m.InWords) :
    (mutants.map toJson).mapM ofJson? = some mutants := by
  rw [Json.mapM_eq_some_iff, List.map_map]
  exact List.map_congr_left fun m hm => ofJson?_toJson (h m hm)

theorem spelled_array (mutants : List Mutant) : (Json.array (mutants.map toJson)).Spelled := by
  refine Json.spelledItems_iff.mpr fun item hitem => ?_
  obtain ⟨m, -, rfl⟩ := List.mem_map.mp hitem
  exact m.spelled_toJson

theorem newline_notMem_encodeAll (mutants : List Mutant) : '\n' ∉ (encodeAll mutants).toList :=
  Json.newline_notMem_compact (spelled_array mutants)

theorem decodeAll?_encodeAll (h : ∀ m ∈ mutants, m.InWords) (rest : String)
    (hrest : ∀ c ∈ rest.toList, Json.isSpace c = true) :
    decodeAll? (encodeAll mutants ++ rest) = some mutants := by
  have hwritten := Json.writtenAs_write (spelled_array mutants) Json.compactForm rest hrest
  rw [decodeAll?, encodeAll, Json.compact, Json.parse?_eq_some_iff.mpr hwritten]
  exact mapM_ofJson?_toJson h

theorem decodeAll?_listing (w : World) {options : MutateOptions} (hjson : options.json = true)
    (h : ∀ m ∈ mutants, m.InWords) : decodeAll? (w.listing options mutants) = some mutants := by
  rw [World.listing, if_pos hjson]
  exact decodeAll?_encodeAll h "\n" (by simp [Json.isSpace])

-- ---------------------------------------------------------------------------
-- There and back
-- ---------------------------------------------------------------------------

def rounds? : Nat → String → Option String
  | 0, text => some text
  | n + 1, text => (decode? text).bind fun m => rounds? n m.encode

theorem rounds?_encode (h : m.InWords) (n : Nat) : rounds? n m.encode = some m.encode := by
  induction n with
  | zero => rfl
  | succ n ih => rw [rounds?, decode?_encode h, Option.bind_some, ih]

/-- Mutants come back from their texts, and lists of them from the lines that list them. A mutant
that comes from any other text has a text that stays the same from then on. -/
theorem roundTrip_encode :
    (∀ m : Mutant, m.InWords → decode? m.encode = some m) ∧
    (∀ (w : World) (options : MutateOptions) (mutants : List Mutant), options.json = true →
      (∀ m ∈ mutants, m.InWords) →
      decodeAll? (encodeAll mutants) = some mutants ∧
      decodeAll? (w.listing options mutants) = some mutants) ∧
    (∀ (text : String) (m : Mutant), decode? text = some m →
      m.InWords ∧ decode? m.encode = some m ∧
      ∀ n, rounds? (n + 1) text = some m.encode) := by
  refine ⟨fun m h => decode?_encode h, fun w options mutants hjson h => ⟨?_, ?_⟩,
    fun text m h => ?_⟩
  · simpa using decodeAll?_encodeAll h "" (by simp)
  · exact decodeAll?_listing w hjson h
  · have hwords := inWords_of_decode? h
    refine ⟨hwords, decode?_encode hwords, fun n => ?_⟩
    rw [rounds?, h, Option.bind_some, rounds?_encode hwords]

/-- Quotes, backslashes, control characters and characters beyond U+FFFF, and the largest word. -/
def thorny : Mutant where
  file := "a\\\"b\".js"
  span := ⟨⟨0, 18446744073709551615⟩, ⟨18446744073709551615, 0⟩⟩
  start := 18446744073709551615
  stop := 0
  operator := "\x00\x1f/\x7f"
  removed := "\n\r\t\x08\x0c"
  replacement := "😀𐀀é"

def thornySpelled : String :=
  "[\"a\\u005c\\u0022b\\\".js\" , [\x7b\"column\":18446744073709551615,\"line\":0\x7d,\n" ++
  "[18446744073709551615,0]],18446744073709551615,\t0,\"\\u0000\\u001F\\/\x7f\"," ++
  "\"\\n\\r\\t\\b\\f\",\"\\ud83d\\uDE00𐀀é\" ]\n"

theorem roundTrip_encode_thorny :
    decode? thorny.encode = some thorny ∧
    (∀ (w : World) (files : List String),
      decodeAll? (w.listing ⟨files, [], false, true, false⟩ [thorny, thorny]) =
        some [thorny, thorny]) ∧
    decode? thornySpelled = some thorny ∧ thornySpelled ≠ thorny.encode ∧
    rounds? 3 thornySpelled = some thorny.encode := by
  obtain ⟨hencode, hlisting, hdecode⟩ := roundTrip_encode
  have hthorny : decode? thornySpelled = some thorny := by decide +kernel
  obtain ⟨hwords, -, hrounds⟩ := hdecode thornySpelled thorny hthorny
  refine ⟨hencode thorny hwords, fun w files => ?_, hthorny, by decide +kernel, hrounds 2⟩
  exact (hlisting w _ _ rfl (by simpa using hwords)).2

end Mutagen.Mutant
