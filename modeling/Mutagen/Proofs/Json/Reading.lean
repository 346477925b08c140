import Mutagen.Json.Reader
import Mutagen.Proofs.Json.Layout

/-!
# Which texts are read as which values

A value is written as a list of tokens. The reader that has come to a state has read the tokens that
lead there (`tokens_run?`), and it gets through the tokens of every value (`run?_tokens`). So a text
is read as a value if and only if it lays out the tokens of that value (`parse?_eq_some_iff`).
-/

namespace Mutagen.Json

mutual
def tokens : Json → List Token
  | .null => [.null]
  | .bool value => [.bool value]
  | .number spelling => [.number spelling]
  | .string spelling => [.string spelling]
  | .array items => .openArray :: [Token.comma].intercalate (itemTokens items) ++ [.closeArray]
  | .object members =>
    .openObject :: [Token.comma].intercalate (memberTokens members) ++ [.closeObject]

def itemTokens : List Json → List (List Token)
  | [] => []
  | item :: rest => item.tokens :: itemTokens rest

def memberTokens : List (List Char × Json) → List (List Token)
  | [] => []
  | (name, value) :: rest => (.string name :: .colon :: value.tokens) :: memberTokens rest
end

/-- The text is one way to write the value. -/
def WrittenAs (value : Json) (text : String) : Prop := Layout value.tokens text.toList

theorem itemTokens_append (first second : List Json) :
    itemTokens (first ++ second) = itemTokens first ++ itemTokens second := by
  induction first with
  | nil => rfl
  | cons item rest ih => simp [itemTokens, ih]

theorem memberTokens_append (first second : List (List Char × Json)) :
    memberTokens (first ++ second) = memberTokens first ++ memberTokens second := by
  induction first with
  | nil => rfl
  | cons member rest ih => simp [memberTokens, ih]

-- ---------------------------------------------------------------------------
-- Separators
-- ---------------------------------------------------------------------------

section

variable {α : Type} (separator : List α)

theorem intercalate_concat (lists : List (List α)) (last : List α) :
    separator.intercalate (lists ++ [last]) = lists.flatMap (· ++ separator) ++ last := by
  induction lists with
  | nil => simp
  | cons first rest ih =>
    rw [List.cons_append, List.intercalate_cons_of_ne_nil (by simp), ih, List.flatMap_cons,
      ← List.append_assoc]

theorem flatMap_separator {lists : List (List α)} (h : lists ≠ []) :
    lists.flatMap (· ++ separator) = separator.intercalate lists ++ separator := by
  rw [← List.dropLast_concat_getLast h, intercalate_concat]
  simp

end

-- ---------------------------------------------------------------------------
-- What has been read
-- ---------------------------------------------------------------------------

def Hole.tokens : Hole → List Token
  | .item items => .openArray :: (itemTokens items.reverse).flatMap (· ++ [.comma])
  | .member members name =>
    .openObject :: (memberTokens members.reverse).flatMap (· ++ [.comma]) ++ [.string name, .colon]

def opened (around : List Hole) : List Token := around.reverse.flatMap Hole.tokens

def Reading.tokens : Reading → List Token
  | .due around => opened around
  | .firstItem around => opened around ++ [.openArray]
  | .afterItem around items =>
    opened around ++ .openArray :: [Token.comma].intercalate (itemTokens items.reverse)
  | .firstName around => opened around ++ [.openObject]
  | .dueName around members =>
    opened around ++ .openObject :: (memberTokens members.reverse).flatMap (· ++ [.comma])
  | .dueColon around members name =>
    opened around ++ .openObject :: (memberTokens members.reverse).flatMap (· ++ [.comma]) ++
      [.string name]
  | .afterMember around members =>
    opened around ++ .openObject :: [Token.comma].intercalate (memberTokens members.reverse)
  | .done value => value.tokens

/-- What comes after an item or a member is not the first. -/
def Reading.Proper : Reading → Prop
  | .afterItem _ items => items ≠ []
  | .afterMember _ members => members ≠ []
  | _ => True

variable {reading next : Reading} {token : Token} {around : List Hole} {value : Json}

theorem opened_cons (hole : Hole) (around : List Hole) :
    opened (hole :: around) = opened around ++ hole.tokens := by simp [opened]

theorem itemTokens_ne_nil {items : List Json} (h : items ≠ []) : itemTokens items ≠ [] := by
  cases items with
  | nil => exact absurd rfl h
  | cons item rest => simp [itemTokens]

theorem memberTokens_ne_nil {members : List (List Char × Json)} (h : members ≠ []) :
    memberTokens members ≠ [] := by
  cases members with
  | nil => exact absurd rfl h
  | cons member rest => simp [memberTokens]

namespace Reading

theorem proper_fill (value : Json) (around : List Hole) : (fill value around).Proper := by
  cases around with
  | nil => trivial
  | cons hole around => cases hole <;> simp [fill, Proper]

theorem tokens_fill (value : Json) (around : List Hole) :
    (fill value around).tokens = opened around ++ value.tokens := by
  cases around with
  | nil => rfl
  | cons hole around =>
    cases hole with
    | item items =>
      simp [fill, tokens, opened_cons, Hole.tokens, itemTokens_append, intercalate_concat,
        itemTokens]
    | member members name =>
      simp [fill, tokens, opened_cons, Hole.tokens, memberTokens_append, intercalate_concat,
        memberTokens]

theorem tokens_start? (h : start? around token = some next) :
    next.Proper ∧ next.tokens = opened around ++ [token] := by
  unfold start? at h
  split at h
  · cases h
    exact ⟨proper_fill .., tokens_fill ..⟩
  · cases h
    exact ⟨proper_fill .., tokens_fill ..⟩
  · cases h
    exact ⟨proper_fill .., tokens_fill ..⟩
  · cases h
    exact ⟨proper_fill .., tokens_fill ..⟩
  · cases h
    exact ⟨trivial, rfl⟩
  · cases h
    exact ⟨trivial, rfl⟩
  · cases h

theorem tokens_step? (hproper : reading.Proper) (h : step? reading token = some next) :
    next.Proper ∧ next.tokens = reading.tokens ++ [token] := by
  unfold step? at h
  split at h
  · exact tokens_start? h
  · cases h
    refine ⟨proper_fill .., ?_⟩
    rw [tokens_fill]
    simp [tokens, Json.tokens, itemTokens]
  · obtain ⟨hnext, htokens⟩ := tokens_start? h
    refine ⟨hnext, ?_⟩
    rw [htokens, opened_cons]
    simp [tokens, Hole.tokens, itemTokens]
  · cases h
    have hne := itemTokens_ne_nil (List.reverse_ne_nil_iff.mpr hproper)
    simp [Proper, tokens, opened_cons, Hole.tokens, flatMap_separator _ hne]
  · cases h
    refine ⟨proper_fill .., ?_⟩
    rw [tokens_fill]
    simp [tokens, Json.tokens]
  · cases h
    refine ⟨proper_fill .., ?_⟩
    rw [tokens_fill]
    simp [tokens, Json.tokens, memberTokens]
  · cases h
    simp [Proper, tokens, memberTokens]
  · cases h
    simp [Proper, tokens]
  · cases h
    simp [Proper, tokens, opened_cons, Hole.tokens]
  · cases h
    have hne := memberTokens_ne_nil (List.reverse_ne_nil_iff.mpr hproper)
    simp [Proper, tokens, flatMap_separator _ hne]
  · cases h
    refine ⟨proper_fill .., ?_⟩
    rw [tokens_fill]
    simp [tokens, Json.tokens]
  · cases h

theorem tokens_run? {read : List Token} (hproper : reading.Proper)
    (h : run? reading read = some next) : next.tokens = reading.tokens ++ read := by
  induction read generalizing reading with
  | nil =>
    cases h
    exact (List.append_nil _).symm
  | cons token read ih =>
    obtain ⟨middle, hstep, hrun⟩ := Option.bind_eq_some_iff.mp h
    obtain ⟨hmiddle, htokens⟩ := tokens_step? hproper hstep
    rw [ih hmiddle hrun, htokens, List.append_assoc, List.singleton_append]

-- ---------------------------------------------------------------------------
-- Reading values
-- ---------------------------------------------------------------------------

theorem run?_cons (h : step? reading token = some next) (rest : List Token) :
    run? reading (token :: rest) = run? next rest := by rw [run?, h, Option.bind_some]

/-- The first item of an array is read like the others. -/
theorem run?_firstItem (item : Json) (items : List Json) (around : List Hole) (rest : List Token) :
    run? (.firstItem around) ([Token.comma].intercalate (itemTokens (item :: items)) ++ rest) =
      run? (.due (.item [] :: around))
        ([Token.comma].intercalate (itemTokens (item :: items)) ++ rest) := by
  have hfirst : ∃ more,
      [Token.comma].intercalate (itemTokens (item :: items)) ++ rest = item.tokens ++ more := by
    cases items <;> simp [itemTokens]
  obtain ⟨more, hmore⟩ := hfirst
  rw [hmore]
  cases item <;> rfl

theorem run?_firstName (member : List Char × Json) (members : List (List Char × Json))
    (around : List Hole) (rest : List Token) :
    run? (.firstName around)
        ([Token.comma].intercalate (memberTokens (member :: members)) ++ rest) =
      run? (.dueName around [])
        ([Token.comma].intercalate (memberTokens (member :: members)) ++ rest) := by
  cases members <;> rfl

mutual
theorem run?_tokens : (value : Json) → (around : List Hole) → (rest : List Token) →
    run? (.due around) (value.tokens ++ rest) = run? (fill value around) rest
  | .null, _, _ | .bool _, _, _ | .number _, _, _ | .string _, _, _ => rfl
  | .array [], _, _ | .object [], _, _ => rfl
  | .array (item :: items), around, rest => by
    simp only [Json.tokens, List.cons_append, List.append_assoc, List.nil_append]
    rw [run?_cons rfl, run?_firstItem, run?_items (item :: items) (by simp) []]
    rfl
  | .object (member :: members), around, rest => by
    simp only [Json.tokens, List.cons_append, List.append_assoc, List.nil_append]
    rw [run?_cons rfl, run?_firstName, run?_members (member :: members) (by simp) []]
    rfl

theorem run?_items : (items : List Json) → items ≠ [] → (before : List Json) →
    (around : List Hole) → (rest : List Token) →
    run? (.due (.item before :: around))
      ([Token.comma].intercalate (itemTokens items) ++ .closeArray :: rest) =
      run? (fill (.array (before.reverse ++ items)) around) rest
  | [], h, _, _, _ => absurd rfl h
  | [item], _, before, around, rest => by
    simp only [itemTokens, List.intercalate_singleton]
    rw [run?_tokens item, fill, run?_cons rfl, List.reverse_cons]
  | item :: next :: items, _, before, around, rest => by
    simp only [itemTokens, List.intercalate_cons_cons, List.append_assoc, List.cons_append]
    rw [run?_tokens item, fill, run?_cons rfl]
    have hlater := run?_items (next :: items) (by simp) (item :: before) around rest
    rw [List.reverse_cons, List.append_assoc, List.singleton_append] at hlater
    exact hlater

theorem run?_members : (members : List (List Char × Json)) → members ≠ [] →
    (before : List (List Char × Json)) → (around : List Hole) → (rest : List Token) →
    run? (.dueName around before)
      ([Token.comma].intercalate (memberTokens members) ++ .closeObject :: rest) =
      run? (fill (.object (before.reverse ++ members)) around) rest
  | [], h, _, _, _ => absurd rfl h
  | [(name, value)], _, before, around, rest => by
    simp only [memberTokens, List.intercalate_singleton, List.cons_append]
    rw [run?_cons rfl, run?_cons rfl, run?_tokens value, fill, run?_cons rfl, List.reverse_cons]
  | (name, value) :: next :: members, _, before, around, rest => by
    simp only [memberTokens, List.intercalate_cons_cons, List.append_assoc, List.cons_append]
    rw [run?_cons rfl, run?_cons rfl, run?_tokens value, fill, run?_cons rfl]
    have hlater := run?_members (next :: members) (by simp) ((name, value) :: before) around rest
    rw [List.reverse_cons, List.append_assoc, List.singleton_append] at hlater
    exact hlater
end

end Reading

-- ---------------------------------------------------------------------------
-- Reading texts
-- ---------------------------------------------------------------------------

theorem parse?_eq_some_iff {text : String} : parse? text = some value ↔ value.WrittenAs text := by
  constructor
  · intro h
    obtain ⟨read, htokens, h⟩ := Option.bind_eq_some_iff.mp h
    obtain ⟨last, hrun, h⟩ := Option.bind_eq_some_iff.mp h
    split at h
    · cases h
      have hstart : Reading.Proper (.due []) := trivial
      obtain rfl : value.tokens = read := Reading.tokens_run? hstart hrun
      exact tokens?_eq_some_iff.mp htokens
    · cases h
  · intro h
    have hrun := Reading.run?_tokens value [] []
    rw [List.append_nil] at hrun
    simp [parse?, tokens?_eq_some_iff.mpr h, hrun, Reading.run?, Reading.fill]

/-- Whatever reads values gets the value that is written. -/
theorem bind_parse? {α : Type} {text : String} (h : value.WrittenAs text)
    (read? : Json → Option α) : (parse? text).bind read? = read? value := by
  rw [parse?_eq_some_iff.mpr h, Option.bind_some]

end Mutagen.Json
