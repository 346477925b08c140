import Mathlib.Data.List.Perm.Basic
import Mutagen.Json.Field
import Mutagen.Json.Writer
import Mutagen.Proofs.Json.Quoted

/-!
# Which values hold a record

An object holds a record if each field stands there once, under any spelling of its name and in any
order, whatever members with other names stand in between. An array holds it if the values of the
fields are its items. Reading a record succeeds for exactly these values (`fields?_eq_some_iff`), so
no object is read in which a field is missing, repeated or null (`Holds.not_spoilt`).
-/

namespace Mutagen.Json

def IsText (value : Json) (text : String) : Prop :=
  ∃ spelling, value = .string spelling ∧ Quoted.Spells spelling text.toList

/-- The name of the member is this one, in whatever spelling. -/
def IsNamed (member : List Char × Json) (name : String) : Prop :=
  Quoted.Spells member.1 name.toList

def Gives (member : List Char × Json) (field : String × Json) : Prop :=
  IsNamed member field.1 ∧ member.2 = field.2

/-- A record is given by the names of its fields, in their own order, with the values. In an object
the members are its fields and a rest with other names, sorted in any way. -/
inductive Holds (fields : List (String × Json)) : Json → Prop
  | object {members sorted : List (List Char × Json)} {rest : List (String × Json)}
      (hmembers : members.Perm sorted) (hsorted : List.Forall₂ Gives sorted (fields ++ rest))
      (hrest : ∀ other ∈ rest, other.1 ∉ fields.map (·.1)) : Holds fields (.object members)
  | array : Holds fields (.array (fields.map (·.2)))

/-- What can be wrong with a field in an object. -/
inductive Spoilt (members : List (List Char × Json)) (name : String) : Prop
  | missing (h : ∀ member ∈ members, ¬IsNamed member name)
  | repeated {first second : List Char × Json} (h : [first, second].Sublist members)
      (hfirst : IsNamed first name) (hsecond : IsNamed second name)
  | null {spelling : List Char} (h : (spelling, .null) ∈ members)
      (hname : IsNamed (spelling, .null) name)

variable {members : List (List Char × Json)} {named fields rest : List (String × Json)}
  {member : List Char × Json} {field : String × Json} {name other text : String} {value : Json}
  {n : Nat}

-- ---------------------------------------------------------------------------
-- Texts and numbers
-- ---------------------------------------------------------------------------

theorem toText?_eq_some_iff : value.toText? = some text ↔ value.IsText text := by
  cases value with
  | string spelling =>
    simp only [toText?, IsText, Option.map_eq_some_iff, Quoted.decode?_eq_some_iff, string.injEq]
    constructor
    · rintro ⟨letters, hspells, rfl⟩
      exact ⟨spelling, rfl, by simpa using hspells⟩
    · rintro ⟨_, rfl, hspells⟩
      exact ⟨_, hspells, by simp⟩
  | null | bool | number | array | object => simp [toText?, IsText]

/-- A number has one spelling only. -/
theorem toNat?_eq_some_iff : value.toNat? = some n ↔ value = .ofNat n ∧ n < wordBound := by
  cases value with
  | number spelling => simp [toNat?, ofNat, Decimal.below?_eq_some_iff]
  | null | bool | string | array | object => simp [toNat?, ofNat]

theorem isText_ofText (text : String) : (ofText text).IsText text :=
  ⟨_, rfl, Quoted.decode?_eq_some_iff.mp (Quoted.decode?_encode _)⟩

theorem IsText.ne_null (h : value.IsText text) : value ≠ .null := by
  obtain ⟨spelling, rfl, -⟩ := h
  simp

theorem Holds.ne_null (h : Holds fields value) : value ≠ .null := by
  rintro rfl
  cases h

-- ---------------------------------------------------------------------------
-- Names
-- ---------------------------------------------------------------------------

theorem isNamed_iff : IsNamed member name ↔ Quoted.decode? member.1 = some name.toList :=
  Quoted.decode?_eq_some_iff.symm

instance (member : List Char × Json) (name : String) : Decidable (IsNamed member name) :=
  decidable_of_iff _ isNamed_iff.symm

theorem isNamed_nameOf (name : String) (value : Json) : IsNamed (nameOf name, value) name :=
  isNamed_iff.mpr (Quoted.decode?_encode _)

theorem IsNamed.unique (h : IsNamed member name) (hother : IsNamed member other) : name = other := by
  rw [isNamed_iff] at h hother
  exact String.toList_inj.mp (Option.some.inj (h.symm.trans hother))

theorem Gives.isNamed_iff (h : Gives member field) : IsNamed member name ↔ field.1 = name := by
  refine ⟨h.1.unique, ?_⟩
  rintro rfl
  exact h.1

def letters (field : String × Json) : List Char × Json := (field.1.toList, field.2)

theorem decodeName?_eq_some_iff :
    decodeName? member = some (letters field) ↔ Gives member field := by
  simp [decodeName?, letters, Gives, Json.isNamed_iff]

theorem mapM_eq_some_iff {α β : Type} {f : α → Option β} {items : List α} {results : List β} :
    items.mapM f = some results ↔ items.map f = results.map some := by
  induction items generalizing results with
  | nil => cases results <;> simp
  | cons item items ih =>
    rw [List.mapM_cons]
    cases results with
    | nil => simp [Option.bind_eq_some_iff]
    | cons result results => simp [Option.bind_eq_some_iff, ih]

theorem mapM_decodeName? :
    members.mapM decodeName? = some (named.map letters) ↔ List.Forall₂ Gives members named := by
  rw [mapM_eq_some_iff, List.map_map, ← List.forall₂_eq_eq_eq, List.forall₂_map_left_iff,
    List.forall₂_map_right_iff]
  simp only [Function.comp_apply, decodeName?_eq_some_iff]

theorem exists_named {read : List (List Char × Json)} (h : members.mapM decodeName? = some read) :
    ∃ named, read = named.map letters ∧ List.Forall₂ Gives members named := by
  have hread : read = (read.map fun member => (String.ofList member.1, member.2)).map letters := by
    simp [letters, Function.comp_def]
  rw [hread] at h
  exact ⟨_, hread, mapM_decodeName?.mp h⟩

-- ---------------------------------------------------------------------------
-- Fields by their names
-- ---------------------------------------------------------------------------

theorem filter_letters : (named.map letters).filter (·.1 == name.toList) =
    (named.filter (·.1 == name)).map letters := by
  have hname : ((·.1 == name.toList) ∘ letters : String × Json → Bool) = (·.1 == name) := by
    funext field
    rw [Bool.eq_iff_iff]
    simp [letters, String.toList_inj]
  rw [List.filter_map, hname]

theorem lone?_letters :
    lone? (named.map letters) field.1 = some field.2 ↔ named.filter (·.1 == field.1) = [field] := by
  have hname : ∀ found ∈ named.filter (·.1 == field.1), found.1 = field.1 := by simp
  rw [lone?, filter_letters]
  generalize named.filter (·.1 == field.1) = all at hname
  rcases all with _ | ⟨found, _ | _⟩
  · simp
  · have hfound := hname found List.mem_cons_self
    simp [letters, Prod.ext_iff, hfound]
  · simp

theorem filter_name (hnodup : (fields.map (·.1)).Nodup) (h : field ∈ fields) :
    fields.filter (·.1 == field.1) = [field] := by
  induction fields with
  | nil => cases h
  | cons first fields ih =>
    obtain ⟨hfresh, hnodup⟩ := List.nodup_cons.mp hnodup
    rcases List.mem_cons.mp h with rfl | h
    · have hnone : fields.filter (·.1 == field.1) = [] := by
        rw [List.filter_eq_nil_iff]
        rintro other hother heq
        exact hfresh (List.mem_map.mpr ⟨other, hother, beq_iff_eq.mp heq⟩)
      simp [hnone]
    · have hne : first.1 ≠ field.1 := fun heq => hfresh (List.mem_map.mpr ⟨field, h, heq.symm⟩)
      simp [hne, ih hnodup h]

theorem filter_of_perm (hnodup : (fields.map (·.1)).Nodup) (h : named.Perm (fields ++ rest))
    (hrest : ∀ other ∈ rest, other.1 ∉ fields.map (·.1)) (hfield : field ∈ fields) :
    named.filter (·.1 == field.1) = [field] := by
  have hnone : rest.filter (·.1 == field.1) = [] := by
    rw [List.filter_eq_nil_iff]
    rintro other hother heq
    exact hrest other hother (beq_iff_eq.mp heq ▸ List.mem_map_of_mem hfield)
  have hperm := h.filter (·.1 == field.1)
  rw [List.filter_append, filter_name hnodup hfield, hnone] at hperm
  exact List.perm_singleton.mp hperm

theorem perm_of_filter (hnodup : (fields.map (·.1)).Nodup)
    (h : ∀ field ∈ fields, named.filter (·.1 == field.1) = [field]) :
    named.Perm (fields ++ named.filter fun other => other.1 ∉ fields.map (·.1)) := by
  induction fields with
  | nil => simp
  | cons field fields ih =>
    obtain ⟨hfresh, hnodup⟩ := List.nodup_cons.mp hnodup
    obtain ⟨hfield, hfields⟩ := List.forall_mem_cons.mp h
    have hself : (named.filter fun other => other.1 ∉ fields.map (·.1)).filter (·.1 == field.1) =
        [field] := by
      rw [List.filter_filter, ← hfield]
      refine List.filter_congr fun other _ => ?_
      by_cases heq : other.1 = field.1
      · simpa [heq] using hfresh
      · simp [heq]
    have hothers : (named.filter fun other => other.1 ∉ fields.map (·.1)).filter
        (fun other => !(other.1 == field.1)) =
        named.filter fun other => other.1 ∉ (field :: fields).map (·.1) := by
      rw [List.filter_filter]
      refine List.filter_congr fun other _ => ?_
      rw [Bool.eq_iff_iff]
      simp
    have hparts := List.filter_append_perm (·.1 == field.1)
      (named.filter fun other => other.1 ∉ fields.map (·.1))
    rw [hself, hothers] at hparts
    exact ((ih hnodup hfields).trans (hparts.symm.append_left fields)).trans List.perm_middle

-- ---------------------------------------------------------------------------
-- Reading a record
-- ---------------------------------------------------------------------------

theorem fields?_object (hnodup : (fields.map (·.1)).Nodup) :
    fields? (fields.map (·.1)) (.object members) = some (fields.map (·.2)) ↔
      Holds fields (.object members) := by
  constructor
  · intro h
    obtain ⟨read, hread, h⟩ := Option.bind_eq_some_iff.mp h
    obtain ⟨named, rfl, hnamed⟩ := exists_named hread
    rw [mapM_eq_some_iff, List.map_map, List.map_map, List.map_inj_left] at h
    have hperm := perm_of_filter hnodup fun field hfield => lone?_letters.mp (h field hfield)
    -- the members can be sorted as their names are
    obtain ⟨sorted, hmembers, hsorted⟩ : (Relation.Comp List.Perm (List.Forall₂ Gives)) members _ := by
      rw [← List.forall₂_comp_perm_eq_perm_comp_forall₂]
      exact ⟨named, hnamed, hperm⟩
    exact .object hmembers hsorted (by simp)
  · rintro (@⟨_, sorted, rest, hmembers, hsorted, hrest⟩ | _)
    obtain ⟨named, hnamed, hperm⟩ := List.perm_comp_forall₂ hmembers hsorted
    rw [fields?, mapM_decodeName?.mpr hnamed]
    show List.mapM _ _ = _
    rw [mapM_eq_some_iff, List.map_map, List.map_map, List.map_inj_left]
    exact fun field hfield => lone?_letters.mpr (filter_of_perm hnodup hperm hrest hfield)

/-- The values of the fields are read from exactly the values that hold them. -/
theorem fields?_eq_some_iff (fields : List (String × Json)) (hnodup : (fields.map (·.1)).Nodup) :
    fields? (fields.map (·.1)) value = some (fields.map (·.2)) ↔ Holds fields value := by
  cases value with
  | object members => exact fields?_object hnodup
  | array items =>
    constructor
    · intro h
      obtain ⟨-, rfl⟩ := by simpa [fields?] using h
      exact .array
    · rintro (_ | _)
      simp [fields?]
  | null | bool | number | string =>
    constructor
    · rintro (_ | _)
    · rintro (_ | _)

theorem holds_written (fields : List (String × Json)) :
    Holds fields (.object (fields.map fun field => (nameOf field.1, field.2))) := by
  have hgives : List.Forall₂ Gives (fields.map fun field => (nameOf field.1, field.2))
      (fields ++ []) := by
    rw [List.append_nil, List.forall₂_map_left_iff, List.forall₂_same]
    exact fun field _ => ⟨isNamed_nameOf .., rfl⟩
  exact .object (.refl _) hgives (by simp)

theorem Holds.exists_member (h : Holds fields (.object members)) (hnodup : (fields.map (·.1)).Nodup)
    (hfield : field ∈ fields) :
    ∃ member, members.filter (IsNamed · field.1) = [member] ∧ member.2 = field.2 := by
  obtain ⟨hmembers, hsorted, hrest⟩ := h
  obtain ⟨named, hnamed, hperm⟩ := List.perm_comp_forall₂ hmembers hsorted
  have hfilter : List.Forall₂ Gives (members.filter (IsNamed · field.1))
      (named.filter (·.1 == field.1)) :=
    List.rel_filter (fun member other hgives => by simp [hgives.isNamed_iff]) hnamed
  rw [filter_of_perm hnodup hperm hrest hfield] at hfilter
  obtain ⟨member, _, hgives, hnil, hmember⟩ := List.forall₂_cons_right_iff.mp hfilter
  rw [List.forall₂_nil_right_iff.mp hnil] at hmember
  exact ⟨member, hmember, hgives.2⟩

/-- In an object that holds a record each field is there, once, and with its value. -/
theorem Holds.not_spoilt (h : Holds fields (.object members)) (hnodup : (fields.map (·.1)).Nodup)
    (hnull : ∀ field ∈ fields, field.2 ≠ .null) (hname : name ∈ fields.map (·.1)) :
    ¬Spoilt members name := by
  obtain ⟨field, hfield, rfl⟩ := List.mem_map.mp hname
  obtain ⟨member, hmember, hvalue⟩ := h.exists_member hnodup hfield
  have hlone : ∀ other, other ∈ members ∧ IsNamed other field.1 ↔ other = member := by
    intro other
    rw [← List.mem_singleton, ← hmember]
    simp
  rintro (hmissing | ⟨htwice, hfirst, hsecond⟩ | ⟨hother, hnamed⟩)
  · obtain ⟨hmem, hnamed⟩ := (hlone member).mpr rfl
    exact hmissing member hmem hnamed
  · have hlength := (htwice.filter (IsNamed · field.1)).length_le
    rw [hmember] at hlength
    simp [hfirst, hsecond] at hlength
  · obtain rfl := (hlone _).mp ⟨hother, hnamed⟩
    exact hnull field hfield hvalue.symm

end Mutagen.Json
