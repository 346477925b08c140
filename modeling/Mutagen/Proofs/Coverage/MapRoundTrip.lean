import Mathlib.Data.List.Induction
import Mutagen.Coverage.Json
import Mutagen.Proofs.Coverage.Visit
import Mutagen.Proofs.Json.Record

/-!
# Statement maps through JSON

A map with ids and numbers within their bounds comes back from both of its texts, which have the ids
in increasing order. A map that is read from any other text has for every id the last value that the
text gives for it (`roundTrip_members`).
-/

namespace Mutagen.StatementMap

open Json

def InWords (m : StatementMap) : Prop := ∀ e ∈ m.entries, e.1 < idBound ∧ e.2.InWords

instance (m : StatementMap) : Decidable m.InWords :=
  inferInstanceAs (Decidable (∀ e ∈ m.entries, e.1 < idBound ∧ e.2.InWords))

def IsLast (members : List (List Char × Json)) (name : List Char) (value : Json) : Prop :=
  ∃ before after, members = before ++ (name, value) :: after ∧ ∀ member ∈ after, member.1 ≠ name

variable {m : StatementMap} {entries : List (Nat × Span)} {e : Nat × Span} {id : Nat} {span : Span}
  {members : List (List Char × Json)} {member : List Char × Json} {name : List Char}
  {value : Json} {text : String}

-- ---------------------------------------------------------------------------
-- Maps of entries
-- ---------------------------------------------------------------------------

theorem find?_place (entry : Nat × Span) (entries : List (Nat × Span)) (id : Nat) :
    (place entry entries).find? (·.1 == id) =
      if entry.1 = id then some entry else entries.find? (·.1 == id) := by
  induction entries with
  | nil => by_cases h : entry.1 = id <;> simp [place, h]
  | cons e rest ih =>
    rcases Nat.lt_trichotomy entry.1 e.1 with hlt | heq | hgt
    · rw [place, if_pos hlt]
      by_cases h : entry.1 = id <;> simp [h]
    · rw [place, if_neg (by omega), if_pos heq]
      by_cases h : entry.1 = id <;> simp [h, ← heq]
    · rw [place, if_neg (by omega), if_neg (by omega)]
      by_cases h : e.1 = id
      · have hne : entry.1 ≠ id := by omega
        simp [h, hne]
      · simp [h, ih]

theorem get?_insert (m : StatementMap) (id : Nat) (span : Span) (other : Nat) :
    (m.insert id span).get? other = if id = other then some span else m.get? other := by
  rw [get?, insert, find?_place]
  split <;> rfl

theorem ofEntries_concat (entries : List (Nat × Span)) (e : Nat × Span) :
    ofEntries (entries ++ [e]) = (ofEntries entries).insert e.1 e.2 := by
  simp [ofEntries, List.foldl_append]

theorem mem_ofEntries (h : e ∈ (ofEntries entries).entries) : e ∈ entries := by
  induction entries using List.reverseRecOn with
  | nil => cases h
  | append_singleton entries last ih =>
    rw [ofEntries_concat] at h
    rcases mem_place h with rfl | h
    · exact List.mem_append_right _ List.mem_cons_self
    · exact List.mem_append_left _ (ih h)

theorem entries_ofEntries (h : entries.Pairwise (fun a b => a.1 < b.1)) :
    (ofEntries entries).entries = entries := by
  induction entries using List.reverseRecOn with
  | nil => rfl
  | append_singleton entries last ih =>
    obtain ⟨hsorted, -, hbelow⟩ := List.pairwise_append.mp h
    calc (ofEntries (entries ++ [last])).entries
        = place last (ofEntries entries).entries := by rw [ofEntries_concat, insert]
      _ = place last entries := by rw [ih hsorted]
      _ = entries ++ [last] := place_append fun e he => hbelow e he last List.mem_cons_self

theorem ofEntries_entries (m : StatementMap) : ofEntries m.entries = m := by
  have hentries := entries_ofEntries m.sorted
  cases hm : ofEntries m.entries
  cases m
  simpa [hm] using hentries

-- ---------------------------------------------------------------------------
-- Members
-- ---------------------------------------------------------------------------

theorem entryOfJson?_eq_some_iff : entryOfJson? member = some e ↔
    member.1 = Decimal.encode e.1 ∧ e.1 < idBound ∧ Span.ofJson? member.2 = some e.2 := by
  constructor
  · intro h
    obtain ⟨id, hid, h⟩ := Option.bind_eq_some_iff.mp h
    obtain ⟨span, hspan, h⟩ := Option.bind_eq_some_iff.mp h
    cases h
    obtain ⟨hname, hlt⟩ := Decimal.below?_eq_some_iff.mp hid
    exact ⟨hname, hlt, hspan⟩
  · rintro ⟨hname, hlt, hspan⟩
    simp [entryOfJson?, hname, Decimal.below?_encode hlt, hspan]

theorem isLast_concat : IsLast (members ++ [member]) name value ↔
    member = (name, value) ∨ member.1 ≠ name ∧ IsLast members name value := by
  constructor
  · rintro ⟨before, after, heq, hafter⟩
    induction after using List.reverseRecOn with
    | nil =>
      obtain ⟨-, hlast⟩ := List.append_inj' heq rfl
      exact .inl (List.singleton_inj.mp hlast)
    | append_singleton after last _ =>
      rw [← List.cons_append, ← List.append_assoc] at heq
      obtain ⟨rfl, hlast⟩ := List.append_inj' heq rfl
      cases hlast
      refine .inr ⟨hafter member (by simp), before, after, rfl, fun other hother => ?_⟩
      exact hafter other (List.mem_append_left _ hother)
  · rintro (rfl | ⟨hne, before, after, rfl, hafter⟩)
    · exact ⟨members, [], rfl, by simp⟩
    · refine ⟨before, after ++ [member], by simp, fun other hother => ?_⟩
      rcases List.mem_append.mp hother with hother | hother
      · exact hafter other hother
      · exact List.mem_singleton.mp hother ▸ hne

theorem get?_ofEntries (h : members.map entryOfJson? = entries.map some) :
    (ofEntries entries).get? id = some span ↔
      ∃ value, IsLast members (Decimal.encode id) value ∧ Span.ofJson? value = some span := by
  induction members using List.reverseRecOn generalizing entries with
  | nil =>
    obtain rfl : entries = [] := by simpa using h.symm
    simp [ofEntries, get?, empty, IsLast]
  | append_singleton members member ih =>
    rw [List.map_append] at h
    obtain ⟨earlier, last, rfl, hearlier, hlast⟩ := List.map_eq_append_iff.mp h.symm
    obtain ⟨e, rfl, he⟩ : ∃ e, last = [e] ∧ entryOfJson? member = some e := by
      obtain ⟨e, rfl, he⟩ := List.map_eq_singleton_iff.mp hlast
      exact ⟨e, rfl, he.symm⟩
    obtain ⟨hname, -, hspan⟩ := entryOfJson?_eq_some_iff.mp he
    have hkey : member.1 = Decimal.encode id ↔ e.1 = id := by rw [hname, Decimal.encode_inj]
    rw [ofEntries_concat, get?_insert]
    by_cases hid : e.1 = id
    · rw [if_pos hid, ← hspan]
      constructor
      · exact fun hread => ⟨member.2, isLast_concat.mpr (.inl (by rw [← hkey.mpr hid])), hread⟩
      · rintro ⟨value, hvalue, hread⟩
        rcases isLast_concat.mp hvalue with rfl | ⟨hne, -⟩
        · exact hread
        · exact absurd (hkey.mpr hid) hne
    · rw [if_neg hid, ih hearlier.symm]
      refine exists_congr fun value => and_congr_left fun _ => ?_
      rw [isLast_concat]
      refine ⟨fun hvalue => .inr ⟨mt hkey.mp hid, hvalue⟩, ?_⟩
      rintro (rfl | ⟨-, hvalue⟩)
      · exact absurd (hkey.mp rfl) hid
      · exact hvalue

-- ---------------------------------------------------------------------------
-- There and back
-- ---------------------------------------------------------------------------

theorem spelled_toJson (m : StatementMap) : m.toJson.Spelled := by
  refine spelledMembers_iff.mpr fun member hmember => ?_
  obtain ⟨e, -, rfl⟩ := List.mem_map.mp hmember
  exact ⟨spelling_decimal e.1, e.2.spelled_toJson⟩

theorem ofJson?_toJson (h : m.InWords) : ofJson? m.toJson = some m := by
  have hentries : (m.entries.map fun e => (Decimal.encode e.1, e.2.toJson)).mapM entryOfJson? =
      some m.entries := by
    rw [mapM_eq_some_iff, List.map_map]
    refine List.map_congr_left fun e he => entryOfJson?_eq_some_iff.mpr ?_
    obtain ⟨hid, hspan⟩ := h e he
    exact ⟨rfl, hid, Span.ofJson?_toJson hspan⟩
  rw [toJson, ofJson?, hentries, Option.map_some, ofEntries_entries]

theorem writtenAs_encode (m : StatementMap) : m.toJson.WrittenAs m.encode :=
  writtenAs_compact m.spelled_toJson

theorem writtenAs_encodePretty (m : StatementMap) : m.toJson.WrittenAs m.encodePretty :=
  writtenAs_pretty m.spelled_toJson

theorem decode?_encode (h : m.InWords) : decode? m.encode = some m := by
  rw [decode?, bind_parse? m.writtenAs_encode, ofJson?_toJson h]

theorem decode?_encodePretty (h : m.InWords) : decode? m.encodePretty = some m := by
  rw [decode?, bind_parse? m.writtenAs_encodePretty, ofJson?_toJson h]

theorem exists_members (m : StatementMap) :
    ∃ members, m.toJson = .object members ∧ members.map (·.1) = m.ids.map Decimal.encode :=
  ⟨_, rfl, by simp [ids, Function.comp_def]⟩

theorem decode?_eq_some_iff : decode? text = some m ↔
    ∃ members entries, (Json.object members).WrittenAs text ∧
      members.map entryOfJson? = entries.map some ∧ ofEntries entries = m := by
  constructor
  · intro h
    obtain ⟨value, hparse, h⟩ := Option.bind_eq_some_iff.mp h
    cases value with
    | object members =>
      obtain ⟨entries, hentries, hm⟩ := Option.map_eq_some_iff.mp h
      exact ⟨members, entries, parse?_eq_some_iff.mp hparse, mapM_eq_some_iff.mp hentries, hm⟩
    | null | bool | number | string | array => cases h
  · rintro ⟨members, entries, hwritten, hentries, rfl⟩
    rw [decode?, bind_parse? hwritten, ofJson?, mapM_eq_some_iff.mpr hentries, Option.map_some]

theorem inWords_ofEntries (h : members.map entryOfJson? = entries.map some) :
    (ofEntries entries).InWords := by
  intro e he
  have hsome : some e ∈ members.map entryOfJson? := h ▸ List.mem_map_of_mem (mem_ofEntries he)
  obtain ⟨member, -, hmember⟩ := List.mem_map.mp hsome
  obtain ⟨-, hid, hspan⟩ := entryOfJson?_eq_some_iff.mp hmember
  exact ⟨hid, Span.inWords_of_ofJson? hspan⟩

theorem pairwise_ids (m : StatementMap) : m.ids.Pairwise (· < ·) := List.pairwise_map.mpr m.sorted

/-- Maps come back from both of their texts, which have the ids in increasing order. A map that comes
from any other text has the last value for each id, in the order of the ids, and comes back too. -/
theorem roundTrip_members :
    (∀ m : StatementMap, m.InWords →
      decode? m.encode = some m ∧ decode? m.encodePretty = some m ∧
      ∃ members, (Json.object members).WrittenAs m.encode ∧
        (Json.object members).WrittenAs m.encodePretty ∧
        members.map (·.1) = m.ids.map Decimal.encode ∧ m.ids.Pairwise (· < ·)) ∧
    (∀ (text : String) (m : StatementMap), decode? text = some m →
      (∃ members, (Json.object members).WrittenAs text ∧
        ∀ id span, m.get? id = some span ↔
          ∃ value, IsLast members (Decimal.encode id) value ∧ Span.ofJson? value = some span) ∧
      m.ids.Pairwise (· < ·) ∧ m.InWords ∧
      decode? m.encode = some m ∧ decode? m.encodePretty = some m) := by
  constructor
  · intro m h
    obtain ⟨members, hobject, hnames⟩ := m.exists_members
    have hcompact := m.writtenAs_encode
    have hpretty := m.writtenAs_encodePretty
    rw [hobject] at hcompact hpretty
    exact ⟨decode?_encode h, decode?_encodePretty h, members, hcompact, hpretty, hnames,
      m.pairwise_ids⟩
  · intro text m h
    obtain ⟨members, entries, hwritten, hentries, rfl⟩ := decode?_eq_some_iff.mp h
    have hwords := inWords_ofEntries hentries
    exact ⟨⟨members, hwritten, fun id span => get?_ofEntries hentries⟩, pairwise_ids _, hwords,
      decode?_encode hwords, decode?_encodePretty hwords⟩

/-- As numbers these ids have another order than as texts. -/
def twoAndTen : StatementMap :=
  ofEntries [(10, ⟨⟨3, 4⟩, ⟨5, 6⟩⟩), (2, ⟨⟨0, 1⟩, ⟨2, 18446744073709551615⟩⟩)]

/-- The same map, with an earlier value for one of the ids. -/
def tenTwice : String :=
  "\x7b \"10\" : [[0,0],[0,0]],\n\"2\":\x7b\"end\":[2,18446744073709551615],\"start\":[0,1]," ++
  "\"\\u0041\":[]\x7d,\"10\":[[3,4],[5,6]]\x7d\n"

theorem roundTrip_members_tenTwice :
    decode? twoAndTen.encode = some twoAndTen ∧ decode? twoAndTen.encodePretty = some twoAndTen ∧
    twoAndTen.ids = [2, 10] ∧ decode? tenTwice = some twoAndTen ∧ tenTwice ≠ twoAndTen.encode ∧
    ∃ members, (Json.object members).WrittenAs tenTwice ∧
      ∃ value, IsLast members (Decimal.encode 10) value ∧
        Span.ofJson? value = some ⟨⟨3, 4⟩, ⟨5, 6⟩⟩ := by
  obtain ⟨hencode, hdecode⟩ := roundTrip_members
  have htwice : decode? tenTwice = some twoAndTen := by decide +kernel
  obtain ⟨⟨members, hwritten, hlast⟩, -, hwords, -, -⟩ := hdecode tenTwice twoAndTen htwice
  obtain ⟨hcompact, hpretty, -⟩ := hencode twoAndTen hwords
  refine ⟨hcompact, hpretty, by decide, htwice, by decide +kernel, members, hwritten, ?_⟩
  exact (hlast 10 _).mp (by decide)

end Mutagen.StatementMap
