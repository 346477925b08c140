import Mutagen.Command.World

/-!
# Files that are read and written

A destination is a place in a directory where no directory is (`destination_eq_ok_iff`). To put a
file there changes this one place (`entry?_put`), and all paths lead where they led before, so the
file is what is read from then on.
-/

namespace Mutagen

namespace FileSystem

variable {fs : FileSystem} {path : String} {place here there other : Place} {entry : Entry}

theorem exists_last {parts : List String}
    (h : parts.length ≤ (parts.reverse.dropWhile (· == "")).reverse.length)
    (hname : (parts.reverse.dropWhile (· == "")).reverse.getLast?.getD "." ≠ ".") :
    ∃ front name, parts = front ++ [name] ∧ name ≠ "" ∧
      (parts.reverse.dropWhile (· == "")).reverse = front ++ [name] := by
  obtain ⟨back, rfl⟩ : ∃ back : List String, parts = back.reverse := ⟨parts.reverse, by simp⟩
  rw [List.reverse_reverse] at h hname ⊢
  have hall : back.dropWhile (· == "") = back :=
    (List.dropWhile_suffix _).eq_of_length_le (by simpa using h)
  rw [hall] at hname ⊢
  cases back with
  | nil => exact absurd rfl hname
  | cons last front =>
    refine ⟨front.reverse, last, List.reverse_cons, ?_, List.reverse_cons⟩
    rintro rfl
    have hlength := congrArg List.length hall
    have hle := (List.dropWhile_suffix (l := front) (· == "")).length_le
    rw [List.dropWhile_cons_of_pos (by simp), List.length_cons] at hlength
    omega

theorem destination_eq_ok_iff : fs.destination path = .ok place ↔
    path ≠ "" ∧ ∃ front name parent, components path = front ++ [name] ∧
      (name ≠ "" ∧ name ≠ "." ∧ name ≠ "..") ∧ fs.walk (origin path) front = .ok parent ∧
      fs.entry? parent = some .directory ∧ fs.entry? (parent ++ [name]) ≠ some .directory ∧
      place = parent ++ [name] := by
  constructor
  · intro h
    unfold destination at h
    simp only [bind, Except.bind] at h
    split at h
    · cases h
    · rename_i hpath
      split at h
      · cases h
      · rename_i parent hwalk
        split at h
        · cases h
        · rename_i hparent
          split at h
          · cases h
          · rename_i hform
            simp only [not_or, Nat.not_lt] at hform
            obtain ⟨hlength, hdot, hdots⟩ := hform
            obtain ⟨front, name, hparts, hname, hnamed⟩ := exists_last hlength hdot
            rw [hnamed] at h hwalk hdot hdots
            rw [List.dropLast_concat] at hwalk
            simp only [List.getLast?_concat, Option.getD_some] at h hdot hdots
            split at h
            · cases h
            · rename_i hfree
              cases h
              exact ⟨hpath, front, name, parent, hparts, ⟨hname, hdot, hdots⟩, hwalk, hparent,
                hfree, rfl⟩
        · cases h
  · rintro ⟨hpath, front, name, parent, hparts, hname, hwalk, hparent, hfree, rfl⟩
    simp [destination, hparts, hpath, hwalk, hparent, hname, bind, Except.bind]

-- ---------------------------------------------------------------------------
-- One place changes
-- ---------------------------------------------------------------------------

structure Spot (fs : FileSystem) (place : Place) : Prop where
  inside : ∃ parent name, place = parent ++ [name] ∧ fs.entry? parent = some .directory
  free : fs.entry? place ≠ some .directory

theorem spot_of_destination (h : fs.destination path = .ok place) : fs.Spot place := by
  obtain ⟨-, front, name, parent, -, -, -, hparent, hfree, rfl⟩ := destination_eq_ok_iff.mp h
  exact ⟨⟨parent, name, rfl, hparent⟩, hfree⟩

theorem walk_append {first : List String} (h : fs.walk here first = .ok there)
    (rest : List String) : fs.walk here (first ++ rest) = fs.walk there rest := by
  fun_induction walk fs here first with
  | case1 here =>
    cases h
    rfl
  | case2 here component first hnone => cases h
  | case3 here component first hdirectory hsame ih =>
    rw [List.cons_append, walk, hdirectory]
    simp only [if_pos hsame, ih h]
  | case4 here first hdirectory hup ih =>
    rw [List.cons_append, walk, hdirectory]
    simp only [if_neg hup, if_pos, ih h]
  | case5 here component first hdirectory hdown hup ih =>
    rw [List.cons_append, walk, hdirectory]
    simp only [if_neg hdown, if_neg hup, ih h]
  | case6 => cases h

theorem locate_of_destination (h : fs.destination path = .ok place) :
    fs.locate path = .ok place := by
  obtain ⟨hpath, front, name, parent, hparts, hname, hwalk, hparent, -, rfl⟩ :=
    destination_eq_ok_iff.mp h
  rw [locate, if_neg hpath, hparts, walk_append hwalk, walk, hparent]
  simp [hname, walk]

theorem isGiven_of_isPrefix (h : isGiven place = true) (hwithin : other <+: place) :
    isGiven other = true := by
  unfold isGiven at h ⊢
  rw [Bool.or_eq_true] at h ⊢
  rcases h with hup | hroot
  · exact .inl (List.all_eq_true.mpr fun part hpart =>
      List.all_eq_true.mp hup part (hwithin.subset hpart))
  · rw [beq_iff_eq] at hroot
    subst hroot
    rcases List.prefix_cons_iff.mp hwithin with rfl | ⟨rest, rfl, hrest⟩
    · exact .inl rfl
    · obtain rfl := List.prefix_nil.mp hrest
      exact .inr rfl

theorem known_of_isPrefix (h : fs.entry? place = some .directory) (hwithin : other <+: place) :
    (isGiven other || fs.entries.any (other.isPrefixOf ·.1)) = true := by
  rw [Bool.or_eq_true, List.any_eq_true]
  unfold entry? at h
  split at h
  · rename_i found hfound
    have hplace : found.1 = place := by simpa using List.find?_some hfound
    exact .inr ⟨found, List.mem_of_find?_eq_some hfound,
      List.isPrefixOf_iff_prefix.mpr (hplace ▸ hwithin)⟩
  · split at h
    · rename_i hknown
      rcases (Bool.or_eq_true _ _).mp hknown with hgiven | hany
      · exact .inl (isGiven_of_isPrefix hgiven hwithin)
      · obtain ⟨found, hfound, hplace⟩ := List.any_eq_true.mp hany
        exact .inr ⟨found, hfound, List.isPrefixOf_iff_prefix.mpr
          (hwithin.trans (List.isPrefixOf_iff_prefix.mp hplace))⟩
    · cases h

theorem known_put (h : fs.Spot place) (entry : Entry) (hne : other ≠ place) :
    (isGiven other || (fs.put place entry).entries.any (other.isPrefixOf ·.1)) =
      (isGiven other || fs.entries.any (other.isPrefixOf ·.1)) := by
  obtain ⟨⟨parent, name, rfl, hparent⟩, -⟩ := h
  by_cases hwithin : other <+: parent ++ [name]
  · have hinside : other <+: parent := (List.prefix_concat_iff.mp hwithin).resolve_left hne
    rw [known_of_isPrefix hparent hinside]
    simp [put, List.isPrefixOf_iff_prefix.mpr hwithin]
  · have hnot : other.isPrefixOf (parent ++ [name]) = false := by
      rw [Bool.eq_false_iff]
      exact fun hp => hwithin (List.isPrefixOf_iff_prefix.mp hp)
    congr 1
    rw [put, List.any_cons, hnot, Bool.false_or, List.any_filter]
    refine List.any_congr rfl fun found => ?_
    by_cases hfound : found.1 = parent ++ [name]
    · simp [hfound, hnot]
    · simp [hfound]

theorem entry?_put (h : fs.Spot place) (entry : Entry) (other : Place) :
    entry? (fs.put place entry) other = if other = place then some entry else fs.entry? other := by
  split
  · rename_i heq
    subst heq
    simp [put, entry?]
  · rename_i hne
    have hfind : (fs.put place entry).entries.find? (·.1 == other) =
        fs.entries.find? (·.1 == other) := by
      rw [put, List.find?_cons_of_neg (by simpa using Ne.symm hne), List.find?_filter]
      congr 1
      funext found
      by_cases hfound : found.1 = other
      · simp [hfound, hne]
      · simp [hfound]
    unfold entry?
    rw [hfind, known_put h entry hne]

-- ---------------------------------------------------------------------------
-- Paths lead where they led
-- ---------------------------------------------------------------------------

variable {content : Bytes}

theorem entry?_put_eq_directory (h : fs.Spot place) (content : Bytes) (other : Place) :
    entry? (fs.put place (.file content)) other = some .directory ↔
      fs.entry? other = some .directory := by
  rw [entry?_put h]
  split
  · rename_i heq
    subst heq
    simp [h.free]
  · rfl

theorem walk_put (h : fs.Spot place) (content : Bytes) {parts : List String}
    (hwalk : fs.walk here parts = .ok there) :
    (fs.put place (.file content)).walk here parts = .ok there := by
  fun_induction walk fs here parts with
  | case1 => exact hwalk
  | case2 => cases hwalk
  | case3 here component rest hdirectory hsame ih =>
    rw [walk, (entry?_put_eq_directory h content here).mpr hdirectory]
    simp only [if_pos hsame, ih hwalk]
  | case4 here rest hdirectory hup ih =>
    rw [walk, (entry?_put_eq_directory h content here).mpr hdirectory]
    simp only [if_neg hup, if_pos, ih hwalk]
  | case5 here component rest hdirectory hdown hup ih =>
    rw [walk, (entry?_put_eq_directory h content here).mpr hdirectory]
    simp only [if_neg hdown, if_neg hup, ih hwalk]
  | case6 => cases hwalk

theorem locate_put (h : fs.Spot place) (content : Bytes) (hlocate : fs.locate path = .ok other) :
    (fs.put place (.file content)).locate path = .ok other := by
  unfold locate at hlocate ⊢
  split at hlocate
  · cases hlocate
  · rename_i hpath
    rw [if_neg hpath]
    exact walk_put h content hlocate

theorem destination_put (h : fs.Spot place) (content : Bytes)
    (hdestination : fs.destination path = .ok other) :
    (fs.put place (.file content)).destination path = .ok other := by
  obtain ⟨hpath, front, name, parent, hparts, hname, hwalk, hparent, hfree, hplace⟩ :=
    destination_eq_ok_iff.mp hdestination
  exact destination_eq_ok_iff.mpr ⟨hpath, front, name, parent, hparts, hname,
    walk_put h content hwalk, (entry?_put_eq_directory h content parent).mpr hparent,
    mt (entry?_put_eq_directory h content _).mp hfree, hplace⟩

theorem read_eq (h : fs.locate path = .ok place) (hfile : fs.entry? place = some (.file content)) :
    fs.read path = .ok content := by
  simp [read, h, hfile, bind, Except.bind]

-- ---------------------------------------------------------------------------
-- Writing
-- ---------------------------------------------------------------------------

structure Writable (fs : FileSystem) (path : String) (place : Place) : Prop where
  destination : fs.destination path = .ok place
  roomy : fs.isFull place = false

theorem Writable.spot (h : fs.Writable path place) : fs.Spot place :=
  spot_of_destination h.destination

theorem Writable.put_self (h : fs.Writable path place) (content : Bytes) :
    (fs.put place (.file content)).Writable path place where
  destination := destination_put h.spot content h.destination
  roomy := by
    rw [isFull, entry?_put h.spot, if_pos rfl]
    rfl

theorem Writable.put (h : fs.Writable path place) (hother : fs.Spot other) (hne : place ≠ other)
    (content : Bytes) : (fs.put other (.file content)).Writable path place where
  destination := destination_put hother content h.destination
  roomy := by
    rw [isFull, entry?_put hother, if_neg hne]
    exact h.roomy

theorem Writable.create (h : fs.Writable path place) :
    fs.create path = .ok (fs.put place (.file []), place) := by
  simp [FileSystem.create, h.destination, h.roomy, bind, Except.bind, pure, Except.pure]

def overwrite (fs : FileSystem) (place : Place) (content : Bytes) : FileSystem :=
  (fs.put place (.file [])).put place (.file content)

theorem Writable.write (h : fs.Writable path place) (content : Bytes) :
    fs.write path content = .ok (fs.overwrite place content) := by
  simp [FileSystem.write, overwrite, h.create, (h.put_self []).roomy, bind, Except.bind, pure,
    Except.pure]

variable {path' : String}

theorem Writable.entry?_overwrite (h : fs.Writable path place) (content : Bytes) (other : Place) :
    entry? (fs.overwrite place content) other =
      if other = place then some (.file content) else fs.entry? other := by
  rw [overwrite, entry?_put (h.put_self []).spot, entry?_put h.spot]
  split <;> rfl

theorem Writable.overwrite_other (h : fs.Writable path place) (hother : fs.Writable path' other)
    (hne : place ≠ other) (content : Bytes) :
    (fs.overwrite other content).Writable path place :=
  (h.put hother.spot hne []).put (hother.put_self []).spot hne content

theorem Writable.locate_overwrite (h : fs.Writable path place) (hother : fs.Writable path' other)
    (content : Bytes) : (fs.overwrite other content).locate path = .ok place :=
  locate_put (hother.put_self []).spot content
    (locate_put hother.spot [] (locate_of_destination h.destination))

/-- What was written stays when another file is written. -/
theorem Writable.read_overwrite_other (h : fs.Writable path place)
    (hfile : fs.entry? place = some (.file content)) (hother : fs.Writable path' other)
    (hne : place ≠ other) (later : Bytes) :
    (fs.overwrite other later).read path = .ok content :=
  read_eq (h.locate_overwrite hother later) (by rw [hother.entry?_overwrite, if_neg hne, hfile])

theorem Writable.read_overwrite (h : fs.Writable path place) (content : Bytes) :
    (fs.overwrite place content).read path = .ok content :=
  read_eq (h.locate_overwrite h content) (by rw [h.entry?_overwrite, if_pos rfl])

end FileSystem

-- ---------------------------------------------------------------------------
-- Texts
-- ---------------------------------------------------------------------------

namespace Command

variable {w : World} {path : String}

theorem reader_eq_ok_iff {text : String} :
    w.reader path = .ok text ↔ w.files.read path = .ok (.ofText text) := by
  unfold World.reader
  split
  · simp [*]
  · simp [*]
  · rename_i content hread
    rw [hread, Except.ok.injEq, ← Bytes.toText_eq_ok_iff]
    cases content.toText <;> simp

theorem reader_eq_missing_iff {named : Option String} :
    w.reader path = .error (.missing named) ↔
      w.files.read path = .error .notFound ∧ named = none := by
  unfold World.reader
  split
  · rename_i hread
    simp [hread, eq_comm]
  · rename_i hne hread
    simp only [hread, Except.error.injEq, reduceCtorEq, false_iff, not_and]
    exact fun he => absurd he hne
  · rename_i content hread
    cases content.toText <;> simp [hread]

end Command

end Mutagen
