import Mutagen.Command.Arguments
import Mutagen.Proofs.Except

/-!
# Reading command lines

What an argument is does not depend on the arguments around it (`Form.reading`), so a switch that is
added to a command line adds one item and nothing else (`Form.items_insert`).
-/

namespace Mutagen.Command

-- ---------------------------------------------------------------------------
-- Single arguments
-- ---------------------------------------------------------------------------

inductive Reading
  | operandsOnly
  | operand
  /-- An option with all that belongs to it. -/
  | whole (o : OptionForm) (value : Option String)
  /-- An option whose value is the next argument. -/
  | open (o : OptionForm)
  | wrong

namespace Form

def reading (form : Form) (argument : String) : Reading :=
  if argument = "--" then .operandsOnly
  else match form.spelling? argument with
    | none => .operand
    | some spelling =>
      match spelling.form? with
      | none => .wrong
      | some o =>
        match o.placeholder, spelling.value with
        | none, none => .whole o none
        | none, some _ => .wrong
        | some _, some value => .whole o (some value)
        | some _, none => .open o

variable {form : Form} {used : Nat} {seen seen' : List String} {argument : String}
  {arguments rest : List String} {items items' : List Item}

theorem items_cons (h : form.items used seen (argument :: rest) = .ok items) :
    (form.reading argument = .operandsOnly ∧ form.onlyOperands used rest = .ok items) ∨
    (form.reading argument = .operand ∧ ∃ later,
      form.items (used + 1) seen rest = .ok later ∧ items = .operand argument :: later) ∨
    (∃ o value later, form.reading argument = .whole o value ∧
      form.items used (o.long :: seen) rest = .ok later ∧
      items = .option o.long value :: later) ∨
    ∃ o value others later, form.reading argument = .open o ∧ rest = value :: others ∧
      isValue value = true ∧ form.items used (o.long :: seen) others = .ok later ∧
      items = .option o.long (some value) :: later := by
  by_cases hstop : argument = "--"
  · subst hstop
    rw [Form.items] at h
    exact .inl ⟨if_pos rfl, h⟩
  · rw [Form.items] at h
    · simp only [reading, if_neg hstop]
      cases hspelling : form.spelling? argument with
      | none =>
        rw [hspelling] at h
        obtain ⟨item, hitem, h⟩ := bind_eq_ok.mp h
        obtain ⟨later, hlater, h⟩ := bind_eq_ok.mp h
        cases h
        unfold operand at hitem
        split at hitem
        · cases hitem
          exact .inr (.inl ⟨rfl, later, hlater, rfl⟩)
        · cases hitem
      | some spelling =>
        simp only [hspelling] at h
        split at h
        · cases h
        · rename_i o hform
          simp only [hform]
          split at h
          · cases h
          · split at h
            · rename_i hplaceholder hvalue
              obtain ⟨later, hlater, h⟩ := bind_eq_ok.mp h
              cases h
              simp only [hplaceholder, hvalue]
              exact .inr (.inr (.inl ⟨o, none, later, rfl, hlater, rfl⟩))
            · cases h
            · rename_i value hplaceholder hvalue
              obtain ⟨later, hlater, h⟩ := bind_eq_ok.mp h
              cases h
              simp only [hplaceholder, hvalue]
              exact .inr (.inr (.inl ⟨o, some value, later, rfl, hlater, rfl⟩))
            · rename_i hplaceholder hvalue
              split at h
              · rename_i hisValue
                obtain ⟨later, hlater, h⟩ := bind_eq_ok.mp h
                cases h
                simp only [hplaceholder, hvalue]
                exact .inr (.inr (.inr ⟨o, _, _, later, rfl, rfl, hisValue, hlater, rfl⟩))
              · cases h
            · cases h
    · exact hstop

-- ---------------------------------------------------------------------------
-- Whole command lines
-- ---------------------------------------------------------------------------

/-- Going through arguments that may come with a value each. -/
theorem ind_arguments {motive : List String → Prop} (nil : motive [])
    (cons : ∀ argument rest, motive rest → motive rest.tail → motive (argument :: rest))
    (arguments : List String) : motive arguments := by
  have hboth : motive arguments ∧ motive arguments.tail := by
    induction arguments with
    | nil => exact ⟨nil, nil⟩
    | cons argument rest ih => exact ⟨cons argument rest ih.1 ih.2, ih.1⟩
  exact hboth.1

theorem onlyOperands_eq (h : form.onlyOperands used rest = .ok items) :
    items = rest.map .operand := by
  induction rest generalizing used items with
  | nil =>
    cases h
    rfl
  | cons text rest ih =>
    obtain ⟨item, hitem, h⟩ := bind_eq_ok.mp h
    obtain ⟨later, hlater, h⟩ := bind_eq_ok.mp h
    cases h
    unfold operand at hitem
    split at hitem
    · cases hitem
      rw [ih hlater, List.map_cons]
    · cases hitem

theorem items_agree {used' : Nat} (h : form.items used seen arguments = .ok items)
    (h' : form.items used' seen' arguments = .ok items') : items = items' := by
  induction arguments using ind_arguments generalizing used used' seen seen' items items' with
  | nil =>
    cases h
    cases h'
    rfl
  | cons argument rest ih ihTail =>
    rcases items_cons h with ⟨hr, h⟩ | ⟨hr, later, hl, rfl⟩ | ⟨o, value, later, hr, hl, rfl⟩ |
      ⟨o, value, others, later, hr, rfl, -, hl, rfl⟩ <;>
    rcases items_cons h' with ⟨hr', h'⟩ | ⟨hr', later', hl', rfl⟩ |
      ⟨o', value', later', hr', hl', rfl⟩ | ⟨o', value', others', later', hr', he, -, hl', rfl⟩ <;>
    cases hr.symm.trans hr'
    · rw [onlyOperands_eq h, onlyOperands_eq h']
    · rw [ih hl hl']
    · rw [ih hl hl']
    · cases he
      rw [ihTail hl hl']

/-- A switch that is added adds its item. Behind `--` it would be one more operand. -/
theorem items_insert {switch : String} {o : OptionForm} {used' : Nat}
    (hswitch : form.reading switch = .whole o none) (hdash : isValue switch = false)
    {before after : List String} (h : form.items used seen (before ++ after) = .ok items)
    (h' : form.items used' seen' (before ++ switch :: after) = .ok items')
    (hoperands : Item.operands items' = Item.operands items) :
    ∃ first later, items = first ++ later ∧ items' = first ++ .option o.long none :: later := by
  induction before using ind_arguments generalizing used used' seen seen' items items' with
  | nil =>
    rcases items_cons h' with ⟨hr, -⟩ | ⟨hr, -⟩ | ⟨o', value, later, hr, hl, rfl⟩ |
      ⟨o', value, others, later, hr, -⟩ <;> cases hswitch.symm.trans hr
    exact ⟨[], items, rfl, by rw [items_agree h hl]; rfl⟩
  | cons argument rest ih ihTail =>
    rcases items_cons h with ⟨hr, h⟩ | ⟨hr, later, hl, rfl⟩ | ⟨o', value, later, hr, hl, rfl⟩ |
      ⟨o', value, others, later, hr, he, hvalue, hl, rfl⟩ <;>
    rcases items_cons h' with ⟨hr', h'⟩ | ⟨hr', later', hl', rfl⟩ |
      ⟨o'', value', later', hr', hl', rfl⟩ | ⟨o'', value', others', later', hr', he', hvalue', hl', rfl⟩ <;>
    cases hr.symm.trans hr'
    · rw [onlyOperands_eq h, onlyOperands_eq h'] at hoperands
      have hlength := congrArg List.length hoperands
      simp [Item.operands, List.filterMap_map] at hlength
    · obtain ⟨first, last, rfl, rfl⟩ := ih hl hl' (by simpa [Item.operands] using hoperands)
      exact ⟨.operand argument :: first, last, rfl, rfl⟩
    · obtain ⟨first, last, rfl, rfl⟩ := ih hl hl' (by simpa [Item.operands] using hoperands)
      exact ⟨.option o'.long value :: first, last, rfl, rfl⟩
    -- the value of an option comes before the switch, which is no value
    · cases rest with
      | nil =>
        cases he'
        rw [hdash] at hvalue'
        cases hvalue'
      | cons next rest =>
        cases he
        cases he'
        obtain ⟨first, last, rfl, rfl⟩ := ihTail hl hl' (by simpa [Item.operands] using hoperands)
        exact ⟨.option o'.long (some value) :: first, last, rfl, rfl⟩

-- ---------------------------------------------------------------------------
-- Options with their values
-- ---------------------------------------------------------------------------

/-- An option with its value as one argument, or no argument without a value. -/
def spell (name : String) (value : Option String) : List String :=
  value.toList.map fun value => "--" ++ name ++ "=" ++ value

theorem long_eq (form : Form) {name : String} (hname : '=' ∉ name.toList) (value : String) :
    form.long (name.toList ++ '=' :: value.toList) =
      ⟨"--" ++ name, form.options.find? (·.long == name), some value⟩ := by
  have htake : (name.toList ++ '=' :: value.toList).takeWhile (· != '=') = name.toList := by
    rw [List.takeWhile_append_of_pos]
    · simp
    · intro c hc
      simpa using fun he : c = '=' => hname (he ▸ hc)
  have hdrop : (name.toList ++ '=' :: value.toList).dropWhile (· != '=') = '=' :: value.toList := by
    rw [List.dropWhile_append_of_pos]
    · simp
    · intro c hc
      simpa using fun he : c = '=' => hname (he ▸ hc)
  simp [Form.long, htake, hdrop]

def valued (name : String) (value : Option String) : List Item :=
  value.toList.map fun value => .option name (some value)

variable {name : String} {o : OptionForm}

theorem items_long (hname : '=' ∉ name.toList)
    (ho : form.options.find? (·.long == name) = some o) (hplaceholder : o.placeholder ≠ none)
    (hseen : o.long ∉ seen) (value : String)
    (h : form.items used (o.long :: seen) rest = .ok items) :
    form.items used seen (("--" ++ name ++ "=" ++ value) :: rest) =
      .ok (.option o.long (some value) :: items) := by
  have hlist : ("--" ++ name ++ "=" ++ value).toList =
      '-' :: '-' :: (name.toList ++ '=' :: value.toList) := by simp
  have hne : "--" ++ name ++ "=" ++ value ≠ "--" := by
    intro he
    rw [he] at hlist
    simp at hlist
  have hspelling : form.spelling? ("--" ++ name ++ "=" ++ value) =
      some ⟨"--" ++ name, some o, some value⟩ := by
    simp only [spelling?, hlist, long_eq form hname, ho]
  obtain ⟨placeholder, hp⟩ := Option.ne_none_iff_exists'.mp hplaceholder
  rw [Form.items]
  · simp [hspelling, hseen, hp, h, bind, Except.bind, pure, Except.pure]
  · exact hne

theorem items_spell (hname : '=' ∉ name.toList)
    (ho : form.options.find? (·.long == name) = some o) (hplaceholder : o.placeholder ≠ none)
    (hseen : o.long ∉ seen) (value : Option String)
    (h : ∀ seen', seen' ⊆ o.long :: seen → form.items used seen' rest = .ok items) :
    form.items used seen (spell name value ++ rest) =
      .ok (valued o.long value ++ items) := by
  cases value with
  | none => exact h seen (List.subset_cons_self _ _)
  | some value =>
    exact items_long hname ho hplaceholder hseen value (h _ (List.Subset.refl _))

end Form

-- ---------------------------------------------------------------------------
-- The commands
-- ---------------------------------------------------------------------------

theorem request_parallel {before after : List String} {options options' : MutateOptions}
    (h : request ("mutate" :: (before ++ after)) = .ok (.mutate options))
    (h' : request ("mutate" :: (before ++ "--parallel" :: after)) = .ok (.mutate options'))
    (hfiles : options'.files = options.files) : options' = { options with parallel := true } := by
  have hswitch : mutateForm.reading "--parallel" = .whole ⟨"parallel", none, none, false⟩ none := rfl
  obtain ⟨items, hitems, h⟩ := (bind_eq_ok (x := mutateForm.items 0 [] (before ++ after))).mp h
  obtain ⟨items', hitems', h'⟩ :=
    (bind_eq_ok (x := mutateForm.items 0 [] (before ++ "--parallel" :: after))).mp h'
  cases h
  cases h'
  have hdash : Form.isValue "--parallel" = false := by decide +kernel
  obtain ⟨first, later, rfl, rfl⟩ := Form.items_insert hswitch hdash hitems hitems' hfiles
  have hself : (Item.option "parallel" none == .option "parallel" none) = true := by decide
  have hjson : (Item.option "json" none == .option "parallel" none) = false := by decide
  have hdiff : (Item.option "diff" none == .option "parallel" none) = false := by decide
  simp [Item.operands, Item.values, Item.isSet, hself, hjson, hdiff]

def InstrumentOptions.spell (options : InstrumentOptions) : List String :=
  "instrument" :: (Form.spell "coverage-variable" options.object ++
    (Form.spell "output" options.output ++
      (Form.spell "statement-map" options.map ++ ["--", options.file])))

theorem request_spell (options : InstrumentOptions) :
    request options.spell = .ok (.instrument options) := by
  have hmap : ∀ seen, "statement-map" ∉ seen →
      instrumentForm.items 0 seen (Form.spell "statement-map" options.map ++ ["--", options.file]) =
        .ok (Form.valued "statement-map" options.map ++ [.operand options.file]) :=
    fun seen hseen => Form.items_spell (o := ⟨"statement-map", none, some "STATEMENT_MAP", false⟩)
      (by decide) rfl (by decide) hseen _ fun seen' _ => rfl
  have houtput : ∀ seen, "output" ∉ seen → "statement-map" ∉ seen →
      instrumentForm.items 0 seen (Form.spell "output" options.output ++ _) =
        .ok (Form.valued "output" options.output ++ _) :=
    fun seen hseen hlater => Form.items_spell (o := ⟨"output", some 'o', some "OUTPUT", false⟩)
      (by decide) rfl (by decide) hseen _
      fun seen' hsub => hmap seen' fun h => by simpa [hlater] using hsub h
  have hobject : instrumentForm.items 0 [] (Form.spell "coverage-variable" options.object ++ _) =
      .ok (Form.valued "coverage-variable" options.object ++ _) :=
    Form.items_spell (o := ⟨"coverage-variable", none, some "COVERAGE_VARIABLE", false⟩)
      (by decide) rfl (by decide) List.not_mem_nil _
      fun seen' hsub => houtput seen' (fun h => by simpa using hsub h)
        fun h => by simpa using hsub h
  obtain ⟨file, object, output, map⟩ := options
  simp only [InstrumentOptions.spell, request, instrumentRequest, hobject]
  cases object <;> cases output <;> cases map <;> rfl

end Mutagen.Command
