import Mutagen.Survey.Parallel

/-!
# Parallel surveys agree with sequential ones

Whatever the schedule, a task gives up only behind a file that fails (`Board.Sound`). So the
outcomes, gone through in the order of the files, meet the first failure before they meet a gap,
and the report is the one of a sequential survey.
-/

namespace Mutagen.Survey

variable {s : Survey} {paths : List String}

def FailsAt (s : Survey) (paths : List String) (i : Nat) : Prop :=
  ∃ path e, paths[i]? = some path ∧ s.scan path = .error e

-- ---------------------------------------------------------------------------
-- The invariant of the board
-- ---------------------------------------------------------------------------

namespace Board

/-- What is known of a task from where it stands: how often its file was scanned, that it only
gives up behind a failure, and that its outcome is the one of its file. -/
def TaskOk (s : Survey) (paths : List String) (scans : List Nat) (i : Nat) : Task → Prop
  | .waiting | .cleared => scans.count i = 0
  | .skipped => scans.count i = 0 ∧ ∃ j < i, s.FailsAt paths j
  | .scanned outcome | .settled outcome =>
    scans.count i = 1 ∧ ∃ path, paths[i]? = some path ∧ outcome = s.scan path

structure Sound (s : Survey) (paths : List String) (b : Board) : Prop where
  length : b.tasks.length = paths.length
  failures : ∀ j ∈ b.failures, s.FailsAt paths j
  scans : ∀ i ∈ b.scans, i < paths.length
  tasks : ∀ i task, b.tasks[i]? = some task → TaskOk s paths b.scans i task

theorem sound_start : Sound s paths (start paths.length) where
  length := by simp [start]
  failures := by simp [start]
  scans := by simp [start]
  tasks := by
    intro i task h
    obtain ⟨hi, rfl⟩ := List.getElem?_eq_some_iff.mp h
    simp [TaskOk, start]

theorem Sound.set {b : Board} (hb : Sound s paths b) {i : Nat} {task : Task}
    (h : TaskOk s paths b.scans i task) : Sound s paths { b with tasks := b.tasks.set i task } where
  length := by simp [hb.length]
  failures := hb.failures
  scans := hb.scans
  tasks := by
    intro j other hj
    rw [List.getElem?_set] at hj
    split at hj
    · rename_i heq
      split at hj
      · cases hj
        exact heq ▸ h
      · cases hj
    · exact hb.tasks j other hj

theorem TaskOk.append_ne {scans : List Nat} {i j : Nat} {task : Task} (hne : j ≠ i)
    (h : TaskOk s paths scans i task) : TaskOk s paths (scans ++ [j]) i task := by
  have hc : (scans ++ [j]).count i = scans.count i := by simp [List.count_append, hne]
  cases task <;> simpa only [TaskOk, hc] using h

theorem Sound.scan {b : Board} (hb : Sound s paths b) {i : Nat} {path : String}
    (ht : b.tasks[i]? = some .cleared) (hp : paths[i]? = some path) :
    Sound s paths
      { b with tasks := b.tasks.set i (.scanned (s.scan path)), scans := b.scans ++ [i] } where
  length := by simp [hb.length]
  failures := hb.failures
  scans := by
    intro j hj
    rcases List.mem_append.mp hj with hj | hj
    · exact hb.scans j hj
    · obtain rfl := List.mem_singleton.mp hj
      exact (List.getElem?_eq_some_iff.mp hp).1
  tasks := by
    intro j other hj
    rw [List.getElem?_set] at hj
    split at hj
    · rename_i heq
      subst heq
      split at hj
      · cases hj
        have hc : b.scans.count i = 0 := hb.tasks i _ ht
        exact ⟨by simp [List.count_append, hc], path, hp, rfl⟩
      · cases hj
    · rename_i hne
      exact (hb.tasks j other hj).append_ne hne

theorem Sound.note {b : Board} (hb : Sound s paths b) {i : Nat} (h : s.FailsAt paths i) :
    Sound s paths { b with failures := i :: b.failures } where
  length := hb.length
  failures := by
    intro j hj
    rcases List.mem_cons.mp hj with rfl | hj
    · exact h
    · exact hb.failures j hj
  scans := hb.scans
  tasks := hb.tasks

theorem seen_mem {b : Board} {turn : Turn} {j : Nat} (h : b.seen turn = some j) :
    j ∈ b.failures := by
  obtain ⟨k, -, hk⟩ := Option.bind_eq_some_iff.mp h
  exact List.mem_of_getElem? hk

/-- Every turn keeps the invariant. -/
theorem Sound.step {b : Board} (hb : Sound s paths b) (turn : Turn) :
    Sound s paths (b.step s paths turn) := by
  unfold Board.step
  split
  -- a look at the board, where only failures are noted
  · rename_i ht
    have hc := hb.tasks _ _ ht
    split
    · rename_i hseen
      cases hj : b.seen turn with
      | none => simp [hj] at hseen
      | some j =>
        have hlt : j < turn.task := by simpa [hj] using hseen
        exact hb.set ⟨hc, j, hlt, hb.failures j (seen_mem hj)⟩
    · exact hb.set hc
  · rename_i ht hp
    exact hb.scan ht hp
  · rename_i finding ht
    obtain ⟨hc, hscan⟩ := hb.tasks _ _ ht
    exact hb.set ⟨hc, hscan⟩
  · rename_i e ht
    obtain ⟨hc, path, hp, he⟩ := hb.tasks _ _ ht
    have hnote := hb.note ⟨path, e, hp, he.symm⟩
    exact hnote.set (b := { b with failures := turn.task :: b.failures }) ⟨hc, path, hp, he⟩
  · exact hb

theorem Sound.run {b : Board} (hb : Sound s paths b) (schedule : Schedule) :
    Sound s paths (schedule.foldl (Board.step s paths) b) := by
  induction schedule generalizing b with
  | nil => exact hb
  | cons turn rest ih => exact ih (hb.step turn)

end Board

-- ---------------------------------------------------------------------------
-- Every task comes to its end
-- ---------------------------------------------------------------------------

def Task.turnsLeft : Task → Nat
  | .waiting => 3
  | .cleared => 2
  | .scanned _ => 1
  | .skipped | .settled _ => 0

def Board.turnsLeft (b : Board) (i : Nat) : Nat := b.tasks[i]?.elim 0 Task.turnsLeft

namespace Board

theorem turnsLeft_set {b b' : Board} {i : Nat} {old new : Task} (ho : b.tasks[i]? = some old)
    (hlt : new.turnsLeft < old.turnsLeft) (hb : b'.tasks = b.tasks.set i new) (j : Nat) :
    b'.turnsLeft j ≤ b.turnsLeft j - if i = j then 1 else 0 := by
  obtain ⟨hi, -⟩ := List.getElem?_eq_some_iff.mp ho
  by_cases hij : i = j
  · subst hij
    simp only [turnsLeft, hb, List.getElem?_set_self hi, ho, Option.elim_some, if_pos]
    omega
  · simp [turnsLeft, hb, hij]

theorem turnsLeft_step {b : Board} (hb : b.tasks.length = paths.length) (turn : Turn) (i : Nat) :
    (b.step s paths turn).turnsLeft i ≤ b.turnsLeft i - if turn.task = i then 1 else 0 := by
  unfold Board.step
  split
  · rename_i ht
    split
    · exact turnsLeft_set ht (by simp [Task.turnsLeft]) rfl i
    · exact turnsLeft_set ht (by simp [Task.turnsLeft]) rfl i
  · rename_i ht _
    exact turnsLeft_set ht (by simp [Task.turnsLeft]) rfl i
  · rename_i ht
    exact turnsLeft_set ht (by simp [Task.turnsLeft]) rfl i
  · rename_i ht
    exact turnsLeft_set ht (by simp [Task.turnsLeft]) rfl i
  · rename_i hwaiting hok herror hcleared
    by_cases hi : turn.task = i
    · subst hi
      cases ht : b.tasks[turn.task]? with
      | none => simp [turnsLeft, ht]
      | some task =>
        have hlt := (List.getElem?_eq_some_iff.mp ht).1
        cases task with
        | waiting => exact (hwaiting ht).elim
        | cleared => exact (hcleared _ ht (List.getElem?_eq_getElem (hb ▸ hlt))).elim
        | skipped => simp [turnsLeft, ht, Task.turnsLeft]
        | scanned outcome =>
          cases outcome with
          | error e => exact (herror e ht).elim
          | ok finding => exact (hok finding ht).elim
        | settled => simp [turnsLeft, ht, Task.turnsLeft]
    · simp [hi]

theorem turnsLeft_run {b : Board} (hb : Sound s paths b) (schedule : Schedule) (i : Nat) :
    (schedule.foldl (step s paths) b).turnsLeft i ≤
      b.turnsLeft i - schedule.countP (fun turn => turn.task = i) := by
  induction schedule generalizing b with
  | nil => simp
  | cons turn rest ih =>
    have hrest := ih (hb.step turn)
    have hstep := turnsLeft_step (s := s) hb.length turn i
    simp only [List.foldl_cons, List.countP_cons, decide_eq_true_eq]
    omega

end Board

theorem Schedule.countP_inOrder (count i : Nat) :
    (inOrder count).countP (fun turn => turn.task = i) = if i < count then 3 else 0 := by
  induction count with
  | zero => rfl
  | succ count ih =>
    have hsucc : inOrder (count + 1) = inOrder count ++ List.replicate 3 ⟨count, some 0⟩ := by
      simp [inOrder, List.range_succ]
    rw [hsucc, List.countP_append, ih, List.countP_replicate]
    simp only [decide_eq_true_eq]
    split <;> split <;> split <;> omega

theorem turnsLeft_finalBoard (schedule : Schedule) {i : Nat} (h : i < paths.length) :
    (s.finalBoard schedule paths).turnsLeft i = 0 := by
  have hsound : (Board.start paths.length).Sound s paths := Board.sound_start
  have hrun := Board.turnsLeft_run hsound (schedule ++ .inOrder paths.length) i
  rw [List.countP_append, Schedule.countP_inOrder, if_pos h] at hrun
  have hstart : (Board.start paths.length).turnsLeft i = 3 := by
    simp [Board.turnsLeft, Board.start, h, Task.turnsLeft]
  unfold finalBoard
  omega

theorem sound_finalBoard (s : Survey) (schedule : Schedule) (paths : List String) :
    (s.finalBoard schedule paths).Sound s paths := Board.sound_start.run _

/-- How a task ends: behind a failure and without a scan, or with the one scan of its file. -/
theorem task_finalBoard (s : Survey) (schedule : Schedule) {i : Nat} {task : Task}
    (h : (s.finalBoard schedule paths).tasks[i]? = some task) :
    let scans := (s.finalBoard schedule paths).scans
    (task = .skipped ∧ scans.count i = 0 ∧ ∃ j < i, s.FailsAt paths j) ∨
      ∃ path, paths[i]? = some path ∧ task = .settled (s.scan path) ∧ scans.count i = 1 := by
  have hsound := sound_finalBoard s schedule paths
  have hok := hsound.tasks i task h
  have hlt : i < paths.length := hsound.length ▸ (List.getElem?_eq_some_iff.mp h).1
  have hover : task.turnsLeft = 0 := by
    simpa [Board.turnsLeft, h] using turnsLeft_finalBoard (s := s) schedule hlt
  cases task with
  | skipped => exact .inl ⟨rfl, hok⟩
  | settled outcome =>
    obtain ⟨hc, path, hp, rfl⟩ := hok
    exact .inr ⟨path, hp, rfl, hc⟩
  | _ => simp [Task.turnsLeft] at hover

-- ---------------------------------------------------------------------------
-- Going through the outcomes
-- ---------------------------------------------------------------------------

/-- An outcome is the one of its file, or is missing behind a file that fails. -/
def Explained (s : Survey) (paths : List String) (i : Nat)
    (outcome : Option (Except SurveyError Finding)) : Prop :=
  outcome = paths[i]?.map s.scan ∨ outcome = none ∧ ∃ j < i, s.FailsAt paths j

theorem explained_finalBoard (s : Survey) (schedule : Schedule) {i : Nat} {task : Task}
    (h : (s.finalBoard schedule paths).tasks[i]? = some task) :
    Explained s paths i task.outcome? := by
  rcases task_finalBoard s schedule h with ⟨rfl, -, hfail⟩ | ⟨path, hp, rfl, -⟩
  · exact .inr ⟨rfl, hfail⟩
  · exact .inl (by simp [Task.outcome?, hp])

theorem FailsAt.of_cons {path : String} {rest : List String} {finding : Finding} {j i : Nat}
    (hp : s.scan path = .ok finding) (hj : j < i + 1) (h : s.FailsAt (path :: rest) j) :
    ∃ k < i, s.FailsAt rest k := by
  obtain ⟨other, e, ho, he⟩ := h
  cases j with
  | zero =>
    obtain rfl : path = other := by simpa using ho
    rw [hp] at he
    cases he
  | succ k => exact ⟨k, by omega, other, e, by simpa using ho, he⟩

/-- Explained outcomes are collected to what a sequential survey reports, up to the reads. -/
theorem collect_of_explained {outcomes : List (Option (Except SurveyError Finding))}
    (hlen : outcomes.length = paths.length)
    (h : ∀ i outcome, outcomes[i]? = some outcome → Explained s paths i outcome) :
    (collect outcomes).result = (s.visit paths).result ∧
      (collect outcomes).log = (s.visit paths).log := by
  induction paths generalizing outcomes with
  | nil =>
    obtain rfl := List.length_eq_zero_iff.mp hlen
    exact ⟨rfl, rfl⟩
  | cons path rest ih =>
    cases outcomes with
    | nil => simp at hlen
    | cons outcome others =>
      have hfirst : outcome = some (s.scan path) := by
        rcases h 0 outcome rfl with hf | ⟨-, j, hj, -⟩
        · simpa using hf
        · omega
      subst hfirst
      cases hscan : s.scan path with
      | error e => simp [collect, visit, hscan, Report.reading]
      | ok finding =>
        obtain ⟨hr, hl⟩ := ih (by simpa using hlen) fun i outcome ho => by
          rcases h (i + 1) outcome (by simpa using ho) with hf | ⟨hnone, j, hj, hfail⟩
          · exact .inl (by simpa using hf)
          · exact .inr ⟨hnone, hfail.of_cons hscan hj⟩
        simp [collect, visit, hscan, Report.reading, Report.follow, hr, hl]

theorem collect_finalBoard (s : Survey) (schedule : Schedule) (paths : List String) :
    let outcomes := (s.finalBoard schedule paths).tasks.map Task.outcome?
    (collect outcomes).result = (s.visit paths).result ∧
      (collect outcomes).log = (s.visit paths).log := by
  apply collect_of_explained
  · simp [(sound_finalBoard s schedule paths).length]
  · intro i outcome h
    obtain ⟨task, ht, rfl⟩ : ∃ task, _ ∧ _ := by simpa using h
    exact explained_finalBoard s schedule ht

theorem checked_agrees {report report' : Report} (hresult : report.result = report'.result)
    (hlog : report.log = report'.log) (paths : List String) :
    (checked paths report).result = (checked paths report').result ∧
      (checked paths report).log = (checked paths report').log := by
  unfold checked
  split
  · exact ⟨rfl, rfl⟩
  · exact ⟨hresult, hlog⟩

-- ---------------------------------------------------------------------------
-- Scans
-- ---------------------------------------------------------------------------

theorem count_scans (s : Survey) (schedule : Schedule) {i : Nat} (h : i < paths.length) :
    let scans := (s.finalBoard schedule paths).scans
    scans.count i ≤ 1 ∧ ((∀ j < i, ¬s.FailsAt paths j) → scans.count i = 1) := by
  obtain ⟨task, ht⟩ : ∃ task, (s.finalBoard schedule paths).tasks[i]? = some task :=
    ⟨_, List.getElem?_eq_getElem ((sound_finalBoard s schedule paths).length ▸ h)⟩
  rcases task_finalBoard s schedule ht with ⟨-, hc, j, hj, hfail⟩ | ⟨-, -, -, hc⟩
  · exact ⟨by simp [hc], fun hnone => absurd hfail (hnone j hj)⟩
  · exact ⟨by simp [hc], fun _ => hc⟩

/-- Under every schedule a parallel survey gives the result and the log of a sequential one. If
it starts at all, every file up to the first that fails is scanned once and none is scanned twice. -/
theorem runParallel_agrees (s : Survey) (schedule : Schedule) (paths : List String) :
    (s.runParallel schedule paths).result = (s.run paths).result ∧
      (s.runParallel schedule paths).log = (s.run paths).log ∧
      ("" ∉ paths →
        let scans := (s.finalBoard schedule paths).scans
        (s.runParallel schedule paths).reads = scans.filterMap (paths[·]?) ∧
          (∀ i ∈ scans, i < paths.length) ∧
          ∀ i < paths.length, scans.count i ≤ 1 ∧
            ((∀ j < i, ¬s.FailsAt paths j) → scans.count i = 1)) := by
  obtain ⟨hresult, hlog⟩ := collect_finalBoard s schedule paths
  simp only [runParallel, run, checked]
  cases hempty : paths.findIdx? (· == "") with
  | some index =>
    refine ⟨rfl, rfl, fun hne => absurd ?_ hne⟩
    obtain ⟨hlt, hi, -⟩ := List.findIdx?_eq_some_iff_getElem.mp hempty
    exact (eq_of_beq hi) ▸ List.getElem_mem hlt
  | none =>
    refine ⟨hresult, hlog, fun _ => ⟨rfl, ?_, fun i hi => count_scans s schedule hi⟩⟩
    exact (sound_finalBoard s schedule paths).scans

/-- A survey of files that are empty programs, but for one that is missing and one that cannot
be read. -/
def twoTroubles : Survey where
  registry := ⟨[.flipBoolean]⟩
  reader path :=
    if path = "gone.js" then .error .missing
    else if path = "closed.js" then .error (.other "denied")
    else .ok ""
  parser _ _ := .ok (.mk ⟨"program", true, false, false, false, 0, 0, none⟩ [])

theorem runParallel_agrees_twoTroubles :
    let paths := ["gone.js", "closed.js", "late.js"]
    let schedule := [⟨1, none⟩, ⟨1, none⟩, ⟨1, none⟩, ⟨2, some 0⟩, ⟨0, none⟩]
    "" ∉ paths ∧
      (twoTroubles.runParallel schedule paths).result = .error (.unreadable "closed.js" "denied") ∧
      (twoTroubles.runParallel schedule paths).log =
        [⟨.info, "Skipping file gone.js because it does not exist"⟩] ∧
      (twoTroubles.finalBoard schedule paths).scans.count 1 = 1 ∧
      (twoTroubles.finalBoard schedule paths).scans.count 2 ≤ 1 := by
  intro paths schedule
  have hne : "" ∉ paths := by decide
  obtain ⟨hresult, hlog, hscans⟩ := runParallel_agrees twoTroubles schedule paths
  obtain ⟨-, -, hcount⟩ := hscans hne
  have hfirst : ∀ j < 1, ¬twoTroubles.FailsAt paths j := by
    rintro j hj ⟨path, e, hp, he⟩
    obtain rfl : j = 0 := by omega
    cases hp
    cases he
  exact ⟨hne, hresult, hlog, (hcount 1 (by decide)).2 hfirst, (hcount 2 (by decide)).1⟩

end Mutagen.Survey
