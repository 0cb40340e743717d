import MBT.Support.Exec
import MBT.Generate.MGenAction

/-!
# Generate — MGenMbtXml

`MGenMbtXml`: the methods of the test steps are invoked in the order of their numbers, each between
a header and an end line in the step log; the log is read back by lines into the elements
`TESTSTEP` of the MBT XML, and then deleted.

* `readSteps_records`: the reader gives back the steps of a log whose texts hold no line break.
* `genMbtXmlFile_iff`: from no log, the elements are the steps in the order of their numbers
  exactly when there is a step, the numbers count the steps, and no logged call has a line break.
* `genMbtXmlFile_after`: after runs that leave no log, a run reads exactly what it has logged.
-/

namespace MBT
open Exec Text

/-- The annotation `TESTSTEP` of a method, with the method's name. -/
structure TestStep where
  name : String
  stepNumber : ℤ
  beginState : String
  endState : String
  repeatTime : ℤ
  param : String
  data : String

/-- The texts of the step contain no line break. -/
def TestStep.Breakless (s : TestStep) : Prop :=
  Text.Breakless s.name ∧ Text.Breakless s.beginState ∧ Text.Breakless s.endState ∧
    Text.Breakless s.param ∧ Text.Breakless s.data

/-- An element `TESTSTEP` of the MBT XML. -/
structure TestStepElem where
  name : String
  stepNumber : String
  beginState : String
  endState : String
  repeatTime : String
  param : String
  data : String
  actions : List String
  deriving DecidableEq

/-- What a call of `appendFile` does: it writes its content, it cannot open the file, or it stops
after some characters.  In the last two cases it throws an `MException`. -/
inductive Append where
  | done
  | refused
  | cut (n : ℕ)

/-- What happens when the method of a step is run. -/
structure Invocation where
  step : TestStep
  header : Append
  actions : List (Action × Append)
  returns : Bool
  ending : Append

/-- What happens in a call of `genMbtXmlFile`, beside what its own code does. -/
structure LogRun where
  /-- The class of the steps, its instance and its methods are there. -/
  loaded : Bool
  methods : List Invocation
  /-- Nothing between the step log and the XML throws an `MException`. -/
  opened : Bool
  /-- The step log can be deleted. -/
  deleted : Bool

namespace MGenMbtXml

/-! ### Writing the step log -/

/-- The file, if it is there, after the call; and whether the call returns. -/
def appendFile (outcome : Append) (content : String) (log : Option String) : Bool × Option String :=
  match outcome with
  | .done => (true, some (log.getD "" ++ content))
  | .refused => (false, log)
  | .cut n => (false, some (log.getD "" ++ String.ofList (content.toList.take n)))

/-- The symbol of the begin and the basic information of a method. -/
def stepStr (s : TestStep) : String :=
  "STEP BEGIN\n" ++
  "name = " ++ s.name ++ "\n" ++
  "stepNumber = " ++ s.stepNumber.repr ++ "\n" ++
  "beginState = " ++ s.beginState ++ "\n" ++
  "endState = " ++ s.endState ++ "\n" ++
  "repeatTime = " ++ s.repeatTime.repr ++ "\n" ++
  "param = " ++ s.param ++ "\n" ++
  "data = " ++ s.data ++ "\n"

/-- A method of the generated action class catches the exception. -/
def logAction (log : Option String) (a : Action × Append) : Option String :=
  (appendFile a.2 (a.1.line ++ "\n") log).2

/-- One turn of the loop over the methods: the header, the method itself, and the end mark. -/
def logStep (v : Invocation) (log : Option String) : Bool × Option String :=
  match appendFile v.header (stepStr v.step) log with
  | (false, log) => (false, log)
  | (true, log) =>
    let log := v.actions.foldl logAction log
    if v.returns then appendFile v.ending "STEP END\n\n" log else (false, log)

/-- The loop over the methods: the first one that throws ends it. -/
def logSteps : List Invocation → Option String → Bool × Option String
  | [], log => (true, log)
  | v :: vs, log =>
    match logStep v log with
    | (false, log) => (false, log)
    | (true, log) => logSteps vs log

/-- The methods by their numbers, from `1` to how many there are; the first method of a number is
taken. -/
def sortMethods {α : Type} (number : α → ℤ) (methodList : List α) : List α :=
  (List.range methodList.length).filterMap fun i : ℕ =>
    methodList.find? fun v => number v == (i : ℤ) + 1

/-- Runs the methods in the order of their numbers, which log themselves. -/
def genStepLogFile (r : LogRun) (log : Option String) : Bool × Option String :=
  if r.loaded then logSteps (sortMethods (fun v => v.step.stepNumber) r.methods) log
  else (false, log)

/-! ### Reading it -/

/-- `get(++lineIdx).substring(beginIndex)`; the lines from the index on are passed along. -/
def field (beginIndex : ℕ) : List String → Except Exn (String × List String)
  | [] => .error .indexOutOfBounds
  | l :: ls => if beginIndex ≤ l.length then .ok (substring l beginIndex, ls)
    else .error .indexOutOfBounds

/-- The loop over the lines before the end of a step. -/
def readActions : List String → Except Exn (List String × List String)
  | [] => .error .indexOutOfBounds
  | l :: ls =>
    if l = "STEP END" then .ok ([], ls)
    else do
      let (actions, ls) ← readActions ls
      return (l :: actions, ls)

/-- The element that the lines after `STEP BEGIN` give, and the lines after it. -/
def readStep (ls : List String) : Except Exn (TestStepElem × List String) := do
  let (name, ls) ← field 7 ls
  let (stepNumber, ls) ← field 13 ls
  let (beginState, ls) ← field 13 ls
  let (endState, ls) ← field 11 ls
  let (repeatTime, ls) ← field 13 ls
  let (param, ls) ← field 8 ls
  let (data, ls) ← field 7 ls
  let (actions, ls) ← readActions ls
  return (⟨name, stepNumber, beginState, endState, repeatTime, param, data, actions⟩, ls)

/-- The outer loop, for at most `n` lines. -/
def readSteps : ℕ → List String → Except Exn (List TestStepElem)
  | _, [] => .ok []
  | 0, _ :: _ => .ok []
  | n + 1, l :: ls =>
    if l = "STEP BEGIN" then do
      let (testStep, ls) ← readStep ls
      let testSteps ← readSteps n ls
      return testStep :: testSteps
    else readSteps n ls

/-- The elements of a step log; there are no lines when the file is absent. -/
def readLog (log : Option String) : Except Exn (List TestStepElem) := do
  let stepLogLines ← Prog.nonNull (log.map readLines)
  readSteps stepLogLines.length stepLogLines

/-- The elements `TESTSTEP`, `none` when the call returns `false`; and the step log after it. -/
def genMbtXmlFile (r : LogRun) (log : Option String) :
    Except Exn (Option (List TestStepElem)) × Option String :=
  match genStepLogFile r log with
  | (false, log) => (.ok none, log)
  | (true, log) =>
    if r.opened then
      match readLog log with
      | .error e => (.error e, log)
      | .ok testSteps => (.ok (some testSteps), if r.deleted then none else log)
    else (.ok none, log)

/-! ### What a run writes -/

/-- The part of a content that an append has written. -/
def written (content : String) : Append → String
  | .done => content
  | .refused => ""
  | .cut n => String.ofList (content.toList.take n)

/-- What is written goes behind what the log has. -/
theorem getD_appendFile (outcome : Append) (content : String) (log : Option String) :
    (appendFile outcome content log).2.getD "" = log.getD "" ++ written content outcome := by
  cases outcome with
  | done => rfl
  | refused => exact (String.append_empty).symm
  | cut n => rfl

/-- The method is run to its end, and its record has a begin and an end in the log. -/
def Completed (v : Invocation) : Prop :=
  v.header = .done ∧ v.returns = true ∧ v.ending = .done

/-- What a completed method adds to the log. -/
def record (v : Invocation) : String :=
  stepStr v.step ++ (String.join (v.actions.map fun a => written (a.1.line ++ "\n") a.2) ++
    "STEP END\n\n")

/-- What the actions of a method log. -/
theorem foldl_logAction (as : List (Action × Append)) (s : String) :
    as.foldl logAction (some s) =
      some (s ++ String.join (as.map fun a => written (a.1.line ++ "\n") a.2)) := by
  induction as generalizing s with
  | nil => rw [List.foldl_nil, List.map_nil, String.join_nil, String.append_empty]
  | cons a as ih =>
    have hlog : logAction (some s) a = some (s ++ written (a.1.line ++ "\n") a.2) := by
      obtain ⟨a, outcome⟩ := a
      cases outcome with
      | done => rfl
      | refused => rw [written, String.append_empty]; rfl
      | cut n => rfl
    rw [List.foldl_cons, hlog, ih, List.map_cons, String.join_cons, String.append_assoc]

/-- A method that completes adds its record. -/
theorem logStep_completed {v : Invocation} (h : Completed v) (log : Option String) :
    logStep v log = (true, some (log.getD "" ++ record v)) := by
  rw [logStep, h.1, appendFile]
  dsimp only
  rw [foldl_logAction, if_pos h.2.1, h.2.2, appendFile, Option.getD_some, record,
    String.append_assoc, String.append_assoc]

/-- Methods that complete add their records, in order. -/
theorem logSteps_completed {vs : List Invocation} (h : ∀ v ∈ vs, Completed v) (log : Option String) :
    logSteps vs log =
      (true, if vs = [] then log else some (log.getD "" ++ String.join (vs.map record))) := by
  induction vs generalizing log with
  | nil => rfl
  | cons v vs ih =>
    rw [logSteps, logStep_completed (h v List.mem_cons_self)]
    dsimp only
    rw [ih fun v hv => h v (List.mem_cons_of_mem _ hv), if_neg (List.cons_ne_nil v vs),
      List.map_cons, String.join_cons]
    cases vs with
    | nil => rw [if_pos rfl, List.map_nil, String.join_nil, String.append_empty]
    | cons v' vs => rw [if_neg (List.cons_ne_nil _ _), Option.getD_some, String.append_assoc]

/-- A turn that succeeds has completed its method. -/
theorem completed_of_logStep {v : Invocation} {log log' : Option String}
    (h : logStep v log = (true, log')) : Completed v := by
  rw [logStep] at h
  cases hheader : v.header with
  | refused => rw [hheader] at h; cases h
  | cut n => rw [hheader] at h; cases h
  | done =>
    rw [hheader, appendFile] at h
    dsimp only at h
    split at h
    · rename_i hret
      cases hend : v.ending with
      | done => exact ⟨hheader, hret, hend⟩
      | refused => rw [hend] at h; cases h
      | cut n => rw [hend] at h; cases h
    · cases h

/-- A loop that succeeds has completed all methods. -/
theorem completed_of_logSteps {vs : List Invocation} {log log' : Option String}
    (h : logSteps vs log = (true, log')) : ∀ v ∈ vs, Completed v := by
  induction vs generalizing log with
  | nil => intro v hv; cases hv
  | cons v vs ih =>
    rw [logSteps] at h
    cases hv : logStep v log with
    | mk b log₁ =>
      rw [hv] at h
      cases b with
      | false => cases h
      | true =>
        intro u hu
        rcases List.mem_cons.mp hu with rfl | hu
        · exact completed_of_logStep hv
        · exact ih h u hu

/-! ### The lines of a step -/

/-- A step, and the calls its method logs. -/
abbrev Logged := TestStep × List Action

/-- The method logs its calls and returns, and every append is done. -/
def invocation (m : Logged) : Invocation := ⟨m.1, .done, m.2.map (·, .done), true, .done⟩

/-- The element of the MBT XML for a method. -/
def elem (m : Logged) : TestStepElem where
  name := m.1.name
  stepNumber := m.1.stepNumber.repr
  beginState := m.1.beginState
  endState := m.1.endState
  repeatTime := m.1.repeatTime.repr
  param := m.1.param
  data := m.1.data
  actions := m.2.map Action.line

/-- The lines of the header of a method. -/
def headerLines (s : TestStep) : List String :=
  ["name = " ++ s.name, "stepNumber = " ++ s.stepNumber.repr, "beginState = " ++ s.beginState,
    "endState = " ++ s.endState, "repeatTime = " ++ s.repeatTime.repr, "param = " ++ s.param,
    "data = " ++ s.data]

/-- The lines that the method of a step adds to the log. -/
def recordLines (m : Logged) : List String :=
  "STEP BEGIN" :: (headerLines m.1 ++ (m.2.map Action.line ++ ["STEP END", ""]))

/-- The text of some lines. -/
def text (ls : List String) : String := String.join (ls.map (· ++ "\n"))

@[simp] theorem text_nil : text [] = "" := rfl

@[simp] theorem text_cons (l : String) (ls : List String) : text (l :: ls) = l ++ "\n" ++ text ls := by
  rw [text, List.map_cons, String.join_cons, text]

@[simp] theorem text_append (ls ks : List String) : text (ls ++ ks) = text ls ++ text ks := by
  induction ls with
  | nil => rw [List.nil_append, text_nil, String.empty_append]
  | cons l ls ih => rw [List.cons_append, text_cons, text_cons, ih, String.append_assoc,
    String.append_assoc, String.append_assoc]

/-- The header is written line by line. -/
theorem text_header (s : TestStep) : text ("STEP BEGIN" :: headerLines s) = stepStr s := by
  have hbegin : "STEP BEGIN\n" = "STEP BEGIN" ++ "\n" := by decide +kernel
  unfold stepStr headerLines
  simp only [hbegin, text_cons, text_nil, String.append_empty, String.append_assoc]

/-- A method that only logs completes. -/
theorem completed_invocation (m : Logged) : Completed (invocation m) := ⟨rfl, rfl, rfl⟩

/-- Its record is its lines. -/
theorem record_invocation (m : Logged) : record (invocation m) = text (recordLines m) := by
  have hend : "STEP END\n\n" = text ["STEP END", ""] := by decide +kernel
  have hactions : (m.2.map (·, Append.done)).map (fun a => written (a.1.line ++ "\n") a.2) =
      (m.2.map Action.line).map (· ++ "\n") := by
    rw [List.map_map, List.map_map]
    rfl
  rw [record, invocation, hactions, hend, recordLines, ← List.cons_append, text_append, text_append,
    text_header, ← text]

/-- The records of some methods are their lines. -/
theorem join_records (ms : List Logged) :
    String.join ((ms.map invocation).map record) = text (ms.flatMap recordLines) := by
  induction ms with
  | nil => rfl
  | cons m ms ih =>
    rw [List.map_cons, List.map_cons, String.join_cons, ih, record_invocation, List.flatMap_cons,
      text_append]

/-- Lines without breaks are read back. -/
theorem readLines_text {ls : List String} (h : ∀ l ∈ ls, Breakless l) : readLines (text ls) = ls := by
  induction ls with
  | nil => rfl
  | cons l ls ih =>
    rw [text_cons, readLines_record (h l List.mem_cons_self),
      ih fun l hl => h l (List.mem_cons_of_mem _ hl)]

/-! ### Reading it back -/

theorem field_append {n : ℕ} (p : String) (h : p.length = n) (s : String) (ls : List String) :
    field n ((p ++ s) :: ls) = .ok (s, ls) := by
  subst h
  have hsub : substring (p ++ s) p.length = s := by
    rw [substring, String.toList_append, ← String.length_toList, List.drop_left, String.ofList_toList]
  rw [field, if_pos (by rw [String.length_append]; exact Nat.le_add_right ..), hsub]

/-- No action is taken for the end mark. -/
theorem line_ne_end (a : Action) : a.line ≠ "STEP END" := by
  intro h
  have hlast := congrArg (fun s : String => s.toList.getLast?) h
  rw [Action.line, String.toList_append] at hlast
  exact absurd hlast (by simp)

/-- The actions are read up to the end mark. -/
theorem readActions_lines (as : List Action) (ls : List String) :
    readActions (as.map Action.line ++ "STEP END" :: ls) = .ok (as.map Action.line, ls) := by
  induction as with
  | nil => rfl
  | cons a as ih =>
    rw [List.map_cons, List.cons_append, readActions, if_neg (line_ne_end a), ih]
    rfl

/-- A record is read back as its element. -/
theorem readStep_record (m : Logged) (ls : List String) :
    readStep (headerLines m.1 ++ (m.2.map Action.line ++ "STEP END" :: ls)) = .ok (elem m, ls) := by
  have h₁ (ls) : field 7 (("name = " ++ m.1.name) :: ls) = .ok (m.1.name, ls) := field_append "name = " rfl ..
  have h₂ (ls) : field 13 (("stepNumber = " ++ m.1.stepNumber.repr) :: ls) =
      .ok (m.1.stepNumber.repr, ls) := field_append "stepNumber = " rfl ..
  have h₃ (ls) : field 13 (("beginState = " ++ m.1.beginState) :: ls) =
      .ok (m.1.beginState, ls) := field_append "beginState = " rfl ..
  have h₄ (ls) : field 11 (("endState = " ++ m.1.endState) :: ls) =
      .ok (m.1.endState, ls) := field_append "endState = " rfl ..
  have h₅ (ls) : field 13 (("repeatTime = " ++ m.1.repeatTime.repr) :: ls) =
      .ok (m.1.repeatTime.repr, ls) := field_append "repeatTime = " rfl ..
  have h₆ (ls) : field 8 (("param = " ++ m.1.param) :: ls) = .ok (m.1.param, ls) := field_append "param = " rfl ..
  have h₇ (ls) : field 7 (("data = " ++ m.1.data) :: ls) = .ok (m.1.data, ls) := field_append "data = " rfl ..
  simp only [readStep, headerLines, List.cons_append, List.nil_append, h₁, h₂, h₃, h₄, h₅, h₆, h₇,
    readActions_lines, bind, Except.bind, pure, Except.pure, elem]

/-- Two turns of the outer loop take the record of a step: one reads it, the other skips the blank
line after it. -/
theorem readSteps_records (ms : List Logged) {n : ℕ} (h : (ms.flatMap recordLines).length ≤ n) :
    readSteps n (ms.flatMap recordLines) = .ok (ms.map elem) := by
  induction ms generalizing n with
  | nil => rw [List.flatMap_nil, readSteps]; rfl
  | cons m ms ih =>
    have hlines : (m :: ms).flatMap recordLines = "STEP BEGIN" :: (headerLines m.1 ++
        (m.2.map Action.line ++ "STEP END" :: "" :: ms.flatMap recordLines)) := by
      rw [List.flatMap_cons, recordLines]
      simp only [List.cons_append, List.append_assoc, List.nil_append]
    rw [hlines] at h ⊢
    simp only [List.length_cons, List.length_append] at h
    obtain ⟨n, rfl⟩ : ∃ k, n = k + 2 := ⟨n - 2, by omega⟩
    have hblank : "" ≠ "STEP BEGIN" := by decide
    rw [readSteps, if_pos rfl, readStep_record]
    simp only [bind, Except.bind, readSteps, if_neg hblank]
    rw [ih (by omega)]
    rfl

/-- The lines of a record have no breaks when its texts have none. -/
theorem breakless_recordLines {m : Logged} (hstep : m.1.Breakless)
    (hactions : ∀ a ∈ m.2, Breakless a.line) : ∀ l ∈ recordLines m, Breakless l := by
  obtain ⟨h₁, h₂, h₃, h₄, h₅⟩ := hstep
  have hn := breakless_repr m.1.stepNumber
  have hr := breakless_repr m.1.repeatTime
  have hlit : ∀ l ∈ ["STEP BEGIN", "name = ", "stepNumber = ", "beginState = ", "endState = ",
      "repeatTime = ", "param = ", "data = ", "STEP END", ""], Breakless l := by decide
  simp only [List.forall_mem_cons] at hlit
  simp only [recordLines, headerLines, List.forall_mem_cons, List.forall_mem_append,
    List.forall_mem_map, breakless_append, hlit, h₁, h₂, h₃, h₄, h₅, hn, hr, true_and, and_true]
  exact ⟨List.forall_mem_nil _, hactions, List.forall_mem_nil _⟩

/-- A log of texts without line breaks is read back. -/
theorem readLog_records {ms : List Logged} (hsteps : ∀ m ∈ ms, m.1.Breakless)
    (hactions : ∀ m ∈ ms, ∀ a ∈ m.2, Breakless a.line) :
    readLog (some (text (ms.flatMap recordLines))) = .ok (ms.map elem) := by
  have hlines : ∀ l ∈ ms.flatMap recordLines, Breakless l := by
    intro l hl
    obtain ⟨m, hm, hl⟩ := List.mem_flatMap.mp hl
    exact breakless_recordLines (hsteps m hm) (hactions m hm) l hl
  simp only [readLog, Option.map_some, Prog.nonNull, bind, Except.bind, readLines_text hlines]
  exact readSteps_records ms le_rfl

/-! ### The actions of an element are lines of the log -/

/-- Reading a field uses lines up. -/
theorem subset_of_field {k : ℕ} {ls : List String} {r : String × List String}
    (h : field k ls = .ok r) : r.2 ⊆ ls := by
  cases ls with
  | nil => cases h
  | cons l ls =>
    rw [field] at h
    split at h
    · cases h
      exact List.subset_cons_self l ls
    · cases h

/-- The actions that are read are lines. -/
theorem subset_of_readActions {ls : List String} {r : List String × List String}
    (h : readActions ls = .ok r) : r.1 ⊆ ls ∧ r.2 ⊆ ls := by
  induction ls generalizing r with
  | nil => cases h
  | cons l ls ih =>
    rw [readActions] at h
    split at h
    · cases h
      exact ⟨List.nil_subset _, List.subset_cons_self l ls⟩
    · obtain ⟨r', hr', h⟩ := bind_eq_ok.mp h
      cases h
      obtain ⟨h₁, h₂⟩ := ih hr'
      exact ⟨List.cons_subset_cons l h₁, List.subset_cons_of_subset l h₂⟩

/-- The actions of a step that is read are lines. -/
theorem subset_of_readStep {ls : List String} {r : TestStepElem × List String}
    (h : readStep ls = .ok r) : r.1.actions ⊆ ls ∧ r.2 ⊆ ls := by
  obtain ⟨r₁, h₁, h⟩ := bind_eq_ok.mp h
  obtain ⟨r₂, h₂, h⟩ := bind_eq_ok.mp h
  obtain ⟨r₃, h₃, h⟩ := bind_eq_ok.mp h
  obtain ⟨r₄, h₄, h⟩ := bind_eq_ok.mp h
  obtain ⟨r₅, h₅, h⟩ := bind_eq_ok.mp h
  obtain ⟨r₆, h₆, h⟩ := bind_eq_ok.mp h
  obtain ⟨r₇, h₇, h⟩ := bind_eq_ok.mp h
  obtain ⟨r₈, h₈, h⟩ := bind_eq_ok.mp h
  cases h
  have hsub : r₇.2 ⊆ ls := by
    intro l hl
    exact subset_of_field h₁ (subset_of_field h₂ (subset_of_field h₃ (subset_of_field h₄
      (subset_of_field h₅ (subset_of_field h₆ (subset_of_field h₇ hl))))))
  obtain ⟨hactions, hrest⟩ := subset_of_readActions h₈
  exact ⟨fun l hl => hsub (hactions hl), fun l hl => hsub (hrest hl)⟩

/-- The actions of all steps are lines. -/
theorem mem_of_readSteps {n : ℕ} {ls : List String} {es : List TestStepElem}
    (h : readSteps n ls = .ok es) : ∀ e ∈ es, e.actions ⊆ ls := by
  induction n generalizing ls es with
  | zero =>
    intro e he
    cases ls <;> (cases h; cases he)
  | succ n ih =>
    cases ls with
    | nil => intro e he; cases h; cases he
    | cons l ls =>
      rw [readSteps] at h
      split at h
      · obtain ⟨r, hr, h⟩ := bind_eq_ok.mp h
        obtain ⟨es', hes', h⟩ := bind_eq_ok.mp h
        cases h
        obtain ⟨hactions, hrest⟩ := subset_of_readStep hr
        intro e he
        rcases List.mem_cons.mp he with rfl | he
        · exact List.subset_cons_of_subset l hactions
        · exact List.subset_cons_of_subset l fun a ha => hrest (ih hes' e he ha)
      · exact fun e he => List.subset_cons_of_subset l (ih h e he)

/-- What is read from a log has no line breaks. -/
theorem breakless_of_readLog {log : Option String} {es : List TestStepElem}
    (h : readLog log = .ok es) : ∀ e ∈ es, ∀ a ∈ e.actions, Breakless a := by
  obtain ⟨ls, hls, h⟩ := bind_eq_ok.mp h
  cases log with
  | none => cases hls
  | some s =>
    cases hls
    intro e he a ha
    exact breakless_of_mem_readLines (mem_of_readSteps h e he ha)

/-! ### The order of the steps -/

section Order

variable {α : Type} {number : α → ℤ}

/-- The numbers from `1` to `n`. -/
def numbers (n : ℕ) : List ℤ := (List.range n).map fun i : ℕ => (i : ℤ) + 1

/-- The numbers are different. -/
theorem nodup_numbers (n : ℕ) : (numbers n).Nodup :=
  List.nodup_range.map fun i j h => by
    have : (i : ℤ) + 1 = j + 1 := h
    omega

/-- They come in order. -/
theorem pairwise_numbers (n : ℕ) : (numbers n).Pairwise (· ≤ ·) := by
  rw [numbers, List.pairwise_map]
  refine List.pairwise_lt_range.imp ?_
  intro i j h
  omega

/-- The sorting takes, of each number up to the count, one method that has it. -/
theorem map_sortMethods (l : List α) :
    (sortMethods number l).map number = (numbers l.length).filter fun k => k ∈ l.map number := by
  rw [sortMethods, numbers, List.filter_map, List.map_filterMap]
  have hturn : ∀ i : ℕ, (l.find? fun v => number v == (i : ℤ) + 1).map number =
      if (i : ℤ) + 1 ∈ l.map number then some ((i : ℤ) + 1) else none := by
    intro i
    split
    · rename_i h
      obtain ⟨v, hv, hnum⟩ := List.mem_map.mp h
      obtain ⟨u, hu⟩ := Option.isSome_iff_exists.mp
        (List.find?_isSome (p := fun v => number v == (i : ℤ) + 1).mpr ⟨v, hv, by simp [hnum]⟩)
      have hnum := List.find?_some hu
      rw [hu, Option.map_some, eq_of_beq hnum]
    · rename_i h
      rw [Option.map_eq_none_iff, List.find?_eq_none]
      intro v hv hnum
      exact h (List.mem_map.mpr ⟨v, hv, eq_of_beq hnum⟩)
  simp only [hturn]
  induction List.range l.length with
  | nil => rfl
  | cons i is ih =>
    rw [List.filterMap_cons, ih, List.filter_cons]
    by_cases h : (i : ℤ) + 1 ∈ l.map number
    · simp only [h, if_true, Function.comp_apply, decide_true, List.map_cons]
    · simp only [h, if_false, Function.comp_apply, decide_false, Bool.false_eq_true]

/-- Only methods are taken. -/
theorem mem_of_mem_sortMethods {l : List α} {v : α} (h : v ∈ sortMethods number l) : v ∈ l := by
  obtain ⟨i, -, hi⟩ := List.mem_filterMap.mp h
  exact List.mem_of_find?_eq_some hi

/-- They come in the order of their numbers. -/
theorem pairwise_sortMethods (l : List α) :
    (sortMethods number l).Pairwise fun u v => number u ≤ number v := by
  rw [← List.pairwise_map (f := number) (R := (· ≤ ·)), map_sortMethods]
  exact (pairwise_numbers _).filter _

/-- The loop finds every method exactly when the numbers count the methods. -/
theorem length_sortMethods_iff {l : List α} :
    (sortMethods number l).length = l.length ↔ (l.map number).Perm (numbers l.length) := by
  have hlen : (numbers l.length).length = l.length := by rw [numbers, List.length_map, List.length_range]
  rw [← List.length_map (f := number), map_sortMethods]
  constructor
  · intro h
    have hall : ∀ k ∈ numbers l.length, k ∈ l.map number := by
      intro k hk
      have := List.length_filter_eq_length_iff.mp (h.trans hlen.symm) k hk
      exact of_decide_eq_true this
    refine ((List.subperm_of_subset (nodup_numbers _) hall).perm_of_length_le ?_).symm
    rw [hlen, List.length_map]
  · intro h
    rw [List.filter_eq_self.mpr fun k hk => decide_eq_true (h.mem_iff.mpr hk), hlen]

/-- Where the numbers are those from one to the count, all are taken. -/
theorem sortMethods_perm {l : List α} (h : (l.map number).Perm (numbers l.length)) :
    (sortMethods number l).Perm l := by
  have hnodup : (sortMethods number l).Nodup := by
    refine List.Nodup.of_map number ?_
    rw [map_sortMethods]
    exact (nodup_numbers _).filter _
  exact (List.subperm_of_subset hnodup fun v hv => mem_of_mem_sortMethods hv).perm_of_length_le
    (length_sortMethods_iff.mpr h).ge

/-- Sorting looks at the numbers only. -/
theorem sortMethods_map {β : Type} {number : β → ℤ} (f : α → β) (l : List α) :
    sortMethods number (l.map f) = (sortMethods (fun a => number (f a)) l).map f := by
  rw [sortMethods, sortMethods, List.map_filterMap, List.length_map]
  refine List.filterMap_congr fun i _ => ?_
  rw [List.find?_map]
  rfl

end Order

/-! ### The round trip -/

/-- A call with these methods that nothing disturbs. -/
def logRun (ms : List Logged) : LogRun := ⟨true, ms.map invocation, true, true⟩

/-- From no log, the elements are the steps in the order of their numbers, each with what its
method has logged. -/
def RoundTrips (ms : List Logged) : Prop :=
  ∃ q : List Logged, q.Perm ms ∧ q.Pairwise (fun a b => a.1.stepNumber ≤ b.1.stepNumber) ∧
    (genMbtXmlFile (logRun ms) none).1 = .ok (some (q.map elem))

/-- The methods in the order of their steps' numbers. -/
def sorted (ms : List Logged) : List Logged := sortMethods (fun m => m.1.stepNumber) ms

/-- From no log, the methods leave their lines. -/
theorem genStepLogFile_logRun (ms : List Logged) : genStepLogFile (logRun ms) none =
    (true, if sorted ms = [] then none else some (text ((sorted ms).flatMap recordLines))) := by
  have hsort : sortMethods (fun v : Invocation => v.step.stepNumber) (ms.map invocation) =
      (sorted ms).map invocation := sortMethods_map invocation ms
  have hcompleted : ∀ v ∈ (sorted ms).map invocation, Completed v := by
    intro v hv
    obtain ⟨m, -, rfl⟩ := List.mem_map.mp hv
    exact completed_invocation m
  rw [genStepLogFile, logRun]
  dsimp only
  rw [if_pos rfl, hsort, logSteps_completed hcompleted, join_records, Option.getD_none,
    String.empty_append]
  simp only [List.map_eq_nil_iff]

/-- What is read back are these lines. -/
theorem fst_genMbtXmlFile_logRun (ms : List Logged) : (genMbtXmlFile (logRun ms) none).1 =
    (readLog (if sorted ms = [] then none
      else some (text ((sorted ms).flatMap recordLines)))).map some := by
  have hopened : (logRun ms).opened = true := rfl
  rw [genMbtXmlFile, genStepLogFile_logRun]
  dsimp only
  rw [if_pos hopened]
  cases readLog (if sorted ms = [] then none
    else some (text ((sorted ms).flatMap recordLines))) with
  | error e => rfl
  | ok es => rfl

/-- A round trip needs actions without line breaks. -/
theorem breakless_of_roundTrips {ms : List Logged} (h : RoundTrips ms) :
    ∀ m ∈ ms, ∀ a ∈ m.2, Breakless a.line := by
  obtain ⟨q, hq, -, hrun⟩ := h
  rw [fst_genMbtXmlFile_logRun] at hrun
  cases hread : readLog (if sorted ms = [] then none
      else some (text ((sorted ms).flatMap recordLines))) with
  | error e => rw [hread] at hrun; cases hrun
  | ok es =>
    rw [hread] at hrun
    have hes : es = q.map elem := Option.some.inj (Except.ok.inj hrun)
    intro m hm a ha
    refine breakless_of_readLog hread (elem m) ?_ a.line (List.mem_map_of_mem ha)
    rw [hes]
    exact List.mem_map_of_mem (hq.mem_iff.mpr hm)

/-- **When the log carries the steps.**  From no log, the elements are exactly the steps in the
order of their numbers, with their calls, exactly when there is a step, the numbers count the steps
from one, and no function name and no argument of a logged call contains a line break. -/
theorem genMbtXmlFile_iff (ms : List Logged) (h : ∀ m ∈ ms, m.1.Breakless) :
    RoundTrips ms ↔ ms ≠ [] ∧ (ms.map fun m => m.1.stepNumber).Perm (numbers ms.length) ∧
      ∀ m ∈ ms, ∀ a ∈ m.2, Breakless a.name ∧ ∀ p ∈ a.params, Breakless p := by
  simp only [← Action.breakless_line]
  have hread (hactions : ∀ m ∈ ms, ∀ a ∈ m.2, Breakless a.line) :
      readLog (some (text ((sorted ms).flatMap recordLines))) = .ok ((sorted ms).map elem) :=
    readLog_records (fun m hm => h m (mem_of_mem_sortMethods hm))
      fun m hm => hactions m (mem_of_mem_sortMethods hm)
  constructor
  · intro hround
    have hactions := breakless_of_roundTrips hround
    obtain ⟨q, hq, -, hrun⟩ := hround
    rw [fst_genMbtXmlFile_logRun] at hrun
    have hne : sorted ms ≠ [] := by
      intro hnil
      rw [if_pos hnil] at hrun
      cases hrun
    rw [if_neg hne, hread hactions] at hrun
    have hlen := congrArg List.length (Option.some.inj (Except.ok.inj hrun))
    rw [List.length_map, List.length_map, hq.length_eq] at hlen
    refine ⟨?_, length_sortMethods_iff.mp hlen, hactions⟩
    rintro rfl
    exact hne rfl
  · rintro ⟨hne, hcount, hactions⟩
    have hperm : (sorted ms).Perm ms := sortMethods_perm hcount
    refine ⟨sorted ms, hperm, pairwise_sortMethods ms, ?_⟩
    have hne' : sorted ms ≠ [] := fun hnil => hne (List.nil_perm.mp (hnil ▸ hperm))
    rw [fst_genMbtXmlFile_logRun, if_neg hne', hread hactions]
    rfl

/-- Two steps, the second one first. -/
def payLogged : List Logged :=
  [(⟨"pay", 2, "Cart", "Paid", 1, "", ""⟩, [⟨"click", ["pay"]⟩]),
    (⟨"add", 1, "Shop", "Cart", 2, "", ""⟩, [⟨"open", []⟩, ⟨"type", ["id", "a, \"b\""]⟩])]

theorem genMbtXmlFile_iff_pay : RoundTrips payLogged ↔ payLogged ≠ [] ∧
    (payLogged.map fun m => m.1.stepNumber).Perm (numbers payLogged.length) ∧
      ∀ m ∈ payLogged, ∀ a ∈ m.2, Breakless a.name ∧ ∀ p ∈ a.params, Breakless p :=
  genMbtXmlFile_iff payLogged (by unfold TestStep.Breakless; decide)

/-- An argument with a line break does not come back. -/
theorem not_roundTrips_break :
    ¬ RoundTrips [(⟨"pay", 1, "Cart", "Paid", 1, "", ""⟩, [⟨"type", ["a\nb"]⟩])] := by
  intro h
  have hline := breakless_of_roundTrips h _ (List.mem_singleton_self _) _ (List.mem_singleton_self _)
  exact absurd hline (by decide)

/-! ### One run after another -/

/-- The methods that a call invokes, in order. -/
def invoked (r : LogRun) : List Invocation := sortMethods (fun v => v.step.stepNumber) r.methods

/-- The log after some calls, the first of which finds none. -/
def logAfter (rs : List LogRun) : Option String :=
  rs.foldl (fun log r => (genMbtXmlFile r log).2) none

/-- What a call that completes its methods adds to the log. -/
def ownText (r : LogRun) : String := String.join ((invoked r).map record)

/-- The call ends before it has written anything, or it reads what it has written and deletes it. -/
def LeavesNoLog (r : LogRun) : Prop :=
  r.loaded = false ∨
  (∃ v vs, invoked r = v :: vs ∧ v.header ≠ .done ∧ written (stepStr v.step) v.header = "") ∨
  ((∀ v ∈ invoked r, Completed v) ∧ r.opened = true ∧ r.deleted = true ∧
    ∃ es, readLog (some (ownText r)) = .ok es)

/-- A header that is not written leaves nothing. -/
theorem logSteps_stopped {v : Invocation} (hheader : v.header ≠ .done)
    (hnothing : written (stepStr v.step) v.header = "") (vs : List Invocation)
    {log : Option String} (hlog : log.getD "" = "") :
    ∃ log', logSteps (v :: vs) log = (false, log') ∧ log'.getD "" = "" := by
  have hget := getD_appendFile v.header (stepStr v.step) log
  rw [hlog, hnothing, String.append_empty] at hget
  refine ⟨_, ?_, hget⟩
  rw [logSteps, logStep]
  cases h : v.header with
  | done => exact absurd h hheader
  | refused => rfl
  | cut n => rfl

/-- A call that completes its methods, from a log that is absent or empty. -/
theorem genStepLogFile_completed {r : LogRun} (hloaded : r.loaded = true)
    (h : ∀ v ∈ invoked r, Completed v) {log : Option String} (hlog : log.getD "" = "") :
    genStepLogFile r log = (true, if invoked r = [] then log else some (ownText r)) := by
  rw [genStepLogFile, if_pos hloaded, ← invoked, logSteps_completed h, hlog, String.empty_append,
    ownText]

/-- From an empty log, a run that succeeds leaves its own text. -/
theorem getD_genStepLogFile {r : LogRun} (hloaded : r.loaded = true)
    (h : ∀ v ∈ invoked r, Completed v) {log log' : Option String} (hlog : log.getD "" = "")
    (hrun : genStepLogFile r log = (true, log')) : log'.getD "" = ownText r := by
  rw [genStepLogFile_completed hloaded h hlog] at hrun
  cases hrun
  split
  · rename_i hnil
    rw [hlog, ownText, hnil]
    rfl
  · rfl

/-- A missing log is read like an empty one. -/
theorem getD_readLog {log : Option String} {es : List TestStepElem} (h : readLog log = .ok es) :
    readLog (some (log.getD "")) = .ok es := by
  cases log with
  | none => cases h
  | some s => exact h

/-- A call that leaves no log keeps the log absent or empty. -/
theorem getD_genMbtXmlFile {r : LogRun} (h : LeavesNoLog r) {log : Option String}
    (hlog : log.getD "" = "") : (genMbtXmlFile r log).2.getD "" = "" := by
  cases hloaded : r.loaded with
  | false => rw [genMbtXmlFile, genStepLogFile, hloaded]; exact hlog
  | true =>
    rcases h with h | ⟨v, vs, hinv, hheader, hnothing⟩ | ⟨hall, hopened, hdeleted, es, hread⟩
    · rw [hloaded] at h; cases h
    · obtain ⟨log', hrun, hlog'⟩ := logSteps_stopped hheader hnothing vs hlog
      rw [genMbtXmlFile, genStepLogFile, if_pos hloaded, ← invoked, hinv, hrun]
      exact hlog'
    · rw [genMbtXmlFile]
      cases hrun : genStepLogFile r log with
      | mk b log' =>
        have hown := @getD_genStepLogFile r hloaded hall log log' hlog
        rw [genStepLogFile_completed hloaded hall hlog] at hrun
        cases hrun
        specialize hown (genStepLogFile_completed hloaded hall hlog)
        dsimp only
        rw [if_pos hopened]
        generalize (if invoked r = [] then log else some (ownText r)) = log' at hown ⊢
        cases log' with
        | none => rfl
        | some s =>
          rw [show s = ownText r from hown, hread]
          dsimp only
          rw [if_pos hdeleted]
          rfl

/-- Calls that leave no log leave none together. -/
theorem getD_logAfter {rs : List LogRun} (h : ∀ r ∈ rs, LeavesNoLog r) :
    (logAfter rs).getD "" = "" := by
  suffices H : ∀ log : Option String, log.getD "" = "" →
      (rs.foldl (fun log r => (genMbtXmlFile r log).2) log).getD "" = "" from H none rfl
  induction rs with
  | nil => exact fun log hlog => hlog
  | cons r rs ih =>
    intro log hlog
    exact ih (fun r hr => h r (List.mem_cons_of_mem _ hr)) _
      (getD_genMbtXmlFile (h r List.mem_cons_self) hlog)

/-- **What a run reads.**  After calls none of which leaves a log, a call that succeeds builds
exactly the elements of what its own methods have logged; where every append of it is done and its
texts hold no line break, these are its steps. -/
theorem genMbtXmlFile_after (before : List LogRun) (r : LogRun) (es : List TestStepElem)
    (hbefore : ∀ r ∈ before, LeavesNoLog r)
    (h : (genMbtXmlFile r (logAfter before)).1 = .ok (some es)) :
    (∀ v ∈ invoked r, Completed v) ∧ readLog (some (ownText r)) = .ok es ∧
      ∀ ms : List Logged, invoked r = ms.map invocation → (∀ m ∈ ms, m.1.Breakless) →
        (∀ m ∈ ms, ∀ a ∈ m.2, Breakless a.line) → es = ms.map elem := by
  have hlog := getD_logAfter hbefore
  rw [genMbtXmlFile] at h
  cases hrun : genStepLogFile r (logAfter before) with
  | mk b log =>
    rw [hrun] at h
    cases b with
    | false => cases h
    | true =>
      dsimp only at h
      have hloaded : r.loaded = true := by
        cases hl : r.loaded with
        | true => rfl
        | false => rw [genStepLogFile, hl] at hrun; cases hrun
      have hall : ∀ v ∈ invoked r, Completed v := by
        rw [genStepLogFile, if_pos hloaded] at hrun
        exact completed_of_logSteps hrun
      split at h
      · have hread : readLog log = .ok es := by
          cases hr : readLog log with
          | error e => rw [hr] at h; cases h
          | ok es' => rw [hr] at h; cases h; rfl
        have hown := getD_readLog hread
        rw [getD_genStepLogFile hloaded hall hlog hrun] at hown
        refine ⟨hall, hown, fun ms hms hsteps hactions => ?_⟩
        rw [ownText, hms, join_records, readLog_records hsteps hactions] at hown
        exact (Except.ok.inj hown).symm
      · cases h

/-- A call whose step `pay` throws before it has logged anything. -/
def payThrows : LogRun :=
  ⟨true, [⟨⟨"pay", 1, "Cart", "Paid", 1, "", ""⟩, .done, [], false, .done⟩], true, true⟩

/-- A call whose log cannot be opened. -/
def payRefused : LogRun :=
  ⟨true, [⟨⟨"pay", 1, "Cart", "Paid", 1, "", ""⟩, .refused, [], true, .done⟩], true, true⟩

/-- A run whose one method completes. -/
def paySucceeds : LogRun := logRun [(⟨"pay", 1, "Cart", "Paid", 1, "", ""⟩, [⟨"click", ["pay"]⟩])]

/-- The element of that method. -/
def payElem : TestStepElem := ⟨"pay", "1", "Cart", "Paid", "1", "", "", ["click(\"pay\");"]⟩

theorem genMbtXmlFile_after_refused : (∀ v ∈ invoked paySucceeds, Completed v) ∧
    readLog (some (ownText paySucceeds)) = .ok [payElem] ∧
      ∀ ms : List Logged, invoked paySucceeds = ms.map invocation → (∀ m ∈ ms, m.1.Breakless) →
        (∀ m ∈ ms, ∀ a ∈ m.2, Breakless a.line) → [payElem] = ms.map elem :=
  genMbtXmlFile_after [payRefused] paySucceeds [payElem]
    (fun r hr => List.mem_singleton.mp hr ▸ .inr (.inl ⟨_, _, rfl, nofun, rfl⟩))
    (by decide +kernel)

/-- The record that a failed call has left takes in the record of the next one. -/
theorem genMbtXmlFile_swallows :
    ∃ es, (genMbtXmlFile paySucceeds (logAfter [payThrows])).1 = .ok (some es) ∧
      es ≠ [payElem] := by
  refine ⟨[⟨"pay", "1", "Cart", "Paid", "1", "", "", ["STEP BEGIN", "name = pay",
    "stepNumber = 1", "beginState = Cart", "endState = Paid", "repeatTime = 1", "param = ",
    "data = ", "click(\"pay\");"]⟩], by decide +kernel, by decide⟩

end MGenMbtXml

end MBT
