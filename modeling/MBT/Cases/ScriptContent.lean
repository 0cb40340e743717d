import MBT.Cases.MGenCase
import MBT.Support.Latch
import MBT.Support.TextLines

/-!
# Cases — ScriptContent

The content of a case is put to the functions of a script line by line: each step goes as a whole to
the function that a marker action names.

* `exists_steps`: the content of a case is that of some steps.
* `setContent_eq`: each step goes to the function of the last line in it that begins with the word of
  a marker.
* `setContent_iff`: each line of a step is put once to the function that its last marker names
  exactly when no other line of a step begins with the word of a marker.
-/

namespace MBT
open Exec Text MXmlParse MQTestActionHandler MQTestView TextLines

namespace MGenCase

/-! ### The text of the steps -/

/-- A step: the lines of its name, of which there is at least one, and those of its script. -/
structure Step where
  name : String
  more : List String
  lines : List String

namespace Step

/-- The name of a step, which may go on over more lines. -/
def stepName (st : Step) : String := "\n".intercalate (st.name :: st.more)

/-- The text of a step in the content of a case. -/
def render (i : ℕ) (st : Step) : String :=
  setStepLog i st.stepName ++ setStepComment i st.stepName ++ setStepStartLog i st.stepName ++
    unlines st.lines ++ setStepEndLog i st.stepName

/-- What is left of a name behind its first line, with the end of a call. -/
def closed : List String → List String
  | [] => []
  | [l] => [l ++ "\")"]
  | l :: k :: ls => l :: closed (k :: ls)

/-- A call with a name: its first line. -/
def callLine (call : String) (i : ℕ) (st : Step) : String :=
  let line := call ++ "(\"" ++ i.repr ++ ": " ++ st.name
  if st.more = [] then line ++ "\")" else line

/-- The first line of the comment above a step. -/
def commentLine (i : ℕ) (st : Step) : String := "# " ++ i.repr ++ " " ++ st.name

/-- The lines between the first one that starts the step and the first one that ends it. -/
def body (st : Step) : List String := closed st.more ++ "" :: (st.lines ++ [""])

/-- All lines of a step but the empty one at its end. -/
def allLines (i : ℕ) (st : Step) : List String :=
  commentLine i st :: (st.more ++ (callLine "stepStart" i st ::
    (st.body ++ (callLine "stepEnd" i st :: closed st.more))))

end Step

/-- The steps one after another. -/
def rendered (steps : List (Step × ℕ)) : String := String.join (steps.map fun p => p.1.render p.2)

/-- The content of a case with declarations of global variables. -/
def content (decl : List String) (steps : List Step) : String :=
  unlines decl ++ "\n" ++ rendered steps.zipIdx

/-- A text over several lines with the closing of a call at its end. -/
theorem unlines_closed (x : String) (ls : List String) :
    "\n".intercalate (x :: ls) ++ "\")\n" =
      unlines ((if ls = [] then x ++ "\")" else x) :: Step.closed ls) := by
  induction ls generalizing x with
  | nil =>
    have hend : "\")\n" = "\")" ++ "\n" := by decide
    rw [String.intercalate_singleton, if_pos rfl, Step.closed, unlines_cons, unlines_nil,
      String.append_empty, hend, String.append_assoc]
  | cons l ls ih =>
    rw [String.intercalate_cons_of_ne_nil (List.cons_ne_nil l ls), String.append_assoc, ih,
      if_neg (List.cons_ne_nil l ls), unlines_cons x]
    congr 2
    cases ls <;> rfl

/-- A call that is logged, and the lines of it. -/
theorem call_eq (call : String) (i : ℕ) (st : Step) :
    call ++ "(\"" ++ i.repr ++ ": " ++ st.stepName ++ "\")\n" =
      unlines (st.callLine call i :: Step.closed st.more) := by
  rw [Step.stepName, ← String.intercalate_cons_append, unlines_closed]
  rfl

/-- The comment of a step, line by line. -/
theorem comment_eq (i : ℕ) (st : Step) :
    setStepComment i st.stepName = unlines (st.commentLine i :: st.more) := by
  rw [setStepComment, Step.stepName, ← String.intercalate_cons_append, intercalate_unlines,
    Step.commentLine]

/-- The text of a step, line by line. -/
theorem render_eq (i : ℕ) (st : Step) : st.render i = unlines (st.allLines i ++ [""]) := by
  have hstart : setStepStartLog i st.stepName =
      unlines (st.callLine "stepStart" i :: Step.closed st.more) ++ unlines [""] := by
    rw [← call_eq, String.append_assoc]
    rfl
  have hend : setStepEndLog i st.stepName =
      unlines [""] ++ unlines (st.callLine "stepEnd" i :: Step.closed st.more) ++ unlines [""] := by
    have hbegin : "\nstepEnd(\"" = "\n" ++ ("stepEnd" ++ "(\"") := by decide
    have hlines : "\")\n\n" = "\")\n" ++ "\n" := by decide
    have hempty : unlines [""] = "\n" := by decide
    rw [← call_eq, setStepEndLog, hbegin, hlines, hempty]
    simp only [String.append_assoc]
  rw [Step.render, comment_eq, hstart, hend, setStepLog, String.empty_append]
  simp only [← unlines_append]
  rw [Step.allLines, Step.body]
  simp only [List.cons_append, List.append_assoc, List.nil_append]

/-- The lines of the content, but the empty one at its end. -/
def contentLines (decl : List String) (steps : List Step) : List String :=
  decl ++ steps.zipIdx.flatMap fun p => "" :: p.1.allLines p.2

/-- The text of a case, line by line. -/
theorem content_eq (decl : List String) (steps : List Step) :
    content decl steps = unlines (contentLines decl steps ++ [""]) := by
  have hsteps : ∀ ps : List (Step × ℕ), "\n" ++ String.join (ps.map fun p => p.1.render p.2) =
      unlines ((ps.flatMap fun p => "" :: p.1.allLines p.2) ++ [""]) := by
    intro ps
    induction ps with
    | nil => rfl
    | cons p ps ih =>
      have hempty : unlines [""] = "\n" := by decide
      rw [List.map_cons, String.join_cons, render_eq, unlines_append, hempty, String.append_assoc, ih,
        List.flatMap_cons, List.cons_append, List.cons_append, unlines_cons, String.empty_append,
        List.append_assoc, unlines_append, unlines_append, unlines_append]
  rw [content, rendered, contentLines, String.append_assoc, hsteps, List.append_assoc,
    unlines_append decl]

/-! ### The content that is generated -/

theorem rendered_append (ps qs : List (Step × ℕ)) :
    rendered (ps ++ qs) = rendered ps ++ rendered qs := by
  rw [rendered, List.map_append, String.join_append]
  rfl

variable (env : Environment)

/-- An action adds whole lines to the script. -/
theorem exists_lines_setAction (action : String) (globalVar : HashSet String) :
    ∃ ls, Single ls ∧ (setAction env action globalVar).1 = unlines ls := by
  rw [setAction]
  cases (handleAction env action).run globalVar with
  | error e globalVar' => exact ⟨[], List.forall_mem_nil _, rfl⟩
  | ok script globalVar' =>
    obtain ⟨l, ls, hscript, hsingle⟩ := exists_unlines (script.getD "null")
    refine ⟨l :: ls, hsingle, ?_⟩
    rw [← intercalate_unlines, ← hscript]

/-- What the actions of a step write are whole lines. -/
theorem exists_lines_actions (actions : List Element) (content : String) (globalVar : HashSet String) :
    ∃ ls globalVar', Single ls ∧ (actions.foldlM (fun content action => do
      return content ++ (← modifyGet (setAction env action.data)) : String → Element → Handler String)
      content).run globalVar = .ok (content ++ unlines ls) globalVar' := by
  induction actions generalizing content globalVar with
  | nil =>
    refine ⟨[], globalVar, List.forall_mem_nil _, ?_⟩
    rw [unlines_nil, String.append_empty]
    rfl
  | cons action actions ih =>
    obtain ⟨ks, hks, haction⟩ := exists_lines_setAction env action.data globalVar
    obtain ⟨ls, globalVar', hls, hrun⟩ := ih (content ++ unlines ks)
      (setAction env action.data globalVar).2
    refine ⟨ks ++ ls, globalVar', List.forall_mem_append.mpr ⟨hks, hls⟩, ?_⟩
    rw [unlines_append, ← String.append_assoc, ← hrun, ← haction]
    rfl

/-- A step of a case is rendered as a step with its name and some lines. -/
theorem exists_step_stepContent {content text : String} {testStep : Element} {i : ℕ}
    {globalVar globalVar' : HashSet String}
    (h : (stepContent env content (testStep, i)).run globalVar = .ok text globalVar') :
    ∃ st : Step, Single (st.name :: (st.more ++ st.lines)) ∧
      testStep.getSubData "name" = .ok st.stepName ∧ text = content ++ st.render i := by
  rw [stepContent, EStateM.run_bind] at h
  cases hname : testStep.getSubData "name" with
  | error e =>
    rw [hname] at h
    cases h
  | ok stepName =>
    rw [hname] at h
    obtain ⟨name, more, hstepName, hsingle⟩ := exists_unlines stepName
    obtain ⟨ls, globalVar₁, hls, hrun⟩ := exists_lines_actions env (testStep.getSubElement "action")
      (content ++ setStepLog i stepName ++ setStepComment i stepName ++ setStepStartLog i stepName)
      globalVar
    obtain ⟨hfirst, hmore⟩ := List.forall_mem_cons.mp hsingle
    refine ⟨⟨name, more, ls⟩,
      List.forall_mem_cons.mpr ⟨hfirst, List.forall_mem_append.mpr ⟨hmore, hls⟩⟩,
      congrArg Except.ok hstepName, ?_⟩
    change EStateM.run (_ >>= _) globalVar = _ at h
    rw [EStateM.run_bind] at h
    erw [hrun] at h
    cases h
    rw [Step.render, Step.stepName, ← hstepName]
    simp only [String.append_assoc, setStepName]

/-- The loop over the steps of a case. -/
theorem exists_steps_foldlM {qs : List Step} (hqs : ∀ st ∈ qs, Single (st.name :: (st.more ++ st.lines)))
    {testSteps : List Element} {text : String} {globalVar globalVar' : HashSet String}
    (h : ((testSteps.zipIdx qs.length).foldlM (stepContent env) (rendered qs.zipIdx)).run globalVar =
      .ok text globalVar') :
    ∃ steps : List Step, (∀ st ∈ steps, Single (st.name :: (st.more ++ st.lines))) ∧
      text = rendered steps.zipIdx := by
  induction testSteps generalizing qs globalVar with
  | nil =>
    cases h
    exact ⟨qs, hqs, rfl⟩
  | cons testStep testSteps ih =>
    rw [List.zipIdx_cons, List.foldlM_cons, EStateM.run_bind] at h
    cases hstep : (stepContent env (rendered qs.zipIdx) (testStep, qs.length)).run globalVar with
    | error e globalVar₁ =>
      rw [hstep] at h
      cases h
    | ok content globalVar₁ =>
      rw [hstep] at h
      obtain ⟨st, hst, -, rfl⟩ := exists_step_stepContent env hstep
      have hnext : rendered qs.zipIdx ++ st.render qs.length = rendered (qs ++ [st]).zipIdx := by
        rw [List.zipIdx_append, rendered_append, Nat.zero_add, List.zipIdx_singleton]
        rfl
      have hsingle := List.forall_mem_append.mpr ⟨hqs, List.forall_mem_singleton.mpr hst⟩
      rw [hnext, ← List.length_singleton (a := st), ← List.length_append] at h
      exact ih hsingle h

/-- **The content of a case** is that of some steps, behind the declarations. -/
theorem exists_steps {root : Element} {text : String} {globalVar globalVar' : HashSet String}
    (h : (caseContent env root).run globalVar = .ok text globalVar') (vars : List String) :
    ∃ steps : List Step, (∀ st ∈ steps, Single (st.name :: (st.more ++ st.lines))) ∧
      declarations vars ++ text = content (vars.map (· ++ " = ''")) steps := by
  have hdecl : declarations vars = unlines (vars.map (· ++ " = ''")) ++ "\n" := by
    have hfold : ∀ globalVars : String,
        vars.foldl (fun globalVars var => globalVars ++ (var ++ " = ''\n")) globalVars =
          globalVars ++ unlines (vars.map (· ++ " = ''")) := by
      have hline : " = ''\n" = " = ''" ++ "\n" := by decide
      induction vars with
      | nil => exact fun globalVars => String.append_empty.symm
      | cons var vars ih =>
        intro globalVars
        rw [List.foldl_cons, ih, List.map_cons, unlines_cons, hline]
        simp only [String.append_assoc]
    rw [declarations, hfold, String.empty_append]
  rw [caseContent, EStateM.run_bind] at h
  cases hname : root.getSubData "name" with
  | error e =>
    rw [hname] at h
    cases h
  | ok nameStr =>
    rw [hname] at h
    change EStateM.run (_ >>= _) globalVar = _ at h
    rw [EStateM.run_bind] at h
    cases hsteps : root.getSubFirstElement "teststeps" with
    | error e =>
      rw [hsteps] at h
      cases h
    | ok testSteps =>
      rw [hsteps] at h
      change EStateM.run (_ >>= _) globalVar = _ at h
      rw [EStateM.run_bind] at h
      cases hrun : ((testSteps.getSubElement "teststep").zipIdx.foldlM (stepContent env) "").run
          globalVar with
      | error e globalVar₁ =>
        erw [hrun] at h
        cases h
      | ok steps globalVar₁ =>
        erw [hrun] at h
        cases h
        obtain ⟨sts, hsts, rfl⟩ := @exists_steps_foldlM env [] (List.forall_mem_nil _) _ _ _ _ hrun
        refine ⟨sts, hsts, ?_⟩
        rw [hdecl, content, rendered, setCaseEndLog, String.append_empty]

/-! ### The lines one after another -/

/-- The end of a line does not matter to a word without line ends. -/
theorem startsWith_newline {w : String} (hw : '\n' ∉ w.toList) (l : String) :
    startsWith (l ++ "\n") w = startsWith l w := by
  rw [startsWith, startsWith, String.toList_append, Bool.eq_iff_iff, List.isPrefixOf_iff_prefix,
    List.isPrefixOf_iff_prefix]
  refine List.prefix_concat_iff.trans (or_iff_right ?_)
  intro h
  exact hw (h ▸ List.mem_append_right _ List.mem_cons_self)

/-- The turn for a line, with the line before it. -/
def contentTurn (prev : Option String) (c : Content) (l : String) : Except Exn Content :=
  if startsWith l "stepStart" then do
    let lastLine := (← inBounds prev) ++ "\n"
    return { c with
      step := c.step ++ ("    " ++ lastLine ++ "    " ++ (l ++ "\n")), stepType := .test, inStep := true }
  else if startsWith l "stepEnd" then
    .ok { c with step := c.step ++ ("    " ++ (l ++ "\n") ++ "\n") }.endStep
  else if c.inStep then
    if startsWith l "setup" then .ok { c with stepType := .setup }
    else if startsWith l "cleanup" then .ok { c with stepType := .cleanup }
    else .ok { c with step := c.step ++ ("    " ++ (l ++ "\n")) }
  else if ¬ startsWith l "# " then .ok { c with commonPart := c.commonPart ++ (l ++ "\n") }
  else .ok c

/-- The loop over the lines, with the line before the first one. -/
def contentTurns : Option String → Content → List String → Except Exn Content
  | _, c, [] => .ok c
  | prev, c, l :: ls => do
    let c ← contentTurn prev c l
    contentTurns (some l) c ls

/-- A turn of the loop by index is one with the line before it. -/
theorem contentLine_eq (done ls : List String) (l : String) (c : Content) :
    contentLine (done ++ l :: ls) c done.length = contentTurn done.getLast? c l := by
  have hline : ArrayList.get (done ++ l :: ls) done.length = .ok l := ArrayList.get_ok (by simp)
  have hlast : ArrayList.get (done ++ l :: ls) ((done.length : ℤ) - 1) = inBounds done.getLast? := by
    induction done using List.reverseRecOn with
    | nil => rfl
    | append_singleton done d _ =>
      rw [List.length_append, List.length_singleton, List.getLast?_concat, List.append_assoc]
      push_cast
      rw [add_sub_cancel_right]
      exact ArrayList.get_ok (by simp)
  rw [contentLine, hline, ok_bind, hlast]
  simp only [startsWith_newline (by decide : '\n' ∉ "stepStart".toList),
    startsWith_newline (by decide : '\n' ∉ "stepEnd".toList),
    startsWith_newline (by decide : '\n' ∉ "setup".toList),
    startsWith_newline (by decide : '\n' ∉ "cleanup".toList),
    startsWith_newline (by decide : '\n' ∉ "# ".toList)]
  rfl

/-- The loop by index is the loop over the lines. -/
theorem contentTurns_eq (done ls : List String) (c : Content) :
    (List.range' done.length ls.length).foldlM (contentLine (done ++ ls)) c =
      contentTurns done.getLast? c ls := by
  induction ls generalizing done c with
  | nil => rfl
  | cons l ls ih =>
    rw [List.length_cons, List.range'_succ, List.foldlM_cons, contentLine_eq, contentTurns]
    congr 1
    funext c'
    have hrest := ih (done ++ [l]) c'
    rw [List.length_append, List.length_singleton, List.append_assoc, List.getLast?_concat] at hrest
    exact hrest

theorem contentTurns_append (prev : Option String) (c : Content) (ls ks : List String) :
    contentTurns prev c (ls ++ ks) =
      contentTurns prev c ls >>= fun c => contentTurns (ls.getLast?.or prev) c ks := by
  induction ls generalizing prev c with
  | nil => rfl
  | cons l ls ih =>
    rw [List.cons_append, contentTurns, contentTurns]
    cases contentTurn prev c l with
    | error e => rfl
    | ok c' =>
      rw [ok_bind, ok_bind, ih, List.getLast?_cons]
      cases ls.getLast? <;> rfl

/-! ### The lines of a step -/

/-- The line starts or ends a step. -/
def Edge (l : String) : Prop := startsWith l "stepStart" = true ∨ startsWith l "stepEnd" = true

/-- The line begins with the word of a marker. -/
def reserved (l : String) : Bool := startsWith l "setup" || startsWith l "cleanup"

/-- The marker actions. -/
def isMarker (l : String) : Bool := l = "setup();" || l = "cleanup();"

/-- The function that a line names, for the loop. -/
def wordOf (l : String) : Option StepType :=
  if startsWith l "setup" then some .setup else if startsWith l "cleanup" then some .cleanup else none

/-- The function that a marker names. -/
def markerOf (l : String) : Option StepType :=
  if l = "setup();" then some .setup else if l = "cleanup();" then some .cleanup else none

/-- The lines that a step keeps, indented. -/
def indented (ls : List String) : String := String.join (ls.map fun l => "    " ++ (l ++ "\n"))

theorem indented_cons (l : String) (ls : List String) :
    indented (l :: ls) = "    " ++ (l ++ "\n") ++ indented ls := by
  rw [indented, List.map_cons, String.join_cons, indented]

theorem indented_append (ls ks : List String) : indented (ls ++ ks) = indented ls ++ indented ks := by
  rw [indented, List.map_append, String.join_append]
  rfl

/-- The lines before the functions. -/
def common (ls : List String) : String := unlines (ls.filter fun l => ¬ startsWith l "# ")

theorem common_append (ls ks : List String) : common (ls ++ ks) = common ls ++ common ks := by
  rw [common, List.filter_append, unlines_append]
  rfl

/-- Outside the steps, each line goes to the part before the functions. -/
theorem contentTurns_outside {c : Content} (hc : c.inStep = false) (prev : Option String)
    {ls : List String} (hls : ∀ l ∈ ls, ¬ Edge l) :
    contentTurns prev c ls = .ok { c with commonPart := c.commonPart ++ common ls } := by
  induction ls generalizing prev c with
  | nil =>
    rw [common, List.filter_nil, unlines_nil, String.append_empty]
    rfl
  | cons l ls ih =>
    rw [List.forall_mem_cons, Edge, not_or] at hls
    have hturn : contentTurn prev c l = .ok { c with commonPart := c.commonPart ++ common [l] } := by
      rw [contentTurn, if_neg hls.1.1, if_neg hls.1.2, hc, if_neg Bool.false_ne_true, common]
      by_cases hcomment : startsWith l "# " = true
      · rw [if_neg (not_not.mpr hcomment), List.filter_cons_of_neg (by simp [hcomment]),
          List.filter_nil, unlines_nil, String.append_empty, ← hc]
      · rw [if_pos hcomment, List.filter_cons_of_pos (by simp [hcomment]), List.filter_nil,
          unlines_cons, unlines_nil, String.append_empty, ← hc]
    rw [contentTurns, hturn, ok_bind]
    refine (ih ?_ (some l) hls.2).trans ?_
    · exact hc
    · rw [String.append_assoc, ← common_append]
      rfl

/-- Inside a step, each line that is not reserved goes to the step. -/
theorem contentTurns_body {c : Content} (hc : c.inStep = true) (prev : Option String)
    {ls : List String} (hls : ∀ l ∈ ls, ¬ Edge l) :
    contentTurns prev c ls = .ok { c with
      step := c.step ++ indented (ls.filter fun l => !reserved l)
      stepType := Latch.after wordOf c.stepType ls } := by
  induction ls generalizing prev c with
  | nil =>
    rw [List.filter_nil, indented, List.map_nil, String.join_nil, String.append_empty]
    rfl
  | cons l ls ih =>
    rw [List.forall_mem_cons, Edge, not_or] at hls
    have hturn : contentTurn prev c l = .ok { c with
        step := c.step ++ indented ([l].filter fun l => !reserved l)
        stepType := (wordOf l).getD c.stepType } := by
      rw [contentTurn, if_neg hls.1.1, if_neg hls.1.2, hc, if_pos rfl, wordOf]
      by_cases hsetup : startsWith l "setup" = true
      · rw [if_pos hsetup, if_pos hsetup, List.filter_cons_of_neg (by simp [reserved, hsetup]),
          List.filter_nil, indented, List.map_nil, String.join_nil, String.append_empty, ← hc]
        rfl
      rw [if_neg hsetup, if_neg hsetup]
      by_cases hcleanup : startsWith l "cleanup" = true
      · rw [if_pos hcleanup, if_pos hcleanup, List.filter_cons_of_neg (by simp [reserved, hcleanup]),
          List.filter_nil, indented, List.map_nil, String.join_nil, String.append_empty, ← hc]
        rfl
      · rw [if_neg hcleanup, if_neg hcleanup, List.filter_cons_of_pos
            (by simp [reserved, hsetup, hcleanup]), List.filter_nil, indented_cons, indented,
          List.map_nil, String.join_nil, String.append_empty, ← hc]
        rfl
    rw [contentTurns, hturn, ok_bind]
    refine (ih ?_ (some l) hls.2).trans ?_
    · exact hc
    · rw [String.append_assoc, ← indented_append, ← List.filter_append]
      rfl

/-! ### The steps -/

namespace Step

/-- No line of the name or of the script starts or ends a step; a line has no line end in it. -/
structure Plain (st : Step) : Prop where
  single : Single (st.name :: (st.more ++ st.lines))
  inner : ∀ l ∈ st.more ++ closed st.more ++ st.lines, ¬ Edge l

/-- What the loop adds for a step. -/
def text (keeps : String → Bool) (i : ℕ) (st : Step) : String :=
  "    " ++ (st.more.getLast?.getD (st.commentLine i) ++ "\n") ++ "    " ++
    (st.callLine "stepStart" i ++ "\n") ++ indented (st.body.filter keeps) ++
      ("    " ++ (st.callLine "stepEnd" i ++ "\n") ++ "\n")

end Step

/-- The steps of a function, in order. -/
def part (kind : Step → StepType) (text : ℕ → Step → String) (k : StepType) (steps : List (Step × ℕ)) :
    String :=
  String.join ((steps.filter fun p => kind p.1 = k).map fun p => text p.2 p.1)

/-- The function that the loop puts a step to, and the lines that it keeps of it. -/
def loopKind (st : Step) : StepType := Latch.after wordOf .test st.body

/-- What the loop adds for a step: the lines without a reserved word. -/
def loopText : ℕ → Step → String := Step.text fun l => !reserved l

/-- The function of the last marker of a step, and all its lines but the markers. -/
def markedKind (st : Step) : StepType := (Latch.last markerOf st.body).getD .test

/-- What is asked for: the lines that are no markers. -/
def markedText : ℕ → Step → String := Step.text fun l => !isMarker l

/-- A line that starts or ends a step begins with its call. -/
theorem callLine_eq (call : String) (i : ℕ) (st : Step) : ∃ r, st.callLine call i = call ++ r := by
  rw [Step.callLine]
  split
  · exact ⟨"(\"" ++ i.repr ++ ": " ++ st.name ++ "\")", by simp only [String.append_assoc]⟩
  · exact ⟨"(\"" ++ i.repr ++ ": " ++ st.name, by simp only [String.append_assoc]⟩

theorem startsWith_append (w r : String) : startsWith (w ++ r) w = true := by
  rw [startsWith, String.toList_append]
  exact List.isPrefixOf_iff_prefix.mpr (List.prefix_append _ _)

/-- The line that starts a step is taken for a start. -/
theorem startsWith_start (i : ℕ) (st : Step) :
    startsWith (st.callLine "stepStart" i) "stepStart" = true := by
  obtain ⟨r, hr⟩ := callLine_eq "stepStart" i st
  rw [hr]
  exact startsWith_append _ _

/-- The line that ends a step is taken for an end only. -/
theorem startsWith_end (i : ℕ) (st : Step) : startsWith (st.callLine "stepEnd" i) "stepEnd" = true ∧
    startsWith (st.callLine "stepEnd" i) "stepStart" = false := by
  obtain ⟨r, hr⟩ := callLine_eq "stepEnd" i st
  have hend : "stepEnd".toList = ['s', 't', 'e', 'p', 'E', 'n', 'd'] := by decide
  rw [hr]
  refine ⟨startsWith_append _ _, ?_⟩
  rw [startsWith, String.toList_append, hend]
  rfl

/-- A comment starts and ends no step. -/
theorem not_edge_comment (i : ℕ) (st : Step) : ¬ Edge (st.commentLine i) := by
  have hcomment : "# ".toList = ['#', ' '] := by decide
  rw [Edge, Step.commentLine, startsWith, startsWith, String.append_assoc, String.append_assoc,
    String.toList_append, hcomment, not_or]
  exact ⟨Bool.false_ne_true, Bool.false_ne_true⟩

/-- An empty line starts and ends no step. -/
theorem not_edge_empty : ¬ Edge "" := by
  rw [Edge]
  decide

/-- The lines of a plain step start and end no step. -/
theorem not_edge_body {st : Step} (h : st.Plain) : ∀ l ∈ st.body, ¬ Edge l := by
  intro l hl
  have hinner := h.inner l
  rw [List.mem_append, List.mem_append] at hinner
  rcases List.mem_append.mp hl with hl | hl
  · exact hinner (.inl (.inr hl))
  rcases List.mem_cons.mp hl with rfl | hl
  · exact not_edge_empty
  rcases List.mem_append.mp hl with hl | hl
  · exact hinner (.inr hl)
  · rw [List.mem_singleton.mp hl]
    exact not_edge_empty

/-- A text is put to one of the functions. -/
def Content.put (c : Content) (k : StepType) (t : String) : Content :=
  match k with
  | .setup => { c with setupPart := c.setupPart ++ t }
  | .cleanup => { c with cleanupPart := c.cleanupPart ++ t }
  | .test => { c with testPart := c.testPart ++ t }
  | .none => c

/-- To end a step puts it to its function. -/
theorem endStep_eq (c : Content) : c.endStep =
    Content.put { c with inStep := false, stepType := .none, step := "" } c.stepType c.step := by
  rw [Content.endStep]
  cases c.stepType <;> rfl

/-- Where a step is put does not change whether one is open. -/
theorem put_inStep (c : Content) (k : StepType) (t : String) :
    (Content.put c k t).inStep = c.inStep := by
  cases k <;> rfl

/-- Where a step is put does not change the part before the functions. -/
theorem put_common (c : Content) (k : StepType) (t x : String) :
    { Content.put c k t with commonPart := (Content.put c k t).commonPart ++ x } =
      Content.put { c with commonPart := c.commonPart ++ x } k t := by
  cases k <;> rfl

/-- The lines of a step that stand outside it. -/
def outside (i : ℕ) (st : Step) : List String :=
  st.commentLine i :: (st.more ++ Step.closed st.more)

/-- The turns of a step put it to one function. -/
theorem contentTurns_step {c : Content} (hin : c.inStep = false) (hstep : c.step = "")
    (htype : c.stepType = .none) (prev : Option String) (i : ℕ) {st : Step} (hst : st.Plain) :
    contentTurns prev c (st.allLines i) =
      .ok (Content.put { c with commonPart := c.commonPart ++ common (outside i st) }
        (loopKind st) (loopText i st)) := by
  have hinner : ∀ l ∈ st.more ++ Step.closed st.more, ¬ Edge l := fun l hl =>
    hst.inner l (List.mem_append_left _ hl)
  have hcomment : ∀ l ∈ st.commentLine i :: st.more, ¬ Edge l :=
    List.forall_mem_cons.mpr ⟨not_edge_comment i st, fun l hl => hinner l (List.mem_append_left _ hl)⟩
  have hclosed : ∀ l ∈ Step.closed st.more, ¬ Edge l :=
    fun l hl => hinner l (List.mem_append_right _ hl)
  have hlast : (st.commentLine i :: st.more).getLast?.or prev =
      some (st.more.getLast?.getD (st.commentLine i)) := by
    rw [List.getLast?_cons, Option.some_or]
  have hbody := contentTurns_body (c := { c with
    step := "    " ++ (st.more.getLast?.getD (st.commentLine i) ++ "\n") ++ "    " ++
      (st.callLine "stepStart" i ++ "\n")
    commonPart := c.commonPart ++ common (st.commentLine i :: st.more)
    stepType := .test
    inStep := true }) rfl (some (st.callLine "stepStart" i)) (not_edge_body hst)
  rw [Step.allLines, ← List.cons_append, contentTurns_append, contentTurns_outside hin prev hcomment,
    ok_bind, hlast, contentTurns, contentTurn, if_pos (startsWith_start i st), inBounds, ok_bind]
  dsimp only
  rw [hstep, String.empty_append]
  change (contentTurns (some (st.callLine "stepStart" i)) _ _) = _
  rw [contentTurns_append, hbody, ok_bind, contentTurns, contentTurn,
    if_neg (ne_true_of_eq_false (startsWith_end i st).2), if_pos (startsWith_end i st).1, ok_bind,
    endStep_eq, contentTurns_outside (put_inStep _ _ _) _ hclosed, put_common]
  dsimp only
  rw [outside, ← List.cons_append, common_append, String.append_assoc, ← hstep, ← htype, ← hin]
  rfl

/-! ### The functions -/

/-- The loop of `setContent` on the lines of a text. -/
def scriptParts (lineList : List String) : Except Exn Content :=
  (List.range lineList.length).foldlM (contentLine lineList)
    ⟨"", "", "def Setup():\n", "\ndef Cleanup():\n", "\ndef Test():\n", false, .none⟩

/-- The script with its functions. -/
def script (commonPart setup test cleanup : String) : String :=
  "<?xml version=\"1.0\" encoding=\"UTF-8\"?>\n" ++
    "<script-case class-id=\"\x7bMTC1078D2ED2DED-20130828-151750016-00000001\x7d\">\n" ++
    "<manual-script><![CDATA[" ++
    (replace commonPart "\n\n" "\n" ++ orPass ("def Setup():\n" ++ setup) "def Setup():\n" ++
      orPass ("\ndef Test():\n" ++ test) "\ndef Test():\n" ++
      orPass ("\ndef Cleanup():\n" ++ cleanup) "\ndef Cleanup():\n") ++
    "]]></manual-script></script-case>"

/-- The lines of the content that stand outside the steps. -/
def outsideLines (decl : List String) (steps : List Step) : List String :=
  decl ++ steps.zipIdx.flatMap fun p => "" :: outside p.2 p.1

/-- The loop after some steps. -/
def stepsContent (commonPart : String) (kind : Step → StepType) (text : ℕ → Step → String)
    (steps : List (Step × ℕ)) : Content where
  step := ""
  commonPart := commonPart
  setupPart := "def Setup():\n" ++ part kind text .setup steps
  cleanupPart := "\ndef Cleanup():\n" ++ part kind text .cleanup steps
  testPart := "\ndef Test():\n" ++ part kind text .test steps
  inStep := false
  stepType := .none

theorem part_append (kind : Step → StepType) (text : ℕ → Step → String) (k : StepType)
    (ps qs : List (Step × ℕ)) :
    part kind text k (ps ++ qs) = part kind text k ps ++ part kind text k qs := by
  rw [part, List.filter_append, List.map_append, String.join_append]
  rfl

theorem part_singleton (kind : Step → StepType) (text : ℕ → Step → String) (k : StepType)
    (p : Step × ℕ) : part kind text k [p] = if kind p.1 = k then text p.2 p.1 else "" := by
  rw [part, List.filter_cons, List.filter_nil]
  by_cases h : kind p.1 = k
  · rw [if_pos h, if_pos (decide_eq_true h)]
    exact String.empty_append
  · rw [if_neg h, if_neg (by simpa using h)]
    rfl

/-- The loop puts a step to one of the three functions. -/
theorem loopKind_ne (st : Step) : loopKind st ≠ .none := by
  have hword : ∀ ls k, k ≠ StepType.none → Latch.after wordOf k ls ≠ .none := by
    intro ls
    induction ls with
    | nil => exact fun k hk => hk
    | cons l ls ih =>
      intro k hk
      refine ih _ ?_
      change (wordOf l).getD k ≠ .none
      rw [wordOf]
      split
      · rintro ⟨⟩
      split
      · rintro ⟨⟩
      · exact hk
  exact hword st.body .test (by rintro ⟨⟩)

/-- One step more goes behind those of its function. -/
theorem put_stepsContent (commonPart : String) {kind : Step → StepType} {text : ℕ → Step → String}
    (ps : List (Step × ℕ)) {p : Step × ℕ} (hp : kind p.1 ≠ .none) :
    Content.put (stepsContent commonPart kind text ps) (kind p.1) (text p.2 p.1) =
      stepsContent commonPart kind text (ps ++ [p]) := by
  rw [stepsContent, stepsContent, part_append, part_append, part_append, part_singleton, part_singleton,
    part_singleton]
  cases hk : kind p.1 with
  | none => exact absurd hk hp
  | setup => simp [Content.put, String.append_assoc]
  | cleanup => simp [Content.put, String.append_assoc]
  | test => simp [Content.put, String.append_assoc]

/-- The loop over the lines of some steps puts each to its function. -/
theorem contentTurns_steps {commonPart : String} {qs ps : List (Step × ℕ)}
    (hps : ∀ p ∈ ps, p.1.Plain) (prev : Option String) :
    contentTurns prev (stepsContent commonPart loopKind loopText qs)
        (ps.flatMap fun p => "" :: p.1.allLines p.2) =
      .ok (stepsContent (commonPart ++ common (ps.flatMap fun p => "" :: outside p.2 p.1)) loopKind
        loopText (qs ++ ps)) := by
  induction ps generalizing commonPart qs prev with
  | nil =>
    rw [List.append_nil]
    exact congrArg (fun t => Except.ok (stepsContent t loopKind loopText qs)) String.append_empty.symm
  | cons p ps ih =>
    rw [List.forall_mem_cons] at hps
    have hempty := contentTurns_outside (c := stepsContent commonPart loopKind loopText qs) rfl prev
      (List.forall_mem_singleton.mpr not_edge_empty)
    have hstep := contentTurns_step (c := stepsContent (commonPart ++ common [""]) loopKind loopText qs)
      rfl rfl rfl (some "") p.2 hps.1
    have hput :=
      @put_stepsContent (commonPart ++ common [""] ++ common (outside p.2 p.1)) _ loopText qs _
      (loopKind_ne p.1)
    rw [List.flatMap_cons, ← List.singleton_append, List.append_assoc, contentTurns_append, hempty,
      ok_bind]
    change contentTurns (some "") (stepsContent (commonPart ++ common [""]) loopKind loopText qs) _ = _
    rw [contentTurns_append, hstep, ok_bind]
    change contentTurns _ (Content.put (stepsContent (commonPart ++ common [""] ++
      common (outside p.2 p.1)) loopKind loopText qs) _ (loopText p.2 p.1)) _ = _
    have hcommon : common ("" :: outside p.2 p.1) = common [""] ++ common (outside p.2 p.1) :=
      common_append [""] (outside p.2 p.1)
    rw [hput, ih hps.2, List.append_assoc, List.flatMap_cons, common_append, hcommon,
      String.append_assoc, String.append_assoc, String.append_assoc]
    rfl

/-! ### The lines of the content -/

/-- The lines that declare the global variables. -/
structure Declaring (decl : List String) : Prop where
  single : Single decl
  inner : ∀ l ∈ decl, ¬ Edge l
  last : decl.getLast? ≠ some ""

/-- A number has no line end in it. -/
theorem newline_notMem_repr (i : ℕ) : '\n' ∉ i.repr.toList := by
  intro h
  rw [Nat.toList_repr] at h
  cases Nat.isDigit_of_mem_toDigits (by decide) (by decide) h

/-- To close a call breaks no line. -/
theorem single_closed {ls : List String} (h : Single ls) : Single (Step.closed ls) := by
  induction ls with
  | nil => exact h
  | cons l ls ih =>
    rw [Single, List.forall_mem_cons] at h
    cases ls with
    | nil =>
      refine List.forall_mem_singleton.mpr ?_
      rw [notMem_append]
      exact ⟨h.1, by decide⟩
    | cons k ls => exact List.forall_mem_cons.mpr ⟨h.1, ih h.2⟩

/-- The line of a call is one line. -/
theorem single_callLine {call : String} (hcall : '\n' ∉ call.toList) (i : ℕ) {st : Step}
    (hname : '\n' ∉ st.name.toList) : '\n' ∉ (st.callLine call i).toList := by
  have hline : '\n' ∉ (call ++ "(\"" ++ i.repr ++ ": " ++ st.name).toList := by
    rw [notMem_append, notMem_append, notMem_append, notMem_append]
    exact ⟨⟨⟨⟨hcall, by decide⟩, newline_notMem_repr i⟩, by decide⟩, hname⟩
  rw [Step.callLine]
  split
  · rw [notMem_append]
    exact ⟨hline, by decide⟩
  · exact hline

theorem single_append {ls ks : List String} (hls : Single ls) (hks : Single ks) : Single (ls ++ ks) :=
  List.forall_mem_append.mpr ⟨hls, hks⟩

/-- The lines of a plain step are lines. -/
theorem single_allLines (i : ℕ) {st : Step} (hst : st.Plain) : Single (st.allLines i) := by
  obtain ⟨hname, hrest⟩ := List.forall_mem_cons.mp hst.single
  obtain ⟨hmore, hlines⟩ := List.forall_mem_append.mp hrest
  have hcomment : '\n' ∉ (st.commentLine i).toList := by
    rw [Step.commentLine, notMem_append, notMem_append, notMem_append]
    exact ⟨⟨⟨by decide, newline_notMem_repr i⟩, by decide⟩, hname⟩
  have hempty : '\n' ∉ "".toList := List.not_mem_nil
  have hbody : Single st.body := single_append (single_closed hmore)
    (List.forall_mem_cons.mpr ⟨hempty, single_append hlines (List.forall_mem_singleton.mpr hempty)⟩)
  refine List.forall_mem_cons.mpr ⟨hcomment, single_append hmore (List.forall_mem_cons.mpr
    ⟨single_callLine (by decide) i hname, single_append hbody (List.forall_mem_cons.mpr
      ⟨single_callLine (by decide) i hname, single_closed hmore⟩)⟩)⟩

/-- A closed call is not empty. -/
theorem append_closing_ne (x : String) : x ++ "\")" ≠ "" := by
  intro h
  have htext := congrArg String.toList h
  rw [String.toList_append] at htext
  exact absurd (List.append_eq_nil_iff.mp htext).2 (by decide)

/-- The closed lines do not end with an empty one. -/
theorem getLast?_closed (ls : List String) : (Step.closed ls).getLast? ≠ some "" := by
  induction ls with
  | nil => rintro ⟨⟩
  | cons l ls ih =>
    cases ls with
    | nil => exact fun h => append_closing_ne l (Option.some.inj h)
    | cons k ls =>
      rw [Step.closed, List.getLast?_cons]
      cases hlast : (Step.closed (k :: ls)).getLast? with
      | none =>
        cases ls <;> cases List.getLast?_eq_none_iff.mp hlast
      | some x =>
        intro h
        exact ih (hlast.trans h)

/-- Nor do two parts neither of which does. -/
theorem getLast?_append_ne {ls ks : List String} (hls : ls.getLast? ≠ some "")
    (hks : ks.getLast? ≠ some "") : (ls ++ ks).getLast? ≠ some "" := by
  rw [List.getLast?_append]
  cases h : ks.getLast? with
  | none => exact hls
  | some x => exact fun he => hks (h.trans he)

/-- The lines of a step do not end with an empty one. -/
theorem getLast?_allLines (i : ℕ) (st : Step) : (st.allLines i).getLast? ≠ some "" := by
  obtain ⟨r, hr⟩ := callLine_eq "stepEnd" i st
  have hend : st.callLine "stepEnd" i ≠ "" := by
    intro h
    rw [hr] at h
    have htext := congrArg String.toList h
    rw [String.toList_append] at htext
    exact absurd (List.append_eq_nil_iff.mp htext).1 (by decide)
  have hlast : (st.callLine "stepEnd" i :: Step.closed st.more).getLast? ≠ some "" := by
    rw [← List.singleton_append]
    exact getLast?_append_ne (fun h => hend (Option.some.inj h)) (getLast?_closed st.more)
  have happend :
      st.allLines i = (st.commentLine i :: (st.more ++ st.callLine "stepStart" i :: st.body)) ++
      st.callLine "stepEnd" i :: Step.closed st.more := by
    rw [Step.allLines, List.cons_append, List.append_assoc, List.cons_append]
  rw [happend, List.getLast?_append_of_ne_nil _ (List.cons_ne_nil _ _)]
  exact hlast

/-- The lines of a case do not end with an empty one. -/
theorem getLast?_contentLines {decl : List String} (hdecl : Declaring decl) (steps : List Step) :
    (contentLines decl steps).getLast? ≠ some "" := by
  have hsteps : ∀ ps : List (Step × ℕ),
      (ps.flatMap fun p => "" :: p.1.allLines p.2).getLast? ≠ some "" := by
    intro ps
    induction ps with
    | nil => rintro ⟨⟩
    | cons p ps ih =>
      refine getLast?_append_ne ?_ ih
      have hne : p.1.allLines p.2 ≠ [] := List.cons_ne_nil _ _
      change ([""] ++ p.1.allLines p.2).getLast? ≠ some ""
      rw [List.getLast?_append_of_ne_nil _ hne]
      exact getLast?_allLines p.2 p.1
  exact getLast?_append_ne hdecl.last (hsteps steps.zipIdx)

/-- Splitting the text of a case gives its lines. -/
theorem split_content {decl : List String} {steps : List Step} (hdecl : Declaring decl)
    (hsteps : ∀ st ∈ steps, st.Plain) :
    split (content decl steps) "\n" = contentLines decl steps := by
  have hempty : '\n' ∉ "".toList := List.not_mem_nil
  have hsingle : Single (contentLines decl steps ++ [""]) := by
    refine single_append (single_append hdecl.single ?_) (List.forall_mem_singleton.mpr hempty)
    intro l hl
    obtain ⟨p, hp, hl⟩ := List.mem_flatMap.mp hl
    rcases List.mem_cons.mp hl with rfl | hl
    · exact hempty
    · exact single_allLines p.2 (hsteps p.1 (List.fst_mem_of_mem_zipIdx hp)) l hl
  rw [content_eq, split_unlines hsingle (by simp),
    rdropWhile_concat (getLast?_contentLines hdecl steps)]

/-- **Where the steps go.**  `setContent` puts each step to the function of the last line in it that
begins with the word of a marker, without the lines that do. -/
theorem setContent_eq {decl : List String} {steps : List Step} (hdecl : Declaring decl)
    (hsteps : ∀ st ∈ steps, st.Plain) :
    setContent (content decl steps) = .ok (script (common (outsideLines decl steps))
      (part loopKind loopText .setup steps.zipIdx) (part loopKind loopText .test steps.zipIdx)
      (part loopKind loopText .cleanup steps.zipIdx)) := by
  have hloop : scriptParts (contentLines decl steps) =
      .ok (stepsContent (common (outsideLines decl steps)) loopKind loopText steps.zipIdx) := by
    have hturns := contentTurns_eq [] (contentLines decl steps) (stepsContent "" loopKind loopText [])
    have hps : ∀ p ∈ steps.zipIdx, p.1.Plain := fun p hp =>
      hsteps p.1 (List.fst_mem_of_mem_zipIdx hp)
    have hinit : stepsContent "" loopKind loopText [] =
        ⟨"", "", "def Setup():\n", "\ndef Cleanup():\n", "\ndef Test():\n", false, .none⟩ := by rfl
    rw [List.nil_append, List.length_nil, ← List.range_eq_range', hinit] at hturns
    have hdeclared := contentTurns_outside (c := stepsContent "" loopKind loopText []) rfl none
      hdecl.inner
    rw [scriptParts, hturns, contentLines, contentTurns_append, ← hinit, List.getLast?_nil, hdeclared,
      ok_bind]
    refine (contentTurns_steps hps _).trans ?_
    rw [List.nil_append, outsideLines, common_append decl, ← String.empty_append (s := common decl)]
    rfl
  have hset : setContent (content decl steps) = scriptParts (contentLines decl steps) >>= fun c =>
      .ok ("<?xml version=\"1.0\" encoding=\"UTF-8\"?>\n" ++
        "<script-case class-id=\"\x7bMTC1078D2ED2DED-20130828-151750016-00000001\x7d\">\n" ++
        "<manual-script><![CDATA[" ++
        (replace c.commonPart "\n\n" "\n" ++ orPass c.setupPart "def Setup():\n" ++
          orPass c.testPart "\ndef Test():\n" ++ orPass c.cleanupPart "\ndef Cleanup():\n") ++
        "]]></manual-script></script-case>") := by
    rw [setContent, split_content hdecl hsteps]
    rfl
  rw [hset, hloop]
  rfl

/-! ### The lines that are lost -/

/-- How often the letter is in a text that both markers have and the functions without steps do not. -/
def letters (s : String) : ℕ := s.toList.count 'u'

theorem letters_append (s t : String) : letters (s ++ t) = letters s + letters t := by
  rw [letters, String.toList_append, List.count_append]
  rfl

/-- The letters of a joined text are those of its parts. -/
theorem letters_join {α : Type} (f : α → String) (l : List α) :
    letters (String.join (l.map f)) = (l.map fun a => letters (f a)).sum := by
  induction l with
  | nil => rfl
  | cons a l ih => rw [List.map_cons, String.join_cons, letters_append, ih, List.map_cons, List.sum_cons]

/-- A function without steps has `pass`, which has no such letter. -/
theorem letters_orPass (begins t : String) :
    letters (orPass (begins ++ t) begins) = letters begins + letters t := by
  have hpass : letters "    pass\n" = 0 := by decide
  rw [orPass]
  split
  · rw [letters_append, letters_append, hpass, Nat.add_zero]
  · rw [letters_append]

/-- The letters of a script, part by part. -/
theorem letters_layout (h x d e f z setup test cleanup : String) :
    letters (h ++ (x ++ orPass (d ++ setup) d ++ orPass (e ++ test) e ++ orPass (f ++ cleanup) f) ++ z) =
      letters h + letters x + letters d + letters e + letters f + letters z +
        (letters setup + letters test + letters cleanup) := by
  rw [letters_append, letters_append h, letters_append, letters_append, letters_append, letters_orPass,
    letters_orPass, letters_orPass]
  omega

/-- The functions have the letters of the script, but some that do not depend on the steps. -/
theorem letters_script (commonPart : String) : ∃ n, ∀ setup test cleanup,
    letters (script commonPart setup test cleanup) =
      n + (letters setup + letters test + letters cleanup) :=
  ⟨_, fun setup test cleanup => letters_layout _ _ _ _ _ _ setup test cleanup⟩

/-- The letters of indented lines are those of the lines. -/
theorem letters_indented (ls : List String) : letters (indented ls) = (ls.map letters).sum := by
  have hline : ∀ l, letters ("    " ++ (l ++ "\n")) = letters l := by
    intro l
    have hblank : letters "    " = 0 := by decide
    have hend : letters "\n" = 0 := by decide
    rw [letters_append, letters_append, hblank, hend, Nat.zero_add, Nat.add_zero]
  rw [indented, letters_join]
  simp only [hline]

/-- Together the functions have the steps. -/
theorem letters_parts {kind : Step → StepType} (text : ℕ → Step → String) (hkind : ∀ st, kind st ≠ .none)
    (ps : List (Step × ℕ)) :
    letters (part kind text .setup ps) + letters (part kind text .test ps) +
      letters (part kind text .cleanup ps) = (ps.map fun p => letters (text p.2 p.1)).sum := by
  induction ps with
  | nil => rfl
  | cons p ps ih =>
    have hcons : ∀ k, letters (part kind text k (p :: ps)) =
        (if kind p.1 = k then letters (text p.2 p.1) else 0) + letters (part kind text k ps) := by
      intro k
      rw [← List.singleton_append, part_append, part_singleton, letters_append]
      split <;> rfl
    rw [hcons, hcons, hcons, List.map_cons, List.sum_cons, ← ih]
    cases hk : kind p.1 with
    | none => exact absurd hk (hkind p.1)
    | setup => simp; omega
    | test => simp; omega
    | cleanup => simp; omega

/-- A marker has a reserved word. -/
theorem reserved_of_isMarker {l : String} (h : isMarker l = true) : reserved l = true := by
  rw [isMarker, Bool.or_eq_true, decide_eq_true_iff, decide_eq_true_iff] at h
  rcases h with rfl | rfl <;> decide

/-- A reserved word has the letter. -/
theorem letters_of_reserved {l : String} (h : reserved l = true) : 0 < letters l := by
  have hmem : ∀ w : String, 'u' ∈ w.toList → startsWith l w = true → 0 < letters l := by
    intro w hw hl
    exact List.count_pos_iff.mpr ((List.isPrefixOf_iff_prefix.mp hl).subset hw)
  rcases Bool.or_eq_true_iff.mp h with h | h
  · exact hmem "setup" (by decide) h
  · exact hmem "cleanup" (by decide) h

/-- Leaving out more lines leaves fewer letters, strictly where a line with a reserved word is no
marker. -/
theorem sum_filter_le (ls : List String) :
    ((ls.filter fun l => !reserved l).map letters).sum ≤
        ((ls.filter fun l => !isMarker l).map letters).sum ∧
      ((∃ l ∈ ls, reserved l = true ∧ isMarker l = false) →
        ((ls.filter fun l => !reserved l).map letters).sum <
          ((ls.filter fun l => !isMarker l).map letters).sum) := by
  induction ls with
  | nil => exact ⟨le_rfl, by rintro ⟨l, hl, -⟩; cases hl⟩
  | cons l ls ih =>
    obtain ⟨hle, hlt⟩ := ih
    rw [List.filter_cons, List.filter_cons, List.exists_mem_cons_iff]
    cases hreserved : reserved l with
    | false =>
      have hmarker : isMarker l = false := by
        by_contra h
        exact Bool.false_ne_true (hreserved.symm.trans (reserved_of_isMarker (eq_true_of_ne_false h)))
      rw [hmarker, Bool.not_false, if_pos rfl, if_pos rfl, List.map_cons, List.map_cons, List.sum_cons,
        List.sum_cons]
      refine ⟨Nat.add_le_add_left hle _, ?_⟩
      rintro (⟨h, -⟩ | h)
      · cases h
      · exact Nat.add_lt_add_left (hlt h) _
    | true =>
      cases hmarker : isMarker l with
      | true =>
        rw [Bool.not_true, if_neg Bool.false_ne_true, if_neg Bool.false_ne_true]
        refine ⟨hle, ?_⟩
        rintro (⟨-, h⟩ | h)
        · cases h
        · exact hlt h
      | false =>
        have hpos := letters_of_reserved hreserved
        rw [Bool.not_true, if_neg Bool.false_ne_true, Bool.not_false, if_pos rfl, List.map_cons,
          List.sum_cons]
        have hless := Nat.lt_of_le_of_lt hle (Nat.lt_add_of_pos_left hpos)
        exact ⟨hless.le, fun _ => hless⟩

/-- The letters of a step: those of its frame and of the lines kept. -/
theorem letters_textOf (keeps : String → Bool) (i : ℕ) (st : Step) :
    letters (st.text keeps i) =
      letters ("    " ++ (st.more.getLast?.getD (st.commentLine i) ++ "\n") ++ "    " ++
        (st.callLine "stepStart" i ++ "\n")) + ((st.body.filter keeps).map letters).sum +
      letters ("    " ++ (st.callLine "stepEnd" i ++ "\n") ++ "\n") := by
  rw [Step.text, letters_append, letters_append _ (indented _), letters_indented]

/-- The loop keeps no more of a step than it should, and less where it loses a line. -/
theorem letters_text (i : ℕ) (st : Step) : letters (loopText i st) ≤ letters (markedText i st) ∧
    ((∃ l ∈ st.body, reserved l = true ∧ isMarker l = false) →
      letters (loopText i st) < letters (markedText i st)) := by
  obtain ⟨hle, hlt⟩ := sum_filter_le st.body
  rw [loopText, markedText, letters_textOf, letters_textOf]
  exact ⟨Nat.add_le_add_right (Nat.add_le_add_left hle _) _,
    fun h => Nat.add_lt_add_right (Nat.add_lt_add_left (hlt h) _) _⟩

/-- A marker stands for a function. -/
theorem markerOf_ne {l : String} {k : StepType} (h : markerOf l = some k) : k ≠ .none := by
  rw [markerOf] at h
  split at h
  · cases h
    rintro ⟨⟩
  split at h
  · cases h
    rintro ⟨⟩
  · cases h

/-- Each step is put to a function. -/
theorem markedKind_ne (st : Step) : markedKind st ≠ .none := by
  rw [markedKind]
  cases h : Latch.last markerOf st.body with
  | none => rintro ⟨⟩
  | some k =>
    obtain ⟨l, -, hl⟩ := List.mem_filterMap.mp (List.mem_of_getLast? h)
    exact markerOf_ne hl

/-- Where only markers begin with their words, the loop does what the markers say. -/
theorem markerOf_eq {l : String} (h : reserved l = true → isMarker l = true) :
    wordOf l = markerOf l ∧ (!reserved l) = !isMarker l := by
  cases hreserved : reserved l with
  | false =>
    obtain ⟨hsetup, hcleanup⟩ := Bool.or_eq_false_iff.mp hreserved
    have hmarker : isMarker l = false := by
      by_contra hl
      exact Bool.false_ne_true (hreserved.symm.trans (reserved_of_isMarker (eq_true_of_ne_false hl)))
    have hne := hmarker
    rw [isMarker, Bool.or_eq_false_iff, decide_eq_false_iff_not, decide_eq_false_iff_not] at hne
    rw [wordOf, markerOf, hsetup, hcleanup, if_neg Bool.false_ne_true, if_neg Bool.false_ne_true,
      if_neg hne.1, if_neg hne.2, hmarker]
    exact ⟨rfl, rfl⟩
  | true =>
    have hmarker := h hreserved
    have hl := hmarker
    rw [isMarker, Bool.or_eq_true, decide_eq_true_iff, decide_eq_true_iff] at hl
    rw [hmarker]
    refine ⟨?_, rfl⟩
    rcases hl with rfl | rfl <;> decide

/-- Where only markers hold reserved words, the loop does what is asked for. -/
theorem loop_eq {st : Step} (h : ∀ l ∈ st.body, reserved l = true → isMarker l = true) :
    loopKind st = markedKind st ∧ ∀ i, loopText i st = markedText i st := by
  constructor
  · rw [loopKind, Latch.after_eq, markedKind, Latch.last, Latch.last]
    rw [List.filterMap_congr fun l hl => (markerOf_eq (h l hl)).1]
  · intro i
    rw [loopText, markedText, Step.text, Step.text]
    rw [List.filter_congr fun l hl => (markerOf_eq (h l hl)).2]

/-- **When the lines of the steps go where they should.**  The script has each line of each step but
the markers once, indented and in order, in the function that the last marker of the step names or in
`Test`, exactly when no line of a step but the markers begins with the word of a marker. -/
theorem setContent_iff {decl : List String} {steps : List Step} (hdecl : Declaring decl)
    (hsteps : ∀ st ∈ steps, st.Plain) :
    setContent (content decl steps) = .ok (script (common (outsideLines decl steps))
      (part markedKind markedText .setup steps.zipIdx) (part markedKind markedText .test steps.zipIdx)
      (part markedKind markedText .cleanup steps.zipIdx)) ↔
    ∀ st ∈ steps, ∀ l ∈ st.body, reserved l = true → isMarker l = true := by
  rw [setContent_eq hdecl hsteps]
  constructor
  · intro h st hst l hl hreserved
    by_contra hmarker
    obtain ⟨n, hn⟩ := letters_script (common (outsideLines decl steps))
    have hcount := congrArg letters (Except.ok.inj h)
    rw [hn, hn, letters_parts _ loopKind_ne, letters_parts _ markedKind_ne] at hcount
    obtain ⟨i, hi⟩ := List.getElem?_of_mem hst
    have hless : (steps.zipIdx.map fun p => letters (loopText p.2 p.1)).sum <
        (steps.zipIdx.map fun p => letters (markedText p.2 p.1)).sum := by
      refine List.sum_lt_sum _ _ (fun p _ => (letters_text p.2 p.1).1) ⟨(st, i), ?_, ?_⟩
      · exact List.mem_zipIdx_iff_getElem?.mpr hi
      · exact (letters_text i st).2 ⟨l, hl, hreserved, eq_false_of_ne_true hmarker⟩
    omega
  · intro h
    have hpart :
        ∀ k, part loopKind loopText k steps.zipIdx = part markedKind markedText k steps.zipIdx := by
      intro k
      have hmem : ∀ p ∈ steps.zipIdx, p.1 ∈ steps := fun p hp => List.fst_mem_of_mem_zipIdx hp
      have hkind : steps.zipIdx.filter (fun p => loopKind p.1 = k) =
          steps.zipIdx.filter fun p => markedKind p.1 = k :=
        List.filter_congr fun p hp => by rw [(loop_eq (h p.1 (hmem p hp))).1]
      rw [part, part, hkind]
      refine congrArg String.join (List.map_congr_left ?_)
      intro p hp
      exact (loop_eq (h p.1 (hmem p (List.mem_filter.mp hp).1))).2 p.2
    rw [hpart, hpart, hpart]

theorem setContent_iff_marked :
    (Declaring ["total = ''"] ∧
      ∀ st ∈ [(⟨"log in", [], ["setup();", "query(1)"]⟩ : Step)], st.Plain) ∧
    (setContent (content ["total = ''"] [⟨"log in", [], ["setup();", "query(1)"]⟩]) =
      .ok (script (common (outsideLines ["total = ''"] [⟨"log in", [], ["setup();", "query(1)"]⟩]))
        (part markedKind markedText .setup [(⟨"log in", [], ["setup();", "query(1)"]⟩, 0)])
        (part markedKind markedText .test [(⟨"log in", [], ["setup();", "query(1)"]⟩, 0)])
        (part markedKind markedText .cleanup [(⟨"log in", [], ["setup();", "query(1)"]⟩, 0)])) ↔
    ∀ st ∈ [(⟨"log in", [], ["setup();", "query(1)"]⟩ : Step)], ∀ l ∈ st.body,
      reserved l = true → isMarker l = true) := by
  have hdecl : Declaring ["total = ''"] := by
    refine ⟨List.forall_mem_singleton.mpr (by decide), List.forall_mem_singleton.mpr ?_, by decide⟩
    rw [Edge]
    decide
  have hstep : ∀ st ∈ [(⟨"log in", [], ["setup();", "query(1)"]⟩ : Step)], st.Plain := by
    refine List.forall_mem_singleton.mpr ⟨by unfold Single; decide, ?_⟩
    unfold Edge
    decide
  exact ⟨⟨hdecl, hstep⟩, setContent_iff hdecl hstep⟩

/-- A line that sets `setupDb` is lost, and its step is run before the test. -/
theorem not_setContent_setupDb :
    setContent (content [] [⟨"connect", [], ["setupDb = 1", "query(1)"]⟩]) =
      .ok (script (common (outsideLines [] [⟨"connect", [], ["setupDb = 1", "query(1)"]⟩]))
        (part loopKind (Step.text fun l => l ≠ "setupDb = 1") .setup
          [(⟨"connect", [], ["setupDb = 1", "query(1)"]⟩, 0)]) "" "") ∧
    setContent (content [] [⟨"connect", [], ["setupDb = 1", "query(1)"]⟩]) ≠
      .ok (script (common (outsideLines [] [⟨"connect", [], ["setupDb = 1", "query(1)"]⟩]))
        (part markedKind markedText .setup [(⟨"connect", [], ["setupDb = 1", "query(1)"]⟩, 0)])
        (part markedKind markedText .test [(⟨"connect", [], ["setupDb = 1", "query(1)"]⟩, 0)])
        (part markedKind markedText .cleanup [(⟨"connect", [], ["setupDb = 1", "query(1)"]⟩, 0)])) := by
  decide +kernel

end MGenCase

end MBT
