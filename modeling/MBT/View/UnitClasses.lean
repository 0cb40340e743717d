import MBT.View.UnitHandlers

/-!
# View — UnitClasses

The classes of PHPUnit and JUnit: the translated actions of a case, line by line in front of a tab,
in the braces of the class.

* `UnitAction.scan_handle`: the code of a call has the brackets of its template.
* `ClassView.balanced_class_iff`: the brackets of a class are closed exactly when its name has its own
  closed and there is no `tearDown` of PHPUnit in it.
-/

namespace MBT
open Exec Text Brackets

/-- A step of a case, with the calls of its actions. -/
structure UnitStep where
  name : String
  actions : List Action

/-- The views that put the content of a case into a class. -/
inductive ClassView where
  | jUnit | pHPUnit
  deriving DecidableEq

namespace ClassView

/-- The view whose classes are generated. -/
def view : ClassView → UnitView
  | jUnit => .jUnit
  | pHPUnit => .pHPUnit

/-- What stands before a step. -/
def setStepStartLog : ClassView → String
  | jUnit => ""
  | pHPUnit => "\n"

/-- `genCaseContent`, whose other texts are empty. -/
def genCaseContent (v : ClassView) (steps : List UnitStep) : String :=
  String.join (steps.map fun step =>
    v.setStepStartLog ++ String.join (step.actions.map fun action => v.view.setAction action.line))

/-- The lines, indented. -/
def addTab (content : String) : String :=
  String.join ((split content "\n").map fun line => "    " ++ line ++ "\n")

/-- The imports of a class. -/
def head : String :=
  "\nimport static org.junit.Assert.*;\n" ++
    ("import org.junit.After;\n" ++
      ("import org.junit.Before;\n" ++
        ("import org.junit.Ignore;\n" ++
          "import org.junit.Test;\n\n")))

/-- `handleVars` up to `genCase`. -/
def handleVars : ClassView → String → String → String
  | jUnit, content, caseName =>
    let classs := "public class " ++ caseName ++ "\n\x7b\n"
    head ++ classs ++ addTab content ++ "\n\x7d"
  | pHPUnit, content, caseName =>
    let classs := "class " ++ caseName ++ " extends PHPUnit_Framework_TestCase \n\x7b\n"
    "<?php\n" ++ classs ++ addTab content ++ "\n\x7d\n?>\n"

/-- The actions that the handler of the view knows. -/
def knows (v : ClassView) (name : String) : Prop :=
  (∃ a ∈ unitActions, a.view = v.view ∧ a.name = name) ∨
    v = jUnit ∧ (name = "before" ∨ name = "after")

end ClassView

/-! ### The brackets of a template -/

namespace Template

/-- The template around empty arguments. -/
def skeleton : Template → List Char
  | whole before after => before.toList ++ after.toList
  | twice before between after => before.toList ++ (between.toList ++ after.toList)
  | pair before between after => before.toList ++ (between.toList ++ after.toList)
  | test => "\n@Test(".toList ++ ")\n".toList

/-- What is got is in the list. -/
theorem mem_of_get {l : List String} {i : ℕ} {p : String} (h : ArrayList.get l i = .ok p) : p ∈ l :=
  List.mem_of_getElem? (ArrayList.get_eq_ok.mp h)

theorem balanced_plain : Balanced "@Test\n".toList := by decide

theorem balanced_test : Balanced ("\n@Test(".toList ++ ")\n".toList) := by decide

/-- Balanced arguments leave the brackets of a template as they are. -/
theorem scan_code {t : Template} {varlist : List String} {code : String}
    (hvars : ∀ var ∈ varlist, Balanced var.toList) (hcode : t.code varlist = .ok code)
    (stack : List Char) : scan stack code.toList = scan stack t.skeleton := by
  cases t with
  | whole before after =>
    obtain ⟨var, hvar, hcode⟩ := bind_eq_ok.mp hcode
    cases hcode
    rw [String.toList_append, String.toList_append, List.append_assoc]
    exact scan_insert (hvars var (mem_of_get hvar)) stack _ _
  | twice before between after =>
    obtain ⟨var, hvar, hcode⟩ := bind_eq_ok.mp hcode
    cases hcode
    have hbal := hvars var (mem_of_get hvar)
    simp only [String.toList_append, List.append_assoc]
    rw [scan_insert hbal, ← List.append_assoc, scan_insert hbal, List.append_assoc]
    rfl
  | pair before between after =>
    obtain ⟨var1, hvar1, hcode⟩ := bind_eq_ok.mp hcode
    obtain ⟨var2, hvar2, hcode⟩ := bind_eq_ok.mp hcode
    cases hcode
    simp only [String.toList_append, List.append_assoc]
    rw [scan_insert (hvars var1 (mem_of_get hvar1)), ← List.append_assoc,
      scan_insert (hvars var2 (mem_of_get hvar2)), List.append_assoc]
    rfl
  | test =>
    obtain ⟨expression, hvar, hcode⟩ := bind_eq_ok.mp hcode
    by_cases hblank : trim expression = ""
    · have hplain := Except.ok.inj ((if_pos hblank).symm.trans hcode)
      subst hplain
      exact (balanced_plain.scan stack).trans (balanced_test.scan stack).symm
    · have htest := Except.ok.inj ((if_neg hblank).symm.trans hcode)
      subst htest
      rw [String.toList_append, String.toList_append, List.append_assoc]
      exact scan_insert (hvars expression (mem_of_get hvar)) stack _ _

end Template

/-! ### The brackets of an action -/

namespace UnitAction
open MQTestActionHandler

/-- Balanced parameters joined by a balanced text are balanced. -/
theorem balanced_intercalate {p : String} {params : List String}
    (h : ∀ q ∈ p :: params, Balanced q.toList) :
    Balanced ("\", \"".intercalate (p :: params)).toList := by
  have hsep : Balanced "\", \"".toList := by decide
  induction params generalizing p with
  | nil =>
    rw [String.intercalate_singleton]
    exact h p List.mem_cons_self
  | cons q params ih =>
    rw [String.intercalate_cons_cons, String.toList_append, String.toList_append, List.append_assoc]
    obtain ⟨hp, hparams⟩ := List.forall_mem_cons.mp h
    exact hp.append (hsep.append (ih hparams))

/-- What is read of a call with balanced arguments is balanced. -/
theorem balanced_decode {name p : String} {h : UnitHandler} {params varlist : List String}
    (hname : Named name) (hindex : h.beginIndex = name.length + 2)
    (hquote : ∀ q ∈ p :: params, '"' ∉ q.toList) (hbal : ∀ q ∈ p :: params, Balanced q.toList)
    (hdecode : h.decode (Action.line ⟨name, p :: params⟩) = .ok varlist) :
    ∀ var ∈ varlist, Balanced var.toList := by
  have hwhole := balanced_intercalate hbal
  rw [UnitHandler.decode, hindex] at hdecode
  split at hdecode
  · rw [args_line hname, Except.ok.injEq] at hdecode
    subst hdecode
    obtain ⟨hp, hparams⟩ := List.forall_mem_cons.mp hquote
    cases params with
    | nil =>
      rw [String.intercalate_singleton, splitVars_one hp]
      exact hbal
    | cons q params =>
      rw [splitVars_intercalate (inert_of_notMem hp) hparams (List.cons_ne_nil q params)]
      split
      · intro var hvar
        rw [List.mem_singleton.mp hvar]
        exact hwhole
      · intro var hvar
        exact hbal var ((List.rdropWhile_prefix _ _).mem hvar)
  · rw [content_line hname] at hdecode
    cases hdecode
    intro var hvar
    rw [List.mem_singleton.mp hvar]
    exact hwhole

/-- A call without arguments is too short for a handler that reads some. -/
theorem handle_nil {name : String} {h : UnitHandler} (hname : Named name)
    (hindex : h.beginIndex = name.length + 2) :
    h.handle (Action.line ⟨name, []⟩) = .error .indexOutOfBounds := by
  have hslice : slice (Action.line ⟨name, []⟩) (name.length + 2 : ℕ)
      (((Action.line ⟨name, []⟩).length : ℤ) - 3) = none := by
    have hlen : (Action.line ⟨name, []⟩).length = name.length + 3 := by
      rw [← String.length_toList, toList_call, List.length_append]
      rfl
    rw [slice, hlen]
    refine if_neg ?_
    rintro ⟨-, hle, -⟩
    push_cast at hle
    omega
  have htrim : trim (Action.line ⟨name, []⟩) = Action.line ⟨name, []⟩ := by
    obtain ⟨c, hc, hblank⟩ := hname
    obtain ⟨n, hn⟩ := List.head?_eq_some_iff.mp hc
    have hline : (Action.line ⟨name, []⟩).toList = c :: ((n ++ ['(', ')']) ++ [';']) := by
      rw [toList_call, hn]
      simp [Action.paramInfo]
    exact trim_eq_self hline hblank (by decide)
  rw [UnitHandler.handle, UnitHandler.decode, hindex, args, UnitHandler.content, htrim, hslice]
  split <;> rfl

/-- What a handler makes of balanced arguments has the brackets of its template. -/
theorem scan_handle {name p code : String} {h : UnitHandler} {params : List String}
    (hname : Named name) (hindex : h.beginIndex = name.length + 2)
    (hquote : ∀ q ∈ p :: params, '"' ∉ q.toList) (hbal : ∀ q ∈ p :: params, Balanced q.toList)
    (hhandle : h.handle (Action.line ⟨name, p :: params⟩) = .ok code) (stack : List Char) :
    scan stack code.toList = scan stack h.template.skeleton := by
  obtain ⟨varlist, hdecode, hcode⟩ := bind_eq_ok.mp hhandle
  exact Template.scan_code (balanced_decode hname hindex hquote hbal hdecode) hcode stack

end UnitAction

/-! ### The brackets of a class -/

namespace ClassView
open UnitAction MQTestActionHandler

variable {v : ClassView} {a : UnitAction}

/-- The arguments begin behind the name, a bracket and a quote. -/
theorem beginIndex_eq (ha : a ∈ unitActions) (hview : a.view = v.view) :
    a.handler.beginIndex = a.name.length + 2 := by
  revert a
  cases v <;> decide

/-- The call of `tearDown` in PHPUnit. -/
def TearsDown (v : ClassView) (action : Action) : Prop :=
  v = pHPUnit ∧ action.name = "tearDown" ∧ action.params ≠ []

/-- What a handler puts around its arguments is balanced. -/
theorem balanced_skeleton (ha : a ∈ unitActions) (hview : a.view = v.view)
    (htear : ¬ (v = pHPUnit ∧ a.name = "tearDown")) : Balanced a.handler.template.skeleton := by
  revert a
  cases v <;> decide +kernel

/-- The handler of `tearDown` in the view for PHPUnit. -/
theorem handler_tearDown (ha : a ∈ unitActions) (hview : a.view = .pHPUnit)
    (hname : a.name = "tearDown") : a.handler = MPHPUnitActionHandler.handleTearDown := by
  revert a
  decide

/-- The parenthesis stands where the brace is to be closed. -/
theorem broken_tearDown : Broken MPHPUnitActionHandler.handleTearDown.template.skeleton := by
  have hbrackets : MPHPUnitActionHandler.handleTearDown.template.skeleton.filter isBracket =
      ['(', ')', '\x7b', ')'] := by
    decide
  intro stack
  rw [← scan_filter, hbrackets]
  rfl

/-- It always gives a text. -/
theorem handle_tearDown (p : String) (params : List String) : ∃ code,
    MPHPUnitActionHandler.handleTearDown.handle (Action.line ⟨"tearDown", p :: params⟩) =
      .ok code := by
  have hname : Named "tearDown" := ⟨'t', by decide, by decide⟩
  have hindex : MPHPUnitActionHandler.handleTearDown.beginIndex = "tearDown".length + 2 := by decide
  have hsplits : MPHPUnitActionHandler.handleTearDown.template.splits = false := rfl
  rw [UnitHandler.handle, UnitHandler.decode, hsplits, if_neg Bool.false_ne_true, hindex,
    content_line hname]
  exact ⟨_, rfl⟩

/-- What ends an action is balanced. -/
theorem balanced_ending (v : ClassView) : Balanced v.view.ending.toList := by
  cases v <;> decide

/-- The text of an action that is handled. -/
theorem setAction_ok {action : Action} {code : String}
    (h : v.view.handleAction action.line = .ok code) (stack : List Char) :
    scan stack (v.view.setAction action.line).toList = scan stack code.toList := by
  rw [UnitView.setAction, h]
  dsimp only
  rw [String.toList_append, ← List.append_nil v.view.ending.toList, scan_insert v.balanced_ending,
    List.append_nil]

/-- An action that cannot be handled gives nothing. -/
theorem setAction_error {action : Action} {e : Exn}
    (h : v.view.handleAction action.line = .error e) : v.view.setAction action.line = "" := by
  rw [UnitView.setAction, h]

/-- The code of an action goes wrong exactly for `tearDown` in PHPUnit. -/
theorem setAction_cases {action : Action} (hknown : v.knows action.name)
    (hquote : ∀ p ∈ action.params, '"' ∉ p.toList)
    (hbal : ∀ p ∈ action.params, Balanced p.toList) :
    Brackets.Balanced (v.view.setAction action.line).toList ∧ ¬ v.TearsDown action ∨
      Broken (v.view.setAction action.line).toList ∧ v.TearsDown action := by
  obtain ⟨name, params⟩ := action
  rcases hknown with ⟨a, ha, hview, rfl⟩ | ⟨rfl, hname⟩
  · have hline := hview ▸ handleAction_line ha params
    have hindex := beginIndex_eq ha hview
    cases params with
    | nil =>
      rw [handle_nil (named ha) hindex] at hline
      rw [setAction_error hline]
      exact .inl ⟨rfl, fun h => h.2.2 rfl⟩
    | cons p params =>
      by_cases htear : v = pHPUnit ∧ a.name = "tearDown"
      · obtain ⟨rfl, hname⟩ := htear
        have hhandler := handler_tearDown ha hview hname
        obtain ⟨code, hcode⟩ := handle_tearDown p params
        rw [← hname, ← hhandler] at hcode
        refine .inr ⟨fun stack => ?_, rfl, hname, List.cons_ne_nil p params⟩
        rw [setAction_ok (hline.trans hcode), scan_handle (named ha) hindex hquote hbal hcode,
          hhandler]
        exact broken_tearDown stack
      · refine .inl ⟨?_, fun h => htear ⟨h.1, h.2.1⟩⟩
        cases hcode : a.handler.handle (Action.line ⟨a.name, p :: params⟩) with
        | error e =>
          rw [setAction_error (hline.trans hcode)]
          rfl
        | ok code =>
          rw [Brackets.Balanced, setAction_ok (hline.trans hcode),
            scan_handle (named ha) hindex hquote hbal hcode]
          exact balanced_skeleton ha hview htear
  · refine .inl ⟨?_, fun h => ?_⟩
    · have hword : ∃ code, ClassView.jUnit.view.handleAction (Action.line ⟨name, params⟩) = .ok code ∧
          Brackets.Balanced code.toList := by
        rcases hname with rfl | rfl
        · refine ⟨"\n@Before\n", ?_, by decide⟩
          simp (disch := decide) only [view, UnitView.handleAction, MJUnitActionHandler.handleAction,
            startsWith_call]
          rfl
        · refine ⟨"\n@After\n", ?_, by decide⟩
          simp (disch := decide) only [view, UnitView.handleAction, MJUnitActionHandler.handleAction,
            startsWith_call]
          rfl
      obtain ⟨code, hcode, hbalanced⟩ := hword
      rw [Brackets.Balanced, setAction_ok hcode]
      exact hbalanced
    · cases h.1

/-- Indenting changes no brackets. -/
theorem filter_addTab (content : String) :
    (addTab content).toList.filter isBracket = content.toList.filter isBracket := by
  have hline : ∀ line : String,
      ("    " ++ line ++ "\n").toList.filter isBracket = line.toList.filter isBracket := by
    intro line
    simp [isBracket, closing, isClosing]
  have hbreak : ∀ c, isBracket c = true → decide (c ≠ '\n') = true := by
    intro c hc
    refine decide_eq_true fun h => ?_
    rw [h] at hc
    cases hc
  have hsep : "\n".toList = ['\n'] := by decide
  have hflat := congrArg (List.filter isBracket) (flatten_split (s := content) hsep)
  rw [List.filter_filter, List.filter_congr fun c _ => Bool.and_eq_left_iff_imp.mpr (hbreak c),
    List.filter_flatten, List.map_map] at hflat
  rw [addTab, String.toList_join, List.flatMap_map, List.filter_flatMap, ← hflat, List.flatMap_def]
  exact congrArg List.flatten (List.map_congr_left fun line _ => hline line)

/-- The brackets of a case are those of its actions. -/
theorem filter_genCaseContent (steps : List UnitStep) :
    (v.genCaseContent steps).toList.filter isBracket =
      ((steps.flatMap (·.actions)).map fun action =>
        (v.view.setAction action.line).toList).flatten.filter isBracket := by
  have hstart : v.setStepStartLog.toList.filter isBracket = [] := by cases v <;> rfl
  simp [genCaseContent, String.toList_join, List.filter_flatMap, List.flatMap_map, hstart,
    List.flatMap_assoc, List.flatten_eq_flatMap]

/-- The brackets of a class: those of its name, and in braces those of the actions. -/
theorem filter_handleVars (v : ClassView) (caseName : String) (steps : List UnitStep) :
    (v.handleVars (v.genCaseContent steps) caseName).toList.filter isBracket =
      (caseName.toList ++ '\x7b' :: (((steps.flatMap (·.actions)).map fun action =>
        (v.view.setAction action.line).toList).flatten ++ ['\x7d'])).filter isBracket := by
  have hcontent := (filter_addTab (v.genCaseContent steps)).trans (filter_genCaseContent steps)
  have hbrackets : isBracket '\x7b' = true ∧ [ '\x7d'].filter isBracket = [ '\x7d'] := ⟨rfl, rfl⟩
  rw [List.filter_append, List.filter_cons_of_pos hbrackets.1, List.filter_append, ← hcontent,
    hbrackets.2]
  cases v with
  | jUnit =>
    have hhead : head.toList.filter isBracket = [] := by decide +kernel
    have hclass : "public class ".toList.filter isBracket = [] := by decide
    have hopen : "\n\x7b\n".toList.filter isBracket = ['\x7b'] := by decide
    have hclose : "\n\x7d".toList.filter isBracket = ['\x7d'] := by decide
    simp only [handleVars, String.toList_append, List.filter_append, hhead, hclass, hopen, hclose,
      List.nil_append, List.append_assoc, List.singleton_append]
  | pHPUnit =>
    have hphp : "<?php\n".toList.filter isBracket = [] := by decide
    have hclass : "class ".toList.filter isBracket = [] := by decide
    have hopen : " extends PHPUnit_Framework_TestCase \n\x7b\n".toList.filter isBracket =
        ['\x7b'] := by
      decide +kernel
    have hclose : "\n\x7d\n?>\n".toList.filter isBracket = ['\x7d'] := by decide
    simp only [handleVars, String.toList_append, List.filter_append, hphp, hclass, hopen, hclose,
      List.nil_append, List.append_assoc, List.singleton_append]

/-- **When a class closes its brackets.**  Its name has to, and no `tearDown` of PHPUnit may be in it,
whose handler closes a brace by a parenthesis. -/
theorem balanced_class_iff (v : ClassView) (caseName : String) (steps : List UnitStep)
    (hknown : ∀ step ∈ steps, ∀ action ∈ step.actions, v.knows action.name)
    (hbal : ∀ step ∈ steps, ∀ action ∈ step.actions, ∀ p ∈ action.params, Balanced p.toList)
    (hquote : ∀ step ∈ steps, ∀ action ∈ step.actions, ∀ p ∈ action.params, '"' ∉ p.toList) :
    Balanced (v.handleVars (v.genCaseContent steps) caseName).toList ↔
      Balanced caseName.toList ∧ ∀ step ∈ steps, ∀ action ∈ step.actions, ¬ v.TearsDown action := by
  have hcases : ∀ p ∈ (steps.flatMap (·.actions)).map fun action =>
      (v.view.setAction action.line).toList, Brackets.Balanced p ∨ Broken p := by
    intro p hp
    obtain ⟨action, haction, rfl⟩ := List.mem_map.mp hp
    obtain ⟨step, hstep, haction⟩ := List.mem_flatMap.mp haction
    exact (setAction_cases (hknown step hstep action haction) (hquote step hstep action haction)
      (hbal step hstep action haction)).imp And.left And.left
  obtain ⟨hor, hiff⟩ := balanced_flatten_iff hcases
  have hactions : (∀ p ∈ (steps.flatMap (·.actions)).map fun action =>
      (v.view.setAction action.line).toList, Brackets.Balanced p) ↔
        ∀ step ∈ steps, ∀ action ∈ step.actions, ¬ v.TearsDown action := by
    rw [List.forall_mem_map, List.forall_mem_flatMap]
    refine forall₂_congr fun step hstep => forall₂_congr fun action haction => ?_
    rcases setAction_cases (hknown step hstep action haction) (hquote step hstep action haction)
      (hbal step hstep action haction) with ⟨h, htear⟩ | ⟨h, htear⟩
    · exact iff_of_true h htear
    · exact iff_of_false h.not_balanced fun hnot => hnot htear
  have hopen : closing '\x7b' = some '\x7d' := rfl
  rw [← hactions, ← hiff, ← balanced_enclose_iff hor hopen rfl rfl]
  exact balanced_congr (filter_handleVars v caseName steps)

/-- A step with a test. -/
def testStep : UnitStep := ⟨"run", [⟨"testFun", ["testSum", "check(sum(1));"]⟩]⟩

theorem balanced_class_iff_testFun :
    Brackets.Balanced (pHPUnit.handleVars (pHPUnit.genCaseContent [testStep]) "Sum").toList := by
  have hmem : ⟨.pHPUnit, "testFun", MPHPUnitActionHandler.handleTestFun⟩ ∈ unitActions :=
    List.mem_of_getElem? (i := 11) rfl
  refine (balanced_class_iff pHPUnit "Sum" [testStep] ?_ ?_ ?_).mpr ⟨by decide, ?_⟩ <;>
    simp only [testStep, List.forall_mem_singleton]
  · exact .inl ⟨_, hmem, rfl, rfl⟩
  · intro p hp
    rcases List.mem_pair.mp hp with rfl | rfl <;> decide
  · intro p hp
    rcases List.mem_pair.mp hp with rfl | rfl <;> decide
  · exact fun h => absurd h.2.1 (by decide)

/-- `tearDown("stop();");` closes the brace of its function by a parenthesis. -/
theorem not_balanced_tearDown :
    pHPUnit.knows "tearDown" ∧ Brackets.Balanced "stop();".toList ∧
      ¬ Brackets.Balanced (pHPUnit.handleVars (pHPUnit.genCaseContent
        [⟨"run", [⟨"tearDown", ["stop();"]⟩]⟩]) "Sum").toList := by
  have hmem : ⟨.pHPUnit, "tearDown", MPHPUnitActionHandler.handleTearDown⟩ ∈ unitActions :=
    List.mem_of_getElem? (i := 10) rfl
  exact ⟨.inl ⟨_, hmem, rfl, rfl⟩, by decide, by decide +kernel⟩

end ClassView

end MBT
