import MBT.Support.Brackets
import MBT.Support.Place
import MBT.View.MQTestActionHandler

/-!
# View — UnitHandlers

The actions of a case as the views of GTest, JUnit, PHPUnit and QTest4JS handle them: a handler cuts
the arguments out of the text of the call, behind a length that is counted by hand, and puts them
into a template.

* `UnitAction.handleAction_line`: the call of an action goes to its handler.
* `UnitAction.readsBack_iff`: the arguments are read back of every call but those of `exceptEq` and
  `exceptGt`.
-/

namespace MBT
open Exec Text

/-! ### Handlers -/

/-- What a handler makes of its arguments: it puts them between texts of its own. -/
inductive Template where
  | whole (before after : String)
  | twice (before between after : String)
  | pair (before between after : String)
  | test
  deriving DecidableEq

namespace Template

/-- How many arguments are read. -/
def arity : Template → ℕ
  | pair .. => 2
  | _ => 1

/-- At least one argument is read. -/
theorem arity_pos (t : Template) : 0 < t.arity := by
  cases t <;> exact Nat.succ_pos _

/-- The text of the call is split at the quotes between its arguments. -/
def splits : Template → Bool
  | pair .. | test => true
  | _ => false

/-- The code for the pieces that are read; it throws where they are too few. -/
def code : Template → List String → Except Exn String
  | whole before after, varlist => do
    let var ← ArrayList.get varlist 0
    return before ++ var ++ after
  | twice before between after, varlist => do
    let var ← ArrayList.get varlist 0
    return before ++ var ++ between ++ var ++ after
  | pair before between after, varlist => do
    let var1 ← ArrayList.get varlist 0
    let var2 ← ArrayList.get varlist 1
    return before ++ var1 ++ between ++ var2 ++ after
  | test, varlist => do
    let expression ← ArrayList.get varlist 0
    if trim expression = "" then return "@Test\n" else return "\n@Test(" ++ expression ++ ")\n"

end Template

/-- A handler: the length of what stands before the arguments, and the code. -/
structure UnitHandler where
  beginIndex : ℕ
  template : Template
  deriving DecidableEq

namespace UnitHandler

/-- What stands from `beginIndex` to before the last three characters. -/
def content (action : String) (beginIndex : ℕ) : Except Exn String :=
  let action := trim action
  inBounds (slice action beginIndex ((action.length : ℤ) - 3))

/-- The arguments that are read of a call. -/
def decode (h : UnitHandler) (action : String) : Except Exn (List String) :=
  if h.template.splits then MQTestActionHandler.args action h.beginIndex
  else do
    let var ← content action h.beginIndex
    return [var]

/-- Reads the arguments of an action and puts the texts around them. -/
def handle (h : UnitHandler) (action : String) : Except Exn String := do
  let varlist ← h.decode action
  h.template.code varlist

end UnitHandler

namespace MGTestActionHandler

/-- Handles `include`. -/
def handleInclude : UnitHandler := ⟨9, .whole "#include" "\n"⟩

/-- Handles `funInfo`. -/
def handleFunInfo : UnitHandler := ⟨9, .pair "TEST(" ", " ")\n\x7b\n"⟩

/-- Handles `exceptEq`. -/
def handleExceptEq : UnitHandler := ⟨9, .pair "    EXPECT_EQ(" ", " ");\n"⟩

/-- Handles `exceptGt`. -/
def handleExceptGt : UnitHandler := ⟨9, .pair "    EXPECT_GT(" ", " ");\n"⟩

/-- The handler of an action, by how it starts. -/
def handleAction (action : String) : Except Exn String :=
  if startsWith action "funInfo" then handleFunInfo.handle action
  else if startsWith action "exceptEq" then handleExceptEq.handle action
  else if startsWith action "exceptGt" then handleExceptGt.handle action
  else if startsWith action "include" then handleInclude.handle action
  else .ok action

end MGTestActionHandler

namespace MJUnitActionHandler

/-- Handles `setUp`. -/
def handleSetUp : UnitHandler := ⟨7, .whole "public void setUp()\n\x7b\n    " "\n\x7d\n"⟩

/-- Handles `tearDown`. -/
def handleTearDown : UnitHandler := ⟨10, .whole "public void tearDown()\n\x7b\n    " "\n\x7d\n"⟩

/-- Handles `testFun`. -/
def handleTestFun : UnitHandler := ⟨9, .pair "public void " "()\n\x7b\n    " "\n\x7d\n"⟩

/-- Handles `test`. -/
def handleTest : UnitHandler := ⟨6, .test⟩

/-- Handles `before`. -/
def handleBefore (_action : String) : Except Exn String := .ok "\n@Before\n"

/-- Handles `after`. -/
def handleAfter (_action : String) : Except Exn String := .ok "\n@After\n"

/-- Handles `ignore`. -/
def handleIgnore : UnitHandler := ⟨8, .whole "\n@Ignore(\"" "\")\n"⟩

/-- The handler of an action, by how it starts. -/
def handleAction (action : String) : Except Exn String :=
  if startsWith action "setUp" then handleSetUp.handle action
  else if startsWith action "tearDown" then handleTearDown.handle action
  else if startsWith action "testFun" then handleTestFun.handle action
  else if startsWith action "test" then handleTest.handle action
  else if startsWith action "before" then handleBefore action
  else if startsWith action "after" then handleAfter action
  else if startsWith action "ignore" then handleIgnore.handle action
  else .ok action

end MJUnitActionHandler

namespace MPHPUnitActionHandler

/-- Handles `setUp`. -/
def handleSetUp : UnitHandler := ⟨7, .whole "function setUp()\n\x7b\n    " "\n\x7d\n"⟩

/-- What it opens by a brace it closes by a parenthesis. -/
def handleTearDown : UnitHandler := ⟨10, .whole "function tearDown()\n\x7b\n    " "\n)\n"⟩

/-- Handles `testFun`. -/
def handleTestFun : UnitHandler := ⟨9, .pair "function " "()\n\x7b\n    " "\n\x7d\n"⟩

/-- Handles `require`. -/
def handleRequire : UnitHandler := ⟨9, .whole "require_once(\"" "\")\n"⟩

/-- Handles `script`. -/
def handleScript : UnitHandler := ⟨8, .whole "" "\n"⟩

/-- The handler of an action, by how it starts. -/
def handleAction (action : String) : Except Exn String :=
  if startsWith action "setUp" then handleSetUp.handle action
  else if startsWith action "tearDown" then handleTearDown.handle action
  else if startsWith action "testFun" then handleTestFun.handle action
  else if startsWith action "require" then handleRequire.handle action
  else if startsWith action "script" then handleScript.handle action
  else .ok action

end MPHPUnitActionHandler

namespace MQTest4JSActionHandler

/-- Handles `testSuite`. -/
def handleTestSuite : UnitHandler := ⟨11, .twice "" " = TestCase(\"" "\");\n"⟩

/-- Handles `funName`. -/
def handleFunName : UnitHandler := ⟨9, .whole "" " = function()\n\x7b\n"⟩

/-- Handles `setVar`. -/
def handleSetVar : UnitHandler := ⟨8, .pair "    var " " = " ";\n"⟩

/-- Handles `assertSame`. -/
def handleAssertSame : UnitHandler :=
  ⟨12, .pair "    assertSame(\"assert same failed!\", " ", " ");\n"⟩

/-- Handles `assertTrue`. -/
def handleAssertTrue : UnitHandler := ⟨12, .whole "    assertTrue(\"assert true failed!\", " ");\n"⟩

/-- Handles `log`. -/
def handleLog : UnitHandler := ⟨5, .whole "    jstestdriver.console.log(\"" "\");\n"⟩

/-- The handler of an action, by how it starts. -/
def handleAction (action : String) : Except Exn String :=
  if startsWith action "testSuite" then handleTestSuite.handle action
  else if startsWith action "funName" then handleFunName.handle action
  else if startsWith action "setVar" then handleSetVar.handle action
  else if startsWith action "assertSame" then handleAssertSame.handle action
  else if startsWith action "assertTrue" then handleAssertTrue.handle action
  else if startsWith action "log" then handleLog.handle action
  else .ok action

end MQTest4JSActionHandler

/-! ### Views -/

/-- The views for unit tests. -/
inductive UnitView where
  | gTest | jUnit | pHPUnit | qTest4JS
  deriving DecidableEq

namespace UnitView

/-- What a view makes of an action. -/
def handleAction : UnitView → String → Except Exn String
  | gTest => MGTestActionHandler.handleAction
  | jUnit => MJUnitActionHandler.handleAction
  | pHPUnit => MPHPUnitActionHandler.handleAction
  | qTest4JS => MQTest4JSActionHandler.handleAction

/-- What the view puts behind an action. -/
def ending : UnitView → String
  | pHPUnit => "\n"
  | _ => ""

/-- An action that is not handled is dropped from the case. -/
def setAction (v : UnitView) (actionStr : String) : String :=
  match v.handleAction actionStr with
  | .ok script => script ++ v.ending
  | .error _ => ""

end UnitView

/-- An action that carries arguments. -/
structure UnitAction where
  view : UnitView
  name : String
  handler : UnitHandler

/-- The actions of the views, with their handlers. -/
def unitActions : List UnitAction :=
  [⟨.gTest, "include", MGTestActionHandler.handleInclude⟩,
    ⟨.gTest, "funInfo", MGTestActionHandler.handleFunInfo⟩,
    ⟨.gTest, "exceptEq", MGTestActionHandler.handleExceptEq⟩,
    ⟨.gTest, "exceptGt", MGTestActionHandler.handleExceptGt⟩,
    ⟨.jUnit, "setUp", MJUnitActionHandler.handleSetUp⟩,
    ⟨.jUnit, "tearDown", MJUnitActionHandler.handleTearDown⟩,
    ⟨.jUnit, "testFun", MJUnitActionHandler.handleTestFun⟩,
    ⟨.jUnit, "test", MJUnitActionHandler.handleTest⟩,
    ⟨.jUnit, "ignore", MJUnitActionHandler.handleIgnore⟩,
    ⟨.pHPUnit, "setUp", MPHPUnitActionHandler.handleSetUp⟩,
    ⟨.pHPUnit, "tearDown", MPHPUnitActionHandler.handleTearDown⟩,
    ⟨.pHPUnit, "testFun", MPHPUnitActionHandler.handleTestFun⟩,
    ⟨.pHPUnit, "require", MPHPUnitActionHandler.handleRequire⟩,
    ⟨.pHPUnit, "script", MPHPUnitActionHandler.handleScript⟩,
    ⟨.qTest4JS, "testSuite", MQTest4JSActionHandler.handleTestSuite⟩,
    ⟨.qTest4JS, "funName", MQTest4JSActionHandler.handleFunName⟩,
    ⟨.qTest4JS, "setVar", MQTest4JSActionHandler.handleSetVar⟩,
    ⟨.qTest4JS, "assertSame", MQTest4JSActionHandler.handleAssertSame⟩,
    ⟨.qTest4JS, "assertTrue", MQTest4JSActionHandler.handleAssertTrue⟩,
    ⟨.qTest4JS, "log", MQTest4JSActionHandler.handleLog⟩]

namespace UnitAction
open MQTestActionHandler

/-- The characters of an action. -/
theorem toList_call (name : String) (params : List String) : (Action.line ⟨name, params⟩).toList =
    name.toList ++ '(' :: ((Action.paramInfo params).toList ++ [')', ';']) := by
  rw [Action.line, Action.mergeInfo]
  simp

/-- A call begins with what its name begins with. -/
theorem startsWith_call {w : String} (hw : '(' ∉ w.toList) (name : String) (params : List String) :
    startsWith (Action.line ⟨name, params⟩) w = startsWith name w := by
  rw [startsWith, startsWith, Bool.eq_iff_iff, List.isPrefixOf_iff_prefix,
    List.isPrefixOf_iff_prefix, toList_call]
  exact prefix_append_cons_iff hw

/-- The call goes to the handler of the action. -/
theorem handleAction_line {a : UnitAction} (ha : a ∈ unitActions) (params : List String) :
    a.view.handleAction (Action.line ⟨a.name, params⟩) =
      a.handler.handle (Action.line ⟨a.name, params⟩) := by
  simp only [unitActions, List.mem_cons, List.not_mem_nil, or_false] at ha
  rcases ha with rfl | rfl | rfl | rfl | rfl | rfl | rfl | rfl | rfl | rfl | rfl | rfl | rfl | rfl |
    rfl | rfl | rfl | rfl | rfl | rfl
  all_goals
    simp (disch := decide) only [UnitView.handleAction, MGTestActionHandler.handleAction,
      MJUnitActionHandler.handleAction, MPHPUnitActionHandler.handleAction,
      MQTest4JSActionHandler.handleAction, startsWith_call]
    rfl

/-- The name of an action does not begin with a blank. -/
theorem named {a : UnitAction} (ha : a ∈ unitActions) : Named a.name := by
  have hhead : ∀ a ∈ unitActions, a.name.toList.head?.map (fun c => decide (c ≤ ' ')) = some false := by
    decide
  obtain ⟨c, hc, hblank⟩ := Option.map_eq_some_iff.mp (hhead a ha)
  exact ⟨c, hc, of_decide_eq_false hblank⟩

/-- The length before the arguments is right, but for two handlers. -/
theorem beginIndex_eq_iff {a : UnitAction} (ha : a ∈ unitActions) :
    a.handler.beginIndex = a.name.length + 2 ↔ a.name ≠ "exceptEq" ∧ a.name ≠ "exceptGt" := by
  revert a
  decide

/-- The two begin one character early, and both split their text. -/
theorem early {a : UnitAction} (ha : a ∈ unitActions)
    (hindex : a.handler.beginIndex ≠ a.name.length + 2) :
    a.handler.beginIndex = a.name.length + 1 ∧ a.handler.template.splits = true ∧
      a.handler.template.arity = 2 := by
  revert a
  decide

/-! ### Reading back the arguments -/

/-- What is between the quotes of an action. -/
theorem content_line {name : String} (hname : Named name) (p : String) (params : List String) :
    UnitHandler.content (Action.line ⟨name, p :: params⟩) (name.length + 2) =
      .ok ("\", \"".intercalate (p :: params)) := by
  have hline := toList_line name p params
  have hlen : name.length + 2 = (name.toList ++ ['(', '"']).length := by
    rw [List.length_append, String.length_toList]
    rfl
  rw [UnitHandler.content, trim_line hname, hlen, slice_call hline, String.ofList_toList]
  rfl

/-- A text without quotes is one argument. -/
theorem splitVars_one {p : String} (hp : '"' ∉ p.toList) : splitVars p = [p] := by
  have hsplit : ∀ t, Pattern.occurrences ('"' :: t) p.toList = 0 := fun t =>
    (startsIn_nil _ p.toList).symm.trans (Pattern.startsIn_eq_zero hp [])
  have hlit : "\",\"".toList = ['"', ',', '"'] := by decide
  have hspaced : split p "\", \"" = [p] := split_of_occurrences (hsplit [',', ' ', '"'])
  have hclosed : split p "\",\"" = [p] := by
    apply split_of_occurrences
    rw [hlit]
    exact hsplit [',', '"']
  rw [splitVars, hspaced, hclosed]
  rfl

/-- Behind the right length, the arguments are read back. -/
theorem decode_line {name : String} {h : UnitHandler} {params : List String} (hname : Named name)
    (hindex : h.beginIndex = name.length + 2) (hlen : params.length = h.template.arity)
    (hquote : ∀ p ∈ params, '"' ∉ p.toList) (hlast : params.getLast? ≠ some "") :
    h.decode (Action.line ⟨name, params⟩) = .ok params := by
  rw [UnitHandler.decode, hindex]
  cases htemplate : h.template with
  | whole before after | twice before between after =>
    rw [htemplate] at hlen
    obtain ⟨p, rfl⟩ := List.length_eq_one_iff.mp hlen
    have hsplits : h.template.splits = false := by
      rw [htemplate]
      rfl
    rw [← htemplate, hsplits, if_neg Bool.false_ne_true, content_line hname,
      String.intercalate_singleton]
    rfl
  | pair before between after =>
    rw [htemplate] at hlen
    obtain ⟨p, q, rfl⟩ := List.length_eq_two.mp hlen
    rw [if_pos (show (Template.pair before between after).splits = true from rfl), args_line hname,
      Except.ok.injEq]
    exact (splitVars_eq_iff (inert_of_notMem (hquote p List.mem_cons_self))
      (fun r hr => hquote r (List.mem_cons_of_mem p hr)) (List.cons_ne_nil q [])).mpr hlast
  | test =>
    rw [htemplate] at hlen
    obtain ⟨p, rfl⟩ := List.length_eq_one_iff.mp hlen
    rw [if_pos (show Template.test.splits = true from rfl), args_line hname,
      String.intercalate_singleton, splitVars_one (hquote p List.mem_cons_self)]

/-- One character too early, the first argument begins with a quote. -/
theorem args_quote {name p q : String} (hname : Named name) (hquote : '"' ∉ p.toList) (hp : p ≠ "") :
    args (Action.line ⟨name, [p, q]⟩) (name.length + 1) ≠ .ok [p, q] := by
  have hline : (Action.line ⟨name, [p, q]⟩).toList = (name.toList ++ ['(']) ++
      (("\", \"".intercalate (("\"" ++ p) :: [q])).toList ++ ['"', ')', ';']) := by
    rw [toList_line, String.intercalate_cons_append]
    simp
  have hlen : name.length + 1 = (name.toList ++ ['(']).length := by
    rw [List.length_append, String.length_toList]
    rfl
  rw [hlen, args_eq (trim_line hname p [q]) hline]
  intro h
  have hfirst : p.toList <+: ("\", \"".intercalate (("\"" ++ p) :: [q])).toList := by
    have hsplit := Except.ok.inj h
    rw [splitVars] at hsplit
    split at hsplit
    · exact prefix_of_split hsplit
    · exact prefix_of_split hsplit
  cases hchars : p.toList with
  | nil => exact hp (String.toList_eq_nil_iff.mp hchars)
  | cons c s =>
    rw [hchars, String.intercalate_cons_append, String.toList_append] at hfirst
    have hc := (List.cons_prefix_cons.mp hfirst).1
    rw [hchars, hc] at hquote
    exact hquote List.mem_cons_self

/-! ### The code -/

/-- The code has the arguments as they are. -/
theorem exists_code {t : Template} {params : List String} (hlen : params.length = t.arity)
    (hblank : ∀ p ∈ params, trim p ≠ "") :
    ∃ code, t.code params = .ok code ∧ ∀ p ∈ params, p.toList <:+: code.toList := by
  cases t with
  | whole before after =>
    obtain ⟨p, rfl⟩ := List.length_eq_one_iff.mp hlen
    refine ⟨_, rfl, fun q hq => ?_⟩
    rw [List.mem_singleton.mp hq]
    exact ⟨before.toList, after.toList, by simp⟩
  | twice before between after =>
    obtain ⟨p, rfl⟩ := List.length_eq_one_iff.mp hlen
    refine ⟨_, rfl, fun q hq => ?_⟩
    rw [List.mem_singleton.mp hq]
    exact ⟨before.toList, between.toList ++ (p.toList ++ after.toList), by simp⟩
  | pair before between after =>
    obtain ⟨p, q, rfl⟩ := List.length_eq_two.mp hlen
    refine ⟨_, rfl, fun r hr => ?_⟩
    rcases List.mem_cons.mp hr with rfl | hr
    · exact ⟨before.toList, between.toList ++ (q.toList ++ after.toList), by simp⟩
    · rw [List.mem_singleton.mp hr]
      exact ⟨before.toList ++ (p.toList ++ between.toList), after.toList, by simp⟩
  | test =>
    obtain ⟨p, rfl⟩ := List.length_eq_one_iff.mp hlen
    refine ⟨_, if_neg (hblank p List.mem_cons_self), fun q hq => ?_⟩
    rw [List.mem_singleton.mp hq]
    exact ⟨"\n@Test(".toList, ")\n".toList, by simp⟩

/-- The arguments are read back of the call, they stand in the code as they are, and the action is
kept. -/
structure ReadsBack (a : UnitAction) (params : List String) : Prop where
  decoded : a.handler.decode (Action.line ⟨a.name, params⟩) = .ok params
  generated : ∃ code, a.view.setAction (Action.line ⟨a.name, params⟩) = code ++ a.view.ending ∧
    ∀ p ∈ params, p.toList <:+: code.toList
  kept : a.view.setAction (Action.line ⟨a.name, params⟩) ≠ ""

/-- **Which calls are read back.**  All but those of `exceptEq` and `exceptGt`, whose handlers begin
one character too early. -/
theorem readsBack_iff (a : UnitAction) (ha : a ∈ unitActions) (params : List String)
    (hlen : params.length = a.handler.template.arity) (hblank : ∀ p ∈ params, trim p ≠ "")
    (hquote : ∀ p ∈ params, '"' ∉ p.toList) :
    a.ReadsBack params ↔ a.name ≠ "exceptEq" ∧ a.name ≠ "exceptGt" := by
  have hempty : ∀ p ∈ params, p ≠ "" := fun p hp h => by
    have htrim : trim "" = "" := by decide
    exact hblank p hp (h ▸ htrim)
  rw [← beginIndex_eq_iff ha]
  constructor
  · rintro ⟨hdecoded, -, -⟩
    by_contra hindex
    obtain ⟨hearly, hsplits, harity⟩ := early ha hindex
    rw [harity] at hlen
    obtain ⟨p, q, rfl⟩ := List.length_eq_two.mp hlen
    rw [UnitHandler.decode, hearly, if_pos hsplits] at hdecoded
    exact args_quote (named ha) (hquote p List.mem_cons_self) (hempty p List.mem_cons_self) hdecoded
  · intro hindex
    have hdecoded := decode_line (named ha) hindex hlen hquote
      (fun h => hempty "" (List.mem_of_getLast? h) rfl)
    obtain ⟨code, hcode, hparams⟩ := exists_code hlen hblank
    obtain ⟨p, ps, rfl⟩ := List.exists_cons_of_length_pos (hlen ▸ a.handler.template.arity_pos)
    have hset : a.view.setAction (Action.line ⟨a.name, p :: ps⟩) = code ++ a.view.ending := by
      rw [UnitView.setAction, handleAction_line ha, UnitHandler.handle, hdecoded, ok_bind, hcode]
    refine ⟨hdecoded, ⟨code, hset, hparams⟩, fun h => hempty p List.mem_cons_self ?_⟩
    -- what holds an argument is not empty
    have hnil : code.toList ++ a.view.ending.toList = [] := by
      rw [← String.toList_append, ← hset, h]
      rfl
    have hp := hparams p List.mem_cons_self
    rw [(List.append_eq_nil_iff.mp hnil).1, List.infix_nil] at hp
    exact String.toList_eq_nil_iff.mp hp

theorem readsBack_iff_funInfo :
    (⟨.gTest, "funInfo", MGTestActionHandler.handleFunInfo⟩ : UnitAction).ReadsBack ["Sum", "one"] := by
  have hmem : ⟨.gTest, "funInfo", MGTestActionHandler.handleFunInfo⟩ ∈ unitActions :=
    List.mem_cons_of_mem _ List.mem_cons_self
  refine (readsBack_iff _ hmem _ rfl ?_ ?_).mpr (by decide)
  · intro p hp
    rcases List.mem_pair.mp hp with rfl | rfl <;> decide
  · intro p hp
    rcases List.mem_pair.mp hp with rfl | rfl <;> decide

/-- `exceptEq("x", "1");` compares what begins with a quote. -/
theorem not_readsBack_exceptEq :
    UnitView.gTest.setAction (Action.line ⟨"exceptEq", ["x", "1"]⟩) = "    EXPECT_EQ(\"x, 1);\n" ∧
      ¬ (⟨.gTest, "exceptEq", MGTestActionHandler.handleExceptEq⟩ : UnitAction).ReadsBack
        ["x", "1"] := by
  refine ⟨by decide +kernel, ?_⟩
  rintro ⟨hdecoded, -, -⟩
  have hargs : MGTestActionHandler.handleExceptEq.decode (Action.line ⟨"exceptEq", ["x", "1"]⟩) =
      .ok ["\"x", "1"] := by
    decide +kernel
  rw [hargs, Except.ok.injEq] at hdecoded
  exact absurd hdecoded (by decide)

end UnitAction

end MBT
