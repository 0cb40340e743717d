import MBT.View.GlobalVar

/-!
# Cases — MGenCase

The content of a case, put together from its steps by one view for all cases, and the declarations
of the global variables that the view puts before it.

* `gathers_caseContent`: translating a case adds to the globals those that its own actions set.
* `declares_own_iff`: the declarations are those of the case itself exactly when each case sets
  every variable that a case before it made global.
-/

namespace MBT
open Exec Text MXmlParse

/-! ### The view -/

namespace MXmlParse.Element

/-- The elements of a name. -/
def getSubElement (e : Element) (name : String) : List Element :=
  e.elements.filter (·.name = name)

end MXmlParse.Element

namespace MQTestView

/-- The view's name of a step. -/
def setStepName (stepName : String) : String := stepName

/-- The view writes no comment for a case. -/
def setCaseComment (_caseName : String) : String := ""

/-- The view logs no start of a case. -/
def setCaseStartLog (_caseName : String) : String := ""

/-- The view logs no end of a case. -/
def setCaseEndLog (_caseName : String) : String := ""

/-- The view logs no step. -/
def setStepLog (_stepNum : ℕ) (_stepName : String) : String := ""

/-- The comment above a step. -/
def setStepComment (stepNum : ℕ) (stepName : String) : String :=
  "# " ++ stepNum.repr ++ " " ++ stepName ++ "\n"

/-- The line that starts a step. -/
def setStepStartLog (stepNum : ℕ) (stepName : String) : String :=
  "stepStart(\"" ++ stepNum.repr ++ ": " ++ stepName ++ "\")\n\n"

/-- The line that ends a step. -/
def setStepEndLog (stepNum : ℕ) (stepName : String) : String :=
  "\nstepEnd(\"" ++ stepNum.repr ++ ": " ++ stepName ++ "\")\n\n"

/-- The text that declares the variables. -/
def declarations (vars : List String) : String :=
  vars.foldl (fun globalVars var => globalVars ++ (var ++ " = ''\n")) "" ++ "\n"

/-- What stands in front of a case: declarations of the global variables. -/
def setPreData (o : VisitOrder String) (globalVar : HashSet String) : String :=
  declarations (o.visit globalVar)

end MQTestView

open MQTestActionHandler MQTestView

/-! ### The content of a case -/

namespace MGenCase

variable (env : Environment)

/-- The turn `i` of the loop over the steps. -/
def stepContent (content : String) : Element × ℕ → Handler String
  | (testStep, i) => do
    let stepName ← liftExn (testStep.getSubData "name")
    let stepNames := setStepName stepName
    let content := content ++ setStepLog i stepNames ++ setStepComment i stepNames ++
      setStepStartLog i stepNames
    let content ← (testStep.getSubElement "action").foldlM (fun content action => do
      return content ++ (← modifyGet (setAction env action.data))) content
    return content ++ setStepEndLog i stepNames

/-- `genCaseContent` up to `setPreData`. -/
def caseContent (root : Element) : Handler String := do
  let nameStr ← liftExn (root.getSubData "name")
  let content := setCaseComment nameStr ++ setCaseStartLog nameStr
  let testSteps ← liftExn (root.getSubFirstElement "teststeps")
  let content ← (testSteps.getSubElement "teststep").zipIdx.foldlM (stepContent env) content
  return content ++ setCaseEndLog nameStr

variable (o : VisitOrder String)

/-- The declarations that are put before the content. -/
def preData : Handler String := return setPreData o (← get)

/-- The script of a case. -/
def genCaseContent (root : Element) : Handler String := do
  let content ← caseContent env root
  let content := (← preData o) ++ content
  liftExn (setContent content)

end MGenCase

/-! ### The map of views -/

/-- The views of the class `MQTestView`, each with the globals of its handler. -/
structure MViewMag where
  viewMap : HashMap String (Option (HashSet String))

namespace MViewMag

/-- A new view has no globals. -/
def addView (mag : MViewMag) (viewName : String) : MViewMag :=
  ⟨mag.viewMap.insert viewName (some .empty)⟩

/-- The view of a name, if the manager has one. -/
def getView (mag : MViewMag) (viewName : String) : Option (HashSet String) :=
  (mag.viewMap.lookup viewName).join

end MViewMag

namespace MGenCase

variable (env : Environment) (o : VisitOrder String)

/-- The views after a case is generated through one of them. -/
def genCase (view : String) (mag : MViewMag) (root : Element) : MViewMag :=
  match mag.getView view with
  | none => mag
  | some globalVar => ⟨mag.viewMap.insert view (some (after (genCaseContent env o root) globalVar))⟩

/-- The declarations before the content of the case, where it gets that far. -/
def preamble (view : String) (mag : MViewMag) (root : Element) : Option String :=
  match mag.getView view with
  | none => none
  | some globalVar =>
    match (do let _ ← caseContent env root; preData o : Handler String).run globalVar with
    | .ok text _ => some text
    | .error _ _ => none

/-! ### What a case sets -/

/-- The name of the element is read. -/
def hasName (e : Element) : Bool := (e.getSubData "name").isOk

/-- The actions of a step. -/
def actions (testStep : Element) : List String := (testStep.getSubElement "action").map (·.data)

/-- The actions of a case that are translated: those of the steps before one without a name. -/
def translated (root : Element) : List String :=
  match root.getSubData "name", root.getSubFirstElement "teststeps" with
  | .ok _, .ok testSteps => ((testSteps.getSubElement "teststep").takeWhile hasName).flatMap actions
  | _, _ => []

/-- The case and its steps have their names. -/
def Completes (root : Element) : Prop :=
  hasName root = true ∧ ∃ testSteps, root.getSubFirstElement "teststeps" = .ok testSteps ∧
    ∀ testStep ∈ testSteps.getSubElement "teststep", hasName testStep = true

/-- An action of the case sets the variable with domain `global`. -/
def CaseSets (root : Element) (v : String) : Prop := ∃ action ∈ translated root, Sets env action v

section Gathers

/-- An action adds the variables that it sets to the global ones. -/
theorem gathers_setAction (action : String) :
    Gathers (modifyGet (setAction env action) : Handler String) True (Sets env action) := by
  obtain ⟨r, l, h⟩ := additive_handleAction env action
  have hsnd (g : HashSet String) : (setAction env action g).2 = g.addAll l := by
    rw [setAction_snd, after_of_run (h g)]
  refine ⟨.ok (setAction env action .empty).1, l, fun g => ?_, iff_of_true ⟨_, rfl⟩ trivial, ?_⟩
  · change EStateM.Result.ok (setAction env action g).1 (setAction env action g).2 = _
    rw [hsnd, setAction_fst env .empty]
    rfl
  · intro v
    rw [Sets, hsnd, HashSet.mem_elems_addAll, HashSet.elems_empty]
    simp

/-- What comes behind a computation without state adds to the globals where this returns. -/
theorem gathers_liftExn_bind {α β : Type} {x : Except Exn α} {f : α → Handler β} {q : Prop}
    {P : String → Prop} (hf : ∀ a, x = .ok a → Gathers (f a) q P) :
    Gathers (liftExn x >>= f) (x.isOk = true ∧ q) fun v => x.isOk = true ∧ P v := by
  cases x with
  | ok a =>
    have hok : (Except.ok a : Except Exn α).isOk = true := rfl
    exact (hf a rfl).congr (and_iff_right hok).symm fun v => (and_iff_right hok).symm
  | error e =>
    exact ⟨_, [], (Adds.throw _).bind_error, iff_of_false (fun ⟨_, h⟩ => nomatch h)
      fun h => (nomatch h.1), fun v => iff_of_false List.not_mem_nil fun h => (nomatch h.1)⟩

/-- The actions of a step add what they set. -/
theorem gathers_actions (testStep : Element) (content : String) :
    Gathers ((testStep.getSubElement "action").foldlM (fun content action => do
      return content ++ (← modifyGet (setAction env action.data)) : String → Element → Handler String)
      content) True fun v => ∃ action ∈ actions testStep, Sets env action v := by
  have hturn (content : String) (action : Element) :=
    (gathers_setAction env action.data).bind_pure (content ++ ·)
  refine (Gathers.foldlM hturn (fun _ _ _ => trivial) _ content).congr (by simp) fun v => ?_
  rw [List.takeWhile_eq_self_iff.mpr fun _ _ => decide_eq_true trivial, actions]
  simp only [List.mem_map, exists_exists_and_eq_and]

/-- A step adds what its actions set, unless it has no name. -/
theorem gathers_stepContent (content : String) (testStep : Element) (i : ℕ) :
    Gathers (stepContent env content (testStep, i)) (hasName testStep = true) fun v =>
      hasName testStep = true ∧ ∃ action ∈ actions testStep, Sets env action v :=
  (gathers_liftExn_bind fun _ _ => (gathers_actions env testStep _).bind_pure _).congr
    (and_iff_left trivial) fun _ => Iff.rfl

/-- To look at the elements alone, the numbers can be left out. -/
theorem map_fst_takeWhile_zipIdx (p : Element → Bool) (l : List Element) :
    (l.zipIdx.takeWhile fun d => decide (p d.1 = true)).map Prod.fst = l.takeWhile p := by
  have hp : (fun d : Element × ℕ => decide (p d.1 = true)) = p ∘ Prod.fst := by
    funext d
    simp
  rw [hp, ← List.takeWhile_map, List.zipIdx_map_fst]

/-- The steps add what their actions set, up to a step without a name. -/
theorem gathers_steps (testSteps : Element) (content : String) :
    Gathers ((testSteps.getSubElement "teststep").zipIdx.foldlM (stepContent env) content)
      (∀ testStep ∈ testSteps.getSubElement "teststep", hasName testStep = true) fun v =>
        ∃ action ∈ ((testSteps.getSubElement "teststep").takeWhile hasName).flatMap actions,
          Sets env action v := by
  refine (Gathers.foldlM (fun content d => gathers_stepContent env content d.1 d.2)
    (fun _ _ h => h.1) _ content).congr ?_ fun v => ?_
  · have hall : (∀ d ∈ (testSteps.getSubElement "teststep").zipIdx, hasName d.1 = true) ↔
        ∀ e ∈ (testSteps.getSubElement "teststep").zipIdx.map Prod.fst, hasName e = true := by
      rw [List.forall_mem_map]
    rw [hall, List.zipIdx_map_fst]
  · rw [← map_fst_takeWhile_zipIdx]
    simp only [List.mem_flatMap]
    constructor
    · rintro ⟨d, hd, -, action, haction, hsets⟩
      exact ⟨action, ⟨d.1, List.mem_map_of_mem hd, haction⟩, hsets⟩
    · rintro ⟨action, ⟨e, he, haction⟩, hsets⟩
      obtain ⟨d, hd, rfl⟩ := List.mem_map.mp he
      have hname := of_decide_eq_true
        (List.mem_takeWhile_imp (p := fun d : Element × ℕ => decide (hasName d.1 = true)) hd)
      exact ⟨d, hd, hname, action, haction, hsets⟩

/-- **What a case adds to the globals**: those that its own actions set. -/
theorem gathers_caseContent (root : Element) :
    Gathers (caseContent env root) (Completes root) (CaseSets env root) := by
  refine (gathers_liftExn_bind (q := (root.getSubFirstElement "teststeps").isOk = true ∧
      Completes root) (P := fun v => (root.getSubFirstElement "teststeps").isOk = true ∧
      CaseSets env root v) fun nameStr hname => gathers_liftExn_bind fun testSteps hsteps =>
    ((gathers_steps env testSteps _).bind_pure _).congr ?_ fun v => ?_).congr ?_ fun v => ?_
  · have hroot : hasName root = true := by
      rw [hasName, hname]
      rfl
    rw [Completes, hsteps]
    simp [hroot]
  · rw [CaseSets, translated, hname, hsteps]
  · rw [← and_assoc]
    refine and_iff_right_of_imp fun ⟨hroot, testSteps, hsteps, _⟩ => ⟨hroot, ?_⟩
    rw [hsteps]
    rfl
  · rw [← and_assoc]
    refine and_iff_right_of_imp fun ⟨action, haction, _⟩ => ?_
    rw [translated] at haction
    split at haction
    · rename_i hname hsteps
      rw [hname, hsteps]
      exact ⟨rfl, rfl⟩
    · cases haction

end Gathers

/-! ### The views while cases are generated -/

section Views

variable {view : String} {mag : MViewMag} {globalVar : HashSet String} {v : String}

/-- The rest of `genCaseContent` leaves the globals as they are. -/
theorem after_genCaseContent (root : Element) :
    after (genCaseContent env o root) globalVar = after (caseContent env root) globalVar := by
  rw [after, after, genCaseContent, EStateM.run_bind]
  cases (caseContent env root).run globalVar with
  | error e globalVar' => rfl
  | ok content globalVar' =>
    change after (liftExn (setContent (setPreData o globalVar' ++ content))) globalVar' = globalVar'
    cases setContent (setPreData o globalVar' ++ content) <;> rfl

/-- The globals of a view after a case. -/
theorem getView_genCase (root : Element) (h : mag.getView view = some globalVar) :
    (genCase env o view mag root).getView view = some (after (caseContent env root) globalVar) := by
  rw [genCase, h]
  dsimp only
  rw [MViewMag.getView, AList.lookup_insert, after_genCaseContent]
  rfl

/-- **The globals of a view** after cases are those of its start and those that the cases set. -/
theorem getView_foldl (cases : List Element) (h : mag.getView view = some globalVar) :
    ∃ globalVar', (cases.foldl (genCase env o view) mag).getView view = some globalVar' ∧
      ∀ v, v ∈ globalVar'.elems ↔ v ∈ globalVar.elems ∨ ∃ root ∈ cases, CaseSets env root v := by
  induction cases generalizing mag globalVar with
  | nil => exact ⟨globalVar, h, by simp⟩
  | cons root cases ih =>
    obtain ⟨globalVar', hview, hmem⟩ := ih (getView_genCase env o root h)
    refine ⟨globalVar', hview, fun v => ?_⟩
    rw [hmem, (gathers_caseContent env root).mem_after, List.exists_mem_cons_iff, or_assoc]

/-- The text in front of a case that completes. -/
theorem preamble_eq_some {root : Element} {text : String} (h : mag.getView view = some globalVar) :
    preamble env o view mag root = some text ↔
      Completes root ∧ text = setPreData o (after (caseContent env root) globalVar) := by
  obtain ⟨r, l, hadds, hcompletes, -⟩ := gathers_caseContent env root
  rw [preamble, h, ← hcompletes, after_of_run (hadds globalVar)]
  dsimp only
  rw [EStateM.run_bind, hadds globalVar]
  cases r with
  | error e => exact iff_of_false nofun fun h => nomatch h.1.choose_spec
  | ok content =>
    change some (setPreData o (globalVar.addAll l)) = some text ↔ _
    rw [Option.some.injEq, eq_comm]
    exact (and_iff_right ⟨content, rfl⟩).symm

end Views

/-! ### The declarations of a case -/

/-- The text declares the variables that `s` holds of, each once and no other. -/
def Declares (text : String) (s : String → Prop) : Prop :=
  ∃ vars : List String, vars.Nodup ∧ (∀ v, v ∈ vars ↔ s v) ∧ text = declarations vars

/-- How long the declarations are. -/
theorem length_declarations (vars : List String) :
    (declarations vars).length = (vars.map fun var => var.length + 6).sum + 1 := by
  have hfold : ∀ (vars : List String) (globalVars : String),
      (vars.foldl (fun globalVars var => globalVars ++ (var ++ " = ''\n")) globalVars).length =
        globalVars.length + (vars.map fun var => var.length + 6).sum := by
    intro vars
    induction vars with
    | nil => intro globalVars; rfl
    | cons var vars ih =>
      intro globalVars
      have hend : " = ''\n".length = 6 := rfl
      rw [List.foldl_cons, ih, String.length_append, String.length_append, hend, List.map_cons,
        List.sum_cons]
      omega
  have hend : "\n".length = 1 := rfl
  rw [declarations, String.length_append, hfold, hend, String.length_empty, Nat.zero_add]

/-- Of variables that are all global, the preamble declares each and no other exactly when no other
is global. -/
theorem declares_setPreData {globalVar : HashSet String} {s : String → Prop}
    (hsub : ∀ v, s v → v ∈ globalVar.elems) :
    Declares (setPreData o globalVar) s ↔ ∀ v ∈ globalVar.elems, s v := by
  constructor
  · rintro ⟨vars, hnodup, hvars, htext⟩ v hv
    have hsubset : vars ⊆ o.visit globalVar :=
      fun w hw => o.mem_visit.mpr (hsub w ((hvars w).mp hw))
    obtain ⟨l, hl, hsublist⟩ := List.subperm_of_subset hnodup hsubset
    obtain ⟨rest, hrest⟩ := hsublist.exists_perm_append
    have hperm := hrest.trans (hl.append_right rest)
    -- The declarations of the rest would make the text longer.
    have hlen := congrArg String.length htext
    rw [setPreData, length_declarations, length_declarations,
      ((hperm.map fun var : String => var.length + 6).sum_eq), List.map_append,
      List.sum_append] at hlen
    have hmem := hperm.mem_iff.mp (o.mem_visit.mpr hv)
    rcases List.mem_append.mp hmem with hmem | hmem
    · exact (hvars v).mp hmem
    · have hle := List.single_le_sum (fun _ _ => Nat.zero_le _) _
        (List.mem_map_of_mem (f := fun var : String => var.length + 6) hmem)
      omega
  · intro h
    refine ⟨o.visit globalVar, o.nodup_visit _, fun v => ?_, rfl⟩
    rw [o.mem_visit]
    exact ⟨h v, hsub v⟩

/-- **When every case declares its own globals.**  Of the cases that are generated through one view,
each declares exactly the variables that its own actions set with domain `global` if and only if
each that gets as far as its declarations sets every variable that a case before it set. -/
theorem declares_own_iff (mag : MViewMag) (view : String) (cases : List Element) :
    (∀ before root, before ++ [root] <+: cases → ∀ text,
      preamble env o view (before.foldl (genCase env o view) (mag.addView view)) root = some text →
        Declares text (CaseSets env root)) ↔
      ∀ before root, before ++ [root] <+: cases → Completes root →
        ∀ earlier ∈ before, ∀ v, CaseSets env earlier v → CaseSets env root v := by
  refine forall_congr' fun before => forall_congr' fun root => imp_congr_right fun _ => ?_
  have hadded : (mag.addView view).getView view = some .empty := by
    rw [MViewMag.addView, MViewMag.getView, AList.lookup_insert]
    rfl
  obtain ⟨globalVar, hview, hmem⟩ := getView_foldl env o before hadded
  have hafter (v : String) : v ∈ (after (caseContent env root) globalVar).elems ↔
      (∃ earlier ∈ before, CaseSets env earlier v) ∨ CaseSets env root v := by
    rw [(gathers_caseContent env root).mem_after, hmem, HashSet.elems_empty]
    simp
  have hdeclares : Declares (setPreData o (after (caseContent env root) globalVar)) (CaseSets env root) ↔
      ∀ v ∈ (after (caseContent env root) globalVar).elems, CaseSets env root v :=
    declares_setPreData o fun v hv => (hafter v).mpr (.inr hv)
  constructor
  · intro h hcompletes earlier hearlier v hv
    have htext := (preamble_eq_some env o hview).mpr ⟨hcompletes, rfl⟩
    exact hdeclares.mp (h _ htext) v ((hafter v).mpr (.inl ⟨earlier, hearlier, hv⟩))
  · intro h text htext
    obtain ⟨hcompletes, rfl⟩ := (preamble_eq_some env o hview).mp htext
    refine hdeclares.mpr fun v hv => ?_
    rcases (hafter v).mp hv with ⟨earlier, hearlier, hv⟩ | hv
    · exact h hcompletes earlier hearlier v hv
    · exact hv

/-- A case of one step with these actions. -/
def oneStep (name : String) (actions : List String) : Element :=
  ⟨"testcase", [], "", [⟨"name", [], name, []⟩,
    ⟨"teststeps", [], "", [⟨"teststep", [], "",
      ⟨"name", [], name, []⟩ :: actions.map (⟨"action", [], ·, []⟩)⟩]⟩]⟩

/-- A case that sets a global variable. -/
def login : Element := oneStep "login" ["setVar(\"user\", \"1\", \"number\", \"global\");"]

/-- A case that sets none. -/
def logout : Element := oneStep "logout" ["script(\"exit\");"]

/-- The second case declares the variable of the first. -/
theorem not_declares_own : ¬ ∀ before root, before ++ [root] <+: [login, logout] → ∀ text,
    preamble noFiles .insertion "MQTestView" (before.foldl (genCase noFiles .insertion "MQTestView")
      (MViewMag.addView ⟨∅⟩ "MQTestView")) root = some text →
        Declares text (CaseSets noFiles root) := by
  intro h
  have hnone (v : String) : ¬ CaseSets noFiles logout v := by
    rintro ⟨action, haction, hsets⟩
    have htranslated : translated logout = ["script(\"exit\");"] := by decide
    rw [htranslated, List.mem_singleton] at haction
    subst haction
    have hempty : (setAction noFiles "script(\"exit\");" .empty).2.elems = [] := by decide +kernel
    rw [Sets, hempty] at hsets
    cases hsets
  have htext : preamble noFiles .insertion "MQTestView"
      ([login].foldl (genCase noFiles .insertion "MQTestView")
        (MViewMag.addView ⟨∅⟩ "MQTestView")) logout = some "user = ''\n\n" := by decide +kernel
  obtain ⟨vars, -, hvars, hdeclares⟩ := h [login] logout (List.prefix_refl _) _ htext
  have hnil : vars = [] := List.eq_nil_iff_forall_not_mem.mpr fun v hv => hnone v ((hvars v).mp hv)
  rw [hnil] at hdeclares
  exact absurd hdeclares (by decide)

end MGenCase

end MBT
