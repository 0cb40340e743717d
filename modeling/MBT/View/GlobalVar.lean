import MBT.Support.Additive
import MBT.View.MQTestActionHandler

/-!
# View — the global variables of the handler

The handler adds the name of a variable that is set with domain `global` to `globalVar` and reads
`globalVar` nowhere.

* `mem_setAction`: after an action, the globals are those before it and those that it sets.
* `sets_setVar`: a call of `setVar` sets its first argument where its fourth is `global`.
-/

namespace MBT
open Exec Text

namespace MQTestActionHandler

/-- Handling the action sets the variable with domain `global`: a new handler has it afterwards. -/
def Sets (env : Environment) (action v : String) : Prop :=
  v ∈ (setAction env action .empty).2.elems

/-! ### Handlers add to the globals only -/

section Additive

variable {α : Type} (env : Environment)

/-- A computation without state adds nothing. -/
theorem additive_liftExn (x : Except Exn α) : Additive (liftExn x) := by
  cases x with
  | ok a => exact Additive.pure a
  | error e => exact Additive.throw _

/-- Nor does one that may fail. -/
theorem additive_liftFailure (x : Except Failure α) : Additive (liftFailure x) := by
  cases x with
  | ok a => exact Additive.pure a
  | error e => exact Additive.throw e

/-- `setVar` adds its variable, or nothing. -/
theorem additive_setVar (varlist : List String) : Additive (setVar env varlist) := by
  refine (additive_liftExn _).bind fun name => ?_
  refine (additive_liftExn _).bind fun value => ?_
  refine (additive_liftExn _).bind fun type => ?_
  refine (additive_liftExn _).bind fun domain => ?_
  exact Additive.ite ((Adds.add _).additive.bind fun _ => Additive.pure _) (Additive.pure _)

/-- `loadMsg` adds the same to every set. -/
theorem additive_loadMsg (varList : List String) : Additive (loadMsg env varList) := by
  refine (additive_liftExn _).bind fun wizard => ?_
  refine (additive_liftExn _).bind fun data => ?_
  refine (additive_liftExn _).bind fun entity => ?_
  exact Additive.ite (Additive.pure none)
    ((additive_liftFailure _).bind fun _ => Additive.pure _)

/-- So does `loadHttpMsg`. -/
theorem additive_loadHttpMsg (varList : List String) : Additive (loadHttpMsg env varList) := by
  refine (additive_liftExn _).bind fun configPath => ?_
  refine (additive_liftExn _).bind fun ip => ?_
  refine (additive_liftExn _).bind fun port => ?_
  exact (additive_liftFailure _).bind fun _ => Additive.pure _

/-- The handler of `setVar` does as `setVar` does. -/
theorem additive_handleSetVar (action : String) : Additive (handleSetVar env action) :=
  (additive_liftExn _).bind (additive_setVar env)

/-- A script adds nothing. -/
theorem additive_handleScript (action : String) : Additive (handleScript action) := by
  unfold handleScript
  exact additive_liftExn _

/-- Nor does a verification. -/
theorem additive_handleDbVerify (action : String) : Additive (handleDbVerify action) :=
  (additive_liftExn _).bind fun _ => additive_liftExn _

/-- A file adds what its actions add. -/
theorem additive_load {l : Loader} (hl : ∀ action, Additive (l.handle action))
    (filePath type : String) (filter : Except Exn String) :
    Additive (l.load env filePath type filter) := by
  unfold Loader.load
  split
  · exact Additive.pure none
  · exact Additive.throw _
  · refine (additive_liftExn _).bind fun elems => Additive.bind ?_ fun scripts => Additive.pure _
    refine Additive.foldlM (fun scripts elem => ?_) elems ""
    exact (additive_liftExn _).bind fun action => (hl action).bind fun script => Additive.pure _

/-- So does the action that names the file. -/
theorem additive_handleLoad {l : Loader} (hl : ∀ action, Additive (l.handle action))
    (action : String) : Additive (l.handleLoad env action) := by
  unfold Loader.handleLoad
  extract_lets
  refine (additive_liftExn _).bind fun filePath => Additive.ite (Additive.pure none) ?_
  have hload (type : String) := additive_load env hl (trim filePath) (trim type)
  exact Additive.ite ((additive_liftExn _).bind fun type => hload type _)
    ((Additive.pure "").bind fun type => hload type _)

theorem additive_handleLoadDbVerify (action : String) : Additive (handleLoadDbVerify env action) := by
  rw [handleLoadDbVerify]
  refine additive_handleLoad env ?_ action
  exact additive_handleDbVerify

theorem additive_handleLoadScript (action : String) : Additive (handleLoadScript env action) := by
  rw [handleLoadScript]
  refine additive_handleLoad env ?_ action
  dsimp only
  exact additive_handleScript

theorem additive_handleLoadVar (action : String) : Additive (handleLoadVar env action) := by
  rw [handleLoadVar]
  refine additive_handleLoad env ?_ action
  exact additive_handleSetVar env

/-- Each type of a call is additive. -/
theorem additive_handle (t : NonMsg) (action : String) : Additive (t.handle env action) := by
  cases t with
  | script => exact (additive_handleScript action).map some
  | loadVar1 | loadVar2 => exact additive_handleLoadVar env action
  | loadScript1 | loadScript2 => exact additive_handleLoadScript env action
  | loadDbVerify1 | loadDbVerify2 => exact additive_handleLoadDbVerify env action
  | query | remoteCall | dbVerify =>
    exact ((additive_liftExn _).bind fun _ => additive_liftExn _).map some
  | setVar => exact (additive_handleSetVar env action).map some

/-- So is the call. -/
theorem additive_handleLoadNonMsg (action : String) : Additive (handleLoadNonMsg env action) := by
  refine (additive_liftExn _).bind fun varList => ?_
  refine (additive_liftExn _).bind fun number => ?_
  refine (additive_liftExn _).bind fun type => ?_
  split
  · exact additive_handle env _ action
  · exact Additive.pure _

/-- **Every action adds the same to every set.** -/
theorem additive_handleAction (action : String) : Additive (handleAction env action) := by
  have hpure (n : ℕ) (f : List String → Except Exn String) :
      Additive (some <$> (liftExn (args action n) >>= fun varList => liftExn (f varList))) :=
    ((additive_liftExn _).bind fun _ => additive_liftExn _).map some
  unfold handleAction
  refine Additive.ite (hpure _ _) <| Additive.ite (additive_handleLoadDbVerify env action) <|
    Additive.ite (hpure _ _) <| Additive.ite (additive_handleLoadScript env action) <| ?_
  refine Additive.ite ((additive_handleScript action).map some) <|
    Additive.ite ((additive_liftExn _).bind (additive_loadMsg env)) <|
    Additive.ite (additive_handleLoadVar env action) <|
    Additive.ite ((additive_handleSetVar env action).map some) <| ?_
  exact Additive.ite (hpure _ _) <| Additive.ite (additive_handleLoadNonMsg env action) <|
    Additive.ite (((additive_liftExn _).bind (additive_loadHttpMsg env)).map some) <|
    Additive.ite (hpure _ _) <| Additive.ite (hpure _ _) (Additive.pure _)

end Additive

/-! ### What an action sets -/

section Sets

variable (env : Environment) {action v : String} {globalVar : HashSet String}

/-- What is global after an action is what its handling leaves. -/
theorem setAction_snd : (setAction env action globalVar).2 = after (handleAction env action) globalVar := by
  rw [setAction, after]
  cases (handleAction env action).run globalVar <;> rfl

/-- What is global after an action. -/
theorem mem_setAction :
    v ∈ (setAction env action globalVar).2.elems ↔ v ∈ globalVar.elems ∨ Sets env action v := by
  rw [Sets, setAction_snd, setAction_snd]
  exact (additive_handleAction env action).mem_after

/-- The script of an action does not depend on the globals. -/
theorem setAction_fst (globalVar' : HashSet String) :
    (setAction env action globalVar).1 = (setAction env action globalVar').1 := by
  obtain ⟨r, hrun⟩ := (additive_handleAction env action).run_eq
  rw [setAction, setAction, hrun, hrun]
  cases r <;> rfl

/-- A call of `setVar` sets its first argument, where its fourth is `global`. -/
theorem sets_setVar {name value type domain : String}
    (hquote : ∀ p ∈ [name, value, type, domain], '"' ∉ p.toList) (hdomain : domain ≠ "") :
    Sets env (Action.line ⟨"setVar", [name, value, type, domain]⟩) v ↔
      MQTestView.equalsIgnoreCase env.fold (trim domain) "global" = true ∧ v = trim name := by
  have hargs : args (Action.line ⟨"setVar", [name, value, type, domain]⟩) 8 =
      .ok [name, value, type, domain] :=
    (SplitAction.args_eq_ok (k := .setVar) rfl hquote).mpr (by simpa using hdomain)
  have hhandle := SplitAction.handleAction_line env .setVar name [value, type, domain]
  change handleAction env (Action.line ⟨"setVar", [name, value, type, domain]⟩) =
    liftExn (args (Action.line ⟨"setVar", [name, value, type, domain]⟩) 8) >>= _ at hhandle
  rw [hargs, liftExn, pure_bind, SplitAction.make, setVar_cons] at hhandle
  rw [Sets, setAction_snd, hhandle]
  split
  · rename_i hglobal
    have hafter : after (some <$> (do
        modify (·.add (trim name))
        return "global" ++ " " ++ trim name ++ "\n" ++
          assign env (trim name) (trim value) (trim type)) : Handler (Option String)) .empty =
        HashSet.empty.add (trim name) := rfl
    rw [hafter, HashSet.mem_elems_add, HashSet.elems_empty]
    simp [hglobal]
  · rename_i hlocal
    exact iff_of_false List.not_mem_nil fun h => hlocal h.1

end Sets

end MQTestActionHandler

end MBT
