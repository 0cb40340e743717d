import MBT.Support.Place
import MBT.View.MQTestActionHandler

/-!
# View — DbVerify

A selection that is verified: its columns become the variables of a list, which is put into brackets
and taken apart again, and each variable is compared with the value of its place.

* `columns_select`: the columns of a selection stand before the first ` from ` of its text.
* `mapM_assertEquals`: the variables of the list are those of the columns, each with its value.
* `handleAction_dbVerify`: the script binds the variables of the columns, in order, and compares the
  variable of each column with the value of its place.
-/

namespace MBT
open Exec Text

namespace MQTestActionHandler

/-- The text of a selection. -/
def select (cols : List String) (rest : String) : String :=
  "select " ++ ",".intercalate cols ++ " from " ++ rest

/-- The call that verifies a selection. -/
def dbVerifyLine (cols values : List String) (rest entity : String) : String :=
  Action.line ⟨"dbVerify", [select cols rest, ",".intercalate values, entity]⟩

/-- The line that compares a variable with a value. -/
def assertLine (var value : String) : String :=
  "assertEquals(" ++ var ++ ", " ++ value ++ ", \"" ++ var ++ "\", \"Database verify error\")\n"

/-- A query that binds the variables of the columns, and a line for each column and its value. -/
def verifyScript (entityStr sqlNew : String) (cols values : List String) : String :=
  entityStr ++ ("[" ++ ", ".intercalate (cols.map columnVar) ++ "]" ++ " = varDbHandler.query(\"" ++
    sqlNew ++ "\")\n" ++ String.join (List.zipWith (assertLine ∘ columnVar) cols values))

/-! ### Trimming -/

/-- The characters of a trimmed text. -/
theorem toList_trim (s : String) :
    (trim s).toList = (s.toList.dropWhile (· ≤ ' ')).rdropWhile (· ≤ ' ') := String.toList_ofList

/-- A text that begins with no blank keeps what stands before a part that is not blank. -/
theorem trim_append {s : String} {c : Char} {x y : List Char} (hs : s.toList = c :: (x ++ y))
    (hc : ¬ c ≤ ' ') (hy : trim (String.ofList y) ≠ "") :
    ∃ y', (trim s).toList = c :: (x ++ y') := by
  have hrest : y.reverse.dropWhile (· ≤ ' ') ≠ [] := by
    intro hblank
    have hall := List.dropWhile_eq_nil_iff.mp hblank
    refine hy (String.toList_eq_nil_iff.mp ?_)
    rw [toList_trim, String.toList_ofList, List.rdropWhile_eq_nil_iff]
    exact fun d hd => hall d (List.mem_reverse.mpr ((List.dropWhile_suffix _).mem hd))
  rw [toList_trim, hs, List.dropWhile_cons_of_neg (by simpa using hc), List.rdropWhile,
    ← List.cons_append, List.reverse_append, List.dropWhile_append,
    if_neg fun h => hrest (List.isEmpty_iff.mp h), List.reverse_append, List.reverse_reverse]
  exact ⟨_, List.cons_append⟩

/-- A blank in front is trimmed. -/
theorem trim_blank (s : String) : trim (" " ++ s) = trim s := by
  have hblank : (" " ++ s).toList = ' ' :: s.toList := String.toList_append
  rw [trim, hblank, List.dropWhile_cons_of_pos (by decide), ← trim]

/-- The variable of a column has no blanks at its ends. -/
theorem trim_columnVar (col : String) : trim (columnVar col) = columnVar col := by
  refine String.toList_injective ?_
  have hvar : (columnVar col).toList = ['v', 'a', 'r'] ++ (trim col).toList := String.toList_append
  rw [toList_trim, hvar, List.cons_append, List.dropWhile_cons_of_neg (by decide),
    List.rdropWhile_eq_self_iff]
  intro hne
  by_cases htrim : (trim col).toList = []
  · simp [htrim]
  · have hlast : (trim col).toList.rdropWhile (· ≤ ' ') = (trim col).toList := by
      rw [toList_trim, List.rdropWhile_idempotent]
    have hlong : 'v' :: (['a', 'r'] ++ (trim col).toList) = ['v', 'a', 'r'] ++ (trim col).toList := rfl
    simp only [hlong, List.getLast_append_of_ne_nil _ htrim]
    exact List.rdropWhile_eq_self_iff.mp hlast htrim

/-! ### The arguments -/

/-- Texts between quotes are taken apart where they were put together. -/
theorem splitVars_three {sql values entity : String} (hsql : contains (sql ++ "\"") "\", \"" = false)
    (hvalues : '"' ∉ values.toList) (hentity : '"' ∉ entity.toList) (hne : entity ≠ "") :
    splitVars ("\", \"".intercalate [sql, values, entity]) = [sql, values, entity] := by
  have hsep : ¬ '"' :: ([',', ' '] ++ ['"']) <:+: sql.toList ++ ['"'] := by
    have hnot := mt contains_iff.mpr (ne_true_of_eq_false hsql)
    rwa [String.toList_append] at hnot
  have hquotes : ∀ p ∈ [values, entity], '"' ∉ p.toList := by
    intro p hp
    rcases List.mem_cons.mp hp with rfl | hp
    · exact hvalues
    · exact List.mem_singleton.mp hp ▸ hentity
  rw [splitVars, split_intercalate rfl (fun r => startsIn_word (by decide) hsep) hquotes
    (List.cons_ne_nil _ _), rdropWhile_eq_self]
  · rfl
  · intro hlast
    exact hne (Option.some.inj hlast)

/-- The columns have nothing of what separates the arguments. -/
theorem contains_select {cols : List String} {rest : String} (hquote : ∀ c ∈ cols, '"' ∉ c.toList)
    (hsep : contains (rest ++ "\"") "\", \"" = false) :
    contains (select cols rest ++ "\"") "\", \"" = false := by
  have hbefore : '"' ∉ ("select " ++ ",".intercalate cols ++ " from ").toList := by
    rw [notMem_append, notMem_append]
    exact ⟨⟨by decide, notMem_intercalate (by decide) hquote⟩, by decide⟩
  rw [← Bool.not_eq_true, contains_iff] at hsep ⊢
  rw [select, String.append_assoc, String.toList_append]
  exact mt (infix_append_iff hbefore).mp hsep

/-! ### The columns -/

/-- The columns stand before the first ` from `. -/
theorem columns_select {col rest : String} {cols : List String}
    (hcomma : ∀ c ∈ col :: cols, ',' ∉ c.toList) (hne : ∀ c ∈ col :: cols, trim c ≠ "")
    (hfrom : contains (" " ++ ",".intercalate (col :: cols) ++ " ") " from " = false)
    (hrest : trim rest ≠ "") :
    columns (select (col :: cols) rest) = .ok ((" " ++ col) :: cols) := by
  have hselect : (select (col :: cols) rest).toList = 's' :: (("elect".toList ++
      ((" " ++ ",".intercalate (col :: cols)).toList ++ " from ".toList)) ++ rest.toList) := by
    simp [select]
  obtain ⟨rest', htrim⟩ := trim_append hselect (by decide) (by rwa [String.ofList_toList])
  have htext : (trim (select (col :: cols) rest)).toList = "select".toList ++
      ((" " ++ ",".intercalate (col :: cols)).toList ++ (" from ".toList ++ rest')) := by
    rw [htrim]
    simp
  have hword : ¬ ' ' :: (['f', 'r', 'o', 'm'] ++ [' ']) <:+:
      (" " ++ ",".intercalate (col :: cols)).toList ++ [' '] := by
    have hnot := mt contains_iff.mpr (ne_true_of_eq_false hfrom)
    rwa [String.toList_append] at hnot
  have hindex := indexOf_word (t := " from ") (p := ['f', 'r', 'o', 'm']) (by decide) (by decide) htext
    (by decide) hword
  have hsplit : split (" " ++ ",".intercalate (col :: cols)) "," = (" " ++ col) :: cols := by
    rw [← String.intercalate_cons_append]
    refine split_intercalate_eq rfl ?_ (List.cons_ne_nil _ _) ?_
    · intro p hp
      rcases List.mem_cons.mp hp with rfl | hp
      · rw [notMem_append]
        exact ⟨by decide, hcomma col List.mem_cons_self⟩
      · exact hcomma p (List.mem_cons_of_mem col hp)
    · intro hlast
      rcases List.mem_cons.mp (List.mem_of_getLast? hlast) with h | h
      · exact absurd (congrArg String.toList h) (by simp)
      · exact hne "" (List.mem_cons_of_mem col h) (by decide)
  have hslice := slice_middle htext
  have hsix : ("select".toList.length : ℤ) = 6 := by decide
  rw [hsix, String.ofList_toList] at hslice
  rw [columns, hindex, hslice]
  exact congrArg Except.ok hsplit

/-! ### The lines -/

/-- The list of the variables taken apart again: the blank before a variable goes with `trim`. -/
theorem split_variables {cols : List String} (hcomma : ∀ c ∈ cols, ',' ∉ c.toList) (hne : cols ≠ []) :
    (split (", ".intercalate (cols.map columnVar)) ",").map trim = cols.map columnVar := by
  obtain ⟨col, cols, rfl⟩ := List.exists_cons_of_ne_nil hne
  rw [List.map_cons, split_columnVars, List.map_cons, List.map_map, List.map_map, trim_columnVar]
  · refine congrArg (columnVar col :: ·) (List.map_congr_left fun c hc => ?_)
    exact (trim_blank (columnVar c)).trans (trim_columnVar c)
  · intro w hw
    obtain ⟨c, hc, rfl⟩ := List.mem_map.mp (List.map_cons ▸ hw)
    rw [columnVar, notMem_append]
    exact ⟨by decide, fun h => hcomma c hc (mem_of_mem_trim h)⟩
  · exact fun h => absurd (congrArg String.toList h) (by simp [columnVar])

/-- The loop compares each variable with the value of its place. -/
theorem mapM_assertEquals {varList valueList : List String}
    (hlen : varList.length = valueList.length) :
    (List.range valueList.length).mapM (assertEquals varList valueList) =
      .ok (List.zipWith assertLine (varList.map trim) valueList) := by
  rw [mapM_eq_ok, List.forall₂_iff_get]
  refine ⟨by simp [hlen], fun i hi hline => ?_⟩
  have hvalue : i < valueList.length := by simpa using hi
  have hvar : i < varList.length := hlen ▸ hvalue
  simp only [List.get_eq_getElem, List.getElem_range, List.getElem_zipWith, List.getElem_map]
  rw [assertEquals, ArrayList.get_ok (List.getElem?_eq_getElem hvar), ok_bind,
    ArrayList.get_ok (List.getElem?_eq_getElem hvalue), ok_bind]
  rfl

/-- The action goes to the handler of verifications. -/
theorem handleAction_dbVerifyLine (env : Environment) (globalVar : HashSet String)
    (cols values : List String) (rest entity : String) :
    (handleAction env (dbVerifyLine cols values rest entity)).run globalVar =
      match args (dbVerifyLine cols values rest entity) 10 >>= dbVerify with
      | .ok script => .ok (some script) globalVar
      | .error e => .error (.runtime e) globalVar := by
  have hhandle : handleAction env (dbVerifyLine cols values rest entity) =
      liftExn (args (dbVerifyLine cols values rest entity) 10) >>= fun varList =>
        some <$> liftExn (dbVerify varList) :=
    SplitAction.handleAction_line env .dbVerify _ _
  rw [hhandle]
  cases args (dbVerifyLine cols values rest entity) 10 with
  | error e => rfl
  | ok varList =>
    rw [ok_bind]
    cases hscript : dbVerify varList with
    | error e =>
      change (some <$> liftExn (dbVerify varList)).run globalVar = _
      rw [hscript]
      rfl
    | ok script =>
      change (some <$> liftExn (dbVerify varList)).run globalVar = _
      rw [hscript]
      rfl

/-- **What becomes of a selection that is verified.**  The script binds the variables of the columns,
in order, and compares the variable of each column with the value of its place. -/
theorem handleAction_dbVerify (env : Environment) (globalVar : HashSet String)
    (cols values : List String) (rest entity : String) (hn : 1 ≤ cols.length)
    (hlen : values.length = cols.length)
    (hcols : ∀ c ∈ cols, trim c ≠ "" ∧ ',' ∉ c.toList ∧ '"' ∉ c.toList)
    (hfrom : contains (" " ++ ",".intercalate cols ++ " ") " from " = false)
    (hvalues : ∀ v ∈ values, v ≠ "" ∧ ',' ∉ v.toList ∧ '"' ∉ v.toList)
    (hrest : trim rest ≠ "") (hsep : contains (rest ++ "\"") "\", \"" = false)
    (hentity : '"' ∉ entity.toList) (hne : entity ≠ "") :
    (handleAction env (dbVerifyLine cols values rest entity)).run globalVar =
      .ok (some (verifyScript (handleDBEntity entity) (handleSql (select cols rest)) cols values))
        globalVar := by
  obtain ⟨col, cols, rfl⟩ := List.exists_cons_of_length_pos hn
  have hsql : contains (select (col :: cols) rest ++ "\"") "\", \"" = false :=
    contains_select (fun c hc => (hcols c hc).2.2) hsep
  have hquote : '"' ∉ (",".intercalate values).toList :=
    notMem_intercalate (by decide) fun v hv => (hvalues v hv).2.2
  have hargs : args (dbVerifyLine (col :: cols) values rest entity) 10 =
      .ok [select (col :: cols) rest, ",".intercalate values, entity] := by
    have hline := @args_line _ (select (col :: cols) rest) [",".intercalate values, entity]
      (SplitAction.named .dbVerify)
    rw [splitVars_three hsql hquote hentity hne] at hline
    exact hline
  have hvalueList : split (",".intercalate values) "," = values := by
    refine split_intercalate_eq rfl (fun v hv => (hvalues v hv).2.1) ?_ fun hlast => ?_
    · exact List.ne_nil_of_length_pos (hlen ▸ hn)
    · exact (hvalues "" (List.mem_of_getLast? hlast)).1 rfl
  have hcolumns := columns_select (fun c hc => (hcols c hc).2.1) (fun c hc => (hcols c hc).1)
    hfrom hrest
  have hcolumnVar : ((" " ++ col) :: cols).map columnVar = (col :: cols).map columnVar := by
    rw [List.map_cons, List.map_cons, columnVar, trim_blank, columnVar]
  have hsqlVars : getSqlVars (select (col :: cols) rest) =
      .ok ("[" ++ ", ".intercalate ((col :: cols).map columnVar) ++ "]") := by
    have hselect : startsWith (select (col :: cols) rest) "select " = true := by
      rw [startsWith_iff, select, String.append_assoc, String.append_assoc, String.toList_append]
      exact List.prefix_append _ _
    rw [getSqlVars_eq hselect, hcolumns, ok_bind, join_sqlVar (List.cons_ne_nil _ _), hcolumnVar]
  have hdbVerify : dbVerify [select (col :: cols) rest, ",".intercalate values, entity] =
      .ok (verifyScript (handleDBEntity entity) (handleSql (select (col :: cols) rest))
        (col :: cols) values) := by
    have hvars := split_variables (fun c hc => (hcols c hc).2.1) (List.cons_ne_nil col cols)
    have hvarsLen := congrArg List.length hvars
    rw [List.length_map, List.length_map] at hvarsLen
    have hinner : inBounds (some (", ".intercalate ((col :: cols).map columnVar))) =
      .ok (", ".intercalate ((col :: cols).map columnVar)) := rfl
    rw [dbVerify_three, hsqlVars, ok_bind, slice_brackets, hvalueList, hinner, ok_bind,
      mapM_assertEquals (hvarsLen.trans hlen.symm), ok_bind, hvars, List.zipWith_map_left]
    rfl
  rw [handleAction_dbVerifyLine, hargs, ok_bind, hdbVerify]

theorem handleAction_dbVerify_two :
    (handleAction noFiles (dbVerifyLine ["name", " age"] ["'Li'", "30"] "t where id=1" "db")).run .empty =
      .ok (some (verifyScript (handleDBEntity "db") (handleSql (select ["name", " age"] "t where id=1"))
        ["name", " age"] ["'Li'", "30"])) .empty :=
  handleAction_dbVerify noFiles .empty ["name", " age"] ["'Li'", "30"] "t where id=1" "db" (by decide)
    rfl (by decide) (by decide) (by decide) (by decide) (by decide) (by decide) (by decide)

/-- Some query binds the variables of the columns, and its lines follow. -/
def Verifies (env : Environment) (globalVar : HashSet String) (cols values : List String)
    (rest entity : String) : Prop :=
  ∃ entityStr sqlNew globalVar',
    (handleAction env (dbVerifyLine cols values rest entity)).run globalVar =
      .ok (some (verifyScript entityStr sqlNew cols values)) globalVar'

/-- A script that verifies ends with the line of the last column. -/
theorem Verifies.exists_script {env : Environment} {globalVar : HashSet String} {col value : String}
    {rest entity : String} (h : Verifies env globalVar [col] [value] rest entity) :
    ∃ script, args (dbVerifyLine [col] [value] rest entity) 10 >>= dbVerify = .ok script ∧
      endsWith script (assertLine (columnVar col) value) = true := by
  obtain ⟨entityStr, sqlNew, globalVar', hrun⟩ := h
  rw [handleAction_dbVerifyLine] at hrun
  cases hscript : args (dbVerifyLine [col] [value] rest entity) 10 >>= dbVerify with
  | error e =>
    rw [hscript] at hrun
    cases hrun
  | ok script =>
    rw [hscript] at hrun
    cases hrun
    refine ⟨_, rfl, endsWith_iff.mpr ?_⟩
    have hlines : String.join (List.zipWith (assertLine ∘ columnVar) [col] [value]) =
      assertLine (columnVar col) value := by simp
    rw [verifyScript, hlines, ← String.append_assoc, String.toList_append]
    exact List.suffix_append _ _

/-- The text of the columns ends at a column `from`, a blank rest and an empty entity are lost, and
a separator of arguments in the rest ends the selection. -/
theorem not_verifies : ¬ Verifies noFiles .empty ["from"] ["1"] "t" "db" ∧
    ¬ Verifies noFiles .empty ["a"] ["1"] " " "db" ∧ ¬ Verifies noFiles .empty ["a"] ["1"] "t" "" ∧
      ¬ Verifies noFiles .empty ["a"] ["1"] "t\", \"2" "db" := by
  have hnot : ∀ col value rest entity,
      (match args (dbVerifyLine [col] [value] rest entity) 10 >>= dbVerify with
      | .ok script => endsWith script (assertLine (columnVar col) value)
      | .error _ => false) = false → ¬ Verifies noFiles .empty [col] [value] rest entity := by
    intro col value rest entity hends hverifies
    obtain ⟨script, hscript, hline⟩ := hverifies.exists_script
    rw [hscript] at hends
    exact absurd hline (ne_true_of_eq_false hends)
  exact ⟨hnot _ _ _ _ (by decide +kernel), hnot _ _ _ _ (by decide +kernel),
    hnot _ _ _ _ (by decide +kernel), hnot _ _ _ _ (by decide +kernel)⟩

end MQTestActionHandler

end MBT
