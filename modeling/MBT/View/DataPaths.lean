import MBT.Support.Items
import MBT.View.HandleVars

/-!
# View — the data paths of the scripts

The name of a script lists the parameters that were filled into it.  An item is left out where it is
found in the data path so far, so a parameter whose name ends another's is not told when their values
are the same.

* `convertRow_ok`: the data path and the script of a row of the scenario.
* `dataPath_of_foldlM`, `newContent_of_foldlM`: the data path of the steps, and the text.
-/

namespace MBT
open Exec Text MDataAlgo

namespace MQTestView

/-! ### The items of a row -/

/-- An item of a data path. -/
def item (var value : String) : String := var ++ "=" ++ value

/-- The items of the parameters that are used; the flag says that an item is always listed. -/
def items (value : String → Option String) (uses : List (Bool × String)) : List (Bool × String) :=
  uses.filterMap fun u => (value u.2).map fun v => (u.1, item u.2 v)

section Items

variable {value : String → Option String}

theorem items_append (uses uses' : List (Bool × String)) :
    items value (uses ++ uses') = items value uses ++ items value uses' :=
  List.filterMap_append

/-- The characters of an item. -/
theorem toList_item (x v : String) : (item x v).toList = x.toList ++ '=' :: v.toList := by
  rw [item, String.toList_append, String.toList_append, List.append_assoc]
  rfl

/-- A parameter without a value gives no item. -/
theorem items_of_eq_none {u : Bool × String} (h : value u.2 = none) : items value [u] = [] := by
  rw [items, List.filterMap_cons_none (by rw [h]; rfl), List.filterMap_nil]

/-- A parameter with a value gives one. -/
theorem items_of_eq_some {u : Bool × String} {v : String} (h : value u.2 = some v) :
    items value [u] = [(u.1, item u.2 v)] := by
  rw [items, List.filterMap_cons_some (by rw [h]; rfl), List.filterMap_nil]

end Items

/-! ### The rows of the scenario -/

/-- The parameter that `ConvertParam` fills into a line; that of a line that sets a field is always
listed. -/
def convertUse (line : String) : Option (Bool × String) :=
  if isSetValue line then (setValueParam line).toOption.map (true, ·)
  else if isAssert line then (assertParam ")," ")\"," line).toOption.map (false, ·)
  else none

/-- The parameters that a text uses, in order. -/
def convertUses (content : String) : List (Bool × String) :=
  (getLines content).flatMap fun line => (convertUse line).toList

/-- The value of a parameter in a row, if there is one. -/
def valueIn (varMap : Option Row) (var : String) : Option String :=
  varMap.bind fun row => row.lookup var

/-- A line with the value of its parameter. -/
def fillUse (value : String → Option String) (line : String) (u : Option (Bool × String)) : String :=
  match u with
  | none => line
  | some u => match value u.2 with
    | some v => fill line u.2 v
    | none => line

/-- Nothing is listed yet. -/
def noPath (dataPath : String) : Bool := dataPath = ""

section Convert

variable {varMap varMap' : Option Row} {content : String}

/-- The empty data path is a heading. -/
theorem heading_noPath : Heading ')' noPath "" := by
  refine ⟨rfl, fun p t ht => decide_eq_false fun h => ?_, by decide, .inl rfl⟩
  exact ht.ne_empty (String.append_eq_empty_iff.mp h).2

/-- An item is not empty. -/
theorem item_ne_empty (x v : String) : item x v ≠ "" := by
  intro h
  have hlist := congrArg String.toList h
  rw [toList_item] at hlist
  exact absurd hlist (by simp)

/-- The data path behind a line that sets a field. -/
theorem addItem_listed (p x v : String) : addItem noPath p (true, item x v) =
    if p = "" then x ++ "=" ++ v else p ++ (", " ++ x ++ "=" ++ v) := by
  rw [addItem]
  by_cases hp : p = ""
  · rw [if_pos (show noPath p = true from decide_eq_true hp), if_pos hp, hp, String.empty_append]
    rfl
  · have hnot : ¬ noPath p = true := fun h => hp (of_decide_eq_true h)
    rw [if_neg hnot, Bool.true_or, if_pos rfl, if_neg hp, item]
    simp only [String.append_assoc]

/-- The data path behind a line that compares. -/
theorem addItem_unlisted (p x v : String) : addItem noPath p (false, item x v) =
    if ¬ contains p (item x v ++ ",") ∧ ¬ endsWith p (item x v) then
      if p = "" then p ++ item x v else p ++ (", " ++ item x v)
    else p := by
  rw [addItem]
  by_cases hp : p = ""
  · subst hp
    have hcontains : ¬ contains "" (item x v ++ ",") = true := by
      intro h
      have hnil := List.infix_nil.mp (isInfix_of_contains h)
      rw [String.toList_append] at hnil
      exact absurd hnil (by simp)
    have hends : ¬ endsWith "" (item x v) = true := by
      intro h
      have hnil := List.suffix_nil.mp (List.isSuffixOf_iff_suffix.mp h)
      exact item_ne_empty x v (String.toList_eq_nil_iff.mp hnil)
    rw [if_pos (show noPath "" = true from rfl), if_pos ⟨hcontains, hends⟩, if_pos rfl]
  · have hnot : ¬ noPath p = true := fun h => hp (of_decide_eq_true h)
    rw [if_neg hnot, if_neg hp, Bool.false_or]
    refine if_congr ?_ rfl rfl
    rw [Bool.and_eq_true, Bool.not_eq_true', Bool.not_eq_true', Bool.not_eq_true, Bool.not_eq_true]

/-- A value that is found is that of the row. -/
theorem nonNull_lookup {var value : String} {row : Row} (hrow : Prog.nonNull varMap = .ok row)
    (h : Prog.nonNull (row.lookup var) = .ok value) : valueIn varMap var = some value := by
  rw [Prog.nonNull_eq_ok] at hrow h
  rw [valueIn, hrow]
  exact h

/-- A line of `ConvertParam` adds the item of its parameter to the data path. -/
theorem convertLine_ok {s s' : String × String} {line : String}
    (h : convertLine varMap s line = .ok s') :
    s' = ((items (valueIn varMap) (convertUse line).toList).foldl (addItem noPath) s.1,
      s.2 ++ (fillUse (valueIn varMap) line (convertUse line) ++ "\n")) := by
  obtain ⟨dataPath, newContent⟩ := s
  rw [convertLine] at h
  by_cases hset : isSetValue line = true
  · rw [if_pos hset] at h
    obtain ⟨var, hvar, h⟩ := bind_eq_ok.mp h
    obtain ⟨row, hrow, h⟩ := bind_eq_ok.mp h
    obtain ⟨value, hvalue, h⟩ := bind_eq_ok.mp h
    cases h
    have huse : convertUse line = some (true, var) := by
      rw [convertUse, if_pos hset, hvar]
      rfl
    have hv := nonNull_lookup hrow hvalue
    rw [huse, fillUse]
    dsimp only
    rw [hv, Option.toList_some, items_of_eq_some hv, List.foldl_cons, List.foldl_nil, addItem_listed]
  · rw [if_neg hset] at h
    by_cases hassert : isAssert line = true
    · rw [if_pos hassert] at h
      obtain ⟨var, hvar, h⟩ := bind_eq_ok.mp h
      obtain ⟨row, hrow, h⟩ := bind_eq_ok.mp h
      obtain ⟨value, hvalue, h⟩ := bind_eq_ok.mp h
      cases h
      have huse : convertUse line = some (false, var) := by
        rw [convertUse, if_neg hset, if_pos hassert, hvar]
        rfl
      have hv := nonNull_lookup hrow hvalue
      rw [huse, fillUse]
      dsimp only
      rw [hv, Option.toList_some, items_of_eq_some hv, List.foldl_cons, List.foldl_nil,
        addItem_unlisted]
      rfl
    · rw [if_neg hassert] at h
      cases h
      have huse : convertUse line = none := by rw [convertUse, if_neg hset, if_neg hassert]
      rw [huse]
      rfl

/-- The data path and the text of a row of the scenario. -/
theorem convertLines_ok {lines : List String} {s s' : String × String}
    (h : lines.foldlM (convertLine varMap) s = .ok s') :
    s' = ((items (valueIn varMap) (lines.flatMap fun line => (convertUse line).toList)).foldl
        (addItem noPath) s.1,
      s.2 ++ String.join (lines.map fun line =>
        fillUse (valueIn varMap) line (convertUse line) ++ "\n")) := by
  induction lines generalizing s with
  | nil =>
    cases h
    rw [List.map_nil, String.join_nil, String.append_empty]
    rfl
  | cons line lines ih =>
    rw [List.foldlM_cons] at h
    obtain ⟨s₁, hline, h⟩ := bind_eq_ok.mp h
    rw [ih h, convertLine_ok hline, List.flatMap_cons, items_append, List.foldl_append,
      List.map_cons, String.join_cons, String.append_assoc]

/-- The data path and the script of a row, from the values of the parameters that are used. -/
theorem convertRow_ok {s : String × String} (h : convertRow content varMap = .ok s) :
    ∃ dataPath, dataPath = (items (valueIn varMap) (convertUses content)).foldl (addItem noPath) "" ∧
      s = (if dataPath = "" then "" else "[" ++ dataPath ++ "]",
        String.join ((getLines content).map fun line =>
          fillUse (valueIn varMap) line (convertUse line) ++ "\n")) := by
  rw [convertRow] at h
  obtain ⟨s₁, hfold, h⟩ := bind_eq_ok.mp h
  cases h
  refine ⟨_, rfl, ?_⟩
  rw [convertLines_ok hfold, String.empty_append]
  rfl

end Convert

/-! ### The rows of the steps -/

/-- A step that has rows, from the line that starts it, with the parameters of its lines; what it
lists is told only if it is closed. -/
structure Block where
  name : String
  rows : HashMap ℕ Row
  vars : List String
  closed : Bool
  deriving DecidableEq

namespace Block

/-- The value of a parameter in the row of a step. -/
def value (b : Block) (i : ℕ) : String → Option String := valueIn (b.rows.lookup i)

/-- The parameters that a step uses, in order. -/
def uses (b : Block) : List (Bool × String) := b.vars.map (false, ·)

/-- One parameter more is used. -/
def use (b : Block) (var : String) : Block := { b with vars := b.vars ++ [var] }

/-- The step is ended. -/
def close (b : Block) : Block := { b with closed := true }

/-- `dataPathTmp`. -/
def path (b : Block) (i : ℕ) : String :=
  (items (b.value i) b.uses).foldl (addItem fun p => endsWith p ")") ("[(" ++ b.name ++ ")")

/-- What the step adds to the data path. -/
def text (b : Block) (i : ℕ) : String := if b.closed then b.path i ++ "]" else ""

end Block

/-- The parameter that `handleVarsAlign` fills into a line of a step. -/
def alignUse (line : String) : Option String :=
  if isStepStart line || isStepEnd line then none
  else if isSetValue line then (setValueParam line).toOption
  else if isAssert line then (assertParam ")\"," ")," line).toOption
  else none

variable (stepsVarMap : StepsVarMap)

/-- The step with rows that a line starts. -/
def opened (line : String) : Option Block :=
  match stepName line with
  | .error _ => none
  | .ok name =>
    match stepsVarMap.lookup name with
    | some (some rows) => some ⟨name, rows, [], false⟩
    | _ => none

/-- The step that is open behind a line, and the one that ends with it. -/
def next (cur : Option Block) (line : String) : Option Block × Option Block :=
  if isStepStart line then
    match opened stepsVarMap line with
    | some b => (some b, cur)
    | none => (cur, none)
  else if isStepEnd line then (none, cur.map Block.close)
  else
    match alignUse line with
    | some var => (cur.map fun b => b.use var, none)
    | none => (cur, none)

/-- The steps of the lines, in order. -/
def blocks : Option Block → List String → List Block
  | cur, [] => cur.toList
  | cur, line :: lines => (next stepsVarMap cur line).2.toList ++
    blocks (next stepsVarMap cur line).1 lines

/-- A line with the value of its parameter in the step. -/
def alignText (i : ℕ) (cur : Option Block) (line : String) : String :=
  match cur with
  | none => line
  | some b => fillUse (b.value i) line ((alignUse line).map (false, ·))

/-- The lines with the rows of index `i`. -/
def filledIn (i : ℕ) : Option Block → List String → String
  | _, [] => ""
  | cur, line :: lines =>
    alignText i cur line ++ "\n" ++ filledIn i (next stepsVarMap cur line).1 lines

section Align

variable {stepsVarMap : StepsVarMap} {i j : ℕ} {cur : Option Block} {s s' : AlignState}

/-- The loop over the lines stands in the step `cur`, for the rows of index `i`. -/
structure Stands (i : ℕ) (cur : Option Block) (s : AlignState) : Prop where
  flag : s.flag = cur.isSome
  open_ : ∀ b ∈ cur, b.closed = false ∧ b.rows.lookup i = some s.stepVar ∧ s.dataPathTmp = b.path i

/-- The loop stands in a step. -/
theorem Stands.of_some {b : Block} (hflag : s.flag = true) (hclosed : b.closed = false)
    (hrow : b.rows.lookup i = some s.stepVar) (htmp : s.dataPathTmp = b.path i) :
    Stands i (some b) s :=
  ⟨hflag, fun _ hb => Option.mem_some.mp hb ▸ ⟨hclosed, hrow, htmp⟩⟩

/-- What a line does to the state. -/
structure Turn (stepsVarMap : StepsVarMap) (i : ℕ) (cur : Option Block) (line : String)
    (s s' : AlignState) : Prop where
  stands : Stands i (next stepsVarMap cur line).1 s'
  dataPath : s'.dataPath =
    s.dataPath ++ String.join ((next stepsVarMap cur line).2.toList.map fun b => b.text i)
  newContent : s'.newContent = s.newContent ++ (alignText i cur line ++ "\n")

/-- `addDataPath` adds an item that may be left out. -/
theorem addItem_dataPath (p x v : String) :
    addItem (fun p => endsWith p ")") p (false, item x v) = addDataPath p x v := by
  rw [addItem, addDataPath, Bool.false_or, item]
  refine if_congr Iff.rfl rfl (if_congr ?_ ?_ rfl)
  · rw [Bool.and_eq_true, Bool.not_eq_true', Bool.not_eq_true', Bool.not_eq_true, Bool.not_eq_true]
  · simp only [String.append_assoc]

/-- The data path of a step after one parameter more. -/
theorem Block.path_use (b : Block) (var : String) : (b.use var).path i =
    match b.value i var with
    | some v => addDataPath (b.path i) var v
    | none => b.path i := by
  have hvalue : (b.use var).value i = b.value i := rfl
  have huses : (b.use var).uses = b.uses ++ [(false, var)] := List.map_append
  rw [Block.path, hvalue, huses, items_append, List.foldl_append]
  change (items (b.value i) [(false, var)]).foldl _ (b.path i) = _
  cases hv : b.value i var with
  | none => rw [items_of_eq_none hv]; rfl
  | some v =>
    rw [items_of_eq_some hv, List.foldl_cons, List.foldl_nil, addItem_dataPath]

/-- A line of a step with a parameter. -/
theorem turn_fillLine {b : Block} {line var : String} (hs : Stands i (some b) s)
    (hstart : ¬ isStepStart line = true) (hend : ¬ isStepEnd line = true)
    (huse : alignUse line = some var) :
    Turn stepsVarMap i (some b) line s (s.fillLine line var) := by
  obtain ⟨hclosed, hrow, htmp⟩ := hs.open_ b rfl
  have hnext : next stepsVarMap (some b) line = (some (b.use var), none) := by
    rw [next, if_neg hstart, if_neg hend, huse]
    rfl
  have hvalue : b.value i var = s.stepVar.lookup var := by
    rw [Block.value, valueIn, hrow]
    rfl
  have htext : alignText i (some b) line = fillUse (b.value i) line (some (false, var)) := by
    rw [alignText, huse]
    rfl
  cases hv : s.stepVar.lookup var with
  | none =>
    have hfill : s.fillLine line var = s.addLine line := by rw [AlignState.fillLine, hv]
    rw [hfill]
    refine ⟨?_, ?_, ?_⟩
    · rw [hnext]
      refine .of_some hs.flag hclosed hrow ?_
      rw [Block.path_use, hvalue, hv]
      exact htmp
    · rw [hnext]
      exact String.append_empty.symm
    · rw [htext, fillUse, hvalue, hv]
      rfl
  | some v =>
    have hfill : s.fillLine line var =
        { s with dataPathTmp := addDataPath s.dataPathTmp var v }.addLine (fill line var v) := by
      rw [AlignState.fillLine, hv]
    rw [hfill]
    refine ⟨?_, ?_, ?_⟩
    · rw [hnext]
      refine .of_some hs.flag hclosed hrow ?_
      rw [Block.path_use, hvalue, hv]
      exact congrArg (addDataPath · var v) htmp
    · rw [hnext]
      exact String.append_empty.symm
    · rw [htext, fillUse, hvalue, hv]
      rfl

/-- A line that is left as it is. -/
theorem turn_addLine {line : String} (hs : Stands i cur s)
    (hnext : next stepsVarMap cur line = (cur, none)) (htext : alignText i cur line = line) :
    Turn stepsVarMap i cur line s (s.addLine line) := by
  refine ⟨?_, ?_, ?_⟩
  · rw [hnext]
    exact ⟨hs.flag, hs.open_⟩
  · rw [hnext]
    exact String.append_empty.symm
  · rw [htext]
    rfl

/-- A line without a parameter stays. -/
theorem alignText_of_none {line : String} (h : alignUse line = none) :
    alignText i cur line = line := by
  cases cur with
  | none => rfl
  | some b => rw [alignText, h]; rfl

/-- A line that starts a step. -/
theorem turn_start {line : String} (hs : Stands i cur s) (hstart : isStepStart line = true)
    (h : alignLine stepsVarMap i s line = .ok s') : Turn stepsVarMap i cur line s s' := by
  rw [alignLine, if_pos hstart] at h
  obtain ⟨name, hname, h⟩ := bind_eq_ok.mp h
  have huse : alignUse line = none := by rw [alignUse, hstart, Bool.true_or, if_pos rfl]
  split at h
  · rename_i rows hrows
    obtain ⟨row, hrow, h⟩ := bind_eq_ok.mp h
    cases h
    have hnext : next stepsVarMap cur line = (some ⟨name, rows, [], false⟩, cur) := by
      rw [next, if_pos hstart, opened, hname]
      dsimp only
      rw [hrows]
    refine ⟨?_, ?_, ?_⟩
    · rw [hnext]
      exact .of_some rfl rfl (Prog.nonNull_eq_ok.mp hrow) rfl
    · rw [hnext]
      cases cur with
      | none => exact String.append_empty.symm
      | some b =>
        have htext : b.text i = "" := by
          rw [Block.text, (hs.open_ b rfl).1]
          rfl
        change s.dataPath = s.dataPath ++ String.join [b.text i]
        rw [htext]
        exact String.append_empty.symm
    · rw [alignText_of_none huse]
      rfl
  · rename_i hrows
    cases h
    refine turn_addLine hs ?_ (alignText_of_none huse)
    rw [next, if_pos hstart, opened, hname]
    dsimp only
    cases hlookup : stepsVarMap.lookup name with
    | none => rfl
    | some rows =>
      cases rows with
      | none => rfl
      | some rows => exact absurd hlookup (hrows rows)

/-- A line that ends a step. -/
theorem turn_end {line : String} (hs : Stands i cur s) (hstart : ¬ isStepStart line = true)
    (hend : isStepEnd line = true) (h : alignLine stepsVarMap i s line = .ok s') :
    Turn stepsVarMap i cur line s s' := by
  have huse : alignUse line = none := by rw [alignUse, hend, Bool.or_true, if_pos rfl]
  have hnext : next stepsVarMap cur line = (none, cur.map Block.close) := by
    rw [next, if_neg hstart, if_pos hend]
  rw [alignLine, if_neg hstart, if_pos hend] at h
  cases h
  refine ⟨?_, ?_, ?_⟩
  · rw [hnext]
    exact ⟨rfl, fun b hb => nomatch hb⟩
  · rw [hnext]
    cases cur with
    | none =>
      have hflag : s.flag = false := hs.flag
      simp only [hflag, AlignState.addLine]
      exact String.append_empty.symm
    | some b =>
      obtain ⟨-, -, htmp⟩ := hs.open_ b rfl
      have hflag : s.flag = true := hs.flag
      have htext : b.close.text i = b.path i ++ "]" := rfl
      simp only [hflag, AlignState.addLine]
      change s.dataPath ++ (s.dataPathTmp ++ "]") = s.dataPath ++ String.join [b.close.text i]
      rw [htmp, htext, String.join_cons, String.join_nil, String.append_empty]
  · rw [alignText_of_none huse]
    split <;> rfl

/-- What each line does. -/
theorem turn_of_alignLine {line : String} (hs : Stands i cur s)
    (h : alignLine stepsVarMap i s line = .ok s') : Turn stepsVarMap i cur line s s' := by
  by_cases hstart : isStepStart line = true
  · exact turn_start hs hstart h
  by_cases hend : isStepEnd line = true
  · exact turn_end hs hstart hend h
  have huse : alignUse line = if isSetValue line then (setValueParam line).toOption
      else if isAssert line then (assertParam ")\"," ")," line).toOption else none := by
    rw [alignUse, if_neg]
    simp [hstart, hend]
  have hplain (hnone : cur = none ∨ alignUse line = none) (hs' : s' = s.addLine line) :
      Turn stepsVarMap i cur line s s' := by
    subst hs'
    refine turn_addLine hs ?_ ?_
    · rw [next, if_neg hstart, if_neg hend]
      rcases hnone with rfl | hnone
      · cases alignUse line <;> rfl
      · rw [hnone]
    · rcases hnone with rfl | hnone
      · rfl
      · exact alignText_of_none hnone
  rw [alignLine, if_neg hstart, if_neg hend] at h
  cases hcur : cur with
  | none =>
    have hflag : s.flag = false := by rw [hs.flag, hcur]; rfl
    rw [hflag, Bool.and_false, if_neg Bool.false_ne_true, Bool.and_false,
      if_neg Bool.false_ne_true] at h
    rw [← hcur]
    exact hplain (.inl hcur) (Except.ok.inj h).symm
  | some b =>
    have hflag : s.flag = true := by rw [hs.flag, hcur]; rfl
    rw [hcur] at hs
    rw [hflag, Bool.and_true, Bool.and_true] at h
    by_cases hset : isSetValue line = true
    · rw [if_pos hset] at h huse
      obtain ⟨var, hvar, h⟩ := bind_eq_ok.mp h
      cases h
      exact turn_fillLine hs hstart hend (by rw [huse, hvar]; rfl)
    · rw [if_neg hset] at h huse
      by_cases hassert : isAssert line = true
      · rw [if_pos hassert] at h huse
        obtain ⟨var, hvar, h⟩ := bind_eq_ok.mp h
        cases h
        exact turn_fillLine hs hstart hend (by rw [huse, hvar]; rfl)
      · rw [if_neg hassert] at h huse
        rw [← hcur]
        exact hplain (.inr huse) (Except.ok.inj h).symm

/-- The data path that the loop builds. -/
theorem dataPath_of_foldlM {lines : List String} (hs : Stands i cur s)
    (h : lines.foldlM (alignLine stepsVarMap i) s = .ok s') :
    s'.dataPath =
      s.dataPath ++ String.join ((blocks stepsVarMap cur lines).map fun b => b.text i) := by
  induction lines generalizing cur s with
  | nil =>
    cases h
    cases cur with
    | none => exact String.append_empty.symm
    | some b =>
      have htext : b.text i = "" := by
        rw [Block.text, (hs.open_ b rfl).1]
        rfl
      rw [blocks, Option.toList_some, List.map_singleton, htext]
      exact String.append_empty.symm
  | cons line lines ih =>
    rw [List.foldlM_cons] at h
    obtain ⟨s₁, hline, h⟩ := bind_eq_ok.mp h
    have hturn := turn_of_alignLine hs hline
    rw [ih hturn.stands h, hturn.dataPath, blocks, List.map_append, String.join_append,
      String.append_assoc]

/-- The text that the loop builds. -/
theorem newContent_of_foldlM {lines : List String} (hs : Stands i cur s)
    (h : lines.foldlM (alignLine stepsVarMap i) s = .ok s') :
    s'.newContent = s.newContent ++ filledIn stepsVarMap i cur lines := by
  induction lines generalizing cur s with
  | nil =>
    cases h
    exact String.append_empty.symm
  | cons line lines ih =>
    rw [List.foldlM_cons] at h
    obtain ⟨s₁, hline, h⟩ := bind_eq_ok.mp h
    have hturn := turn_of_alignLine hs hline
    rw [ih hturn.stands h, hturn.newContent, filledIn, String.append_assoc]

end Align

end MQTestView

end MBT
