import MBT.Support.Descent
import MBT.View.MGenDataFile

/-!
# View — DataTemplate

`genDataWizard`: the data file that a wizard asks for, with an element for each message, and below it
one for each field of the class files.

* `genDataField_attributes`: each element has the name of its field.
* `outcome_genDataField`: the recursion descends as the class files of the fields refer to each other.
-/

namespace MBT
open Exec Text MXmlParse MQTestActionHandler

/-- The attributes of a field in a class file; a missing one is empty, and the type of the value
without one is 0. -/
structure FieldDecl where
  name : String
  classStr : String
  subClass : String
  type : String
  value : String
  valueType : String

/-- The declaration of a field in a class file. -/
def FieldDecl.ofElement (field : Element) : FieldDecl where
  name := (field.attributeValue "name").getD ""
  classStr := (field.attributeValue "class").getD ""
  subClass := (field.attributeValue "sub-class").getD ""
  type := (field.attributeValue "type").getD ""
  value := (field.attributeValue "value").getD ""
  valueType := (field.attributeValue "value-type").getD "0"

/-- An exception of the library. -/
def runtime {α : Type} : Except Exn α → Except Failure α
  | .ok a => .ok a
  | .error e => .error (.runtime e)

/-- `new MXmlParse(fileName)`, and its root. -/
def readRoot (files : String → Option (Option Element)) (fileName : String) : Except Failure Element :=
  match files fileName with
  | none => .error .mException
  | some none => .error .document
  | some (some root) => .ok root

/-- The file of a class, whose name has dots. -/
def classFile (basePath classStr : String) : String :=
  basePath ++ "/" ++ replace classStr "." "/" ++ ".xml"

/-- A computation that returns does so here too. -/
theorem runtime_eq_ok {α : Type} {x : Except Exn α} {a : α} : runtime x = .ok a ↔ x = .ok a := by
  cases x with
  | ok b => exact ⟨fun h => congrArg _ (Except.ok.inj h), fun h => congrArg _ (Except.ok.inj h)⟩
  | error e => exact iff_of_false (by rintro ⟨⟩) (by rintro ⟨⟩)

/-- One that does not overflow does not here either. -/
theorem runtime_ne {α : Type} {x : Except Exn α} (h : x ≠ .error .stackOverflow) :
    runtime x ≠ .error (.runtime .stackOverflow) := by
  cases x with
  | ok a => rintro ⟨⟩
  | error e =>
    intro he
    cases he
    exact h rfl

/-- The root of a file that can be read. -/
theorem readRoot_eq_ok {files : String → Option (Option Element)} {fileName : String} {root : Element} :
    readRoot files fileName = .ok root ↔ files fileName = some (some root) := by
  rw [readRoot]
  cases files fileName with
  | none => exact iff_of_false (by rintro ⟨⟩) (by rintro ⟨⟩)
  | some file =>
    cases file with
    | none => exact iff_of_false (by rintro ⟨⟩) (by rintro ⟨⟩)
    | some r =>
      rw [Option.some_inj, Option.some_inj]
      exact ⟨Except.ok.inj, congrArg _⟩

/-- Reading a file does not overflow. -/
theorem readRoot_ne {files : String → Option (Option Element)} {fileName : String} :
    readRoot files fileName ≠ .error (.runtime .stackOverflow) := by
  rw [readRoot]
  split <;> rintro ⟨⟩

/-- Reading a number does not overflow. -/
theorem parseInt_ne (s : String) : parseInt s ≠ .error .stackOverflow := by
  rw [parseInt]
  split <;> dsimp only <;> split <;> rintro ⟨⟩

namespace MGenDataFile

/-- The text of a field, in quotes where the type of its value is 0. -/
def fieldData (decl : FieldDecl) : Except Exn String := do
  let valueType ← parseInt decl.valueType
  return if valueType = 0 then "\"" ++ decl.value ++ "\"" else decl.value

/-- Nor does the data of a field. -/
theorem fieldData_ne (decl : FieldDecl) : fieldData decl ≠ .error .stackOverflow := by
  intro h
  rcases bind_eq_error.mp h with h | ⟨n, -, h⟩
  · exact parseInt_ne _ h
  · cases h

section Generate

variable (files : String → Option (Option Element)) (basePath : String)

/-- The attributes of the element for a field. -/
def fieldAttributes (decl : FieldDecl) : List (String × String) :=
  ("name", decl.name) :: if decl.subClass = "" then [] else [("sub-class", decl.subClass)]

/-- `genDataField`, at most so deep: the element that is added. -/
def genDataField : ℕ → FieldDecl → Except Failure Element
  | 0, _ => .error (.runtime .stackOverflow)
  | depth + 1, decl =>
    if decl.classStr = "" then do
      let data ← runtime (fieldData decl)
      return ⟨"field", fieldAttributes decl, data, []⟩
    else do
      let fieldRoot ← readRoot files (classFile basePath decl.classStr)
      if fieldRoot.elements = [] then
        let data ← runtime (fieldData decl)
        return ⟨"field", fieldAttributes decl, data, []⟩
      else
        let fields ← fieldRoot.elements.mapM fun field => genDataField depth (.ofElement field)
        return ⟨"field", fieldAttributes decl, "", fields⟩

/-- `genDataMsg`: the element that is added. -/
def genDataMsg (depth : ℕ) (msgPath : String) : Except Failure Element := do
  let msgNode ← readRoot files msgPath
  let fields ← msgNode.elements.mapM fun field => genDataField files basePath depth (.ofElement field)
  return ⟨"message", [("name", msgNode.getAttrValue "name")], "", fields⟩

/-- `genDataWizard`: the root of the new document. -/
def genDataWizard (depth : ℕ) (wizardFile : String) : Except Failure Element := do
  let node ← readRoot files wizardFile
  let msgList := node.elements.filter (·.name = "message")
  let msgs ← msgList.mapM fun element =>
    genDataMsg files basePath depth (classFile basePath (element.getAttrValue "name"))
  return ⟨"wizard", [], "", msgs⟩

end Generate

variable {files : String → Option (Option Element)} {basePath : String}

/-- The element for a field has the field's name and its sub-class. -/
theorem genDataField_attributes {depth : ℕ} {decl : FieldDecl} {e : Element}
    (h : genDataField files basePath depth decl = .ok e) : e.attributes = fieldAttributes decl := by
  cases depth with
  | zero => cases h
  | succ depth =>
    rw [genDataField] at h
    split at h
    · obtain ⟨data, -, h⟩ := bind_eq_ok.mp h
      cases h
      rfl
    · obtain ⟨root, -, h⟩ := bind_eq_ok.mp h
      split at h
      · obtain ⟨data, -, h⟩ := bind_eq_ok.mp h
        cases h
        rfl
      · obtain ⟨fields, -, h⟩ := bind_eq_ok.mp h
        cases h
        rfl

/-! ### The descent -/

/-- A field without a class, or whose class has no fields: its text is read, which may fail. -/
def leafSteps (decl : FieldDecl) : List (Except Failure FieldDecl) :=
  match fieldData decl with
  | .ok _ => []
  | .error e => [.error (.runtime e)]

section Steps

variable (files : String → Option (Option Element)) (basePath : String)

/-- The fields that `genDataField` goes on with. -/
def dataSteps (decl : FieldDecl) : List (Except Failure FieldDecl) :=
  if decl.classStr = "" then leafSteps decl
  else
    match readRoot files (classFile basePath decl.classStr) with
    | .error e => [.error e]
    | .ok root =>
      if root.elements = [] then leafSteps decl
      else root.elements.map fun field => .ok (.ofElement field)

end Steps

/-- Only the recursion itself overflows. -/
theorem dataSteps_ne {decl : FieldDecl} {e : Failure}
    (h : .error e ∈ dataSteps files basePath decl) : e ≠ .runtime .stackOverflow := by
  have hleaf : ∀ e, .error e ∈ leafSteps decl → e ≠ .runtime .stackOverflow := by
    intro e he
    rw [leafSteps] at he
    split at he
    · cases he
    · rename_i e' hdata
      cases List.mem_singleton.mp he
      rintro ⟨⟩
      exact fieldData_ne decl hdata
  rw [dataSteps] at h
  split at h
  · exact hleaf e h
  split at h
  · rename_i e' hread
    cases List.mem_singleton.mp h
    rintro rfl
    exact readRoot_ne hread
  split at h
  · exact hleaf e h
  · obtain ⟨field, -, hfield⟩ := List.mem_map.mp h
    cases hfield

/-- A leaf goes on with nothing. -/
theorem outcome_leaf (decl : FieldDecl) (f : FieldDecl → Except Failure Unit) (e : String → Element) :
    Descent.outcome (runtime (fieldData decl) >>= fun data => pure (e data)) =
      (leafSteps decl).forM fun c => c >>= f := by
  rw [leafSteps]
  cases fieldData decl <;> rfl

/-- `genDataField` descends from a field to the fields of its class file. -/
theorem outcome_genDataField (depth : ℕ) (decl : FieldDecl) :
    Descent.outcome (genDataField files basePath depth decl) =
      Descent.visit (dataSteps files basePath) (.runtime .stackOverflow) depth decl := by
  induction depth generalizing decl with
  | zero => rfl
  | succ depth ih =>
    rw [genDataField, Descent.visit, dataSteps]
    split
    · exact outcome_leaf decl _ _
    cases readRoot files (classFile basePath decl.classStr) with
    | error e => rfl
    | ok root =>
      dsimp only
      rw [ok_bind]
      split
      · exact outcome_leaf decl _ _
      · rw [Descent.forM_map_ok]
        simp only [← ih]
        rw [← Descent.outcome_mapM]
        cases root.elements.mapM fun field => genDataField files basePath depth (.ofElement field) <;>
          rfl

end MGenDataFile

end MBT
