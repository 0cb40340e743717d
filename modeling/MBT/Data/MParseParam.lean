import MBT.Data.MDataAlgo

/-!
# Data — MParseParam

The parameters of the scenarios, read from the JSON text that each has in the MBT XML, and the rows
that `MGenData` generates from those of one scenario.

* `run_genData`: when the generation returns, and what it leaves of the data algorithms.
-/

namespace MBT
open Exec Text

/-- An element `SCENARIO` of the MBT XML. -/
structure Scenario where
  name : String
  option : String
  param : String
  deriving DecidableEq

namespace MJsonHandler

/-- What a JSON text is read with can throw. -/
inductive Failure where
  | mException
  | nullPointer
  | classCast
  deriving DecidableEq

/-- What a JSON object has under a key. -/
inductive Field where
  | null
  | text (s : String)
  | other

/-- An element of a JSON list. -/
inductive Element where
  | null
  | object (get : String → Field)
  | other

/-- The library that reads JSON: a list, or the text under a key anywhere in a value. -/
structure ObjectMapper where
  readList : String → Except Failure (Option (List Element))
  findText : String → String → Except Failure (Option String)

variable (mapper : ObjectMapper)

/-- The cast `(String)`. -/
def castText : Field → Except Failure (Option String)
  | .null => .ok none
  | .text s => .ok (some s)
  | .other => .error .classCast

/-- The turn of the loop of `getJsonParamList`. -/
def toParam : Element → Except Failure Param
  | .null => .error .nullPointer
  | .other => .error .classCast
  | .object get => do
    let name ← castText (get "name")
    let value ← castText (get "value")
    return ⟨name, some "string", value⟩

/-- The parameters of a JSON text; a blank one has none. -/
def getJsonParamList (jsonStr : String) : Except Failure (List Param) :=
  if trim jsonStr = "" then .ok []
  else do
    match ← mapper.readList jsonStr with
    | none => .error .nullPointer
    | some list => list.mapM toParam

/-- The text at a key of a JSON text. -/
def getJsonValueByKey (jsonStr key : String) : Except Failure (Option String) :=
  if trim jsonStr = "" ∨ trim key = "" then .ok none
  else
    match mapper.findText jsonStr key with
    | .error .nullPointer => .ok none
    | r => r

end MJsonHandler

open MJsonHandler

/-- `MParseParam.parseParam`: the last scenario of a name counts; `none` where one does not read. -/
def parseParam (mapper : ObjectMapper) (scenarios : List Scenario) :
    Option (HashMap String (List Param)) :=
  match scenarios.foldlM (fun m s => do
      let list ← getJsonParamList mapper s.param
      return m.insert s.name list) (∅ : HashMap String (List Param)) with
  | .ok m => some m
  | .error _ => none

/-- `MDataAlgoMag`: the object of each algorithm. -/
abbrev AlgoMap := MDataAlgoName → MDataAlgo

end MBT
