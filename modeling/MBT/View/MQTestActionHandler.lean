import MBT.Generate.MGenAction
import MBT.Support.Split
import MBT.View.MQTestView

/-!
# View — MQTestActionHandler

The actions of a case as the QTest view handles them: the text of a call is taken apart again at the
quotes and commas that the generated class put between its arguments, and a script is made of them.

* `args_line`: what is read of a call is its arguments without the empty ones at the end.
* `decodes_iff`: the arguments are read back and the action is kept exactly when the last of them is
  not empty and the handler has no other reason to fail on them.
-/

namespace MBT
open Exec Text

namespace MXmlParse

/-- An element of an XML file. -/
structure Element where
  name : String
  attributes : List (String × String)
  data : String
  elements : List Element

namespace Element

/-- The attribute of a name; an element without it has an empty one. -/
def getAttrValue (e : Element) (name : String) : String := (e.attributes.lookup name).getD ""

/-- The first element of a name. -/
def getSubFirstElement (e : Element) (name : String) : Except Exn Element :=
  ArrayList.get (e.elements.filter (·.name = name)) 0

/-- The text of the first element of a name. -/
def getSubData (e : Element) (name : String) : Except Exn String := do
  let elem ← e.getSubFirstElement name
  return elem.data

end Element

end MXmlParse

namespace MQTestActionHandler
open MXmlParse

/-- What the handling of an action can throw. -/
inductive Failure where
  | runtime (e : Exn)
  | mException
  | document
  | io

/-- What the handler reaches outside itself.  A file is absent, or not to be read as XML, or has a
root; `fold` takes a character to the one that stands for its cases. -/
structure Environment where
  files : String → Option (Option Element)
  fold : Char → Char
  genMsg : String → String → String → Except Failure String
  genHttpMsg : String → Except Failure String

/-- A part of the handler; its state is `globalVar`. -/
abbrev Handler (α : Type) := EStateM Failure (HashSet String) α

/-- A computation without state. -/
def liftExn {α : Type} : Except Exn α → Handler α
  | .ok a => pure a
  | .error e => throw (.runtime e)

/-- A computation without state that may fail otherwise. -/
def liftFailure {α : Type} : Except Failure α → Handler α
  | .ok a => pure a
  | .error e => throw e

/-! ### The arguments of a call -/

/-- Splits at quotes with a comma and a blank between them, or else without the blank. -/
def splitVars (vars : String) : List String :=
  let varList := split vars "\", \""
  if varList.length = 1 then split vars "\",\"" else varList

/-- `vars.split` of what stands from `beginIndex` to before the last three characters. -/
def args (action : String) (beginIndex : ℕ) : Except Exn (List String) := do
  let action := trim action
  let vars ← inBounds (slice action beginIndex ((action.length : ℤ) - 3))
  return splitVars vars

example : args "query(\"select a\", \"db\");" 7 = .ok ["select a", "db"] := by decide

/-! ### SQL -/

/-- The columns between `select` and `from`. -/
def columns (sql : String) : Except Exn (List String) := do
  let sql := trim sql
  let vars ← inBounds (slice sql 6 (indexOf sql " from " 0))
  return split vars ","

/-- What the turn `i` of the loop of `getSqlVars` adds, of `n` turns. -/
def sqlVar (n i : ℕ) (var : String) : String :=
  if i = 0 ∧ 1 < n then "[var" ++ trim var ++ ", "
  else if i = 0 ∧ n = 1 then "[var" ++ trim var ++ "]"
  else if i = n - 1 then "var" ++ trim var ++ "]"
  else "var" ++ trim var ++ ", "

/-- The variables of the columns of a `select`. -/
def getSqlVars (sql : String) : Except Exn String :=
  if startsWith sql "select " then do
    let varList ← columns sql
    return String.join (varList.mapIdx (sqlVar varList.length))
  else .ok ""

example : getSqlVars "select a, b from t" = .ok "[vara, varb]" := by decide

/-- Both patterns stand for one text, and neither template has a character with a meaning. -/
def handleSql (sql : String) : String :=
  let sql := if endsWith sql ";" then sql else sql ++ ";"
  replace (replace sql "$\x7b" "\" + ") "\x7d" " + \""

/-- The line that gets the handler of a database. -/
def handleDBEntity (entity : String) : String :=
  "varDbHandler = ResObjFactory.getObject('" ++ entity ++ "')\n"

/-- The line that gets a remote object. -/
def handleRemoteEntity (entity : String) : String :=
  "varRemote = ResObjFactory.getObject('" ++ entity ++ "')\n"

/-- The lines that call it. -/
def handleRemoteCallScript (script expValue : String) : String :=
  "varRemote.setTimeout(1000 * 30)\n" ++
    ("varRemoteResult = varRemote.remoteCall('" ++ script ++ "', \"" ++ expValue ++ "\");\n")

/-! ### What is made of the arguments -/

/-- `handleQuery` behind `varList`. -/
def query (varList : List String) : Except Exn String := do
  let sql ← ArrayList.get varList 0
  let entity ← ArrayList.get varList 1
  let entityStr := handleDBEntity entity
  let sqlVars ← getSqlVars sql
  let sqlNew := handleSql sql
  let sqlVars := if sqlVars = "" then sqlVars else sqlVars ++ " = "
  return entityStr ++ sqlVars ++ "varDbHandler." ++ "query" ++ "(\"" ++ sqlNew ++ "\")\n"

/-- The turn of the loop of `handleDbVerify`. -/
def assertEquals (varList valueList : List String) (i : ℕ) : Except Exn String := do
  let var ← ArrayList.get varList i
  let value ← ArrayList.get valueList i
  return "assertEquals(" ++ trim var ++ ", " ++ value ++ ", \"" ++ trim var ++
    "\", \"Database verify error\")\n"

/-- `handleDbVerify` behind `varlist`. -/
def dbVerify (varlist : List String) : Except Exn String := do
  let sql ← ArrayList.get varlist 0
  let values ← ArrayList.get varlist 1
  let entity ← ArrayList.get varlist 2
  let entityStr := handleDBEntity entity
  let valueList := split values ","
  let sqlVars ← getSqlVars sql
  let sqlNew := handleSql sql
  let vars ← inBounds (slice sqlVars 1 (((trim sqlVars).length : ℤ) - 1))
  let asserts ← (List.range valueList.length).mapM (assertEquals (split vars ",") valueList)
  return entityStr ++
    (sqlVars ++ " = varDbHandler.query(\"" ++ sqlNew ++ "\")\n" ++ String.join asserts)

/-- `handleRemoteCall` behind `varList`. -/
def remoteCall (varList : List String) : Except Exn String := do
  let script ← ArrayList.get varList 0
  let expValue ← ArrayList.get varList 1
  let entity ← ArrayList.get varList 2
  return handleRemoteEntity entity ++ handleRemoteCallScript script expValue

variable (env : Environment)

/-- The script of a variable, without the declaration of a global one. -/
def assign (name value type : String) : String :=
  if MQTestView.equalsIgnoreCase env.fold type "string" then name ++ " = '" ++ value ++ "'\n"
  else name ++ " = " ++ value ++ "\n"

/-- `handleSetVar` behind `varlist`. -/
def setVar (varlist : List String) : Handler String := do
  let name ← liftExn (ArrayList.get varlist 0)
  let value ← liftExn (ArrayList.get varlist 1)
  let type ← liftExn (ArrayList.get varlist 2)
  let domain ← liftExn (ArrayList.get varlist 3)
  let script := assign env (trim name) (trim value) (trim type)
  if MQTestView.equalsIgnoreCase env.fold (trim domain) "global" then
    modify (·.add (trim name))
    return "global" ++ " " ++ trim name ++ "\n" ++ script
  else return script

/-- `handleLoadMsg` behind `varList`. -/
def loadMsg (varList : List String) : Handler (Option String) := do
  let wizard ← liftExn (ArrayList.get varList 0)
  let data ← liftExn (ArrayList.get varList 1)
  let entity ← liftExn (ArrayList.get varList 2)
  if env.files wizard = none then return none
  else return some (← liftFailure (env.genMsg wizard data entity))

/-- `handleLoadHttpMsg` behind `varList`. -/
def loadHttpMsg (varList : List String) : Handler String := do
  let configPath ← liftExn (ArrayList.get varList 0)
  let ip ← liftExn (ArrayList.get varList 1)
  let port ← liftExn (ArrayList.get varList 2)
  let content := "oHttpEnt = HttpEntity('" ++ ip ++ "', " ++ port ++ ");\n"
  let msg ← liftFailure (env.genHttpMsg configPath)
  return content ++ msg

/-- `handleQQLogin` behind `varList`. -/
def qqLogin (varList : List String) : Except Exn String := do
  let uin ← ArrayList.get varList 0
  let password ← ArrayList.get varList 1
  let skey ← ArrayList.get varList 2
  let key ← ArrayList.get varList 3
  return "mVarEntity = AttLoginEntity('" ++ "10.6.207.98" ++ "', " ++ "80" ++ ");\n" ++
    "mVarQQLoginMsg = QQLoginMsg();\n" ++
    "mVarQQLoginMsg.getUin().setValue('" ++ uin ++ "');\n" ++
    "mVarQQLoginMsg.getPsw().setValue('" ++ password ++ "');\n\n" ++
    "mVarEntity.sendMsg(mVarQQLoginMsg);\n" ++
    "mVarQQLoginMsg = QQLoginMsg();\n" ++
    "mVarEntity.setTimeout(1000 * 30);\n\n" ++
    "mVarRecvQQLoginMsg = mVarEntity.receiveMsg(mVarQQLoginMsg);\n" ++
    skey ++ " = mVarRecvQQLoginMsg.getSkey().getValue();\n" ++
    key ++ " = mVarRecvQQLoginMsg.getKey().getValue();\n"

/-- `handleGetLoginKey` behind `varList`. -/
def loginKey (varList : List String) : Except Exn String := do
  let uin ← ArrayList.get varList 0
  let password ← ArrayList.get varList 1
  let appId ← ArrayList.get varList 2
  let skey ← ArrayList.get varList 3
  let key ← ArrayList.get varList 4
  let psKey ← ArrayList.get varList 5
  return "mVarEntity = GetAttQQEntity('" ++ "10.130.130.206" ++ "', " ++ "49999" ++ ");\n" ++
    "mVarGetAttQQReqMsg = GetAttQQReqMsg();\n" ++
    "mVarGetAttQQReqMsg.getCmdType().setValue(\"17\");\n" ++
    "mVarGetAttQQReqMsg.getGroupId().setValue(\"126\");\n" ++
    "mVarGetAttQQReqMsg.getUin().setValue(\"" ++ uin ++ "\");\n" ++
    "mVarGetAttQQReqMsg.getPwd().setValue(\"" ++ password ++ "\");\n" ++
    "mVarGetAttQQReqMsg.getAppId().setValue(\"" ++ appId ++ "\");\n" ++
    "mVarGetAttQQReqMsg.getCode().setValue(\"\");\n" ++
    "mVarGetAttQQReqMsg.getRetCode().setValue(\"\");\n" ++
    "mVarGetAttQQReqMsg.getSkey().setValue(\"\");\n" ++
    "mVarGetAttQQReqMsg.getCUin().setValue(\"\");\n" ++
    "mVarGetAttQQReqMsg.getSession().setValue(\"ptlogin2.paipai.com\");\n\n" ++
    "mVarEntity.sendMsg(mVarGetAttQQReqMsg);\n\n" ++
    "mVarGetAttQQRspMsg = GetAttQQRspMsg();\n" ++
    "mVarGetAttQQRspMsg.getCmdType().setVerifyPresent();\n" ++
    "mVarGetAttQQRspMsg.getGroupId().setVerifyPresent();\n" ++
    "mVarGetAttQQRspMsg.getUin().setVerifyPresent();\n" ++
    "mVarGetAttQQRspMsg.getAppId().setVerifyPresent();\n" ++
    "mVarGetAttQQRspMsg.getRetCode().setVerifyPresent();\n" ++
    "mVarGetAttQQRspMsg.getPwd().setVerifyPresent();\n" ++
    "mVarGetAttQQRspMsg.getSkey().setVerifyPresent();\n" ++
    "mVarGetAttQQRspMsg.getCode().setVerifyPresent();\n" ++
    "mVarGetAttQQRspMsg.getCUin().setVerifyPresent();\n" ++
    "mVarGetAttQQRspMsg.getSession().setVerifyPresent();\n" ++
    "mVarGetAttQQRspMsg.getReturnCode().setVerifyPresent();\n\n" ++
    "mVarEntity.setTimeout(1000 * 30);\n" ++
    "mVarRecvGetAttQQRspMsg = mVarEntity.receiveMsg(mVarGetAttQQRspMsg);\n\n" ++
    skey ++ " = mVarRecvGetAttQQRspMsg.getSkey().getValue();\n" ++
    key ++ " = mVarRecvGetAttQQRspMsg.getCUin().getValue();\n" ++
    psKey ++ " = mVarRecvGetAttQQRspMsg.getSession().getValue();\n"

/-! ### The handlers -/

/-- Handles `query`. -/
def handleQuery (action : String) : Handler String := do
  let varList ← liftExn (args action 7)
  liftExn (query varList)

/-- Handles `dbVerify`. -/
def handleDbVerify (action : String) : Handler String := do
  let varlist ← liftExn (args action 10)
  liftExn (dbVerify varlist)

/-- Handles `script`: the text between its quotes. -/
def handleScript (action : String) : Handler String := do
  let action := trim action
  liftExn (inBounds (slice action 8 ((action.length : ℤ) - 3)))

/-- Handles `setVar`. -/
def handleSetVar (action : String) : Handler String := do
  let varlist ← liftExn (args action 8)
  setVar env varlist

/-- Handles `remoteCall`. -/
def handleRemoteCall (action : String) : Handler String := do
  let varList ← liftExn (args action 12)
  liftExn (remoteCall varList)

/-- Handles `loadMsg`. -/
def handleLoadMsg (action : String) : Handler (Option String) := do
  let varList ← liftExn (args action 9)
  loadMsg env varList

/-- Handles `loadHttpMsg`. -/
def handleLoadHttpMsg (action : String) : Handler String := do
  let varList ← liftExn (args action 13)
  loadHttpMsg env varList

/-- Handles `qqLogin`. -/
def handleQQLogin (action : String) : Handler String := do
  let varList ← liftExn (args action 9)
  liftExn (qqLogin varList)

/-- Handles `getLoginKey`. -/
def handleGetLoginKey (action : String) : Handler String := do
  let varList ← liftExn (args action 13)
  liftExn (loginKey varList)

/-! ### Actions from a file -/

/-- The zeros of the decimal digits that are one `char`; each is followed by its nine others. -/
def zeros : List ℕ :=
  [0x30, 0x660, 0x6F0, 0x7C0, 0x966, 0x9E6, 0xA66, 0xAE6, 0xB66, 0xBE6, 0xC66, 0xCE6, 0xD66, 0xDE6,
    0xE50, 0xED0, 0xF20, 0x1040, 0x1090, 0x17E0, 0x1810, 0x1946, 0x19D0, 0x1A80, 0x1A90, 0x1B50,
    0x1BB0, 0x1C40, 0x1C50, 0xA620, 0xA8D0, 0xA900, 0xA9D0, 0xA9F0, 0xAA50, 0xABF0, 0xFF10]

/-- `Character.digit(c, 10)`; `none` is -1. -/
def digit (c : Char) : Option ℕ :=
  (zeros.find? fun z => z ≤ c.toNat ∧ c.toNat < z + 10).map (c.toNat - ·)

/-- The number of some digits, after those of `n`. -/
def ofDigits (n : ℕ) (ds : List Char) : ℕ := ds.foldl (fun n d => 10 * n + (digit d).getD 0) n

/-- `Integer.parseInt` and `Integer.valueOf`. -/
def parseInt (s : String) : Except Exn ℤ :=
  let number (ds : List Char) (sign : ℤ) : Except Exn ℤ :=
    let n := sign * ofDigits 0 ds
    if ds ≠ [] ∧ ds.all (fun d => (digit d).isSome) ∧ -2147483648 ≤ n ∧ n ≤ 2147483647 then .ok n
    else .error .illegalArgument
  match s.toList with
  | '-' :: ds => number ds (-1)
  | '+' :: ds => number ds 1
  | ds => number ds 1

example : parseInt "-12" = .ok (-12) := by decide

-- the digits one and two of full width
example : parseInt "\uff11\uff12" = .ok 12 := by decide

/-- The clause of a query, left out where it has no text. -/
def clause (begins data : String) : String := if data = "" then "" else begins ++ data

/-- The `dbVerify` of an element. -/
def getDbVerifyAction (dbverifyElem : Element) : Except Exn String := do
  let sqlElem ← dbverifyElem.getSubFirstElement "sql"
  let selectData ← sqlElem.getSubData "select"
  let fromData ← sqlElem.getSubData "from"
  let whereData ← sqlElem.getSubData "where"
  let groupbyData ← sqlElem.getSubData "groupby"
  let havingData ← sqlElem.getSubData "having"
  let orderbyData ← sqlElem.getSubData "orderby"
  let expectValue ← dbverifyElem.getSubData "value"
  let entity ← dbverifyElem.getSubData "entity"
  let sql := "select " ++ trim selectData ++ " from " ++ trim fromData ++
    clause " where " (trim whereData) ++ clause " group by " (trim groupbyData) ++
    clause " having " (trim havingData) ++ clause " order by " (trim orderbyData)
  return "dbVerify(\"" ++ sql ++ "\", \"" ++ expectValue ++ "\", \"" ++ entity ++ "\");"

/-- The `script` of an element. -/
def getScriptAction (scriptElem : Element) : Except Exn String :=
  .ok ("script(\"" ++ scriptElem.data ++ "\");")

/-- The `setVar` of an element. -/
def getSetVarAction (varElem : Element) : Except Exn String := do
  let nameData ← varElem.getSubData "name"
  let valueData ← varElem.getSubData "value"
  let typeData ← varElem.getSubData "type"
  let areaData ← varElem.getSubData "area"
  return "setVar(\"" ++ nameData ++ "\", \"" ++ valueData ++ "\", \"" ++ typeData ++ "\", \"" ++
    areaData ++ "\");"

/-- `++i`: behind the largest `int` comes the smallest. -/
def next (i : ℤ) : ℤ := if i = 2147483647 then -2147483648 else i + 1

/-- The loop that adds the numbers of a range, for a list with room for so many more.  Where the range
ends at the largest `int`, each `int` is within it: the loop does not end before the list is full. -/
def addIds (endPos : ℤ) : ℕ → ℤ → Except Exn (List String)
  | room, i =>
    if i ≤ endPos then
      match room with
      | 0 => .error .outOfMemory
      | room + 1 => do
        let ids ← addIds endPos room (next i)
        return i.repr :: ids
    else .ok []

/-- `begPos` and `endPos` of a filter with a `-` at `tmpIdx`. -/
def idRange (filter : String) (tmpIdx : ℤ) : Except Exn (ℤ × ℤ) := do
  let beg ← inBounds (slice filter 0 tmpIdx)
  let begPos ← parseInt beg
  let endPos ← parseInt (substring filter (tmpIdx + 1).toNat)
  return (begPos, endPos)

/-- `idList`: the numbers of a range, or the parts of a list. -/
def idList (filter : String) : Except Exn (List String) := do
  let tmpIdx := indexOf filter "-" 0
  if tmpIdx = -1 then return split filter ","
  else
    let range ← idRange filter tmpIdx
    addIds range.2 2147483647 range.1

example : idList "9-11" = .ok ["9", "10", "11"] := by decide +kernel

/-- The elements of the tags, or of the ids in the order of these; `once` where an id stands for the
first element that has it. -/
def chosen (once : Bool) (elems : List Element) (type : String) (filter : Except Exn String) :
    Except Exn (List Element) := do
  if type = "0" then
    let tags := (split (trim (← filter)) ",").map trim
    return elems.filter fun e => e.getAttrValue "tag" ∈ tags
  else if type = "1" then
    let ids ← idList (trim (← filter))
    return ids.flatMap fun id =>
      let found := elems.filter fun e => trim id = trim (e.getAttrValue "id")
      if once then found.take 1 else found
  else return elems

/-- The three handlers of files differ in the action of an element, in `once` and in what ends
the script. -/
structure Loader where
  getAction : Element → Except Exn String
  handle : String → Handler String
  once : Bool
  ending : String

/-- What a file gives; `type` and `filter` choose elements. -/
def Loader.load (l : Loader) (filePath type : String) (filter : Except Exn String) :
    Handler (Option String) :=
  match env.files filePath with
  | none => return none
  | some none => throw .document
  | some (some root) => do
    let elems ← liftExn (chosen l.once root.elements type filter)
    let scripts ← elems.foldlM (fun scripts elem => do
      let action ← liftExn (l.getAction elem)
      let script ← l.handle action
      return scripts ++ (script ++ "\n")) ""
    return some (trim scripts ++ l.ending)

/-- Handles an action that names a file, with the selection behind the path. -/
def Loader.handleLoad (l : Loader) (action : String) : Handler (Option String) := do
  let action := trim action
  let firstIdx := indexOf action "\"" 0
  let secondIdx := indexOf action "\"" (firstIdx + 1)
  let thirdIdx := indexOf action "\"" (secondIdx + 1)
  let fourthIdx := indexOf action "\"" (thirdIdx + 1)
  let fifthIdx := indexOf action "\"" (fourthIdx + 1)
  let sixthIdx := indexOf action "\"" (fifthIdx + 1)
  let filePath ← liftExn (inBounds (slice action (firstIdx + 1) secondIdx))
  if env.files (trim filePath) = none then return none
  else
    let type ← if thirdIdx ≠ -1 ∧ fourthIdx ≠ -1 then
        liftExn (inBounds (slice action (thirdIdx + 1) fourthIdx))
      else pure ""
    l.load env (trim filePath) (trim type) (inBounds (slice action (fifthIdx + 1) sixthIdx))

/-- Handles `loadDbVerify`. -/
def handleLoadDbVerify (action : String) : Handler (Option String) :=
  Loader.handleLoad env ⟨getDbVerifyAction, handleDbVerify, false, "\n"⟩ action

/-- Handles `loadScript`. -/
def handleLoadScript (action : String) : Handler (Option String) :=
  Loader.handleLoad env ⟨getScriptAction, handleScript, true, "\n"⟩ action

/-- Handles `loadVar`. -/
def handleLoadVar (action : String) : Handler (Option String) :=
  Loader.handleLoad env ⟨getSetVarAction, handleSetVar env, false, ""⟩ action

/-! ### The choice of the handler -/

/-- The cases of the switch of `loadNonMsg`. -/
inductive NonMsg where
  | script | loadVar1 | loadScript1 | loadDbVerify1 | query | remoteCall | dbVerify
  | loadVar2 | loadScript2 | loadDbVerify2 | setVar
  deriving DecidableEq

namespace NonMsg

/-- The numbers `MLOAD_NON_MSG` of `MQTestView`. -/
def number : NonMsg → ℤ
  | script => 1
  | loadVar1 => 2
  | loadScript1 => 3
  | loadDbVerify1 => 4
  | query => 5
  | remoteCall => 6
  | dbVerify => 7
  | loadVar2 => 8
  | loadScript2 => 9
  | loadDbVerify2 => 10
  | setVar => 11

/-- All types of a call. -/
def all : List NonMsg :=
  [script, loadVar1, loadScript1, loadDbVerify1, query, remoteCall, dbVerify, loadVar2,
    loadScript2, loadDbVerify2, setVar]

/-- The type of a number, if there is one. -/
def ofNumber (type : ℤ) : Option NonMsg := all.find? (·.number = type)

/-- Handles a call of the type. -/
def handle : NonMsg → String → Handler (Option String)
  | script, action => some <$> handleScript action
  | loadVar1, action | loadVar2, action => handleLoadVar env action
  | loadScript1, action | loadScript2, action => handleLoadScript env action
  | loadDbVerify1, action | loadDbVerify2, action => handleLoadDbVerify env action
  | query, action => some <$> handleQuery action
  | remoteCall, action => some <$> handleRemoteCall action
  | dbVerify, action => some <$> handleDbVerify action
  | setVar, action => some <$> handleSetVar env action

end NonMsg

/-- The branch `loadNonMsg` of `handleAction`. -/
def handleLoadNonMsg (action : String) : Handler (Option String) := do
  let varList ← liftExn (args action 12)
  let number ← liftExn (ArrayList.get varList 0)
  let type ← liftExn (parseInt number)
  match NonMsg.ofNumber type with
  | some t => t.handle env action
  | none => return some action

/-- `null` is `none`. -/
def handleAction (action : String) : Handler (Option String) :=
  if startsWith action "query" then some <$> handleQuery action
  else if startsWith action "loadDbVerify" then handleLoadDbVerify env action
  else if startsWith action "dbVerify" then some <$> handleDbVerify action
  else if startsWith action "loadScript" then handleLoadScript env action
  else if startsWith action "script" then some <$> handleScript action
  else if startsWith action "loadMsg" then handleLoadMsg env action
  else if startsWith action "loadVar" then handleLoadVar env action
  else if startsWith action "setVar" then some <$> handleSetVar env action
  else if startsWith action "remoteCall" then some <$> handleRemoteCall action
  else if startsWith action "loadNonMsg" then handleLoadNonMsg env action
  else if startsWith action "loadHttpMsg" then some <$> handleLoadHttpMsg env action
  else if startsWith action "QQLogin" then some <$> handleQQLogin action
  else if startsWith action "getLoginKey" then some <$> handleGetLoginKey action
  else return some action

/-- `MQTestView.setAction`: an action that is not handled is dropped from the case. -/
def setAction (action : String) (globalVar : HashSet String) : String × HashSet String :=
  match (handleAction env action).run globalVar with
  | .ok script globalVar => (script.getD "null" ++ "\n", globalVar)
  | .error _ globalVar => ("", globalVar)

/-! ### The content of a case -/

/-- The kinds of a step, by the part of the script that it becomes. -/
inductive StepType where
  | none | setup | cleanup | test
  deriving DecidableEq

/-- The variables of the loop of `setContent`. -/
structure Content where
  step : String
  commonPart : String
  setupPart : String
  cleanupPart : String
  testPart : String
  inStep : Bool
  stepType : StepType
  deriving DecidableEq

/-- A step is put to the part of its kind. -/
def Content.endStep (c : Content) : Content :=
  let c' := { c with inStep := false, stepType := .none, step := "" }
  match c.stepType with
  | .setup => { c' with setupPart := c.setupPart ++ c.step }
  | .cleanup => { c' with cleanupPart := c.cleanupPart ++ c.step }
  | .test => { c' with testPart := c.testPart ++ c.step }
  | .none => c'

/-- The turn `i` of the loop of `setContent`. -/
def contentLine (lineList : List String) (c : Content) (i : ℕ) : Except Exn Content := do
  let line := (← ArrayList.get lineList i) ++ "\n"
  if startsWith line "stepStart" then
    let lastLine := (← ArrayList.get lineList ((i : ℤ) - 1)) ++ "\n"
    return { c with
      step := c.step ++ ("    " ++ lastLine ++ "    " ++ line), stepType := .test, inStep := true }
  else if startsWith line "stepEnd" then
    return { c with step := c.step ++ ("    " ++ line ++ "\n") }.endStep
  else if c.inStep then
    if startsWith line "setup" then return { c with stepType := .setup }
    else if startsWith line "cleanup" then return { c with stepType := .cleanup }
    else return { c with step := c.step ++ ("    " ++ line) }
  else if ¬ startsWith line "# " then return { c with commonPart := c.commonPart ++ line }
  else return c

/-- A part without steps. -/
def orPass (part begins : String) : String := if part = begins then part ++ "    pass\n" else part

/-- The script of a case: its steps in the three functions, in a frame of XML. -/
def setContent (content : String) : Except Exn String := do
  let lineList := split content "\n"
  let c ← (List.range lineList.length).foldlM (contentLine lineList)
    ⟨"", "", "def Setup():\n", "\ndef Cleanup():\n", "\ndef Test():\n", false, .none⟩
  let setupPart := orPass c.setupPart "def Setup():\n"
  let cleanupPart := orPass c.cleanupPart "\ndef Cleanup():\n"
  let testPart := orPass c.testPart "\ndef Test():\n"
  return "<?xml version=\"1.0\" encoding=\"UTF-8\"?>\n" ++
    "<script-case class-id=\"\x7bMTC1078D2ED2DED-20130828-151750016-00000001\x7d\">\n" ++
    "<manual-script><![CDATA[" ++
    (replace c.commonPart "\n\n" "\n" ++ setupPart ++ testPart ++ cleanupPart) ++
    "]]></manual-script></script-case>"

/-! ### The text of a call -/

/-- The characters of the parameters. -/
theorem toList_paramInfo (p : String) (params : List String) :
    (Action.paramInfo (p :: params)).toList =
      '"' :: (("\", \"".intercalate (p :: params)).toList ++ ['"']) := by
  induction params generalizing p with
  | nil => simp [Action.paramInfo]
  | cons q params ih =>
    have hparam : Action.paramInfo (p :: q :: params) =
        "\"" ++ p ++ "\"" ++ ", " ++ Action.paramInfo (q :: params) := by
      rw [Action.paramInfo, List.map_cons, String.intercalate_cons_of_ne_nil (by simp)]
      rfl
    rw [hparam, String.intercalate_cons_of_ne_nil (by simp)]
    simp [ih]

/-- A call: the name, the arguments with what stands between two of them, and what ends it. -/
theorem toList_line (name p : String) (params : List String) :
    (Action.line ⟨name, p :: params⟩).toList =
      (name.toList ++ ['(', '"']) ++ (("\", \"".intercalate (p :: params)).toList ++
        ['"', ')', ';']) := by
  rw [Action.line, Action.mergeInfo]
  simp [toList_paramInfo]

/-- How the line of an action starts. -/
theorem startsWith_line (name p : String) (params : List String) (w : String) :
    startsWith (Action.line ⟨name, p :: params⟩) w = w.toList.isPrefixOf
      ((name.toList ++ ['(', '"']) ++ (("\", \"".intercalate (p :: params)).toList ++
        ['"', ')', ';'])) := by
  rw [startsWith, toList_line]

/-- A text between two characters that are no blanks is not trimmed. -/
theorem trim_eq_self {s : String} {c d : Char} {m : List Char} (hs : s.toList = c :: (m ++ [d]))
    (hc : ¬ c ≤ ' ') (hd : ¬ d ≤ ' ') : trim s = s := by
  rw [trim, hs, List.dropWhile_cons_of_neg (by simpa using hc), ← List.cons_append,
    List.reverse_append, List.reverse_singleton, List.singleton_append,
    List.dropWhile_cons_of_neg (by simpa using hd), ← List.singleton_append,
    List.reverse_append, List.reverse_reverse, List.reverse_singleton, List.cons_append, ← hs,
    String.ofList_toList]

/-- A name that does not begin with a blank. -/
def Named (name : String) : Prop := ∃ c ∈ name.toList.head?, ¬ c ≤ ' '

/-- The line of an action has no blanks at its ends. -/
theorem trim_line {name : String} (hname : Named name) (p : String) (params : List String) :
    trim (Action.line ⟨name, p :: params⟩) = Action.line ⟨name, p :: params⟩ := by
  obtain ⟨c, hc, hblank⟩ := hname
  obtain ⟨n, hn⟩ := List.head?_eq_some_iff.mp hc
  have hline : (Action.line ⟨name, p :: params⟩).toList =
      c :: ((n ++ ['(', '"'] ++ ("\", \"".intercalate (p :: params)).toList ++ ['"', ')']) ++ [';']) := by
    rw [toList_line, hn]
    simp
  exact trim_eq_self hline hblank (by decide)

/-- What stands in a call before the three characters that end it. -/
theorem slice_call {action : String} {before q : List Char}
    (h : action.toList = before ++ (q ++ ['"', ')', ';'])) :
    slice action before.length ((action.length : ℤ) - 3) = some (String.ofList q) := by
  have hend : (action.length : ℤ) - 3 = (before ++ q).length := by
    rw [← String.length_toList, h, ← List.append_assoc, List.length_append]
    simp
  rw [hend, slice_middle h]

/-- What is read of a call from the place at which `x` begins. -/
theorem args_eq {action x : String} {params : List String} {before : List Char}
    (htrim : trim action = action) (h : action.toList =
      before ++ (("\", \"".intercalate (x :: params)).toList ++ ['"', ')', ';'])) :
    args action before.length = .ok (splitVars ("\", \"".intercalate (x :: params))) := by
  rw [args, htrim, slice_call h, String.ofList_toList]
  rfl

/-! ### The pieces of a text -/

/-- No separator begins in the text, whatever follows it. -/
def Inert (x : String) : Prop := ∀ r, Pattern.startsIn ['"', ','] x.toList r = 0

/-- A text without quotes is inert. -/
theorem inert_of_notMem {x : String} (h : '"' ∉ x.toList) : Inert x :=
  Pattern.startsIn_eq_zero h

/-- The separators of empty parameters. -/
theorem occurrences_empties {x : String} (hx : Inert x) {params : List String}
    (h : ∀ p ∈ params, p = "") :
    Pattern.occurrences ['"', ',', '"'] ("\", \"".intercalate (x :: params)).toList = 0 := by
  have hseps : ∀ params : List String, (∀ p ∈ params, p = "") → Pattern.occurrences ['"', ',', '"']
      ((params.map String.toList).flatMap (['"', ',', ' ', '"'] ++ ·)) = 0 := by
    intro params h
    induction params with
    | nil => rfl
    | cons p params ih =>
      have hparams := ih fun q hq => h q (List.mem_cons_of_mem _ hq)
      rw [h p List.mem_cons_self, List.map_cons, List.flatMap_cons, String.toList_empty,
        List.append_nil, Pattern.occurrences_append, hparams]
      cases params with
      | nil => rfl
      | cons q params => rfl
  rw [String.toList_intercalate, List.map_cons, intercalate_cons, Pattern.occurrences_append]
  refine Nat.add_eq_zero_iff.mpr ⟨startsIn_append ['"'] (hx _), hseps params h⟩

/-- The pieces that are left of a text: all but the empty ones at its end, or the whole text where
that would be one. -/
theorem splitVars_intercalate {x : String} {params : List String} (hx : Inert x)
    (hparams : ∀ p ∈ params, '"' ∉ p.toList) (hne : params ≠ []) :
    splitVars ("\", \"".intercalate (x :: params)) =
      if ((x :: params).rdropWhile (· = "")).length = 1 then ["\", \"".intercalate (x :: params)]
      else (x :: params).rdropWhile (· = "") := by
  have hsplit : split ("\", \"".intercalate (x :: params)) "\", \"" =
      (x :: params).rdropWhile (· = "") :=
    split_intercalate rfl (fun r => startsIn_append [' ', '"'] (hx ('"' :: r))) hparams hne
  rw [splitVars, hsplit]
  split
  · rename_i hlen
    refine split_of_occurrences (occurrences_empties hx ?_)
    rw [rdropWhile_cons] at hlen
    split at hlen
    · rename_i hempty
      exact fun p hp => of_decide_eq_true (List.rdropWhile_eq_nil_iff.mp hempty p hp)
    · rename_i hempty
      rw [List.length_cons] at hlen
      exact absurd (List.length_eq_zero_iff.mp (Nat.succ.inj hlen)) hempty
  · rfl

/-- The arguments are the pieces exactly when the last is not empty. -/
theorem splitVars_eq_iff {x : String} {params : List String} (hx : Inert x)
    (hparams : ∀ p ∈ params, '"' ∉ p.toList) (hne : params ≠ []) :
    splitVars ("\", \"".intercalate (x :: params)) = x :: params ↔
      params.getLast? ≠ some "" := by
  have hlast : (x :: params).getLast? = params.getLast? := by
    obtain ⟨q, params, rfl⟩ := List.exists_cons_of_ne_nil hne
    exact List.getLast?_cons_cons
  rw [splitVars_intercalate hx hparams hne]
  constructor
  · intro h hempty
    have hlt := length_rdropWhile_lt (hlast.trans hempty)
    split at h
    · rw [List.cons.injEq] at h
      exact hne h.2.symm
    · rw [h] at hlt
      exact lt_irrefl _ hlt
  · intro h
    rw [rdropWhile_eq_self (hlast.symm ▸ h), if_neg]
    rw [List.length_cons]
    exact fun e => hne (List.length_eq_zero_iff.mp (Nat.succ.inj e))

/-- Where the last is empty, there are fewer. -/
theorem length_splitVars_lt {x : String} {params : List String} (hx : Inert x)
    (hparams : ∀ p ∈ params, '"' ∉ p.toList) (hempty : params.getLast? = some "") :
    (splitVars ("\", \"".intercalate (x :: params))).length < (x :: params).length := by
  obtain ⟨l, rfl⟩ := List.getLast?_eq_some_iff.mp hempty
  rw [splitVars_intercalate hx hparams (by simp)]
  split
  · simp
  · refine length_rdropWhile_lt ?_
    rw [← List.cons_append, List.getLast?_concat]

/-- What is read of a call behind its name is its arguments without the empty ones at the end. -/
theorem args_line {name p : String} {params : List String} (hname : Named name) :
    args (Action.line ⟨name, p :: params⟩) (name.length + 2) =
      .ok (splitVars ("\", \"".intercalate (p :: params))) := by
  have hlen : name.length + 2 = (name.toList ++ ['(', '"']).length := by
    rw [List.length_append, String.length_toList]
    rfl
  rw [hlen]
  exact args_eq (trim_line hname p params) (toList_line name p params)

/-! ### Handlers that return -/

/-- The handler returns from these globals. -/
def Succeeds {α : Type} (x : Handler α) (globalVar : HashSet String) : Prop :=
  ∃ a globalVar', x.run globalVar = .ok a globalVar'

section Succeeds

variable {α β : Type} {globalVar : HashSet String}

theorem succeeds_pure (a : α) : Succeeds (pure a) globalVar := ⟨a, globalVar, rfl⟩

/-- When a computation without state succeeds. -/
theorem succeeds_liftExn {x : Except Exn α} :
    Succeeds (liftExn x) globalVar ↔ ∃ a, x = .ok a := by
  cases x with
  | error e => exact iff_of_false (fun ⟨_, _, h⟩ => nomatch h) (fun ⟨_, h⟩ => nomatch h)
  | ok a => exact iff_of_true (succeeds_pure a) ⟨a, rfl⟩

/-- When what comes behind one succeeds. -/
theorem succeeds_liftExn_bind {x : Except Exn α} {f : α → Handler β} :
    Succeeds (liftExn x >>= f) globalVar ↔ ∃ a, x = .ok a ∧ Succeeds (f a) globalVar := by
  cases x with
  | error e => exact iff_of_false (fun ⟨_, _, h⟩ => nomatch h) (fun ⟨_, h, _⟩ => nomatch h)
  | ok a => exact ⟨fun h => ⟨a, rfl, h⟩, fun ⟨_, h, hf⟩ => Except.ok.inj h ▸ hf⟩

/-- When what comes behind one that may fail succeeds. -/
theorem succeeds_liftFailure_bind {x : Except Failure α} {f : α → Handler β} :
    Succeeds (liftFailure x >>= f) globalVar ↔ ∃ a, x = .ok a ∧ Succeeds (f a) globalVar := by
  cases x with
  | error e => exact iff_of_false (fun ⟨_, _, h⟩ => nomatch h) (fun ⟨_, h, _⟩ => nomatch h)
  | ok a => exact ⟨fun h => ⟨a, rfl, h⟩, fun ⟨_, h, hf⟩ => Except.ok.inj h ▸ hf⟩

/-- Another value succeeds as well. -/
theorem succeeds_map {x : Handler α} {f : α → β} :
    Succeeds (f <$> x) globalVar ↔ Succeeds x globalVar := by
  rw [Succeeds, Succeeds, map_eq_pure_bind, EStateM.run_bind]
  cases x.run globalVar with
  | ok a globalVar' => exact iff_of_true ⟨f a, globalVar', rfl⟩ ⟨a, globalVar', rfl⟩
  | error e globalVar' => exact iff_of_false (fun ⟨_, _, h⟩ => nomatch h) (fun ⟨_, _, h⟩ => nomatch h)

end Succeeds

/-- An index that is read is one of the list. -/
theorem lt_length_of_get {l : List String} {i : ℕ} {s : String}
    (h : ArrayList.get l i = .ok s) : i < l.length :=
  (List.getElem?_eq_some_iff.mp (ArrayList.get_eq_ok.mp h)).1

/-! ### The actions that are taken apart -/

/-- The actions whose handler splits the text of the call. -/
inductive SplitAction where
  | query | dbVerify | setVar | remoteCall | loadMsg | loadHttpMsg | qqLogin | getLoginKey
  deriving DecidableEq

namespace SplitAction

/-- The name of an action. -/
def name : SplitAction → String
  | query => "query"
  | dbVerify => "dbVerify"
  | setVar => "setVar"
  | remoteCall => "remoteCall"
  | loadMsg => "loadMsg"
  | loadHttpMsg => "loadHttpMsg"
  | qqLogin => "QQLogin"
  | getLoginKey => "getLoginKey"

/-- The number of arguments of the action. -/
def arity : SplitAction → ℕ
  | query => 2
  | dbVerify => 3
  | setVar => 4
  | remoteCall => 3
  | loadMsg => 3
  | loadHttpMsg => 3
  | qqLogin => 4
  | getLoginKey => 6

/-- Where the handler of the action takes its first argument to begin. -/
def beginIndex : SplitAction → ℕ
  | query => 7
  | dbVerify => 10
  | setVar => 8
  | remoteCall => 12
  | loadMsg => 9
  | loadHttpMsg => 13
  | qqLogin => 9
  | getLoginKey => 13

/-- What the handler makes of the pieces. -/
def make : SplitAction → List String → Handler (Option String)
  | query, varList => some <$> liftExn (MQTestActionHandler.query varList)
  | dbVerify, varList => some <$> liftExn (MQTestActionHandler.dbVerify varList)
  | setVar, varList => some <$> MQTestActionHandler.setVar env varList
  | remoteCall, varList => some <$> liftExn (MQTestActionHandler.remoteCall varList)
  | loadMsg, varList => MQTestActionHandler.loadMsg env varList
  | loadHttpMsg, varList => some <$> MQTestActionHandler.loadHttpMsg env varList
  | qqLogin, varList => some <$> liftExn (MQTestActionHandler.qqLogin varList)
  | getLoginKey, varList => some <$> liftExn (MQTestActionHandler.loginKey varList)

/-- The name of an action does not begin with a blank. -/
theorem named (k : SplitAction) : Named k.name := by
  cases k <;> exact ⟨_, rfl, by decide⟩

/-- The arguments begin behind the name, a bracket and a quote. -/
theorem beginIndex_eq (k : SplitAction) : k.beginIndex = k.name.length + 2 := by
  cases k <;> rfl

/-- The call of an action goes to the handler of the action. -/
theorem handleAction_line (k : SplitAction) (p : String) (params : List String) :
    handleAction env (Action.line ⟨k.name, p :: params⟩) =
      liftExn (args (Action.line ⟨k.name, p :: params⟩) k.beginIndex) >>= k.make env := by
  unfold handleAction
  simp only [startsWith_line]
  cases k with
  | loadMsg => rfl
  | query | dbVerify | setVar | remoteCall | loadHttpMsg | qqLogin | getLoginKey =>
    exact map_bind (m := Handler) _ _ _

end SplitAction

/-! ### SQL that is handled -/

/-- What is trimmed of a text behind a beginning without blanks at its ends. -/
theorem trim_select {sql : String} (h : startsWith sql "select " = true) :
    ∃ u, (trim sql).toList = "select".toList ++ u := by
  obtain ⟨v, hv⟩ := List.isPrefixOf_iff_prefix.mp h
  have hsql : sql.toList = 's' :: ("elect".toList ++ ' ' :: v) := hv.symm
  rw [trim, hsql, List.dropWhile_cons_of_neg (by decide), String.toList_ofList, List.reverse_cons,
    List.reverse_append, List.append_assoc, List.dropWhile_append]
  split
  · exact ⟨[], rfl⟩
  · rw [List.reverse_append]
    exact ⟨_, rfl⟩

/-- The columns of a query are found when ` from ` is. -/
theorem columns_eq_ok {sql : String} (h : startsWith sql "select " = true) :
    (∃ cols, columns sql = .ok cols) ↔ indexOf (trim sql) " from " 0 ≠ -1 := by
  obtain ⟨u, hu⟩ := trim_select h
  unfold columns
  dsimp only
  rw [indexOf, Int.toNat_zero, List.drop_zero]
  cases hfind : find " from ".toList (trim sql).toList with
  | none =>
    refine iff_of_false ?_ fun h => h rfl
    rintro ⟨cols, h⟩
    cases h
  | some i =>
    have hfrom := List.isPrefixOf_iff_prefix.mp (isPrefixOf_of_find hfind)
    have hblank : (trim sql).toList[i]? = some ' ' := by
      obtain ⟨w, hw⟩ := hfrom
      have hget := congrArg (·[0]?) hw
      rw [List.getElem?_drop] at hget
      exact hget.symm
    have hle : i ≤ (trim sql).length := by
      rw [← String.length_toList]
      exact (List.getElem?_eq_some_iff.mp hblank).1.le
    have hge : 6 ≤ i := by
      by_contra hlt
      rw [hu, List.getElem?_append_left (Nat.lt_of_not_le hlt)] at hblank
      interval_cases i <;> exact absurd hblank (by decide)
    dsimp only
    rw [slice, if_pos ⟨by decide, by omega, by omega⟩]
    exact iff_of_true ⟨_, rfl⟩ (by omega)

/-- The variables of a `select`. -/
theorem getSqlVars_eq {sql : String} (h : startsWith sql "select " = true) :
    getSqlVars sql = columns sql >>= fun cols =>
      .ok (String.join (cols.mapIdx (sqlVar cols.length))) :=
  if_pos h

/-- Other statements have none. -/
theorem getSqlVars_of_not {sql : String} (h : startsWith sql "select " ≠ true) :
    getSqlVars sql = .ok "" := if_neg h

/-- The variable of a column. -/
def columnVar (col : String) : String := "var" ++ trim col

/-- The variables of the columns behind the first. -/
theorem join_sqlVar_tail {n i : ℕ} (hi : 0 < i) {col : String} {cols : List String}
    (hn : n = i + (col :: cols).length) :
    String.join ((col :: cols).mapIdx fun j => sqlVar n (i + j)) =
      ", ".intercalate ((col :: cols).map columnVar) ++ "]" := by
  induction cols generalizing i col with
  | nil =>
    have hlast : sqlVar n (i + 0) col = columnVar col ++ "]" := by
      rw [sqlVar, if_neg (by omega), if_neg (by omega), if_pos, columnVar]
      rw [hn, List.length_singleton, Nat.add_sub_cancel, Nat.add_zero]
    simpa using hlast
  | cons col' cols ih =>
    have hmiddle : sqlVar n (i + 0) col = columnVar col ++ ", " := by
      rw [List.length_cons, List.length_cons] at hn
      rw [sqlVar, if_neg (by omega), if_neg (by omega), if_neg (by omega), columnVar]
    have hn' : n = i + 1 + (col' :: cols).length := by
      rw [hn, List.length_cons (a := col)]
      omega
    have htail := ih (Nat.succ_pos i) hn'
    rw [List.mapIdx_cons, String.join_cons, hmiddle, List.map_cons,
      String.intercalate_cons_of_ne_nil (by simp), @String.append_assoc (columnVar col ++ ", "),
      ← htail]
    refine congrArg (fun f => _ ++ String.join (List.mapIdx f _)) (funext fun j => ?_)
    rw [Nat.add_comm j 1, ← Nat.add_assoc]

/-- The loop puts the variables of the columns in brackets. -/
theorem join_sqlVar {cols : List String} (hne : cols ≠ []) :
    String.join (cols.mapIdx (sqlVar cols.length)) =
      "[" ++ ", ".intercalate (cols.map columnVar) ++ "]" := by
  obtain ⟨col, cols, rfl⟩ := List.exists_cons_of_ne_nil hne
  cases cols with
  | nil =>
    have honly : sqlVar 1 0 col = "[" ++ columnVar col ++ "]" := by
      rw [sqlVar, if_neg (by omega), if_pos ⟨rfl, rfl⟩, columnVar, ← String.append_assoc]
      rfl
    simp [honly]
  | cons col' cols =>
    have hfirst : sqlVar (col :: col' :: cols).length 0 col = "[" ++ columnVar col ++ ", " := by
      rw [sqlVar, if_pos ⟨rfl, by simp⟩, columnVar, ← String.append_assoc]
      rfl
    have hlen : (col :: col' :: cols).length = 1 + (col' :: cols).length := Nat.add_comm _ _
    have htail := join_sqlVar_tail one_pos hlen
    rw [List.mapIdx_cons, String.join_cons, hfirst, List.map_cons,
      String.intercalate_cons_of_ne_nil (by simp), ← String.append_assoc, ← String.append_assoc,
      @String.append_assoc ("[" ++ columnVar col ++ ", "), ← htail]
    refine congrArg (fun f => _ ++ String.join (List.mapIdx f _)) (funext fun j => ?_)
    rw [Nat.add_comm]

/-- The variable of a column has no comma. -/
theorem comma_notMem_columnVar {sql col : String} {cols : List String}
    (hcols : columns sql = .ok cols) (hcol : col ∈ cols) : ',' ∉ (columnVar col).toList := by
  obtain ⟨vars, -, h⟩ := bind_eq_ok.mp hcols
  cases h
  have hcomma := notMem_of_mem_split (a := ',') rfl hcol
  rw [columnVar, String.toList_append, List.mem_append, not_or]
  exact ⟨by decide, fun h => hcomma (mem_of_mem_trim h)⟩

/-- The variables of a list are put together with blanks that stay with the pieces. -/
theorem split_columnVars {v : String} {vs : List String} (hvs : ∀ w ∈ v :: vs, ',' ∉ w.toList)
    (hne : v ≠ "") : split (", ".intercalate (v :: vs)) "," = v :: vs.map (" " ++ ·) := by
  have hjoin : ", ".intercalate (v :: vs) = ",".intercalate (v :: vs.map (" " ++ ·)) := by
    refine String.toList_injective ?_
    rw [String.toList_intercalate, String.toList_intercalate, List.map_cons, List.map_cons,
      intercalate_cons, intercalate_cons, List.map_map, List.flatMap_map, List.flatMap_map]
    simp
  rw [hjoin]
  refine split_intercalate_eq rfl ?_ (List.cons_ne_nil _ _) ?_
  · intro p hp
    rcases List.mem_cons.mp hp with rfl | hp
    · exact hvs p List.mem_cons_self
    · obtain ⟨w, hw, rfl⟩ := List.mem_map.mp hp
      rw [notMem_append]
      exact ⟨by decide, hvs w (List.mem_cons_of_mem v hw)⟩
  · intro hlast
    rcases List.mem_cons.mp (List.mem_of_getLast? hlast) with h | h
    · exact hne h.symm
    · obtain ⟨w, -, hw⟩ := List.mem_map.mp h
      exact absurd (congrArg String.toList hw) (by simp)

/-- The variables are counted again by splitting them. -/
theorem length_split_columnVars {sql : String} {cols : List String} (hcols : columns sql = .ok cols)
    (hne : cols ≠ []) : (split (", ".intercalate (cols.map columnVar)) ",").length = cols.length := by
  obtain ⟨col, cols, rfl⟩ := List.exists_cons_of_ne_nil hne
  rw [List.map_cons, split_columnVars]
  · rw [List.length_cons, List.length_map, List.length_map, List.length_cons]
  · intro w hw
    obtain ⟨c, hc, rfl⟩ := List.mem_map.mp (List.map_cons ▸ hw)
    exact comma_notMem_columnVar hcols hc
  · exact fun h => absurd (congrArg String.toList h) (by simp [columnVar])

/-- The text between two brackets. -/
theorem slice_brackets (inner : String) :
    slice ("[" ++ inner ++ "]") 1 (((trim ("[" ++ inner ++ "]")).length : ℤ) - 1) = some inner := by
  have hlist : ("[" ++ inner ++ "]").toList = '[' :: (inner.toList ++ [']']) := by simp
  have hend : ((trim ("[" ++ inner ++ "]")).length : ℤ) - 1 = (['['] ++ inner.toList).length := by
    rw [trim_eq_self hlist (by decide) (by decide), ← String.length_toList, hlist]
    simp
  have hslice := slice_middle (p := ['[']) hlist
  rw [String.ofList_toList] at hslice
  rw [hend]
  exact hslice

theorem query_cons (sql entity : String) (rest : List String) :
    query (sql :: entity :: rest) = (getSqlVars sql >>= fun sqlVars =>
      .ok (handleDBEntity entity ++ (if sqlVars = "" then sqlVars else sqlVars ++ " = ") ++
        "varDbHandler." ++ "query" ++ "(\"" ++ handleSql sql ++ "\")\n")) := rfl

theorem dbVerify_three (sql values entity : String) : dbVerify [sql, values, entity] =
    (getSqlVars sql >>= fun sqlVars =>
      inBounds (slice sqlVars 1 (((trim sqlVars).length : ℤ) - 1)) >>= fun vars =>
        (List.range (split values ",").length).mapM
          (assertEquals (split vars ",") (split values ",")) >>= fun asserts =>
            .ok (handleDBEntity entity ++ (sqlVars ++ " = varDbHandler.query(\"" ++ handleSql sql ++
              "\")\n" ++ String.join asserts))) := rfl

theorem setVar_cons (name value type domain : String) (rest : List String) :
    setVar env (name :: value :: type :: domain :: rest) =
      if MQTestView.equalsIgnoreCase env.fold (trim domain) "global" = true then do
        modify (·.add (trim name))
        return "global" ++ " " ++ trim name ++ "\n" ++
          assign env (trim name) (trim value) (trim type)
      else return assign env (trim name) (trim value) (trim type) := by
  have hname : ArrayList.get (name :: value :: type :: domain :: rest) 0 = .ok name := rfl
  have hvalue : ArrayList.get (name :: value :: type :: domain :: rest) 1 = .ok value := rfl
  have htype : ArrayList.get (name :: value :: type :: domain :: rest) 2 = .ok type := rfl
  have hdomain : ArrayList.get (name :: value :: type :: domain :: rest) 3 = .ok domain := rfl
  rw [setVar, hname, hvalue, htype, hdomain]
  simp only [liftExn, pure_bind]

theorem loadMsg_three (wizard data entity : String) : loadMsg env [wizard, data, entity] =
    if env.files wizard = none then return none
    else return some (← liftFailure (env.genMsg wizard data entity)) := rfl

theorem loadHttpMsg_three (configPath ip port : String) :
    loadHttpMsg env [configPath, ip, port] = (do
      let msg ← liftFailure (env.genHttpMsg configPath)
      return "oHttpEnt = HttpEntity('" ++ ip ++ "', " ++ port ++ ");\n" ++ msg) := rfl

/-- When `query` returns, and what. -/
theorem query_eq_ok {sql entity : String} :
    (∃ s, query [sql, entity] = .ok s) ↔
      (startsWith sql "select " = true → indexOf (trim sql) " from " 0 ≠ -1) := by
  have hquery : (∃ s, query [sql, entity] = .ok s) ↔ ∃ vars, getSqlVars sql = .ok vars := by
    rw [query_cons]
    constructor
    · rintro ⟨s, h⟩
      obtain ⟨vars, hvars, -⟩ := bind_eq_ok.mp h
      exact ⟨vars, hvars⟩
    · rintro ⟨vars, hvars⟩
      exact ⟨_, bind_eq_ok.mpr ⟨vars, hvars, rfl⟩⟩
  rw [hquery]
  by_cases h : startsWith sql "select " = true
  · rw [getSqlVars_eq h, imp_iff_right h, ← columns_eq_ok h]
    simp only [bind_eq_ok, Except.ok.injEq, exists_eq_right', exists_comm (α := String)]
  · rw [getSqlVars_of_not h]
    exact iff_of_true ⟨"", rfl⟩ fun h' => absurd h' h

/-- When each column has a value to compare. -/
theorem exists_mapM_assertEquals {varList valueList : List String} :
    (∃ l, (List.range valueList.length).mapM (assertEquals varList valueList) = .ok l) ↔
      valueList.length ≤ varList.length := by
  rw [exists_mapM_eq_ok]
  constructor
  · intro h
    by_contra hlt
    obtain ⟨s, hs⟩ := h varList.length (List.mem_range.mpr (Nat.lt_of_not_le hlt))
    obtain ⟨var, hvar, -⟩ := bind_eq_ok.mp hs
    exact lt_irrefl _ (lt_length_of_get hvar)
  · intro h i hi
    have hvalue := List.mem_range.mp hi
    exact ⟨_, bind_eq_ok.mpr ⟨_, ArrayList.get_ok (List.getElem?_eq_getElem (hvalue.trans_le h)),
      bind_eq_ok.mpr ⟨_, ArrayList.get_ok (List.getElem?_eq_getElem hvalue), rfl⟩⟩⟩

/-- The values are compared with the columns, each value with one of its own. -/
theorem dbVerify_eq_ok {sql values entity : String} :
    (∃ s, dbVerify [sql, values, entity] = .ok s) ↔ startsWith sql "select " = true ∧
      ∃ cols, columns sql = .ok cols ∧ cols ≠ [] ∧ (split values ",").length ≤ cols.length := by
  have hdbVerify : (∃ s, dbVerify [sql, values, entity] = .ok s) ↔ ∃ sqlVars vars,
      getSqlVars sql = .ok sqlVars ∧ slice sqlVars 1 (((trim sqlVars).length : ℤ) - 1) = some vars ∧
        (split values ",").length ≤ (split vars ",").length := by
    rw [dbVerify_three]
    constructor
    · rintro ⟨s, h⟩
      obtain ⟨sqlVars, hvars, h⟩ := bind_eq_ok.mp h
      obtain ⟨vars, hslice, h⟩ := bind_eq_ok.mp h
      obtain ⟨asserts, hasserts, -⟩ := bind_eq_ok.mp h
      refine ⟨sqlVars, vars, hvars, ?_, exists_mapM_assertEquals.mp ⟨asserts, hasserts⟩⟩
      cases hs : slice sqlVars 1 (((trim sqlVars).length : ℤ) - 1) with
      | none => rw [hs] at hslice; cases hslice
      | some v => rw [hs] at hslice; cases hslice; rfl
    · rintro ⟨sqlVars, vars, hvars, hslice, hle⟩
      obtain ⟨asserts, hasserts⟩ := exists_mapM_assertEquals.mpr hle
      exact ⟨_, bind_eq_ok.mpr ⟨sqlVars, hvars, bind_eq_ok.mpr ⟨vars, congrArg inBounds hslice,
        bind_eq_ok.mpr ⟨asserts, hasserts, rfl⟩⟩⟩⟩
  rw [hdbVerify]
  constructor
  · rintro ⟨sqlVars, vars, hvars, hslice, hle⟩
    by_cases h : startsWith sql "select " = true
    · rw [getSqlVars_eq h] at hvars
      obtain ⟨cols, hcols, hjoin⟩ := bind_eq_ok.mp hvars
      cases hjoin
      have hne : cols ≠ [] := by
        rintro rfl
        cases hslice
      rw [join_sqlVar hne, slice_brackets] at hslice
      cases hslice
      rw [length_split_columnVars hcols hne] at hle
      exact ⟨h, cols, hcols, hne, hle⟩
    · rw [getSqlVars_of_not h] at hvars
      cases hvars
      cases hslice
  · rintro ⟨h, cols, hcols, hne, hle⟩
    refine ⟨"[" ++ ", ".intercalate (cols.map columnVar) ++ "]",
      ", ".intercalate (cols.map columnVar), ?_, ?_, ?_⟩
    · rw [getSqlVars_eq h, hcols, ← join_sqlVar hne]
      rfl
    · exact slice_brackets _
    · rw [length_split_columnVars hcols hne]
      exact hle

namespace SplitAction

/-- The handler has no reason of its own to fail on these arguments. -/
def Handled : SplitAction → List String → Prop
  | query, [sql, _] => startsWith sql "select " = true → indexOf (trim sql) " from " 0 ≠ -1
  | dbVerify, [sql, values, _] => startsWith sql "select " = true ∧
      ∃ cols, columns sql = .ok cols ∧ cols ≠ [] ∧ (split values ",").length ≤ cols.length
  | loadMsg, [wizard, data, entity] =>
      env.files wizard ≠ none → ∃ script, env.genMsg wizard data entity = .ok script
  | loadHttpMsg, [configPath, _, _] => ∃ msg, env.genHttpMsg configPath = .ok msg
  | _, _ => True

/-- Fewer pieces than the action has arguments are not handled. -/
theorem arity_le_of_succeeds {k : SplitAction} {varList : List String} {globalVar : HashSet String}
    (h : Succeeds (k.make env varList) globalVar) : k.arity ≤ varList.length := by
  cases k with
  | query =>
    obtain ⟨s, hs⟩ := succeeds_liftExn.mp (succeeds_map.mp h)
    obtain ⟨_, -, hs⟩ := bind_eq_ok.mp hs
    obtain ⟨_, hget, -⟩ := bind_eq_ok.mp hs
    exact lt_length_of_get hget
  | dbVerify | remoteCall =>
    obtain ⟨s, hs⟩ := succeeds_liftExn.mp (succeeds_map.mp h)
    obtain ⟨_, -, hs⟩ := bind_eq_ok.mp hs
    obtain ⟨_, -, hs⟩ := bind_eq_ok.mp hs
    obtain ⟨_, hget, -⟩ := bind_eq_ok.mp hs
    exact lt_length_of_get hget
  | setVar =>
    obtain ⟨_, -, h⟩ := succeeds_liftExn_bind.mp (succeeds_map.mp h)
    obtain ⟨_, -, h⟩ := succeeds_liftExn_bind.mp h
    obtain ⟨_, -, h⟩ := succeeds_liftExn_bind.mp h
    obtain ⟨_, hget, -⟩ := succeeds_liftExn_bind.mp h
    exact lt_length_of_get hget
  | loadMsg =>
    obtain ⟨_, -, h⟩ := succeeds_liftExn_bind.mp h
    obtain ⟨_, -, h⟩ := succeeds_liftExn_bind.mp h
    obtain ⟨_, hget, -⟩ := succeeds_liftExn_bind.mp h
    exact lt_length_of_get hget
  | loadHttpMsg =>
    obtain ⟨_, -, h⟩ := succeeds_liftExn_bind.mp (succeeds_map.mp h)
    obtain ⟨_, -, h⟩ := succeeds_liftExn_bind.mp h
    obtain ⟨_, hget, -⟩ := succeeds_liftExn_bind.mp h
    exact lt_length_of_get hget
  | qqLogin =>
    obtain ⟨s, hs⟩ := succeeds_liftExn.mp (succeeds_map.mp h)
    obtain ⟨_, -, hs⟩ := bind_eq_ok.mp hs
    obtain ⟨_, -, hs⟩ := bind_eq_ok.mp hs
    obtain ⟨_, -, hs⟩ := bind_eq_ok.mp hs
    obtain ⟨_, hget, -⟩ := bind_eq_ok.mp hs
    exact lt_length_of_get hget
  | getLoginKey =>
    obtain ⟨s, hs⟩ := succeeds_liftExn.mp (succeeds_map.mp h)
    obtain ⟨_, -, hs⟩ := bind_eq_ok.mp hs
    obtain ⟨_, -, hs⟩ := bind_eq_ok.mp hs
    obtain ⟨_, -, hs⟩ := bind_eq_ok.mp hs
    obtain ⟨_, -, hs⟩ := bind_eq_ok.mp hs
    obtain ⟨_, -, hs⟩ := bind_eq_ok.mp hs
    obtain ⟨_, hget, -⟩ := bind_eq_ok.mp hs
    exact lt_length_of_get hget

/-- A list that is not empty has a first element, and the others. -/
theorem exists_of_arity {α : Type} {n : ℕ} {l : List α} (h : l.length = n + 1) :
    ∃ a l', l = a :: l' ∧ l'.length = n := by
  obtain ⟨a, l, rfl⟩ := List.exists_cons_of_length_eq_add_one h
  exact ⟨a, l, rfl, Nat.succ.inj h⟩

/-- What the handler makes of arguments of the right number. -/
theorem succeeds_make {k : SplitAction} {params : List String} (h : params.length = k.arity)
    (globalVar : HashSet String) :
    Succeeds (k.make env params) globalVar ↔ k.Handled env params := by
  cases k with
  | query =>
    obtain ⟨sql, entity, rfl⟩ := List.length_eq_two.mp h
    exact succeeds_map.trans (succeeds_liftExn.trans query_eq_ok)
  | dbVerify =>
    obtain ⟨sql, values, entity, rfl⟩ := List.length_eq_three.mp h
    exact succeeds_map.trans (succeeds_liftExn.trans dbVerify_eq_ok)
  | setVar =>
    obtain ⟨name, l, rfl, hl⟩ := exists_of_arity h
    obtain ⟨value, type, domain, rfl⟩ := List.length_eq_three.mp hl
    refine iff_of_true (succeeds_map.mpr ?_) trivial
    rw [setVar_cons]
    split
    · exact ⟨_, _, rfl⟩
    · exact succeeds_pure _
  | remoteCall =>
    obtain ⟨script, expValue, entity, rfl⟩ := List.length_eq_three.mp h
    exact iff_of_true (succeeds_map.mpr (succeeds_liftExn.mpr ⟨_, rfl⟩)) trivial
  | loadMsg =>
    obtain ⟨wizard, data, entity, rfl⟩ := List.length_eq_three.mp h
    change Succeeds (MQTestActionHandler.loadMsg env _) globalVar ↔ (_ → _)
    rw [loadMsg_three]
    split
    · rename_i hfile
      exact iff_of_true (succeeds_pure _) fun hexists => absurd hfile hexists
    · rename_i hfile
      rw [imp_iff_right hfile]
      refine succeeds_liftFailure_bind.trans ⟨fun ⟨s, hs, _⟩ => ⟨s, hs⟩, fun ⟨s, hs⟩ => ?_⟩
      exact ⟨s, hs, succeeds_pure _⟩
  | loadHttpMsg =>
    obtain ⟨configPath, ip, port, rfl⟩ := List.length_eq_three.mp h
    refine succeeds_map.trans ?_
    rw [loadHttpMsg_three]
    refine succeeds_liftFailure_bind.trans ⟨fun ⟨s, hs, _⟩ => ⟨s, hs⟩, fun ⟨s, hs⟩ => ?_⟩
    exact ⟨s, hs, succeeds_pure _⟩
  | qqLogin =>
    obtain ⟨uin, l, rfl, hl⟩ := exists_of_arity h
    obtain ⟨password, skey, key, rfl⟩ := List.length_eq_three.mp hl
    exact iff_of_true (succeeds_map.mpr (succeeds_liftExn.mpr ⟨_, rfl⟩)) trivial
  | getLoginKey =>
    obtain ⟨uin, l₁, rfl, hl₁⟩ := exists_of_arity h
    obtain ⟨password, l₂, rfl, hl₂⟩ := exists_of_arity hl₁
    obtain ⟨appId, l₃, rfl, hl₃⟩ := exists_of_arity hl₂
    obtain ⟨skey, key, psKey, rfl⟩ := List.length_eq_three.mp hl₃
    exact iff_of_true (succeeds_map.mpr (succeeds_liftExn.mpr ⟨_, rfl⟩)) trivial

end SplitAction

/-! ### Reading back the arguments -/

/-- The script of an action that succeeds is not empty. -/
theorem setAction_ne_empty {action : String} {globalVar : HashSet String} :
    (setAction env action globalVar).1 ≠ "" ↔ Succeeds (handleAction env action) globalVar := by
  rw [setAction, Succeeds]
  cases (handleAction env action).run globalVar with
  | ok script globalVar' =>
    refine iff_of_true (fun h => ?_) ⟨script, globalVar', rfl⟩
    have hbreak := congrArg String.toList h
    rw [String.toList_append] at hbreak
    exact absurd hbreak (by simp)
  | error e globalVar' => exact iff_of_false (fun h => h rfl) fun ⟨_, _, h⟩ => nomatch h

namespace SplitAction

theorem exists_cons {k : SplitAction} {params : List String} (h : params.length = k.arity) :
    ∃ p rest, params = p :: rest ∧ rest ≠ [] ∧ (p :: rest).getLast? = rest.getLast? := by
  have htwo : 2 ≤ params.length := by
    rw [h]
    cases k <;> decide
  obtain ⟨p, rest, rfl⟩ := List.exists_cons_of_length_pos (Nat.zero_lt_of_lt htwo)
  cases rest with
  | nil => exact absurd htwo (Nat.not_succ_le_self 1)
  | cons q rest => exact ⟨p, q :: rest, rfl, List.cons_ne_nil _ _, List.getLast?_cons_cons⟩

/-- All arguments are read exactly when the last is not empty. -/
theorem args_eq_ok {k : SplitAction} {params : List String} (hlen : params.length = k.arity)
    (hquote : ∀ p ∈ params, '"' ∉ p.toList) :
    args (Action.line ⟨k.name, params⟩) k.beginIndex = .ok params ↔
      params.getLast? ≠ some "" := by
  obtain ⟨p, rest, rfl, hne, hlast⟩ := exists_cons hlen
  rw [beginIndex_eq, args_line k.named, Except.ok.injEq, hlast]
  exact splitVars_eq_iff (inert_of_notMem (hquote p List.mem_cons_self))
    (fun q hq => hquote q (List.mem_cons_of_mem p hq)) hne

/-- A call is handled when all its arguments are read and the handler does not fail on them. -/
theorem succeeds_handleAction {k : SplitAction} {params : List String}
    (hlen : params.length = k.arity) (hquote : ∀ p ∈ params, '"' ∉ p.toList)
    (globalVar : HashSet String) :
    Succeeds (handleAction env (Action.line ⟨k.name, params⟩)) globalVar ↔
      params.getLast? ≠ some "" ∧ k.Handled env params := by
  have hread := args_eq_ok hlen hquote
  obtain ⟨p, rest, rfl, hne, hlast⟩ := exists_cons hlen
  rw [handleAction_line, succeeds_liftExn_bind]
  constructor
  · rintro ⟨varList, hvars, h⟩
    have hnonempty : (p :: rest).getLast? ≠ some "" := by
      intro hempty
      rw [beginIndex_eq, args_line k.named] at hvars
      cases hvars
      have hlt := length_splitVars_lt (inert_of_notMem (hquote p List.mem_cons_self))
        (fun q hq => hquote q (List.mem_cons_of_mem p hq)) (hlast ▸ hempty)
      rw [hlen] at hlt
      exact absurd (arity_le_of_succeeds env h) (Nat.not_le_of_lt hlt)
    rw [hread.mpr hnonempty] at hvars
    cases hvars
    exact ⟨hnonempty, (succeeds_make env hlen globalVar).mp h⟩
  · rintro ⟨hnonempty, h⟩
    exact ⟨_, hread.mpr hnonempty, (succeeds_make env hlen globalVar).mpr h⟩

end SplitAction

/-- The arguments are read back from the call, and the action stays in the case. -/
structure Decodes (globalVar : HashSet String) (k : SplitAction) (params : List String) : Prop where
  decoded : args (Action.line ⟨k.name, params⟩) k.beginIndex = .ok params
  returns : Succeeds (handleAction env (Action.line ⟨k.name, params⟩)) globalVar
  kept : (setAction env (Action.line ⟨k.name, params⟩) globalVar).1 ≠ ""

/-- **When a call is taken apart as it was put together.**  The arguments of a call are read back and
the action is kept exactly when the last argument is not empty and the handler has no reason of its
own to fail on them. -/
theorem decodes_iff (globalVar : HashSet String) (k : SplitAction) (params : List String)
    (hlen : params.length = k.arity) (hquote : ∀ p ∈ params, '"' ∉ p.toList) :
    Decodes env globalVar k params ↔ params.getLast? ≠ some "" ∧ k.Handled env params := by
  have hreturns := SplitAction.succeeds_handleAction env hlen hquote globalVar
  constructor
  · rintro ⟨-, h, -⟩
    exact hreturns.mp h
  · intro h
    have hh := hreturns.mpr h
    exact ⟨(SplitAction.args_eq_ok hlen hquote).mpr h.1, hh, (setAction_ne_empty env).mpr hh⟩

/-- No files, and no messages. -/
def noFiles : Environment := ⟨fun _ => none, Char.toLower, fun _ _ _ => .error .io, fun _ => .error .io⟩

theorem decodes_iff_query : Decodes noFiles .empty .query ["select a from t", "db"] :=
  (decodes_iff noFiles .empty .query ["select a from t", "db"] rfl (by decide)).mpr
    ⟨by decide, fun _ => by decide⟩

/-- A variable set to the empty domain is dropped from the case. -/
theorem not_decodes_setVar : ¬ Decodes noFiles .empty .setVar ["a", "1", "number", ""] := by
  rintro ⟨hdecoded, -, -⟩
  exact absurd hdecoded (by decide)

end MQTestActionHandler

end MBT
