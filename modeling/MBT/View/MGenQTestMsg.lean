import MBT.View.DataTemplate

/-!
# View — MGenQTestMsg

The script of the messages of a wizard: the values of the data file are set along the class files of
the fields, and an element is added to an array field for each one that the data file has.

* `runs_genFields`: the statements of the fields are those of their elements in the data file, one
  after another.
* `gives_genFieldPy`: what a field gives, by its type and its class file.
* `runs_genMsgPy`: what a message gives, with the first element of its name.
-/

namespace MBT
open Exec Text MXmlParse MQTestActionHandler

/-- `getSubElementByKey`; an element without the key throws. -/
def MXmlParse.getSubElementByKey (fold : Char → Char) (key value : String) :
    List Element → Except Exn (List Element)
  | [] => .ok []
  | node :: nodes => do
    let same ← MGenDataFile.sameValue fold (node.attributeValue key) (some value)
    let nodes ← getSubElementByKey fold key value nodes
    return if same then node :: nodes else nodes

namespace MGenQTestMsg

/-- What the script calls a message, a field of it, or an element of an array field. -/
inductive Expr where
  | msg (msgName : String)
  | get (head : Expr) (name : String)
  | item (array : Expr) (index : ℕ)
  deriving DecidableEq

/-- The text of an expression. -/
def Expr.render : Expr → String
  | .msg msgName => "mVar" ++ msgName
  | .get head name => head.render ++ ".get" ++ name ++ "()"
  | .item array index => array.render ++ ".get(" ++ toString index ++ ")"

/-- The statements of a message. -/
inductive Stmt where
  | create (msgName : String)
  | add (array : Expr) (subClass name : String)
  | setValue (target : Expr) (data : String)
  | send (msgName : String)
  | receive (msgName : String)
  deriving DecidableEq

/-- The text of a statement. -/
def Stmt.render : Stmt → String
  | .create msgName => "mVar" ++ msgName ++ " = " ++ msgName ++ "()\n"
  | .add array subClass name => array.render ++ ".add(" ++ subClass ++ "('" ++ name ++ "'))\n"
  | .setValue target data => target.render ++ ".setValue(" ++ data ++ ")\n"
  | .send msgName => "mVarEntity." ++ "sendMsg(mVar" ++ msgName ++ ")\n\n"
  | .receive msgName => "\nmVarEntity.setTimeout(1000 * 30)\n\nmVarRecv" ++ msgName ++
      " = mVarEntity.receiveMsg(mVar" ++ msgName ++ ")\n"

/-- The files, the cases of the characters, and the static fields of the class. -/
structure Setting where
  files : String → Option (Option Element)
  fold : Char → Char
  basePath : String
  dataFile : String

variable (s : Setting)

/-- The element is marked to be verified. -/
def isVerify (node : Element) : Bool :=
  MQTestView.equalsIgnoreCase s.fold (toLowerCase (node.getAttrValue "isVerify")) "true"

/-- A field of a normal type. -/
def FieldDecl.isNormal (decl : FieldDecl) : Bool :=
  MQTestView.equalsIgnoreCase s.fold decl.type "normal"

/-- A field of an array type. -/
def FieldDecl.isArray (decl : FieldDecl) : Bool :=
  MQTestView.equalsIgnoreCase s.fold decl.type "array"

/-- The value of a field that has no fields; a received message has only the ones to verify. -/
def setLeaf (send : Bool) (target : Expr) : Option Element → List Stmt
  | none => []
  | some node => if isVerify s node || send then [.setValue target node.data] else []

/-- An element of an array field is left out when it is to be verified, or the message is received. -/
def isSkipped (send : Bool) : Option Element → Bool
  | none => false
  | some node => isVerify s node || !send

/-- The elements of the data file for a field. -/
def fieldNodes (node : Option Element) (name : String) : Except Failure (List Element) :=
  match node with
  | none => .ok []
  | some node => runtime (getSubElementByKey s.fold "name" name node.elements)

section Fields

variable (genFieldPy : Expr → FieldDecl → Option Element → ℕ → Except Failure (List Stmt)) (head : Expr)

/-- The loop over the elements of a field, from an index on. -/
def genNodes (decl : FieldDecl) : ℕ → List Element → Except Failure (List Stmt)
  | _, [] => .ok []
  | index, node :: nodes => do
    let stmts ← genFieldPy head decl (some node) index
    let rest ← genNodes decl (index + 1) nodes
    return stmts ++ rest

/-- The loop over the fields of a class file; a field without elements is visited once. -/
def genFields (node : Option Element) : List Element → Except Failure (List Stmt)
  | [] => .ok []
  | field :: fields => do
    let decl := FieldDecl.ofElement field
    let nodes ← fieldNodes s node decl.name
    let stmts ← (if nodes = [] then genFieldPy head decl none 0 else genNodes genFieldPy head decl 0 nodes)
    let rest ← genFields node fields
    return stmts ++ rest

end Fields

/-- `genFieldPy`, at most so deep. -/
def genFieldPy (send : Bool) :
    ℕ → Expr → FieldDecl → Option Element → ℕ → Except Failure (List Stmt)
  | 0, _, _, _, _ => .error (.runtime .stackOverflow)
  | depth + 1, head, decl, node, index =>
    if FieldDecl.isNormal s decl then
      if decl.classStr = "" then .ok (setLeaf s send (head.get decl.name) node)
      else do
        let fieldRoot ← readRoot s.files (classFile s.basePath decl.classStr)
        if fieldRoot.elements = [] then .ok (setLeaf s send (head.get decl.name) node)
        else genFields s (genFieldPy send depth) (head.get decl.name) node fieldRoot.elements
    else if FieldDecl.isArray s decl then
      if isSkipped s send node then .ok []
      else
        let array := head.get decl.name
        let arrayAdd := Stmt.add array decl.subClass decl.name
        if decl.classStr = "" then
          match node with
          | none => .ok [arrayAdd]
          | some node => .ok [arrayAdd, .setValue (array.item index) node.data]
        else do
          let fieldRoot ← readRoot s.files (classFile s.basePath decl.classStr)
          let stmts ← genFields s (genFieldPy send depth) (array.item index) node fieldRoot.elements
          return arrayAdd :: stmts
    else .ok []

/-- The message is sent. -/
def isSend (action : String) : Bool :=
  MQTestView.equalsIgnoreCase s.fold (toLowerCase action) "send"

/-- What ends the script of a message. -/
def footer (msgName action : String) : List Stmt :=
  if MQTestView.equalsIgnoreCase s.fold action "send" then [.send msgName]
  else if MQTestView.equalsIgnoreCase s.fold action "receive" then [.receive msgName]
  else []

/-- `genMsgPy`: the data of the message is sought in the data file by its name, and the first one
taken. -/
def genMsgPy (depth : ℕ) (msgPath action : String) : Except Failure (List Stmt) := do
  let msg ← readRoot s.files msgPath
  let msgName := msg.getAttrValue "name"
  let dataRoot ← readRoot s.files s.dataFile
  let msgList ← runtime (getSubElementByKey s.fold "name" msgName dataRoot.elements)
  let fieldScript ← genFields s (genFieldPy s (isSend s action) depth) (.msg msgName) msgList.head?
    msg.elements
  return .create msgName :: (fieldScript ++ footer s msgName action)

/-- The messages of a wizard file. -/
def wizardMsgs (root : Element) : List Element := root.elements.filter (·.name = "message")

/-- The loop of `genMsg`: the scripts of the messages. -/
def genMsgs (depth : ℕ) (msgs : List Element) : Except Failure (List (List Stmt)) :=
  msgs.mapM fun msg =>
    genMsgPy s depth (classFile s.basePath (msg.getAttrValue "name")) (msg.getAttrValue "action")

/-- Where the configuration of the messages begins in a path, `QTEST_XML_CONFIG_PATH_TAG`. -/
def configPathTag : String := "config/wizard/message"

/-- `genMsg`, behind the call that writes the data file. -/
def genMsg (files : String → Option (Option Element)) (fold : Char → Char) (depth : ℕ)
    (wizard data entity : String) : Except Failure String := do
  let wizard := replace wizard "\\" "/"
  let path ← runtime (inBounds (slice wizard 0 (indexOf wizard configPathTag 0)))
  let s : Setting := ⟨files, fold, path ++ "/" ++ configPathTag, data⟩
  let root ← readRoot files wizard
  let parts ← genMsgs s depth (wizardMsgs root)
  return "mVarEntity = ResObjFactory.getObject('" ++ entity ++ "')\n\n" ++
    String.join (parts.map fun part => String.join (part.map Stmt.render))

variable {s}

/-! ### The elements of a field -/

variable (s) in
/-- The elements whose name is that of a field. -/
def matching (name : String) (nodes : List Element) : List Element :=
  nodes.filter fun node => (node.attributeValue "name").any (MQTestView.equalsIgnoreCase s.fold · name)

/-- The elements of a name, by the key `name`. -/
theorem getSubElementByKey_eq {name : String} {nodes found : List Element}
    (h : getSubElementByKey s.fold "name" name nodes = .ok found) : found = matching s name nodes := by
  induction nodes generalizing found with
  | nil =>
    cases h
    rfl
  | cons node nodes ih =>
    obtain ⟨same, hsame, h⟩ := bind_eq_ok.mp h
    obtain ⟨rest, hrest, h⟩ := bind_eq_ok.mp h
    cases h
    rw [ih hrest, matching, matching, List.filter_cons]
    cases hname : node.attributeValue "name" with
    | none =>
      rw [hname] at hsame
      cases hsame
    | some value =>
      rw [hname] at hsame
      cases hsame
      rfl

/-- A visit of a field: its element in the data file, if there is one, and the index. -/
structure Call where
  decl : FieldDecl
  node : Option Element
  index : ℕ

variable (s) in
/-- The visits of a field. -/
def fieldCalls (node : Option Element) (field : Element) : List Call :=
  let decl := FieldDecl.ofElement field
  match matching s decl.name (node.elim [] (·.elements)) with
  | [] => [⟨decl, none, 0⟩]
  | nodes => nodes.zipIdx.map fun p => ⟨decl, some p.1, p.2⟩

variable (s) in
/-- The visits of the fields of a class file. -/
def calls (node : Option Element) (fields : List Element) : List Call :=
  fields.flatMap (fieldCalls s node)

section Runs

variable {genFieldPy : Expr → FieldDecl → Option Element → ℕ → Except Failure (List Stmt)} {head : Expr}

variable (genFieldPy head) in
/-- The statements are those of the visits, one after another. -/
def Runs (cs : List Call) (stmts : List Stmt) : Prop :=
  ∃ parts, List.Forall₂ (fun c part => genFieldPy head c.decl c.node c.index = .ok part) cs parts ∧
    stmts = parts.flatten

theorem runs_nil : Runs genFieldPy head [] [] := ⟨[], .nil, rfl⟩

theorem Runs.cons {c : Call} {cs : List Call} {stmts rest : List Stmt}
    (hc : genFieldPy head c.decl c.node c.index = .ok stmts) (h : Runs genFieldPy head cs rest) :
    Runs genFieldPy head (c :: cs) (stmts ++ rest) := by
  obtain ⟨parts, hparts, rfl⟩ := h
  exact ⟨stmts :: parts, .cons hc hparts, rfl⟩

theorem Runs.append {cs ds : List Call} {stmts rest : List Stmt} (hc : Runs genFieldPy head cs stmts)
    (h : Runs genFieldPy head ds rest) : Runs genFieldPy head (cs ++ ds) (stmts ++ rest) := by
  obtain ⟨parts, hparts, rfl⟩ := hc
  obtain ⟨parts', hparts', rfl⟩ := h
  exact ⟨parts ++ parts', List.rel_append hparts hparts', List.flatten_append.symm⟩

/-- The elements of a field are visited one after the other. -/
theorem runs_genNodes {decl : FieldDecl} {index : ℕ} {nodes : List Element} {stmts : List Stmt}
    (h : genNodes genFieldPy head decl index nodes = .ok stmts) :
    Runs genFieldPy head ((nodes.zipIdx index).map fun p => ⟨decl, some p.1, p.2⟩) stmts := by
  induction nodes generalizing index stmts with
  | nil =>
    cases h
    exact runs_nil
  | cons node nodes ih =>
    obtain ⟨first, hfirst, h⟩ := bind_eq_ok.mp h
    obtain ⟨rest, hrest, h⟩ := bind_eq_ok.mp h
    cases h
    exact (ih hrest).cons (c := ⟨decl, some node, index⟩) hfirst

/-- The elements of a field in the data file. -/
theorem fieldNodes_eq {node : Option Element} {name : String} {nodes : List Element}
    (h : fieldNodes s node name = .ok nodes) : nodes = matching s name (node.elim [] (·.elements)) := by
  cases node with
  | none =>
    cases h
    rfl
  | some node => exact getSubElementByKey_eq (runtime_eq_ok.mp h)

/-- The statements of the fields of a class file. -/
theorem runs_genFields {node : Option Element} {fields : List Element} {stmts : List Stmt}
    (h : genFields s genFieldPy head node fields = .ok stmts) :
    Runs genFieldPy head (calls s node fields) stmts := by
  induction fields generalizing stmts with
  | nil =>
    cases h
    exact runs_nil
  | cons field fields ih =>
    obtain ⟨nodes, hnodes, h⟩ := bind_eq_ok.mp h
    obtain ⟨first, hfirst, h⟩ := bind_eq_ok.mp h
    obtain ⟨rest, hrest, h⟩ := bind_eq_ok.mp h
    cases h
    refine Runs.append (?_ : Runs genFieldPy head (fieldCalls s node field) first) (ih hrest)
    rw [fieldCalls, ← fieldNodes_eq hnodes]
    cases nodes with
    | nil =>
      rw [if_pos rfl] at hfirst
      have hrun := runs_nil.cons (c := ⟨.ofElement field, none, 0⟩) hfirst
      rw [List.append_nil] at hrun
      exact hrun
    | cons first nodes =>
      rw [if_neg (List.cons_ne_nil first nodes)] at hfirst
      exact runs_genNodes hfirst

end Runs

/-! ### What a field gives -/

/-- What a field is: a value, a field with fields, an array field of values or of elements with
fields, or nothing that the script knows. -/
inductive Shape where
  | leaf
  | fields (fields : List Element)
  | values
  | elements (fields : List Element)
  | ignored

variable (s) in
/-- The type and the class file of a field. -/
def shape (decl : FieldDecl) : Except Failure Shape :=
  if FieldDecl.isNormal s decl then
    if decl.classStr = "" then .ok .leaf
    else do
      let fieldRoot ← readRoot s.files (classFile s.basePath decl.classStr)
      return if fieldRoot.elements = [] then .leaf else .fields fieldRoot.elements
  else if FieldDecl.isArray s decl then
    if decl.classStr = "" then .ok .values
    else do
      let fieldRoot ← readRoot s.files (classFile s.basePath decl.classStr)
      return .elements fieldRoot.elements
  else .ok .ignored

variable (s) in
/-- The field is an array field. -/
def IsArray (decl : FieldDecl) : Prop :=
  FieldDecl.isNormal s decl = false ∧ FieldDecl.isArray s decl = true

section Shapes

variable {decl : FieldDecl} {fields : List Element}

/-- A shape that is none of an array. -/
theorem not_isArray_of_shape {sh : Shape} (h : shape s decl = .ok sh)
    (hsh : ∀ fields, sh ≠ .values ∧ sh ≠ .elements fields) : ¬ IsArray s decl := by
  rintro ⟨hnormal, harray⟩
  rw [shape, hnormal, harray, if_neg Bool.false_ne_true, if_pos rfl] at h
  split at h
  · cases h
    exact (hsh []).1 rfl
  · obtain ⟨root, -, h⟩ := bind_eq_ok.mp h
    cases h
    exact (hsh root.elements).2 rfl

end Shapes

/-- The value of an element of an array field. -/
def setItem (item : Expr) : Option Element → List Stmt
  | none => []
  | some node => [.setValue item node.data]

variable (s) in
/-- What a field gives, by its shape; `genFieldPy` is what the fields below it give. -/
inductive Gives (genFieldPy : Expr → FieldDecl → Option Element → ℕ → Except Failure (List Stmt))
    (send : Bool) (head : Expr) (decl : FieldDecl) (node : Option Element) (index : ℕ) :
    List Stmt → Prop where
  | leaf (h : shape s decl = .ok .leaf) :
      Gives genFieldPy send head decl node index (setLeaf s send (head.get decl.name) node)
  | fields {fields stmts} (h : shape s decl = .ok (.fields fields))
      (hrun : Runs genFieldPy (head.get decl.name) (calls s node fields) stmts) :
      Gives genFieldPy send head decl node index stmts
  | skipped (h : IsArray s decl) (hskip : isSkipped s send node = true) :
      Gives genFieldPy send head decl node index []
  | values (h : shape s decl = .ok .values) (hkeep : isSkipped s send node = false) :
      Gives genFieldPy send head decl node index
        (.add (head.get decl.name) decl.subClass decl.name ::
          setItem ((head.get decl.name).item index) node)
  | elements {fields stmts} (h : shape s decl = .ok (.elements fields))
      (hkeep : isSkipped s send node = false)
      (hrun : Runs genFieldPy ((head.get decl.name).item index) (calls s node fields) stmts) :
      Gives genFieldPy send head decl node index
        (.add (head.get decl.name) decl.subClass decl.name :: stmts)
  | ignored (h : shape s decl = .ok .ignored) : Gives genFieldPy send head decl node index []

/-- A field gives what its shape says. -/
theorem gives_genFieldPy {send : Bool} {depth : ℕ} {head : Expr} {decl : FieldDecl}
    {node : Option Element} {index : ℕ} {stmts : List Stmt}
    (h : genFieldPy s send (depth + 1) head decl node index = .ok stmts) :
    Gives s (genFieldPy s send depth) send head decl node index stmts := by
  rw [genFieldPy] at h
  split at h
  · rename_i hnormal
    split at h
    · rename_i hclass
      cases h
      exact .leaf (by rw [shape, if_pos hnormal, if_pos hclass])
    · rename_i hclass
      obtain ⟨root, hroot, h⟩ := bind_eq_ok.mp h
      split at h
      · rename_i hnil
        cases h
        refine .leaf ?_
        rw [shape, if_pos hnormal, if_neg hclass, hroot, ok_bind, if_pos hnil]
        rfl
      · rename_i hne
        refine .fields ?_ (runs_genFields h)
        rw [shape, if_pos hnormal, if_neg hclass, hroot, ok_bind, if_neg hne]
        rfl
  · rename_i hnormal
    split at h
    · rename_i harray
      split at h
      · rename_i hskip
        cases h
        exact .skipped ⟨eq_false_of_ne_true hnormal, harray⟩ hskip
      · rename_i hskip
        have hkeep := eq_false_of_ne_true hskip
        dsimp only at h
        split at h
        · rename_i hclass
          have hshape : shape s decl = .ok .values := by
            rw [shape, if_neg hnormal, if_pos harray, if_pos hclass]
          have hvalues : Gives s (genFieldPy s send depth) send head decl node index
              (.add (head.get decl.name) decl.subClass decl.name ::
                setItem ((head.get decl.name).item index) node) := .values hshape hkeep
          cases node with
          | none =>
            cases h
            exact hvalues
          | some node =>
            cases h
            exact hvalues
        · rename_i hclass
          obtain ⟨root, hroot, h⟩ := bind_eq_ok.mp h
          obtain ⟨rest, hrest, h⟩ := bind_eq_ok.mp h
          cases h
          refine .elements ?_ hkeep (runs_genFields hrest)
          rw [shape, if_neg hnormal, if_pos harray, if_neg hclass, hroot]
          rfl
    · rename_i harray
      cases h
      exact .ignored (by rw [shape, if_neg hnormal, if_neg harray])

/-! ### The script of a message -/

variable (s) in
/-- The data of a message: the first one of its name. -/
def msgNode (msg dataRoot : Element) : Option Element :=
  (matching s (msg.getAttrValue "name") dataRoot.elements).head?

/-- The script of a message is that of its fields, between the statements that make and send it. -/
theorem runs_genMsgPy {depth : ℕ} {msgPath action : String} {msg dataRoot : Element}
    {script : List Stmt} (hmsg : s.files msgPath = some (some msg))
    (hdata : s.files s.dataFile = some (some dataRoot))
    (h : genMsgPy s depth msgPath action = .ok script) :
    ∃ stmts, Runs (genFieldPy s (isSend s action) depth) (.msg (msg.getAttrValue "name"))
        (calls s (msgNode s msg dataRoot) msg.elements) stmts ∧
      script = .create (msg.getAttrValue "name") ::
        (stmts ++ footer s (msg.getAttrValue "name") action) := by
  obtain ⟨msg', hmsg', h⟩ := bind_eq_ok.mp h
  cases hmsg.symm.trans (readRoot_eq_ok.mp hmsg')
  obtain ⟨dataRoot', hdata', h⟩ := bind_eq_ok.mp h
  cases hdata.symm.trans (readRoot_eq_ok.mp hdata')
  obtain ⟨msgList, hlist, h⟩ := bind_eq_ok.mp h
  obtain ⟨stmts, hstmts, h⟩ := bind_eq_ok.mp h
  cases h
  rw [getSubElementByKey_eq (runtime_eq_ok.mp hlist)] at hstmts
  exact ⟨stmts, runs_genFields hstmts, rfl⟩

end MGenQTestMsg

end MBT
