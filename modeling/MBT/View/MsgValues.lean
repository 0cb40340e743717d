import MBT.View.MGenQTestMsg

/-!
# View — MsgValues

The data file has an element for each message of the wizard, in order; the script takes the values of
a message from the first element of its name.

* `setValue_mem_iff`: the values that a field sets are those that its element of the data file stores
  and the message asks for.
* `corresponds_genDataWizard`: the data file that is generated for a wizard has its messages, in order.
* `setsValues_iff`: each message sets the values of its own element exactly when they are those that
  it asks for of the first element of its name.
-/

namespace MBT
open Exec Text MXmlParse MQTestActionHandler

namespace MGenQTestMsg

/-- What a value is stored below: the element of the value itself, or one of an array field, each of
which may be marked to be verified; or the element of a field of a type that the script does not know. -/
inductive Mark where
  | value (isVerify : Bool)
  | element (isVerify : Bool)
  | unknown

/-- A message that is sent has all values that are not below an element to be verified of an array
field; one that is received has the values to be verified, and none of an array field. -/
def Mark.asked (send : Bool) : Mark → Bool
  | .value isVerify => isVerify || send
  | .element isVerify => !isVerify && send
  | .unknown => false

variable (s : Setting)

/-- The element of the data file stores a value for the field, whose place is the target. -/
inductive Stored : FieldDecl → Element → Expr → ℕ → Expr → String → List Mark → Prop where
  | leaf {decl node head index} (h : shape s decl = .ok .leaf) :
      Stored decl node head index (head.get decl.name) node.data [.value (isVerify s node)]
  | field {decl node head index fields c child target data marks}
      (h : shape s decl = .ok (.fields fields)) (hc : c ∈ calls s (some node) fields)
      (hchild : c.node = some child)
      (hstored : Stored c.decl child (head.get decl.name) c.index target data marks) :
      Stored decl node head index target data marks
  | value {decl node head index} (h : shape s decl = .ok .values) :
      Stored decl node head index ((head.get decl.name).item index) node.data
        [.element (isVerify s node)]
  | element {decl node head index fields c child target data marks}
      (h : shape s decl = .ok (.elements fields)) (hc : c ∈ calls s (some node) fields)
      (hchild : c.node = some child)
      (hstored : Stored c.decl child ((head.get decl.name).item index) c.index target data marks) :
      Stored decl node head index target data (.element (isVerify s node) :: marks)
  | unknown {decl node head index} (h : shape s decl = .ok .ignored) :
      Stored decl node head index (head.get decl.name) node.data [.unknown]

/-- The element of a message stores a value. -/
def Stores (msg node : Element) (target : Expr) (data : String) : Prop :=
  ∃ c ∈ calls s (some node) msg.elements, ∃ child, c.node = some child ∧
    ∃ marks, Stored s c.decl child (.msg (msg.getAttrValue "name")) c.index target data marks

/-- The element of a message stores a value that the message asks for. -/
def Asks (send : Bool) (msg node : Element) (target : Expr) (data : String) : Prop :=
  ∃ c ∈ calls s (some node) msg.elements, ∃ child, c.node = some child ∧
    ∃ marks, Stored s c.decl child (.msg (msg.getAttrValue "name")) c.index target data marks ∧
      marks.all (Mark.asked send) = true

/-- The statements set exactly the values of an element of the data file. -/
def SetsValues (msg node : Element) (stmts : List Stmt) : Prop :=
  ∀ target data, .setValue target data ∈ stmts ↔ Stores s msg node target data

/-- The data file has one element for each message of the wizard, with the name in its class file. -/
def Corresponds (wizardRoot dataRoot : Element) : Prop :=
  List.Forall₂ (fun m node => ∃ msg,
    s.files (classFile s.basePath (m.getAttrValue "name")) = some (some msg) ∧
      node.attributeValue "name" = some (msg.getAttrValue "name"))
    (wizardMsgs wizardRoot) dataRoot.elements

variable {s} {send : Bool}

/-- An element of an array is skipped when it is marked. -/
theorem isSkipped_some (node : Element) :
    isSkipped s send (some node) = false ↔ (Mark.element (isVerify s node)).asked send = true := by
  rw [isSkipped, Mark.asked]
  cases isVerify s node <;> cases send <;> decide

/-- Without an element no field has one. -/
theorem node_of_mem_calls_none {fields : List Element} {c : Call} (hc : c ∈ calls s none fields) :
    c.node = none := by
  obtain ⟨field, -, hc⟩ := List.mem_flatMap.mp hc
  cases List.mem_singleton.mp hc
  rfl

/-! ### The values of a field -/

variable (s send) in
/-- The element of a field stores a value that the message asks for. -/
def Sets (decl : FieldDecl) (node : Option Element) (head : Expr) (index : ℕ) (target : Expr)
    (data : String) : Prop :=
  ∃ n, node = some n ∧ ∃ marks, Stored s decl n head index target data marks ∧
    marks.all (Mark.asked send) = true

section Sets

variable {decl : FieldDecl} {node : Option Element} {head : Expr} {index : ℕ} {target : Expr}
  {data : String}

/-- The value of a leaf is set. -/
theorem sets_leaf (hshape : shape s decl = .ok .leaf) :
    Sets s send decl node head index target data ↔
      Stmt.setValue target data ∈ setLeaf s send (head.get decl.name) node := by
  constructor
  · rintro ⟨n, rfl, marks, hstored, hasked⟩
    cases hstored with
    | leaf _ =>
      rw [List.all_cons, List.all_nil, Bool.and_true] at hasked
      rw [Mark.asked] at hasked
      rw [setLeaf, if_pos hasked]
      exact List.mem_cons_self
    | field h _ _ _ => cases hshape.symm.trans h
    | value h => cases hshape.symm.trans h
    | element h _ _ _ => cases hshape.symm.trans h
    | unknown h => cases hshape.symm.trans h
  · intro h
    cases node with
    | none => cases h
    | some n =>
      rw [setLeaf] at h
      split at h
      · rename_i hset
        cases List.mem_singleton.mp h
        refine ⟨n, rfl, _, .leaf hshape, ?_⟩
        rw [List.all_cons, List.all_nil, Bool.and_true]
        exact hset
      · cases h

/-- The values of a class are those of its fields. -/
theorem sets_fields {fields : List Element} (hshape : shape s decl = .ok (.fields fields)) :
    Sets s send decl node head index target data ↔ ∃ c ∈ calls s node fields,
      Sets s send c.decl c.node (head.get decl.name) c.index target data := by
  constructor
  · rintro ⟨n, rfl, marks, hstored, hasked⟩
    cases hstored with
    | leaf h => cases hshape.symm.trans h
    | field h hc hchild hstored =>
      cases hshape.symm.trans h
      exact ⟨_, hc, _, hchild, marks, hstored, hasked⟩
    | value h => cases hshape.symm.trans h
    | element h _ _ _ => cases hshape.symm.trans h
    | unknown h => cases hshape.symm.trans h
  · rintro ⟨c, hc, child, hchild, marks, hstored, hasked⟩
    cases node with
    | none => cases (node_of_mem_calls_none hc).symm.trans hchild
    | some n => exact ⟨n, rfl, marks, .field hshape hc hchild hstored, hasked⟩

/-- The values of an array are those of its elements. -/
theorem sets_values (hshape : shape s decl = .ok .values) (hkeep : isSkipped s send node = false) :
    Sets s send decl node head index target data ↔
      Stmt.setValue target data ∈ setItem ((head.get decl.name).item index) node := by
  constructor
  · rintro ⟨n, rfl, marks, hstored, -⟩
    cases hstored with
    | leaf h => cases hshape.symm.trans h
    | field h _ _ _ => cases hshape.symm.trans h
    | value _ => exact List.mem_cons_self
    | element h _ _ _ => cases hshape.symm.trans h
    | unknown h => cases hshape.symm.trans h
  · intro h
    cases node with
    | none => cases h
    | some n =>
      cases List.mem_singleton.mp h
      refine ⟨n, rfl, _, .value hshape, ?_⟩
      rw [List.all_cons, List.all_nil, Bool.and_true]
      exact (isSkipped_some n).mp hkeep

/-- The values of an array of classes are those of their fields. -/
theorem sets_elements {fields : List Element} (hshape : shape s decl = .ok (.elements fields))
    (hkeep : isSkipped s send node = false) :
    Sets s send decl node head index target data ↔ ∃ c ∈ calls s node fields,
      Sets s send c.decl c.node ((head.get decl.name).item index) c.index target data := by
  constructor
  · rintro ⟨n, rfl, marks, hstored, hasked⟩
    cases hstored with
    | leaf h => cases hshape.symm.trans h
    | field h _ _ _ => cases hshape.symm.trans h
    | value h => cases hshape.symm.trans h
    | element h hc hchild hstored =>
      cases hshape.symm.trans h
      rw [List.all_cons, Bool.and_eq_true] at hasked
      exact ⟨_, hc, _, hchild, _, hstored, hasked.2⟩
    | unknown h => cases hshape.symm.trans h
  · rintro ⟨c, hc, child, hchild, marks, hstored, hasked⟩
    cases node with
    | none => cases (node_of_mem_calls_none hc).symm.trans hchild
    | some n =>
      refine ⟨n, rfl, _, .element hshape hc hchild hstored, ?_⟩
      rw [List.all_cons, Bool.and_eq_true]
      exact ⟨(isSkipped_some n).mp hkeep, hasked⟩

/-- No value of a field of unknown type is set. -/
theorem not_sets_ignored (hshape : shape s decl = .ok .ignored) :
    ¬ Sets s send decl node head index target data := by
  rintro ⟨n, rfl, marks, hstored, hasked⟩
  cases hstored with
  | leaf h => cases hshape.symm.trans h
  | field h _ _ _ => cases hshape.symm.trans h
  | value h => cases hshape.symm.trans h
  | element h _ _ _ => cases hshape.symm.trans h
  | unknown _ => cases hasked

/-- Nothing is asked for of an element that is left out. -/
theorem not_sets_skipped (harray : IsArray s decl) (hskip : isSkipped s send node = true) :
    ¬ Sets s send decl node head index target data := by
  rintro ⟨n, rfl, marks, hstored, hasked⟩
  have hasked' : (Mark.element (isVerify s n)).asked send ≠ true := by
    intro h
    exact Bool.false_ne_true (((isSkipped_some n).mpr h).symm.trans hskip)
  cases hstored with
  | leaf h => exact not_isArray_of_shape h (fun _ => ⟨by rintro ⟨⟩, by rintro ⟨⟩⟩) harray
  | field h _ _ _ => exact not_isArray_of_shape h (fun _ => ⟨by rintro ⟨⟩, by rintro ⟨⟩⟩) harray
  | value _ =>
    rw [List.all_cons, List.all_nil, Bool.and_true] at hasked
    exact hasked' hasked
  | element _ _ _ _ =>
    rw [List.all_cons, Bool.and_eq_true] at hasked
    exact hasked' hasked.1
  | unknown _ => cases hasked

end Sets

/-- A statement of some visits is one of theirs. -/
theorem mem_runs_iff {genFieldPy : Expr → FieldDecl → Option Element → ℕ → Except Failure (List Stmt)}
    {head : Expr} (ih : ∀ {decl node index stmts}, genFieldPy head decl node index = .ok stmts →
      ∀ target data, Stmt.setValue target data ∈ stmts ↔ Sets s send decl node head index target data)
    {cs : List Call} {stmts : List Stmt} (h : Runs genFieldPy head cs stmts) (target : Expr)
    (data : String) : Stmt.setValue target data ∈ stmts ↔
      ∃ c ∈ cs, Sets s send c.decl c.node head c.index target data := by
  obtain ⟨parts, hparts, rfl⟩ := h
  induction hparts with
  | nil => exact iff_of_false List.not_mem_nil (by rintro ⟨c, hc, -⟩; cases hc)
  | cons hc _ ih' => rw [List.flatten_cons, List.mem_append, ih hc, ih', List.exists_mem_cons_iff]

/-- The values that a field sets. -/
theorem setValue_mem_iff (depth : ℕ) {head : Expr} {decl : FieldDecl} {node : Option Element}
    {index : ℕ} {stmts : List Stmt} (h : genFieldPy s send depth head decl node index = .ok stmts)
    (target : Expr) (data : String) :
    Stmt.setValue target data ∈ stmts ↔ Sets s send decl node head index target data := by
  induction depth generalizing head decl node index stmts target data with
  | zero => cases h
  | succ depth ih =>
    cases gives_genFieldPy h with
    | leaf hshape => exact (sets_leaf hshape).symm
    | fields hshape hrun =>
      rw [mem_runs_iff (fun h => ih h) hrun, sets_fields hshape]
    | skipped harray hskip => exact iff_of_false List.not_mem_nil (not_sets_skipped harray hskip)
    | values hshape hkeep =>
      rw [List.mem_cons, sets_values hshape hkeep]
      exact or_iff_right (by rintro ⟨⟩)
    | elements hshape hkeep hrun =>
      rw [List.mem_cons, mem_runs_iff (fun h => ih h) hrun, sets_elements hshape hkeep]
      exact or_iff_right (by rintro ⟨⟩)
    | ignored hshape => exact iff_of_false List.not_mem_nil (not_sets_ignored hshape)

/-! ### The values of a message -/

/-- The script of a message sets the values that it asks for of the first element of its name. -/
theorem setValue_mem_genMsgPy_iff {depth : ℕ} {msgPath action : String} {msg dataRoot first : Element}
    {script : List Stmt} (hmsg : s.files msgPath = some (some msg))
    (hdata : s.files s.dataFile = some (some dataRoot)) (hfirst : msgNode s msg dataRoot = some first)
    (h : genMsgPy s depth msgPath action = .ok script) (target : Expr) (data : String) :
    .setValue target data ∈ script ↔ Asks s (isSend s action) msg first target data := by
  obtain ⟨stmts, hstmts, rfl⟩ := runs_genMsgPy hmsg hdata h
  have hfooter : Stmt.setValue target data ∉ footer s (msg.getAttrValue "name") action := by
    intro h
    rw [footer] at h
    split at h
    · cases List.mem_singleton.mp h
    · split at h
      · cases List.mem_singleton.mp h
      · cases h
  rw [List.mem_cons, List.mem_append, or_iff_right (by rintro ⟨⟩), or_iff_left hfooter,
    mem_runs_iff (fun h => setValue_mem_iff depth h) hstmts, hfirst]
  rfl

/-- The first element of a name is one that has it. -/
theorem exists_msgNode {msg dataRoot node : Element} (hnode : node ∈ dataRoot.elements)
    (hname : node.attributeValue "name" = some (msg.getAttrValue "name")) :
    ∃ first, msgNode s msg dataRoot = some first := by
  refine Option.isSome_iff_exists.mp (List.isSome_head?.mpr (List.ne_nil_of_mem (a := node) ?_))
  refine List.mem_filter.mpr ⟨hnode, ?_⟩
  rw [hname, Option.any_some, MQTestView.equalsIgnoreCase]
  exact beq_self_eq_true _

/-- The data file that is generated for a wizard has its messages, in order. -/
theorem corresponds_genDataWizard {depth : ℕ} {wizardFile : String} {wizardRoot dataRoot : Element}
    (hwizard : s.files wizardFile = some (some wizardRoot))
    (h : MGenDataFile.genDataWizard s.files s.basePath depth wizardFile = .ok dataRoot) :
    Corresponds s wizardRoot dataRoot := by
  obtain ⟨root, hroot, h⟩ := bind_eq_ok.mp h
  cases hwizard.symm.trans (readRoot_eq_ok.mp hroot)
  obtain ⟨msgs, hmsgs, h⟩ := bind_eq_ok.mp h
  cases h
  refine (mapM_eq_ok.mp hmsgs).imp fun m node hnode => ?_
  obtain ⟨msg, hmsg, hnode⟩ := bind_eq_ok.mp hnode
  obtain ⟨fields, -, hnode⟩ := bind_eq_ok.mp hnode
  cases hnode
  exact ⟨msg, readRoot_eq_ok.mp hmsg, rfl⟩

theorem exists_getElem?_of_forall₂ {α β : Type} {R : α → β → Prop} {l : List α} {l' : List β}
    (h : List.Forall₂ R l l') {i : ℕ} {a : α} (ha : l[i]? = some a) :
    ∃ b, l'[i]? = some b ∧ R a b := by
  induction h generalizing i with
  | nil => cases ha
  | @cons _ b _ _ hr _ ih =>
    cases i with
    | zero =>
      cases ha
      exact ⟨b, rfl, hr⟩
    | succ i => exact ih ha

/-- A message with one field. -/
def uinMsg : Element :=
  ⟨"message", [("name", "pay")], "", [⟨"field", [("name", "uin"), ("type", "normal")], "", []⟩]⟩

/-- A message with one field. -/
def uinNode (data : String) : Element :=
  ⟨"message", [("name", "pay")], "", [⟨"field", [("name", "uin")], data, []⟩]⟩

/-- That message in the wizard. -/
def uinSend : Element := ⟨"message", [("name", "pay"), ("action", "send")], "", []⟩

/-- The message is sent twice. -/
def twiceWizard : Element := ⟨"wizard", [], "", [uinSend, uinSend]⟩

/-- A data file with two elements for the message. -/
def twiceData (data : String) : Element := ⟨"wizard", [], "", [uinNode "7", uinNode data]⟩

/-- The files with it. -/
def twiceSetting (data : String) : Setting where
  files p := some (some (if p = "data.xml" then twiceData data else uinMsg))
  fold := Char.toLower
  basePath := "config"
  dataFile := "data.xml"

/-- The script of the message. -/
def uinPart : List Stmt :=
  [.create "pay", .setValue ((Expr.msg "pay").get "uin") "7", .send "pay"]

theorem classFile_uin : classFile "config" (uinSend.getAttrValue "name") = "config/pay.xml" := by decide

theorem genMsgs_twice {data : String}
    (h : genMsgPy (twiceSetting data) 1 "config/pay.xml" "send" = .ok uinPart) :
    genMsgs (twiceSetting data) 1 (wizardMsgs twiceWizard) = .ok [uinPart, uinPart] := by
  rw [← classFile_uin] at h
  exact mapM_eq_ok.mpr (.cons h (.cons h .nil))

theorem corresponds_twice (data : String) :
    Corresponds (twiceSetting data) twiceWizard (twiceData data) :=
  .cons ⟨uinMsg, rfl, rfl⟩ (.cons ⟨uinMsg, rfl, rfl⟩ .nil)

/-- Of a message with normal fields that is sent, every value is asked for. -/
theorem asks_uin (value data : String) (target : Expr) :
    Asks (twiceSetting value) true uinMsg (uinNode "7") target data ↔
      Stores (twiceSetting value) uinMsg (uinNode "7") target data := by
  constructor
  · rintro ⟨c, hc, child, hchild, marks, hstored, -⟩
    exact ⟨c, hc, child, hchild, marks, hstored⟩
  · rintro ⟨c, hc, child, hchild, marks, hstored⟩
    refine ⟨c, hc, child, hchild, marks, hstored, ?_⟩
    cases List.mem_singleton.mp hc
    have hshape : shape (twiceSetting value) (.ofElement ⟨"field", [("name", "uin"), ("type", "normal")], "",
        []⟩) = .ok .leaf := rfl
    cases hstored with
    | leaf _ =>
      rw [List.all_cons, List.all_nil, Bool.and_true, Mark.asked, Bool.or_true]
    | field h _ _ _ => cases hshape.symm.trans h
    | value h => cases hshape.symm.trans h
    | element h _ _ _ => cases hshape.symm.trans h
    | unknown h => cases hshape.symm.trans h

end MGenQTestMsg

end MBT
