import MBT.Support.History
import MBT.View.MGenQTestMsg

/-!
# View — ArrayAccess

An element of an array field is added by one statement, and used by others with its index in the data
file, where the elements to verify are counted too, though none is added for them.

* `agree_genFieldPy`: the statements of a field come in order exactly when its elements do.
* `accesses_iff`: each use of an element of an array comes behind the statements that add it and the
  ones before it exactly when the elements that are added have the indices at which they are.
-/

namespace MBT
open Exec Text MXmlParse MQTestActionHandler History

namespace MGenQTestMsg

/-! ### The uses of elements -/

/-- The elements of array fields that an expression goes through. -/
def Expr.items : Expr → List (Expr × ℕ)
  | .msg _ => []
  | .get head _ => head.items
  | .item array index => (array, index) :: array.items

theorem Expr.items_get (head : Expr) (name : String) : (head.get name).items = head.items := rfl

/-- The elements of arrays that a statement uses. -/
def Stmt.items : Stmt → List (Expr × ℕ)
  | .add array _ _ => array.items
  | .setValue target _ => target.items
  | _ => []

/-- The statement adds an element to an array field. -/
def Stmt.adds (array : Expr) : Stmt → Bool
  | .add array' _ _ => array' = array
  | _ => false

/-- How many elements a script has added. -/
def added (array : Expr) (script : List Stmt) : ℕ := script.countP (Stmt.adds array)

/-- All these elements have been added. -/
def Present (past : List Stmt) (items : List (Expr × ℕ)) : Prop := ∀ x ∈ items, x.2 < added x.1 past

/-- Each element is used behind the statement that adds it, and those that add the ones before it. -/
def Supplied (past : List Stmt) (stmt : Stmt) : Prop := Present past stmt.items

theorem added_append (array : Expr) (script rest : List Stmt) :
    added array (script ++ rest) = added array script + added array rest := List.countP_append

theorem Present.append {past : List Stmt} {items : List (Expr × ℕ)} (h : Present past items)
    (rest : List Stmt) : Present (past ++ rest) items := by
  intro x hx
  rw [added_append]
  exact Nat.lt_add_right _ (h x hx)

theorem present_cons {past : List Stmt} {x : Expr × ℕ} {items : List (Expr × ℕ)} :
    Present past (x :: items) ↔ x.2 < added x.1 past ∧ Present past items := List.forall_mem_cons

/-! ### The elements of the data file -/

/-- An element of the data file for which one is added to an array field. -/
structure Kept where
  array : Expr
  index : ℕ
  used : Bool

/-- How many elements of an array are kept. -/
def kept (array : Expr) (vs : List Kept) : ℕ := vs.countP (·.array = array)

/-- There are as many elements of the array before it as its index says, if it is used. -/
def Placed (past : List Kept) (v : Kept) : Prop := v.used = true → v.index ≤ kept v.array past

theorem kept_append (array : Expr) (vs ws : List Kept) :
    kept array (vs ++ ws) = kept array vs + kept array ws := List.countP_append

section Visits

variable (s : Setting) (send : Bool)

/-- The script has a statement for the field. -/
def writes : ℕ → FieldDecl → Option Element → Bool
  | 0, _, _ => false
  | depth + 1, decl, node =>
    match shape s decl with
    | .ok .leaf => node.any fun node => isVerify s node || send
    | .ok (.fields fields) => (calls s node fields).any fun c => writes depth c.decl c.node
    | .ok .values => !isSkipped s send node
    | .ok (.elements _) => !isSkipped s send node
    | _ => false

/-- The elements of array fields at a field and below, in the order of the data file, without those
that are left out. -/
def visits : ℕ → Expr → FieldDecl → Option Element → ℕ → List Kept
  | 0, _, _, _, _ => []
  | depth + 1, head, decl, node, index =>
    let array := head.get decl.name
    match shape s decl with
    | .ok (.fields fields) =>
      (calls s node fields).flatMap fun c => visits depth array c.decl c.node c.index
    | .ok .values => if isSkipped s send node then [] else [⟨array, index, node.isSome⟩]
    | .ok (.elements fields) =>
      if isSkipped s send node then []
      else
        ⟨array, index, (calls s node fields).any fun c => writes s send depth c.decl c.node⟩ ::
          (calls s node fields).flatMap fun c => visits depth (array.item index) c.decl c.node c.index
    | _ => []

end Visits

variable {s : Setting} {send : Bool}

/-- The statements of a field with a head, and its elements: as many elements are added as kept, and
behind a past with as many of both, the statements come in order exactly when the elements do. -/
structure Agree (head : Expr) (stmts : List Stmt) (vs : List Kept) (w : Bool) : Prop where
  writes : w = false → stmts = []
  added : ∀ array, added array stmts = kept array vs
  along : ∀ past pastVs, (∀ array, MGenQTestMsg.added array past = kept array pastVs) →
    (Along Supplied past stmts ↔
      (w = true → Present past head.items) ∧ Along Placed pastVs vs)

theorem agree_nil {head : Expr} : Agree head [] [] false where
  writes _ := rfl
  added _ := rfl
  along _ _ _ := iff_of_true along_nil ⟨by rintro ⟨⟩, along_nil⟩

/-- A value is set at its head, or at a field of it. -/
theorem agree_setValue {head target : Expr} (htarget : target.items = head.items) (data : String) :
    Agree head [.setValue target data] [] true where
  writes h := by cases h
  added _ := rfl
  along past pastVs h := by
    rw [along_cons, Supplied, Stmt.items, htarget]
    exact ⟨fun h => ⟨fun _ => h.1, along_nil⟩, fun h => ⟨h.1 rfl, along_nil⟩⟩

theorem Agree.append {head : Expr} {stmts rest : List Stmt} {vs ws : List Kept} {w w' : Bool}
    (h : Agree head stmts vs w) (h' : Agree head rest ws w') :
    Agree head (stmts ++ rest) (vs ++ ws) (w || w') where
  writes hw := by
    obtain ⟨hw, hw'⟩ := Bool.or_eq_false_iff.mp hw
    rw [h.writes hw, h'.writes hw']
    rfl
  added array := by rw [added_append, kept_append, h.added, h'.added]
  along past pastVs hpast := by
    have hpast' : ∀ array,
        MGenQTestMsg.added array (past ++ stmts) = kept array (pastVs ++ vs) := by
      intro array
      rw [added_append, kept_append, hpast, h.added]
    rw [along_append, along_append, h.along past pastVs hpast, h'.along _ _ hpast']
    cases w with
    | false =>
      rw [h.writes rfl, List.append_nil, Bool.false_or]
      constructor
      · rintro ⟨⟨-, hvs⟩, hhead, hws⟩
        exact ⟨hhead, hvs, hws⟩
      · rintro ⟨hhead, hvs, hws⟩
        exact ⟨⟨by rintro ⟨⟩, hvs⟩, hhead, hws⟩
    | true =>
      constructor
      · rintro ⟨⟨hhead, hvs⟩, -, hws⟩
        exact ⟨fun _ => hhead rfl, hvs, hws⟩
      · rintro ⟨hhead, hvs, hws⟩
        exact ⟨⟨fun _ => hhead rfl, hvs⟩, fun _ => (hhead rfl).append stmts, hws⟩

/-- An element is added to an array, and what is below it comes behind. -/
theorem Agree.element {head : Expr} {decl : FieldDecl} {index : ℕ} {stmts : List Stmt}
    {vs : List Kept} {w : Bool} (h : Agree ((head.get decl.name).item index) stmts vs w) :
    Agree head (.add (head.get decl.name) decl.subClass decl.name :: stmts)
      (⟨head.get decl.name, index, w⟩ :: vs) true where
  writes hw := by cases hw
  added array := by
    have hstmts := h.added array
    rw [MGenQTestMsg.added, List.countP_cons, kept, List.countP_cons]
    rw [MGenQTestMsg.added, kept] at hstmts
    rw [hstmts]
    rfl
  along past pastVs hpast := by
    let add := Stmt.add (head.get decl.name) decl.subClass decl.name
    let v : Kept := ⟨head.get decl.name, index, w⟩
    have hadd : ∀ array, MGenQTestMsg.added array [add] = kept array [v] := by
      intro array
      rw [MGenQTestMsg.added, kept, List.countP_singleton, List.countP_singleton]
      rfl
    have hpast' : ∀ array, MGenQTestMsg.added array (past ++ [add]) = kept array (pastVs ++ [v]) := by
      intro array
      rw [added_append, kept_append, hpast, hadd]
    have hself : MGenQTestMsg.added (head.get decl.name) (past ++ [add]) =
        kept (head.get decl.name) pastVs + 1 := by
      rw [hpast', kept_append]
      congr 1
      exact List.countP_singleton.trans (if_pos (decide_eq_true rfl))
    rw [along_cons, along_cons, h.along _ _ hpast']
    have hitem : Present (past ++ [add]) ((head.get decl.name).item index).items ↔
        index ≤ kept (head.get decl.name) pastVs ∧ Present (past ++ [add]) head.items := by
      rw [Expr.items, present_cons, hself, Nat.lt_succ_iff]
      rfl
    rw [hitem]
    constructor
    · rintro ⟨hhead, hw, hvs⟩
      exact ⟨fun _ => hhead, fun hused => (hw hused).1, hvs⟩
    · rintro ⟨hhead, hplaced, hvs⟩
      exact ⟨hhead rfl, fun hused => ⟨hplaced hused, (hhead rfl).append _⟩, hvs⟩

/-! ### The statements of a field -/

section Fields

variable {depth : ℕ} {head : Expr}

/-- The statements of a class file and the elements below it. -/
theorem agree_runs
    (ih : ∀ {head decl node index stmts}, genFieldPy s send depth head decl node index = .ok stmts →
      Agree head stmts (visits s send depth head decl node index) (writes s send depth decl node))
    {cs : List Call} {stmts : List Stmt} (h : Runs (genFieldPy s send depth) head cs stmts) :
    Agree head stmts (cs.flatMap fun c => visits s send depth head c.decl c.node c.index)
      (cs.any fun c => writes s send depth c.decl c.node) := by
  obtain ⟨parts, hparts, rfl⟩ := h
  induction hparts with
  | nil => exact agree_nil
  | cons hc _ ih' => exact (ih hc).append ih'

/-- Nothing is written for an array that is skipped. -/
theorem writes_skipped {decl : FieldDecl} {node : Option Element} (h : IsArray s decl)
    (hskip : isSkipped s send node = true) : writes s send (depth + 1) decl node = false := by
  rw [writes]
  split
  · rename_i hshape
    exact absurd h (not_isArray_of_shape hshape fun fields => ⟨by rintro ⟨⟩, by rintro ⟨⟩⟩)
  · rename_i hshape
    exact absurd h (not_isArray_of_shape hshape fun fields => ⟨by rintro ⟨⟩, by rintro ⟨⟩⟩)
  · rw [hskip]
    rfl
  · rw [hskip]
    rfl
  · rfl

/-- Nothing in it is visited. -/
theorem visits_skipped {decl : FieldDecl} {node : Option Element} {index : ℕ} (h : IsArray s decl)
    (hskip : isSkipped s send node = true) :
    visits s send (depth + 1) head decl node index = [] := by
  rw [visits]
  split
  · rename_i hshape
    exact absurd h (not_isArray_of_shape hshape fun fields => ⟨by rintro ⟨⟩, by rintro ⟨⟩⟩)
  · exact if_pos hskip
  · exact if_pos hskip
  · rfl

/-- The statements of a field come in order exactly when its elements do. -/
theorem agree_genFieldPy (depth : ℕ) {head : Expr} {decl : FieldDecl} {node : Option Element}
    {index : ℕ} {stmts : List Stmt} (h : genFieldPy s send depth head decl node index = .ok stmts) :
    Agree head stmts (visits s send depth head decl node index) (writes s send depth decl node) := by
  induction depth generalizing head decl node index stmts with
  | zero => cases h
  | succ depth ih =>
    cases gives_genFieldPy h with
    | leaf hshape =>
      rw [visits, writes, hshape]
      dsimp only
      cases node with
      | none => exact agree_nil
      | some node =>
        rw [setLeaf, Option.any_some]
        split
        · rename_i hset
          rw [hset]
          exact agree_setValue (Expr.items_get head decl.name) node.data
        · rename_i hset
          rw [eq_false_of_ne_true hset]
          exact agree_nil
    | fields hshape hrun =>
      rw [visits, writes, hshape]
      have hfields := agree_runs ih hrun
      exact ⟨hfields.writes, hfields.added, hfields.along⟩
    | skipped harray hskip =>
      rw [visits_skipped harray hskip, writes_skipped harray hskip]
      exact agree_nil
    | values hshape hkeep =>
      rw [visits, writes, hshape]
      dsimp only
      rw [hkeep, if_neg Bool.false_ne_true]
      refine Agree.element ?_
      cases node with
      | none => exact agree_nil
      | some node => exact agree_setValue rfl node.data
    | elements hshape hkeep hrun =>
      rw [visits, writes, hshape]
      dsimp only
      rw [hkeep, if_neg Bool.false_ne_true]
      exact (agree_runs ih hrun).element
    | ignored hshape =>
      rw [visits, writes, hshape]
      exact agree_nil

end Fields

/-! ### The script of a message -/

/-- In the script, each element of an array field is used behind the statements that add the elements
up to it. -/
def Ordered (script : List Stmt) : Prop := ∀ before stmt after, script = before ++ stmt :: after →
  ∀ array k, (array, k) ∈ stmt.items → k + 1 ≤ added array before

/-- Each element that is used has the index at which it is added, or a smaller one. -/
def InOrder (vs : List Kept) : Prop := ∀ before v after, vs = before ++ v :: after →
  v.used = true → v.index ≤ kept v.array before

variable (s) in
/-- The elements of array fields in the data of a message. -/
def msgVisits (send : Bool) (depth : ℕ) (msg dataRoot : Element) : List Kept :=
  (calls s (msgNode s msg dataRoot) msg.elements).flatMap fun c =>
    visits s send depth (.msg (msg.getAttrValue "name")) c.decl c.node c.index

/-- A script is in order when each statement has what it uses behind it. -/
theorem ordered_iff_along {script : List Stmt} : Ordered script ↔ Along Supplied [] script := by
  refine forall₃_congr fun before stmt after => imp_congr_right fun _ => ?_
  rw [List.nil_append]
  exact ⟨fun h x hx => h x.1 x.2 hx, fun h array k hx => h (array, k) hx⟩

/-- Elements are in order when each has the ones up to its index behind it. -/
theorem inOrder_iff_along {vs : List Kept} : InOrder vs ↔ Along Placed [] vs := by
  refine forall₃_congr fun before v after => imp_congr_right fun _ => ?_
  rw [List.nil_append]
  rfl

/-- **When the elements of arrays are used behind the statements that add them.**  In the script of a
message each use of an element comes behind the statements that add it and the ones before it exactly
when, among the elements that are not left out, each one that is used has as many of its array before
it as its index says. -/
theorem accesses_iff {depth : ℕ} {msgPath action : String} {msg dataRoot : Element}
    {script : List Stmt} (hmsg : s.files msgPath = some (some msg))
    (hdata : s.files s.dataFile = some (some dataRoot))
    (h : genMsgPy s depth msgPath action = .ok script) :
    Ordered script ↔ InOrder (msgVisits s (isSend s action) depth msg dataRoot) := by
  obtain ⟨stmts, hstmts, rfl⟩ := runs_genMsgPy hmsg hdata h
  have hfields := agree_runs (agree_genFieldPy depth) hstmts
  have hfooter : ∀ past, Along Supplied past (footer s (msg.getAttrValue "name") action) := by
    intro past
    refine along_of_forall fun stmt hstmt past x hx => ?_
    rw [footer] at hstmt
    split at hstmt
    · cases List.mem_singleton.mp hstmt
      cases hx
    · split at hstmt
      · cases List.mem_singleton.mp hstmt
        cases hx
      · cases hstmt
  rw [ordered_iff_along, along_cons, along_append, List.nil_append,
    hfields.along [.create (msg.getAttrValue "name")] [] fun _ => rfl]
  rw [inOrder_iff_along]
  constructor
  · rintro ⟨-, ⟨-, hvs⟩, -⟩
    exact hvs
  · intro hvs
    refine ⟨List.forall_mem_nil _, ⟨fun _ => List.forall_mem_nil _, hvs⟩, hfooter _⟩

/-- A message with an array field, and data with two elements for it. -/
def idsMsg : Element :=
  ⟨"message", [("name", "pay")], "", [⟨"field", [("name", "ids"), ("type", "array")], "", []⟩]⟩

/-- A message with two elements in an array; the first may be marked. -/
def idsData (isVerify : String) : Element :=
  ⟨"wizard", [], "", [⟨"message", [("name", "pay")], "",
    [⟨"field", [("name", "ids"), ("isVerify", isVerify)], "1", []⟩, ⟨"field", [("name", "ids")], "2", []⟩]⟩]⟩

/-- The files with that message. -/
def idsSetting (isVerify : String) : Setting where
  files p := some (some (if p = "data.xml" then idsData isVerify else idsMsg))
  fold := Char.toLower
  basePath := "config"
  dataFile := "data.xml"

/-- The array. -/
def ids : Expr := (Expr.msg "pay").get "ids"

/-- The script of the message whose elements are not marked. -/
theorem genMsgPy_ids : genMsgPy (idsSetting "") 1 "pay.xml" "send" =
    .ok [.create "pay", .add ids "" "ids", .setValue (ids.item 0) "1", .add ids "" "ids",
      .setValue (ids.item 1) "2", .send "pay"] := by rfl

theorem accesses_iff_ids : Ordered [.create "pay", .add ids "" "ids", .setValue (ids.item 0) "1",
    .add ids "" "ids", .setValue (ids.item 1) "2", .send "pay"] := by
  have hmsg : (idsSetting "").files "pay.xml" = some (some idsMsg) := rfl
  have hdata : (idsSetting "").files "data.xml" = some (some (idsData "")) := rfl
  have hvisits : msgVisits (idsSetting "") (isSend (idsSetting "") "send") 1 idsMsg (idsData "") =
      [⟨ids, 0, true⟩, ⟨ids, 1, true⟩] := rfl
  rw [accesses_iff hmsg hdata genMsgPy_ids, hvisits, inOrder_iff_along]
  exact along_cons.mpr ⟨fun _ => Nat.zero_le _, along_cons.mpr ⟨fun _ => by decide, along_nil⟩⟩

/-- The first element is to be verified: none is added for it, and the second one is sought behind
it. -/
theorem not_accesses_verified : ∃ script,
    genMsgPy (idsSetting "true") 1 "pay.xml" "send" = .ok script ∧ ¬ Ordered script := by
  refine ⟨[.create "pay", .add ids "" "ids", .setValue (ids.item 1) "2", .send "pay"], by rfl, ?_⟩
  intro h
  have hadded := h [.create "pay", .add ids "" "ids"] (.setValue (ids.item 1) "2") [.send "pay"] rfl
    ids 1 List.mem_cons_self
  exact absurd hadded (by decide)

end MGenQTestMsg

end MBT
