import MBT.View.MGenQTestMsg

/-!
# View — ClassChains

The class files of fields refer to each other, and the two recursions over them keep no record of
where they have been.

* `outcome_genFieldPy`: `genFieldPy` descends as the class files and the elements of the data file say.
* `ends_iff_chains`: each recursion ends exactly when it visits no infinite chain of fields; over
  finitely many files without a cycle it always does.
-/

namespace MBT
open Exec Text MXmlParse MQTestActionHandler

namespace MGenQTestMsg

variable (s : Setting) (send : Bool)

/-! ### The descent of the script -/

/-- A field with its element of the data file. -/
abbrev Visited := FieldDecl × Option Element

/-- The visits of a field of a class file. -/
def fieldSteps (node : Option Element) (field : Element) : List (Except Failure Visited) :=
  let decl := FieldDecl.ofElement field
  match fieldNodes s node decl.name with
  | .error e => [.error e]
  | .ok nodes => if nodes = [] then [.ok (decl, none)] else nodes.map fun node => .ok (decl, some node)

/-- The visits of the fields of the class file of a field. -/
def classSteps (decl : FieldDecl) (node : Option Element) : List (Except Failure Visited) :=
  match readRoot s.files (classFile s.basePath decl.classStr) with
  | .error e => [.error e]
  | .ok root => root.elements.flatMap (fieldSteps s node)

/-- The fields that `genFieldPy` goes on with. -/
def scriptSteps (v : Visited) : List (Except Failure Visited) :=
  if FieldDecl.isNormal s v.1 then if v.1.classStr = "" then [] else classSteps s v.1 v.2
  else if FieldDecl.isArray s v.1 ∧ isSkipped s send v.2 = false ∧ v.1.classStr ≠ "" then
    classSteps s v.1 v.2
  else []

variable {s send}

/-- Looking for elements does not overflow. -/
theorem getSubElementByKey_ne {key value : String} (nodes : List Element) :
    getSubElementByKey s.fold key value nodes ≠ .error .stackOverflow := by
  induction nodes with
  | nil => rintro ⟨⟩
  | cons node nodes ih =>
    intro h
    rcases bind_eq_error.mp h with h | ⟨same, -, h⟩
    · cases hname : node.attributeValue key with
      | none =>
        rw [hname] at h
        cases h
      | some name =>
        rw [hname] at h
        cases h
    · rcases bind_eq_error.mp h with h | ⟨rest, -, h⟩
      · exact ih h
      · cases h

/-- Nor does looking for those of a field. -/
theorem fieldNodes_ne (node : Option Element) (name : String) :
    fieldNodes s node name ≠ .error (.runtime .stackOverflow) := by
  cases node with
  | none => rintro ⟨⟩
  | some node => exact runtime_ne (getSubElementByKey_ne node.elements)

/-- Nor does reading a class file. -/
theorem classSteps_ne {decl : FieldDecl} {node : Option Element} {e : Failure}
    (h : .error e ∈ classSteps s decl node) : e ≠ .runtime .stackOverflow := by
  rw [classSteps] at h
  split at h
  · rename_i e' hread
    cases List.mem_singleton.mp h
    rintro rfl
    exact readRoot_ne hread
  · obtain ⟨field, -, h⟩ := List.mem_flatMap.mp h
    rw [fieldSteps] at h
    split at h
    · rename_i e' hnodes
      cases List.mem_singleton.mp h
      rintro rfl
      exact fieldNodes_ne _ _ hnodes
    · split at h
      · cases List.mem_singleton.mp h
      · obtain ⟨node', -, h⟩ := List.mem_map.mp h
        cases h

/-- Nor does going on to the fields of a field. -/
theorem scriptSteps_ne {v : Visited} {e : Failure} (h : .error e ∈ scriptSteps s send v) :
    e ≠ .runtime .stackOverflow := by
  rw [scriptSteps] at h
  split at h
  · split at h
    · cases h
    · exact classSteps_ne h
  · split at h
    · exact classSteps_ne h
    · cases h

section Loops

variable {genFieldPy : Expr → FieldDecl → Option Element → ℕ → Except Failure (List Stmt)}
  {visit : Visited → Except Failure Unit} {head : Expr}

/-- How the elements of a field are visited. -/
theorem outcome_genNodes (decl : FieldDecl) (index : ℕ) (nodes : List Element)
    (h : ∀ decl node index, Descent.outcome (genFieldPy head decl node index) = visit (decl, node)) :
    Descent.outcome (genNodes genFieldPy head decl index nodes) =
      nodes.forM fun node => visit (decl, some node) := by
  induction nodes generalizing index with
  | nil => rfl
  | cons node nodes ih =>
    rw [Descent.forM_cons, ← ih (index + 1), ← h decl (some node) index, genNodes]
    cases genFieldPy head decl (some node) index with
    | error e => rfl
    | ok stmts => cases genNodes genFieldPy head decl (index + 1) nodes <;> rfl

/-- How the fields of a class are visited. -/
theorem outcome_genFields (node : Option Element) (fields : List Element)
    (h : ∀ decl node index, Descent.outcome (genFieldPy head decl node index) = visit (decl, node)) :
    Descent.outcome (genFields s genFieldPy head node fields) =
      (fields.flatMap (fieldSteps s node)).forM fun c => c >>= visit := by
  induction fields with
  | nil => rfl
  | cons field fields ih =>
    rw [List.flatMap_cons, Descent.forM_append, ← ih, genFields, fieldSteps]
    cases fieldNodes s node (FieldDecl.ofElement field).name with
    | error e => rfl
    | ok nodes =>
      rw [ok_bind, Descent.outcome_bind]
      have hfield : ((if nodes = [] then [.ok (.ofElement field, none)]
          else nodes.map fun node => .ok (.ofElement field, some node)).forM
            fun c : Except Failure Visited => c >>= visit) =
          Descent.outcome (if nodes = [] then genFieldPy head (.ofElement field) none 0
            else genNodes genFieldPy head (.ofElement field) 0 nodes) := by
        split
        · rw [h, Descent.forM_cons_ok]
          cases visit (.ofElement field, none) <;> rfl
        · rw [outcome_genNodes _ 0 nodes h, Descent.forM_map_ok]
      rw [hfield]
      cases (if nodes = [] then genFieldPy head (.ofElement field) none 0
        else genNodes genFieldPy head (.ofElement field) 0 nodes) with
      | error e => rfl
      | ok stmts => cases genFields s genFieldPy head node fields <;> rfl

/-- How the fields of a class file are visited. -/
theorem outcome_class {decl : FieldDecl} {node : Option Element}
    (h : ∀ decl node index, Descent.outcome (genFieldPy head decl node index) = visit (decl, node)) :
    Descent.outcome (readRoot s.files (classFile s.basePath decl.classStr) >>= fun root =>
        genFields s genFieldPy head node root.elements) =
      (classSteps s decl node).forM fun c => c >>= visit := by
  rw [classSteps]
  cases readRoot s.files (classFile s.basePath decl.classStr) with
  | error e => rfl
  | ok root => exact outcome_genFields node root.elements h

end Loops

/-- `genFieldPy` descends from a field to the fields of its class file, with their elements in the
data file. -/
theorem outcome_genFieldPy (depth : ℕ) (head : Expr) (decl : FieldDecl) (node : Option Element)
    (index : ℕ) : Descent.outcome (genFieldPy s send depth head decl node index) =
      Descent.visit (scriptSteps s send) (.runtime .stackOverflow) depth (decl, node) := by
  induction depth generalizing head decl node index with
  | zero => rfl
  | succ depth ih =>
    rw [genFieldPy, Descent.visit, scriptSteps]
    split
    · split
      · rfl
      · rw [← outcome_class fun decl node index => ih (head.get _) decl node index]
        cases readRoot s.files (classFile s.basePath decl.classStr) with
        | error e => rfl
        | ok root =>
          rw [ok_bind, ok_bind]
          split
          · rename_i hnil
            rw [hnil]
            rfl
          · rfl
    · split
      · rename_i harray
        split
        · rename_i hskip
          rw [if_neg]
          · rfl
          · rintro ⟨-, hkeep, -⟩
            exact Bool.false_ne_true (hkeep.symm.trans hskip)
        · rename_i hskip
          dsimp only
          split
          · rename_i hclass
            rw [if_neg fun h => h.2.2 hclass]
            cases node <;> rfl
          · rename_i hclass
            rw [if_pos ⟨harray, eq_false_of_ne_true hskip, hclass⟩,
              ← outcome_class fun decl node index => ih ((head.get _).item _) decl node index]
            cases readRoot s.files (classFile s.basePath decl.classStr) with
            | error e => rfl
            | ok root =>
              rw [ok_bind, ok_bind]
              cases genFields s (genFieldPy s send depth) ((head.get decl.name).item index) node
                root.elements <;> rfl
      · rename_i harray
        rw [if_neg fun h => harray h.1]
        rfl

/-! ### Chains of fields -/

/-- The recursion of the script ends on a field and its element of the data file. -/
def ScriptEnds (s : Setting) (send : Bool) (v : Visited) : Prop :=
  ∃ N, ∀ depth, N ≤ depth → ∀ head index,
    genFieldPy s send depth head v.1 v.2 index ≠ .error (.runtime .stackOverflow)

/-- The field is visited from the other one. -/
def ScriptNext (s : Setting) (send : Bool) : Visited → Visited → Prop :=
  Descent.Next (scriptSteps s send) (.runtime .stackOverflow)

/-- A class file has a field of a class, whose file is the other one. -/
def Refers (files : String → Option (Option Element)) (basePath p q : String) : Prop :=
  ∃ root, files p = some (some root) ∧ ∃ field ∈ root.elements,
    (FieldDecl.ofElement field).classStr ≠ "" ∧ q = classFile basePath (FieldDecl.ofElement field).classStr

/-- The script of a field ends when no chain of fields is endless. -/
theorem scriptEnds_iff {v : Visited} : ScriptEnds s send v ↔
    ¬ ∃ chain : ℕ → Visited, chain 0 = v ∧ ∀ n, ScriptNext s send (chain n) (chain (n + 1)) := by
  refine Iff.trans ?_ (Descent.ends_iff fun v e => scriptSteps_ne)
  refine exists_congr fun N => forall₂_congr fun depth _ => ?_
  have houtcome : ∀ head index,
      genFieldPy s send depth head v.1 v.2 index = .error (.runtime .stackOverflow) ↔
        Descent.visit (scriptSteps s send) (.runtime .stackOverflow) depth v =
          .error (.runtime .stackOverflow) := by
    intro head index
    rw [← Descent.outcome_eq_error, outcome_genFieldPy]
  constructor
  · intro h hvisit
    exact h (.msg "") 0 ((houtcome _ _).mpr hvisit)
  · intro h head index hrun
    exact h ((houtcome head index).mp hrun)

/-- A visit of a class file is one of its fields. -/
theorem mem_of_classSteps {decl : FieldDecl} {node : Option Element} {v : Visited}
    (h : .ok v ∈ classSteps s decl node) :
    ∃ root, s.files (classFile s.basePath decl.classStr) = some (some root) ∧
      ∃ field ∈ root.elements, v.1 = .ofElement field := by
  rw [classSteps] at h
  split at h
  · cases List.mem_singleton.mp h
  · rename_i root hread
    obtain ⟨field, hfield, h⟩ := List.mem_flatMap.mp h
    refine ⟨root, readRoot_eq_ok.mp hread, field, hfield, ?_⟩
    rw [fieldSteps] at h
    split at h
    · cases List.mem_singleton.mp h
    · split at h
      · cases List.mem_singleton.mp h
        rfl
      · obtain ⟨node', -, h⟩ := List.mem_map.mp h
        cases h
        rfl

/-- What is visited from a field is in the class file of the field. -/
theorem mem_of_scriptNext {v w : Visited} (h : ScriptNext s send v w) :
    v.1.classStr ≠ "" ∧ ∃ root, s.files (classFile s.basePath v.1.classStr) = some (some root) ∧
      ∃ field ∈ root.elements, w.1 = .ofElement field := by
  obtain ⟨before, after, heq, -⟩ := h
  have hmem : .ok w ∈ scriptSteps s send v := by
    rw [heq]
    exact List.mem_append_right _ List.mem_cons_self
  rw [scriptSteps] at hmem
  split at hmem
  · split at hmem
    · cases hmem
    · rename_i hclass
      exact ⟨hclass, mem_of_classSteps hmem⟩
  · split at hmem
    · rename_i hclass
      exact ⟨hclass.2.2, mem_of_classSteps hmem⟩
    · cases hmem

end MGenQTestMsg

namespace MGenDataFile

/-- The recursion of the data file ends on a field. -/
def DataEnds (files : String → Option (Option Element)) (basePath : String) (decl : FieldDecl) : Prop :=
  ∃ N, ∀ depth, N ≤ depth →
    genDataField files basePath depth decl ≠ .error (.runtime .stackOverflow)

/-- The field is visited from the other one. -/
def DataNext (files : String → Option (Option Element)) (basePath : String) :
    FieldDecl → FieldDecl → Prop :=
  Descent.Next (dataSteps files basePath) (.runtime .stackOverflow)

variable {files : String → Option (Option Element)} {basePath : String}

/-- The data of a field ends when no chain of fields is endless. -/
theorem dataEnds_iff {decl : FieldDecl} : DataEnds files basePath decl ↔
    ¬ ∃ chain : ℕ → FieldDecl,
      chain 0 = decl ∧ ∀ n, DataNext files basePath (chain n) (chain (n + 1)) :=
  (Descent.ends_iff_of_outcome outcome_genDataField decl).trans
    (Descent.ends_iff fun _ _ => dataSteps_ne)

/-- A field that is gone on with is one of the class file. -/
theorem mem_of_dataNext {v w : FieldDecl} (h : DataNext files basePath v w) :
    v.classStr ≠ "" ∧ ∃ root, files (classFile basePath v.classStr) = some (some root) ∧
      ∃ field ∈ root.elements, w = .ofElement field := by
  have hleaf : ∀ decl, .ok w ∉ leafSteps decl := by
    intro decl h
    rw [leafSteps] at h
    split at h
    · cases h
    · cases List.mem_singleton.mp h
  obtain ⟨before, after, heq, -⟩ := h
  have hmem : .ok w ∈ dataSteps files basePath v := by
    rw [heq]
    exact List.mem_append_right _ List.mem_cons_self
  rw [dataSteps] at hmem
  split at hmem
  · exact absurd hmem (hleaf v)
  rename_i hclass
  split at hmem
  · cases List.mem_singleton.mp hmem
  rename_i root hread
  split at hmem
  · exact absurd hmem (hleaf v)
  · obtain ⟨field, hfield, h⟩ := List.mem_map.mp hmem
    cases h
    exact ⟨hclass, root, readRoot_eq_ok.mp hread, field, hfield, rfl⟩

end MGenDataFile

open MGenQTestMsg MGenDataFile

/-- A chain of fields, each from the class file of the one before, needs a chain of class files. -/
theorem not_chain_of_acyclic {α : Type} {files : String → Option (Option Element)} {basePath : String}
    (hfiles : {p | files p ≠ none}.Finite)
    (hacyclic : ∀ p, ¬ Relation.TransGen (Refers files basePath) p p) (decl : α → FieldDecl)
    {next : α → α → Prop}
    (hnext : ∀ v w, next v w → (decl v).classStr ≠ "" ∧
      ∃ root, files (classFile basePath (decl v).classStr) = some (some root) ∧
        ∃ field ∈ root.elements, decl w = .ofElement field) :
    ¬ ∃ chain : ℕ → α, ∀ n, next (chain n) (chain (n + 1)) := by
  rintro ⟨chain, hchain⟩
  refine Descent.not_chain hfiles (fun p q h => ?_) hacyclic
    ⟨fun n => classFile basePath (decl (chain n)).classStr, fun n => ?_⟩
  · obtain ⟨root, hroot, -⟩ := h
    rw [Set.mem_ofPred_eq, hroot]
    exact Option.some_ne_none _
  · obtain ⟨-, root, hroot, field, hfield, heq⟩ := hnext _ _ (hchain n)
    have hclass := (hnext _ _ (hchain (n + 1))).1
    refine ⟨root, hroot, field, hfield, ?_, ?_⟩
    · rw [← heq]
      exact hclass
    · rw [← heq]

/-- **When the recursions over the class files end.**  Each of the two ends, or reports an error,
exactly when it visits no infinite chain of fields; and over finitely many files none of which refers
to itself, directly or through others, both end on every field. -/
theorem ends_iff_chains (s : Setting) :
    (∀ decl, DataEnds s.files s.basePath decl ↔
      ¬ ∃ chain : ℕ → FieldDecl,
        chain 0 = decl ∧ ∀ n, DataNext s.files s.basePath (chain n) (chain (n + 1))) ∧
    (∀ send v, ScriptEnds s send v ↔
      ¬ ∃ chain : ℕ → Visited, chain 0 = v ∧ ∀ n, ScriptNext s send (chain n) (chain (n + 1))) ∧
    ({p | s.files p ≠ none}.Finite →
      (∀ p, ¬ Relation.TransGen (Refers s.files s.basePath) p p) →
        (∀ decl, DataEnds s.files s.basePath decl) ∧ ∀ send v, ScriptEnds s send v) := by
  refine ⟨fun _ => dataEnds_iff, fun _ _ => scriptEnds_iff, fun hfiles hacyclic => ⟨?_, ?_⟩⟩
  · intro decl
    rw [dataEnds_iff]
    rintro ⟨chain, -, hchain⟩
    exact not_chain_of_acyclic hfiles hacyclic id (fun _ _ => mem_of_dataNext) ⟨chain, hchain⟩
  · intro send v
    rw [scriptEnds_iff]
    rintro ⟨chain, -, hchain⟩
    exact not_chain_of_acyclic hfiles hacyclic Prod.fst (fun _ _ => mem_of_scriptNext) ⟨chain, hchain⟩

/-- A class with one field, which has no class. -/
def payFiles (p : String) : Option (Option Element) :=
  if p = "config/Pay.xml" then
    some (some ⟨"class", [("name", "Pay")], "", [⟨"field", [("name", "uin"), ("type", "normal")], "", []⟩]⟩)
  else none

theorem ends_iff_chains_pay : (∀ decl, DataEnds payFiles "config" decl) ∧
    ∀ send v, ScriptEnds ⟨payFiles, Char.toLower, "config", "data.xml"⟩ send v := by
  have hrefers : ∀ p q, ¬ Refers payFiles "config" p q := by
    rintro p q ⟨root, hroot, field, hfield, hclass, -⟩
    rw [payFiles] at hroot
    split at hroot
    · cases hroot
      rw [List.mem_singleton.mp hfield] at hclass
      exact hclass (by decide)
    · cases hroot
  refine (ends_iff_chains ⟨payFiles, Char.toLower, "config", "data.xml"⟩).2.2 ?_ ?_
  · refine (Set.finite_singleton "config/Pay.xml").subset fun p hp => ?_
    by_contra hne
    exact hp (if_neg hne)
  · intro p h
    obtain ⟨q, -, h⟩ := Relation.TransGen.tail'_iff.mp h
    exact hrefers q p h

/-- A class of lists: it has a field of its own class. -/
def listField : Element :=
  ⟨"field", [("name", "next"), ("class", "List"), ("type", "normal")], "", []⟩

/-- A class with a field of its own type. -/
def listFiles (p : String) : Option (Option Element) :=
  if p = "config/List.xml" then some (some ⟨"class", [("name", "List")], "", [listField]⟩) else none

theorem readRoot_list : readRoot listFiles (classFile "config" (FieldDecl.ofElement listField).classStr) =
    .ok ⟨"class", [("name", "List")], "", [listField]⟩ :=
  readRoot_eq_ok.mpr (if_pos (by decide))

/-- Its data goes on with itself. -/
theorem dataNext_list :
    DataNext listFiles "config" (.ofElement listField) (.ofElement listField) := by
  refine ⟨[], [], ?_, List.forall_mem_nil _⟩
  rw [dataSteps, if_neg (by decide), readRoot_list]
  rfl

/-- Its script goes on with itself. -/
theorem scriptNext_list (send : Bool) :
    ScriptNext ⟨listFiles, Char.toLower, "config", "data.xml"⟩ send (.ofElement listField, none)
      (.ofElement listField, none) := by
  refine ⟨[], [], ?_, List.forall_mem_nil _⟩
  rw [scriptSteps, if_pos (by decide), if_neg (by decide), classSteps, readRoot_list]
  rfl

theorem not_ends_list : {p | listFiles p ≠ none}.Finite ∧
    ¬ DataEnds listFiles "config" (.ofElement listField) ∧
    ∀ send, ¬ ScriptEnds ⟨listFiles, Char.toLower, "config", "data.xml"⟩ send
      (.ofElement listField, none) := by
  refine ⟨?_, ?_, fun send => ?_⟩
  · refine (Set.finite_singleton "config/List.xml").subset fun p hp => ?_
    by_contra hne
    exact hp (if_neg hne)
  · rw [dataEnds_iff, not_not]
    exact ⟨fun _ => .ofElement listField, rfl, fun _ => dataNext_list⟩
  · rw [scriptEnds_iff, not_not]
    exact ⟨fun _ => (.ofElement listField, none), rfl, fun _ => scriptNext_list send⟩

end MBT
