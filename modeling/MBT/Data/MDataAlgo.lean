import MBT.Support.Exec
import MBT.Support.Text

/-!
# Data — MDataAlgo

The two data algorithms.  `MDataAlgoDiscards` gives a row for each combination of the parameters'
values, `MDataAlgoAlign` one for each index of the shortest value list.  Each has one object, whose
working row, rows and names are fields that the calls share.

* `rows_iff`: every row of a call binds exactly the names that the call's list and set share, with
  values of the list, always for `align`; for `discards` exactly when the call gives no row or
  every earlier call has put only such names into the working row.
* `discards_keeps_binding`: a name of an earlier call is bound in a row.
-/

namespace MBT
open Exec Text

/-- A parameter map of the list: what it has under `name`, `type` and `value`. -/
structure Param where
  name : Option String
  type : Option String
  value : Option String
  deriving DecidableEq

/-- The values of the parameters, by their names. -/
abbrev Row := HashMap String String

/-- The fields of a data algorithm. -/
structure MDataAlgo where
  datasMap : HashMap ℕ Row
  dataMap : Row
  paramSet : HashSet String

namespace MDataAlgo

/-- The constructor of `MDataAlgo`. -/
def new : MDataAlgo := ⟨∅, ∅, .empty⟩

/-! ### The values of a parameter -/

/-- `MBasicApi.isList`. -/
def isList (s : String) : Bool := startsWith (trim s) "[" && endsWith (trim s) "]"

/-- `MBasicApi.getSubList`, of a list. -/
def getSubList (s : String) : Except Exn (List String) := do
  let sub ← inBounds (slice (trim s) 1 ((trim s).length - 1))
  return split sub ","

/-- `MDataUtils.getValue`. -/
def getValue (s : String) (_type : Option String) : String := s

/-- The array `valueList` of the two algorithms. -/
def valueList (p : Param) : Except Exn (List String) := do
  let values ← Prog.nonNull p.value
  if isList values then getSubList values else return [values]

/-- The value that a row gets. -/
def valueOf (p : Param) (value : String) : String :=
  if getValue (trim value) p.type = "" then " " else getValue (trim value) p.type

/-- `paramSet.contains(name)`. -/
def inSet (s : HashSet String) (p : Param) : Bool :=
  match p.name with
  | none => false
  | some n => s.contains n

/-- `dataMap.put(name, value)`; the name is in the set. -/
def putData (p : Param) (value : String) : Prog MDataAlgo Unit := do
  let name ← Prog.lift (Prog.nonNull p.name)
  modify fun m => { m with dataMap := m.dataMap.insert name (valueOf p value) }

end MDataAlgo

namespace MDataAlgoDiscards
open MDataAlgo

/-- `getAlgoDiscardsResult` from an index of the list on. -/
def getAlgoDiscardsResult : List Param → Prog MDataAlgo Unit
  | [] => throw .indexOutOfBounds
  | p :: ps => do
    let values ← Prog.lift (valueList p)
    forM values fun value => do
      putData p value
      if ps = [] then
        modify fun m => { m with datasMap := m.datasMap.insert m.datasMap.keys.length m.dataMap }
      else getAlgoDiscardsResult ps

/-- `null` for an empty list; the working row is not cleared. -/
def genData (paramList : List Param) (paramSet : HashSet String) :
    Prog MDataAlgo (Option (HashMap ℕ Row)) := do
  if paramList = [] then return none
  modify fun m => { m with datasMap := ∅, paramSet := paramSet }
  let tmpParamList := paramList.filter (inSet paramSet)
  if tmpParamList ≠ [] then getAlgoDiscardsResult tmpParamList
  let m ← get
  return some m.datasMap

end MDataAlgoDiscards

namespace MDataAlgoAlign
open MDataAlgo

/-- The turn of the first loop: the least number of values. -/
def minNum (paramSet : HashSet String) (dataNum : ℕ) (p : Param) : Except Exn ℕ :=
  if inSet paramSet p then do
    let values ← valueList p
    return if values.length < dataNum then values.length else dataNum
  else return dataNum

/-- The turn of the inner loop. -/
def putAt (paramSet : HashSet String) (j : ℕ) (p : Param) : Prog MDataAlgo Unit := do
  if inSet paramSet p then
    let values ← Prog.lift (valueList p)
    let value ← Prog.lift (ArrayList.get values j)
    putData p value
    modify fun m => { m with datasMap := m.datasMap.insert j m.dataMap }

/-- `null` for an empty list.  The object keeps the caller's set, and clears the one it has kept:
`sameSet` says that the caller passes that very set again. -/
def genData (paramList : List Param) (paramSet : HashSet String) (sameSet : Bool) :
    Prog MDataAlgo (Option (HashMap ℕ Row)) := do
  if paramList = [] then return none
  let paramSet := if sameSet then .empty else paramSet
  modify fun m => { m with datasMap := ∅, dataMap := ∅, paramSet := paramSet }
  let dataNum ← Prog.lift (paramList.foldlM (minNum paramSet) 10000)
  forM (List.range dataNum) fun j => forM paramList (putAt paramSet j)
  let m ← get
  return some m.datasMap

end MDataAlgoAlign

namespace MDataAlgo

/-! ### What a row should hold -/

/-- A parameter of the list has the name. -/
def Named (l : List Param) (n : String) : Prop := ∃ p ∈ l, p.name = some n

/-- The value is one of those that a parameter of the name has in the list. -/
def FromList (l : List Param) (n v : String) : Prop :=
  ∃ p ∈ l, p.name = some n ∧ ∃ vs, valueList p = .ok vs ∧ ∃ value ∈ vs, v = valueOf p value

/-- The name is in the list and in the set. -/
def Shared (l : List Param) (s : HashSet String) (n : String) : Prop := n ∈ s.elems ∧ Named l n

/-- The row binds exactly the names in the list and in the set, with values of the list. -/
def Exact (l : List Param) (s : HashSet String) (row : Row) : Prop :=
  (∀ n, n ∈ row ↔ Shared l s n) ∧ ∀ n v, row.lookup n = some v → FromList l n v

/-- The names among the parameters that are in the set. -/
theorem named_filter {l : List Param} {s : HashSet String} {n : String} :
    Named (l.filter (inSet s)) n ↔ Shared l s n := by
  constructor
  · rintro ⟨p, hp, hn⟩
    obtain ⟨hp, hs⟩ := List.mem_filter.mp hp
    rw [inSet, hn] at hs
    exact ⟨HashSet.contains_iff.mp hs, p, hp, hn⟩
  · rintro ⟨hs, p, hp, hn⟩
    refine ⟨p, List.mem_filter.mpr ⟨hp, ?_⟩, hn⟩
    rw [inSet, hn]
    exact HashSet.contains_iff.mpr hs

theorem FromList.mono {l k : List Param} (h : l ⊆ k) {n v : String} (hv : FromList l n v) :
    FromList k n v := by
  obtain ⟨p, hp, hn, hvs⟩ := hv
  exact ⟨p, h hp, hn, hvs⟩

/-- What `putData` does. -/
theorem run_putData {p : Param} {n : String} (hn : p.name = some n) (value : String)
    (m : MDataAlgo) : (putData p value).run m =
      .ok ⟨⟩ { m with dataMap := m.dataMap.insert n (valueOf p value) } := by
  rw [putData, hn]
  rfl

/-- The keys of a map are the numbers below its size. -/
def Dense {ν : Type} (m : HashMap ℕ ν) : Prop := ∀ i, i ∈ m ↔ i < m.keys.length

/-- An empty map is dense. -/
theorem dense_empty {ν : Type} : Dense (∅ : HashMap ℕ ν) := fun i =>
  iff_of_false (AList.notMem_empty i) (Nat.not_lt_zero i)

/-- A key at the end is a new one. -/
theorem Dense.length_insert_end {ν : Type} {m : HashMap ℕ ν} (h : Dense m) (v : ν) :
    (m.insert m.keys.length v).keys.length = m.keys.length + 1 := by
  have hlast : m.keys.length ∉ m.keys := fun hmem => Nat.lt_irrefl _ ((h _).mp hmem)
  rw [AList.keys_insert, List.erase_of_not_mem hlast, List.length_cons]

/-- A key at the end continues the numbering. -/
theorem Dense.insert_end {ν : Type} {m : HashMap ℕ ν} (h : Dense m) (v : ν) :
    Dense (m.insert m.keys.length v) := by
  intro i
  rw [AList.mem_insert, h, h.length_insert_end]
  omega

end MDataAlgo

namespace MDataAlgoDiscards
open MDataAlgo

/-! ### What `discards` leaves in the working row -/

/-- The names that a call puts into the working row: those before the first parameter that has no
value. -/
def bound : List Param → List String
  | [] => []
  | p :: ps =>
    match p.name, valueList p with
    | some n, .ok (_ :: _) => n :: bound ps
    | _, _ => []

/-- The turn of the loop for a value. -/
def putValue (p : Param) (ps : List Param) (value : String) : Prog MDataAlgo Unit := do
  putData p value
  if ps = [] then
    modify fun m => { m with datasMap := m.datasMap.insert m.datasMap.keys.length m.dataMap }
  else getAlgoDiscardsResult ps

theorem getAlgoDiscardsResult_cons (p : Param) (ps : List Param) :
    getAlgoDiscardsResult (p :: ps) =
      Prog.lift (valueList p) >>= fun values => forM values (putValue p ps) := rfl

/-- The names of a state's working row, after a program on it. -/
def Grows (x : Prog MDataAlgo Unit) (l : List String) : Prop :=
  ∀ m n, n ∈ (x.exec m).dataMap ↔ n ∈ m.dataMap ∨ n ∈ l

/-- A loop that takes a turn binds the names of one turn. -/
theorem grows_forM {f : String → Prog MDataAlgo Unit} {l : List String} {values : List String}
    (h : ∀ v ∈ values, Grows (f v) l) : Grows (forM values f) (if values = [] then [] else l) := by
  induction values with
  | nil => exact fun m n => (or_iff_left List.not_mem_nil).symm
  | cons v values ih =>
    intro m n
    have hv := h v List.mem_cons_self m n
    rw [if_neg (List.cons_ne_nil _ _), List.forM_cons]
    cases hrun : (f v).run m with
    | error e m' =>
      rw [Prog.exec_error hrun] at hv
      rw [Prog.exec_bind_error hrun, hv]
    | ok a m' =>
      rw [Prog.exec_ok hrun] at hv
      rw [Prog.exec_bind_ok hrun, ih fun v hv => h v (List.mem_cons_of_mem _ hv), hv]
      split
      · simp
      · rw [or_assoc, or_self]

/-- A search binds the names before the first parameter without values. -/
theorem grows_getAlgoDiscardsResult {ps : List Param} (hps : ∀ p ∈ ps, ∃ n, p.name = some n) :
    Grows (getAlgoDiscardsResult ps) (bound ps) := by
  induction ps with
  | nil => exact fun m n => (or_iff_left List.not_mem_nil).symm
  | cons p ps ih =>
    obtain ⟨k, hk⟩ := hps p List.mem_cons_self
    have ih := ih fun p hp => hps p (List.mem_cons_of_mem _ hp)
    have hput : ∀ v, Grows (putValue p ps v) (k :: bound ps) := by
      intro v m n
      rw [putValue, Prog.exec_bind_ok (run_putData hk v m)]
      split
      · rename_i hnil
        subst hnil
        show n ∈ m.dataMap.insert k (valueOf p v) ↔ _
        rw [AList.mem_insert, bound, List.mem_singleton, or_comm]
      · rw [ih, AList.mem_insert, List.mem_cons]
        tauto
    intro m n
    rw [getAlgoDiscardsResult_cons, bound, hk]
    cases hvs : valueList p with
    | error e => exact (or_iff_left List.not_mem_nil).symm
    | ok vs =>
      rw [Prog.lift_ok, pure_bind, grows_forM (fun v _ => hput v)]
      cases vs with
      | nil => rfl
      | cons v vs => rfl

/-! ### What `discards` gives -/

/-- The row binds the names of `l` to values of it, and otherwise the names that `K` holds of. -/
def Good (l : List Param) (K : String → Prop) (row : Row) : Prop :=
  (∀ n, n ∈ row ↔ K n ∨ Named l n) ∧ ∀ n v, Named l n → row.lookup n = some v → FromList l n v

/-- A state of a call for the list `l`: the parameters of `pre` have their values in the working
row, which has otherwise bound what `K` holds of; the rows are good. -/
structure Filled (l pre : List Param) (K : String → Prop) (m : MDataAlgo) : Prop where
  keys : ∀ n, n ∈ m.dataMap → K n ∨ Named l n
  old : ∀ n, K n → n ∈ m.dataMap
  mem : ∀ n, Named pre n → n ∈ m.dataMap
  value : ∀ n v, Named pre n → m.dataMap.lookup n = some v → FromList l n v
  rows : ∀ i row, m.datasMap.lookup i = some row → Good l K row
  dense : Dense m.datasMap

variable {l pre ps : List Param} {K : String → Prop} {m m' : MDataAlgo}

theorem named_append {n : String} {p : Param} : Named (pre ++ [p]) n ↔ Named pre n ∨ p.name = some n := by
  simp only [Named, List.mem_append, List.mem_singleton, or_and_right, exists_or, exists_eq_left]

theorem Filled.of_append {p : Param} (h : Filled l (pre ++ [p]) K m) : Filled l pre K m :=
  { h with
    mem := fun n hn => h.mem n (named_append.mpr (.inl hn))
    value := fun n v hn => h.value n v (named_append.mpr (.inl hn)) }

/-- Putting a value of the next parameter. -/
theorem Filled.put {p : Param} {value n : String} {vs : List String} (h : Filled l pre K m)
    (hp : p ∈ l) (hn : p.name = some n) (hvs : valueList p = .ok vs) (hvalue : value ∈ vs) :
    Filled l (pre ++ [p]) K { m with dataMap := m.dataMap.insert n (valueOf p value) } := by
  have hfrom : FromList l n (valueOf p value) := ⟨p, hp, hn, vs, hvs, value, hvalue, rfl⟩
  refine { h with keys := ?_, old := ?_, mem := ?_, value := ?_ }
  · intro k hk
    rcases (AList.mem_insert _).mp hk with rfl | hk
    · exact .inr ⟨p, hp, hn⟩
    · exact h.keys k hk
  · exact fun k hk => (AList.mem_insert _).mpr (.inr (h.old k hk))
  · intro k hk
    rcases named_append.mp hk with hk | hk
    · exact (AList.mem_insert _).mpr (.inr (h.mem k hk))
    · rw [hn] at hk
      exact (AList.mem_insert _).mpr (.inl (Option.some.inj hk).symm)
  · intro k v hk hv
    by_cases hkn : k = n
    · subst hkn
      rw [AList.lookup_insert] at hv
      exact Option.some.inj hv ▸ hfrom
    · rw [AList.lookup_insert_ne hkn] at hv
      rcases named_append.mp hk with hk | hk
      · exact h.value k v hk hv
      · rw [hn] at hk
        exact absurd (Option.some.inj hk).symm hkn

/-- Putting a row when every parameter has its value. -/
theorem Filled.putRow (h : Filled l l K m) :
    Filled l l K { m with datasMap := m.datasMap.insert m.datasMap.keys.length m.dataMap } := by
  refine { h with rows := ?_, dense := h.dense.insert_end _ }
  intro i row hrow
  by_cases hi : i = m.datasMap.keys.length
  · subst hi
    rw [AList.lookup_insert] at hrow
    cases hrow
    refine ⟨fun n => ⟨h.keys n, fun hn => ?_⟩, h.value⟩
    exact hn.elim (h.old n) (h.mem n)
  · rw [AList.lookup_insert_ne hi] at hrow
    exact h.rows i row hrow

/-- A search that returns has filled the rows, and has given one where each parameter has a
value. -/
theorem filled_of_run (hl : ∀ p ∈ l, ∃ n, p.name = some n) (hps : l = pre ++ ps)
    (h : Filled l pre K m) (hrun : (getAlgoDiscardsResult ps).run m = .ok ⟨⟩ m') :
    Filled l pre K m' ∧ m.datasMap.keys.length ≤ m'.datasMap.keys.length ∧
      ((∀ p ∈ ps, valueList p ≠ .ok []) → 0 < m'.datasMap.keys.length) := by
  induction ps generalizing pre m m' with
  | nil => cases hrun
  | cons p ps ih =>
    have hp : p ∈ l := hps ▸ List.mem_append_right _ List.mem_cons_self
    have hps' : l = (pre ++ [p]) ++ ps := by rw [hps, List.append_assoc, List.singleton_append]
    obtain ⟨n, hn⟩ := hl p hp
    rw [getAlgoDiscardsResult_cons] at hrun
    obtain ⟨vs, hvs, hrun⟩ := Prog.of_run_lift_bind_ok hrun
    have hloop := Prog.of_run_forM_inv (fun done m₁ => Filled l pre K m₁ ∧
      m.datasMap.keys.length ≤ m₁.datasMap.keys.length ∧
        (done ≠ [] → (∀ p ∈ ps, valueList p ≠ .ok []) → 0 < m₁.datasMap.keys.length))
      (l := vs) (f := putValue p ps) ?_ ⟨h, le_rfl, fun hne => absurd rfl hne⟩ hrun
    · obtain ⟨hfilled, hle, hpos⟩ := hloop
      refine ⟨hfilled, hle, fun hall => hpos ?_ fun q hq => hall q (List.mem_cons_of_mem _ hq)⟩
      rintro rfl
      exact hall p List.mem_cons_self hvs
    · rintro done v rest m₁ m₂ hvals ⟨h₁, hle, -⟩ hturn
      have hv : v ∈ vs := hvals ▸ List.mem_append_right _ List.mem_cons_self
      have hput := h₁.put hp hn hvs hv
      rw [putValue, Prog.run_bind_ok (run_putData hn v m₁)] at hturn
      split at hturn
      · rename_i hnil
        subst hnil
        rw [List.append_nil] at hps'
        rw [← hps'] at hput
        cases hturn
        have hlen := hput.dense.length_insert_end (m₁.dataMap.insert n (valueOf p v))
        refine ⟨Filled.of_append (p := p) ?_, ?_, fun _ _ => ?_⟩
        · rw [← hps']
          exact hput.putRow
        · exact hle.trans (Nat.le_of_lt (Nat.lt_of_lt_of_eq (Nat.lt_succ_self _) hlen.symm))
        · exact Nat.lt_of_lt_of_eq (Nat.succ_pos _) hlen.symm
      · obtain ⟨h₂, hle₂, hpos⟩ := ih hps' hput hturn
        exact ⟨h₂.of_append, hle.trans hle₂, fun _ => hpos⟩

/-- Where a parameter has no value, a search gives no row. -/
theorem datasMap_of_run (hps : ∀ p ∈ ps, ∃ n, p.name = some n) (hnone : ∃ p ∈ ps, valueList p = .ok [])
    (hrun : (getAlgoDiscardsResult ps).run m = .ok ⟨⟩ m') : m'.datasMap = m.datasMap := by
  induction ps generalizing m m' with
  | nil => cases hrun
  | cons p ps ih =>
    obtain ⟨n, hn⟩ := hps p List.mem_cons_self
    rw [getAlgoDiscardsResult_cons] at hrun
    obtain ⟨vs, hvs, hrun⟩ := Prog.of_run_lift_bind_ok hrun
    refine Prog.of_run_forM_inv (fun _ m₁ => m₁.datasMap = m.datasMap)
      (l := vs) (f := putValue p ps) ?_ rfl hrun
    intro done v rest m₁ m₂ hvals h₁ hturn
    -- the parameter without a value comes later
    have hlater : ∃ q ∈ ps, valueList q = .ok [] := by
      obtain ⟨q, hq, hqvs⟩ := hnone
      rcases List.mem_cons.mp hq with rfl | hq
      · rw [hvs] at hqvs
        cases hqvs
        exact absurd hvals (by simp)
      · exact ⟨q, hq, hqvs⟩
    rw [putValue, Prog.run_bind_ok (run_putData hn v m₁)] at hturn
    split at hturn
    · rename_i hnil
      obtain ⟨q, hq, -⟩ := hlater
      rw [hnil] at hq
      cases hq
    · exact (ih (fun q hq => hps q (List.mem_cons_of_mem _ hq)) hlater hturn).trans h₁

/-- The parameters in the set have names. -/
theorem exists_name_of_mem_filter {l : List Param} {s : HashSet String} :
    ∀ p ∈ l.filter (inSet s), ∃ n, p.name = some n := by
  intro p hp
  have hs := (List.mem_filter.mp hp).2
  rw [inSet] at hs
  cases hn : p.name with
  | none => rw [hn] at hs; cases hs
  | some n => exact ⟨n, rfl⟩

/-- The parameters that a call uses all have a value. -/
def Fruitful (l : List Param) (s : HashSet String) : Prop :=
  l.filter (inSet s) ≠ [] ∧ ∀ p ∈ l.filter (inSet s), valueList p ≠ .ok []

/-- The rows of a call: what they bind, their numbering, and when there are any. -/
theorem genData_rows {l : List Param} {s : HashSet String} {rows : HashMap ℕ Row}
    (hrun : (genData l s).run m = .ok (some rows) m') :
    (∀ i row, rows.lookup i = some row → Good (l.filter (inSet s)) (· ∈ m.dataMap) row) ∧
      Dense rows ∧ (0 < rows.keys.length ↔ Fruitful l s) := by
  rw [genData] at hrun
  split at hrun
  · cases hrun
  · obtain ⟨⟨⟩, m₁, h₁, hrun⟩ := Prog.of_run_bind_ok hrun
    cases h₁
    have hstart : Filled (l.filter (inSet s)) [] (· ∈ m.dataMap)
        { m with datasMap := ∅, paramSet := s } :=
      { keys := fun n hn => .inl hn
        old := fun n hn => hn
        mem := fun n ⟨p, hp, _⟩ => nomatch hp
        value := fun n v ⟨p, hp, _⟩ => nomatch hp
        rows := fun i row hrow => nomatch hrow
        dense := dense_empty }
    dsimp only at hrun
    split at hrun
    · rename_i hne
      obtain ⟨⟨⟩, m₂, h₂, hrun⟩ := Prog.of_run_bind_ok hrun
      cases hrun
      obtain ⟨hfilled, -, hpos⟩ := filled_of_run exists_name_of_mem_filter rfl hstart h₂
      refine ⟨hfilled.rows, hfilled.dense, fun h => ⟨hne, fun p hp hnone => ?_⟩, fun h => hpos h.2⟩
      rw [datasMap_of_run exists_name_of_mem_filter ⟨p, hp, hnone⟩ h₂] at h
      exact Nat.lt_irrefl 0 h
    · rename_i hnil
      cases hrun
      refine ⟨hstart.rows, hstart.dense, fun h => absurd h (Nat.lt_irrefl 0), fun h => ?_⟩
      exact absurd h.1 hnil

end MDataAlgoDiscards

namespace MDataAlgoAlign
open MDataAlgo

/-! ### What `align` gives -/

variable {l : List Param} {s : HashSet String} {m m' : MDataAlgo}

/-- A state of a call between two turns of the outer loop: the rows below `j` are exact. -/
structure Aligned (l : List Param) (s : HashSet String) (j : ℕ) (m : MDataAlgo) : Prop where
  keys : ∀ n, n ∈ m.dataMap → Shared l s n
  value : ∀ n v, m.dataMap.lookup n = some v → FromList l n v
  rows : ∀ i row, m.datasMap.lookup i = some row → i < j ∧ Exact l s row
  full : ∀ n, Shared l s n → ∀ i < j, i ∈ m.datasMap
  used : ∀ i ∈ m.datasMap, ∃ n, Shared l s n

/-- A state of the turn `j` of the outer loop, after the parameters of `pre`: the row `j`, if one
of these is in the set, is the working row, which binds their names. -/
structure Turning (l : List Param) (s : HashSet String) (j : ℕ) (pre : List Param) (m : MDataAlgo) :
    Prop where
  keys : ∀ n, n ∈ m.dataMap → Shared l s n
  value : ∀ n v, m.dataMap.lookup n = some v → FromList l n v
  mem : ∀ n, Shared pre s n → n ∈ m.dataMap
  rows : ∀ i row, m.datasMap.lookup i = some row →
    (i < j ∧ Exact l s row) ∨ (i = j ∧ row = m.dataMap)
  row : ∀ n, Shared pre s n → j ∈ m.datasMap
  full : ∀ n, Shared l s n → ∀ i < j, i ∈ m.datasMap
  used : ∀ i ∈ m.datasMap, ∃ n, Shared l s n

/-- A turn begins with the rows before it exact. -/
theorem Aligned.turning {j : ℕ} (h : Aligned l s j m) : Turning l s j [] m :=
  { h with
    mem := fun _ ⟨_, _, hp, _⟩ => nomatch hp
    rows := fun i row hrow => .inl (h.rows i row hrow)
    row := fun _ ⟨_, _, hp, _⟩ => nomatch hp }

/-- At its end the row of the turn is exact too. -/
theorem Turning.aligned {j : ℕ} (h : Turning l s j l m) : Aligned l s (j + 1) m := by
  refine { h with rows := ?_, full := ?_ }
  · intro i row hrow
    rcases h.rows i row hrow with ⟨hi, hexact⟩ | ⟨rfl, rfl⟩
    · exact ⟨Nat.lt_succ_of_lt hi, hexact⟩
    · exact ⟨Nat.lt_succ_self i, fun n => ⟨h.keys n, h.mem n⟩, h.value⟩
  · intro n hn i hi
    rcases Nat.lt_succ_iff_lt_or_eq.mp hi with hi | rfl
    · exact h.full n hn i hi
    · exact h.row n hn

theorem shared_append {pre : List Param} {p : Param} {n : String} :
    Shared (pre ++ [p]) s n ↔ Shared pre s n ∨ (n ∈ s.elems ∧ p.name = some n) := by
  rw [Shared, Shared, MDataAlgoDiscards.named_append, and_or_left]

/-- The turn of the inner loop. -/
theorem Turning.step {j : ℕ} {pre : List Param} {p : Param} (h : Turning l s j pre m) (hp : p ∈ l)
    (hrun : (putAt s j p).run m = .ok ⟨⟩ m') : Turning l s j (pre ++ [p]) m' := by
  rw [putAt] at hrun
  cases hs : inSet s p with
  | false =>
    rw [hs] at hrun
    cases hrun
    have hpre : ∀ n, Shared (pre ++ [p]) s n → Shared pre s n := by
      intro n hn
      rcases shared_append.mp hn with hn | ⟨hmem, hname⟩
      · exact hn
      · rw [inSet, hname] at hs
        dsimp only at hs
        rw [HashSet.contains_iff.mpr hmem] at hs
        cases hs
    exact { h with mem := fun n hn => h.mem n (hpre n hn), row := fun n hn => h.row n (hpre n hn) }
  | true =>
    rw [hs, if_pos rfl] at hrun
    obtain ⟨vs, hvs, hrun⟩ := Prog.of_run_lift_bind_ok hrun
    obtain ⟨v, hv, hrun⟩ := Prog.of_run_lift_bind_ok hrun
    cases hn : p.name with
    | none => rw [inSet, hn] at hs; cases hs
    | some n =>
      have hmem : n ∈ s.elems := by
        rw [inSet, hn] at hs
        exact HashSet.contains_iff.mp hs
      have hshared : Shared l s n := ⟨hmem, p, hp, hn⟩
      have hvalue : v ∈ vs := ArrayList.mem_of_get hv
      rw [Prog.run_bind_ok (run_putData hn v m)] at hrun
      cases hrun
      refine { keys := ?_, value := ?_, mem := ?_, rows := ?_, row := ?_, full := ?_, used := ?_ }
      · intro k hk
        rcases (AList.mem_insert _).mp hk with rfl | hk
        · exact hshared
        · exact h.keys k hk
      · intro k w hw
        by_cases hkn : k = n
        · subst hkn
          rw [AList.lookup_insert] at hw
          cases hw
          exact ⟨p, hp, hn, vs, hvs, v, hvalue, rfl⟩
        · rw [AList.lookup_insert_ne hkn] at hw
          exact h.value k w hw
      · intro k hk
        rcases shared_append.mp hk with hk | ⟨-, hk⟩
        · exact (AList.mem_insert _).mpr (.inr (h.mem k hk))
        · rw [hn] at hk
          exact (AList.mem_insert _).mpr (.inl (Option.some.inj hk).symm)
      · intro i row hrow
        by_cases hij : i = j
        · subst hij
          rw [AList.lookup_insert] at hrow
          cases hrow
          exact .inr ⟨rfl, rfl⟩
        · rw [AList.lookup_insert_ne hij] at hrow
          rcases h.rows i row hrow with hlt | ⟨hi, -⟩
          · exact .inl hlt
          · exact absurd hi hij
      · exact fun _ _ => (AList.mem_insert _).mpr (.inl rfl)
      · exact fun k hk i hi => (AList.mem_insert _).mpr (.inr (h.full k hk i hi))
      · intro i _
        exact ⟨n, hshared⟩

/-- Where a name is shared, the rows are those of the turns. -/
theorem Aligned.keys_perm {j : ℕ} (h : Aligned l s j m) {n : String} (hn : Shared l s n) :
    m.datasMap.keys.Perm (List.range j) := by
  rw [List.perm_ext_iff_of_nodup m.datasMap.keys_nodup List.nodup_range]
  intro i
  rw [List.mem_range]
  refine ⟨fun hi => ?_, h.full n hn i⟩
  obtain ⟨row, hrow⟩ := Option.isSome_iff_exists.mp (AList.lookup_isSome.mpr hi)
  exact (h.rows i row hrow).1

theorem Aligned.keys_eq_nil {j : ℕ} (h : Aligned l s j m) (hs : ¬ ∃ n, Shared l s n) :
    m.datasMap.keys = [] :=
  List.eq_nil_iff_forall_not_mem.mpr fun i hi => hs (h.used i hi)

/-- The keys of the rows count them. -/
theorem Aligned.dense {j : ℕ} (h : Aligned l s j m) : Dense m.datasMap := by
  by_cases hs : ∃ n, Shared l s n
  · obtain ⟨n, hn⟩ := hs
    intro i
    rw [(h.keys_perm hn).length_eq, List.length_range, ← List.mem_range]
    exact (h.keys_perm hn).mem_iff
  · intro i
    change i ∈ m.datasMap.keys ↔ i < m.datasMap.keys.length
    rw [h.keys_eq_nil hs]
    exact iff_of_false List.not_mem_nil (Nat.not_lt_zero i)

/-- What the loops leave, from empty maps on. -/
theorem aligned_of_run {dataNum : ℕ} (hrow : m.dataMap = ∅) (hrows : m.datasMap = ∅)
    (hrun : (forM (List.range dataNum) fun j => forM l (putAt s j)).run m = .ok ⟨⟩ m') :
    Aligned l s dataNum m' := by
  have hstart : Aligned l s 0 m :=
    { keys := fun n hn => absurd (hrow ▸ hn) (AList.notMem_empty n)
      value := fun n v hv => by rw [hrow] at hv; cases hv
      rows := fun i row h => by rw [hrows] at h; cases h
      full := fun _ _ i hi => absurd hi (Nat.not_lt_zero i)
      used := fun i hi => absurd (hrows ▸ hi) (AList.notMem_empty i) }
  have hend := Prog.of_run_forM_inv (fun done m => Aligned l s done.length m) ?_ hstart hrun
  · rw [List.length_range] at hend
    exact hend
  · intro done j rest m₁ m₂ hsplit h₁ hturn
    obtain ⟨rfl, -⟩ := Prog.range_split hsplit
    rw [List.length_append, List.length_singleton]
    refine Turning.aligned (Prog.of_run_forM_inv (fun pre m => Turning l s done.length pre m)
      ?_ h₁.turning hturn)
    intro pre p q m₃ m₄ hl h₃ hp
    exact h₃.step (hl ▸ List.mem_append_right _ List.mem_cons_self) hp

theorem genData_rows {rows : HashMap ℕ Row} {same : Bool}
    (hrun : (genData l s same).run m = .ok (some rows) m') :
    (∀ i row, rows.lookup i = some row → Exact l s row) ∧ Dense rows := by
  rw [genData] at hrun
  split at hrun
  · cases hrun
  · generalize hset : (if same then HashSet.empty else s) = s' at hrun
    obtain ⟨⟨⟩, m₁, h₁, hrun⟩ := Prog.of_run_bind_ok hrun
    cases h₁
    obtain ⟨dataNum, -, hrun⟩ := Prog.of_run_lift_bind_ok hrun
    obtain ⟨⟨⟩, m₂, h₂, hrun⟩ := Prog.of_run_bind_ok hrun
    cases hrun
    have hend := aligned_of_run rfl rfl h₂
    refine ⟨fun i row hrow => ?_, hend.dense⟩
    have hexact := (hend.rows i row hrow).2
    cases same with
    | false => rw [show s = s' from hset]; exact hexact
    | true =>
      -- the cleared set holds no name, and a row needs one
      obtain ⟨n, hn, -⟩ := hend.used i (AList.lookup_isSome.mp (by rw [hrow]; rfl))
      rw [← show HashSet.empty = s' from hset] at hn
      cases hn

end MDataAlgoAlign

/-! ### The objects of the manager -/

/-- The names of the algorithms, each with one object. -/
inductive MDataAlgoName where
  | discards
  | align
  deriving DecidableEq

namespace MDataAlgoMag
open MDataAlgo

/-- A call of `genData`; `sameSet` says that the caller passes the set of the call before again. -/
structure Call where
  paramList : List Param
  paramSet : HashSet String
  sameSet : Bool

/-- The `genData` of the algorithm that is configured. -/
def genData (algo : MDataAlgoName) (c : Call) : Prog MDataAlgo (Option (HashMap ℕ Row)) :=
  match algo with
  | .discards => MDataAlgoDiscards.genData c.paramList c.paramSet
  | .align => MDataAlgoAlign.genData c.paramList c.paramSet c.sameSet

/-- The object after some calls, whether they return or throw. -/
def after (algo : MDataAlgoName) (before : List Call) : MDataAlgo :=
  before.foldl (fun m c => (genData algo c).exec m) new

/-- The names that a call of `discards` puts into the working row. -/
def bound (c : Call) : List String :=
  MDataAlgoDiscards.bound (c.paramList.filter (inSet c.paramSet))

/-- A call adds the names it binds to the working row. -/
theorem mem_dataMap_genData (c : Call) (m : MDataAlgo) (n : String) :
    n ∈ ((genData .discards c).exec m).dataMap ↔ n ∈ m.dataMap ∨ n ∈ bound c := by
  rw [genData, MDataAlgoDiscards.genData, bound]
  split
  · rename_i hnil
    rw [hnil]
    exact (or_iff_left List.not_mem_nil).symm
  · dsimp only
    have hstart : (modify fun m => { m with datasMap := ∅, paramSet := c.paramSet } :
        Prog MDataAlgo Unit).run m = .ok ⟨⟩ { m with datasMap := ∅, paramSet := c.paramSet } := rfl
    rw [Prog.exec_bind_ok hstart]
    split
    · have hgrows := MDataAlgoDiscards.grows_getAlgoDiscardsResult
        (MDataAlgoDiscards.exists_name_of_mem_filter (l := c.paramList) (s := c.paramSet))
        { m with datasMap := ∅, paramSet := c.paramSet } n
      refine Iff.trans ?_ hgrows
      cases hrun : (MDataAlgoDiscards.getAlgoDiscardsResult (c.paramList.filter (inSet c.paramSet))).run
          { m with datasMap := ∅, paramSet := c.paramSet } with
      | ok a m' => rw [Prog.exec_bind_ok hrun, Prog.exec_ok hrun]; rfl
      | error e m' => rw [Prog.exec_bind_error hrun, Prog.exec_error hrun]
    · rename_i hnil
      rw [not_not.mp hnil]
      exact (or_iff_left List.not_mem_nil).symm

/-- The working row has the names of all calls before. -/
theorem mem_dataMap_after (before : List Call) (n : String) :
    n ∈ (after .discards before).dataMap ↔ ∃ c ∈ before, n ∈ bound c := by
  suffices H : ∀ m : MDataAlgo, n ∈ (before.foldl (fun m c => (genData .discards c).exec m) m).dataMap ↔
      n ∈ m.dataMap ∨ ∃ c ∈ before, n ∈ bound c from
    (H new).trans (or_iff_right (AList.notMem_empty n))
  induction before with
  | nil => intro m; simp
  | cons c before ih =>
    intro m
    rw [List.foldl_cons, ih, mem_dataMap_genData, List.exists_mem_cons_iff, or_assoc]

/-- **What the rows bind.**  After any calls, every row that a call gives binds exactly the names
that are both in its list and in its set, with values of its list: always for `align`; for
`discards` exactly when the call gives no row, for one of the parameters it uses has no value or
there is none, or when each name that an earlier call has put into the working row is among
them. -/
theorem rows_iff (algo : MDataAlgoName) (before : List Call) (c : Call) (rows : HashMap ℕ Row)
    (m : MDataAlgo) (hrun : (genData algo c).run (after algo before) = .ok (some rows) m) :
    (∀ i row, rows.lookup i = some row → Exact c.paramList c.paramSet row) ↔
      algo = .align ∨ ¬ MDataAlgoDiscards.Fruitful c.paramList c.paramSet ∨
        ∀ c' ∈ before, ∀ n ∈ bound c', Shared c.paramList c.paramSet n := by
  cases algo with
  | align => exact iff_of_true (MDataAlgoAlign.genData_rows hrun).1 (.inl rfl)
  | discards =>
    obtain ⟨hgood, hdense, hpos⟩ := MDataAlgoDiscards.genData_rows hrun
    rw [or_iff_right (fun h => nomatch h)]
    constructor
    · intro hexact
      by_cases hfruit : MDataAlgoDiscards.Fruitful c.paramList c.paramSet
      · right
        intro c' hc' n hn
        obtain ⟨row, hrow⟩ := Option.isSome_iff_exists.mp
          (AList.lookup_isSome.mpr ((hdense 0).mpr (hpos.mpr hfruit)))
        refine ((hexact 0 row hrow).1 n).mp (((hgood 0 row hrow).1 n).mpr (.inl ?_))
        exact (mem_dataMap_after before n).mpr ⟨c', hc', hn⟩
      · exact .inl hfruit
    · intro h i row hrow
      rcases h with h | h
      · refine absurd (hpos.mp ?_) h
        exact Nat.zero_lt_of_lt ((hdense i).mp (AList.lookup_isSome.mp (by rw [hrow]; rfl)))
      · obtain ⟨hkeys, hvalue⟩ := hgood i row hrow
        have hnamed : ∀ n, n ∈ row ↔ Shared c.paramList c.paramSet n := by
          intro n
          rw [hkeys, named_filter]
          refine or_iff_right_of_imp fun hn => ?_
          obtain ⟨c', hc', hn⟩ := (mem_dataMap_after before n).mp hn
          exact h c' hc' n hn
        refine ⟨hnamed, fun n v hv => ?_⟩
        have hmem := (hnamed n).mp (AList.lookup_isSome.mp (by rw [hv]; rfl))
        exact (hvalue n v (named_filter.mpr hmem) hv).mono fun p hp => List.mem_of_mem_filter hp

/-- The parameters `[a, b]` of two names. -/
def pairParams (n₁ n₂ : String) : List Param :=
  [⟨some n₁, some "string", some "[1, 2]"⟩, ⟨some n₂, some "string", some "x"⟩]

/-- A call for one name of the two. -/
def callFor (n : String) : Call := ⟨pairParams "user" "sum", HashSet.empty.add n, false⟩

/-- The one row of a call for `sum`. -/
def sumRows : HashMap ℕ Row := AList.insert 0 (AList.insert "sum" "x" ∅) ∅

theorem rows_iff_again :
    (∀ i row, sumRows.lookup i = some row → Exact (callFor "sum").paramList (callFor "sum").paramSet row) ↔
      MDataAlgoName.discards = .align ∨
        ¬ MDataAlgoDiscards.Fruitful (callFor "sum").paramList (callFor "sum").paramSet ∨
          ∀ c' ∈ [callFor "sum"], ∀ n ∈ bound c',
            Shared (callFor "sum").paramList (callFor "sum").paramSet n :=
  rows_iff .discards [callFor "sum"] (callFor "sum") _
    ((genData .discards (callFor "sum")).exec (after .discards [callFor "sum"])) rfl

/-- After a call for the name `user`, a row of a call for `sum` binds `user` too. -/
theorem discards_keeps_binding :
    ¬ ∀ rows m, (genData .discards (callFor "sum")).run (after .discards [callFor "user"]) =
      .ok (some rows) m → ∀ i row, rows.lookup i = some row →
        Exact (callFor "sum").paramList (callFor "sum").paramSet row := by
  intro h
  have hrun : (genData .discards (callFor "sum")).run (after .discards [callFor "user"]) =
      .ok (some ((∅ : HashMap ℕ Row).insert 0 (((∅ : Row).insert "user" "2").insert "sum" "x")))
        ((genData .discards (callFor "sum")).exec (after .discards [callFor "user"])) := rfl
  have huser := ((h _ _ hrun 0 _ rfl).1 "user").mp (by decide)
  exact absurd huser.1 (by decide)

end MDataAlgoMag

end MBT
