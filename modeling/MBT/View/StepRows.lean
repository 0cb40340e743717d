import MBT.Data.DataRows
import MBT.View.HandleVars

/-!
# View — StepRows

`handleVarsAlign` takes the rows of the steps by index, up to the least number of rows that a step
has.  The loop that looks for it starts from `0`, which also is the number of rows of a step that
declares parameters and uses none.

* `run_stepsRows`: the rows that the steps of a text get.
* `rowCount_of_pos`, `rowCount_append_of_empty`: what the loop finds.
* `finds_iff`: when each row that is taken is found, at every order of the steps.
-/

namespace MBT
open Exec Text MXmlParse MDataAlgo

namespace MQTestView

/-! ### The steps that a text starts -/

/-- The text starts a step of this name. -/
def Starts (content name : String) : Prop :=
  ∃ line ∈ getLines content, isStepStart line ∧ stepName line = .ok name

/-- A name that is looked up is in the map. -/
theorem mem_of_lookup {β : Type} {m : HashMap String β} {name : String} {b : β}
    (h : m.lookup name = some b) : name ∈ m :=
  AList.lookup_isSome.mp (Option.isSome_iff_exists.mpr ⟨b, h⟩)

/-- Only a line that starts a step adds a name. -/
theorem mem_stepParamLine {s s' : HashMap String (HashSet String) × String} {line : String}
    (h : stepParamLine s line = .ok s') (name : String) :
    name ∈ s'.1 ↔ name ∈ s.1 ∨ isStepStart line ∧ stepName line = .ok name := by
  obtain ⟨m, last⟩ := s
  rw [stepParamLine] at h
  by_cases hstart : isStepStart line
  · rw [if_pos hstart] at h
    obtain ⟨started, hname, h⟩ := bind_eq_ok.mp h
    cases h
    rw [AList.mem_insert, hname, Except.ok.injEq, or_comm, eq_comm, and_iff_right hstart]
  · -- a parameter is put into the set of a name that the map already has
    have hadd : ∀ (vars : HashSet String), m.lookup last = some vars → ∀ var,
        name ∈ m.insert last (vars.add var) ↔ name ∈ m := by
      intro vars hvars var
      rw [AList.mem_insert, or_iff_right_iff_imp]
      rintro rfl
      exact mem_of_lookup hvars
    rw [or_iff_left (fun hline => hstart hline.1)]
    simp only [if_neg hstart] at h
    split at h
    · obtain ⟨var, -, h⟩ := bind_eq_ok.mp h
      cases h
      dsimp only
      split
      · rename_i vars hvars
        exact hadd vars hvars var
      · rfl
    · split at h
      · obtain ⟨var, -, h⟩ := bind_eq_ok.mp h
        cases h
        dsimp only
        split
        · rename_i vars hvars
          exact hadd vars hvars var
        · rfl
      · cases h
        rfl

/-- **The names of `GetParamInStep`** are those of the steps that the text starts. -/
theorem mem_getParamInStep {content : String} {m : HashMap String (HashSet String)}
    (h : getParamInStep content = .ok m) (name : String) :
    name ∈ m ↔ isParamSet content ∧ Starts content name := by
  have H : ∀ (lines : List String) (s s' : HashMap String (HashSet String) × String),
      lines.foldlM stepParamLine s = .ok s' →
        (name ∈ s'.1 ↔ name ∈ s.1 ∨ ∃ line ∈ lines, isStepStart line ∧ stepName line = .ok name) := by
    intro lines
    induction lines with
    | nil =>
      intro s s' hfold
      cases hfold
      simp
    | cons line lines ih =>
      intro s s' hfold
      rw [List.foldlM_cons] at hfold
      obtain ⟨s₁, hline, hfold⟩ := bind_eq_ok.mp hfold
      rw [ih s₁ s' hfold, mem_stepParamLine hline, or_assoc, List.exists_mem_cons_iff]
  rw [getParamInStep] at h
  split at h
  · rename_i hset
    obtain ⟨s', hfold, h⟩ := bind_eq_ok.mp h
    cases h
    rw [H _ _ s' hfold, or_iff_right (AList.notMem_empty name), and_iff_right hset]
    rfl
  · rename_i hset
    cases h
    exact iff_of_false (AList.notMem_empty name) fun h => hset h.1

/-! ### The rows of a step -/

/-- The parameters that a step declares. -/
def declared (step : Element) : List Param :=
  (step.elements.filter (·.name = "var")).map fun var =>
    ⟨some (var.getAttrValue "name"), some (var.getAttrValue "type"),
      some (var.getAttrValue "value")⟩

/-- The element of a step in the file. -/
def StepOf (fold : Char → Char) (root : Element) (name : String) (step : Element) : Prop :=
  ∃ steps, getSubElementByKey fold root "name" name = .ok (step :: steps)

/-- The rows of a step: `null` where it declares no parameter, and otherwise some exactly when the
parameters that it uses all have a value, and there is one. -/
structure RowsOf (step : Element) (vars : HashSet String) (rows : Option (HashMap ℕ Row)) :
    Prop where
  eq_none : rows = none ↔ declared step = []
  dense : ∀ r ∈ rows, Dense r
  pos : ∀ r ∈ rows, 0 < r.keys.length ↔ MDataAlgoDiscards.Fruitful (declared step) vars

/-- The rows of a step, and when there are any. -/
theorem run_algoRows (algo : String) (step : Element) (vars : HashSet String) (a : AlgoMap) :
    ∃ rows a', (algoRows algo (declared step) vars).run a = .ok rows a' ∧ RowsOf step vars rows := by
  have hvalues : ∀ p ∈ (declared step).filter (inSet vars), ∃ vs, valueList p = .ok vs := by
    intro p hp
    obtain ⟨var, -, rfl⟩ := List.mem_map.mp (List.mem_of_mem_filter hp)
    exact valueList_ok rfl
  obtain ⟨values, hlists⟩ := exists_lists hvalues
  obtain ⟨rows, d, hrun⟩ := MDataAlgoMag.returns_of_readable
    (MDataAlgoMag.readable_of_lists (MGenData.algorithm algo) ⟨declared step, vars, false⟩ hlists)
    (a (MGenData.algorithm algo))
  refine ⟨rows, _, run_algoRows_ok hrun, ?_⟩
  rcases MDataAlgoMag.of_run_genData hrun with ⟨hnil, rfl⟩ | ⟨hne, r, rfl, hdense⟩
  · refine ⟨iff_of_true rfl hnil, ?_, ?_⟩
    · rintro r ⟨⟩
    · rintro r ⟨⟩
  · refine ⟨iff_of_false (Option.some_ne_none r) hne, ?_, ?_⟩
    · rintro _ ⟨⟩
      exact hdense
    · rintro _ ⟨⟩
      exact MDataAlgoMag.fruitful_iff_of_run hrun

variable {fold : Char → Char} {root : Element} {stepVarMap : HashMap String (HashSet String)}

/-- The steps that `names` lists have their rows. -/
def Rowed (fold : Char → Char) (root : Element) (stepVarMap : HashMap String (HashSet String))
    (names : List String) (stepsVarMap : StepsVarMap) : Prop :=
  (∀ name, name ∈ stepsVarMap ↔ name ∈ names) ∧
    ∀ name rows, stepsVarMap.lookup name = some rows → ∃ vars step,
      stepVarMap.lookup name = some vars ∧ StepOf fold root name step ∧ RowsOf step vars rows

/-- One step more has its rows. -/
theorem Rowed.insert {names : List String} {stepsVarMap : StepsVarMap} {name : String}
    {vars : HashSet String} {step : Element} {rows : Option (HashMap ℕ Row)}
    (h : Rowed fold root stepVarMap names stepsVarMap) (hvars : stepVarMap.lookup name = some vars)
    (hstep : StepOf fold root name step) (hrows : RowsOf step vars rows) :
    Rowed fold root stepVarMap (names ++ [name]) (stepsVarMap.insert name rows) := by
  refine ⟨fun n => ?_, fun n r hr => ?_⟩
  · rw [AList.mem_insert, h.1 n, List.mem_append, List.mem_singleton, or_comm]
  · by_cases hn : n = name
    · subst hn
      rw [AList.lookup_insert] at hr
      cases hr
      exact ⟨vars, step, hvars, hstep, hrows⟩
    · rw [AList.lookup_insert_ne hn] at hr
      exact h.2 n r hr

/-- The turn of the loop, for a step that the file has. -/
theorem run_stepRows {name : String} {vars : HashSet String} {step : Element}
    (hvars : stepVarMap.lookup name = some vars) (hstep : StepOf fold root name step)
    (stepsVarMap : StepsVarMap) (a : AlgoMap) :
    ∃ rows a', (stepRows fold (some (some root)) stepVarMap stepsVarMap name).run a =
      .ok (stepsVarMap.insert name rows) a' ∧ RowsOf step vars rows := by
  obtain ⟨steps, hsteps⟩ := hstep
  obtain ⟨rows, a', hrun, hrows⟩ := run_algoRows (step.getAttrValue "data") step vars a
  refine ⟨rows, a', ?_, hrows⟩
  have hread : (liftRuntime (Prog.nonNull (stepVarMap.lookup name))).run a = .ok vars a := by
    rw [hvars]
    rfl
  have hroot : (readXml (some (some root))).run a = .ok root a := rfl
  have hlist : (liftRuntime (getSubElementByKey fold root "name" name)).run a =
      .ok (step :: steps) a := by
    rw [hsteps]
    rfl
  have hfirst : (liftRuntime (ArrayList.get (step :: steps) 0)).run a = .ok step a := rfl
  rw [stepRows, run_bind_ok hread, run_bind_ok hroot, run_bind_ok hlist, run_bind_ok hfirst]
  exact run_bind_ok hrun

/-- **The rows of the steps of a text**, at every order. -/
theorem run_stepsRows {content : String} (hcontent : getParamInStep content = .ok stepVarMap)
    (hsteps : ∀ name ∈ stepVarMap, ∃ step, StepOf fold root name step) (o : VisitOrder String)
    (a : AlgoMap) : ∃ stepsVarMap a',
      (stepsRows fold o (some (some root)) content).run a = .ok stepsVarMap a' ∧
        Rowed fold root stepVarMap (o.visit stepVarMap.keySet) stepsVarMap := by
  suffices H : ∀ names done stepsVarMap a, (∀ name ∈ names, name ∈ stepVarMap) →
      Rowed fold root stepVarMap done stepsVarMap → ∃ stepsVarMap' a',
        (names.foldlM (stepRows fold (some (some root)) stepVarMap) stepsVarMap).run a =
          .ok stepsVarMap' a' ∧ Rowed fold root stepVarMap (done ++ names) stepsVarMap' by
    have hstart : Rowed fold root stepVarMap [] ∅ := by
      refine ⟨fun name => iff_of_false (AList.notMem_empty name) List.not_mem_nil, ?_⟩
      rintro name rows ⟨⟩
    obtain ⟨stepsVarMap, a', hrun, hrowed⟩ := H (o.visit stepVarMap.keySet) [] ∅ a
      (fun name hname => (VisitOrder.mem_visit o).mp hname) hstart
    refine ⟨stepsVarMap, a', ?_, hrowed⟩
    rw [stepsRows, hcontent]
    exact hrun
  intro names
  induction names with
  | nil =>
    rintro done stepsVarMap a - hrowed
    rw [List.append_nil]
    exact ⟨stepsVarMap, a, rfl, hrowed⟩
  | cons name names ih =>
    intro done stepsVarMap a hmem hrowed
    obtain ⟨vars, hvars⟩ := Option.isSome_iff_exists.mp
      (AList.lookup_isSome.mpr (hmem name List.mem_cons_self))
    obtain ⟨step, hstep⟩ := hsteps name (hmem name List.mem_cons_self)
    obtain ⟨rows, a₁, hrun, hrows⟩ := run_stepRows hvars hstep stepsVarMap a
    obtain ⟨stepsVarMap', a', hrest, hrowed'⟩ := ih (done ++ [name]) (stepsVarMap.insert name rows)
      a₁ (fun n hn => hmem n (List.mem_cons_of_mem _ hn)) (hrowed.insert hvars hstep hrows)
    refine ⟨stepsVarMap', a', ?_, ?_⟩
    · rw [List.foldlM_cons, run_bind_ok hrun]
      exact hrest
    · rw [List.append_assoc, List.singleton_append] at hrowed'
      exact hrowed'

/-! ### The least number of rows -/

theorem rowCount_concat (rows : List (Option (HashMap ℕ Row))) (r : Option (HashMap ℕ Row)) :
    rowCount (rows ++ [r]) = match r with
      | some r =>
        if rowCount rows = 0 then r.keys.length
        else if rowCount rows > r.keys.length then r.keys.length else rowCount rows
      | none => rowCount rows := by
  rw [rowCount, List.foldl_append]
  rfl

/-- As long as no map is empty, the loop finds the least number. -/
theorem rowCount_of_pos {rows : List (Option (HashMap ℕ Row))}
    (h : ∀ r, some r ∈ rows → 0 < r.keys.length) :
    (∀ r, some r ∈ rows → rowCount rows ≤ r.keys.length ∧ 0 < rowCount rows) := by
  induction rows using List.reverseRecOn with
  | nil => exact fun r hr => absurd hr List.not_mem_nil
  | append_singleton rows x ih =>
    have ih := ih fun r hr => h r (List.mem_append_left _ hr)
    intro r hr
    rw [rowCount_concat]
    cases x with
    | none =>
      rcases List.mem_append.mp hr with hr | hr
      · exact ih r hr
      · cases List.mem_singleton.mp hr
    | some x =>
      have hx := h x (List.mem_append_right _ (List.mem_singleton_self _))
      dsimp only
      rcases List.mem_append.mp hr with hr | hr
      · obtain ⟨hle, hpos⟩ := ih r hr
        rw [if_neg (Nat.ne_of_gt hpos)]
        split <;> omega
      · cases List.mem_singleton.mp hr
        split
        · exact ⟨le_rfl, hx⟩
        · split <;> omega

/-- Empty maps before the others leave no trace. -/
theorem rowCount_append_of_empty {before rows : List (Option (HashMap ℕ Row))}
    (h : ∀ r, some r ∈ before → r.keys.length = 0) :
    rowCount (before ++ rows) = rowCount rows := by
  have hzero : rowCount before = 0 := by
    induction before using List.reverseRecOn with
    | nil => rfl
    | append_singleton before x ih =>
      have ih := ih fun r hr => h r (List.mem_append_left _ hr)
      rw [rowCount_concat, ih]
      cases x with
      | none => rfl
      | some x => exact h x (List.mem_append_right _ (List.mem_singleton_self _))
  rw [rowCount, List.foldl_append]
  change rows.foldl _ (rowCount before) = rowCount rows
  rw [hzero]
  rfl

/-! ### The rows that are taken -/

/-- The variable `size` of `handleVarsAlign`. -/
def size (o : VisitOrder String) (stepsVarMap : StepsVarMap) : ℕ :=
  rowCount ((o.visit stepsVarMap.keySet).map fun name => (stepsVarMap.lookup name).join)

/-- A text that cannot be cut is an index error. -/
theorem inBounds_eq_error {α : Type} {x : Option α} {e : Exn} (h : inBounds x = .error e) :
    e = .indexOutOfBounds := by
  cases x with
  | some a => cases h
  | none => cases h; rfl

/-- A line whose step has its row is not why `null` is met. -/
theorem alignLine_ne_nullPointer {stepsVarMap : StepsVarMap} {i : ℕ}
    (hrows : ∀ name rows, stepsVarMap.lookup name = some (some rows) → i ∈ rows)
    (s : AlignState) (line : String) : alignLine stepsVarMap i s line ≠ .error .nullPointer := by
  intro h
  rw [alignLine] at h
  split at h
  · rcases bind_eq_error.mp h with hname | ⟨name, -, h⟩
    · rcases bind_eq_error.mp hname with hslice | ⟨n, -, hpure⟩
      · cases inBounds_eq_error hslice
      · cases hpure
    · split at h
      · rename_i rows hlookup
        obtain ⟨row, hrow⟩ := Option.isSome_iff_exists.mp
          (AList.lookup_isSome.mpr (hrows name rows hlookup))
        rw [hrow] at h
        cases h
      · cases h
  · split at h
    · cases h
    · split at h
      · rcases bind_eq_error.mp h with hvar | ⟨var, -, hpure⟩
        · cases inBounds_eq_error hvar
        · cases hpure
      · split at h
        · rcases bind_eq_error.mp h with hvar | ⟨var, -, hpure⟩
          · cases inBounds_eq_error hvar
          · cases hpure
        · cases h

/-- Where each row is there, none that is missing is read. -/
theorem alignRows_ne_nullPointer {stepsVarMap : StepsVarMap} {o : VisitOrder String}
    (hrows : ∀ i < size o stepsVarMap, ∀ name rows,
      stepsVarMap.lookup name = some (some rows) → i ∈ rows) (content : String) :
    alignRows o stepsVarMap content ≠ .error .nullPointer := by
  intro h
  rcases bind_eq_error.mp h with h | ⟨rows, -, hpure⟩
  · obtain ⟨i, hi, h⟩ := exists_of_mapM_eq_error h
    rcases bind_eq_error.mp h with h | ⟨s, -, hpure⟩
    · obtain ⟨s, line, -, hline⟩ := exists_of_foldlM_eq_error h
      exact alignLine_ne_nullPointer (hrows i (List.mem_range.mp hi)) s line hline
    · cases hpure
  · cases hpure

/-- Whatever the order of the steps, no step that has rows has less of them than are taken, and each
row that is taken is found.  A line out of which no name can be cut may still end the substitution with
an index error. -/
def Finds (fold : Char → Char) (root : Element) (content : String) : Prop :=
  ∀ (o : VisitOrder String) (a : AlgoMap), ∃ stepsVarMap a',
    (stepsRows fold o (some (some root)) content).run a = .ok stepsVarMap a' ∧
      (∀ name rows, stepsVarMap.lookup name = some (some rows) →
        size o stepsVarMap ≤ rows.keys.length ∧ ∀ i < size o stepsVarMap, i ∈ rows) ∧
      alignRows o stepsVarMap content ≠ .error .nullPointer

/-- One step has the name. -/
theorem StepOf.unique {name : String} {step step' : Element} (h : StepOf fold root name step)
    (h' : StepOf fold root name step') : step = step' := by
  obtain ⟨steps, h⟩ := h
  obtain ⟨steps', h'⟩ := h'
  cases h.symm.trans h'
  rfl

/-- The rows that the loop looks at. -/
theorem some_mem_map_join {stepsVarMap : StepsVarMap} {names : List String} {r : HashMap ℕ Row} :
    some r ∈ names.map (fun name => (stepsVarMap.lookup name).join) ↔
      ∃ name ∈ names, stepsVarMap.lookup name = some (some r) := by
  simp only [List.mem_map, Option.join_eq_some_iff]

/-- A step that declares parameters has no row. -/
def EmptyRows (vars : HashSet String) (step : Element) : Prop :=
  declared step ≠ [] ∧ ¬ MDataAlgoDiscards.Fruitful (declared step) vars

variable (fold root stepVarMap) in
/-- A step of the text has rows. -/
def HasRows (name : String) : Prop :=
  ∃ vars step, stepVarMap.lookup name = some vars ∧ StepOf fold root name step ∧
    MDataAlgoDiscards.Fruitful (declared step) vars

/-- The rows of a step are some exactly when the file and the text say so. -/
theorem Rowed.pos_iff {names : List String} {stepsVarMap : StepsVarMap}
    (h : Rowed fold root stepVarMap names stepsVarMap) {name : String} {r : HashMap ℕ Row}
    (hr : stepsVarMap.lookup name = some (some r)) :
    0 < r.keys.length ↔ HasRows fold root stepVarMap name := by
  obtain ⟨vars, step, hvars, hstep, hrows⟩ := h.2 name (some r) hr
  rw [hrows.pos r rfl]
  refine ⟨fun hfruit => ⟨vars, step, hvars, hstep, hfruit⟩, ?_⟩
  rintro ⟨vars', step', hvars', hstep', hfruit⟩
  cases hvars.symm.trans hvars'
  rw [hstep.unique hstep']
  exact hfruit

/-- An order that visits the elements with `P` last. -/
def visitLast (P : String → Prop) [DecidablePred P] : VisitOrder String where
  visit s := s.elems.filter (fun n => ¬ P n) ++ s.elems.filter (fun n => P n)
  perm s := by
    have hperm := List.filter_append_perm (fun n => decide (P n)) s.elems
    simp only [decide_not]
    exact List.perm_append_comm.trans hperm

/-- A step that declares parameters has a map of rows. -/
theorem Rowed.exists_rows {names : List String} {stepsVarMap : StepsVarMap}
    (h : Rowed fold root stepVarMap names stepsVarMap) {name : String} {step : Element}
    (hname : name ∈ names) (hstep : StepOf fold root name step) (hne : declared step ≠ []) :
    ∃ rows, stepsVarMap.lookup name = some (some rows) := by
  obtain ⟨r, hr⟩ := Option.isSome_iff_exists.mp (AList.lookup_isSome.mpr ((h.1 name).mpr hname))
  obtain ⟨vars', step', -, hstep', hrows⟩ := h.2 name r hr
  cases r with
  | none => exact absurd (hrows.eq_none.mp rfl) (hstep.unique hstep' ▸ hne)
  | some rows => exact ⟨rows, hr⟩

/-- Where a step has rows and those with rows come last, rows are taken. -/
theorem Rowed.size_pos {P : String → Prop} [DecidablePred P] {names : List String}
    {stepsVarMap : StepsVarMap} (h : Rowed fold root stepVarMap names stepsVarMap)
    (hP : ∀ name, P name ↔ HasRows fold root stepVarMap name) {name : String} (hname : name ∈ names)
    (hrows : HasRows fold root stepVarMap name) : 0 < size (visitLast P) stepsVarMap := by
  rw [size, visitLast, List.map_append, rowCount_append_of_empty]
  · obtain ⟨vars, step, hvars, hstep, hfruit⟩ := hrows
    have hne : declared step ≠ [] := fun hnil => hfruit.1 (by rw [hnil]; rfl)
    obtain ⟨rows, hlookup⟩ := h.exists_rows hname hstep hne
    refine (rowCount_of_pos (fun r hr => ?_) rows (some_mem_map_join.mpr ⟨name, ?_, hlookup⟩)).2
    · obtain ⟨n, hn, hr⟩ := some_mem_map_join.mp hr
      exact (h.pos_iff hr).mpr ((hP n).mp (of_decide_eq_true (List.mem_filter.mp hn).2))
    · refine List.mem_filter.mpr ⟨mem_of_lookup hlookup, decide_eq_true ?_⟩
      exact (hP name).mpr ⟨vars, step, hvars, hstep, hfruit⟩
  · intro r hr
    obtain ⟨n, hn, hr⟩ := some_mem_map_join.mp hr
    refine Nat.eq_zero_of_not_pos fun hpos => ?_
    exact of_decide_eq_true (List.mem_filter.mp hn).2 ((hP n).mpr ((h.pos_iff hr).mp hpos))

/-- **When the rows that are taken are found.**  For a text whose steps the file has: exactly when
not both a step that declares parameters has no row, for it uses none of them or one that it uses
has no values, and a step has rows. -/
theorem finds_iff (fold : Char → Char) (root : Element) (content : String)
    (stepVarMap : HashMap String (HashSet String)) (hcontent : getParamInStep content = .ok stepVarMap)
    (hsteps : ∀ name ∈ stepVarMap, ∃ step, StepOf fold root name step) :
    Finds fold root content ↔
      ¬ ((∃ name vars step, stepVarMap.lookup name = some vars ∧ StepOf fold root name step ∧
          EmptyRows vars step) ∧
        ∃ name vars step, stepVarMap.lookup name = some vars ∧ StepOf fold root name step ∧
          MDataAlgoDiscards.Fruitful (declared step) vars) := by
  classical
  constructor
  · rintro hfinds ⟨⟨name, vars, step, hvars, hstep, hne, hempty⟩, name', vars', step', hvars', hrows'⟩
    -- the order visits the steps with rows after those without
    obtain ⟨stepsVarMap, a', hrun, hrowed⟩ := run_stepsRows hcontent hsteps
      (visitLast (HasRows fold root stepVarMap)) fun _ => .new
    obtain ⟨_, _, hrun', hsizes, -⟩ := hfinds (visitLast (HasRows fold root stepVarMap)) fun _ => .new
    cases hrun.symm.trans hrun'
    have hmem {n : String} {vars : HashSet String} (hvars : stepVarMap.lookup n = some vars) :
        n ∈ (visitLast (HasRows fold root stepVarMap)).visit stepVarMap.keySet :=
      (VisitOrder.mem_visit _).mpr (AList.lookup_isSome.mp (Option.isSome_iff_exists.mpr ⟨vars, hvars⟩))
    have hpos := hrowed.size_pos (fun _ => Iff.rfl) (hmem hvars') ⟨vars', step', hvars', hrows'⟩
    obtain ⟨rows, hlookup⟩ := hrowed.exists_rows (hmem hvars) hstep hne
    have hzero : rows.keys.length = 0 := by
      refine Nat.eq_zero_of_not_pos fun hrows => ?_
      obtain ⟨_, _, hvars₁, hstep₁, hfruit⟩ := (hrowed.pos_iff hlookup).mp hrows
      cases hvars.symm.trans hvars₁
      cases hstep.unique hstep₁
      exact hempty hfruit
    exact absurd (hsizes name rows hlookup).1 (by omega)
  · intro hnot o a
    obtain ⟨stepsVarMap, a', hrun, hrowed⟩ := run_stepsRows hcontent hsteps o a
    have hle : ∀ name rows, stepsVarMap.lookup name = some (some rows) →
        size o stepsVarMap ≤ rows.keys.length := by
      by_cases hfruit : ∃ name, HasRows fold root stepVarMap name
      · -- every step that declares parameters has rows
        intro name rows hlookup
        refine (rowCount_of_pos (fun r hr => ?_) rows (some_mem_map_join.mpr
          ⟨name, (VisitOrder.mem_visit o).mpr (mem_of_lookup hlookup), hlookup⟩)).1
        obtain ⟨n, -, hn⟩ := some_mem_map_join.mp hr
        rw [hrowed.pos_iff hn]
        obtain ⟨vars, step, hvars, hstep, hrows⟩ := hrowed.2 n (some r) hn
        by_contra hempty
        refine hnot ⟨⟨n, vars, step, hvars, hstep, ?_, fun h => ?_⟩, hfruit⟩
        · exact fun hnil => Option.some_ne_none r (hrows.eq_none.mpr hnil)
        · exact hempty ⟨vars, step, hvars, hstep, h⟩
      · -- no step has rows
        have hzero : size o stepsVarMap = 0 := by
          rw [size, ← List.append_nil (List.map _ _)]
          refine rowCount_append_of_empty fun r hr => ?_
          obtain ⟨n, -, hn⟩ := some_mem_map_join.mp hr
          exact Nat.eq_zero_of_not_pos fun hrows => hfruit ⟨n, (hrowed.pos_iff hn).mp hrows⟩
        intro name rows _
        rw [hzero]
        exact Nat.zero_le _
    have hfound : ∀ name rows, stepsVarMap.lookup name = some (some rows) →
        ∀ i < size o stepsVarMap, i ∈ rows := by
      intro name rows hlookup i hi
      obtain ⟨vars, step, -, -, hrows⟩ := hrowed.2 name (some rows) hlookup
      exact (hrows.dense rows rfl i).mpr (hi.trans_le (hle name rows hlookup))
    refine ⟨stepsVarMap, a', hrun, fun name rows hlookup =>
      ⟨hle name rows hlookup, hfound name rows hlookup⟩, ?_⟩
    exact alignRows_ne_nullPointer (fun i hi name rows hlookup => hfound name rows hlookup i hi) content

/-! ### A step that uses none of its parameters -/

/-- A text whose first step uses no parameter. -/
def unusedText : String :=
  "stepStart(\"Step: a\");\nstepEnd();\nstepStart(\"Step: b\");\nsetValue(getParams(u));\nstepEnd();\n"

/-- The steps `a` and `b`, each with one parameter. -/
def unusedFile : Element :=
  ⟨"steps", [], "", [⟨"step", [("name", "a"), ("data", "align")], "",
      [⟨"var", [("name", "v"), ("value", "1")], "", []⟩]⟩,
    ⟨"step", [("name", "b"), ("data", "align")], "",
      [⟨"var", [("name", "u"), ("value", "1")], "", []⟩]⟩]⟩

/-- The steps of the text are in the file. -/
theorem steps_unused {m : HashMap String (HashSet String)}
    (hm : getParamInStep unusedText = .ok m) :
    ∀ name ∈ m, ∃ step, StepOf Char.toLower unusedFile name step := by
  have hkeys : (getParamInStep unusedText).toOption.map AList.keys = some ["b", "a"] := by
    decide +kernel
  intro name hname
  have hname : name ∈ m.keys := hname
  rw [hm] at hkeys
  rw [Option.some.inj hkeys] at hname
  rcases List.mem_cons.mp hname with rfl | hname
  · exact ⟨_, [], rfl⟩
  · cases List.mem_singleton.mp hname
    exact ⟨_, [], rfl⟩

theorem finds_iff_unused : ∃ stepVarMap, getParamInStep unusedText = .ok stepVarMap ∧
    (Finds Char.toLower unusedFile unusedText ↔
      ¬ ((∃ name vars step, stepVarMap.lookup name = some vars ∧
            StepOf Char.toLower unusedFile name step ∧ EmptyRows vars step) ∧
          ∃ name vars step, stepVarMap.lookup name = some vars ∧
            StepOf Char.toLower unusedFile name step ∧
              MDataAlgoDiscards.Fruitful (declared step) vars)) := by
  cases hm : getParamInStep unusedText with
  | ok m => exact ⟨m, rfl, finds_iff Char.toLower unusedFile unusedText m hm (steps_unused hm)⟩
  | error e =>
    have hok : (getParamInStep unusedText).toOption.isSome = true := by decide +kernel
    rw [hm] at hok
    cases hok

/-- What a call for a case of the scenario `login` throws. -/
def thrown (root : Element) (content : String) : Option Exn :=
  match (handleVarsAlign Char.toLower noMapper [⟨"login", "", ""⟩] "login_2" .insertion
    (some (some root)) content).run fun _ => .new with
  | .error (.runtime e) _ => some e
  | _ => none

/-- What the rows of the steps throw, after the rows are generated. -/
def thrownByRows (root : Element) (content : String) : Option Exn :=
  match (stepsRows Char.toLower .insertion (some (some root)) content).run fun _ => .new with
  | .ok stepsVarMap _ =>
    match alignRows .insertion stepsVarMap content with
    | .error e => some e
    | .ok _ => none
  | .error .. => none

/-- The step `a` has no row, and after it the step `b` is found to have one: both steps are
declared, and the call throws where the row of `a` is looked up. -/
theorem not_finds_unused : (∀ m, getParamInStep unusedText = .ok m → ∀ name ∈ m,
    ∃ step, StepOf Char.toLower unusedFile name step) ∧
      ¬ Finds Char.toLower unusedFile unusedText ∧
        thrown unusedFile unusedText = some .nullPointer := by
  refine ⟨fun m hm => steps_unused hm, ?_, by decide +kernel⟩
  have hthrown : thrownByRows unusedFile unusedText = some .nullPointer := by decide +kernel
  generalize unusedFile = root at hthrown ⊢
  generalize unusedText = content at hthrown ⊢
  intro hfinds
  obtain ⟨stepsVarMap, a', hrun, -, hne⟩ := hfinds .insertion fun _ => .new
  rw [thrownByRows, hrun] at hthrown
  dsimp only at hthrown
  split at hthrown
  · rename_i e he
    cases hthrown
    exact hne he
  · cases hthrown

end MQTestView

end MBT
