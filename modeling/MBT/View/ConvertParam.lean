import MBT.Data.DataRows
import MBT.View.DataPaths
import MBT.View.ParamLines

/-!
# View — ConvertParam

`ConvertParam` fills the rows of the scenario into a text: every line with a call `getParams(n)` gets
the value of `n`.  The rows bind the names that the scenario declares, and a line with a name that it
does not declare has the value `null`, which is not tested for.

* `run_scenarioRows`: the rows that the scenario of a case gives.
* `convertLine_taken`: what a line needs of a row.
* `converts_iff`: when a text is converted.
-/

namespace MBT
open Exec Text MDataAlgo

namespace MQTestView

/-- The name that `ConvertParam` and `GetParamInContent` cut out of a line. -/
abbrev CutOut (line m : String) : Prop := Taken ")," ")\"," line m

/-! ### Lines -/

section Lines

variable {line m : String}

/-- A line without a call sets nothing. -/
theorem not_isSetValue_of_plain (h : ¬ contains line "getParams(") : ¬ isSetValue line = true := by
  have hno {w u : String} (hw : w = u ++ "getParams(") : ¬ contains (trim line) w = true := by
    intro hcontains
    refine h (contains_iff.mpr ?_)
    refine List.IsInfix.trans ?_ ((contains_iff.mp hcontains).trans (trim_isInfix line))
    rw [hw, String.toList_append]
    exact (List.suffix_append _ _).isInfix
  rw [isSetValue, Bool.or_eq_true, not_or]
  exact ⟨hno (u := "setValue(") (by decide), hno (u := "setValue(\"") (by decide)⟩

/-- A line without a call asserts nothing. -/
theorem not_isAssert_of_plain (h : ¬ contains line "getParams(") : ¬ isAssert line = true := by
  rw [isAssert, Bool.and_eq_true]
  exact fun hand => h hand.2

/-- Nothing is converted in it. -/
theorem convertUse_of_plain (h : ¬ contains line "getParams(") : convertUse line = none := by
  rw [convertUse, if_neg (not_isSetValue_of_plain h), if_neg (not_isAssert_of_plain h)]

/-- A name that is cut out is converted. -/
theorem convertUse_of_cutOut (h : CutOut line m) : ∃ l, convertUse line = some (l, m) := by
  by_cases hset : isSetValue line = true
  · rw [convertUse, if_pos hset, h.setValue hset]
    exact ⟨true, rfl⟩
  · obtain ⟨hassert, hparam⟩ := h.assertEquals hset
    rw [convertUse, if_neg hset, if_pos hassert, hparam]
    exact ⟨false, rfl⟩

/-- One name is cut out of a line. -/
theorem CutOut.unique {k : String} (h : CutOut line m) (hk : CutOut line k) : m = k := by
  obtain ⟨l, hl⟩ := convertUse_of_cutOut h
  obtain ⟨l', hl'⟩ := convertUse_of_cutOut hk
  exact congrArg Prod.snd (Option.some.inj (hl.symm.trans hl'))

/-- A line of which a name is cut out has a call. -/
theorem CutOut.contains_call (h : CutOut line m) : contains line "getParams(" = true := by
  by_contra hplain
  obtain ⟨l, hl⟩ := convertUse_of_cutOut h
  rw [convertUse_of_plain hplain] at hl
  cases hl

/-- The scan adds the name that is cut out. -/
theorem contentParamLine_of_cutOut (h : CutOut line m) (paramSet : HashSet String) :
    contentParamLine paramSet line = .ok (paramSet.add m) := by
  by_cases hset : isSetValue line = true
  · rw [contentParamLine, if_pos hset, h.setValue hset]
    rfl
  · obtain ⟨hassert, hparam⟩ := h.assertEquals hset
    rw [contentParamLine, if_neg hset, if_pos hassert, hparam]
    rfl

/-- It adds nothing for a line without a call. -/
theorem contentParamLine_of_plain (h : ¬ contains line "getParams(") (paramSet : HashSet String) :
    contentParamLine paramSet line = .ok paramSet := by
  rw [contentParamLine, if_neg (not_isSetValue_of_plain h), if_neg (not_isAssert_of_plain h)]
  rfl

/-- Such a line is always converted. -/
theorem convertLine_of_plain (h : ¬ contains line "getParams(") (varMap : Option Row)
    (s : String × String) : ∃ s', convertLine varMap s line = .ok s' := by
  rw [convertLine, if_neg (not_isSetValue_of_plain h), if_neg (not_isAssert_of_plain h)]
  exact ⟨_, rfl⟩

/-- A line is filled in exactly when the row binds the name that is cut out of it. -/
theorem convertLine_taken (h : CutOut line m) (row : Row) (s : String × String) :
    (∃ s', convertLine (some row) s line = .ok s') ↔ m ∈ row := by
  rw [← AList.lookup_isSome, Option.isSome_iff_exists]
  by_cases hset : isSetValue line = true
  · rw [convertLine, if_pos hset, h.setValue hset, ok_bind, Prog.nonNull, ok_bind]
    cases hvalue : row.lookup m with
    | none => exact iff_of_false (by rintro ⟨_, ⟨⟩⟩) (by rintro ⟨_, ⟨⟩⟩)
    | some v => exact iff_of_true ⟨_, rfl⟩ ⟨v, rfl⟩
  · obtain ⟨hassert, hparam⟩ := h.assertEquals hset
    rw [convertLine, if_neg hset, if_pos hassert, hparam, ok_bind, Prog.nonNull, ok_bind]
    cases hvalue : row.lookup m with
    | none => exact iff_of_false (by rintro ⟨_, ⟨⟩⟩) (by rintro ⟨_, ⟨⟩⟩)
    | some v => exact iff_of_true ⟨_, rfl⟩ ⟨v, rfl⟩

/-- The decomposition at the call is unique. -/
theorem Calls.name_unique {a n b a' n' b' : String} (h : Calls line a n b)
    (h' : Calls line a' n' b') : n = n' := by
  have hlen : a'.toList.length = a.toList.length := by
    refine h.place_unique ?_
    rw [h'.toList, List.drop_left]
    exact List.cons_prefix_cons.mpr ⟨rfl, List.prefix_append _ _⟩
  have heq := h.toList.symm.trans h'.toList
  have hrest := (List.append_inj heq hlen.symm).2
  have hcut := List.append_cancel_left (List.cons.inj hrest).2
  exact String.toList_injective (cut_inj h.name.2 h'.name.2 hcut).1

end Lines

/-! ### The text -/

/-- The lines of the text with a call are well formed. -/
def WellFormedText (content : String) : Prop :=
  ∀ line ∈ getLines content, contains line "getParams(" →
    ∃ a n b form, WellFormed line a n b form

section Text

variable {content : String} {lines : List String}

/-- Every line is without a call, or a name is cut out of it. -/
def ReadableLines (lines : List String) : Prop :=
  ∀ line ∈ lines, ¬ contains line "getParams(" ∨ ∃ m, CutOut line m

/-- A well-formed text can be read. -/
theorem WellFormedText.readable (h : WellFormedText content) : ReadableLines (getLines content) := by
  intro line hline
  by_cases hcall : contains line "getParams(" = true
  · obtain ⟨a, n, b, form, hformed⟩ := h line hline hcall
    obtain ⟨m, hm, -⟩ := hformed.exists_taken
    exact .inr ⟨m, hm⟩
  · exact .inl hcall

/-- The scan of a text that can be read finds all names. -/
theorem foldlM_contentParamLine (h : ReadableLines lines) (paramSet : HashSet String) :
    ∃ set, lines.foldlM contentParamLine paramSet = .ok set ∧
      ∀ m, m ∈ paramSet.elems ∨ (∃ line ∈ lines, CutOut line m) → m ∈ set.elems := by
  induction lines generalizing paramSet with
  | nil =>
    refine ⟨paramSet, rfl, ?_⟩
    rintro m (hm | ⟨line, hline, -⟩)
    · exact hm
    · cases hline
  | cons line lines ih =>
    have ih := ih fun l hl => h l (List.mem_cons_of_mem _ hl)
    rw [List.foldlM_cons]
    rcases h line List.mem_cons_self with hplain | ⟨k, hk⟩
    · rw [contentParamLine_of_plain hplain, ok_bind]
      obtain ⟨set, hset, hmem⟩ := ih paramSet
      refine ⟨set, hset, ?_⟩
      rintro m (hm | ⟨l, hl, hcut⟩)
      · exact hmem m (.inl hm)
      · rcases List.mem_cons.mp hl with rfl | hl
        · exact absurd hcut.contains_call hplain
        · exact hmem m (.inr ⟨l, hl, hcut⟩)
    · rw [contentParamLine_of_cutOut hk, ok_bind]
      obtain ⟨set, hset, hmem⟩ := ih (paramSet.add k)
      refine ⟨set, hset, ?_⟩
      rintro m (hm | ⟨l, hl, hcut⟩)
      · exact hmem m (.inl (HashSet.mem_elems_add.mpr (.inl hm)))
      · rcases List.mem_cons.mp hl with rfl | hl
        · exact hmem m (.inl (HashSet.mem_elems_add.mpr (.inr (hcut.unique hk))))
        · exact hmem m (.inr ⟨l, hl, hcut⟩)

/-- The names of a readable text are collected. -/
theorem exists_getParamInContent (h : ReadableLines (getLines content)) :
    ∃ used, getParamInContent content = .ok used ∧
      (isParamSet content = true → ∀ line ∈ getLines content, ∀ m, CutOut line m → m ∈ used.elems) ∧
      (¬ isParamSet content = true → used = .empty) := by
  rw [getParamInContent]
  split
  · rename_i hset
    obtain ⟨used, hused, hmem⟩ := foldlM_contentParamLine h .empty
    exact ⟨used, hused, fun _ line hline m hm => hmem m (.inr ⟨line, hline, hm⟩),
      fun hnot => absurd hset hnot⟩
  · rename_i hset
    exact ⟨.empty, rfl, fun h => absurd h hset, fun _ => rfl⟩

/-- A text is filled in exactly when the row binds every name that is cut out of it. -/
theorem convertRow_iff (h : ReadableLines (getLines content)) (row : Row) :
    (∃ script, convertRow content (some row) = .ok script) ↔
      ∀ line ∈ getLines content, ∀ m, CutOut line m → m ∈ row := by
  have hlines (lines : List String) (h : ReadableLines lines) (s : String × String) :
      (∃ s', lines.foldlM (convertLine (some row)) s = .ok s') ↔
        ∀ line ∈ lines, ∀ m, CutOut line m → m ∈ row := by
    induction lines generalizing s with
    | nil => exact iff_of_true ⟨s, rfl⟩ (List.forall_mem_nil _)
    | cons line lines ih =>
      have ih := ih fun l hl => h l (List.mem_cons_of_mem _ hl)
      rw [List.foldlM_cons, List.forall_mem_cons]
      have hline : (∃ s', convertLine (some row) s line = .ok s') ↔
          ∀ m, CutOut line m → m ∈ row := by
        rcases h line List.mem_cons_self with hplain | ⟨k, hk⟩
        · exact iff_of_true (convertLine_of_plain hplain _ s) fun m hm =>
            absurd hm.contains_call hplain
        · rw [convertLine_taken hk]
          exact ⟨fun hrow m hm => hm.unique hk ▸ hrow, fun hall => hall k hk⟩
      rw [← hline]
      constructor
      · rintro ⟨s', hs'⟩
        obtain ⟨s₁, hs₁, hs'⟩ := bind_eq_ok.mp hs'
        exact ⟨⟨s₁, hs₁⟩, (ih s₁).mp ⟨s', hs'⟩⟩
      · rintro ⟨⟨s₁, hs₁⟩, hrest⟩
        rw [hs₁, ok_bind]
        exact (ih s₁).mpr hrest
  rw [← hlines _ h ("", ""), convertRow]
  constructor
  · rintro ⟨script, hscript⟩
    obtain ⟨s', hs', -⟩ := bind_eq_ok.mp hscript
    exact ⟨s', hs'⟩
  · rintro ⟨s', hs'⟩
    rw [hs', ok_bind]
    exact ⟨_, rfl⟩

end Text

/-! ### A call -/

section Call

variable {fold : Char → Char} {mapper : MJsonHandler.ObjectMapper} {scenarioList : List Scenario}
  {caseName content name : String} {p : ScenarioParam} {used : HashSet String}

/-- Without parameters an algorithm gives no rows, whatever the set. -/
theorem algoRows_nil (algo : String) (s s' : HashSet String) :
    algoRows algo [] s = algoRows algo [] s' := by
  have hnone (name : MDataAlgoName) (s : HashSet String) :
      MDataAlgoMag.genData name ⟨[], s, false⟩ = pure none := by
    cases name with
    | discards => rw [MDataAlgoMag.genData, MDataAlgoDiscards.genData, if_pos rfl]
    | align => rw [MDataAlgoMag.genData, MDataAlgoAlign.genData, if_pos rfl]
  rw [algoRows, algoRows, MGenData.callAlgorithm, MGenData.callAlgorithm, hnone, hnone]

/-- The rows that the scenario of a case gives. -/
theorem run_scenarioRows (hname : scenarioName caseName = .ok name)
    (hp : getScenarioParam mapper fold .empty scenarioList name = .ok p)
    (hused : getParamInContent content = .ok used) (a : AlgoMap) :
    (scenarioRows fold mapper scenarioList content caseName).run a =
      (algoRows p.algo p.valueList used).run a := by
  have hrunName : (liftRuntime (scenarioName caseName)).run a = .ok name a := by
    rw [hname]
    rfl
  have hrunParam : (liftJson (getScenarioParam mapper fold .empty scenarioList name)).run a =
      .ok p a := by
    rw [hp]
    rfl
  rw [scenarioRows, run_bind_ok hrunName, run_bind_ok hrunParam]
  cases hfind : findScenario fold scenarioList name with
  | none =>
    rw [getScenarioParam, hfind] at hp
    cases hp
    rw [algoRows_nil "" used .empty]
    rfl
  | some i =>
    dsimp only
    have hrunUsed : (liftRuntime (getParamInContent content)).run a = .ok used a := by
      rw [hused]
      rfl
    rw [run_bind_ok hrunUsed]

/-- A line with the value of its parameter, where the list has it, and otherwise as it was. -/
structure Shown (l : List Param) (row : Row) (line shown : String) : Prop where
  plain : ¬ contains line "getParams(" → shown = line
  declared : ∀ a n b, Calls line a n b → Named l n →
    ∃ v, row.lookup n = some v ∧ shown = fill line n v
  undeclared : ∀ a n b, Calls line a n b → ¬ Named l n → shown = line

variable (fold mapper scenarioList caseName content) in
/-- From any state of the algorithms the text is converted: there is a script for each row of the
scenario, and it shows the row. -/
def Converts (l : List Param) : Prop :=
  ∀ (d : String) (a : AlgoMap), ∃ f a',
    (fillScenario fold mapper scenarioList caseName (d, content)).run a = .ok f a' ∧
      f.scripts.length = (f.paramMap.map fun rows => rows.keys.length).getD 0 ∧
      ∀ rows ∈ f.paramMap, ∀ (i : ℕ) (script : String × String), f.scripts[i]? = some script →
        ∃ row, rows.lookup i = some row ∧ ∃ lines,
          List.Forall₂ (Shown l row) (getLines content) lines ∧
            script.2 = String.join (lines.map (· ++ "\n"))

/-- Every parameter of the text that the list declares has a value, and there is no row, or every
name of the text is cut out whole and declared. -/
def Convertible (content : String) (p : ScenarioParam) : Prop :=
  ∃ used, getParamInContent content = .ok used ∧
    MDataAlgoMag.Readable (MGenData.algorithm p.algo) ⟨p.valueList, used, false⟩ ∧
      (¬ MDataAlgoDiscards.Fruitful p.valueList used ∨
        ∀ line ∈ getLines content, ∀ a n b form, WellFormed line a n b form →
          form.Whole b ∧ Named p.valueList n)

/-- A row that binds every name of a well-formed text is shown. -/
theorem shown_of_convertRow {l : List Param} {row : Row} {script : String × String}
    (hformed : WellFormedText content)
    (hdeclared : ∀ line ∈ getLines content, ∀ a n b form, WellFormed line a n b form →
      form.Whole b ∧ Named l n)
    (hrow : ∀ line ∈ getLines content, ∀ m, CutOut line m → m ∈ row)
    (hscript : convertRow content (some row) = .ok script) :
    ∃ lines, List.Forall₂ (Shown l row) (getLines content) lines ∧
      script.2 = String.join (lines.map (· ++ "\n")) := by
  obtain ⟨dataPath, -, rfl⟩ := convertRow_ok hscript
  refine ⟨(getLines content).map fun line => fillUse (valueIn (some row)) line (convertUse line),
    ?_, ?_⟩
  · rw [List.forall₂_map_right_iff, List.forall₂_same]
    intro line hline
    have hcall {a n b : String} (h : Calls line a n b) : Named l n ∧ ∃ v, row.lookup n = some v ∧
        fillUse (valueIn (some row)) line (convertUse line) = fill line n v := by
      obtain ⟨a', n', b', form, hwf⟩ := hformed line hline h.contains_call
      cases h.name_unique hwf.calls
      obtain ⟨hwhole, hnamed⟩ := hdeclared line hline a' n b' form hwf
      have hcut := hwf.taken_iff.mpr hwhole
      obtain ⟨v, hv⟩ := Option.isSome_iff_exists.mp
        (AList.lookup_isSome.mpr (hrow line hline n hcut))
      obtain ⟨flag, huse⟩ := convertUse_of_cutOut hcut
      refine ⟨hnamed, v, hv, ?_⟩
      rw [huse, fillUse]
      have hvalue : valueIn (some row) n = some v := hv
      rw [hvalue]
    refine ⟨fun hplain => ?_, fun a n b h _ => ?_, fun a n b h hnot => ?_⟩
    · rw [convertUse_of_plain hplain]
      rfl
    · exact (hcall h).2
    · exact absurd (hcall h).1 hnot
  · rw [List.map_map]
    rfl

/-- Where every name of a well-formed text is cut out whole and declared, the rows bind them. -/
theorem bound_of_declared {algo : MDataAlgoName} {l : List Param} {m m' : MDataAlgo}
    {rows : HashMap ℕ Row} (hformed : WellFormedText content)
    (hdeclared : ∀ line ∈ getLines content, ∀ a n b form, WellFormed line a n b form →
      form.Whole b ∧ Named l n)
    (hcollect : ∀ line ∈ getLines content, ∀ m, CutOut line m → m ∈ used.elems)
    (hrun : (MDataAlgoMag.genData algo ⟨l, used, false⟩).run m = .ok (some rows) m') {i : ℕ}
    {row : Row} (hrow : rows.lookup i = some row) :
    ∀ line ∈ getLines content, ∀ m, CutOut line m → m ∈ row := by
  intro line hline k hk
  obtain ⟨a, n, b, form, hwf⟩ := hformed line hline hk.contains_call
  obtain ⟨hwhole, hnamed⟩ := hdeclared line hline a n b form hwf
  cases hk.unique (hwf.taken_iff.mpr hwhole)
  exact MDataAlgoMag.mem_row_of_run hrun hrow ⟨hcollect line hline k hk, hnamed⟩

/-- Without names there are no rows. -/
theorem not_fruitful_empty (l : List Param) : ¬ MDataAlgoDiscards.Fruitful l .empty := by
  rintro ⟨hne, -⟩
  obtain ⟨p, hp⟩ := List.exists_mem_of_ne_nil _ hne
  obtain ⟨n, hn⟩ := exists_name_of_inSet (List.mem_filter.mp hp).2
  have hs := (List.mem_filter.mp hp).2
  rw [inSet, hn] at hs
  cases hs

/-- The scripts for the rows of a call. -/
theorem exists_scripts {algo : MDataAlgoName} {l : List Param} {m m' : MDataAlgo}
    {rows : HashMap ℕ Row} (hformed : WellFormedText content)
    (hcollect : isParamSet content = true → ∀ line ∈ getLines content, ∀ m, CutOut line m →
      m ∈ used.elems)
    (hnone : ¬ isParamSet content = true → used = .empty)
    (hrun : (MDataAlgoMag.genData algo ⟨l, used, false⟩).run m = .ok (some rows) m')
    (hcond : ¬ MDataAlgoDiscards.Fruitful l used ∨ ∀ line ∈ getLines content, ∀ a n b form,
      WellFormed line a n b form → form.Whole b ∧ Named l n) :
    ∃ scripts, convertRows content (some rows) = .ok scripts ∧
      scripts.length = rows.keys.length ∧ ∀ (i : ℕ) (script : String × String),
        scripts[i]? = some script → ∃ row, rows.lookup i = some row ∧ ∃ lines,
          List.Forall₂ (Shown l row) (getLines content) lines ∧
            script.2 = String.join (lines.map (· ++ "\n")) := by
  have hfruit := MDataAlgoMag.fruitful_iff_of_run hrun
  rw [convertRows]
  split
  · rename_i hset
    have hdense : Dense rows := by
      rcases MDataAlgoMag.of_run_genData hrun with ⟨-, hr⟩ | ⟨-, r, hr, hdense⟩
      · cases hr
      · cases hr
        exact hdense
    -- a row that is taken is there, and the names are declared
    have hall (i : ℕ) (hi : i < rows.keys.length) : ∃ row, rows.lookup i = some row ∧
        (∀ line ∈ getLines content, ∀ a n b form, WellFormed line a n b form →
          form.Whole b ∧ Named l n) := by
      obtain ⟨row, hrow⟩ := Option.isSome_iff_exists.mp (AList.lookup_isSome.mpr ((hdense i).mpr hi))
      exact ⟨row, hrow, hcond.resolve_left fun h => h (hfruit.mp (Nat.zero_lt_of_lt hi))⟩
    obtain ⟨scripts, hscripts⟩ := (exists_mapM_eq_ok (f := fun i => convertRow content (rows.lookup i))
      (l := List.range rows.keys.length)).mpr fun i hi => by
        obtain ⟨row, hrow, hdeclared⟩ := hall i (List.mem_range.mp hi)
        rw [hrow]
        exact (convertRow_iff hformed.readable row).mpr
          (bound_of_declared hformed hdeclared (hcollect hset) hrun hrow)
    have hrows := mapM_eq_ok.mp hscripts
    have hlen := hrows.length_eq
    rw [List.length_range] at hlen
    refine ⟨scripts, hscripts, hlen.symm, fun i script hscript => ?_⟩
    obtain ⟨hi, rfl⟩ := List.getElem?_eq_some_iff.mp hscript
    have hi' : i < (List.range rows.keys.length).length := by
      rw [List.length_range, hlen]
      exact hi
    have hconvert := (List.forall₂_iff_get.mp hrows).2 i hi' hi
    rw [List.get_eq_getElem, List.get_eq_getElem, List.getElem_range] at hconvert
    rw [List.length_range] at hi'
    obtain ⟨row, hrow, hdeclared⟩ := hall i hi'
    rw [hrow] at hconvert
    exact ⟨row, hrow, shown_of_convertRow hformed hdeclared
      (bound_of_declared hformed hdeclared (hcollect hset) hrun hrow) hconvert⟩
  · rename_i hset
    have hzero : rows.keys.length = 0 := by
      refine Nat.eq_zero_of_not_pos fun hpos => ?_
      rw [hnone hset] at hfruit
      exact not_fruitful_empty l (hfruit.mp hpos)
    refine ⟨[], rfl, hzero.symm, fun i script hscript => ?_⟩
    cases hscript

theorem readable_nil (algo : MDataAlgoName) (s : HashSet String) :
    MDataAlgoMag.Readable algo ⟨[], s, false⟩ := by
  cases algo with
  | discards => exact trivial
  | align =>
    rintro - q hq
    cases hq

/-- Where the rows of a fresh object are filled in, the names that are cut out are declared. -/
theorem declared_of_convertRows {algo : MDataAlgoName} {l : List Param} {m' : MDataAlgo}
    {r : Option (HashMap ℕ Row)} {scripts : List (String × String)} (hformed : WellFormedText content)
    (hnone : ¬ isParamSet content = true → used = .empty)
    (hfruit : MDataAlgoDiscards.Fruitful l used)
    (hrun : (MDataAlgoMag.genData algo ⟨l, used, false⟩).run .new = .ok r m')
    (hscripts : convertRows content r = .ok scripts) :
    ∀ line ∈ getLines content, ∀ m, CutOut line m → Named l m := by
  have hset : isParamSet content = true := by
    by_contra hset
    rw [hnone hset] at hfruit
    exact not_fruitful_empty l hfruit
  rcases MDataAlgoMag.of_run_genData hrun with ⟨hnil, -⟩ | ⟨-, rows, rfl, hdense⟩
  · have hnil : l = [] := hnil
    subst hnil
    exact absurd rfl hfruit.1
  · have hpos := (MDataAlgoMag.fruitful_iff_of_run hrun).mpr hfruit
    obtain ⟨row, hrow⟩ := Option.isSome_iff_exists.mp (AList.lookup_isSome.mpr ((hdense 0).mpr hpos))
    rw [convertRows, if_pos hset] at hscripts
    obtain ⟨script, hscript⟩ := exists_mapM_eq_ok.mp ⟨scripts, hscripts⟩ 0 (List.mem_range.mpr hpos)
    rw [hrow] at hscript
    intro line hline k hk
    have hbound := (convertRow_iff hformed.readable row).mp ⟨script, hscript⟩ line hline k hk
    exact (MDataAlgoMag.shared_of_mem_row hrun hrow hbound).2

/-- **When a text is converted.**  For a text whose calls are well formed and a scenario whose
parameters are read, the condition is enough; where no declared name has a bracket, it is also
needed. -/
theorem converts_iff (hname : scenarioName caseName = .ok name)
    (hp : getScenarioParam mapper fold .empty scenarioList name = .ok p)
    (hformed : WellFormedText content) :
    (Convertible content p → Converts fold mapper scenarioList caseName content p.valueList) ∧
      ((∀ n, Named p.valueList n → ')' ∉ n.toList) →
        Converts fold mapper scenarioList caseName content p.valueList → Convertible content p) := by
  obtain ⟨used, hused, hcollect, hnone⟩ := exists_getParamInContent hformed.readable
  have hscenario := run_scenarioRows hname hp hused
  constructor
  · rintro ⟨used', hused', hreadable, hcond⟩ d a
    cases hused.symm.trans hused'
    obtain ⟨r, m, hrun⟩ := MDataAlgoMag.returns_of_readable hreadable (a (MGenData.algorithm p.algo))
    have hrows := (hscenario a).trans (run_algoRows_ok hrun)
    have hfill {scripts : List (String × String)} (h : convertRows content r = .ok scripts) :
        (fillScenario fold mapper scenarioList caseName (d, content)).run a =
          .ok ⟨d, content, r, scripts⟩ (Function.update a (MGenData.algorithm p.algo) m) := by
      rw [fillScenario, run_bind_ok hrows, h]
      rfl
    cases r with
    | none =>
      refine ⟨_, _, hfill rfl, rfl, ?_⟩
      rintro rows ⟨⟩
    | some rows =>
      obtain ⟨scripts, hscripts, hlen, hshown⟩ := exists_scripts hformed hcollect hnone hrun hcond
      refine ⟨_, _, hfill hscripts, hlen, ?_⟩
      rintro _ ⟨⟩
      exact hshown
  · intro hnames hconverts
    obtain ⟨f, a', hrun, -, -⟩ := hconverts "" fun _ => .new
    obtain ⟨r, a₁, hrows, hrun⟩ := of_run_bind hrun
    obtain ⟨scripts, a₂, hscripts, -⟩ := of_run_bind hrun
    obtain ⟨hscripts, -⟩ := of_run_liftRuntime hscripts
    rw [hscenario] at hrows
    obtain ⟨m, hgen⟩ := of_run_algoRows hrows
    refine ⟨used, hused, ?_, ?_⟩
    · by_contra hnot
      by_cases hnil : p.valueList = []
      · refine hnot ?_
        rw [hnil]
        exact readable_nil _ used
      · exact (MDataAlgoMag.throws_of_not_readable hnil hnot).not_ok hgen
    · by_cases hfruit : MDataAlgoDiscards.Fruitful p.valueList used
      · refine .inr fun line hline a n b form hwf => ?_
        have hall := declared_of_convertRows hformed hnone hfruit hgen hscripts
        obtain ⟨k, hk, hname⟩ := hwf.exists_taken
        have hnamed := hall line hline k hk
        cases hname.resolve_right (hnames k hnamed)
        exact ⟨hwf.taken_iff.mp hk, hnamed⟩
      · exact .inl hfruit

end Call

/-! ### A scenario with one parameter -/

/-- A library that reads every list as that of the parameter `a`. -/
def mapperA : MJsonHandler.ObjectMapper where
  readList _ := .ok (some [.object fun key =>
    if key = "name" then .text "a" else if key = "value" then .text "[1,2]" else .null])
  findText _ _ := .ok none

/-- A scenario with one parameter. -/
def scenarioA : List Scenario := [⟨"login", "{}", "[]"⟩]

/-- Its parameter with two values. -/
def paramA : ScenarioParam := ⟨"align", [⟨some "a", some "string", some "[1,2]"⟩], .empty⟩

/-- The parameter is found. -/
theorem getScenarioParam_mapperA :
    getScenarioParam mapperA Char.toLower .empty scenarioA "login" = .ok paramA := by
  rfl

/-- Lines that set `x` to `getParams(n)`. -/
def setText (names : List String) : String :=
  String.join (names.map fun n => "x.setValue(getParams(" ++ n ++ "));\n")

/-- A line that sets a value is well formed. -/
theorem wellFormed_setText (n : String)
    (htrim : trim ("x.setValue(getParams(" ++ n ++ "));") =
      "x.setValue(" ++ ("getParams(" ++ (n ++ (")" ++ ");"))))
    (hn : '(' ∉ n.toList ∧ ')' ∉ n.toList) :
    WellFormed ("x.setValue(getParams(" ++ n ++ "));") "x.setValue(" n ");" .setValue :=
  ⟨⟨htrim, by decide +kernel, by decide +kernel, hn⟩, ⟨by decide +kernel, by decide +kernel⟩,
    "x.", "", by decide +kernel, by simp⟩

/-- The texts on one parameter and on two are well formed. -/
theorem wellFormed_setText_ab : WellFormedText (setText ["a"]) ∧ WellFormedText (setText ["a", "b"]) := by
  have ha : ∃ a n b form, WellFormed "x.setValue(getParams(a));" a n b form :=
    ⟨_, _, _, _, wellFormed_setText "a" (by decide +kernel) (by decide)⟩
  have hb : ∃ a n b form, WellFormed "x.setValue(getParams(b));" a n b form :=
    ⟨_, _, _, _, wellFormed_setText "b" (by decide +kernel) (by decide)⟩
  have hlines : getLines (setText ["a"]) = ["x.setValue(getParams(a));"] ∧ getLines (setText ["a", "b"]) =
      ["x.setValue(getParams(a));", "x.setValue(getParams(b));"] := by decide +kernel
  constructor
  · rw [WellFormedText, hlines.1]
    exact List.forall_mem_singleton.mpr fun _ => ha
  · rw [WellFormedText, hlines.2]
    exact List.forall_mem_cons.mpr ⟨fun _ => ha, List.forall_mem_singleton.mpr fun _ => hb⟩

theorem converts_iff_a :
    (Convertible (setText ["a"]) paramA →
      Converts Char.toLower mapperA scenarioA "login_2" (setText ["a"]) paramA.valueList) ∧
      ((∀ n, Named paramA.valueList n → ')' ∉ n.toList) →
        Converts Char.toLower mapperA scenarioA "login_2" (setText ["a"]) paramA.valueList →
          Convertible (setText ["a"]) paramA) :=
  converts_iff (show scenarioName "login_2" = .ok "login" by decide) getScenarioParam_mapperA
    wellFormed_setText_ab.1

/-- What filling the rows of the scenario into a text throws. -/
def thrownByFill (content : String) : Option Exn :=
  match (fillScenario Char.toLower mapperA scenarioA "login_2" ("", content)).run fun _ => .new with
  | .error (.runtime e) _ => some e
  | _ => none

/-- A text that uses `a` and `b`, of which the scenario declares `a`, is not converted. -/
theorem not_converts_undeclared : WellFormedText (setText ["a", "b"]) ∧
    scenarioName "login_2" = .ok "login" ∧
    getScenarioParam mapperA Char.toLower .empty scenarioA "login" = .ok paramA ∧
    thrownByFill (setText ["a", "b"]) = some .nullPointer ∧
      ¬ Converts Char.toLower mapperA scenarioA "login_2" (setText ["a", "b"]) paramA.valueList := by
  have hthrown : thrownByFill (setText ["a", "b"]) = some .nullPointer := by decide +kernel
  refine ⟨wellFormed_setText_ab.2, by decide, getScenarioParam_mapperA, hthrown, ?_⟩
  generalize setText ["a", "b"] = content at hthrown ⊢
  intro hconverts
  obtain ⟨f, a', hrun, -⟩ := hconverts "" fun _ => .new
  rw [thrownByFill, hrun] at hthrown
  cases hthrown

end MQTestView

end MBT
