import MBT.Data.MParseParam

/-!
# Data — MGenData

`MGenData.genData`: the rows for the parameters that a path uses, from the list of its scenario.

* `returns_of_readable`, `throws_of_not_readable`: when a data algorithm returns.
* `keys_of_run_genData`: how many rows a call gives does not depend on the calls before it.
* `run_genData`: what a call gives and leaves, and when it returns.
-/

namespace MBT
open Exec Text

namespace MDataAlgo

/-- The two brackets of a list are two characters. -/
theorem getSubList_ok {v : String} (h : isList v = true) : ∃ vs, getSubList v = .ok vs := by
  obtain ⟨hstart, hend⟩ := Bool.and_eq_true_iff.mp h
  obtain ⟨r, hr⟩ := List.isPrefixOf_iff_prefix.mp hstart
  obtain ⟨q, hq⟩ := List.isSuffixOf_iff_suffix.mp hend
  have hlen : 2 ≤ (trim v).length := by
    rw [← String.length_toList, ← hr]
    cases r with
    | nil =>
      rw [← hr, List.append_nil] at hq
      have hlast := congrArg List.getLast? hq
      rw [List.getLast?_append] at hlast
      cases hlast
    | cons c r =>
      rw [List.length_append, List.length_cons]
      exact Nat.add_le_add (Nat.le_refl 1) (Nat.succ_le_succ (Nat.zero_le _))
  have hbounds : (0 : ℤ) ≤ 1 ∧ (1 : ℤ) ≤ ((trim v).length : ℤ) - 1 ∧
      ((trim v).length : ℤ) - 1 ≤ (trim v).length := by omega
  rw [getSubList, slice, if_pos hbounds]
  exact ⟨_, rfl⟩

/-- A value list is read exactly when there is a value. -/
theorem valueList_ok {p : Param} {v : String} (h : p.value = some v) :
    ∃ vs, valueList p = .ok vs := by
  rw [valueList, h, Prog.nonNull, ok_bind]
  split
  · rename_i hlist
    exact getSubList_ok hlist
  · exact ⟨[v], rfl⟩

/-- A parameter without a value cannot be read. -/
theorem valueList_error {p : Param} (h : p.value = none) : valueList p = .error .nullPointer := by
  rw [valueList, h]
  rfl

/-- The value lists are read one after another, up to one without values. -/
def Read : List Param → Prop
  | [] => True
  | p :: ps => ∃ vs, valueList p = .ok vs ∧ (vs = [] ∨ Read ps)

/-- A parameter in the set has a name. -/
theorem exists_name_of_inSet {s : HashSet String} {p : Param} (h : inSet s p = true) :
    ∃ n, p.name = some n := by
  rw [inSet] at h
  cases hn : p.name with
  | none => rw [hn] at h; cases h
  | some n => exact ⟨n, rfl⟩

/-- `putData` returns for a parameter with a name. -/
theorem returns_putData {p : Param} {n : String} (hn : p.name = some n) (value : String) :
    Prog.Returns (putData p value) := fun m => ⟨_, _, run_putData hn value m⟩

end MDataAlgo

namespace MDataAlgoDiscards
open MDataAlgo

/-- A search whose lists are read returns. -/
theorem returns_of_read {ps : List Param} (hne : ps ≠ []) (hnames : ∀ p ∈ ps, ∃ n, p.name = some n)
    (h : Read ps) : Prog.Returns (getAlgoDiscardsResult ps) := by
  induction ps with
  | nil => exact absurd rfl hne
  | cons p ps ih =>
    obtain ⟨n, hn⟩ := hnames p List.mem_cons_self
    obtain ⟨vs, hvs, hrest⟩ := h
    rw [getAlgoDiscardsResult_cons, hvs, Prog.lift_ok, pure_bind]
    refine .forM fun v hv => (returns_putData hn v).bind fun _ => ?_
    split
    · exact .modify _
    · rename_i hps
      refine ih hps (fun q hq => hnames q (List.mem_cons_of_mem _ hq)) (hrest.resolve_left ?_)
      rintro rfl
      cases hv

/-- A search whose lists cannot be read throws. -/
theorem throws_of_not_read {ps : List Param} (hnames : ∀ p ∈ ps, ∃ n, p.name = some n)
    (h : ¬ Read ps) : Prog.Throws (getAlgoDiscardsResult ps) := by
  induction ps with
  | nil => exact absurd trivial h
  | cons p ps ih =>
    obtain ⟨n, hn⟩ := hnames p List.mem_cons_self
    rw [getAlgoDiscardsResult_cons]
    cases hvs : valueList p with
    | error e => exact fun m => ⟨e, m, rfl⟩
    | ok vs =>
      rw [Prog.lift_ok, pure_bind]
      cases vs with
      | nil => exact absurd ⟨[], hvs, .inl rfl⟩ h
      | cons v vs =>
        rw [List.forM_cons]
        refine Prog.Throws.bind_left (.bind (returns_putData hn v) fun _ => ?_) _
        have hread : ¬ Read ps := fun hps => h ⟨_, hvs, .inr hps⟩
        rw [if_neg]
        · exact ih (fun q hq => hnames q (List.mem_cons_of_mem _ hq)) hread
        · rintro rfl
          exact hread trivial

/-- From objects with the same keys of rows, the program leaves the same keys of rows. -/
def KeepsKeys (x : Prog MDataAlgo Unit) : Prop :=
  ∀ m t m' t', m.datasMap.keys = t.datasMap.keys → x.run m = .ok ⟨⟩ m' → x.run t = .ok ⟨⟩ t' →
    m'.datasMap.keys = t'.datasMap.keys

/-- A loop keeps the keys of rows that its turns keep. -/
theorem keepsKeys_forM {f : String → Prog MDataAlgo Unit} {values : List String}
    (h : ∀ v ∈ values, KeepsKeys (f v)) : KeepsKeys (forM values f) := by
  induction values with
  | nil =>
    intro m t m' t' hkeys hm ht
    cases hm
    cases ht
    exact hkeys
  | cons v values ih =>
    intro m t m' t' hkeys hm ht
    rw [List.forM_cons] at hm ht
    obtain ⟨⟨⟩, m₁, hm₁, hm⟩ := Prog.of_run_bind_ok hm
    obtain ⟨⟨⟩, t₁, ht₁, ht⟩ := Prog.of_run_bind_ok ht
    have hkeys₁ := h v List.mem_cons_self m t m₁ t₁ hkeys hm₁ ht₁
    exact ih (fun w hw => h w (List.mem_cons_of_mem v hw)) m₁ t₁ m' t' hkeys₁ hm ht

/-- How many rows a search appends does not depend on the object. -/
theorem keepsKeys_getAlgoDiscardsResult (ps : List Param) :
    KeepsKeys (getAlgoDiscardsResult ps) := by
  induction ps with
  | nil => exact fun m t m' t' _ h _ => nomatch h
  | cons p ps ih =>
    have hput (v : String) : KeepsKeys (putValue p ps v) := by
      intro m t m' t' hkeys hm ht
      rw [putValue] at hm ht
      obtain ⟨⟨⟩, m₁, hm₁, hm⟩ := Prog.of_run_bind_ok hm
      obtain ⟨⟨⟩, t₁, ht₁, ht⟩ := Prog.of_run_bind_ok ht
      have hdatas {m m₁ : MDataAlgo} (h : (putData p v).run m = .ok ⟨⟩ m₁) :
          m₁.datasMap = m.datasMap := by
        obtain ⟨n, -, h⟩ := Prog.of_run_lift_bind_ok h
        cases h
        rfl
      have hkeys₁ : m₁.datasMap.keys = t₁.datasMap.keys := by rw [hdatas hm₁, hdatas ht₁, hkeys]
      split at hm
      · rename_i hnil
        rw [if_pos hnil] at ht
        cases hm
        cases ht
        change (m₁.datasMap.insert _ _).keys = (t₁.datasMap.insert _ _).keys
        rw [AList.keys_insert, AList.keys_insert, hkeys₁]
      · rename_i hne
        rw [if_neg hne] at ht
        exact ih m₁ t₁ m' t' hkeys₁ hm ht
    intro m t m' t' hkeys hm ht
    rw [getAlgoDiscardsResult_cons] at hm ht
    obtain ⟨values, hvalues, hm⟩ := Prog.of_run_lift_bind_ok hm
    obtain ⟨values', hvalues', ht⟩ := Prog.of_run_lift_bind_ok ht
    cases hvalues.symm.trans hvalues'
    exact keepsKeys_forM (fun v _ => hput v) m t m' t' hkeys hm ht

end MDataAlgoDiscards

namespace MDataAlgoAlign
open MDataAlgo

variable {s : HashSet String}

/-- The number of rows is at most the number of values of each parameter that is used. -/
theorem foldlM_minNum {ps : List Param} {b k : ℕ} (h : ps.foldlM (minNum s) b = .ok k) :
    k ≤ b ∧ ∀ p ∈ ps, inSet s p = true → ∃ vs, valueList p = .ok vs ∧ k ≤ vs.length := by
  induction ps generalizing b with
  | nil =>
    cases h
    exact ⟨le_rfl, List.forall_mem_nil _⟩
  | cons p ps ih =>
    rw [List.foldlM_cons] at h
    obtain ⟨c, hc, h⟩ := bind_eq_ok.mp h
    obtain ⟨hkc, hps⟩ := ih h
    rw [minNum] at hc
    split at hc
    · obtain ⟨vs, hvs, hc⟩ := bind_eq_ok.mp hc
      have hle : c ≤ b ∧ c ≤ vs.length := by
        split at hc <;> (cases hc; omega)
      refine ⟨hkc.trans hle.1, List.forall_mem_cons.mpr ⟨fun _ => ⟨vs, hvs, hkc.trans hle.2⟩, hps⟩⟩
    · rename_i hs
      cases hc
      exact ⟨hkc, List.forall_mem_cons.mpr ⟨fun h => absurd h hs, hps⟩⟩

/-- The least number of values is found where all lists are read. -/
theorem exists_foldlM_minNum {ps : List Param}
    (h : ∀ p ∈ ps, inSet s p = true → ∃ vs, valueList p = .ok vs) (b : ℕ) :
    ∃ k, ps.foldlM (minNum s) b = .ok k := by
  induction ps generalizing b with
  | nil => exact ⟨b, rfl⟩
  | cons p ps ih =>
    have ih := ih fun q hq => h q (List.mem_cons_of_mem _ hq)
    rw [List.foldlM_cons, minNum]
    split
    · rename_i hs
      obtain ⟨vs, hvs⟩ := h p List.mem_cons_self hs
      rw [hvs, ok_bind]
      exact ih _
    · exact ih b

/-- A turn returns where the value at its index can be read. -/
theorem returns_putAt {j : ℕ} {p : Param}
    (h : inSet s p = true → ∃ vs, valueList p = .ok vs ∧ j < vs.length) :
    Prog.Returns (putAt s j p) := by
  rw [putAt]
  split
  · rename_i hs
    obtain ⟨n, hn⟩ := exists_name_of_inSet hs
    obtain ⟨vs, hvs, hj⟩ := h hs
    rw [hvs, Prog.lift_ok, pure_bind, ArrayList.get_ok (List.getElem?_eq_getElem hj), Prog.lift_ok,
      pure_bind]
    exact (returns_putData hn _).bind fun _ => .modify _
  · exact .pure _

end MDataAlgoAlign

namespace MDataAlgoMag
open MDataAlgo

/-- The values of the parameters that a call uses are read. -/
def Readable (algo : MDataAlgoName) (c : Call) : Prop :=
  match algo with
  | .discards => Read (c.paramList.filter (inSet c.paramSet))
  | .align => c.sameSet = false → ∀ p ∈ c.paramList, inSet c.paramSet p = true → p.value ≠ none

/-- A call whose parameters can be read returns. -/
theorem returns_of_readable {algo : MDataAlgoName} {c : Call} (h : Readable algo c) :
    Prog.Returns (genData algo c) := by
  cases algo with
  | discards =>
    rw [genData, MDataAlgoDiscards.genData]
    split
    · exact .pure _
    · refine .bind (.modify _) fun _ => ?_
      dsimp only
      split
      · rename_i hne
        refine .bind ?_ fun _ => .get_bind fun m => .pure _
        refine MDataAlgoDiscards.returns_of_read hne ?_ h
        exact MDataAlgoDiscards.exists_name_of_mem_filter
      · exact .get_bind fun m => .pure _
  | align =>
    rw [genData, MDataAlgoAlign.genData]
    split
    · exact .pure _
    · dsimp only
      refine .bind (.modify _) fun _ => ?_
      have hvs : ∀ p ∈ c.paramList, inSet (if c.sameSet then .empty else c.paramSet) p = true →
          ∃ vs, valueList p = .ok vs := by
        intro p hp hs
        split at hs
        · obtain ⟨n, hn⟩ := exists_name_of_inSet hs
          rw [inSet, hn] at hs
          cases hs
        · rename_i hsame
          obtain ⟨v, hv⟩ := Option.ne_none_iff_exists'.mp
            (h (Bool.eq_false_iff.mpr hsame) p hp hs)
          exact valueList_ok hv
      obtain ⟨k, hk⟩ := MDataAlgoAlign.exists_foldlM_minNum hvs 10000
      rw [hk, Prog.lift_ok, pure_bind]
      refine .bind (.forM fun j hj => .forM fun p hp => MDataAlgoAlign.returns_putAt fun hs => ?_)
        fun _ => .get_bind fun m => .pure _
      obtain ⟨vs, hvs, hle⟩ := (MDataAlgoAlign.foldlM_minNum hk).2 p hp hs
      exact ⟨vs, hvs, (List.mem_range.mp hj).trans_le hle⟩

/-- Any other call throws, unless its list is empty. -/
theorem throws_of_not_readable {algo : MDataAlgoName} {c : Call} (hne : c.paramList ≠ [])
    (h : ¬ Readable algo c) : Prog.Throws (genData algo c) := by
  cases algo with
  | discards =>
    rw [genData, MDataAlgoDiscards.genData, if_neg hne]
    refine .bind (.modify _) fun _ => ?_
    dsimp only
    rw [if_pos]
    · exact Prog.Throws.bind_left
        (MDataAlgoDiscards.throws_of_not_read MDataAlgoDiscards.exists_name_of_mem_filter h) _
    · intro hnil
      rw [Readable, hnil] at h
      exact h trivial
  | align =>
    rw [genData, MDataAlgoAlign.genData, if_neg hne]
    dsimp only
    refine .bind (.modify _) fun _ => ?_
    cases hk : c.paramList.foldlM (MDataAlgoAlign.minNum (if c.sameSet then .empty else c.paramSet))
        10000 with
    | error e => exact fun m => ⟨e, m, rfl⟩
    | ok k =>
      refine absurd (fun hsame p hp hs hnone => ?_) h
      rw [hsame, if_neg Bool.false_ne_true] at hk
      obtain ⟨vs, hvs, -⟩ := (MDataAlgoAlign.foldlM_minNum hk).2 p hp hs
      rw [valueList_error hnone] at hvs
      cases hvs

/-- A call that returns gives rows exactly when its list is not empty; their keys count them. -/
theorem of_run_genData {algo : MDataAlgoName} {c : Call} {m m' : MDataAlgo}
    {r : Option (HashMap ℕ Row)} (h : (genData algo c).run m = .ok r m') :
    (c.paramList = [] ∧ r = none) ∨ (c.paramList ≠ [] ∧ ∃ rows, r = some rows ∧ Dense rows) := by
  by_cases hnil : c.paramList = []
  · refine .inl ⟨hnil, ?_⟩
    cases algo with
    | discards => rw [genData, MDataAlgoDiscards.genData, if_pos hnil] at h; cases h; rfl
    | align => rw [genData, MDataAlgoAlign.genData, if_pos hnil] at h; cases h; rfl
  · have hrun := h
    have hsome : ∃ rows, r = some rows := by
      cases algo with
      | discards =>
        rw [genData, MDataAlgoDiscards.genData, if_neg hnil] at h
        obtain ⟨⟨⟩, m₁, -, h⟩ := Prog.of_run_bind_ok h
        dsimp only at h
        split at h
        · obtain ⟨⟨⟩, m₂, -, h⟩ := Prog.of_run_bind_ok h
          cases h
          exact ⟨_, rfl⟩
        · cases h
          exact ⟨_, rfl⟩
      | align =>
        rw [genData, MDataAlgoAlign.genData, if_neg hnil] at h
        dsimp only at h
        obtain ⟨⟨⟩, m₁, -, h⟩ := Prog.of_run_bind_ok h
        obtain ⟨k, -, h⟩ := Prog.of_run_lift_bind_ok h
        obtain ⟨⟨⟩, m₂, -, h⟩ := Prog.of_run_bind_ok h
        cases h
        exact ⟨_, rfl⟩
    obtain ⟨rows, rfl⟩ := hsome
    refine .inr ⟨hnil, rows, rfl, ?_⟩
    cases algo with
    | discards => exact (MDataAlgoDiscards.genData_rows hrun).2.1
    | align => exact (MDataAlgoAlign.genData_rows hrun).2

/-- **The number of rows** of a call does not depend on the calls before it. -/
theorem keys_of_run_genData {algo : MDataAlgoName} {c : Call} {m t m' t' : MDataAlgo}
    {r q : Option (HashMap ℕ Row)} (hm : (genData algo c).run m = .ok r m')
    (ht : (genData algo c).run t = .ok q t') : r.map AList.keys = q.map AList.keys := by
  by_cases hnil : c.paramList = []
  · rcases of_run_genData hm with ⟨-, rfl⟩ | ⟨hne, -⟩
    · rcases of_run_genData ht with ⟨-, rfl⟩ | ⟨hne, -⟩
      · rfl
      · exact absurd hnil hne
    · exact absurd hnil hne
  · cases algo with
    | discards =>
      rw [genData, MDataAlgoDiscards.genData, if_neg hnil] at hm ht
      obtain ⟨⟨⟩, m₁, hm₁, hm⟩ := Prog.of_run_bind_ok hm
      obtain ⟨⟨⟩, t₁, ht₁, ht⟩ := Prog.of_run_bind_ok ht
      cases hm₁
      cases ht₁
      dsimp only at hm ht
      split at hm
      · rename_i hps
        rw [if_pos hps] at ht
        obtain ⟨⟨⟩, m₂, hm₂, hm⟩ := Prog.of_run_bind_ok hm
        obtain ⟨⟨⟩, t₂, ht₂, ht⟩ := Prog.of_run_bind_ok ht
        have hkeys : m₂.datasMap.keys = t₂.datasMap.keys := by
          refine MDataAlgoDiscards.keepsKeys_getAlgoDiscardsResult _ _ _ _ _ ?_ hm₂ ht₂
          rfl
        cases hm
        cases ht
        exact congrArg some hkeys
      · rename_i hps
        rw [if_neg hps] at ht
        cases hm
        cases ht
        rfl
    | align =>
      -- Here the fields are all set anew.
      rw [genData, MDataAlgoAlign.genData, if_neg hnil] at hm ht
      dsimp only at hm ht
      obtain ⟨⟨⟩, m₁, hm₁, hm⟩ := Prog.of_run_bind_ok hm
      obtain ⟨⟨⟩, t₁, ht₁, ht⟩ := Prog.of_run_bind_ok ht
      cases hm₁
      cases ht₁
      have heq := hm.symm.trans ht
      cases heq
      rfl

end MDataAlgoMag

namespace MGenData
open MJsonHandler MDataAlgo

/-- `isAlgoExisted` and `getAlgorithm`: a name that is not known counts as `align`. -/
def algorithm (algo : String) : MDataAlgoName :=
  if toLowerCase algo = "discards" then .discards else .align

/-- The list of the scenario; the algorithms treat `null` as they do an empty list. -/
def paramListOf (paramMap : HashMap String (List Param)) (scenario : String) : List Param :=
  (paramMap.lookup scenario).getD []

/-- A call of one of the objects. -/
def callAlgorithm (algo : MDataAlgoName) (c : MDataAlgoMag.Call) :
    Prog AlgoMap (Option (HashMap ℕ Row)) :=
  Prog.zoom (fun m => m algo) (fun d m => Function.update m algo d) (MDataAlgoMag.genData algo c)

/-- Without parameters the result is an empty map; a list that cannot be read is a `null` map whose
`get` throws. -/
def genData (mapper : ObjectMapper) (scenarios : List Scenario) (scenario algo : String)
    (paramSet : HashSet String) : Prog AlgoMap (Option (HashMap ℕ Row)) := do
  if paramSet.size = 0 then return some ∅
  let paramMap ← Prog.lift (Prog.nonNull (parseParam mapper scenarios))
  callAlgorithm (algorithm algo) ⟨paramListOf paramMap scenario, paramSet, false⟩

/-- The rows that the path needs can be generated: it uses no parameter, or the scenario's list is
read, is not empty and has a value for each parameter that is used. -/
def Declared (mapper : ObjectMapper) (scenarios : List Scenario) (scenario algo : String)
    (paramSet : HashSet String) : Prop :=
  paramSet.size = 0 ∨ ∃ paramMap, parseParam mapper scenarios = some paramMap ∧
    paramListOf paramMap scenario ≠ [] ∧
      MDataAlgoMag.Readable (algorithm algo) ⟨paramListOf paramMap scenario, paramSet, false⟩

variable {mapper : ObjectMapper} {scenarios : List Scenario} {scenario algo : String}
  {paramSet : HashSet String}

/-- A call returns rows exactly when the parameters are declared, and their keys count them. -/
theorem run_genData (m : AlgoMap) :
    (Declared mapper scenarios scenario algo paramSet ↔ ∃ rows m',
      (genData mapper scenarios scenario algo paramSet).run m = .ok (some rows) m') ∧
    ∀ rows m', (genData mapper scenarios scenario algo paramSet).run m = .ok (some rows) m' →
      Dense rows := by
  rw [genData]
  split
  · rename_i hsize
    refine ⟨iff_of_true (.inl hsize) ⟨_, _, rfl⟩, fun rows m' h => ?_⟩
    cases h
    exact dense_empty
  · rename_i hsize
    have hdense : ∀ paramMap rows m', (callAlgorithm (algorithm algo)
        ⟨paramListOf paramMap scenario, paramSet, false⟩).run m = .ok (some rows) m' →
          Dense rows ∧ paramListOf paramMap scenario ≠ [] := by
      intro paramMap rows m' h
      obtain ⟨d, hd, -⟩ := Prog.of_run_zoom_ok h
      rcases MDataAlgoMag.of_run_genData hd with ⟨-, hnone⟩ | ⟨hne, rows', hrows, hdense⟩
      · cases hnone
      · cases hrows
        exact ⟨hdense, hne⟩
    cases hmap : parseParam mapper scenarios with
    | none =>
      have hnot : ¬ Declared mapper scenarios scenario algo paramSet := by
        rintro (h | ⟨paramMap, h, -⟩)
        · exact hsize h
        · rw [hmap] at h; cases h
      exact ⟨iff_of_false hnot nofun, nofun⟩
    | some paramMap =>
      rw [Prog.nonNull, Prog.lift_ok, pure_bind]
      refine ⟨⟨?_, ?_⟩, fun rows m' h => (hdense paramMap rows m' h).1⟩
      · rintro (h | ⟨paramMap', hmap', hne, hread⟩)
        · exact absurd h hsize
        · rw [hmap] at hmap'
          cases hmap'
          obtain ⟨r, d, hd⟩ := MDataAlgoMag.returns_of_readable hread (m (algorithm algo))
          rcases MDataAlgoMag.of_run_genData hd with ⟨hnil, -⟩ | ⟨-, rows, rfl, -⟩
          · exact absurd hnil hne
          · exact ⟨rows, _, Prog.run_zoom_ok hd⟩
      · rintro ⟨rows, m', h⟩
        have hne := (hdense paramMap rows m' h).2
        refine .inr ⟨paramMap, hmap, hne, ?_⟩
        by_contra hread
        obtain ⟨d, hd, -⟩ := Prog.of_run_zoom_ok h
        exact (MDataAlgoMag.throws_of_not_readable hne hread).not_ok hd

end MGenData

end MBT
