import MBT.Data.MGenData
import MBT.Support.Choices

/-!
# Data — DataRows

Which rows the two data algorithms give on a fresh object, and in which order.

* `MDataAlgoDiscards.rows_of_run`: a search appends one row for each choice of values, the first
  parameter slowest.
* `MDataAlgoAlign.complete_of_run`: the row of a turn binds each name to the value at its index.
* `genData_choices`, `genData_turns`: the rows of a call.
* `rows_of_call`: what both have in common.
-/

namespace MBT
open Exec Text Choices

namespace MDataAlgo

/-- The row binds each parameter to the value that is chosen for it. -/
def Binds (ps : List Param) (choice : List String) (row : Row) : Prop :=
  ∀ p v, (p, v) ∈ ps.zip choice → ∀ n, p.name = some n → row.lookup n = some (valueOf p v)

/-- The value lists of the parameters. -/
def Lists (ps : List Param) (values : List (List String)) : Prop :=
  List.Forall₂ (fun p vs => valueList p = .ok vs) ps values

/-- Parameters that can be read have value lists. -/
theorem exists_lists {ps : List Param} (h : ∀ p ∈ ps, ∃ vs, valueList p = .ok vs) :
    ∃ values, Lists ps values := by
  induction ps with
  | nil => exact ⟨[], .nil⟩
  | cons p ps ih =>
    obtain ⟨vs, hvs⟩ := h p List.mem_cons_self
    obtain ⟨values, hvalues⟩ := ih fun q hq => h q (List.mem_cons_of_mem _ hq)
    exact ⟨vs :: values, .cons hvs hvalues⟩

/-- Each parameter has one of the lists. -/
theorem Lists.exists_of_mem {ps : List Param} {values : List (List String)} (h : Lists ps values)
    {p : Param} (hp : p ∈ ps) : ∃ vs ∈ values, valueList p = .ok vs := by
  induction h with
  | nil => cases hp
  | cons hvs _ ih =>
    rcases List.mem_cons.mp hp with rfl | hp
    · exact ⟨_, List.mem_cons_self, hvs⟩
    · obtain ⟨vs, hmem, hvs⟩ := ih hp
      exact ⟨vs, List.mem_cons_of_mem _ hmem, hvs⟩

/-- Each list is that of a parameter. -/
theorem Lists.exists_param {ps : List Param} {values : List (List String)} (h : Lists ps values)
    {vs : List String} (hvs : vs ∈ values) : ∃ p ∈ ps, valueList p = .ok vs := by
  induction h with
  | nil => cases hvs
  | cons hp _ ih =>
    rcases List.mem_cons.mp hvs with rfl | hvs
    · exact ⟨_, List.mem_cons_self, hp⟩
    · obtain ⟨p, hmem, hp⟩ := ih hvs
      exact ⟨p, List.mem_cons_of_mem _ hmem, hp⟩

/-- Parameters with value lists are read. -/
theorem read_of_lists {ps : List Param} {values : List (List String)} (h : Lists ps values) :
    Read ps := by
  induction h with
  | nil => exact trivial
  | cons hvs _ ih => exact ⟨_, hvs, .inr ih⟩

/-- The names of `ps` apart, the two rows bind the same values. -/
def Outside (ps : List Param) (r row : Row) : Prop := ∀ n, ¬ Named ps n → row.lookup n = r.lookup n

theorem named_cons {p : Param} {ps : List Param} {n : String} :
    Named (p :: ps) n ↔ p.name = some n ∨ Named ps n := by
  simp only [Named, List.exists_mem_cons_iff]

/-- Rows that agree outside the names in two steps agree outside them. -/
theorem Outside.trans {ps : List Param} {r₁ r₂ r₃ : Row} (h : Outside ps r₁ r₂)
    (h' : Outside ps r₂ r₃) : Outside ps r₁ r₃ := fun n hn => (h' n hn).trans (h n hn)

theorem Outside.cons {p : Param} {ps : List Param} {r row : Row} (h : Outside ps r row) :
    Outside (p :: ps) r row := fun n hn => h n fun hps => hn (named_cons.mpr (.inr hps))

/-- To bind the name of a parameter changes nothing outside it. -/
theorem outside_insert {p : Param} {ps : List Param} {n : String} (hn : p.name = some n) (v : String)
    (r : Row) : Outside (p :: ps) r (r.insert n v) := by
  intro k hk
  refine AList.lookup_insert_ne ?_
  rintro rfl
  exact hk (named_cons.mpr (.inl hn))

/-- Appending a row. -/
def push (rows : HashMap ℕ Row) (row : Row) : HashMap ℕ Row := rows.insert rows.keys.length row

/-- Rows that are appended continue the numbering. -/
theorem dense_foldl_push {rows : HashMap ℕ Row} (h : Dense rows) (added : List Row) :
    Dense (added.foldl push rows) ∧
      (added.foldl push rows).keys.length = rows.keys.length + added.length := by
  induction added generalizing rows with
  | nil => exact ⟨h, rfl⟩
  | cons row added ih =>
    obtain ⟨hdense, hlen⟩ := ih (h.insert_end row)
    refine ⟨hdense, ?_⟩
    rw [List.foldl_cons, push, hlen, h.length_insert_end, List.length_cons]
    omega

/-- The rows before are kept, and the rows that are appended are found by their position. -/
theorem lookup_foldl_push {rows : HashMap ℕ Row} (h : Dense rows) (added : List Row) :
    (∀ i < rows.keys.length, (added.foldl push rows).lookup i = rows.lookup i) ∧
      ∀ k, (added.foldl push rows).lookup (rows.keys.length + k) = added[k]? := by
  induction added generalizing rows with
  | nil =>
    refine ⟨fun _ _ => rfl, fun k => ?_⟩
    refine AList.lookup_eq_none.mpr fun hmem => ?_
    exact absurd ((h _).mp hmem) (Nat.not_lt.mpr (Nat.le_add_right _ k))
  | cons row added ih =>
    obtain ⟨hold, hnew⟩ := ih (h.insert_end row)
    have hlen := h.length_insert_end row
    refine ⟨fun i hi => ?_, fun k => ?_⟩
    · rw [List.foldl_cons, push, hold i (by omega), AList.lookup_insert_ne (Nat.ne_of_lt hi)]
    · cases k with
      | zero =>
        rw [List.foldl_cons, push, Nat.add_zero, hold _ (by omega), AList.lookup_insert]
        rfl
      | succ k =>
        have hindex : rows.keys.length + (k + 1) = (rows.insert rows.keys.length row).keys.length + k := by
          omega
        rw [List.foldl_cons, push, hindex, hnew k, List.getElem?_cons_succ]

end MDataAlgo

namespace MDataAlgoMag
open MDataAlgo

/-- A call whose parameters have value lists can be read. -/
theorem readable_of_lists (algo : MDataAlgoName) (c : Call) {values : List (List String)}
    (h : Lists (c.paramList.filter (inSet c.paramSet)) values) : Readable algo c := by
  cases algo with
  | discards => exact read_of_lists h
  | align =>
    rintro - p hp hs hnone
    obtain ⟨vs, -, hvs⟩ := h.exists_of_mem (List.mem_filter.mpr ⟨hp, hs⟩)
    rw [valueList_error hnone] at hvs
    cases hvs

end MDataAlgoMag

namespace MDataAlgoDiscards
open MDataAlgo

variable {ps : List Param} {values : List (List String)} {m m' : MDataAlgo}

/-- The search from `m` to `m'` has appended a row for each of the choices. -/
structure Listed (ps : List Param) (choices : List (List String)) (m m' : MDataAlgo) : Prop where
  outside : Outside ps m.dataMap m'.dataMap
  rows : ∃ added, m'.datasMap = added.foldl push m.datasMap ∧
    List.Forall₂ (fun choice row => Binds ps choice row ∧ Outside ps m.dataMap row) choices added

theorem Listed.refl : Listed ps [] m m := ⟨fun _ _ => rfl, [], rfl, .nil⟩

/-- One search after another. -/
theorem Listed.append {cs cs' : List (List String)} {m₁ m₂ : MDataAlgo} (h : Listed ps cs m m₁)
    (h' : Listed ps cs' m₁ m₂) : Listed ps (cs ++ cs') m m₂ := by
  obtain ⟨added, hadded, hrows⟩ := h.rows
  obtain ⟨added', hadded', hrows'⟩ := h'.rows
  refine ⟨h.outside.trans h'.outside, added ++ added', ?_, ?_⟩
  · rw [List.foldl_append, ← hadded, hadded']
  · refine List.rel_append hrows (hrows'.imp fun choice row hrow => ?_)
    exact ⟨hrow.1, h.outside.trans hrow.2⟩

/-- Putting a value before the search for the other parameters. -/
theorem Listed.cons {p : Param} {n v : String} {cs : List (List String)} (hn : p.name = some n)
    (hps : ¬ Named ps n)
    (h : Listed ps cs { m with dataMap := m.dataMap.insert n (valueOf p v) } m') :
    Listed (p :: ps) (cs.map (v :: ·)) m m' := by
  obtain ⟨added, hadded, hrows⟩ := h.rows
  have hput : Outside (p :: ps) m.dataMap (m.dataMap.insert n (valueOf p v)) :=
    outside_insert hn (valueOf p v) m.dataMap
  refine ⟨hput.trans h.outside.cons, added, hadded, ?_⟩
  rw [List.forall₂_map_left_iff]
  refine hrows.imp fun choice row hrow => ⟨?_, hput.trans hrow.2.cons⟩
  intro q w hqw k hk
  rcases List.mem_cons.mp hqw with heq | hqw
  · cases heq
    cases hn.symm.trans hk
    rw [hrow.2 n hps]
    exact AList.lookup_insert _
  · exact hrow.1 q w hqw k hk

/-- **A search appends a row for each choice**, in the order of the choices.  The induction is on
the parameters, and for each on its values; what earlier turns have left in the working row, the
later turns replace. -/
theorem rows_of_run (hnames : (ps.map Param.name).Nodup) (hps : ∀ p ∈ ps, ∃ n, p.name = some n)
    (hvalues : Lists ps values) (hrun : (getAlgoDiscardsResult ps).run m = .ok ⟨⟩ m') :
    Listed ps (choices values) m m' := by
  induction ps generalizing values m m' with
  | nil => cases hrun
  | cons p ps ih =>
    obtain ⟨n, hn⟩ := hps p List.mem_cons_self
    rw [List.map_cons, List.nodup_cons] at hnames
    have hother : ¬ Named ps n := by
      rintro ⟨q, hq, hqn⟩
      exact hnames.1 (List.mem_map.mpr ⟨q, hq, hqn.trans hn.symm⟩)
    cases hvalues with
    | @cons _ vs _ values hvs hvalues =>
      rw [getAlgoDiscardsResult_cons, hvs, Prog.lift_ok, pure_bind] at hrun
      refine Prog.of_run_forM_inv (fun done m₁ => Listed (p :: ps)
        (done.flatMap fun v => (choices values).map (v :: ·)) m m₁) ?_ .refl hrun
      rintro done v rest m₁ m₂ - hdone hturn
      rw [putValue, Prog.run_bind_ok (run_putData hn v m₁)] at hturn
      rw [List.flatMap_append, List.flatMap_singleton]
      refine hdone.append (.cons hn hother ?_)
      split at hturn
      · rename_i hnil
        subst hnil
        cases hvalues
        cases hturn
        refine ⟨fun _ _ => rfl, [m₁.dataMap.insert n (valueOf p v)], rfl, .cons ⟨?_, fun _ _ => rfl⟩ .nil⟩
        intro q w hqw
        cases hqw
      · exact ih hnames.2 (fun q hq => hps q (List.mem_cons_of_mem _ hq)) hvalues hturn

variable {l : List Param} {s : HashSet String}

/-- **The rows of `discards`.**  On a fresh object, and for a list with distinct names and with
values, a call gives one row for each choice of values of the parameters that are in the set, in
lexicographic order with the first parameter slowest, and none where no parameter is in the set. -/
theorem genData_choices (hne : l ≠ []) (hnames : (l.map Param.name).Nodup)
    (hread : ∀ p ∈ l, ∃ vs, valueList p = .ok vs) :
    ∃ rows m values, (genData l s).run new = .ok (some rows) m ∧
      Lists (l.filter (inSet s)) values ∧ Dense rows ∧
      rows.keys.length =
        (if l.filter (inSet s) = [] then 0 else (values.map List.length).prod) ∧
      ∀ k row, rows.lookup k = some row → (∀ n, n ∈ row ↔ Shared l s n) ∧
        ∃ choice, (choices values)[k]? = some choice ∧ Binds (l.filter (inSet s)) choice row := by
  obtain ⟨values, hlists⟩ := exists_lists fun p hp => hread p (List.mem_of_mem_filter hp)
  obtain ⟨r, m, hrun⟩ := MDataAlgoMag.returns_of_readable
    (MDataAlgoMag.readable_of_lists .discards ⟨l, s, false⟩ hlists) new
  rcases MDataAlgoMag.of_run_genData hrun with ⟨hnil, -⟩ | ⟨-, rows, rfl, hdense⟩
  · exact absurd hnil hne
  have hgood := (genData_rows hrun).1
  refine ⟨rows, m, values, hrun, hlists, hdense, ?_⟩
  have hkeys (k : ℕ) (row : Row) (hrow : rows.lookup k = some row) (n : String) :
      n ∈ row ↔ Shared l s n := by
    rw [(hgood k row hrow).1 n, named_filter]
    exact or_iff_right (AList.notMem_empty n)
  change (genData l s).run new = _ at hrun
  rw [genData, if_neg hne] at hrun
  obtain ⟨⟨⟩, m₁, h₁, hrun⟩ := Prog.of_run_bind_ok hrun
  cases h₁
  dsimp only at hrun
  split at hrun
  · rename_i hused
    obtain ⟨⟨⟩, m₂, h₂, hrun⟩ := Prog.of_run_bind_ok hrun
    cases hrun
    have hdistinct : ((l.filter (inSet s)).map Param.name).Nodup :=
      hnames.sublist (List.filter_sublist.map _)
    obtain ⟨-, added, hadded, hrows⟩ := rows_of_run hdistinct exists_name_of_mem_filter hlists h₂
    have hpush := lookup_foldl_push dense_empty added
    have hlen : added.length = (choices values).length := hrows.length_eq.symm
    refine ⟨?_, fun k row hrow => ⟨hkeys k row hrow, ?_⟩⟩
    · rw [if_neg hused, hadded, (dense_foldl_push dense_empty added).2, hlen, length_choices]
      exact Nat.zero_add _
    · rw [hadded, ← Nat.zero_add k] at hrow
      have hk : added[k]? = some row := (hpush.2 k).symm.trans hrow
      obtain ⟨hlt, rfl⟩ := List.getElem?_eq_some_iff.mp hk
      have hlt' : k < (choices values).length := hlen ▸ hlt
      refine ⟨(choices values)[k], List.getElem?_eq_getElem hlt', ?_⟩
      exact (List.forall₂_iff_get.mp hrows).2 k hlt' hlt |>.1
  · rename_i hnil
    cases hrun
    rw [if_pos (not_not.mp hnil)]
    refine ⟨rfl, fun k row hrow => ?_⟩
    cases hrow

/-- The names of the two parameters `user` and `sum`. -/
def bothNames : HashSet String := (HashSet.empty.add "user").add "sum"

/-- Both parameters of a pair are used: the one row binds `user` and `sum`. -/
theorem genData_choices_pair :
    ∃ rows m values, (genData (MDataAlgoMag.pairParams "user" "sum") bothNames).run new =
        .ok (some rows) m ∧
      Lists ((MDataAlgoMag.pairParams "user" "sum").filter (inSet bothNames)) values ∧ Dense rows ∧
      rows.keys.length = (if (MDataAlgoMag.pairParams "user" "sum").filter (inSet bothNames) = []
        then 0 else (values.map List.length).prod) ∧
      ∀ k row, rows.lookup k = some row →
        (∀ n, n ∈ row ↔ Shared (MDataAlgoMag.pairParams "user" "sum") bothNames n) ∧
          ∃ choice, (choices values)[k]? = some choice ∧
            Binds ((MDataAlgoMag.pairParams "user" "sum").filter (inSet bothNames)) choice row :=
  genData_choices (List.cons_ne_nil _ _) (by decide)
    (List.forall_mem_cons.mpr ⟨⟨_, rfl⟩, List.forall_mem_singleton.mpr ⟨_, rfl⟩⟩)

end MDataAlgoDiscards

namespace MDataAlgoAlign
open MDataAlgo

variable {l : List Param} {s : HashSet String} {m m' : MDataAlgo} {values : List (List String)}

/-- The row binds the parameters of `pre` that are in the set to their values at index `j`. -/
def BindsAt (s : HashSet String) (j : ℕ) (pre : List Param) (row : Row) : Prop :=
  ∀ p ∈ pre, inSet s p = true → ∃ vs v, valueList p = .ok vs ∧ vs[j]? = some v ∧
    ∀ n, p.name = some n → row.lookup n = some (valueOf p v)

/-- A state of the turn `j` of the outer loop, after the parameters of `pre`: the rows before are
complete, and the row `j`, if there is one, is the working row. -/
structure Turned (l : List Param) (s : HashSet String) (j : ℕ) (pre : List Param) (m : MDataAlgo) :
    Prop where
  row : BindsAt s j pre m.dataMap
  rows : ∀ i row, m.datasMap.lookup i = some row →
    (i < j ∧ BindsAt s i l row) ∨ (i = j ∧ row = m.dataMap)

/-- A state between two turns of the outer loop: the rows below `j` are complete. -/
def Complete (l : List Param) (s : HashSet String) (j : ℕ) (m : MDataAlgo) : Prop :=
  ∀ i row, m.datasMap.lookup i = some row → i < j ∧ BindsAt s i l row

/-- A turn begins with the rows before it complete. -/
theorem Complete.turned {j : ℕ} (h : Complete l s j m) : Turned l s j [] m :=
  ⟨fun _ hp => absurd hp List.not_mem_nil, fun i row hrow => .inl (h i row hrow)⟩

/-- At its end the row of the turn is complete too. -/
theorem Turned.complete {j : ℕ} (h : Turned l s j l m) : Complete l s (j + 1) m := by
  intro i row hrow
  rcases h.rows i row hrow with ⟨hi, hbinds⟩ | ⟨rfl, rfl⟩
  · exact ⟨Nat.lt_succ_of_lt hi, hbinds⟩
  · exact ⟨Nat.lt_succ_self i, h.row⟩

/-- Each parameter of the list is bound in its turn. -/
theorem Turned.step {j : ℕ} {pre rest : List Param} {p : Param} (h : Turned l s j pre m)
    (hl : l = pre ++ p :: rest) (hnames : (l.map Param.name).Nodup)
    (hrun : (putAt s j p).run m = .ok ⟨⟩ m') : Turned l s j (pre ++ [p]) m' := by
  rw [putAt] at hrun
  split at hrun
  · rename_i hs
    obtain ⟨vs, hvs, hrun⟩ := Prog.of_run_lift_bind_ok hrun
    obtain ⟨v, hv, hrun⟩ := Prog.of_run_lift_bind_ok hrun
    obtain ⟨n, hn⟩ := exists_name_of_inSet hs
    rw [Prog.run_bind_ok (run_putData hn v m)] at hrun
    cases hrun
    refine ⟨?_, ?_⟩
    · intro q hq hsq
      rcases List.mem_append.mp hq with hq | hq
      · obtain ⟨ws, w, hws, hw, hbinds⟩ := h.row q hq hsq
        refine ⟨ws, w, hws, hw, fun k hk => ?_⟩
        -- an earlier parameter has another name
        have hkn : k ≠ n := by
          rintro rfl
          rw [hl, List.map_append, List.map_cons] at hnames
          refine (List.nodup_append.mp hnames).2.2 q.name (List.mem_map_of_mem hq) p.name
            List.mem_cons_self ?_
          rw [hk, hn]
        exact (AList.lookup_insert_ne hkn).trans (hbinds k hk)
      · cases List.mem_singleton.mp hq
        refine ⟨vs, v, hvs, ArrayList.get_eq_ok.mp hv, fun k hk => ?_⟩
        cases hn.symm.trans hk
        exact AList.lookup_insert _
    · intro i row hrow
      by_cases hij : i = j
      · subst hij
        rw [AList.lookup_insert] at hrow
        exact .inr ⟨rfl, (Option.some.inj hrow).symm⟩
      · rw [AList.lookup_insert_ne hij] at hrow
        rcases h.rows i row hrow with hlt | ⟨hi, -⟩
        · exact .inl hlt
        · exact absurd hi hij
  · rename_i hs
    cases hrun
    refine ⟨fun q hq hsq => ?_, h.rows⟩
    rcases List.mem_append.mp hq with hq | hq
    · exact h.row q hq hsq
    · cases List.mem_singleton.mp hq
      exact absurd hsq hs

/-- The rows that the loops leave, from an empty map on. -/
theorem complete_of_run {dataNum : ℕ} (hnames : (l.map Param.name).Nodup) (hrows : m.datasMap = ∅)
    (hrun : (forM (List.range dataNum) fun j => forM l (putAt s j)).run m = .ok ⟨⟩ m') :
    Complete l s dataNum m' := by
  have hstart : Complete l s 0 m := by
    intro i row hrow
    rw [hrows] at hrow
    cases hrow
  have hend := Prog.of_run_forM_inv (fun done m => Complete l s done.length m) ?_ hstart hrun
  · rw [List.length_range] at hend
    exact hend
  · rintro done j rest m₁ m₂ hsplit h₁ hturn
    obtain ⟨rfl, -⟩ := Prog.range_split hsplit
    rw [List.length_append, List.length_singleton]
    refine Turned.complete (Prog.of_run_forM_inv (fun pre m => Turned l s done.length pre m)
      ?_ h₁.turned hturn)
    intro pre p q m₃ m₄ hl h₃ hp
    exact h₃.step hl hnames hp

/-- The first loop finds the least number of values. -/
theorem foldlM_minNum_eq {b k : ℕ} (hlists : Lists (l.filter (inSet s)) values)
    (hk : l.foldlM (minNum s) b = .ok k) : k = (values.map List.length).foldl min b := by
  induction l generalizing b values with
  | nil =>
    cases hlists
    cases hk
    rfl
  | cons p l ih =>
    rw [List.foldlM_cons, minNum] at hk
    split at hk
    · rename_i hs
      rw [List.filter_cons_of_pos hs] at hlists
      cases hlists with
      | @cons _ vs _ values hvs hlists =>
        rw [hvs, ok_bind, pure_bind] at hk
        rw [ih hlists hk, List.map_cons, List.foldl_cons]
        congr 1
        rw [Nat.min_def]
        split <;> split <;> omega
    · rename_i hs
      rw [List.filter_cons_of_neg hs] at hlists
      exact ih hlists hk

/-- How many rows a call gives, on any object: for names that need not be distinct. -/
theorem length_of_run {rows : HashMap ℕ Row} (hlists : Lists (l.filter (inSet s)) values)
    (hrun : (genData l s false).run m = .ok (some rows) m') :
    rows.keys.length =
      if l.filter (inSet s) = [] then 0 else (values.map List.length).foldl min 10000 := by
  rw [genData] at hrun
  split at hrun
  · cases hrun
  · dsimp only at hrun
    rw [if_neg Bool.false_ne_true] at hrun
    obtain ⟨⟨⟩, m₁, h₁, hrun⟩ := Prog.of_run_bind_ok hrun
    cases h₁
    obtain ⟨dataNum, hnum, hrun⟩ := Prog.of_run_lift_bind_ok hrun
    obtain ⟨⟨⟩, m₂, h₂, hrun⟩ := Prog.of_run_bind_ok hrun
    cases hrun
    have haligned := aligned_of_run rfl rfl h₂
    split
    · rename_i hnil
      have hnone : ¬ ∃ n, Shared l s n := by
        rintro ⟨n, hn⟩
        obtain ⟨p, hp, -⟩ := named_filter.mpr hn
        rw [hnil] at hp
        cases hp
      rw [haligned.keys_eq_nil hnone]
      rfl
    · rename_i hused
      obtain ⟨p, hp⟩ := List.exists_mem_of_ne_nil _ hused
      obtain ⟨n, hn⟩ := MDataAlgoDiscards.exists_name_of_mem_filter p hp
      have hshared : Shared l s n := named_filter.mp ⟨p, hp, hn⟩
      rw [(haligned.keys_perm hshared).length_eq, List.length_range]
      exact foldlM_minNum_eq hlists hnum

/-- **The rows of `align`.**  On a fresh object, and for a list with distinct names and with values,
a call returns as many rows as the shortest value list of the parameters in the set has values, at
most 10000, and none where no parameter is in the set; the row at `j` binds each of them to its value
at `j`. -/
theorem genData_turns (hne : l ≠ []) (hnames : (l.map Param.name).Nodup)
    (hread : ∀ p ∈ l, ∃ vs, valueList p = .ok vs) :
    ∃ rows m values, (genData l s false).run new = .ok (some rows) m ∧
      Lists (l.filter (inSet s)) values ∧ Dense rows ∧
      rows.keys.length =
        (if l.filter (inSet s) = [] then 0 else (values.map List.length).foldl min 10000) ∧
      ∀ j row, rows.lookup j = some row → (∀ n, n ∈ row ↔ Shared l s n) ∧ BindsAt s j l row := by
  obtain ⟨values, hlists⟩ := exists_lists fun p hp => hread p (List.mem_of_mem_filter hp)
  obtain ⟨r, m, hrun⟩ := MDataAlgoMag.returns_of_readable
    (MDataAlgoMag.readable_of_lists .align ⟨l, s, false⟩ hlists) new
  rcases MDataAlgoMag.of_run_genData hrun with ⟨hnil, -⟩ | ⟨-, rows, rfl, hdense⟩
  · exact absurd hnil hne
  have hexact := (genData_rows hrun).1
  refine ⟨rows, m, values, hrun, hlists, hdense, length_of_run hlists hrun, fun j row hrow =>
    ⟨(hexact j row hrow).1, ?_⟩⟩
  change (genData l s false).run new = _ at hrun
  rw [genData, if_neg hne] at hrun
  dsimp only at hrun
  obtain ⟨⟨⟩, m₁, h₁, hrun⟩ := Prog.of_run_bind_ok hrun
  cases h₁
  obtain ⟨dataNum, -, hrun⟩ := Prog.of_run_lift_bind_ok hrun
  obtain ⟨⟨⟩, m₂, h₂, hrun⟩ := Prog.of_run_bind_ok hrun
  cases hrun
  exact (complete_of_run hnames rfl h₂ j row hrow).2

theorem genData_turns_pair :
    ∃ rows m values, (genData (MDataAlgoMag.pairParams "user" "sum")
        MDataAlgoDiscards.bothNames false).run new = .ok (some rows) m ∧
      Lists ((MDataAlgoMag.pairParams "user" "sum").filter (inSet MDataAlgoDiscards.bothNames))
        values ∧ Dense rows ∧
      rows.keys.length =
        (if (MDataAlgoMag.pairParams "user" "sum").filter (inSet MDataAlgoDiscards.bothNames) = []
          then 0 else (values.map List.length).foldl min 10000) ∧
      ∀ j row, rows.lookup j = some row →
        (∀ n, n ∈ row ↔ Shared (MDataAlgoMag.pairParams "user" "sum") MDataAlgoDiscards.bothNames n) ∧
          BindsAt MDataAlgoDiscards.bothNames j (MDataAlgoMag.pairParams "user" "sum") row :=
  genData_turns (List.cons_ne_nil _ _) (by decide)
    (List.forall_mem_cons.mpr ⟨⟨_, rfl⟩, List.forall_mem_singleton.mpr ⟨_, rfl⟩⟩)

/-- The least of some numbers is positive when all are. -/
theorem pos_foldl_min {ns : List ℕ} {b : ℕ} : 0 < ns.foldl min b ↔ 0 < b ∧ ∀ n ∈ ns, 0 < n := by
  induction ns generalizing b with
  | nil => exact (and_iff_left (List.forall_mem_nil _)).symm
  | cons n ns ih => rw [List.foldl_cons, ih, lt_min_iff, List.forall_mem_cons, and_assoc]

end MDataAlgoAlign

namespace MDataAlgoMag
open MDataAlgo MDataAlgoDiscards

/-- A call gives a row exactly when the parameters that it uses all have a value, and there is
one. -/
theorem fruitful_iff_of_run {algo : MDataAlgoName} {l : List Param} {s : HashSet String}
    {m m' : MDataAlgo} {rows : HashMap ℕ Row}
    (hrun : (genData algo ⟨l, s, false⟩).run m = .ok (some rows) m') :
    0 < rows.keys.length ↔ Fruitful l s := by
  cases algo with
  | discards => exact (MDataAlgoDiscards.genData_rows hrun).2.2
  | align =>
    have hne : l ≠ [] := by
      rintro rfl
      cases hrun
    have hreadable : Readable .align ⟨l, s, false⟩ := by
      by_contra hnot
      exact (throws_of_not_readable hne hnot).not_ok hrun
    have hvalues : ∀ p ∈ l.filter (inSet s), ∃ vs, valueList p = .ok vs := by
      intro p hp
      obtain ⟨v, hv⟩ := Option.ne_none_iff_exists'.mp
        (hreadable rfl p (List.mem_of_mem_filter hp) (List.mem_filter.mp hp).2)
      exact valueList_ok hv
    obtain ⟨values, hlists⟩ := exists_lists hvalues
    rw [MDataAlgoAlign.length_of_run hlists hrun, Fruitful]
    split
    · rename_i hnil
      exact iff_of_false (Nat.lt_irrefl 0) fun h => h.1 hnil
    · rename_i hused
      rw [MDataAlgoAlign.pos_foldl_min, and_iff_right (by decide), and_iff_right hused]
      rw [List.forall_mem_map]
      constructor
      · intro hpos p hp hnone
        obtain ⟨vs, hmem, hvs⟩ := hlists.exists_of_mem hp
        cases hnone.symm.trans hvs
        exact Nat.lt_irrefl 0 (hpos [] hmem)
      · intro hvalues vs hmem
        obtain ⟨p, hp, hvs⟩ := hlists.exists_param hmem
        refine List.length_pos_iff.mpr ?_
        rintro rfl
        exact hvalues p hp hvs

/-- A row binds every name of the list and the set. -/
theorem mem_row_of_run {algo : MDataAlgoName} {l : List Param} {s : HashSet String}
    {m m' : MDataAlgo} {rows : HashMap ℕ Row}
    (hrun : (genData algo ⟨l, s, false⟩).run m = .ok (some rows) m') {i : ℕ} {row : Row}
    (hrow : rows.lookup i = some row) {n : String} (hn : Shared l s n) : n ∈ row := by
  cases algo with
  | discards =>
    exact (((MDataAlgoDiscards.genData_rows hrun).1 i row hrow).1 n).mpr (.inr (named_filter.mpr hn))
  | align => exact (((MDataAlgoAlign.genData_rows hrun).1 i row hrow).1 n).mpr hn

/-- On a fresh object a row binds no other name. -/
theorem shared_of_mem_row {algo : MDataAlgoName} {l : List Param} {s : HashSet String}
    {m' : MDataAlgo} {rows : HashMap ℕ Row}
    (hrun : (genData algo ⟨l, s, false⟩).run new = .ok (some rows) m') {i : ℕ} {row : Row}
    (hrow : rows.lookup i = some row) {n : String} (hn : n ∈ row) : Shared l s n := by
  cases algo with
  | discards =>
    rw [((MDataAlgoDiscards.genData_rows hrun).1 i row hrow).1 n, named_filter] at hn
    exact hn.resolve_left (AList.notMem_empty n)
  | align => exact (((MDataAlgoAlign.genData_rows hrun).1 i row hrow).1 n).mp hn

/-! ### The rows of a call on any object -/

/-- The values that the rows of a call choose for the parameters it uses, row by row. -/
def rowChoices (algo : MDataAlgoName) (values : List (List String)) : List (List String) :=
  match algo with
  | .discards => if values = [] then [] else choices values
  | .align =>
    if values = [] then []
    else (List.range ((values.map List.length).foldl min 10000)).map fun j => values.filterMap (·[j]?)

/-- What the working row still binds when a call begins. -/
def leftover (algo : MDataAlgoName) (m : MDataAlgo) : Row :=
  match algo with
  | .discards => m.dataMap
  | .align => ∅

theorem lists_eq_nil {ps : List Param} {values : List (List String)} (h : Lists ps values) :
    values = [] ↔ ps = [] := by
  rw [← List.length_eq_zero_iff, ← List.length_eq_zero_iff (l := ps), h.length_eq]

/-- The values at an index. -/
theorem binds_of_bindsAt {l : List Param} {s : HashSet String} {j : ℕ} {row : Row}
    {values : List (List String)} (hlists : Lists (l.filter (inSet s)) values)
    (h : MDataAlgoAlign.BindsAt s j l row) :
    Binds (l.filter (inSet s)) (values.filterMap (·[j]?)) row := by
  have hused : ∀ p ∈ l.filter (inSet s), ∃ vs v, valueList p = .ok vs ∧ vs[j]? = some v ∧
      ∀ n, p.name = some n → row.lookup n = some (valueOf p v) :=
    fun p hp => h p (List.mem_of_mem_filter hp) (List.mem_filter.mp hp).2
  generalize l.filter (inSet s) = ps at hlists hused
  induction hlists with
  | nil => intro p v hpv; cases hpv
  | @cons p vs ps values hvs hlists ih =>
    obtain ⟨ws, v, hws, hv, hbinds⟩ := hused p List.mem_cons_self
    obtain rfl := Except.ok.inj (hvs.symm.trans hws)
    have hcons : (vs :: values).filterMap (·[j]?) = v :: values.filterMap (·[j]?) :=
      List.filterMap_cons_some hv
    rw [hcons]
    intro q w hqw
    rcases List.mem_cons.mp hqw with heq | hqw
    · cases heq
      exact hbinds
    · exact ih (fun q hq => hused q (List.mem_cons_of_mem p hq)) q w hqw

/-- **The rows of a call**: one for each choice, and what no parameter it uses is named it binds as
the working row did when the call began. -/
theorem rows_of_call {algo : MDataAlgoName} {l : List Param} {s : HashSet String} {m m' : MDataAlgo}
    {rows : HashMap ℕ Row} {values : List (List String)} (hnames : (l.map Param.name).Nodup)
    (hlists : Lists (l.filter (inSet s)) values)
    (hrun : (genData algo ⟨l, s, false⟩).run m = .ok (some rows) m') :
    ∃ added : List Row, (∀ k, rows.lookup k = added[k]?) ∧
      List.Forall₂ (fun choice row => Binds (l.filter (inSet s)) choice row ∧
        Outside (l.filter (inSet s)) (leftover algo m) row) (rowChoices algo values) added := by
  have hne : l ≠ [] := by
    rintro rfl
    cases algo <;> cases hrun
  cases algo with
  | discards =>
    change (MDataAlgoDiscards.genData l s).run m = _ at hrun
    rw [MDataAlgoDiscards.genData, if_neg hne] at hrun
    obtain ⟨⟨⟩, m₁, h₁, hrun⟩ := Prog.of_run_bind_ok hrun
    cases h₁
    dsimp only at hrun
    split at hrun
    · rename_i hused
      obtain ⟨⟨⟩, m₂, h₂, hrun⟩ := Prog.of_run_bind_ok hrun
      cases hrun
      have hdistinct : ((l.filter (inSet s)).map Param.name).Nodup :=
        hnames.sublist (List.filter_sublist.map _)
      obtain ⟨-, added, hadded, hrows⟩ :=
        rows_of_run hdistinct exists_name_of_mem_filter hlists h₂
      refine ⟨added, fun k => ?_, ?_⟩
      · have hempty : (∅ : HashMap ℕ Row).keys.length + k = k := Nat.zero_add k
        rw [hadded, ← (lookup_foldl_push dense_empty added).2 k, hempty]
      · rw [rowChoices, if_neg (mt (lists_eq_nil hlists).mp hused)]
        exact hrows
    · rename_i hnil
      cases hrun
      refine ⟨[], fun k => rfl, ?_⟩
      rw [rowChoices, if_pos ((lists_eq_nil hlists).mpr (not_not.mp hnil))]
      exact .nil
  | align =>
    change (MDataAlgoAlign.genData l s false).run m = _ at hrun
    have hlength := MDataAlgoAlign.length_of_run hlists hrun
    obtain ⟨hexact, hdense⟩ := MDataAlgoAlign.genData_rows hrun
    have hcomplete : ∀ j row, rows.lookup j = some row → MDataAlgoAlign.BindsAt s j l row := by
      rw [MDataAlgoAlign.genData, if_neg hne] at hrun
      dsimp only at hrun
      obtain ⟨⟨⟩, m₁, h₁, hrun⟩ := Prog.of_run_bind_ok hrun
      cases h₁
      obtain ⟨dataNum, -, hrun⟩ := Prog.of_run_lift_bind_ok hrun
      obtain ⟨⟨⟩, m₂, h₂, hrun⟩ := Prog.of_run_bind_ok hrun
      cases hrun
      exact fun j row hrow => (MDataAlgoAlign.complete_of_run hnames rfl h₂ j row hrow).2
    have hkeys : rowChoices .align values =
        (List.range rows.keys.length).map fun j => values.filterMap (·[j]?) := by
      rw [rowChoices, hlength]
      by_cases hnil : values = []
      · rw [if_pos hnil, if_pos ((lists_eq_nil hlists).mp hnil)]
        rfl
      · rw [if_neg hnil, if_neg (mt (lists_eq_nil hlists).mpr hnil)]
    refine ⟨(List.range rows.keys.length).map fun j => (rows.lookup j).getD ∅,
      fun k => ?_, ?_⟩
    · by_cases hk : k < rows.keys.length
      · obtain ⟨row, hrow⟩ := Option.isSome_iff_exists.mp (AList.lookup_isSome.mpr ((hdense k).mpr hk))
        simp [List.getElem?_range hk, hrow]
      · have hnone := AList.lookup_eq_none.mpr (mt (hdense k).mp hk)
        simp [hnone, not_lt.mp hk]
    · rw [hkeys, List.forall₂_map_left_iff, List.forall₂_map_right_iff, List.forall₂_same]
      intro j hj
      obtain ⟨row, hrow⟩ := Option.isSome_iff_exists.mp
        (AList.lookup_isSome.mpr ((hdense j).mpr (List.mem_range.mp hj)))
      rw [hrow, Option.getD_some]
      refine ⟨binds_of_bindsAt hlists (hcomplete j row hrow), fun n hn => ?_⟩
      -- a row of `align` binds no other name
      refine AList.lookup_eq_none.mpr fun hmem => hn ?_
      exact named_filter.mpr (((hexact j row hrow).1 n).mp hmem)

end MDataAlgoMag

end MBT
