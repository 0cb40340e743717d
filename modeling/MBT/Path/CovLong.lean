import MBT.Path.CovShort

/-!
# Path — CovLong

`MPathAlgoCovLong`, for the longest paths through each through state and each through step.

* `genPath_selects`: it returns exactly these.  An entry of `stateDistList` is `MIN_PATH_DIST` or
  a position before the one to be filled, so the guard of the search lets every edge pass.
* `genPath_best_iff`: with no through list neither `MPathAlgoCovShort` nor `MPathAlgoCovLong`
  returns a path, so they return the shortest and the longest ones only where there are none.
-/

namespace MBT
open Exec Multigraph MPathAlgo

namespace MPathAlgoCovLong

/-- The constructor of `MPathAlgoCovLong`. -/
def new : MPathAlgo (Dist Unit) := CovBest.new

/-- Deletes the paths that are not longest for a through element. -/
def deleteShortPath : VisitOrder ℤ → Prog (MPathAlgo (Dist Unit)) Unit := CovBest.deletePaths longest

/-- The search, which no distance stops. -/
def dfs : ℕ → ℤ → ℕ → Prog (MPathAlgo (Dist Unit)) Unit := CovBest.dfs longest

/-- The longest paths through each through element. -/
def genPath : VisitOrder ℤ → Args → Prog (MPathAlgo (Dist Unit)) PathLists :=
  CovBest.genPath longest

/-- The guard lets every walk pass. -/
theorem allowed (G : Multigraph ℤ) (r : List (ℤ × ℕ)) :
    G.Allowed longest.le (fun _ => longest.worst) 1 r :=
  allowed_of_ge (fun _ => by simp [longest, MPathConfig.MIN_PATH_DIST]) r

/-- No distance is behind the first one, so the search is not pruned. -/
theorem found_eq (o : VisitOrder ℤ) (a : Args) :
    a.found o longest.le longest.worst = a.found o (fun _ _ => true) 0 := by
  unfold Args.found
  congr 1
  funext s
  have hruns : a.runsFrom longest.le longest.worst s = a.runsFrom (fun _ _ => true) 0 s :=
    runs_of_ge (fun _ => by simp [longest, MPathConfig.MIN_PATH_DIST]) rfl rfl
  rw [hruns]

/-- **CovLong returns the longest paths.**  It returns exactly the paths of CovAll that are longest
through some element; its search, whose guard lets every walk pass, records what CovAll's does. -/
theorem genPath_selects (es : List EdgeCall) (a : Args) (hg : a.graph = .ofEdges es)
    (hr : a.CovsNamed) (o o' : VisitOrder ℤ) :
    Selects ((genPath o a).eval new) ((MPathAlgoCovAll.genPath o' a).eval MPathAlgoCovAll.new)
      (a.BestPath longest) ∧
    ((CovBest.search longest o a).exec new).pathsMap =
      ((MPathAlgoCovAll.search o a).exec MPathAlgoCovAll.new).pathsMap ∧
    ∀ r, a.graph.multigraph.Allowed longest.le (fun _ => longest.worst) 1 r := by
  have h : a.graph.Wf := hg ▸ MGraph.wf_ofEdges es
  refine ⟨(CovBest.selects_iff h hr o o').mpr fun s r _ hbest => ⟨allowed _ r, ?_⟩, ?_, allowed _⟩
  · obtain ⟨x, hx, hon, -, hle⟩ := hbest
    refine ⟨x, hx, hon, ?_, hle⟩
    simp only [longest, Through.size, MPathConfig.MIN_PATH_DIST, decide_eq_true_eq]
    omega
  · obtain ⟨l, hinit⟩ := run_init_ok h hr new
    obtain ⟨l', hall⟩ := MPathAlgoCovAll.run_search h hr o MPathAlgoCovAll.new
    rw [Prog.exec_ok hall, Prog.exec_ok (CovBest.run_search h hinit CovBest.idle_new o), found_eq]
    rfl

theorem genPath_selects_detour :
    Selects ((genPath .insertion (MPathAlgoCovAll.detourArgs ["B"])).eval new)
      ((MPathAlgoCovAll.genPath .insertion (MPathAlgoCovAll.detourArgs ["B"])).eval
        MPathAlgoCovAll.new) ((MPathAlgoCovAll.detourArgs ["B"]).BestPath longest) ∧
    ((CovBest.search longest .insertion (MPathAlgoCovAll.detourArgs ["B"])).exec new).pathsMap =
      ((MPathAlgoCovAll.search .insertion (MPathAlgoCovAll.detourArgs ["B"])).exec
        MPathAlgoCovAll.new).pathsMap ∧
    ∀ r, (MPathAlgoCovAll.detourArgs ["B"]).graph.multigraph.Allowed longest.le
      (fun _ => longest.worst) 1 r :=
  genPath_selects MPathAlgoCovAll.detourEdges (MPathAlgoCovAll.detourArgs ["B"]) rfl
    (fun _ h => nomatch h) _ _

/-! ### Without through lists -/

/-- **Without through lists nothing is returned.**  CovShort returns the paths of CovAll with the
fewest states, and CovLong those with the most, exactly when CovAll finds none. -/
theorem genPath_best_iff (es : List EdgeCall) (a : Args) (hg : a.graph = .ofEdges es)
    (hr : a.CovsNamed) (hstate : a.throughStateNameList.getD [] = [])
    (hstep : a.throughStepNameList.getD [] = []) (o o' : VisitOrder ℤ) :
    (Selects ((MPathAlgoCovShort.genPath o a).eval MPathAlgoCovShort.new)
        ((MPathAlgoCovAll.genPath o' a).eval MPathAlgoCovAll.new)
        (fun qs p => ∀ q ∈ qs, p.states.length ≤ q.states.length) ↔
      ∀ s r, ¬ a.Covered s r) ∧
    (Selects ((genPath o a).eval new) ((MPathAlgoCovAll.genPath o' a).eval MPathAlgoCovAll.new)
        (fun qs p => ∀ q ∈ qs, q.states.length ≤ p.states.length) ↔
      ∀ s r, ¬ a.Covered s r) := by
  have h : a.graph.Wf := hg ▸ MGraph.wf_ofEdges es
  have hno := Args.not_isThrough hstate hstep
  have hshort := CovBest.selects_best_iff (R := shortest) h hr hno o o'
  have hlong := CovBest.selects_best_iff (R := longest) h hr hno o o'
  simp only [shortest, longest, decide_eq_true_eq, Nat.cast_le] at hshort hlong
  exact ⟨hshort, hlong⟩

/-- Without through lists, `S → A → T` is a path of CovAll, and neither algorithm returns it. -/
theorem genPath_best_iff_detour :
    (Selects ((MPathAlgoCovShort.genPath .insertion (MPathAlgoCovAll.detourArgs [])).eval
          MPathAlgoCovShort.new)
        ((MPathAlgoCovAll.genPath .insertion (MPathAlgoCovAll.detourArgs [])).eval
          MPathAlgoCovAll.new) (fun qs p => ∀ q ∈ qs, p.states.length ≤ q.states.length) ↔
      ∀ s r, ¬ (MPathAlgoCovAll.detourArgs []).Covered s r) ∧
    (Selects ((genPath .insertion (MPathAlgoCovAll.detourArgs [])).eval new)
        ((MPathAlgoCovAll.genPath .insertion (MPathAlgoCovAll.detourArgs [])).eval
          MPathAlgoCovAll.new) (fun qs p => ∀ q ∈ qs, q.states.length ≤ p.states.length) ↔
      ∀ s r, ¬ (MPathAlgoCovAll.detourArgs []).Covered s r) :=
  genPath_best_iff MPathAlgoCovAll.detourEdges (MPathAlgoCovAll.detourArgs []) rfl
    (fun _ h => nomatch h) rfl rfl _ _

theorem genPath_best_empty :
    ¬ Selects ((MPathAlgoCovShort.genPath .insertion (MPathAlgoCovAll.detourArgs [])).eval
          MPathAlgoCovShort.new)
        ((MPathAlgoCovAll.genPath .insertion (MPathAlgoCovAll.detourArgs [])).eval
          MPathAlgoCovAll.new) (fun qs p => ∀ q ∈ qs, p.states.length ≤ q.states.length) ∧
    ¬ Selects ((genPath .insertion (MPathAlgoCovAll.detourArgs [])).eval new)
        ((MPathAlgoCovAll.genPath .insertion (MPathAlgoCovAll.detourArgs [])).eval
          MPathAlgoCovAll.new) (fun qs p => ∀ q ∈ qs, q.states.length ≤ p.states.length) := by
  have hall : (MPathAlgoCovAll.genPath .insertion (MPathAlgoCovAll.detourArgs [])).eval
      MPathAlgoCovAll.new = some (.ofPaths [⟨[0, 1, 2, 1, 3], [1, 2, 3, 4], [1, 2, 3, 4]⟩,
        ⟨[0, 1, 3], [1, 4], [1, 4]⟩]) := by decide +kernel
  have hshort : (MPathAlgoCovShort.genPath .insertion (MPathAlgoCovAll.detourArgs [])).eval
      MPathAlgoCovShort.new = some (.ofPaths []) := by decide +kernel
  have hlong : (genPath .insertion (MPathAlgoCovAll.detourArgs [])).eval new =
      some (.ofPaths []) := by decide +kernel
  rw [hall, hshort, hlong]
  constructor <;> rintro ⟨ps, qs, hps, hqs, -, hmem⟩ <;>
    obtain rfl := PathLists.ofPaths_injective (Option.some.inj hps) <;>
    obtain rfl := PathLists.ofPaths_injective (Option.some.inj hqs)
  · exact List.not_mem_nil ((hmem ⟨[0, 1, 3], [1, 4], [1, 4]⟩).mpr (by decide))
  · exact List.not_mem_nil
      ((hmem ⟨[0, 1, 2, 1, 3], [1, 2, 3, 4], [1, 2, 3, 4]⟩).mpr (by decide))

end MPathAlgoCovLong

end MBT
