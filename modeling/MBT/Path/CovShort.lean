import MBT.Path.CovBest

/-!
# Path — CovShort

`MPathAlgoCovShort`, for the shortest paths through each through state and each through step.

* `genPath_selects_iff`: it returns them all exactly when none of them enters a state twice.  The
  search does not go back to a state it has entered, also where every path through the element
  does.
* `genPath_loses_detour`: a state that can be reached by a detour only.
-/

namespace MBT
open Exec Multigraph MPathAlgo

namespace MPathAlgoCovShort

/-- The constructor of `MPathAlgoCovShort`. -/
def new : MPathAlgo (Dist Unit) := CovBest.new

/-- Deletes the paths that are not shortest for a through element. -/
def deleteLongPath : VisitOrder ℤ → Prog (MPathAlgo (Dist Unit)) Unit := CovBest.deletePaths shortest

/-- The search, which goes on to a node as long as it comes there at its shortest distance. -/
def dfs : ℕ → ℤ → ℕ → Prog (MPathAlgo (Dist Unit)) Unit := CovBest.dfs shortest

/-- The shortest paths through each through element. -/
def genPath : VisitOrder ℤ → Args → Prog (MPathAlgo (Dist Unit)) PathLists :=
  CovBest.genPath shortest

/-- The guard of the search, on a run whose size the deletion can see. -/
theorem allowed_iff_nodup {a : Args} {s : ℤ} {r : List (ℤ × ℕ)} {F : ℤ → List (ℤ × ℕ) → Prop}
    (h : a.BestRun shortest (· ≤ MPathConfig.MAX_PATH_DIST) F s r) :
    a.graph.multigraph.Allowed shortest.le (fun _ => shortest.worst) 1 r ↔
      (r.map a.graph.multigraph.dst).Nodup := by
  obtain ⟨x, -, -, hfit, -⟩ := h
  have hlen : (r.length : ℤ) ≤ MPathConfig.MAX_PATH_DIST := by
    cases x <;>
      simp only [Through.size, Through.part, MGraph.pathOf, MGraph.extend, List.length_append,
        List.length_map, List.length_singleton, List.length_nil] at hfit <;> omega
  exact (allowed_le_iff r).trans (and_iff_left (.inr hlen))

/-- **CovShort returns the shortest paths where none of them enters a state twice.**  The paths of
CovAll that are shortest through some element are returned exactly when each of them enters no
state twice and is shortest through an element that counts at most `MAX_PATH_DIST` of its states
or steps. -/
theorem genPath_selects_iff (es : List EdgeCall) (a : Args) (hg : a.graph = .ofEdges es)
    (hr : a.CovsNamed) (o o' : VisitOrder ℤ) :
    Selects ((genPath o a).eval new) ((MPathAlgoCovAll.genPath o' a).eval MPathAlgoCovAll.new)
      (a.BestPath shortest) ↔
    ∀ s r, a.Covered s r → a.BestRun shortest (fun _ => True) a.Covered s r →
      (r.map a.graph.multigraph.dst).Nodup ∧
        a.BestRun shortest (· ≤ MPathConfig.MAX_PATH_DIST) a.Covered s r := by
  have h : a.graph.Wf := hg ▸ MGraph.wf_ofEdges es
  have hfits : (fun k => shortest.le k shortest.worst = true) = (· ≤ MPathConfig.MAX_PATH_DIST) :=
    funext fun k => by simp [shortest]
  refine (CovBest.selects_iff h hr o o').trans ?_
  rw [hfits]
  refine forall₄_congr fun s r _ _ => and_congr_left fun hbest => allowed_iff_nodup hbest

/-- `S → A → T` enters no state twice. -/
theorem genPath_selects_iff_detour :
    Selects ((genPath .insertion (MPathAlgoCovAll.detourArgs ["A"])).eval new)
      ((MPathAlgoCovAll.genPath .insertion (MPathAlgoCovAll.detourArgs ["A"])).eval
        MPathAlgoCovAll.new) ((MPathAlgoCovAll.detourArgs ["A"]).BestPath shortest) ↔
    ∀ s r, (MPathAlgoCovAll.detourArgs ["A"]).Covered s r →
      (MPathAlgoCovAll.detourArgs ["A"]).BestRun shortest (fun _ => True)
        (MPathAlgoCovAll.detourArgs ["A"]).Covered s r →
      (r.map (MPathAlgoCovAll.detourArgs ["A"]).graph.multigraph.dst).Nodup ∧
        (MPathAlgoCovAll.detourArgs ["A"]).BestRun shortest (· ≤ MPathConfig.MAX_PATH_DIST)
          (MPathAlgoCovAll.detourArgs ["A"]).Covered s r :=
  genPath_selects_iff MPathAlgoCovAll.detourEdges (MPathAlgoCovAll.detourArgs ["A"]) rfl (fun _ h => nomatch h) _ _

/-- Every path through `B` enters `A` twice, so none is returned. -/
theorem genPath_loses_detour :
    (∃ x, (MPathAlgoCovAll.detourArgs ["B"]).IsThrough x) ∧
    ¬ Selects ((genPath .insertion (MPathAlgoCovAll.detourArgs ["B"])).eval new)
      ((MPathAlgoCovAll.genPath .insertion (MPathAlgoCovAll.detourArgs ["B"])).eval
        MPathAlgoCovAll.new) ((MPathAlgoCovAll.detourArgs ["B"]).BestPath shortest) := by
  have hB : (MPathAlgoCovAll.detourArgs ["B"]).IsThrough (.state 2) :=
    ⟨"B", by decide, by decide +kernel⟩
  refine ⟨⟨_, hB⟩, ?_⟩
  have hall : (MPathAlgoCovAll.genPath .insertion (MPathAlgoCovAll.detourArgs ["B"])).eval
      MPathAlgoCovAll.new = some (.ofPaths [⟨[0, 1, 2, 1, 3], [1, 2, 3, 4], [1, 2, 3, 4]⟩]) := by
    decide +kernel
  have hshort : (genPath .insertion (MPathAlgoCovAll.detourArgs ["B"])).eval new =
      some (.ofPaths []) := by decide +kernel
  rw [hall, hshort]
  rintro ⟨ps, qs, hps, hqs, -, hmem⟩
  obtain rfl := PathLists.ofPaths_injective (Option.some.inj hps)
  obtain rfl := PathLists.ofPaths_injective (Option.some.inj hqs)
  refine List.not_mem_nil ((hmem _).mpr ⟨List.mem_singleton_self _, .state 2, hB, ?_, ?_⟩)
  · simp [Through.On, Through.num, Through.part]
  · intro q hq _
    rw [List.mem_singleton.mp hq]
    exact shortest.refl _

end MPathAlgoCovShort

end MBT
