import MBT.Path.CovAll
import MBT.Support.Best

/-!
# Path — CovBest

`MPathAlgoCovShort` and `MPathAlgoCovLong`: the search on entry positions, and the deletion of all
paths but the shortest (longest) through each through state and each through step.  The two differ
in the order on path lengths only, the `Ranking` of the definitions here.

* `run_genPath`: what `genPath` returns, from any object whose entries are all the worst value.
* `selects_iff`: when the result is what the algorithm is for, said of runs.
* `selects_best_iff`: with no through state and no through step, nothing is ever returned.
-/

namespace MBT
open Exec Multigraph MPathAlgo

namespace MPathConfig

/-- The distance that the search for short paths starts with. -/
def MAX_PATH_DIST : ℤ := 99999999

/-- The distance that the search for long paths starts with. -/
def MIN_PATH_DIST : ℤ := -1

end MPathConfig

/-- Short paths before long ones; a search for the best starts from `MAX_PATH_DIST`. -/
def shortest : Ranking ℤ where
  le a b := decide (a ≤ b)
  worst := MPathConfig.MAX_PATH_DIST
  total a b := by simpa using Int.le_total a b
  trans h h' := by simp only [decide_eq_true_eq] at *; omega
  antisymm h h' := by simp only [decide_eq_true_eq] at *; omega

/-- Long paths before short ones; a search for the best starts from `MIN_PATH_DIST`. -/
def longest : Ranking ℤ where
  le a b := decide (b ≤ a)
  worst := MPathConfig.MIN_PATH_DIST
  total a b := by simpa using Int.le_total b a
  trans h h' := by simp only [decide_eq_true_eq] at *; omega
  antisymm h h' := by simp only [decide_eq_true_eq] at *; omega

namespace CovBest

variable {ω : Type} (R : Ranking ℤ)

/-! ### The deletion loops -/

/-- The size of the best of the lists that contain `num`. -/
def bestDist (lists : List (List ℤ)) (num : ℤ) : ℤ :=
  R.best (fun l => l.contains num) (fun l => (l.length : ℤ)) lists R.worst

/-- Add the indices of the lists that contain `num` and have the best size. -/
def addBest (lists : List (List ℤ)) (resultSet : HashSet ℕ) (num : ℤ) : HashSet ℕ :=
  let dist := bestDist R lists num
  lists.zipIdx.foldl (fun resultSet x =>
    if x.1.contains num && dist == x.1.length then resultSet.add x.2 else resultSet) resultSet

/-- The indices of the paths that are best for some through element. -/
def resultSet (o : VisitOrder ℤ) (m : MPathAlgo ω) : HashSet ℕ :=
  (o.visit m.throughStepNumSet).foldl (addBest R m.pathsMap.stepPath)
    ((o.visit m.throughStateNumSet).foldl (addBest R m.pathsMap.statePath) .empty)

/-- `deleteLongPath` and `deleteShortPath`. -/
def deletePaths (o : VisitOrder ℤ) : Prog (MPathAlgo ω) Unit := modify fun m =>
  let resultSet := resultSet R o m
  { m with pathsMap := m.pathsMap.removeBack fun _ i => !resultSet.contains i }

/-! ### The algorithm -/

/-- The constructor of the two classes. -/
def new : MPathAlgo (Dist Unit) := .new ⟨[], ()⟩

/-- The search, which goes on where the rank of the distance allows it. -/
def dfs : ℕ → ℤ → ℕ → Prog (MPathAlgo (Dist Unit)) Unit := dfsDist R.le fun _ => addPath

/-- `stateDistList.add(worst)`, once for each state. -/
def addDists : Prog (MPathAlgo (Dist ω)) Unit := modify fun m =>
  { m with own := { m.own with
      stateDistList := m.own.stateDistList ++ List.replicate m.graph.nodeCount.toNat R.worst } }

/-- `genPath` up to the filters. -/
def search (o : VisitOrder ℤ) (a : Args) : Prog (MPathAlgo (Dist Unit)) Unit := do
  init a
  addDists R
  rounds o (dfs R)

/-- The paths of a search that pass the filters, less those that are best for no through element. -/
def genPath (o : VisitOrder ℤ) (a : Args) : Prog (MPathAlgo (Dist Unit)) PathLists := do
  search R o a
  delPathWithoutThroughState
  delPathWithoutThroughStep
  deletePaths R o
  let m ← get
  return m.pathsMap

/-! ### What the deletion keeps -/

variable {R}

/-- What is added for an element are the indices of the lists that hold it at its best distance. -/
theorem mem_addBest {lists : List (List ℤ)} {s : HashSet ℕ} {num : ℤ} {i : ℕ} :
    i ∈ (addBest R lists s num).elems ↔ i ∈ s.elems ∨
      ∃ l, lists[i]? = some l ∧ num ∈ l ∧ bestDist R lists num = l.length := by
  unfold addBest
  rw [HashSet.mem_elems_foldl (Q := fun x =>
    (x.1.contains num && bestDist R lists num == x.1.length) = true ∧ i = x.2)]
  · refine or_congr_right ⟨?_, ?_⟩
    · rintro ⟨⟨l, j⟩, hm, hb, rfl⟩
      exact ⟨l, List.mem_zipIdx_iff_getElem?.mp hm, by simpa using hb⟩
    · rintro ⟨l, hl, hb⟩
      exact ⟨(l, i), List.mem_zipIdx_iff_getElem?.mpr hl, by simpa using hb, rfl⟩
  · intro t x
    split <;> simp_all

/-- Some element of `set` is in the list `l`, which is best in size among those it is in. -/
def keeps (R : Ranking ℤ) (set : HashSet ℤ) (lists : List (List ℤ)) (l : List ℤ) : Bool :=
  set.elems.any fun num => decide (num ∈ l) && bestDist R lists num == l.length

/-- What is added for a set of elements, in any order. -/
theorem mem_foldl_addBest {o : VisitOrder ℤ} {set : HashSet ℤ} {lists : List (List ℤ)}
    {s : HashSet ℕ} {i : ℕ} :
    i ∈ ((o.visit set).foldl (addBest R lists) s).elems ↔ i ∈ s.elems ∨
      ∃ l, lists[i]? = some l ∧ keeps R set lists l = true := by
  rw [HashSet.mem_elems_foldl (f := addBest R lists) fun _ _ => mem_addBest]
  refine or_congr_right ⟨?_, ?_⟩
  · rintro ⟨num, hn, l, hl, hm, hb⟩
    exact ⟨l, hl, List.any_eq_true.mpr ⟨num, o.mem_visit.mp hn, by simp [hm, hb]⟩⟩
  · rintro ⟨l, hl, hk⟩
    obtain ⟨num, hn, hb⟩ := List.any_eq_true.mp hk
    exact ⟨num, o.mem_visit.mpr hn, l, hl, by simpa using hb⟩

/-- The deletion keeps `p`, one of the paths `ps`. -/
def selects (R : Ranking ℤ) (a : Args) (ps : List Path) (p : Path) : Bool :=
  keeps R (a.graph.stateSet a.throughStateNameList) (ps.map Path.states) p.states ||
    keeps R (a.graph.stepSet a.throughStepNameList) (ps.map Path.steps) p.steps

/-- The paths that are kept are those that some through element selects. -/
theorem run_deletePaths (R : Ranking ℤ) (o : VisitOrder ℤ) (a : Args) (w w' : ω)
    (l : List RouteNums) (ps : List Path) :
    (deletePaths R o).run ((a.ready w l).withOut (.ofPaths ps, w')) =
      .ok ⟨⟩ ((a.ready w l).withOut (.ofPaths (ps.filter (selects R a ps)), w')) := by
  have hdel : (PathLists.ofPaths ps).removeBack (fun _ i =>
      !(resultSet R o ((a.ready w l).withOut (.ofPaths ps, w'))).contains i) =
        .ofPaths (ps.filter (selects R a ps)) :=
    PathLists.removeBack_ofPaths fun p x q t hps => by
      congr 1
      rw [Bool.eq_iff_iff, HashSet.contains_iff, resultSet, mem_foldl_addBest, mem_foldl_addBest,
        selects, Bool.or_eq_true]
      simp [withOut, PathLists.ofPaths, Args.ready, hps]
  simp only [deletePaths, EStateM.run_modify]
  exact congrArg (fun x => EStateM.Result.ok _ ((a.ready w l).withOut (x, w'))) hdel

/-! ### What `genPath` returns -/

/-- The runs the search finds and the filters keep. -/
def covered (R : Ranking ℤ) (o : VisitOrder ℤ) (a : Args) : List (ℤ × List (ℤ × ℕ)) :=
  (a.found o R.le R.worst).filter fun x => passes a (a.graph.pathOf x.1 x.2)

/-- The paths `genPath` returns. -/
def result (R : Ranking ℤ) (o : VisitOrder ℤ) (a : Args) : List Path :=
  (a.paths (covered R o a)).filter (selects R a (a.paths (covered R o a)))

/-- All entries are the worst value, as a search leaves them. -/
def Idle (R : Ranking ℤ) (w : Dist ω) : Prop := ∀ d ∈ w.stateDistList, d = R.worst

/-- The subclass fields once `addDists` has added to them. -/
def grown (R : Ranking ℤ) (a : Args) (w : Dist ω) : Dist ω :=
  { w with stateDistList := w.stateDistList ++ List.replicate a.graph.nodeCount.toNat R.worst }

/-- Distances that are added are those a search starts with. -/
theorem Idle.grown {a : Args} {w : Dist ω} (h : Idle R w) : Idle R (grown R a w) := by
  intro d hd
  rcases List.mem_append.mp hd with hd | hd
  · exact h d hd
  · exact List.eq_of_mem_replicate hd

/-- There is a distance for each node. -/
theorem length_grown {a : Args} (h : a.graph.Wf) (w : Dist ω) :
    a.graph.edgeList.length ≤ (CovBest.grown R a w).stateDistList.length := by
  have := h.count
  simp only [CovBest.grown, List.length_append, List.length_replicate]
  omega

/-- What is recorded does not depend on the distances. -/
theorem blindToDist_putPath : BlindToDist (ω := ω) (fun _ => True) putPath :=
  ⟨fun _ _ _ => rfl, fun _ _ _ => trivial⟩

/-- A search from idle distances leaves the paths of its runs. -/
theorem run_search {a : Args} (h : a.graph.Wf) {m : MPathAlgo (Dist Unit)} {l : List RouteNums}
    (hinit : (init a).run m = .ok ⟨⟩ (a.ready m.own l)) (hm : Idle R m.own) (o : VisitOrder ℤ) :
    (search R o a).run m = .ok ⟨⟩ ((a.ready (grown R a m.own) l).withOut
      (.ofPaths (a.paths (a.found o R.le R.worst)), grown R a m.own)) := by
  have hadd : (addDists R).run (a.ready m.own l) = .ok ⟨⟩ (a.ready (grown R a m.own) l) := rfl
  rw [search, Prog.run_bind_ok hinit, Prog.run_bind_ok hadd]
  exact run_rounds h fun s hs ps => run_round_dfsDist h (records_addPath _) blindToDist_putPath
    R.le hs _ l trivial (length_grown h m.own) hm.grown

/-- `genPath` behind its initialisation. -/
theorem run_genPath_of_init {a : Args} (h : a.graph.Wf) {m : MPathAlgo (Dist Unit)}
    {l : List RouteNums} (hinit : (init a).run m = .ok ⟨⟩ (a.ready m.own l)) (hm : Idle R m.own)
    (o : VisitOrder ℤ) :
    (genPath R o a).run m = .ok (.ofPaths (result R o a))
      ((a.ready (grown R a m.own) l).withOut (.ofPaths (result R o a), grown R a m.own)) := by
  rw [genPath, Prog.run_bind_ok (run_search h hinit hm o), run_filters,
    show (a.paths (a.found o R.le R.worst)).filter (passes a) = a.paths (covered R o a) from
      List.filter_map, Prog.run_bind_ok (run_deletePaths R o a _ _ l _)]
  rfl

/-- **What `genPath` returns and leaves**, from idle distances. -/
theorem run_genPath {a : Args} (h : a.graph.Wf) (hr : a.CovsNamed) {m : MPathAlgo (Dist Unit)}
    (hm : Idle R m.own) (o : VisitOrder ℤ) :
    ∃ l, (genPath R o a).run m = .ok (.ofPaths (result R o a))
      ((a.ready (grown R a m.own) l).withOut (.ofPaths (result R o a), grown R a m.own)) := by
  obtain ⟨l, hinit⟩ := run_init_ok h hr m
  exact ⟨l, run_genPath_of_init h hinit hm o⟩

/-- A call keeps the entries. -/
theorem idle_exec {a : Args} (h : a.graph.Wf) {m : MPathAlgo (Dist Unit)} (hm : Idle R m.own)
    (o : VisitOrder ℤ) : Idle R ((genPath R o a).exec m).own := by
  by_cases hr : a.CovsNamed
  · obtain ⟨l, hrun⟩ := run_genPath h hr hm o
    rw [Prog.exec_ok hrun]
    exact hm.grown
  · obtain ⟨e, l, hinit⟩ := run_init_throws h hr m
    rw [genPath, search, Prog.exec_error (Prog.run_bind_error (Prog.run_bind_error hinit))]
    exact hm

/-- A new object has no distances. -/
theorem idle_new : Idle R new.own := fun _ h => nomatch h

/-! ### What the result is for -/

/-- A list has the best distance of an element when no list that holds the element ranks before it.
-/
theorem bestDist_eq_iff {lists : List (List ℤ)} {num : ℤ} {l : List ℤ} (hl : l ∈ lists)
    (hn : num ∈ l) : bestDist R lists num = l.length ↔
      R.le l.length R.worst = true ∧
        ∀ l' ∈ lists, num ∈ l' → R.le l.length l'.length = true := by
  rw [bestDist, Ranking.best_eq_iff hl (by simpa using hn)]
  simp only [List.contains_iff_mem]

end CovBest

/-- A state or a step that paths are to go through. -/
inductive Through where
  | state (num : ℤ)
  | step (num : ℤ)

namespace Through

/-- The number of a state or of a step. -/
def num : Through → ℤ
  | state num => num
  | step num => num

/-- The states of a path, or its steps. -/
def part : Through → Path → List ℤ
  | state _ => Path.states
  | step _ => Path.steps

/-- The path goes through the element. -/
def On (x : Through) (p : Path) : Prop := x.num ∈ x.part p

/-- How many numbers the list of a path holds that the element is looked for in. -/
def size (x : Through) (p : Path) : ℤ := (x.part p).length

end Through

namespace Args

/-- `x` is a named state or a named step. -/
def IsThrough (a : Args) : Through → Prop
  | .state num => a.graph.IsNamed a.throughStateNameList num
  | .step num => a.graph.IsNamedStep a.throughStepNameList num

/-- Empty through lists name nothing. -/
theorem not_isThrough {a : Args} (hstate : a.throughStateNameList.getD [] = [])
    (hstep : a.throughStepNameList.getD [] = []) (x : Through) : ¬ a.IsThrough x := by
  cases x with
  | state n => rintro ⟨name, hname, -⟩; rw [hstate] at hname; cases hname
  | step t => rintro ⟨name, hname, -⟩; rw [hstep] at hname; cases hname

/-- `p` is one of the best of `ps` through some element. -/
def BestPath (a : Args) (R : Ranking ℤ) (ps : List Path) (p : Path) : Prop :=
  ∃ x, a.IsThrough x ∧ x.On p ∧ ∀ q ∈ ps, x.On q → R.le (x.size p) (x.size q) = true

/-- The run `r` from `s` is one of the best of `F` through some element, at a size that `fits`. -/
def BestRun (a : Args) (R : Ranking ℤ) (fits : ℤ → Prop) (F : ℤ → List (ℤ × ℕ) → Prop)
    (s : ℤ) (r : List (ℤ × ℕ)) : Prop :=
  ∃ x, a.IsThrough x ∧ x.On (a.graph.pathOf s r) ∧ fits (x.size (a.graph.pathOf s r)) ∧
    ∀ s' r', F s' r' → x.On (a.graph.pathOf s' r') →
      R.le (x.size (a.graph.pathOf s r)) (x.size (a.graph.pathOf s' r')) = true

/-- A covered run that the guard of the search lets pass. -/
def CoveredBy (a : Args) (R : Ranking ℤ) (s : ℤ) (r : List (ℤ × ℕ)) : Prop :=
  a.Covered s r ∧ a.graph.multigraph.Allowed R.le (fun _ => R.worst) 1 r

end Args

/-- `ret` holds exactly the paths of `all` that `P` holds of, each of them once. -/
def Selects (ret all : Option PathLists) (P : List Path → Path → Prop) : Prop :=
  ∃ ps qs, ret = some (.ofPaths ps) ∧ all = some (.ofPaths qs) ∧ ps.Nodup ∧
    ∀ p, p ∈ ps ↔ p ∈ qs ∧ P qs p

namespace CovBest

variable {R : Ranking ℤ} {a : Args} {o : VisitOrder ℤ}

/-- The paths of runs that a predicate describes. -/
theorem mem_paths {rs : List (ℤ × List (ℤ × ℕ))} {F : ℤ → List (ℤ × ℕ) → Prop}
    (hF : ∀ s r, (s, r) ∈ rs ↔ F s r) {p : Path} :
    p ∈ a.paths rs ↔ ∃ s r, F s r ∧ a.graph.pathOf s r = p := by
  simp only [Args.paths, List.mem_map, Prod.exists, hF]

/-- The runs behind the paths that are left after the filters. -/
theorem mem_covered (h : a.graph.Wf) {s : ℤ} {r : List (ℤ × ℕ)} :
    (s, r) ∈ covered R o a ↔ a.CoveredBy R s r := by
  rw [covered, List.mem_filter, Args.mem_found h, Args.CoveredBy, Args.covered_iff h]
  tauto

/-- `keeps`, said of the runs whose paths have the lists as their parts. -/
theorem keeps_part {rs : List (ℤ × List (ℤ × ℕ))} {F : ℤ → List (ℤ × ℕ) → Prop}
    (hF : ∀ s r, (s, r) ∈ rs ↔ F s r) {set : HashSet ℤ} {part : Path → List ℤ} {s : ℤ}
    {r : List (ℤ × ℕ)} (hs : F s r) :
    keeps R set ((a.paths rs).map part) (part (a.graph.pathOf s r)) = true ↔
      ∃ n, n ∈ set.elems ∧ n ∈ part (a.graph.pathOf s r) ∧
        R.le (part (a.graph.pathOf s r)).length R.worst = true ∧
          ∀ s' r', F s' r' → n ∈ part (a.graph.pathOf s' r') →
            R.le (part (a.graph.pathOf s r)).length (part (a.graph.pathOf s' r')).length = true := by
  have hmem : part (a.graph.pathOf s r) ∈ (a.paths rs).map part :=
    List.mem_map_of_mem ((mem_paths hF).mpr ⟨s, r, hs, rfl⟩)
  simp only [keeps, List.any_eq_true, Bool.and_eq_true, decide_eq_true_eq, beq_iff_eq]
  refine exists_congr fun n => and_congr_right fun _ => ?_
  refine and_congr_right fun hn => ?_
  rw [bestDist_eq_iff hmem hn]
  refine and_congr_right fun _ => ?_
  simp only [List.mem_map, mem_paths hF, forall_exists_index, and_imp]
  constructor
  · exact fun h s' r' hF' hn' => h _ _ s' r' hF' rfl rfl hn'
  · rintro h _ _ s' r' hF' rfl rfl hn'
    exact h s' r' hF' hn'

/-- The selection, said of runs. -/
theorem selects_pathOf (h : a.graph.Wf) {rs : List (ℤ × List (ℤ × ℕ))}
    {F : ℤ → List (ℤ × ℕ) → Prop} (hF : ∀ s r, (s, r) ∈ rs ↔ F s r) {s : ℤ} {r : List (ℤ × ℕ)}
    (hs : F s r) : selects R a (a.paths rs) (a.graph.pathOf s r) = true ↔
      a.BestRun R (fun k => R.le k R.worst = true) F s r := by
  rw [selects, Bool.or_eq_true, keeps_part hF hs, keeps_part hF hs]
  simp only [MGraph.mem_stateSet h, MGraph.mem_stepSet]
  constructor
  · rintro (⟨n, hn⟩ | ⟨t, ht⟩)
    · exact ⟨.state n, hn⟩
    · exact ⟨.step t, ht⟩
  · rintro ⟨n | t, hx⟩
    · exact .inl ⟨n, hx⟩
    · exact .inr ⟨t, hx⟩

/-- The paths a call returns, said of runs. -/
theorem mem_result (h : a.graph.Wf) {p : Path} : p ∈ result R o a ↔
    ∃ s r, (a.CoveredBy R s r ∧
      a.BestRun R (fun k => R.le k R.worst = true) (a.CoveredBy R) s r) ∧
        a.graph.pathOf s r = p := by
  rw [result, List.mem_filter, mem_paths fun s r => mem_covered h]
  constructor
  · rintro ⟨⟨s, r, hr, rfl⟩, hp⟩
    exact ⟨s, r, ⟨hr, (selects_pathOf h (fun s r => mem_covered h) hr).mp hp⟩, rfl⟩
  · rintro ⟨s, r, ⟨hr, hp⟩, rfl⟩
    exact ⟨⟨s, r, hr, rfl⟩, (selects_pathOf h (fun s r => mem_covered h) hr).mpr hp⟩

/-- No path is returned twice. -/
theorem nodup_result (h : a.graph.Wf) : (result R o a).Nodup := by
  have hall : (a.paths (a.found o R.le R.worst)).Nodup := Args.nodup_paths h
  exact (hall.sublist (List.filter_sublist.map _)).filter _

/-- From any object with the entries and in any order of the start states, the same paths are
returned. -/
theorem samePaths_orders (h : a.graph.Wf) {m m' : MPathAlgo (Dist Unit)} (hm : Idle R m.own)
    (hm' : Idle R m'.own) (o o' : VisitOrder ℤ) :
    SamePaths ((genPath R o a).eval m) ((genPath R o' a).eval m') := by
  by_cases hr : a.CovsNamed
  · obtain ⟨l, hrun⟩ := run_genPath h hr hm o
    obtain ⟨l', hrun'⟩ := run_genPath h hr hm' o'
    rw [Prog.eval_ok hrun, Prog.eval_ok hrun', samePaths_ofPaths]
    exact (List.perm_ext_iff_of_nodup (nodup_result h) (nodup_result h)).mpr fun p =>
      (mem_result h).trans (mem_result h).symm
  · obtain ⟨e, l, hinit⟩ := run_init_throws h hr m
    obtain ⟨e', l', hinit'⟩ := run_init_throws h hr m'
    rw [genPath, genPath, search, search,
      Prog.eval_error (Prog.run_bind_error (Prog.run_bind_error hinit)),
      Prog.eval_error (Prog.run_bind_error (Prog.run_bind_error hinit'))]
    exact .none

/-- The paths of CovAll that are best through an element, said of runs. -/
theorem bestPath_pathOf {rs : List (ℤ × List (ℤ × ℕ))} {F : ℤ → List (ℤ × ℕ) → Prop}
    (hF : ∀ s r, (s, r) ∈ rs ↔ F s r) {s : ℤ} {r : List (ℤ × ℕ)} :
    a.BestPath R (a.paths rs) (a.graph.pathOf s r) ↔
      a.BestRun R (fun _ => True) F s r := by
  have hq : ∀ (P : Path → Prop), (∀ q ∈ a.paths rs, P q) ↔
      ∀ s' r', F s' r' → P (a.graph.pathOf s' r') := fun P => by
    simp only [mem_paths hF]
    exact ⟨fun h s' r' hF' => h _ ⟨s', r', hF', rfl⟩, by rintro h _ ⟨s', r', hF', rfl⟩; exact h s' r' hF'⟩
  simp only [Args.BestPath, Args.BestRun, hq, true_and]

/-- The comparison of two calls, in terms of runs. -/
theorem selects_iff_runs (h : a.graph.Wf) (hr : a.CovsNamed) (o o' : VisitOrder ℤ) :
    Selects ((genPath R o a).eval new) ((MPathAlgoCovAll.genPath o' a).eval MPathAlgoCovAll.new)
      (a.BestPath R) ↔
    ∀ s r, a.Covered s r →
      (a.CoveredBy R s r ∧ a.BestRun R (fun k => R.le k R.worst = true) (a.CoveredBy R) s r ↔
        a.BestRun R (fun _ => True) a.Covered s r) := by
  obtain ⟨l, hrun⟩ := run_genPath h hr (idle_new (R := R)) o
  obtain ⟨l', hall⟩ := MPathAlgoCovAll.run_genPath h hr o' MPathAlgoCovAll.new
  have hcov : ∀ s r, (s, r) ∈ MPathAlgoCovAll.covered o' a ↔ a.Covered s r :=
    fun s r => MPathAlgoCovAll.mem_covered h
  rw [Selects, Prog.eval_ok hrun, Prog.eval_ok hall]
  constructor
  · rintro ⟨ps, qs, hps, hqs, -, hmem⟩ s r hs
    obtain rfl := PathLists.ofPaths_injective (Option.some.inj hps)
    obtain rfl := PathLists.ofPaths_injective (Option.some.inj hqs)
    have := hmem (a.graph.pathOf s r)
    rw [mem_result h, mem_paths hcov, bestPath_pathOf hcov] at this
    refine Iff.trans ⟨fun hb => ⟨s, r, hb, rfl⟩, ?_⟩ (this.trans ⟨fun hb => hb.2, fun hb =>
      ⟨⟨s, r, hs, rfl⟩, hb⟩⟩)
    rintro ⟨s', r', hb, e⟩
    obtain ⟨rfl, rfl⟩ := MGraph.pathOf_inj h hb.1.1.chained hs.chained e
    exact hb
  · intro hiff
    refine ⟨_, _, rfl, rfl, nodup_result h, fun p => ?_⟩
    rw [mem_result h, mem_paths hcov]
    constructor
    · rintro ⟨s, r, hb, rfl⟩
      exact ⟨⟨s, r, hb.1.1, rfl⟩, (bestPath_pathOf hcov).mpr ((hiff s r hb.1.1).mp hb)⟩
    · rintro ⟨⟨s, r, hs, rfl⟩, hb⟩
      exact ⟨s, r, (hiff s r hs).mpr ((bestPath_pathOf hcov).mp hb), rfl⟩

/-- Among the covered runs through an element there is a best one. -/
theorem exists_bestRun (h : a.graph.Wf) (x : Through) {s : ℤ} {r : List (ℤ × ℕ)}
    (hs : a.Covered s r) (hx : x.On (a.graph.pathOf s r)) :
    ∃ s' r', a.Covered s' r' ∧ x.On (a.graph.pathOf s' r') ∧
      ∀ s'' r'', a.Covered s'' r'' → x.On (a.graph.pathOf s'' r'') →
        R.le (x.size (a.graph.pathOf s' r')) (x.size (a.graph.pathOf s'' r'')) = true := by
  classical
  have hcov : ∀ s r, (s, r) ∈ MPathAlgoCovAll.covered .insertion a ↔ a.Covered s r :=
    fun s r => MPathAlgoCovAll.mem_covered h
  have hne : (MPathAlgoCovAll.covered .insertion a).filter
      (fun y => decide (x.On (a.graph.pathOf y.1 y.2))) ≠ [] :=
    List.ne_nil_of_mem (List.mem_filter.mpr ⟨(hcov s r).mpr hs, decide_eq_true hx⟩)
  obtain ⟨⟨s', r'⟩, hm, hbest⟩ := R.exists_best (fun y => x.size (a.graph.pathOf y.1 y.2)) hne
  obtain ⟨hm, hx'⟩ := List.mem_filter.mp hm
  refine ⟨s', r', (hcov _ _).mp hm, of_decide_eq_true hx', fun s'' r'' hs'' hx'' => ?_⟩
  exact hbest (s'', r'') (List.mem_filter.mpr ⟨(hcov _ _).mpr hs'', decide_eq_true hx''⟩)

/-- **When the result is the selection from CovAll's**: the guard lets the best runs pass, and the
deletion, which starts from the worst value, can see their sizes. -/
theorem selects_iff (h : a.graph.Wf) (hr : a.CovsNamed) (o o' : VisitOrder ℤ) :
    Selects ((genPath R o a).eval new) ((MPathAlgoCovAll.genPath o' a).eval MPathAlgoCovAll.new)
      (a.BestPath R) ↔
    ∀ s r, a.Covered s r → a.BestRun R (fun _ => True) a.Covered s r →
      a.graph.multigraph.Allowed R.le (fun _ => R.worst) 1 r ∧
        a.BestRun R (fun k => R.le k R.worst = true) a.Covered s r := by
  rw [selects_iff_runs h hr]
  constructor
  · intro hiff s r hs hbest
    obtain ⟨⟨-, hA⟩, x, hx, hon, hfit, hle⟩ := (hiff s r hs).mpr hbest
    refine ⟨hA, x, hx, hon, hfit, fun s' r' hs' hon' => ?_⟩
    -- a best run through `x` passes the guard, and is not better than `r`
    obtain ⟨s₀, r₀, hs₀, hon₀, hle₀⟩ := exists_bestRun (R := R) h x hs' hon'
    have hby := ((hiff s₀ r₀ hs₀).mpr ⟨x, hx, hon₀, trivial, hle₀⟩).1
    exact R.trans (hle s₀ r₀ hby hon₀) (hle₀ s' r' hs' hon')
  · intro hpass s r hs
    constructor
    · rintro ⟨-, x, hx, hon, -, hle⟩
      refine ⟨x, hx, hon, trivial, fun s' r' hs' hon' => ?_⟩
      obtain ⟨s₀, r₀, hs₀, hon₀, hle₀⟩ := exists_bestRun (R := R) h x hs' hon'
      have hA := (hpass s₀ r₀ hs₀ ⟨x, hx, hon₀, trivial, hle₀⟩).1
      exact R.trans (hle s₀ r₀ ⟨hs₀, hA⟩ hon₀) (hle₀ s' r' hs' hon')
    · intro hbest
      obtain ⟨hA, x, hx, hon, hfit, hle⟩ := hpass s r hs hbest
      exact ⟨⟨hs, hA⟩, x, hx, hon, hfit, fun s' r' hs' => hle s' r' hs'.1⟩

/-! ### Without through elements -/

/-- With no through element nothing is kept, so the best paths of CovAll are returned only where
there is none. -/
theorem selects_best_iff (h : a.graph.Wf) (hr : a.CovsNamed) (hno : ∀ x, ¬ a.IsThrough x)
    (o o' : VisitOrder ℤ) :
    Selects ((genPath R o a).eval new) ((MPathAlgoCovAll.genPath o' a).eval MPathAlgoCovAll.new)
      (fun qs p => ∀ q ∈ qs, R.le p.states.length q.states.length = true) ↔
    ∀ s r, ¬ a.Covered s r := by
  obtain ⟨l, hrun⟩ := run_genPath h hr (idle_new (R := R)) o
  obtain ⟨l', hall⟩ := MPathAlgoCovAll.run_genPath h hr o' MPathAlgoCovAll.new
  have hcov : ∀ s r, (s, r) ∈ MPathAlgoCovAll.covered o' a ↔ a.Covered s r :=
    fun s r => MPathAlgoCovAll.mem_covered h
  have hempty : result R o a = [] := List.eq_nil_iff_forall_not_mem.mpr fun p hp => by
    obtain ⟨s, r, ⟨-, x, hx, -⟩, -⟩ := (mem_result h).mp hp
    exact hno x hx
  rw [Selects, Prog.eval_ok hrun, Prog.eval_ok hall, hempty]
  constructor
  · rintro ⟨ps, qs, hps, hqs, -, hmem⟩ s r hs
    obtain rfl := PathLists.ofPaths_injective (Option.some.inj hps)
    obtain rfl := PathLists.ofPaths_injective (Option.some.inj hqs)
    obtain ⟨p, hp, hbest⟩ := R.exists_best (fun p : Path => (p.states.length : ℤ))
      (List.ne_nil_of_mem ((mem_paths hcov).mpr ⟨s, r, hs, rfl⟩))
    cases (hmem p).mpr ⟨hp, hbest⟩
  · intro hnone
    refine ⟨_, _, rfl, rfl, List.nodup_nil, fun p => ?_⟩
    rw [mem_paths hcov]
    exact ⟨fun hp => absurd hp List.not_mem_nil, fun ⟨⟨s, r, hs, _⟩, _⟩ => absurd hs (hnone s r)⟩

end CovBest

end MBT
