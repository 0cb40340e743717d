import MBT.Path.CovLong
import MBT.Path.CovN2N

/-!
# Path — Pairs

`MPathAlgoCovShortN2N` and `MPathAlgoCovLongN2N`, for the best paths between each start state and
each stop state.

* `selects_pairs_iff`: they return these, each of them once, exactly when the search can see their
  sizes and what the round of a start state leaves is beaten in the round of the next.
* `genPath_selects_pairs_iff`: the same, for the shortest and for the longest paths.
* `genPath_repeats`: two start states with paths of the same size to one stop state.
-/

namespace MBT
open Exec Multigraph MPathAlgo

namespace CovN2N

variable {R : Ranking ℤ} {a : Args} {o : VisitOrder ℤ} {s : ℤ} {r : List (ℤ × ℕ)}

/-- `p` is one of the best of `qs` between its ends. -/
def BestPair (R : Ranking ℤ) (qs : List Path) (p : Path) : Prop :=
  ∀ q ∈ qs, q.states.head? = p.states.head? → q.states.getLast? = p.states.getLast? →
    R.le p.states.length q.states.length = true

/-- No covered run with the same ends beats `r`. -/
def BestTo (a : Args) (R : Ranking ℤ) (s : ℤ) (r : List (ℤ × ℕ)) : Prop :=
  ∀ r', a.Covered s r' → a.graph.multigraph.dest s r' = a.graph.multigraph.dest s r →
    R.le (r.length + 1) (r'.length + 1) = true

/-- Whenever a run leads from a start state to a stop state, one of a size that the search can see
does. -/
def InSight (a : Args) (R : Ranking ℤ) : Prop :=
  ∀ s r, a.Covered s r → ∃ r', a.Covered s r' ∧
    a.graph.multigraph.dest s r' = a.graph.multigraph.dest s r ∧
      R.le (r'.length + 1) R.worst = true

/-- Every covered run from `s` is beaten by one from `s'` to the same stop state. -/
def Beaten (a : Args) (R : Ranking ℤ) (s s' : ℤ) : Prop :=
  ∀ r, a.Covered s r → ∃ r', a.Covered s' r' ∧
    a.graph.multigraph.dest s' r' = a.graph.multigraph.dest s r ∧
      R.le (r.length + 1) (r'.length + 1) = false

/-- The guard of the search lets the best runs of a size in sight pass. -/
def Guarded (a : Args) (R : Ranking ℤ) : Prop :=
  ∀ s r, a.Covered s r → BestTo a R s r → R.le (r.length + 1) R.worst = true →
    a.graph.multigraph.Allowed R.le (fun _ => R.worst) 1 r

/-- Where a run goes, a best one goes. -/
theorem exists_bestTo (h : a.graph.Wf) (hs : a.Covered s r) :
    ∃ r₀, a.Covered s r₀ ∧ a.graph.multigraph.dest s r₀ = a.graph.multigraph.dest s r ∧
      BestTo a R s r₀ := by
  have hcov : ∀ s r, (s, r) ∈ MPathAlgoCovAll.covered .insertion a ↔ a.Covered s r :=
    fun s r => MPathAlgoCovAll.mem_covered h
  have hmem : ∀ x, x ∈ (MPathAlgoCovAll.covered .insertion a).filter (fun x => decide (x.1 = s ∧
      a.graph.multigraph.dest s x.2 = a.graph.multigraph.dest s r)) ↔ a.Covered x.1 x.2 ∧ x.1 = s ∧
        a.graph.multigraph.dest s x.2 = a.graph.multigraph.dest s r := fun x => by
    rw [List.mem_filter, hcov x.1 x.2, decide_eq_true_eq]
  obtain ⟨⟨s₀, r₀⟩, hm, hbest⟩ := R.exists_best (fun x : ℤ × List (ℤ × ℕ) => (x.2.length : ℤ) + 1)
    (List.ne_nil_of_mem ((hmem (s, r)).mpr ⟨hs, rfl, rfl⟩))
  obtain ⟨hc, rfl : s₀ = s, hd⟩ := (hmem _).mp hm
  exact ⟨r₀, hc, hd, fun r' hr' hd' => hbest (s₀, r') ((hmem _).mpr ⟨hr', rfl, hd'.trans hd⟩)⟩

/-! ### What a round gives out -/

/-- The paths of a round, where nothing has to be gone through. -/
theorem mem_pathsFrom (h : a.graph.Wf) (hno : ∀ x, ¬ a.IsThrough x) {p : Path}
    (hs : a.graph.IsStart a.startStateNameList s) : p ∈ pathsFrom R a s ↔
      ∃ r, a.CoveredBy R s r ∧ a.graph.pathOf s r = p := by
  simp only [pathsFrom, List.mem_map, Args.mem_runsFrom, Args.CoveredBy]
  refine exists_congr fun r => and_congr_left fun _ => and_congr_left fun _ => ?_
  rw [Args.covered_iff h, Args.passes_pathOf h]
  exact ⟨fun hr => ⟨hs, hr, fun n hn => absurd hn (hno (.state n)),
    fun t ht => absurd ht (hno (.step t))⟩, fun hr => hr.2.1⟩

/-- Where the runs are in sight, a round from an empty list gives out the best ones. -/
theorem mem_own (h : a.graph.Wf) (hno : ∀ x, ¬ a.IsThrough x) (hg : Guarded a R)
    (hsight : InSight a R) (hs : a.graph.IsStart a.startStateNameList s) {p : Path} :
    p ∈ Carry.own (keep R a) (pathsFrom R a) s ↔
      ∃ r, a.Covered s r ∧ BestTo a R s r ∧ a.graph.pathOf s r = p := by
  -- the best runs are in sight, so the search finds them
  have hfound : ∀ r, a.Covered s r → BestTo a R s r →
      R.le (r.length + 1) R.worst = true ∧ a.CoveredBy R s r := fun r hr hb => by
    obtain ⟨r', hr', hd, hle⟩ := hsight s r hr
    have hfit := R.trans (hb r' hr' hd) hle
    exact ⟨hfit, hr, hg s r hr hb hfit⟩
  rw [Carry.own, List.mem_filter, mem_pathsFrom h hno hs]
  constructor
  · rintro ⟨⟨r, hr, rfl⟩, hk⟩
    refine ⟨r, hr.1, fun r' hr' hd => ?_, rfl⟩
    obtain ⟨r₀, hr₀, hd₀, hb₀⟩ := exists_bestTo (R := R) h hr'
    have := (keep_iff.mp hk).2 _ ((mem_pathsFrom h hno hs).mpr ⟨r₀, (hfound r₀ hr₀ hb₀).2, rfl⟩)
      (by rw [last_pathOf, last_pathOf, hd₀, hd])
    rw [size_pathOf, size_pathOf] at this
    exact R.trans this (hb₀ r' hr' hd₀.symm)
  · rintro ⟨r, hr, hb, rfl⟩
    obtain ⟨hfit, hby⟩ := hfound r hr hb
    refine ⟨⟨r, hby, rfl⟩, keep_iff.mpr ⟨by rwa [size_pathOf], fun q hq hl => ?_⟩⟩
    obtain ⟨r', hr', rfl⟩ := (mem_pathsFrom h hno hs).mp hq
    rw [last_pathOf, last_pathOf] at hl
    rw [size_pathOf, size_pathOf]
    exact hb r' hr'.1 hl

/-- What a round leaves is dropped in the next iff it is beaten there. -/
theorem drops_iff (h : a.graph.Wf) (hno : ∀ x, ¬ a.IsThrough x) (hg : Guarded a R)
    (hsight : InSight a R) {s' : ℤ} (hs : a.graph.IsStart a.startStateNameList s)
    (hs' : a.graph.IsStart a.startStateNameList s') :
    Carry.Drops (keep R a) (pathsFrom R a) s s' ↔ Beaten a R s s' := by
  rw [Carry.Drops, List.filter_eq_nil_iff]
  constructor
  · intro hdrop r hr
    obtain ⟨r₀, hr₀, hd₀, hb₀⟩ := exists_bestTo (R := R) h hr
    have hmem := (mem_own h hno hg hsight hs).mpr ⟨r₀, hr₀, hb₀, rfl⟩
    have hfit := (keep_iff.mp (List.mem_filter.mp hmem).2).1
    have hnot := hdrop _ hmem
    rw [keep_iff, not_and] at hnot
    simp only [not_forall] at hnot
    obtain ⟨q, hq, hl, hlt⟩ := hnot hfit
    obtain ⟨r', hr', rfl⟩ := (mem_pathsFrom h hno hs').mp hq
    rw [last_pathOf, last_pathOf, hd₀] at hl
    rw [size_pathOf, size_pathOf, Bool.not_eq_true] at hlt
    refine ⟨r', hr'.1, hl, ?_⟩
    by_contra hle
    exact Bool.false_ne_true (hlt.symm.trans (R.trans (hb₀ r hr hd₀.symm) (by simpa using hle)))
  · intro hbeat p hp hk
    obtain ⟨r, hr, -, rfl⟩ := (mem_own h hno hg hsight hs).mp hp
    obtain ⟨r', hr', hd', hlt⟩ := hbeat r hr
    obtain ⟨r₀, hr₀, hd₀, hb₀⟩ := exists_bestTo (R := R) h hr'
    have hmem := (mem_own h hno hg hsight hs').mpr ⟨r₀, hr₀, hb₀, rfl⟩
    have hle := (keep_iff.mp hk).2 _ (List.mem_filter.mp hmem).1
      (by rw [last_pathOf, last_pathOf, hd₀, hd'])
    rw [size_pathOf, size_pathOf] at hle
    exact Bool.false_ne_true (hlt.symm.trans (R.trans hle (hb₀ r' hr' hd₀.symm)))

/-! ### What the rounds give out -/

/-- The path of a run ends where the run does. -/
theorem getLast?_pathOf (g : MGraph) (s : ℤ) (r : List (ℤ × ℕ)) :
    (g.pathOf s r).states.getLast? = some (g.multigraph.dest s r) := by
  rw [dest_eq_getLast]
  exact List.getLast?_eq_some_getLast (List.cons_ne_nil _ _)

/-- The paths of CovAll that are best between their ends, said of runs. -/
theorem bestPair_pathOf {rs : List (ℤ × List (ℤ × ℕ))}
    (hcov : ∀ s r, (s, r) ∈ rs ↔ a.Covered s r) :
    BestPair R (a.paths rs) (a.graph.pathOf s r) ↔ BestTo a R s r := by
  have hlen : ∀ s r, ((a.graph.pathOf s r).states.length : ℤ) = r.length + 1 := size_pathOf a.graph
  constructor
  · intro hb r' hr' hd
    have := hb _ ((CovBest.mem_paths hcov).mpr ⟨s, r', hr', rfl⟩) rfl
      (by rw [getLast?_pathOf, getLast?_pathOf, hd])
    rwa [hlen, hlen] at this
  · intro hb q hq hh hl
    obtain ⟨s', r', hr', rfl⟩ := (CovBest.mem_paths hcov).mp hq
    obtain rfl : s' = s := Option.some.inj hh
    rw [getLast?_pathOf, getLast?_pathOf] at hl
    rw [hlen, hlen]
    exact hb r' hr' (Option.some.inj hl)

/-- A round finds no path twice. -/
theorem nodup_pathsFrom (h : a.graph.Wf) (s : ℤ) : (pathsFrom R a s).Nodup :=
  List.Nodup.map_on (fun _ hr _ hr' e => (MGraph.pathOf_inj h (Args.mem_runsFrom.mp hr).1.chained
    (Args.mem_runsFrom.mp hr').1.chained e).2) (nodup_explore _ _)

/-- The rounds find no path twice. -/
theorem nodup_own (h : a.graph.Wf) (hno : ∀ x, ¬ a.IsThrough x) :
    ((o.visit a.starts).flatMap (Carry.own (keep R a) (pathsFrom R a))).Nodup := by
  have hstart : ∀ s ∈ o.visit a.starts, a.graph.IsStart a.startStateNameList s :=
    fun s hs => (Args.mem_starts h).mp (o.mem_visit.mp hs)
  refine List.nodup_flatMap.mpr ⟨fun s _ => (nodup_pathsFrom h s).filter _, ?_⟩
  · refine (o.nodup_visit a.starts).imp_of_mem fun {s s'} hs hs' hne p hp hp' => ?_
    obtain ⟨r, -, rfl⟩ := (mem_pathsFrom h hno (hstart s hs)).mp (List.mem_of_mem_filter hp)
    obtain ⟨r', -, e⟩ := (mem_pathsFrom h hno (hstart s' hs')).mp (List.mem_of_mem_filter hp')
    exact hne (Option.some.inj (congrArg (·.states.head?) e)).symm

/-- Where nothing has to be gone through each path passes. -/
theorem passes_of_no (h : a.graph.Wf) (hno : ∀ x, ¬ a.IsThrough x) (p : Path) :
    passes a p = true := by
  rw [passes, Bool.and_eq_true, Args.meets_iff fun n => MGraph.mem_stateSet h,
    Args.meets_iff fun t => MGraph.mem_stepSet]
  exact ⟨fun n hn => absurd hn (hno (.state n)), fun t ht => absurd ht (hno (.step t))⟩

/-- **When the result is the best path of each pair**: these are in sight, and what a round leaves
is beaten in the next. -/
theorem selects_pairs_iff (h : a.graph.Wf) (hr : a.CovsNamed) (hno : ∀ x, ¬ a.IsThrough x)
    (hg : Guarded a R) (o o' : VisitOrder ℤ) :
    Selects ((genPath R o a).eval new) ((MPathAlgoCovAll.genPath o' a).eval MPathAlgoCovAll.new)
      (BestPair R) ↔ InSight a R ∧ (o.visit a.starts).IsChain (Beaten a R) := by
  obtain ⟨l, hinit⟩ := run_init_ok h hr new
  obtain ⟨m', -, hrun, -⟩ := run_genPath_of_init h hinit (sound_new (R := R)) o
  obtain ⟨l', hall⟩ := MPathAlgoCovAll.run_genPath h hr o' MPathAlgoCovAll.new
  have hcov : ∀ s r, (s, r) ∈ MPathAlgoCovAll.covered o' a ↔ a.Covered s r :=
    fun s r => MPathAlgoCovAll.mem_covered h
  have hstart : ∀ s, s ∈ o.visit a.starts ↔ a.graph.IsStart a.startStateNameList s :=
    fun s => o.mem_visit.trans (Args.mem_starts h)
  have hchain : InSight a R → ((o.visit a.starts).IsChain (Carry.Drops (keep R a) (pathsFrom R a)) ↔
      (o.visit a.starts).IsChain (Beaten a R)) := fun hsight =>
    List.IsChain.iff_of_mem_imp fun s s' hs hs' =>
      drops_iff h hno hg hsight ((hstart s).mp hs) ((hstart s').mp hs')
  rw [Selects, Prog.eval_ok hrun, Prog.eval_ok hall,
    List.filter_eq_self.mpr fun p _ => passes_of_no h hno p]
  constructor
  · rintro ⟨ps, qs, hps, hqs, hnd, hmem⟩
    obtain rfl := PathLists.ofPaths_injective (Option.some.inj hps)
    obtain rfl := PathLists.ofPaths_injective (Option.some.inj hqs)
    have hdrops := (Carry.isChain_of_nodup_carry (t := []) hnd).2
    have hcarry : carried R o a [] = _ := Carry.carry_eq_flatMap (by simp) hdrops
    have hsight : InSight a R := fun s r hs => by
      obtain ⟨r₀, hr₀, hd₀, hb₀⟩ := exists_bestTo (R := R) h hs
      have hp := (hmem (a.graph.pathOf s r₀)).mpr
        ⟨(CovBest.mem_paths hcov).mpr ⟨s, r₀, hr₀, rfl⟩, (bestPair_pathOf hcov).mpr hb₀⟩
      rw [hcarry] at hp
      obtain ⟨s', -, hown⟩ := List.mem_flatMap.mp hp
      have hfit := (keep_iff.mp (List.mem_filter.mp hown).2).1
      rw [size_pathOf] at hfit
      exact ⟨r₀, hr₀, hd₀, hfit⟩
    exact ⟨hsight, (hchain hsight).mp hdrops⟩
  · rintro ⟨hsight, hbeaten⟩
    have hcarry : carried R o a [] = _ :=
      Carry.carry_eq_flatMap (by simp) ((hchain hsight).mpr hbeaten)
    refine ⟨_, _, rfl, rfl, hcarry ▸ nodup_own h hno, fun p => ?_⟩
    rw [hcarry, List.mem_flatMap, CovBest.mem_paths hcov]
    constructor
    · rintro ⟨s, hs, hp⟩
      obtain ⟨r, hr, hb, rfl⟩ := (mem_own h hno hg hsight ((hstart s).mp hs)).mp hp
      exact ⟨⟨s, r, hr, rfl⟩, (bestPair_pathOf hcov).mpr hb⟩
    · rintro ⟨⟨s, r, hr, rfl⟩, hb⟩
      exact ⟨s, (hstart s).mpr hr.start, (mem_own h hno hg hsight hr.start).mpr
        ⟨r, hr, (bestPair_pathOf hcov).mp hb, rfl⟩⟩

end CovN2N

/-! ### The two algorithms -/

namespace MPathAlgoCovShortN2N

/-- The constructor of `MPathAlgoCovShortN2N`. -/
def new : MPathAlgo (Dist N2N) := CovN2N.new

/-- Sets the best distances to the worst one. -/
def resetMinDistList : Prog (MPathAlgo (Dist N2N)) Unit := CovN2N.resetDistList shortest

/-- Deletes the temporary paths that are not shortest to their ends. -/
def deleteLongPath : Prog (MPathAlgo (Dist N2N)) Unit := CovN2N.deletePaths shortest

/-- The search for the shortest paths. -/
def dfs : ℕ → ℤ → ℕ → Prog (MPathAlgo (Dist N2N)) Unit := CovN2N.dfs shortest

/-- The shortest paths from each start state to each stop state. -/
def genPath : VisitOrder ℤ → Args → Prog (MPathAlgo (Dist N2N)) PathLists := CovN2N.genPath shortest

end MPathAlgoCovShortN2N

namespace MPathAlgoCovLongN2N

/-- The constructor of `MPathAlgoCovLongN2N`. -/
def new : MPathAlgo (Dist N2N) := CovN2N.new

/-- Sets the best distances to the worst one. -/
def resetMaxDistList : Prog (MPathAlgo (Dist N2N)) Unit := CovN2N.resetDistList longest

/-- Deletes the temporary paths that are not longest to their ends. -/
def deleteShortPath : Prog (MPathAlgo (Dist N2N)) Unit := CovN2N.deletePaths longest

/-- The search for the longest paths. -/
def dfs : ℕ → ℤ → ℕ → Prog (MPathAlgo (Dist N2N)) Unit := CovN2N.dfs longest

/-- The longest paths from each start state to each stop state. -/
def genPath : VisitOrder ℤ → Args → Prog (MPathAlgo (Dist N2N)) PathLists := CovN2N.genPath longest

end MPathAlgoCovLongN2N

namespace CovN2N

variable {a : Args}

/-- A shortest run to a stop state enters no state twice. -/
theorem nodup_of_bestTo (h : a.graph.Wf) (hno : ∀ x, ¬ a.IsThrough x)
    (hstop : ∃ n, a.graph.IsNamed a.stopStateNameList n) {s : ℤ} {r : List (ℤ × ℕ)}
    (hr : a.Covered s r) (hb : BestTo a shortest s r) : (r.map a.graph.multigraph.dst).Nodup := by
  have hleaves : a.leaves = false := by
    rw [← Bool.not_eq_true, Args.leaves_iff h]
    exact fun hn => hstop.elim hn
  have hrun : ∀ r', a.graph.multigraph.IsRun a.graph.budget a.stop false s r' ↔ a.Covered s r' := by
    intro r'
    rw [Args.covered_iff h, and_iff_left (passes_of_no h hno _), and_iff_right hr.start,
      Args.IsRun, hleaves]
  refine ((hrun r).mpr hr).nodup_of_shortest fun r' hr' hd => ?_
  have := hb r' ((hrun r').mp hr') hd
  simp only [shortest, decide_eq_true_eq] at this
  omega

/-- The guard lets it pass. -/
theorem guarded_shortest (h : a.graph.Wf) (hno : ∀ x, ¬ a.IsThrough x)
    (hstop : ∃ n, a.graph.IsNamed a.stopStateNameList n) : Guarded a shortest := by
  intro s r hr hb hfit
  simp only [shortest, decide_eq_true_eq] at hfit
  exact (allowed_le_iff r).mpr ⟨nodup_of_bestTo h hno hstop hr hb,
    .inr (show (r.length : ℤ) ≤ MPathConfig.MAX_PATH_DIST by omega)⟩

/-- **When the best paths of each pair are returned.**  Each of CovAll's paths that is shortest
(longest) between its ends is returned once, and nothing else, exactly when

* every start state that reaches a stop state does so within `MAX_PATH_DIST` states (asked of
  `MPathAlgoCovShortN2N` only), and
* from each start state but the last visited, every run to a stop state is longer (shorter) than
  some run to it from the start state visited next. -/
theorem genPath_selects_pairs_iff (es : List EdgeCall) (a : Args) (hg : a.graph = .ofEdges es)
    (hr : a.CovsNamed) (hstop : ∃ n, a.graph.IsNamed a.stopStateNameList n)
    (hstate : a.throughStateNameList.getD [] = []) (hstep : a.throughStepNameList.getD [] = [])
    (o o' : VisitOrder ℤ) :
    (Selects ((MPathAlgoCovShortN2N.genPath o a).eval MPathAlgoCovShortN2N.new)
        ((MPathAlgoCovAll.genPath o' a).eval MPathAlgoCovAll.new)
        (fun qs p => ∀ q ∈ qs, q.states.head? = p.states.head? →
          q.states.getLast? = p.states.getLast? → p.states.length ≤ q.states.length) ↔
      (∀ s r, a.Covered s r → ∃ r', a.Covered s r' ∧
        a.graph.multigraph.dest s r' = a.graph.multigraph.dest s r ∧
          (r'.length : ℤ) + 1 ≤ MPathConfig.MAX_PATH_DIST) ∧
      (o.visit a.starts).IsChain fun s s' => ∀ r, a.Covered s r → ∃ r', a.Covered s' r' ∧
        a.graph.multigraph.dest s' r' = a.graph.multigraph.dest s r ∧ r'.length < r.length) ∧
    (Selects ((MPathAlgoCovLongN2N.genPath o a).eval MPathAlgoCovLongN2N.new)
        ((MPathAlgoCovAll.genPath o' a).eval MPathAlgoCovAll.new)
        (fun qs p => ∀ q ∈ qs, q.states.head? = p.states.head? →
          q.states.getLast? = p.states.getLast? → q.states.length ≤ p.states.length) ↔
      (o.visit a.starts).IsChain fun s s' => ∀ r, a.Covered s r → ∃ r', a.Covered s' r' ∧
        a.graph.multigraph.dest s' r' = a.graph.multigraph.dest s r ∧ r.length < r'.length) := by
  have h : a.graph.Wf := hg ▸ MGraph.wf_ofEdges es
  have hno := Args.not_isThrough hstate hstep
  have hshort := selects_pairs_iff h hr hno (guarded_shortest h hno hstop) o o'
  have hlong := selects_pairs_iff h hr hno (R := longest)
    (fun _ r _ _ _ => MPathAlgoCovLong.allowed _ r) o o'
  have hsight : InSight a longest := fun s r hs =>
    ⟨r, hs, rfl, by simp only [longest, MPathConfig.MIN_PATH_DIST, decide_eq_true_eq]; omega⟩
  rw [and_iff_right hsight] at hlong
  unfold BestPair Beaten at hshort hlong
  unfold InSight at hshort
  simp only [shortest, longest, decide_eq_true_eq, decide_eq_false_iff_not, not_le, Nat.cast_le,
    add_lt_add_iff_right, Nat.cast_lt] at hshort hlong
  exact ⟨hshort, hlong⟩

/-- `A → T ← B`. -/
def forkEdges : List EdgeCall := [⟨"A", "T", "left", 1, 1⟩, ⟨"B", "T", "right", 2, 1⟩]

/-- From `A` and from `B` to `T`. -/
def forkArgs : Args where
  graph := .ofEdges forkEdges
  startStateNameList := some ["A", "B"]
  stopStateNameList := some ["T"]
  throughStateNameList := none
  throughStepNameList := none
  routeList := some []

theorem isNamed_forkArgs : ∃ n, forkArgs.graph.IsNamed forkArgs.stopStateNameList n :=
  ⟨1, "T", by decide, by decide⟩

theorem genPath_selects_pairs_iff_fork :
    (Selects ((MPathAlgoCovShortN2N.genPath .insertion forkArgs).eval MPathAlgoCovShortN2N.new)
        ((MPathAlgoCovAll.genPath .insertion forkArgs).eval MPathAlgoCovAll.new)
        (fun qs p => ∀ q ∈ qs, q.states.head? = p.states.head? →
          q.states.getLast? = p.states.getLast? → p.states.length ≤ q.states.length) ↔
      (∀ s r, forkArgs.Covered s r → ∃ r', forkArgs.Covered s r' ∧
        forkArgs.graph.multigraph.dest s r' = forkArgs.graph.multigraph.dest s r ∧
          (r'.length : ℤ) + 1 ≤ MPathConfig.MAX_PATH_DIST) ∧
      (VisitOrder.insertion.visit forkArgs.starts).IsChain fun s s' => ∀ r, forkArgs.Covered s r →
        ∃ r', forkArgs.Covered s' r' ∧
          forkArgs.graph.multigraph.dest s' r' = forkArgs.graph.multigraph.dest s r ∧
            r'.length < r.length) ∧
    (Selects ((MPathAlgoCovLongN2N.genPath .insertion forkArgs).eval MPathAlgoCovLongN2N.new)
        ((MPathAlgoCovAll.genPath .insertion forkArgs).eval MPathAlgoCovAll.new)
        (fun qs p => ∀ q ∈ qs, q.states.head? = p.states.head? →
          q.states.getLast? = p.states.getLast? → q.states.length ≤ p.states.length) ↔
      (VisitOrder.insertion.visit forkArgs.starts).IsChain fun s s' => ∀ r, forkArgs.Covered s r →
        ∃ r', forkArgs.Covered s' r' ∧
          forkArgs.graph.multigraph.dest s' r' = forkArgs.graph.multigraph.dest s r ∧
            r.length < r'.length) :=
  genPath_selects_pairs_iff forkEdges forkArgs rfl (fun _ h => nomatch h) isNamed_forkArgs rfl rfl
    _ _

/-- The path of the first start state is given out in both rounds. -/
theorem genPath_repeats :
    ¬ Selects ((MPathAlgoCovShortN2N.genPath .insertion forkArgs).eval MPathAlgoCovShortN2N.new)
        ((MPathAlgoCovAll.genPath .insertion forkArgs).eval MPathAlgoCovAll.new)
        (fun qs p => ∀ q ∈ qs, q.states.head? = p.states.head? →
          q.states.getLast? = p.states.getLast? → p.states.length ≤ q.states.length) ∧
    ¬ Selects ((MPathAlgoCovLongN2N.genPath .insertion forkArgs).eval MPathAlgoCovLongN2N.new)
        ((MPathAlgoCovAll.genPath .insertion forkArgs).eval MPathAlgoCovAll.new)
        (fun qs p => ∀ q ∈ qs, q.states.head? = p.states.head? →
          q.states.getLast? = p.states.getLast? → q.states.length ≤ p.states.length) := by
  have hshort : (MPathAlgoCovShortN2N.genPath .insertion forkArgs).eval MPathAlgoCovShortN2N.new =
      some (.ofPaths [⟨[0, 1], [1], [1]⟩, ⟨[0, 1], [1], [1]⟩, ⟨[2, 1], [2], [2]⟩]) := by
    decide +kernel
  have hlong : (MPathAlgoCovLongN2N.genPath .insertion forkArgs).eval MPathAlgoCovLongN2N.new =
      some (.ofPaths [⟨[0, 1], [1], [1]⟩, ⟨[0, 1], [1], [1]⟩, ⟨[2, 1], [2], [2]⟩]) := by
    decide +kernel
  rw [hshort, hlong]
  constructor <;> rintro ⟨ps, -, hps, -, hnd, -⟩ <;>
    obtain rfl := PathLists.ofPaths_injective (Option.some.inj hps) <;>
    exact absurd hnd (by decide)

end CovN2N

end MBT
