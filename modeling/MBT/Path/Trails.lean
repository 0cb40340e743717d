import MBT.Path.CovRepeat

/-!
# Path — Trails

`MPathAlgoCovRepeat`, for the trails from the start states.

* `genPath_eq_trails`: with stop states, `genPath` returns each trail to one of them once.
* `genPath_returnsTrails_iff`: without, it returns each trail that cannot be extended once exactly
  when no state without edges can be reached.
* `not_returnsTrails_edge`: a trail that is returned twice.
-/

namespace MBT
open Exec Multigraph MPathAlgo

namespace MPathAlgoCovRepeat

/-! ### Which trails are returned -/

section Returned

variable {a : Args} {o : VisitOrder ℤ} {s : ℤ} {r : List (ℤ × ℕ)}

/-- How often the search records the trail `r` from `s`. -/
def times (a : Args) (s : ℤ) (r : List (ℤ × ℕ)) : ℕ :=
  recorded a.graph.multigraph a.stop a.leaves
    (r.foldl (Cfg.step a.graph.multigraph) ⟨s, fun _ => 1, fun _ => 0, 1⟩)

/-- The trails of a round are those that are recorded at least once. -/
theorem mem_trailsFrom :
    r ∈ trailsFrom a s ↔ a.graph.multigraph.IsTrail s r ∧ 0 < times a s r := by
  rw [trailsFrom, mem_roam (rank_one _ s), ← isWalk_one]
  rfl

/-- How often a trail is recorded. -/
theorem count_trailsFrom (h : a.graph.multigraph.IsTrail s r) :
    (trailsFrom a s).count r = times a s r := by
  rw [trailsFrom, count_roam (rank_one _ s) (isWalk_one.mpr h)]
  rfl

/-- A trail has used up the edges of its end where no unused edge can extend it. -/
theorem spent_iff : (r.foldl (Cfg.step a.graph.multigraph) ⟨s, fun _ => 1, fun _ => 0, 1⟩).spent
    a.graph.multigraph = true ↔ ∀ i < a.graph.multigraph.deg (a.graph.multigraph.dest s r),
      (a.graph.multigraph.dest s r, i) ∈ r := by
  rw [Cfg.spent, List.all_eq_true]
  simp only [List.mem_range, decide_eq_true_eq, state_foldl_step, left_foldl_step]
  refine forall₂_congr fun i _ => ?_
  rw [← List.count_pos_iff]
  omega

/-- With stop states, a trail is recorded in each of these. -/
theorem times_of_stop (h : a.leaves = false) :
    times a s r = if a.stop (a.graph.multigraph.dest s r) then 1 else 0 := by
  rw [times, recorded, h, state_foldl_step]
  simp

/-- Without, a trail is recorded where no unused edge extends it, and again where no edge leaves
its end. -/
theorem times_of_leaves (h : a.leaves = true) (hstop : ∀ n, a.stop n = false) :
    times a s r = (if a.graph.multigraph.deg (a.graph.multigraph.dest s r) = 0 then 1 else 0) +
      if (r.foldl (Cfg.step a.graph.multigraph) ⟨s, fun _ => 1, fun _ => 0, 1⟩).spent
        a.graph.multigraph then 1 else 0 := by
  rw [times, recorded, h, hstop, state_foldl_step]
  simp

/-- What the rounds of a call find. -/
theorem mem_found (h : a.graph.Wf) : (s, r) ∈ found o a ↔
    a.graph.IsStart a.startStateNameList s ∧ a.graph.multigraph.IsTrail s r ∧ 0 < times a s r := by
  simp only [found, List.mem_flatMap, List.mem_map, Prod.mk.injEq, ← Args.mem_starts h,
    ← mem_trailsFrom]
  constructor
  · rintro ⟨s, hs, r, hr, rfl, rfl⟩
    exact ⟨o.mem_visit.mp hs, hr⟩
  · rintro ⟨hs, hr⟩
    exact ⟨s, o.mem_visit.mpr hs, r, hr, rfl, rfl⟩

/-- The pairs are different exactly where the search from each start state records no trail
twice. -/
theorem nodup_found : (found o a).Nodup ↔
    ∀ s ∈ o.visit a.starts, ∀ r, a.graph.multigraph.IsTrail s r → times a s r ≤ 1 := by
  have heach : ∀ s, ((trailsFrom a s).map (s, ·)).Nodup ↔
      ∀ r, a.graph.multigraph.IsTrail s r → times a s r ≤ 1 := fun s => by
    rw [List.nodup_map_iff fun _ _ e => (Prod.mk.inj e).2, List.nodup_iff_count_le_one]
    refine forall_congr' fun r => ?_
    by_cases hr : a.graph.multigraph.IsTrail s r
    · rw [count_trailsFrom hr, forall_prop_of_true hr]
    · refine iff_of_true ?_ fun h => absurd h hr
      rw [List.count_eq_zero_of_not_mem fun hm => hr (mem_trailsFrom.mp hm).1]
      exact Nat.zero_le 1
  rw [found, List.nodup_flatMap]
  simp only [heach]
  refine and_iff_left ((o.nodup_visit a.starts).imp fun {s s'} hne => ?_)
  rintro ⟨t, r⟩ h h'
  obtain ⟨_, -, e⟩ := List.mem_map.mp h
  obtain ⟨_, -, e'⟩ := List.mem_map.mp h'
  exact hne ((Prod.mk.inj e).1.trans (Prod.mk.inj e').1.symm)

end Returned

end MPathAlgoCovRepeat

/-- `r` is a trail from `s` to a stop state, within the names that the arguments of a call give. -/
structure Args.CoversTrail (a : Args) (s : ℤ) (r : List (ℤ × ℕ)) : Prop where
  start : a.graph.IsStart a.startStateNameList s
  trail : a.graph.multigraph.IsTrail s r
  ends : a.graph.IsNamed a.stopStateNameList (a.graph.multigraph.dest s r)
  visits : ∀ n, a.graph.IsNamed a.throughStateNameList n →
    ∃ n ∈ s :: r.map a.graph.multigraph.dst, a.graph.IsNamed a.throughStateNameList n
  uses : ∀ t, a.graph.IsNamedStep a.throughStepNameList t →
    ∃ t ∈ r.map a.graph.stepNumber, a.graph.IsNamedStep a.throughStepNameList t

namespace MPathAlgoCovRepeat

section Stops

variable {a : Args} {s : ℤ} {r : List (ℤ × ℕ)}

/-- An expansion holds the edges of its trail. -/
theorem mem_expand (h : a.graph.Wf) (hr : a.graph.multigraph.Chained s r) {p : ℤ × ℕ} :
    p ∈ a.graph.expand r ↔ p ∈ r := by
  rw [MGraph.expand, List.mem_flatMap]
  constructor
  · rintro ⟨q, hq, hp⟩
    exact List.eq_of_mem_replicate hp ▸ hq
  · intro hp
    have hpos := MGraph.budget_ne_zero h (MGraph.isEdge_of_chained hr p hp)
    exact ⟨p, hp, List.mem_replicate.mpr ⟨hpos, rfl⟩⟩

/-- The path of a trail passes the filters when the trail does. -/
theorem passes_trailPath (h : a.graph.Wf) (hr : a.graph.multigraph.Chained s r) :
    passes a (trailPath a.graph s r) = true ↔
    (∀ n, a.graph.IsNamed a.throughStateNameList n →
      ∃ n ∈ s :: r.map a.graph.multigraph.dst, a.graph.IsNamed a.throughStateNameList n) ∧
    ∀ t, a.graph.IsNamedStep a.throughStepNameList t →
      ∃ t ∈ r.map a.graph.stepNumber, a.graph.IsNamedStep a.throughStepNameList t := by
  rw [trailPath, Args.passes_pathOf h]
  simp only [List.mem_cons, List.mem_map, mem_expand h hr]

/-- A search has stop states when a name among them is known. -/
theorem stopped_iff (h : a.graph.Wf) :
    a.leaves = false ↔ ∃ n, a.graph.IsNamed a.stopStateNameList n := by
  rw [← Bool.not_eq_true, Args.leaves_iff h]
  push Not
  rfl

/-- With stop states, the trails that are returned are the ones to these. -/
theorem mem_covered_of_stop (h : a.graph.Wf) (hstop : ∃ n, a.graph.IsNamed a.stopStateNameList n)
    {o : VisitOrder ℤ} : (s, r) ∈ covered o a ↔ a.CoversTrail s r := by
  rw [covered, List.mem_filter, mem_found h, times_of_stop ((stopped_iff h).mpr hstop)]
  constructor
  · rintro ⟨⟨hs, ht, htimes⟩, hpass⟩
    obtain ⟨hv, hu⟩ := (passes_trailPath h ht.chained).mp hpass
    refine ⟨hs, ht, (Args.stop_iff h).mp ?_, hv, hu⟩
    by_contra hn
    rw [if_neg hn] at htimes
    exact lt_irrefl 0 htimes
  · rintro ⟨hs, ht, he, hv, hu⟩
    refine ⟨⟨hs, ht, ?_⟩, (passes_trailPath h ht.chained).mpr ⟨hv, hu⟩⟩
    rw [if_pos ((Args.stop_iff h).mpr he)]
    exact one_pos

/-- **With stop states, CovRepeat finds all trails to these.**  Each of them is returned once, as
its expansion in the three lists, also where another goes on from its end. -/
theorem genPath_eq_trails (es : List EdgeCall) (a : Args) (hg : a.graph = .ofEdges es)
    (hr : a.CovsNamed) (hstop : ∃ n, a.graph.IsNamed a.stopStateNameList n) (o : VisitOrder ℤ) :
    ∃ rs : List (ℤ × List (ℤ × ℕ)),
      (genPath o a).eval new = some (.ofPaths (rs.map fun x => trailPath a.graph x.1 x.2)) ∧
        rs.Nodup ∧ (∀ s r, (s, r) ∈ rs ↔ a.CoversTrail s r) ∧
          ∀ s r q, (s, r) ∈ rs → q <+: r →
            a.graph.IsNamed a.stopStateNameList (a.graph.multigraph.dest s q) →
            passes a (trailPath a.graph s q) = true → (s, q) ∈ rs := by
  have h : a.graph.Wf := hg ▸ MGraph.wf_ofEdges es
  obtain ⟨l, hrun⟩ := run_genPath h hr o new
  have hmem : ∀ s r, (s, r) ∈ covered o a ↔ a.CoversTrail s r := fun s r =>
    mem_covered_of_stop h hstop
  have hfound : (found o a).Nodup := nodup_found.mpr fun s _ r _ => by
    rw [times_of_stop ((stopped_iff h).mpr hstop)]
    split
    · exact le_rfl
    · exact Nat.zero_le 1
  refine ⟨covered o a, Prog.eval_ok hrun, hfound.filter _, hmem, ?_⟩
  rintro s r q hsr ⟨t, rfl⟩ hq hpass
  obtain ⟨hs, ht, -, -, -⟩ := (hmem s _).mp hsr
  have htq : a.graph.multigraph.IsTrail s q :=
    ⟨((a.graph.multigraph.chained_append).mp ht.chained).1, (List.nodup_append.mp ht.nodup).1⟩
  obtain ⟨hv, hu⟩ := (passes_trailPath h htq.chained).mp hpass
  exact (hmem s q).mpr ⟨hs, htq, hq, hv, hu⟩

/-- From `S` to `T`, where the detour from `A` may follow. -/
def throughArgs : Args where
  graph := .ofEdges [⟨"S", "A", "enter", 1, 2⟩, ⟨"A", "T", "finish", 2, 1⟩, ⟨"T", "A", "again", 3, 1⟩]
  startStateNameList := some ["S"]
  stopStateNameList := some ["A"]
  throughStateNameList := none
  throughStepNameList := none
  routeList := some []

theorem genPath_eq_trails_through :
    ∃ rs : List (ℤ × List (ℤ × ℕ)),
      (genPath .insertion throughArgs).eval new =
          some (.ofPaths (rs.map fun x => trailPath throughArgs.graph x.1 x.2)) ∧
        rs.Nodup ∧ (∀ s r, (s, r) ∈ rs ↔ throughArgs.CoversTrail s r) ∧
          ∀ s r q, (s, r) ∈ rs → q <+: r →
            throughArgs.graph.IsNamed throughArgs.stopStateNameList
              (throughArgs.graph.multigraph.dest s q) →
            passes throughArgs (trailPath throughArgs.graph s q) = true → (s, q) ∈ rs :=
  genPath_eq_trails _ throughArgs rfl (fun _ h => nomatch h) ⟨1, "A", by decide, by decide +kernel⟩
    .insertion

example : ((genPath .insertion throughArgs).eval new).map PathLists.edgePath =
    some [[1, 1], [1, 1, 2, 3]] := by decide +kernel

end Stops

/-! ### Without stop states -/

section Leaves

variable {a : Args} {o : VisitOrder ℤ}

/-- `EDGE_PATH` holds the expansion of each trail from a start state that no unused edge can
extend, once for each, and nothing else. -/
def ReturnsTrails (a : Args) (ret : Option PathLists) : Prop :=
  ∃ (l : PathLists) (rs : List (ℤ × List (ℤ × ℕ))), ret = some l ∧ rs.Nodup ∧
    (∀ s r, (s, r) ∈ rs ↔
      a.graph.IsStart a.startStateNameList s ∧ a.graph.multigraph.IsMaxTrail s r) ∧
    l.edgePath.Perm (rs.map fun x => (a.graph.expand x.2).map a.graph.edgeNumber)

/-- No state without edges can be reached from a start state. -/
def NoSink (a : Args) : Prop :=
  ∀ s r, a.graph.IsStart a.startStateNameList s → a.graph.multigraph.Chained s r →
    a.graph.multigraph.deg (a.graph.multigraph.dest s r) ≠ 0

/-- Without stop states, the trails that are found are the maximal ones. -/
theorem mem_found_of_leaves (h : a.graph.Wf) (hl : a.leaves = true) (hstop : ∀ n, a.stop n = false)
    {s : ℤ} {r : List (ℤ × ℕ)} : (s, r) ∈ found o a ↔
      a.graph.IsStart a.startStateNameList s ∧ a.graph.multigraph.IsMaxTrail s r := by
  rw [mem_found h, times_of_leaves hl hstop]
  refine and_congr_right fun _ => ?_
  constructor
  · rintro ⟨ht, htimes⟩
    refine ⟨ht, fun i hi => ?_⟩
    by_contra hn
    rw [if_neg (by omega), if_neg fun hs => hn (spent_iff.mp hs i hi)] at htimes
    exact lt_irrefl 0 htimes
  · rintro ⟨ht, hfull⟩
    refine ⟨ht, ?_⟩
    rw [if_pos (spent_iff.mpr hfull)]
    exact Nat.succ_pos _

/-- Without stop states no trail is found twice exactly when no sink can be reached. -/
theorem nodup_found_of_leaves (h : a.graph.Wf) (hl : a.leaves = true)
    (hstop : ∀ n, a.stop n = false) : (found o a).Nodup ↔ NoSink a := by
  rw [nodup_found]
  constructor
  · intro hn s r hs hr hdeg
    obtain ⟨r', ht, e⟩ := exists_trail hr
    have hle := hn s (o.mem_visit.mpr ((Args.mem_starts h).mpr hs)) r' ht
    rw [times_of_leaves hl hstop, e, if_pos hdeg, if_pos (spent_iff.mpr fun i hi => ?_)] at hle
    · exact absurd hle (by decide)
    · rw [e, hdeg] at hi
      exact absurd hi (Nat.not_lt_zero i)
  · intro hn s hs r ht
    have hstart := (Args.mem_starts h).mp (o.mem_visit.mp hs)
    rw [times_of_leaves hl hstop, if_neg (hn s r hstart ht.chained)]
    split
    · exact le_rfl
    · exact Nat.zero_le 1

/-- Without stop states and through lists each maximal trail comes once exactly when no sink can be
reached. -/
theorem returnsTrails_iff (h : a.graph.Wf) (hr : a.CovsNamed)
    (hstop : ∀ n, ¬ a.graph.IsNamed a.stopStateNameList n)
    (hstates : ∀ n, ¬ a.graph.IsNamed a.throughStateNameList n)
    (hsteps : ∀ t, ¬ a.graph.IsNamedStep a.throughStepNameList t) :
    ReturnsTrails a ((genPath o a).eval new) ↔ NoSink a := by
  obtain ⟨l, hrun⟩ := run_genPath h hr o new
  have hl : a.leaves = true := (Args.leaves_iff h).mpr hstop
  have hno : ∀ n, a.stop n = false := fun n =>
    Bool.eq_false_iff.mpr fun hn => hstop n ((Args.stop_iff h).mp hn)
  have hmem : ∀ s r, (s, r) ∈ found o a ↔
      a.graph.IsStart a.startStateNameList s ∧ a.graph.multigraph.IsMaxTrail s r := fun s r =>
    mem_found_of_leaves h hl hno
  -- the filters keep all
  have hall : covered o a = found o a := List.filter_eq_self.mpr fun x hx =>
    (passes_trailPath h ((hmem x.1 x.2).mp hx).2.chained).mpr
      ⟨fun n hn => absurd hn (hstates n), fun t ht => absurd ht (hsteps t)⟩
  have hedge : (PathLists.ofPaths (paths a (found o a))).edgePath =
      (found o a).map fun x => (a.graph.expand x.2).map a.graph.edgeNumber := by
    simp [PathLists.ofPaths, paths, trailPath, MGraph.pathOf, MGraph.extend, Function.comp_def]
  rw [Prog.eval_ok hrun, hall, ← nodup_found_of_leaves (o := o) h hl hno]
  constructor
  · rintro ⟨l, rs, hret, hrs, hiff, hperm⟩
    cases hret
    rw [hedge] at hperm
    have hlen : (found o a).length = rs.length := by simpa using hperm.length_eq
    have hsame : ∀ x, x ∈ rs ↔ x ∈ found o a := fun x => (hiff x.1 x.2).trans (hmem x.1 x.2).symm
    exact (List.subperm_of_subset hrs fun x hx => (hsame x).mp hx).perm_of_length_le hlen.le
      |>.nodup_iff.mp hrs
  · intro hn
    exact ⟨_, found o a, rfl, hn, hmem, hedge ▸ .refl _⟩

/-- **Without stop states, a trail to a state without edges is returned twice.**  With neither stop
states nor through lists, the expansion of each trail from a start state that no unused edge can
extend is returned, once for each, exactly when no state without edges can be reached. -/
theorem genPath_returnsTrails_iff (es : List EdgeCall) (a : Args) (hg : a.graph = .ofEdges es)
    (hr : a.CovsNamed) (hstop : ∀ n, ¬ a.graph.IsNamed a.stopStateNameList n)
    (hstates : ∀ n, ¬ a.graph.IsNamed a.throughStateNameList n)
    (hsteps : ∀ t, ¬ a.graph.IsNamedStep a.throughStepNameList t) (o : VisitOrder ℤ) :
    ReturnsTrails a ((genPath o a).eval new) ↔ NoSink a :=
  returnsTrails_iff (hg ▸ MGraph.wf_ofEdges es) hr hstop hstates hsteps

/-- A single edge, from `S` to `T`. -/
def edgeArgs : Args where
  graph := .ofEdges [⟨"S", "T", "go", 1, 1⟩]
  startStateNameList := some ["S"]
  stopStateNameList := none
  throughStateNameList := none
  throughStepNameList := none
  routeList := some []

theorem genPath_returnsTrails_iff_edge :
    ReturnsTrails edgeArgs ((genPath .insertion edgeArgs).eval new) ↔ NoSink edgeArgs :=
  genPath_returnsTrails_iff _ edgeArgs rfl (fun _ h => nomatch h) (fun _ ⟨_, h, _⟩ => nomatch h)
    (fun _ ⟨_, h, _⟩ => nomatch h) (fun _ ⟨_, h, _⟩ => nomatch h) .insertion

/-- The one trail from `S` is returned twice. -/
theorem not_returnsTrails_edge :
    (genPath .insertion edgeArgs).eval new =
        some (.ofPaths [⟨[0, 1], [1], [1]⟩, ⟨[0, 1], [1], [1]⟩]) ∧
      ¬ ReturnsTrails edgeArgs ((genPath .insertion edgeArgs).eval new) := by
  have hsink : ¬ NoSink edgeArgs := fun h =>
    h 0 [(0, 0)] ⟨"S", by decide, by decide +kernel⟩ ⟨rfl, by decide +kernel, trivial⟩
      (by decide +kernel)
  refine ⟨by decide +kernel, fun hret => hsink ?_⟩
  exact (returnsTrails_iff (a := edgeArgs) (MGraph.wf_ofEdges _) (fun _ h => nomatch h)
    (fun _ ⟨_, h, _⟩ => nomatch h) (fun _ ⟨_, h, _⟩ => nomatch h)
    (fun _ ⟨_, h, _⟩ => nomatch h)).mp hret

end Leaves

end MPathAlgoCovRepeat

end MBT
