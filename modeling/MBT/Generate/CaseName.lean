import MBT.Support.Text

/-!
# Generate — CaseName

The name of a case: the name of its scenario, and an underscore and a number for each edge of its
path.

* `getStepPathName_eq`: two cases have one name exactly when the longer scenario name is the
  shorter one followed by the edges that its path has at the front.
* `takeWhile_append`: what stands before the first underscore.
-/

namespace MBT

/-- `pathInfo` of `MGenDocMap.getStepPathName`. -/
def pathInfo (edgePath : List ℤ) : String := String.join (edgePath.map fun e => "_" ++ e.repr)

/-- The name of a case: the scenario's, then the numbers of the edges. -/
def getStepPathName (scenarioName : String) (edgePath : List ℤ) : String :=
  scenarioName ++ pathInfo edgePath

namespace CaseName
open Text

theorem pathInfo_cons (e : ℤ) (p : List ℤ) : pathInfo (e :: p) = "_" ++ e.repr ++ pathInfo p := by
  rw [pathInfo, List.map_cons, String.join_cons, ← pathInfo]

theorem pathInfo_append (p q : List ℤ) : pathInfo (p ++ q) = pathInfo p ++ pathInfo q := by
  induction p with
  | nil => exact (String.empty_append ..).symm
  | cons e p ih => rw [List.cons_append, pathInfo_cons, pathInfo_cons, ih, String.append_assoc,
    String.append_assoc, String.append_assoc]

theorem toList_pathInfo_cons (e : ℤ) (p : List ℤ) :
    (pathInfo (e :: p)).toList = '_' :: (e.repr.toList ++ (pathInfo p).toList) := by
  rw [pathInfo_cons, String.toList_append, String.toList_append]
  rfl

/-- A number holds no underscore. -/
theorem underscore_not_mem_repr (e : ℤ) : '_' ∉ e.repr.toList := by
  intro h
  rcases eq_or_isDigit_of_mem_repr h with h | h
  · cases h
  · cases h

/-- What can follow a part of a name: nothing, or an underscore and more. -/
def Follows (u : List Char) : Prop := u = [] ∨ u.head? = some '_'

/-- What follows a name starts with an underscore, if it is not empty. -/
theorem follows_pathInfo (p : List ℤ) : Follows (pathInfo p).toList := by
  cases p with
  | nil => exact .inl rfl
  | cons e p => rw [toList_pathInfo_cons]; exact .inr rfl

/-- What stands before the first underscore. -/
theorem takeWhile_append {s u : List Char} (hs : '_' ∉ s) (hu : Follows u) :
    (s ++ u).takeWhile (· ≠ '_') = s := by
  have hall : ∀ c ∈ s, decide (c ≠ '_') = true := by
    intro c hc
    refine decide_eq_true ?_
    rintro rfl
    exact hs hc
  rw [List.takeWhile_append_of_pos hall]
  rcases hu with rfl | hu
  · rw [List.takeWhile_nil, List.append_nil]
  · cases u with
    | nil => cases hu
    | cons c u =>
      cases hu
      rw [List.takeWhile_cons, if_neg (by decide), List.append_nil]

/-- Two parts without underscores are told apart by what follows them. -/
theorem append_inj {s t u v : List Char} (hs : '_' ∉ s) (ht : '_' ∉ t) (hu : Follows u)
    (hv : Follows v) (h : s ++ u = t ++ v) : s = t ∧ u = v := by
  have hst : s = t := by rw [← takeWhile_append hs hu, h, takeWhile_append ht hv]
  exact ⟨hst, List.append_cancel_left (hst ▸ h)⟩

/-- The numbers can be read off the text. -/
theorem pathInfo_injective {p q : List ℤ} (h : pathInfo p = pathInfo q) : p = q := by
  induction p generalizing q with
  | nil =>
    cases q with
    | nil => rfl
    | cons f q => exact absurd (congrArg String.toList h) (by rw [toList_pathInfo_cons]; exact nofun)
  | cons e p ih =>
    cases q with
    | nil => exact absurd (congrArg String.toList h) (by rw [toList_pathInfo_cons]; exact nofun)
    | cons f q =>
      have hlist := congrArg String.toList h
      rw [toList_pathInfo_cons, toList_pathInfo_cons, List.cons.injEq] at hlist
      obtain ⟨he, hp⟩ := append_inj (underscore_not_mem_repr e) (underscore_not_mem_repr f)
        (follows_pathInfo p) (follows_pathInfo q) hlist.2
      rw [int_repr_injective (String.toList_inj.mp he), ih (String.toList_inj.mp hp)]

/-- A text before the edges of a path is itself edges when both together are. -/
theorem exists_of_append_eq {r : String} {p q : List ℤ} (h : r ++ pathInfo q = pathInfo p) :
    ∃ p', r = pathInfo p' ∧ p = p' ++ q := by
  induction p generalizing r with
  | nil =>
    have hlist := congrArg String.toList h
    rw [String.toList_append] at hlist
    obtain ⟨hr, hq⟩ := List.append_eq_nil_iff.mp hlist
    have hq' : q = [] := by
      cases q with
      | nil => rfl
      | cons f q => rw [toList_pathInfo_cons] at hq; cases hq
    exact ⟨[], String.toList_inj.mp hr, hq'.symm⟩
  | cons e p ih =>
    cases hr : r.toList with
    | nil =>
      have hr' : r = "" := String.toList_inj.mp hr
      rw [hr', String.empty_append] at h
      exact ⟨[], hr', (pathInfo_injective h).symm⟩
    | cons c r' =>
      have hlist := congrArg String.toList h
      rw [String.toList_append, hr, toList_pathInfo_cons, List.cons_append, List.cons.injEq] at hlist
      obtain ⟨rfl, hlist⟩ := hlist
      -- the number ends where the rest of the text has its next underscore
      have hcut := List.takeWhile_append_dropWhile (p := (· ≠ '_')) (l := r')
      rw [← hcut, List.append_assoc] at hlist
      have hnot : '_' ∉ r'.takeWhile (· ≠ '_') := fun hmem => absurd (List.mem_takeWhile_imp hmem) (by simp)
      have hfollows : Follows (r'.dropWhile (· ≠ '_') ++ (pathInfo q).toList) := by
        cases hdrop : r'.dropWhile (· ≠ '_') with
        | nil => exact follows_pathInfo q
        | cons d u =>
          have hhead := List.head?_dropWhile_not (p := (· ≠ '_')) (l := r')
          rw [hdrop] at hhead
          exact .inr (by simpa using hhead)
      obtain ⟨he, hrest⟩ := append_inj hnot (underscore_not_mem_repr e) hfollows (follows_pathInfo p) hlist
      obtain ⟨p', hp', rfl⟩ := ih (r := String.ofList (r'.dropWhile (· ≠ '_')))
        (String.toList_inj.mp (by rw [String.toList_append, String.toList_ofList, hrest]))
      refine ⟨e :: p', String.toList_inj.mp ?_, rfl⟩
      rw [hr, toList_pathInfo_cons, ← hp', String.toList_ofList, ← he, hcut]

/-- **When two cases have one name.**  Two pairs of a scenario name and a path give one case name
exactly when the longer scenario name is the shorter one with the edges that the path of the shorter
one has at its front, and the paths go on alike. -/
theorem getStepPathName_eq {s t : String} {p q : List ℤ} :
    getStepPathName s p = getStepPathName t q ↔
      (∃ r, t = s ++ pathInfo r ∧ p = r ++ q) ∨ ∃ r, s = t ++ pathInfo r ∧ q = r ++ p := by
  constructor
  · intro h
    have hlist := congrArg String.toList h
    rw [getStepPathName, getStepPathName, String.toList_append, String.toList_append,
      List.append_eq_append_iff] at hlist
    rcases hlist with ⟨r, ht, hp⟩ | ⟨r, hs, hq⟩
    · obtain ⟨p', hr, hp'⟩ := exists_of_append_eq (r := String.ofList r) (p := p) (q := q)
        (String.toList_inj.mp (by rw [String.toList_append, String.toList_ofList, hp]))
      refine .inl ⟨p', String.toList_inj.mp ?_, hp'⟩
      rw [String.toList_append, ← hr, String.toList_ofList, ht]
    · obtain ⟨q', hr, hq'⟩ := exists_of_append_eq (r := String.ofList r) (p := q) (q := p)
        (String.toList_inj.mp (by rw [String.toList_append, String.toList_ofList, hq]))
      refine .inr ⟨q', String.toList_inj.mp ?_, hq'⟩
      rw [String.toList_append, ← hr, String.toList_ofList, hs]
  · rintro (⟨r, rfl, rfl⟩ | ⟨r, rfl, rfl⟩)
    · rw [getStepPathName, getStepPathName, pathInfo_append, String.append_assoc]
    · rw [getStepPathName, getStepPathName, pathInfo_append, String.append_assoc]

/-- Within one scenario, the name of a case tells its path. -/
theorem getStepPathName_injective (s : String) {p q : List ℤ}
    (h : getStepPathName s p = getStepPathName s q) : p = q :=
  pathInfo_injective ((String.append_right_inj s).mp h)

/-! ### The cases of several scenarios -/

/-- The names of all cases, for each scenario name with its paths. -/
def caseNames (scenarios : List (String × List (List ℤ))) : List String :=
  scenarios.flatMap fun s => s.2.map (getStepPathName s.1)

/-- **When no case overwrites another.**  For scenarios of different names, each with different
paths, the case names are all different exactly when no scenario name is another one followed by
edges that, before one of its paths, make a path of that other one. -/
theorem nodup_caseNames_iff (scenarios : List (String × List (List ℤ)))
    (hnames : (scenarios.map Prod.fst).Nodup) (hpaths : ∀ s ∈ scenarios, s.2.Nodup) :
    (caseNames scenarios).Nodup ↔
      ∀ s ∈ scenarios, ∀ t ∈ scenarios, ∀ r ≠ [], t.1 = s.1 ++ pathInfo r →
        ∀ q ∈ t.2, r ++ q ∉ s.2 := by
  rw [caseNames, List.nodup_flatMap]
  constructor
  · rintro ⟨-, hdisj⟩ s hs t ht r hr hst q hq hmem
    have hne : s ≠ t := by
      rintro rfl
      have hlen := congrArg String.length hst
      rw [String.length_append] at hlen
      obtain ⟨e, r, rfl⟩ := List.exists_cons_of_ne_nil hr
      rw [pathInfo_cons, String.length_append, String.length_append] at hlen
      have hone : "_".length = 1 := rfl
      omega
    have : Std.Symm (Function.onFun List.Disjoint fun s : String × List (List ℤ) =>
        s.2.map (getStepPathName s.1)) := ⟨fun _ _ h => h.symm⟩
    refine hdisj.forall hs ht hne (List.mem_map_of_mem hmem) ?_
    rw [getStepPathName_eq.mpr (.inl ⟨r, hst, rfl⟩)]
    exact List.mem_map_of_mem hq
  · intro h
    refine ⟨fun s hs => (hpaths s hs).map fun p q => getStepPathName_injective s.1, ?_⟩
    refine List.Pairwise.imp_of_mem ?_ (List.pairwise_map.mp hnames)
    intro s t hs ht hne x hx hy
    obtain ⟨p, hp, rfl⟩ := List.mem_map.mp hx
    obtain ⟨q, hq, hqp⟩ := List.mem_map.mp hy
    have hnil : ∀ {a b : String} {r : List ℤ}, b = a ++ pathInfo r → a ≠ b → r ≠ [] := by
      rintro a b r hb hab rfl
      exact hab (hb.trans (String.append_empty ..)).symm
    rcases getStepPathName_eq.mp hqp with ⟨r, hs', hq'⟩ | ⟨r, ht', hp'⟩
    · exact h t ht s hs r (hnil hs' hne.symm) hs' p hp (hq' ▸ hq)
    · exact h s hs t ht r (hnil ht' hne) ht' q hq (hp' ▸ hp)

/-- Two scenarios whose cases do not meet. -/
def payScenarios : List (String × List (List ℤ)) := [("pay", [[1, 2], [3]]), ("pay_1", [[3]])]

theorem nodup_caseNames_pay : (caseNames payScenarios).Nodup ↔
    ∀ s ∈ payScenarios, ∀ t ∈ payScenarios, ∀ r ≠ [], t.1 = s.1 ++ pathInfo r →
      ∀ q ∈ t.2, r ++ q ∉ s.2 :=
  nodup_caseNames_iff payScenarios (by decide) (by decide)

/-- The path `1, 2` of `pay` and the path `2` of `pay_1` give one name. -/
theorem not_nodup_caseNames : ¬ (caseNames [("pay", [[1, 2]]), ("pay_1", [[2]])]).Nodup := by
  decide

end CaseName

end MBT
