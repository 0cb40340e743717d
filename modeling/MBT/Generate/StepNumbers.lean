import MBT.Generate.MGenMbt
import MBT.Generate.MGenMbtXml

/-!
# Generate — StepNumbers

The numbers of the steps between the source, where they count the lines with an annotation, and the
step log, where the methods are sought by the numbers up to how many methods there are.

* `stepNumbers_eq`: the numbers that are written count from one, without gaps.
* `sorted_perm_iff`: the methods with a number are all found exactly when no number is greater than
  the number of methods.
* `logs_iff`: the step log has each of them once, in ascending order, exactly then.
-/

namespace MBT
open Exec Text

/-! ### The numbers that are written -/

namespace MGenMbt

/-- The numbers that `genMbt` writes, in the order of the lines. -/
def stepNumbers (n : Classes) : State → List String → List ℕ
  | _, [] => []
  | st, line :: userMbtLines =>
    match track n st line with
    | .ok (_, st') =>
      (if st'.stepIdx = st.stepIdx then [] else [st.stepIdx]) ++ stepNumbers n st' userMbtLines
    | .error _ => []

variable (n : Classes)

/-- A turn numbers one line or none. -/
theorem stepIdx_track {st st' : State} {line line' : String} (h : track n st line = .ok (line', st')) :
    st'.stepIdx = st.stepIdx ∨ st'.stepIdx = st.stepIdx + 1 := by
  rw [track] at h
  split at h
  · obtain ⟨r, -, h⟩ := bind_eq_ok.mp h
    cases h
    exact .inl rfl
  split at h
  · obtain ⟨r, -, h⟩ := bind_eq_ok.mp h
    cases h
    exact .inl rfl
  split at h
  · cases h
    exact .inr rfl
  split at h
  · cases h
    exact .inl rfl
  split at h
  · cases h
    exact .inl rfl
  · cases h
    exact .inl rfl

/-- The numbers count the lines, without gaps. -/
theorem stepNumbers_eq (st : State) (lines : List String) :
    stepNumbers n st lines = List.range' st.stepIdx (stepNumbers n st lines).length := by
  induction lines generalizing st with
  | nil => rfl
  | cons line lines ih =>
    rw [stepNumbers]
    split
    · rename_i line' st' htrack
      rcases stepIdx_track n htrack with h | h
      · rw [if_pos h, List.nil_append, ← h]
        exact ih st'
      · rw [if_neg (h ▸ Nat.succ_ne_self _), List.singleton_append, List.length_cons, List.range'_succ,
          ← h]
        exact congrArg _ (ih st')
    · rfl

/-- The numbers in a generated source are different. -/
theorem nodup_stepNumbers (st : State) (lines : List String) : (stepNumbers n st lines).Nodup := by
  rw [stepNumbers_eq]
  exact List.nodup_range'

/-- They are positive. -/
theorem pos_of_mem_stepNumbers {lines : List String} {k : ℕ}
    (h : k ∈ stepNumbers n State.init lines) : 0 < k := by
  rw [stepNumbers_eq] at h
  exact (List.mem_range'_1.mp h).1

end MGenMbt

/-! ### The numbers that are sought -/

namespace MGenMbtXml
open MGenMbt

/-- The method carries a number; without one, its number is `-1`. -/
def Numbered (m : Logged) : Prop := m.1.stepNumber ≠ -1

instance : DecidablePred Numbered := fun _ => inferInstanceAs (Decidable (_ ≠ _))

/-- The methods with the annotation of a step that the compiled class has: each number that was
written stands at one of them at most, the others have none. -/
def Compiles (n : Classes) (userMbtLines : List String) (ms : List Logged) : Prop :=
  ((ms.filter Numbered).map fun m => m.1.stepNumber).Subperm
    ((stepNumbers n State.init userMbtLines).map fun k : ℕ => (k : ℤ))

section Compiled

variable {n : Classes} {userMbtLines : List String} {ms : List Logged}

/-- The numbers of the compiled methods are different. -/
theorem Compiles.nodup (h : Compiles n userMbtLines ms) :
    ((ms.filter Numbered).map fun m => m.1.stepNumber).Nodup := by
  obtain ⟨l, hperm, hsub⟩ := h
  refine hperm.nodup_iff.mp (hsub.nodup ?_)
  exact (nodup_stepNumbers n State.init userMbtLines).map Nat.cast_injective

/-- They are positive. -/
theorem Compiles.pos (h : Compiles n userMbtLines ms) {m : Logged} (hm : m ∈ ms.filter Numbered) :
    0 < m.1.stepNumber := by
  obtain ⟨k, hk, hcast⟩ := List.mem_map.mp (h.subset (List.mem_map_of_mem hm))
  have hpos := pos_of_mem_stepNumbers n hk
  omega

/-- No method with a number comes twice. -/
theorem Compiles.nodup_filter (h : Compiles n userMbtLines ms) : (ms.filter Numbered).Nodup :=
  List.Nodup.of_map _ h.nodup

/-- A method that is found has a number, and no greater one than there are methods. -/
theorem mem_of_mem_sorted {m : Logged} (h : m ∈ sorted ms) :
    m ∈ ms.filter Numbered ∧ m.1.stepNumber ≤ ms.length := by
  have hnumber := List.mem_map_of_mem (f := fun m : Logged => m.1.stepNumber) h
  rw [sorted, map_sortMethods] at hnumber
  obtain ⟨i, hi, hnum⟩ := List.mem_map.mp (List.mem_filter.mp hnumber).1
  have hlt := List.mem_range.mp hi
  refine ⟨List.mem_filter.mpr ⟨mem_of_mem_sortMethods h, decide_eq_true ?_⟩, ?_⟩
  · rw [Numbered]
    omega
  · omega

/-- No method is invoked twice. -/
theorem nodup_sorted (ms : List Logged) : (sorted ms).Nodup := by
  refine List.Nodup.of_map (fun m : Logged => m.1.stepNumber) ?_
  rw [sorted, map_sortMethods]
  exact (nodup_numbers _).filter _

/-- The methods are invoked in the order of their numbers. -/
theorem pairwise_sorted (ms : List Logged) :
    (sorted ms).Pairwise fun a b => a.1.stepNumber < b.1.stepNumber := by
  have hlt : (numbers ms.length).Pairwise (· < ·) := by
    rw [numbers, List.pairwise_map]
    refine List.pairwise_lt_range.imp ?_
    intro i j hij
    omega
  rw [← List.pairwise_map (f := fun m : Logged => m.1.stepNumber) (R := (· < ·)), sorted,
    map_sortMethods]
  exact hlt.filter _

/-- The methods with a number are all found exactly when no number is greater than the number of
methods. -/
theorem sorted_perm_iff (h : Compiles n userMbtLines ms) :
    (sorted ms).Perm (ms.filter Numbered) ↔ ∀ m ∈ ms, m.1.stepNumber ≤ ms.length := by
  constructor
  · intro hperm m hm
    by_cases hnum : Numbered m
    · have hmem : m ∈ ms.filter Numbered := by
        rw [List.mem_filter]
        exact ⟨hm, decide_eq_true hnum⟩
      exact (mem_of_mem_sorted (hperm.mem_iff.mpr hmem)).2
    · have hnone : m.1.stepNumber = -1 := not_not.mp hnum
      omega
  · intro hle
    refine (List.perm_ext_iff_of_nodup (nodup_sorted ms) h.nodup_filter).mpr fun m =>
      ⟨fun hm => (mem_of_mem_sorted hm).1, fun hm => ?_⟩
    · -- its number is sought, and no other method has it
      have hpos := h.pos hm
      have hbound := hle m (List.mem_filter.mp hm).1
      have hsought : m.1.stepNumber ∈ (sorted ms).map fun m => m.1.stepNumber := by
        rw [sorted, map_sortMethods, List.mem_filter]
        refine ⟨List.mem_map.mpr ⟨(m.1.stepNumber - 1).toNat, List.mem_range.mpr ?_, ?_⟩,
          decide_eq_true (List.mem_map_of_mem (List.mem_filter.mp hm).1)⟩ <;> omega
      obtain ⟨m', hm', heq⟩ := List.mem_map.mp hsought
      rw [← List.inj_on_of_nodup_map h.nodup (mem_of_mem_sorted hm').1 hm heq]
      exact hm'

/-! ### The step log -/

/-- What the methods leave in the log, one after another. -/
def logOf (ms : List Logged) : Option String :=
  if ms = [] then none else some (text (ms.flatMap recordLines))

/-- Each method with a number is logged once, in ascending order of the numbers. -/
def Logs (ms : List Logged) : Prop :=
  ∃ q : List Logged, q.Perm (ms.filter Numbered) ∧
    q.Pairwise (fun a b => a.1.stepNumber < b.1.stepNumber) ∧
      genStepLogFile (logRun ms) none = (true, logOf q)

/-- The length of a log is that of its records. -/
theorem length_text_flatMap (ms : List Logged) :
    (text (ms.flatMap recordLines)).length = (ms.map fun m => (text (recordLines m)).length).sum := by
  induction ms with
  | nil => rfl
  | cons m ms ih =>
    rw [List.flatMap_cons, text_append, String.length_append, ih, List.map_cons, List.sum_cons]

/-- No record is empty. -/
theorem length_record_pos (m : Logged) : 0 < (text (recordLines m)).length := by
  rw [recordLines, text_cons, String.length_append, String.length_append]
  have hbegin : "STEP BEGIN".length = 10 := by decide
  omega

/-- A log to which methods are missing is shorter. -/
theorem perm_of_logOf_eq {ms q : List Logged} (hsub : ms.Subperm q) (h : logOf ms = logOf q) :
    ms.Perm q := by
  obtain ⟨l, hperm, hl⟩ := hsub
  obtain ⟨rest, hrest⟩ := hl.exists_perm_append
  have hq : q.Perm (ms ++ rest) := hrest.trans (hperm.append_right rest)
  have hlen : (text (ms.flatMap recordLines)).length = (text (q.flatMap recordLines)).length := by
    have hget : ∀ ms : List Logged, (logOf ms).getD "" = text (ms.flatMap recordLines) := by
      intro ms
      rw [logOf]
      split
      · rename_i hnil
        rw [hnil]
        rfl
      · rfl
    rw [← hget, h, hget]
  rw [length_text_flatMap, length_text_flatMap, (hq.map _).sum_eq, List.map_append, List.sum_append]
    at hlen
  cases rest with
  | nil => exact (List.append_nil ms ▸ hq).symm
  | cons m rest =>
    rw [List.map_cons, List.sum_cons] at hlen
    have hpos := length_record_pos m
    omega

/-- **When each step is logged.**  Each method with a number is logged once, in ascending order,
exactly when no number is greater than the number of methods with the annotation. -/
theorem logs_iff (n : Classes) (userMbtLines : List String) (ms : List Logged)
    (h : Compiles n userMbtLines ms) : Logs ms ↔ ∀ m ∈ ms, m.1.stepNumber ≤ ms.length := by
  rw [← sorted_perm_iff h]
  constructor
  · rintro ⟨q, hq, -, hlog⟩
    have heq : logOf (sorted ms) = logOf q := by
      rw [genStepLogFile_logRun] at hlog
      exact (Prod.mk.inj hlog).2
    have hsub : (sorted ms).Subperm q :=
      ((nodup_sorted ms).subperm fun m hm => (mem_of_mem_sorted hm).1).trans hq.symm.subperm
    exact (perm_of_logOf_eq hsub heq).trans hq
  · intro hperm
    exact ⟨sorted ms, hperm, pairwise_sorted ms, genStepLogFile_logRun ms⟩

/-- A source with two steps. -/
def bothSteps : List String :=
  ["@MTestStep(endState = \"Cart\")", "public void add()",
    "@MTestStep(endState = \"Paid\")", "public void pay()"]

/-- The same with the first step in a comment. -/
def commented : List String :=
  ["/*", "@MTestStep(endState = \"Cart\")", "public void add()", "*/",
    "@MTestStep(endState = \"Paid\")", "public void pay()"]

/-- The second step, as it is logged. -/
def payStep : Logged := (⟨"pay", 2, "", "Paid", 1, "", ""⟩, [])

/-- The first step, as it is logged. -/
def addStep : Logged := (⟨"add", 1, "", "Cart", 1, "", ""⟩, [])

/-- The two steps get the numbers one and two. -/
theorem stepNumbers_bothSteps : stepNumbers dealClasses State.init bothSteps = [1, 2] := by
  decide +kernel

theorem logs_iff_two : Logs [payStep, addStep] := by
  have hcompiles : Compiles dealClasses bothSteps [payStep, addStep] := by
    rw [Compiles, stepNumbers_bothSteps]
    exact (List.Perm.swap 1 2 []).subperm
  refine (logs_iff dealClasses bothSteps [payStep, addStep] hcompiles).mpr fun m hm => ?_
  rcases List.mem_pair.mp hm with rfl | rfl <;> decide

/-- The comment is numbered as well. -/
theorem stepNumbers_commented : stepNumbers dealClasses State.init commented = [1, 2] := by
  decide +kernel

/-- The method carries the number `2`, but it is the only one. -/
theorem not_logs_commented : Compiles dealClasses commented [payStep] ∧ ¬ Logs [payStep] := by
  have hcompiles : Compiles dealClasses commented [payStep] := by
    rw [Compiles, stepNumbers_commented]
    exact (List.sublist_cons_self 1 [2]).subperm
  refine ⟨hcompiles, ?_⟩
  rintro ⟨q, hq, -, hlog⟩
  have hnone : genStepLogFile (logRun [payStep]) none = (true, none) := by decide +kernel
  rw [hnone] at hlog
  have hnil : q = [] := by
    by_contra hne
    rw [logOf, if_neg hne] at hlog
    cases (Prod.mk.inj hlog).2
  rw [hnil] at hq
  exact absurd hq.length_eq (by decide)

end Compiled

end MGenMbtXml

end MBT
