import MBT.Support.Exec

/-!
# Support — Additive

Programs that add elements to a set and do not look at what is in it: they return or throw the same
from every set, and add the same elements to it.

* `Additive.bind`, `Additive.foldlM`: they are put together to such programs.
* `Additive.mem_after`: an element is there afterwards exactly when it was there before or is there
  when the program starts with the empty set.
* `Gathers.foldlM`: a loop adds what its turns add, up to the first that throws.
-/

namespace Exec

variable {ε α β γ : Type}

/-- The set that a program leaves, whether it returns or throws. -/
def after (x : EStateM ε (HashSet α) β) (s : HashSet α) : HashSet α :=
  match x.run s with
  | .ok _ s' | .error _ s' => s'

/-- The end of a program with the set `s`. -/
def ended (s : HashSet α) : Except ε β → EStateM.Result ε (HashSet α) β
  | .ok b => .ok b s
  | .error e => .error e s

/-- The set after a program that has run. -/
theorem after_of_run {x : EStateM ε (HashSet α) β} {s s' : HashSet α} {r : Except ε β}
    (h : x.run s = ended s' r) : after x s = s' := by
  rw [after, h]
  cases r <;> rfl

variable [DecidableEq α]

/-- From every set, the program ends with `r` and has added `l`. -/
def Adds (x : EStateM ε (HashSet α) β) (r : Except ε β) (l : List α) : Prop :=
  ∀ s, x.run s = ended (s.addAll l) r

/-- The program adds the same elements to every set, and ends in the same way. -/
def Additive (x : EStateM ε (HashSet α) β) : Prop := ∃ r l, Adds x r l

namespace Adds

variable {x : EStateM ε (HashSet α) β} {f : β → EStateM ε (HashSet α) γ} {r : Except ε β}
  {r' : Except ε γ} {l l' : List α}

theorem pure (b : β) : Adds (Pure.pure b : EStateM ε (HashSet α) β) (.ok b) [] := fun _ => rfl

theorem throw (e : ε) : Adds (MonadExcept.throw e : EStateM ε (HashSet α) β) (.error e) [] :=
  fun _ => rfl

/-- An element is added. -/
theorem add (a : α) : Adds (modify (·.add a) : EStateM ε (HashSet α) PUnit) (.ok ⟨⟩) [a] :=
  fun _ => rfl

theorem bind {b : β} (hx : Adds x (.ok b) l) (hf : Adds (f b) r' l') :
    Adds (x >>= f) r' (l ++ l') := by
  intro s
  rw [EStateM.run_bind, hx s]
  refine (hf _).trans ?_
  rw [HashSet.addAll, HashSet.addAll, HashSet.addAll, List.foldl_append]

/-- Behind a program that throws nothing is added. -/
theorem bind_error {e : ε} (hx : Adds x (.error e) l) : Adds (x >>= f) (.error e) l := by
  intro s
  rw [EStateM.run_bind, hx s]
  rfl

/-- What adds given elements is additive. -/
theorem additive (h : Adds x r l) : Additive x := ⟨r, l, h⟩

end Adds

namespace Additive

variable {x : EStateM ε (HashSet α) β} {f : β → EStateM ε (HashSet α) γ}

theorem pure (b : β) : Additive (Pure.pure b : EStateM ε (HashSet α) β) := (Adds.pure b).additive

theorem throw (e : ε) : Additive (MonadExcept.throw e : EStateM ε (HashSet α) β) :=
  (Adds.throw e).additive

theorem bind (hx : Additive x) (hf : ∀ b, Additive (f b)) : Additive (x >>= f) := by
  obtain ⟨r, l, hx⟩ := hx
  cases r with
  | error e => exact hx.bind_error.additive
  | ok b =>
    obtain ⟨r', l', hf⟩ := hf b
    exact (hx.bind hf).additive

theorem map (f : β → γ) (hx : Additive x) : Additive (f <$> x) := by
  rw [map_eq_pure_bind]
  exact hx.bind fun b => Additive.pure (f b)

theorem ite {c : Prop} [Decidable c] {x y : EStateM ε (HashSet α) β} (hx : Additive x)
    (hy : Additive y) : Additive (if c then x else y) := by
  split
  · exact hx
  · exact hy

/-- So is a loop. -/
theorem foldlM {δ : Type} {g : γ → δ → EStateM ε (HashSet α) γ} (h : ∀ c d, Additive (g c d))
    (ds : List δ) (c : γ) : Additive (ds.foldlM g c) := by
  induction ds generalizing c with
  | nil => exact Additive.pure c
  | cons d ds ih =>
    rw [List.foldlM_cons]
    exact (h c d).bind ih

/-- What is there after the program. -/
theorem mem_after (hx : Additive x) {s : HashSet α} {a : α} :
    a ∈ (after x s).elems ↔ a ∈ s.elems ∨ a ∈ (after x .empty).elems := by
  obtain ⟨r, l, hx⟩ := hx
  rw [after_of_run (hx s), after_of_run (hx .empty), HashSet.mem_elems_addAll,
    HashSet.mem_elems_addAll, HashSet.elems_empty]
  simp

/-- The program ends in the same way from every set. -/
theorem run_eq (hx : Additive x) : ∃ r, ∀ s, x.run s = ended (after x s) r := by
  obtain ⟨r, l, hx⟩ := hx
  exact ⟨r, fun s => (after_of_run (hx s)).symm ▸ hx s⟩

end Additive

/-- From every set, the program returns exactly if `q`, and adds the elements that `P` holds of. -/
def Gathers (x : EStateM ε (HashSet α) β) (q : Prop) (P : α → Prop) : Prop :=
  ∃ r l, Adds x r l ∧ ((∃ b, r = .ok b) ↔ q) ∧ ∀ a, a ∈ l ↔ P a

namespace Gathers

variable {x : EStateM ε (HashSet α) β} {f : β → EStateM ε (HashSet α) γ} {q q' : Prop}
  {P P' : α → Prop}

theorem pure (b : β) :
    Gathers (Pure.pure b : EStateM ε (HashSet α) β) True fun _ => False :=
  ⟨.ok b, [], Adds.pure b, iff_of_true ⟨b, rfl⟩ trivial, by simp⟩

theorem bind (hx : Gathers x q P) (hf : ∀ b, Gathers (f b) q' P') :
    Gathers (x >>= f) (q ∧ q') fun a => P a ∨ q ∧ P' a := by
  obtain ⟨r, l, hx, hq, hl⟩ := hx
  cases r with
  | error e =>
    have hq : ¬ q := fun h => nomatch (hq.mpr h).choose_spec
    refine ⟨_, l, hx.bind_error, iff_of_false (fun ⟨_, h⟩ => nomatch h) fun h => hq h.1, ?_⟩
    intro a
    rw [hl]
    exact ⟨.inl, fun h => h.elim id fun h => absurd h.1 hq⟩
  | ok b =>
    obtain ⟨r', l', hf, hq', hl'⟩ := hf b
    have hq : q := hq.mp ⟨b, rfl⟩
    refine ⟨r', l ++ l', hx.bind hf, hq'.trans (and_iff_right hq).symm, ?_⟩
    intro a
    rw [List.mem_append, hl, hl']
    exact or_congr_right (and_iff_right hq).symm

theorem congr (h : Gathers x q P) (hq : q ↔ q') (hP : ∀ a, P a ↔ P' a) : Gathers x q' P' := by
  obtain ⟨r, l, hx, hr, hl⟩ := h
  exact ⟨r, l, hx, hr.trans hq, fun a => (hl a).trans (hP a)⟩

/-- Another value adds nothing else. -/
theorem bind_pure (hx : Gathers x q P) (f : β → γ) : Gathers (x >>= fun b => Pure.pure (f b)) q P :=
  (hx.bind fun b => pure (f b)).congr (and_iff_left trivial) fun _ => by simp

/-- A loop whose turns add nothing where they throw. -/
theorem foldlM {δ : Type} {g : γ → δ → EStateM ε (HashSet α) γ} {q : δ → Prop} [DecidablePred q]
    {P : δ → α → Prop} (h : ∀ c d, Gathers (g c d) (q d) (P d)) (hP : ∀ d a, P d a → q d)
    (ds : List δ) (c : γ) :
    Gathers (ds.foldlM g c) (∀ d ∈ ds, q d) fun a => ∃ d ∈ ds.takeWhile q, P d a := by
  induction ds generalizing c with
  | nil => exact (pure c).congr (by simp) (by simp)
  | cons d ds ih =>
    rw [List.foldlM_cons]
    refine ((h c d).bind ih).congr List.forall_mem_cons.symm fun a => ?_
    by_cases hd : q d
    · rw [List.takeWhile_cons_of_pos (p := fun d => decide (q d)) (decide_eq_true hd), List.exists_mem_cons_iff]
      exact or_congr_right (and_iff_right hd)
    · rw [List.takeWhile_cons_of_neg (p := fun d => decide (q d)) (by simpa using hd)]
      exact iff_of_false (fun h => h.elim (fun h => hd (hP d a h)) fun h => hd h.1) (by simp)

/-- What is there after the program. -/
theorem mem_after (h : Gathers x q P) {s : HashSet α} {a : α} :
    a ∈ (after x s).elems ↔ a ∈ s.elems ∨ P a := by
  obtain ⟨r, l, hx, -, hl⟩ := h
  rw [after_of_run (hx s), HashSet.mem_elems_addAll, hl]

end Gathers

end Exec
