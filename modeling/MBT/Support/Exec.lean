import Mathlib

/-!
# Support — Exec

Programs over a mutable state that may throw, with the array lists, sets and maps they use.

* `mapM_eq_ok`: a list is mapped when each of its elements is.
* `Prog σ α` is a state transformer; an exception keeps the state written before it.
* `run_foldlM`, `run_forM`: a loop none of whose turns throws ends in the state the prefix
  function names.
* `of_run_forM_inv`: a loop that returns keeps what each of its turns keeps.
* `ArrayList.get`, `set`, `add`, `remove` throw outside the list, as the library's do.
* `HashSet` carries that it holds no element twice.  Its iteration order is not specified, so a
  loop over a set takes a `VisitOrder`, and what is proved holds at every one.
* `eraseBack_eq`: a loop from the last index to the first that removes some elements leaves the
  others, in order.
-/

namespace Exec

/-! ### Programs -/

/-- The exceptions a modelled program can raise. -/
inductive Exn where
  | indexOutOfBounds
  | nullPointer
  | illegalArgument
  | stackOverflow
  | outOfMemory
  deriving DecidableEq, Repr

/-! ### Computations without a state -/

section Pure

variable {ε α β : Type}

/-- The value of an access that throws outside its bounds. -/
def inBounds : Option α → Except Exn α
  | some a => .ok a
  | none => .error .indexOutOfBounds

/-- Behind a value the computation goes on. -/
theorem ok_bind (a : α) (f : α → Except ε β) : (Except.ok a >>= f) = f a := rfl

/-- Behind an error it does not. -/
theorem error_bind (e : ε) (f : α → Except ε β) : (Except.error e >>= f) = .error e := rfl

/-- When two computations return, one after the other. -/
theorem bind_eq_ok {x : Except ε α} {f : α → Except ε β} {b : β} :
    (x >>= f) = .ok b ↔ ∃ a, x = .ok a ∧ f a = .ok b := by
  cases x with
  | error e =>
    constructor
    · intro h; cases h
    · rintro ⟨a, h, -⟩; cases h
  | ok a => exact ⟨fun h => ⟨a, rfl, h⟩, fun ⟨_, h, hf⟩ => Except.ok.inj h ▸ hf⟩

/-- When a loop returns, by its first turn. -/
theorem mapM_cons_eq_ok {f : α → Except ε β} {a : α} {l : List α} {bs : List β} :
    (a :: l).mapM f = .ok bs ↔ ∃ b bs', f a = .ok b ∧ l.mapM f = .ok bs' ∧ bs = b :: bs' := by
  simp only [List.mapM_cons, bind_eq_ok, pure, Except.pure, Except.ok.injEq, exists_and_left,
    eq_comm (a := bs)]

/-- A list is mapped when each of its elements is. -/
theorem mapM_eq_ok {f : α → Except ε β} {l : List α} {bs : List β} :
    l.mapM f = .ok bs ↔ List.Forall₂ (fun a b => f a = .ok b) l bs := by
  induction l generalizing bs with
  | nil =>
    rw [List.mapM_nil, List.forall₂_nil_left_iff]
    exact ⟨fun h => (Except.ok.inj h).symm, fun h => h ▸ rfl⟩
  | cons a l ih =>
    rw [mapM_cons_eq_ok, List.forall₂_cons_left_iff]
    simp only [ih]

/-- The results of a loop whose turns are known. -/
theorem eq_map_of_mapM {f : α → Except ε β} {g : α → β} {l : List α} {bs : List β}
    (hf : ∀ a b, f a = .ok b → b = g a) (h : l.mapM f = .ok bs) : bs = l.map g := by
  have hall : List.Forall₂ (fun a b => g a = b) l bs :=
    (mapM_eq_ok.mp h).imp fun a b hb => (hf a b hb).symm
  have heq := List.forall₂_map_left_iff.mpr hall
  rw [List.forall₂_eq_eq_eq] at heq
  exact heq.symm

/-- An element of the result comes from one of the list. -/
theorem exists_of_mem_mapM {f : α → Except ε β} {l : List α} {bs : List β}
    (h : l.mapM f = .ok bs) {b : β} (hb : b ∈ bs) : ∃ a ∈ l, f a = .ok b := by
  induction l generalizing bs with
  | nil => cases h; cases hb
  | cons a l ih =>
    obtain ⟨b', bs', ha, hl, rfl⟩ := mapM_cons_eq_ok.mp h
    rcases List.mem_cons.mp hb with rfl | hb
    · exact ⟨a, List.mem_cons_self, ha⟩
    · obtain ⟨a', ha', e⟩ := ih hl hb
      exact ⟨a', List.mem_cons_of_mem _ ha', e⟩

/-- A loop returns when all its turns do. -/
theorem exists_mapM_eq_ok {f : α → Except ε β} {l : List α} :
    (∃ bs, l.mapM f = .ok bs) ↔ ∀ a ∈ l, ∃ b, f a = .ok b := by
  induction l with
  | nil => exact iff_of_true ⟨[], rfl⟩ (List.forall_mem_nil _)
  | cons a l ih =>
    rw [List.forall_mem_cons, ← ih]
    constructor
    · rintro ⟨bs, h⟩
      obtain ⟨b, bs', hb, hbs, -⟩ := mapM_cons_eq_ok.mp h
      exact ⟨⟨b, hb⟩, bs', hbs⟩
    · rintro ⟨⟨b, hb⟩, bs', hbs⟩
      exact ⟨b :: bs', mapM_cons_eq_ok.mpr ⟨b, bs', hb, hbs, rfl⟩⟩

/-- When two computations fail. -/
theorem bind_eq_error {x : Except ε α} {f : α → Except ε β} {e : ε} :
    (x >>= f) = .error e ↔ x = .error e ∨ ∃ a, x = .ok a ∧ f a = .error e := by
  cases x with
  | error e' =>
    rw [error_bind]
    constructor
    · rintro ⟨⟩
      exact .inl rfl
    · rintro (h | ⟨a, h, -⟩)
      · cases h
        rfl
      · cases h
  | ok a =>
    rw [ok_bind]
    constructor
    · exact fun h => .inr ⟨a, rfl, h⟩
    · rintro (h | ⟨a', h, hf⟩)
      · cases h
      · cases h
        exact hf

/-- A loop throws what one of its turns throws. -/
theorem exists_of_foldlM_eq_error {f : β → α → Except ε β} {l : List α} {b : β} {e : ε}
    (h : l.foldlM f b = .error e) : ∃ b', ∃ a ∈ l, f b' a = .error e := by
  induction l generalizing b with
  | nil => cases h
  | cons a l ih =>
    rw [List.foldlM_cons] at h
    rcases bind_eq_error.mp h with ha | ⟨b', -, hl⟩
    · exact ⟨b, a, List.mem_cons_self, ha⟩
    · obtain ⟨c, a', ha', hc⟩ := ih hl
      exact ⟨c, a', List.mem_cons_of_mem _ ha', hc⟩

/-- A loop that fails fails in a turn. -/
theorem exists_of_mapM_eq_error {f : α → Except ε β} {l : List α} {e : ε}
    (h : l.mapM f = .error e) : ∃ a ∈ l, f a = .error e := by
  induction l with
  | nil => cases h
  | cons a l ih =>
    rw [List.mapM_cons] at h
    rcases bind_eq_error.mp h with ha | ⟨b, -, h⟩
    · exact ⟨a, List.mem_cons_self, ha⟩
    · rcases bind_eq_error.mp h with hl | ⟨bs, -, hpure⟩
      · obtain ⟨a', ha', he⟩ := ih hl
        exact ⟨a', List.mem_cons_of_mem _ ha', he⟩
      · cases hpure

end Pure

/-- A program over the state `σ` that returns an `α` or throws. -/
abbrev Prog (σ α : Type) := EStateM Exn σ α

namespace Prog

variable {σ α β ι : Type}

/-- The value a program returns from `s`, if it returns. -/
def eval (x : Prog σ α) (s : σ) : Option α :=
  match x.run s with
  | .ok a _ => some a
  | .error _ _ => none

/-- The state a program leaves, whether it returns or throws. -/
def exec (x : Prog σ α) (s : σ) : σ :=
  match x.run s with
  | .ok _ s' => s'
  | .error _ s' => s'

/-- A computation that reads and writes no state. -/
def lift : Except Exn α → Prog σ α
  | .ok a => pure a
  | .error e => throw e

/-- The value of a reference that may be `null`. -/
def nonNull : Option α → Except Exn α
  | some a => .ok a
  | none => .error .nullPointer

/-- Behind a program that returns, the rest is run from its state. -/
theorem run_bind_ok {x : Prog σ α} {f : α → Prog σ β} {s s' : σ} {a : α}
    (h : x.run s = .ok a s') : (x >>= f).run s = (f a).run s' := by
  rw [EStateM.run_bind, h]

/-- Behind a program that throws nothing is run. -/
theorem run_bind_error {x : Prog σ α} {f : α → Prog σ β} {s s' : σ} {e : Exn}
    (h : x.run s = .error e s') : (x >>= f).run s = .error e s' := by
  rw [EStateM.run_bind, h]

/-- A reference that is not `null` is its value. -/
theorem nonNull_eq_ok {x : Option α} {a : α} : nonNull x = .ok a ↔ x = some a := by
  cases x with
  | none => exact iff_of_false nofun nofun
  | some b => exact ⟨fun h => congrArg some (Except.ok.inj h), fun h => congrArg Except.ok (Option.some.inj h)⟩

/-- To read the state. -/
theorem run_bind_get {f : σ → Prog σ β} {s : σ} : (get >>= f).run s = (f s).run s := rfl

/-- The value of a program that returns. -/
theorem eval_ok {x : Prog σ α} {s s' : σ} {a : α} (h : x.run s = .ok a s') :
    x.eval s = some a := by
  rw [eval, h]

/-- A program that throws has no value. -/
theorem eval_error {x : Prog σ α} {s s' : σ} {e : Exn} (h : x.run s = .error e s') :
    x.eval s = none := by
  rw [eval, h]

/-- The state that a program leaves when it throws. -/
theorem exec_error {x : Prog σ α} {s s' : σ} {e : Exn} (h : x.run s = .error e s') :
    x.exec s = s' := by
  rw [exec, h]

/-- The state that a program leaves when it returns. -/
theorem exec_ok {x : Prog σ α} {s s' : σ} {a : α} (h : x.run s = .ok a s') : x.exec s = s' := by
  rw [exec, h]

/-- The state after two programs. -/
theorem exec_bind_ok {x : Prog σ α} {f : α → Prog σ β} {s s' : σ} {a : α}
    (h : x.run s = .ok a s') : (x >>= f).exec s = (f a).exec s' := by
  rw [exec, run_bind_ok h, exec]

/-- The state where the first one throws. -/
theorem exec_bind_error {x : Prog σ α} {f : α → Prog σ β} {s s' : σ} {e : Exn}
    (h : x.run s = .error e s') : (x >>= f).exec s = s' := exec_error (run_bind_error h)

/-- A computation that throws leaves the state. -/
theorem exec_lift_bind {P : σ → Prop} {x : Except Exn α} {f : α → Prog σ β} {s : σ} (hs : P s)
    (hf : ∀ a, x = .ok a → P ((f a).exec s)) : P ((lift x >>= f).exec s) := by
  cases x with
  | error e => exact hs
  | ok a => exact hf a rfl

@[simp] theorem lift_ok (a : α) : (lift (.ok a) : Prog σ α) = pure a := rfl

/-- A loop whose every turn returns: `acc` and `st` name the value and the state after a
prefix of the turns. -/
theorem run_foldlM {l : List ι} {f : β → ι → Prog σ β} (acc : List ι → β) (st : List ι → σ)
    (h : ∀ p i q, l = p ++ i :: q →
      (f (acc p) i).run (st p) = .ok (acc (p ++ [i])) (st (p ++ [i]))) :
    (l.foldlM f (acc [])).run (st []) = .ok (acc l) (st l) := by
  suffices H : ∀ q p, l = p ++ q → (q.foldlM f (acc p)).run (st p) = .ok (acc l) (st l) from
    H l [] rfl
  intro q
  induction q with
  | nil => rintro p rfl; simp
  | cons i q ih =>
    intro p hp
    rw [List.foldlM_cons, run_bind_ok (h p i q hp)]
    exact ih (p ++ [i]) (by simp [hp])

/-- A loop whose every turn returns and keeps an invariant, which may speak of the turns done. -/
theorem run_forM_inv {l : List ι} {f : ι → Prog σ PUnit} (I : List ι → σ → Prop)
    (h : ∀ p i q s, l = p ++ i :: q → I p s →
      ∃ s', (f i).run s = .ok ⟨⟩ s' ∧ I (p ++ [i]) s')
    {s : σ} (hs : I [] s) : ∃ s', (forM l f).run s = .ok ⟨⟩ s' ∧ I l s' := by
  suffices H : ∀ q p s, l = p ++ q → I p s → ∃ s', (forM q f).run s = .ok ⟨⟩ s' ∧ I l s' from
    H l [] s rfl hs
  intro q
  induction q with
  | nil => rintro p s rfl hs; exact ⟨s, rfl, by simpa using hs⟩
  | cons i q ih =>
    intro p s hp hs
    obtain ⟨s₁, h₁, hI⟩ := h p i q s hp hs
    obtain ⟨s₂, h₂, hI'⟩ := ih (p ++ [i]) s₁ (by simp [hp]) hI
    exact ⟨s₂, by rw [List.forM_cons, run_bind_ok h₁, h₂], hI'⟩

/-- A loop whose turns lead from state to state. -/
theorem run_forM {l : List ι} {f : ι → Prog σ PUnit} (st : List ι → σ)
    (h : ∀ p i q, l = p ++ i :: q → (f i).run (st p) = .ok ⟨⟩ (st (p ++ [i]))) :
    (forM l f).run (st []) = .ok ⟨⟩ (st l) := by
  obtain ⟨s, hs, rfl⟩ := run_forM_inv (fun p s => s = st p)
    (fun p i q s hp e => ⟨_, e ▸ h p i q hp, rfl⟩) (s := st []) rfl
  exact hs

/-- Where a loop over the indices below `n` stands. -/
theorem range_split {n i : ℕ} {p q : List ℕ} (h : List.range n = p ++ i :: q) :
    p.length = i ∧ i < n := by
  have hi : i < n := List.mem_range.mp (h ▸ List.mem_append_right p List.mem_cons_self)
  have hget := congrArg (·[p.length]?) h
  have hlen : p.length < n := by
    have := congrArg List.length h
    simp only [List.length_range, List.length_append, List.length_cons] at this
    omega
  simp only [List.getElem?_range hlen, List.getElem?_append_right le_rfl, Nat.sub_self,
    List.getElem?_cons_zero, Option.some.injEq] at hget
  exact ⟨hget, hi⟩

/-! ### What a program keeps -/

/-- The program keeps `I`, whether it returns or throws. -/
def Keeps (I : σ → Prop) (x : Prog σ α) : Prop := ∀ s, I s → I (x.exec s)

/-- What a program keeps holds when it returns. -/
theorem Keeps.run_ok {I : σ → Prop} {x : Prog σ α} (hx : Keeps I x) {s s' : σ} {a : α} (hs : I s)
    (h : x.run s = .ok a s') : I s' :=
  exec_ok h ▸ hx s hs

namespace Keeps

variable {I : σ → Prop}

theorem pure (a : α) : Keeps I (pure a) := fun _ h => h

theorem lift (x : Except Exn α) : Keeps I (lift x) := by
  intro s h
  cases x with
  | error e => exact h
  | ok a => exact h

theorem modify {f : σ → σ} (hf : ∀ s, I s → I (f s)) : Keeps I (modify f) := hf

theorem get_bind {f : σ → Prog σ α} (h : ∀ s, I s → I ((f s).exec s)) : Keeps I (get >>= f) := h

theorem bind {x : Prog σ α} {f : α → Prog σ β} (hx : Keeps I x) (hf : ∀ a, Keeps I (f a)) :
    Keeps I (x >>= f) := by
  intro s hs
  have hx' := hx s hs
  cases h : x.run s with
  | ok a s' =>
    rw [exec_ok h] at hx'
    rw [exec, run_bind_ok h]
    exact hf a s' hx'
  | error e s' =>
    rw [exec_error h] at hx'
    rw [exec_error (run_bind_error h)]
    exact hx'

theorem forM {l : List ι} {f : ι → Prog σ PUnit} (h : ∀ i ∈ l, Keeps I (f i)) :
    Keeps I (forM l f) := by
  induction l with
  | nil => exact .pure PUnit.unit
  | cons i l ih =>
    rw [List.forM_cons]
    exact (h i List.mem_cons_self).bind fun _ => ih fun j hj => h j (List.mem_cons_of_mem _ hj)

end Keeps

/-- Where two programs have returned, the first one has. -/
theorem of_run_bind_ok {x : Prog σ α} {f : α → Prog σ β} {s s' : σ} {b : β}
    (h : (x >>= f).run s = .ok b s') : ∃ a s₁, x.run s = .ok a s₁ ∧ (f a).run s₁ = .ok b s' := by
  rw [EStateM.run_bind] at h
  cases hx : x.run s with
  | ok a s₁ => rw [hx] at h; exact ⟨a, s₁, rfl, h⟩
  | error e s₁ => rw [hx] at h; cases h

/-- Where a computation without state is the first, it has returned. -/
theorem of_run_lift_bind_ok {x : Except Exn α} {f : α → Prog σ β} {s s' : σ} {b : β}
    (h : (lift x >>= f).run s = .ok b s') : ∃ a, x = .ok a ∧ (f a).run s = .ok b s' := by
  cases x with
  | error e => cases h
  | ok a => exact ⟨a, rfl, h⟩

/-- A loop that returns keeps an invariant that each turn that returns keeps. -/
theorem of_run_forM_inv {l : List ι} {f : ι → Prog σ PUnit} (I : List ι → σ → Prop)
    (h : ∀ p i q s s', l = p ++ i :: q → I p s → (f i).run s = .ok ⟨⟩ s' → I (p ++ [i]) s')
    {s s' : σ} (hs : I [] s) (hrun : (forM l f).run s = .ok ⟨⟩ s') : I l s' := by
  suffices H : ∀ q p s, l = p ++ q → I p s → (forM q f).run s = .ok ⟨⟩ s' → I l s' from
    H l [] s rfl hs hrun
  intro q
  induction q with
  | nil =>
    intro p s hp hs hrun
    cases hrun
    rw [hp, List.append_nil]
    exact hs
  | cons i q ih =>
    intro p s hp hs hrun
    rw [List.forM_cons] at hrun
    obtain ⟨⟨⟩, s₁, h₁, h₂⟩ := of_run_bind_ok hrun
    exact ih (p ++ [i]) s₁ (by simp [hp]) (h p i q s s₁ hp hs h₁) h₂

/-- Where a loop returns, each turn has returned. -/
theorem of_run_forM_ok {I : σ → Prop} {l : List ι} {f : ι → Prog σ PUnit}
    (hI : ∀ i ∈ l, Keeps I (f i)) {s s' : σ} (hs : I s) (h : (forM l f).run s = .ok ⟨⟩ s') :
    ∀ i ∈ l, ∃ s₁ s₂, I s₁ ∧ (f i).run s₁ = .ok ⟨⟩ s₂ := by
  induction l generalizing s with
  | nil => intro i hi; cases hi
  | cons j l ih =>
    rw [List.forM_cons] at h
    obtain ⟨⟨⟩, s₁, h₁, h₂⟩ := of_run_bind_ok h
    intro i hi
    rcases List.mem_cons.mp hi with rfl | hi
    · exact ⟨s, s₁, hs, h₁⟩
    · exact ih (fun k hk => hI k (List.mem_cons_of_mem _ hk))
        ((hI j List.mem_cons_self).run_ok hs h₁) h₂ i hi

/-! ### Programs that return, or throw, from every state -/

/-- The program returns from every state. -/
def Returns (x : Prog σ α) : Prop := ∀ s, ∃ a s', x.run s = .ok a s'

/-- The program throws from every state. -/
def Throws (x : Prog σ α) : Prop := ∀ s, ∃ e s', x.run s = .error e s'

/-- What throws does not return. -/
theorem Throws.not_ok {x : Prog σ α} (h : Throws x) {s s' : σ} {a : α} : x.run s ≠ .ok a s' := by
  intro hok
  obtain ⟨e, s₁, herror⟩ := h s
  rw [herror] at hok
  cases hok

namespace Returns

theorem pure (a : α) : Returns (pure a : Prog σ α) := fun s => ⟨a, s, rfl⟩

theorem modify (f : σ → σ) : Returns (modify f) := fun s => ⟨⟨⟩, f s, rfl⟩

theorem get_bind {f : σ → Prog σ α} (h : ∀ s, Returns (f s)) : Returns (get >>= f) := fun s => h s s

theorem bind {x : Prog σ α} {f : α → Prog σ β} (hx : Returns x) (hf : ∀ a, Returns (f a)) :
    Returns (x >>= f) := by
  intro s
  obtain ⟨a, s₁, h⟩ := hx s
  obtain ⟨b, s₂, h'⟩ := hf a s₁
  exact ⟨b, s₂, (run_bind_ok h).trans h'⟩

theorem forM {l : List ι} {f : ι → Prog σ PUnit} (h : ∀ i ∈ l, Returns (f i)) :
    Returns (forM l f) := by
  induction l with
  | nil => exact .pure PUnit.unit
  | cons i l ih =>
    rw [List.forM_cons]
    exact (h i List.mem_cons_self).bind fun _ => ih fun j hj => h j (List.mem_cons_of_mem _ hj)

end Returns

namespace Throws

theorem bind_left {x : Prog σ α} (hx : Throws x) (f : α → Prog σ β) : Throws (x >>= f) := by
  intro s
  obtain ⟨e, s₁, h⟩ := hx s
  exact ⟨e, s₁, run_bind_error h⟩

theorem bind {x : Prog σ α} {f : α → Prog σ β} (hx : Returns x) (hf : ∀ a, Throws (f a)) :
    Throws (x >>= f) := by
  intro s
  obtain ⟨a, s₁, h⟩ := hx s
  obtain ⟨e, s₂, h'⟩ := hf a s₁
  exact ⟨e, s₂, (run_bind_ok h).trans h'⟩

end Throws

/-! ### Programs on a part of the state -/

section Zoom

variable {τ : Type} {get : τ → σ} {put : σ → τ → τ} {x : Prog σ α} {t : τ}

/-- The program on the part of the state that `get` reads and `put` writes. -/
def zoom (get : τ → σ) (put : σ → τ → τ) (x : Prog σ α) : Prog τ α := fun t =>
  match x.run (get t) with
  | .ok a s => .ok a (put s t)
  | .error e s => .error e (put s t)

/-- A program on a part of the state returns. -/
theorem run_zoom_ok {a : α} {s : σ} (h : x.run (get t) = .ok a s) :
    (zoom get put x).run t = .ok a (put s t) := by
  rw [EStateM.run, zoom, h]

/-- A program on a part of the state throws. -/
theorem run_zoom_error {e : Exn} {s : σ} (h : x.run (get t) = .error e s) :
    (zoom get put x).run t = .error e (put s t) := by
  rw [EStateM.run, zoom, h]

/-- What it has done where it has returned. -/
theorem of_run_zoom_ok {a : α} {t' : τ} (h : (zoom get put x).run t = .ok a t') :
    ∃ s, x.run (get t) = .ok a s ∧ t' = put s t := by
  cases hx : x.run (get t) with
  | ok b s => rw [run_zoom_ok hx] at h; cases h; exact ⟨s, rfl, rfl⟩
  | error e s => rw [run_zoom_error hx] at h; cases h

end Zoom

end Prog

/-! ### Array lists -/

namespace ArrayList

variable {α : Type}

/-- `ArrayList.get`. -/
def get (l : List α) (i : Int) : Except Exn α :=
  if 0 ≤ i then
    match l[i.toNat]? with
    | some a => .ok a
    | none => .error .indexOutOfBounds
  else .error .indexOutOfBounds

/-- `ArrayList.set`. -/
def set (l : List α) (i : Int) (a : α) : Except Exn (List α) :=
  if 0 ≤ i ∧ i.toNat < l.length then .ok (l.set i.toNat a) else .error .indexOutOfBounds

/-- Insert `a` before the element at `i`. -/
def add (l : List α) (i : ℕ) (a : α) : Except Exn (List α) :=
  if i ≤ l.length then .ok (l.insertIdx i a) else .error .indexOutOfBounds

/-- `ArrayList.remove`. -/
def remove (l : List α) (i : ℕ) : Except Exn (List α) :=
  if i < l.length then .ok (l.eraseIdx i) else .error .indexOutOfBounds

/-- The first index of `a`, or `-1`. -/
def indexOf [DecidableEq α] (l : List α) (a : α) : Int := if a ∈ l then l.idxOf a else -1

/-- The last index of `a`, or `-1`. -/
def lastIndexOf [DecidableEq α] (l : List α) (a : α) : Int :=
  if a ∈ l then (l.length : Int) - 1 - l.reverse.idxOf a else -1

theorem idxOf_le [DecidableEq α] {l : List α} {j : ℕ} {a : α} (h : l[j]? = some a) : l.idxOf a ≤ j := by
  induction l generalizing j with
  | nil => cases h
  | cons b l ih =>
    rw [List.idxOf_cons]
    by_cases e : b = a
    · rw [beq_iff_eq.mpr e, cond_true]
      exact Nat.zero_le j
    · cases j with
      | zero => exact absurd (Option.some.inj h) e
      | succ j =>
        have := ih (j := j) h
        rw [beq_eq_false_iff_ne.mpr e, cond_false]
        omega

/-- An element is the only one equal to it iff the first is the last. -/
theorem indexOf_eq_lastIndexOf_iff [DecidableEq α] {l : List α} {i : ℕ} {a : α} (h : l[i]? = some a) :
    indexOf l a = lastIndexOf l a ↔ ∀ j, l[j]? = some a → j = i := by
  have hmem : a ∈ l := List.mem_of_getElem? h
  have hfirst : l.idxOf a < l.length := List.idxOf_lt_length_iff.mpr hmem
  have hlast : l.reverse.idxOf a < l.length := by
    rw [← List.length_reverse]
    exact List.idxOf_lt_length_iff.mpr (List.mem_reverse.mpr hmem)
  have hbound : ∀ j, l[j]? = some a → l.idxOf a ≤ j ∧ j + l.reverse.idxOf a + 1 ≤ l.length := by
    intro j hj
    have hlt : j < l.length := (List.getElem?_eq_some_iff.mp hj).1
    refine ⟨idxOf_le hj, ?_⟩
    have hrev : l.reverse[l.length - 1 - j]? = some a := by
      rw [List.getElem?_reverse (by omega), ← hj]
      congr 1
      omega
    have := idxOf_le hrev
    omega
  rw [indexOf, lastIndexOf, if_pos hmem, if_pos hmem]
  constructor
  · intro e j hj
    have := hbound i h
    have := hbound j hj
    omega
  · intro hone
    have h₁ := hone (l.idxOf a) (List.getElem?_eq_some_iff.mpr ⟨hfirst, List.getElem_idxOf hfirst⟩)
    have h₂ := hone (l.length - 1 - l.reverse.idxOf a) (by
      rw [← List.getElem?_reverse hlast]
      exact List.getElem?_eq_some_iff.mpr ⟨by simpa using hlast, List.getElem_idxOf _⟩)
    omega
theorem get_ok {l : List α} {i : ℕ} {a : α} (h : l[i]? = some a) : get l i = .ok a := by
  simp [get, h]

theorem get_eq_ok {l : List α} {i : ℕ} {a : α} : get l i = .ok a ↔ l[i]? = some a := by
  refine ⟨fun h => ?_, get_ok⟩
  rw [get, if_pos (Int.natCast_nonneg i), Int.toNat_natCast] at h
  split at h
  · rename_i b hb
    cases h
    exact hb
  · cases h

/-- What is got is in the list. -/
theorem mem_of_get {l : List α} {i : Int} {a : α} (h : get l i = .ok a) : a ∈ l := by
  rw [get] at h
  split at h
  · split at h
    · rename_i h'
      cases h
      exact List.mem_of_getElem? h'
    · cases h
  · cases h

/-- The element behind a list. -/
theorem get_last (l : List α) (a : α) : get (l ++ [a]) l.length = .ok a := get_ok (by simp)

/-- An index of the list can be set. -/
theorem set_ok {l : List α} {i : ℕ} (a : α) (h : i < l.length) : set l i a = .ok (l.set i a) := by
  simp [set, h]

@[simp] theorem add_end (l : List α) (a : α) : add l l.length a = .ok (l ++ [a]) := by
  simp [add]

@[simp] theorem remove_end (l : List α) (a : α) : remove (l ++ [a]) l.length = .ok l := by
  simp [remove, List.eraseIdx_append_of_length_le]

end ArrayList

/-! ### Sets and maps -/

/-- A set: the elements in the order they were first added. -/
structure HashSet (α : Type) where
  elems : List α
  nodup : elems.Nodup

namespace HashSet

variable {α : Type} [DecidableEq α]

/-- The empty set. -/
def empty {α : Type} : HashSet α := ⟨[], List.nodup_nil⟩

/-- `HashSet.contains`. -/
def contains (s : HashSet α) (a : α) : Bool := decide (a ∈ s.elems)

/-- `HashSet.add`. -/
def add (s : HashSet α) (a : α) : HashSet α :=
  if h : a ∈ s.elems then s
  else ⟨s.elems ++ [a], List.nodup_append.mpr ⟨s.nodup, List.nodup_singleton a,
    fun _ hx _ hy e => h (List.mem_singleton.mp hy ▸ e ▸ hx)⟩⟩

/-- `HashSet.addAll`. -/
def addAll (s : HashSet α) (l : List α) : HashSet α := l.foldl add s

/-- `HashSet.size`. -/
def size (s : HashSet α) : ℕ := s.elems.length

/-- A set of size zero has no elements. -/
theorem size_eq_zero {α : Type} {s : HashSet α} : s.size = 0 ↔ ∀ a, a ∉ s.elems := by
  rw [size, List.length_eq_zero_iff, List.eq_nil_iff_forall_not_mem]

@[simp] theorem contains_iff {s : HashSet α} {a : α} : s.contains a = true ↔ a ∈ s.elems := by
  simp [contains]

@[simp] theorem mem_elems_add {s : HashSet α} {a b : α} :
    b ∈ (s.add a).elems ↔ b ∈ s.elems ∨ b = a := by
  unfold add
  split
  · rename_i h
    exact ⟨Or.inl, fun hb => hb.elim id fun e => e ▸ h⟩
  · simp

/-- A loop that adds elements, each turn those `Q` holds of. -/
theorem mem_elems_foldl {α β : Type} {f : HashSet α → β → HashSet α} {Q : β → Prop} {a : α}
    (h : ∀ s x, a ∈ (f s x).elems ↔ a ∈ s.elems ∨ Q x) {l : List β} {s : HashSet α} :
    a ∈ (l.foldl f s).elems ↔ a ∈ s.elems ∨ ∃ x ∈ l, Q x := by
  induction l generalizing s with
  | nil => simp
  | cons x l ih => rw [List.foldl_cons, ih, h, List.exists_mem_cons_iff, or_assoc]

@[simp] theorem mem_elems_addAll {l : List α} {s : HashSet α} {b : α} :
    b ∈ (s.addAll l).elems ↔ b ∈ s.elems ∨ b ∈ l := by
  rw [addAll, mem_elems_foldl (Q := (b = ·)) fun _ _ => mem_elems_add]
  simp

@[simp] theorem elems_empty {α : Type} : (empty : HashSet α).elems = [] := rfl

end HashSet

/-- The order in which the loops of a program visit the elements of a set. -/
structure VisitOrder (α : Type) where
  visit : HashSet α → List α
  perm : ∀ s, (visit s).Perm s.elems

namespace VisitOrder

variable {α : Type}

/-- The order in which the elements were added. -/
def insertion : VisitOrder α := ⟨HashSet.elems, fun _ => .refl _⟩

/-- A visit meets the elements of the set. -/
theorem mem_visit (o : VisitOrder α) {s : HashSet α} {a : α} : a ∈ o.visit s ↔ a ∈ s.elems :=
  (o.perm s).mem_iff

/-- A visit meets no element twice. -/
theorem nodup_visit (o : VisitOrder α) (s : HashSet α) : (o.visit s).Nodup :=
  (o.perm s).nodup_iff.mpr s.nodup

/-- Two orders visit the same elements. -/
theorem visit_perm (o o' : VisitOrder α) (s : HashSet α) : (o.visit s).Perm (o'.visit s) :=
  (o.perm s).trans (o'.perm s).symm

end VisitOrder

/-- A map with at most one entry for a key. -/
abbrev HashMap (κ ν : Type) := AList fun _ : κ => ν

namespace HashMap

variable {κ ν : Type} [DecidableEq κ]

instance [DecidableEq ν] : DecidableEq (HashMap κ ν) := fun m m' =>
  decidable_of_iff (m.entries = m'.entries) AList.ext_iff.symm

/-- `HashMap.keySet`. -/
def keySet {κ : Type} (m : HashMap κ ν) : HashSet κ := ⟨m.keys, m.keys_nodup⟩

/-- A loop that puts an entry for each element: the last one of a key stays. -/
theorem lookup_foldl_insert {ι : Type} (key : ι → κ) (val : ι → ν) (l : List ι) (m : HashMap κ ν)
    (k : κ) : (l.foldl (fun m i => m.insert (key i) (val i)) m).lookup k =
      ((l.reverse.find? fun i => key i == k).map val).or (m.lookup k) := by
  induction l generalizing m with
  | nil => rfl
  | cons i l ih =>
    rw [List.foldl_cons, ih, List.reverse_cons, List.find?_append]
    cases l.reverse.find? fun i => key i == k with
    | some j => rfl
    | none =>
      by_cases h : key i = k
      · subst h
        simp
      · simp [h, AList.lookup_insert_ne (Ne.symm h)]

end HashMap

/-! ### Removing elements from the last index to the first -/

section EraseBack

variable {α : Type}

/-- `for (i = size - 1; i >= 0; --i) if (drop(l, i)) l.remove(i)`. -/
def eraseBack (drop : List α → ℕ → Bool) (l : List α) : List α :=
  (List.range l.length).foldr (fun i l => if drop l i then l.eraseIdx i else l) l

/-- The loop is a filter when what it drops at `i` is decided by the element there; the elements
before `i` are untouched by then. -/
theorem eraseBack_eq {drop : List α → ℕ → Bool} {keep : α → Bool} {l : List α}
    (h : ∀ p a q t, l = p ++ a :: q → drop (p ++ a :: t) p.length = !keep a) :
    eraseBack drop l = l.filter keep := by
  suffices H : ∀ suf pre : List α, l = pre ++ suf →
      ((List.range suf.length).map (· + pre.length)).foldr
        (fun i l => if drop l i then l.eraseIdx i else l) (pre ++ suf) = pre ++ suf.filter keep by
    simpa [eraseBack] using H l [] rfl
  intro suf
  induction suf with
  | nil => intro pre _; simp
  | cons a suf ih =>
    intro pre hl
    have hr : (List.range (a :: suf).length).map (· + pre.length) =
        pre.length :: (List.range suf.length).map (· + (pre ++ [a]).length) := by
      simp [List.range_succ_eq_map, Function.comp_def, Nat.succ_eq_add_one, Nat.add_comm,
        Nat.add_left_comm]
    have hi := ih (pre ++ [a]) (by simp [hl])
    rw [List.append_assoc, List.singleton_append, List.append_assoc, List.singleton_append] at hi
    rw [hr, List.foldr_cons, hi, h pre a suf _ hl]
    cases hk : keep a <;> simp [hk, List.eraseIdx_append_of_length_le]

/-- The same loop as a program, whose turns may throw. -/
theorem run_eraseBack {σ : Type} {body : ℕ → Prog σ PUnit} {keep : α → Bool} {l : List α}
    (st : List α → σ) (h : ∀ p a q t, l = p ++ a :: q → (body p.length).run (st (p ++ a :: t)) =
      .ok ⟨⟩ (st (if keep a then p ++ a :: t else p ++ t))) :
    (forM (List.range l.length).reverse body).run (st l) = .ok ⟨⟩ (st (l.filter keep)) := by
  suffices H : ∀ p q t, l = p ++ q → (forM (List.range p.length).reverse body).run (st (p ++ t)) =
      .ok ⟨⟩ (st (p.filter keep ++ t)) by simpa using H l [] [] (by simp)
  intro p
  induction p using List.reverseRecOn with
  | nil => intro q t _; rfl
  | append_singleton p a ih =>
    intro q t hp
    rw [List.append_assoc, List.singleton_append] at hp
    rw [List.length_append, List.length_singleton, List.range_succ, List.reverse_append,
      List.reverse_singleton, List.singleton_append, List.forM_cons, List.append_assoc,
      List.singleton_append, Prog.run_bind_ok (h p a q t hp)]
    cases hk : keep a
    · simpa [hk] using ih (a :: q) t hp
    · simpa [hk] using ih (a :: q) (a :: t) hp

end EraseBack

end Exec
