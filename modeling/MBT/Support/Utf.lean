import Mathlib

/-!
# Support — Utf

Texts of 16-bit units, the code points that they stand for, and their bytes in UTF-8.

* `flatMap_units_codePoints`: a text is known by its code points.
* `decode_encode`: the bytes of a code point are read back, a surrogate as a question mark.
* `decode_cut`, `decode_continuation`: the two halves of a code point whose bytes are cut are read as
  replacement characters.
* `cut_bytes`: where a number of bytes cuts a text.
-/

namespace Utf

/-! ### Units and code points -/

/-- The first half of a surrogate pair. -/
def High (u : UInt16) : Prop := 0xD800 ≤ u.toNat ∧ u.toNat < 0xDC00

/-- The second half. -/
def Low (u : UInt16) : Prop := 0xDC00 ≤ u.toNat ∧ u.toNat < 0xE000

/-- A code point that is a half of a pair. -/
def Surrogate (c : ℕ) : Prop := 0xD800 ≤ c ∧ c < 0xE000

instance (u : UInt16) : Decidable (High u) := inferInstanceAs (Decidable (_ ∧ _))
instance (u : UInt16) : Decidable (Low u) := inferInstanceAs (Decidable (_ ∧ _))
instance (c : ℕ) : Decidable (Surrogate c) := inferInstanceAs (Decidable (_ ∧ _))

/-- The code point of a pair. -/
def pairPoint (h l : UInt16) : ℕ := 0x10000 + (h.toNat - 0xD800) * 0x400 + (l.toNat - 0xDC00)

/-- The code points of a text; a surrogate that is in no pair is one. -/
def codePoints : List UInt16 → List ℕ
  | [] => []
  | [u] => [u.toNat]
  | h :: l :: s =>
    if High h ∧ Low l then pairPoint h l :: codePoints s else h.toNat :: codePoints (l :: s)

/-- The units of a code point. -/
def units (c : ℕ) : List UInt16 :=
  if c < 0x10000 then [.ofNat c]
  else [.ofNat (0xD800 + (c - 0x10000) / 0x400), .ofNat (0xDC00 + (c - 0x10000) % 0x400)]

/-- Every surrogate is in a pair. -/
def WellFormed (s : List UInt16) : Prop := ∀ c ∈ codePoints s, ¬ Surrogate c

/-- A small number is that of its unit. -/
theorem toNat_unit {n : ℕ} (h : n < 0x10000) : (UInt16.ofNat n).toNat = n := UInt16.toNat_ofNat_of_lt' h

/-- A unit is that of its number. -/
theorem units_toNat (u : UInt16) : units u.toNat = [u] := by
  rw [units, if_pos u.toNat_lt, UInt16.ofNat_toNat]

/-- A pair is that of its code point. -/
theorem units_pairPoint {h l : UInt16} (hh : High h) (hl : Low l) : units (pairPoint h l) = [h, l] := by
  obtain ⟨hh₁, hh₂⟩ := hh
  obtain ⟨hl₁, hl₂⟩ := hl
  have hhigh : 0xD800 + (pairPoint h l - 0x10000) / 0x400 = h.toNat := by
    unfold pairPoint
    omega
  have hlow : 0xDC00 + (pairPoint h l - 0x10000) % 0x400 = l.toNat := by
    unfold pairPoint
    omega
  have hle : ¬ pairPoint h l < 0x10000 := by
    unfold pairPoint
    omega
  rw [units, if_neg hle, hhigh, hlow, UInt16.ofNat_toNat, UInt16.ofNat_toNat]

/-- The code points of a text tell it. -/
theorem flatMap_units_codePoints (s : List UInt16) : (codePoints s).flatMap units = s := by
  induction s using codePoints.induct with
  | case1 => rfl
  | case2 u => rw [codePoints, List.flatMap_singleton, units_toNat]
  | case3 h l s hpair ih =>
    rw [codePoints, if_pos hpair, List.flatMap_cons, ih, units_pairPoint hpair.1 hpair.2]
    rfl
  | case4 h l s hpair ih =>
    rw [codePoints, if_neg hpair, List.flatMap_cons, ih, units_toNat]
    rfl

/-- Code points are bounded. -/
theorem lt_of_mem_codePoints {s : List UInt16} {c : ℕ} (h : c ∈ codePoints s) : c < 0x110000 := by
  induction s using codePoints.induct with
  | case1 => cases h
  | case2 u =>
    rw [codePoints, List.mem_singleton] at h
    have hu := u.toNat_lt
    omega
  | case3 a b s hpair ih =>
    rw [codePoints, if_pos hpair] at h
    rcases List.mem_cons.mp h with hc | h
    · obtain ⟨⟨ha₁, ha₂⟩, hb₁, hb₂⟩ := hpair
      unfold pairPoint at hc
      omega
    · exact ih h
  | case4 a b s hpair ih =>
    rw [codePoints, if_neg hpair] at h
    rcases List.mem_cons.mp h with rfl | h
    · have ha := a.toNat_lt
      omega
    · exact ih h

theorem codePoints_cons {u : UInt16} (hu : ¬ High u) (s : List UInt16) :
    codePoints (u :: s) = u.toNat :: codePoints s := by
  cases s with
  | nil => rfl
  | cons v s => rw [codePoints, if_neg fun h => hu h.1]

/-- No pair begins in a text without single surrogates and ends behind it. -/
theorem codePoints_append {s : List UInt16} (h : WellFormed s) (r : List UInt16) :
    codePoints (s ++ r) = codePoints s ++ codePoints r := by
  induction s using codePoints.induct with
  | case1 => rfl
  | case2 u =>
    have hu : ¬ High u := by
      rintro ⟨h₁, h₂⟩
      exact h u.toNat List.mem_cons_self ⟨h₁, by omega⟩
    exact codePoints_cons hu r
  | case3 a b s hpair ih =>
    rw [WellFormed, codePoints, if_pos hpair] at h
    rw [List.cons_append, List.cons_append, codePoints, if_pos hpair, codePoints, if_pos hpair,
      ih fun c hc => h c (List.mem_cons_of_mem _ hc), List.cons_append]
  | case4 a b s hpair ih =>
    rw [WellFormed, codePoints, if_neg hpair] at h
    rw [List.cons_append, List.cons_append, codePoints, if_neg hpair, codePoints, if_neg hpair,
      ← List.cons_append, ih fun c hc => h c (List.mem_cons_of_mem _ hc), List.cons_append]

/-! ### Bytes -/

/-- The bytes of a code point, by their unsigned values; a surrogate is written as a question mark. -/
def encode (c : ℕ) : List ℕ :=
  if Surrogate c then [0x3F]
  else if c < 0x80 then [c]
  else if c < 0x800 then [0xC0 + c / 0x40, 0x80 + c % 0x40]
  else if c < 0x10000 then [0xE0 + c / 0x1000, 0x80 + c / 0x40 % 0x40, 0x80 + c % 0x40]
  else [0xF0 + c / 0x40000, 0x80 + c / 0x1000 % 0x40, 0x80 + c / 0x40 % 0x40, 0x80 + c % 0x40]

/-- A code point has a byte. -/
theorem encode_length_pos (c : ℕ) : 0 < (encode c).length := by
  unfold encode
  split_ifs <;> exact Nat.succ_pos _

/-- And four at most. -/
theorem encode_length_le (c : ℕ) : (encode c).length ≤ 4 := by
  unfold encode
  split_ifs <;> simp

/-- The replacement character. -/
def replacement : UInt16 := 0xFFFD

/-- A code point of which the first bytes are read: the next has to be between two bounds, and `more`
follow it. -/
structure Pending where
  point : ℕ
  more : ℕ
  lower : ℕ
  upper : ℕ

/-- The first byte of a code point. -/
def start (b : ℕ) : List UInt16 × Option Pending :=
  if b < 0x80 then ([.ofNat b], none)
  else if 0xC2 ≤ b ∧ b < 0xE0 then ([], some ⟨b - 0xC0, 0, 0x80, 0xBF⟩)
  else if 0xE0 ≤ b ∧ b < 0xF0 then ([], some ⟨b - 0xE0, 1, if b = 0xE0 then 0xA0 else 0x80, 0xBF⟩)
  else if 0xF0 ≤ b ∧ b < 0xF5 then
    ([], some ⟨b - 0xF0, 2, if b = 0xF0 then 0x90 else 0x80, if b = 0xF4 then 0x8F else 0xBF⟩)
  else ([replacement], none)

/-- The text of some bytes; the longest beginning of a code point that is not continued is replaced. -/
def decodeFrom : Option Pending → List ℕ → List UInt16
  | none, [] => []
  | some _, [] => [replacement]
  | none, b :: s => (start b).1 ++ decodeFrom (start b).2 s
  | some p, b :: s =>
    if p.lower ≤ b ∧ b ≤ p.upper then
      let point := p.point * 0x40 + (b - 0x80)
      match p.more with
      | 0 => (if Surrogate point then [replacement] else units point) ++ decodeFrom none s
      | more + 1 => decodeFrom (some ⟨point, more, 0x80, 0xBF⟩) s
    else replacement :: (start b).1 ++ decodeFrom (start b).2 s

/-- The text of some bytes. -/
def decode (bytes : List ℕ) : List UInt16 := decodeFrom none bytes

example : decode [0x61, 0xC3, 0xA9, 0xE4, 0xBD] = [0x61, 0xE9, replacement] := by decide

/-- What is read of a code point that is written. -/
def replaced (c : ℕ) : List UInt16 := if Surrogate c then [0x3F] else units c

/-- A byte inside a code point. -/
def Continuation (b : ℕ) : Prop := 0x80 ≤ b ∧ b < 0xC0

variable {b c : ℕ} {p : Pending} {r : List ℕ}

/-- A byte below `0x80` is a character. -/
theorem decode_ascii (h : b < 0x80) (r : List ℕ) : decode (b :: r) = .ofNat b :: decode r := by
  rw [decode, decodeFrom, start, if_pos h]
  rfl

/-- A byte inside a code point whose first byte is missing. -/
theorem decode_continuation (h : Continuation b) (r : List ℕ) :
    decode (b :: r) = replacement :: decode r := by
  obtain ⟨h₁, h₂⟩ := h
  rw [decode, decodeFrom, start, if_neg (by omega), if_neg (by omega), if_neg (by omega),
    if_neg (by omega)]
  rfl

/-- Continuation bytes without a beginning are replaced one by one. -/
theorem decode_continuations {f : List ℕ} (h : ∀ b ∈ f, Continuation b) (r : List ℕ) :
    decode (f ++ r) = List.replicate f.length replacement ++ decode r := by
  induction f with
  | nil => rfl
  | cons b f ih =>
    rw [List.cons_append, decode_continuation (h b List.mem_cons_self),
      ih fun b hb => h b (List.mem_cons_of_mem _ hb)]
    rfl

/-- The last byte of a character. -/
theorem decodeFrom_last (h : p.lower ≤ b ∧ b ≤ p.upper) (hmore : p.more = 0) (r : List ℕ) :
    decodeFrom (some p) (b :: r) =
      (if Surrogate (p.point * 0x40 + (b - 0x80)) then [replacement]
        else units (p.point * 0x40 + (b - 0x80))) ++ decode r := by
  rw [decodeFrom, if_pos h, hmore]
  rfl

/-- A byte of a character that has more. -/
theorem decodeFrom_more {n : ℕ} (h : p.lower ≤ b ∧ b ≤ p.upper) (hmore : p.more = n + 1) (r : List ℕ) :
    decodeFrom (some p) (b :: r) = decodeFrom (some ⟨p.point * 0x40 + (b - 0x80), n, 0x80, 0xBF⟩) r := by
  rw [decodeFrom, if_pos h, hmore]

/-- The first of two bytes. -/
theorem start_two (h₁ : 0xC2 ≤ b) (h₂ : b < 0xE0) : start b = ([], some ⟨b - 0xC0, 0, 0x80, 0xBF⟩) := by
  rw [start, if_neg (by omega), if_pos ⟨h₁, h₂⟩]

/-- The first of three bytes. -/
theorem start_three (h₁ : 0xE0 ≤ b) (h₂ : b < 0xF0) :
    start b = ([], some ⟨b - 0xE0, 1, if b = 0xE0 then 0xA0 else 0x80, 0xBF⟩) := by
  rw [start, if_neg (by omega), if_neg (by omega), if_pos ⟨h₁, h₂⟩]

/-- The first of four bytes. -/
theorem start_four (h₁ : 0xF0 ≤ b) (h₂ : b < 0xF5) :
    start b =
      ([], some ⟨b - 0xF0, 2, if b = 0xF0 then 0x90 else 0x80, if b = 0xF4 then 0x8F else 0xBF⟩) := by
  rw [start, if_neg (by omega), if_neg (by omega), if_neg (by omega), if_pos ⟨h₁, h₂⟩]

/-- The first byte of a character opens it. -/
theorem decode_start (h : start b = ([], some p)) (r : List ℕ) :
    decode (b :: r) = decodeFrom (some p) r := by
  rw [decode, decodeFrom, h]
  rfl

/-- The bytes of a code point, by their number. -/
theorem encode_cases (hc : c < 0x110000) :
    (∃ b, b < 0x80 ∧ encode c = [b] ∧ replaced c = [.ofNat b]) ∨
    (¬ Surrogate c ∧ ∃ b₀ b₁, encode c = [b₀, b₁] ∧ 0xC2 ≤ b₀ ∧ b₀ < 0xE0 ∧ Continuation b₁ ∧
      (b₀ - 0xC0) * 0x40 + (b₁ - 0x80) = c) ∨
    (¬ Surrogate c ∧ ∃ b₀ b₁ b₂, encode c = [b₀, b₁, b₂] ∧ 0xE0 ≤ b₀ ∧ b₀ < 0xF0 ∧ Continuation b₁ ∧
      (b₀ = 0xE0 → 0xA0 ≤ b₁) ∧ Continuation b₂ ∧
      ((b₀ - 0xE0) * 0x40 + (b₁ - 0x80)) * 0x40 + (b₂ - 0x80) = c) ∨
    (¬ Surrogate c ∧ ∃ b₀ b₁ b₂ b₃, encode c = [b₀, b₁, b₂, b₃] ∧ 0xF0 ≤ b₀ ∧ b₀ < 0xF5 ∧ Continuation b₁ ∧
      (b₀ = 0xF0 → 0x90 ≤ b₁) ∧ (b₀ = 0xF4 → b₁ < 0x90) ∧ Continuation b₂ ∧ Continuation b₃ ∧
      (((b₀ - 0xF0) * 0x40 + (b₁ - 0x80)) * 0x40 + (b₂ - 0x80)) * 0x40 + (b₃ - 0x80) = c) := by
  unfold encode replaced
  by_cases hsurrogate : Surrogate c
  · rw [if_pos hsurrogate, if_pos hsurrogate]
    exact .inl ⟨0x3F, by omega, rfl, rfl⟩
  rw [if_neg hsurrogate, if_neg hsurrogate]
  unfold Continuation
  by_cases h₁ : c < 0x80
  · rw [if_pos h₁]
    have hunits : units c = [.ofNat c] := by
      rw [units, if_pos (by omega)]
    exact .inl ⟨c, h₁, rfl, hunits⟩
  rw [if_neg h₁]
  by_cases h₂ : c < 0x800
  · rw [if_pos h₂]
    exact .inr (.inl ⟨hsurrogate, _, _, rfl, by omega, by omega, by omega, by omega⟩)
  rw [if_neg h₂]
  by_cases h₃ : c < 0x10000
  · rw [if_pos h₃]
    exact .inr (.inr (.inl ⟨hsurrogate, _, _, _, rfl, by omega, by omega, by omega, by omega,
      by omega, by omega⟩))
  rw [if_neg h₃]
  exact .inr (.inr (.inr ⟨hsurrogate, _, _, _, _, rfl, by omega, by omega, by omega, by omega, by omega,
    by omega, by omega, by omega⟩))

/-- The second byte of three, and of four, is in the bounds that the first gives. -/
theorem decode_three {b₀ b₁ : ℕ} (h₁ : 0xE0 ≤ b₀) (h₂ : b₀ < 0xF0) (hb₁ : Continuation b₁)
    (hlower : b₀ = 0xE0 → 0xA0 ≤ b₁) (r : List ℕ) :
    decode (b₀ :: b₁ :: r) =
      decodeFrom (some ⟨(b₀ - 0xE0) * 0x40 + (b₁ - 0x80), 0, 0x80, 0xBF⟩) r := by
  obtain ⟨hb₁, hb₁'⟩ := hb₁
  rw [decode_start (start_three h₁ h₂), decodeFrom_more ⟨?_, by dsimp only; omega⟩ rfl]
  dsimp only
  split
  · exact hlower ‹_›
  · exact hb₁

/-- The first two of four bytes. -/
theorem decode_four {b₀ b₁ : ℕ} (h₁ : 0xF0 ≤ b₀) (h₂ : b₀ < 0xF5) (hb₁ : Continuation b₁)
    (hlower : b₀ = 0xF0 → 0x90 ≤ b₁) (hupper : b₀ = 0xF4 → b₁ < 0x90) (r : List ℕ) :
    decode (b₀ :: b₁ :: r) =
      decodeFrom (some ⟨(b₀ - 0xF0) * 0x40 + (b₁ - 0x80), 1, 0x80, 0xBF⟩) r := by
  obtain ⟨hb₁, hb₁'⟩ := hb₁
  rw [decode_start (start_four h₁ h₂), decodeFrom_more ⟨?_, ?_⟩ rfl]
  · dsimp only
    split
    · exact hlower ‹_›
    · exact hb₁
  · dsimp only
    split
    · exact Nat.le_of_lt_succ (hupper ‹_›)
    · omega

/-- A continuation byte of a character that has more. -/
theorem decodeFrom_continuation {point n : ℕ} (h : Continuation b) (r : List ℕ) :
    decodeFrom (some ⟨point, n + 1, 0x80, 0xBF⟩) (b :: r) =
      decodeFrom (some ⟨point * 0x40 + (b - 0x80), n, 0x80, 0xBF⟩) r :=
  decodeFrom_more ⟨h.1, Nat.le_of_lt_succ h.2⟩ rfl r

/-- The last byte of a code point that is no surrogate. -/
theorem decodeFrom_point {point : ℕ} (h : Continuation b) (hc : point * 0x40 + (b - 0x80) = c)
    (hsurrogate : ¬ Surrogate c) (r : List ℕ) :
    decodeFrom (some ⟨point, 0, 0x80, 0xBF⟩) (b :: r) = replaced c ++ decode r := by
  rw [decodeFrom_last ⟨h.1, Nat.le_of_lt_succ h.2⟩ rfl, hc, if_neg hsurrogate, replaced,
    if_neg hsurrogate]

/-- A code point is read back, unless it is replaced. -/
theorem decode_encode (hc : c < 0x110000) (r : List ℕ) :
    decode (encode c ++ r) = replaced c ++ decode r := by
  rcases encode_cases hc with ⟨b, hb, hencode, hread⟩ | ⟨hs, b₀, b₁, hencode, h₀, h₀', h₁, hpoint⟩ |
    ⟨hs, b₀, b₁, b₂, hencode, h₀, h₀', h₁, hlower, h₂, hpoint⟩ |
    ⟨hs, b₀, b₁, b₂, b₃, hencode, h₀, h₀', h₁, hlower, hupper, h₂, h₃, hpoint⟩
  · rw [hencode, hread]
    exact decode_ascii hb r
  · rw [hencode]
    exact (decode_start (start_two h₀ h₀') _).trans (decodeFrom_point h₁ hpoint hs r)
  · rw [hencode]
    exact (decode_three h₀ h₀' h₁ hlower _).trans (decodeFrom_point h₂ hpoint hs r)
  · rw [hencode]
    exact (decode_four h₀ h₀' h₁ hlower hupper _).trans
      ((decodeFrom_continuation h₂ _).trans (decodeFrom_point h₃ hpoint hs r))

/-- The beginning of a code point without its last bytes, and these. -/
theorem decode_cut (hc : c < 0x110000) {e f : List ℕ} (h : encode c = e ++ f) (he : e ≠ [])
    (hf : f ≠ []) :
    decode e = [replacement] ∧ ∀ b ∈ f, Continuation b := by
  obtain ⟨x, e, rfl⟩ := List.exists_cons_of_ne_nil he
  obtain ⟨y, f, rfl⟩ := List.exists_cons_of_ne_nil hf
  rcases encode_cases hc with ⟨b, hb, hencode, hread⟩ | ⟨hs, b₀, b₁, hencode, h₀, h₀', h₁, hpoint⟩ |
    ⟨hs, b₀, b₁, b₂, hencode, h₀, h₀', h₁, hlower, h₂, hpoint⟩ |
    ⟨hs, b₀, b₁, b₂, b₃, hencode, h₀, h₀', h₁, hlower, hupper, h₂, h₃, hpoint⟩
  · rw [hencode, List.cons_append] at h
    cases e <;> cases (List.cons.inj h).2
  · rw [hencode, List.cons_append] at h
    cases e with
    | nil =>
      cases h
      exact ⟨decode_start (start_two h₀ h₀') [], List.forall_mem_singleton.mpr h₁⟩
    | cons x e => cases e <;> cases (List.cons.inj (List.cons.inj h).2).2
  · rw [hencode, List.cons_append] at h
    cases e with
    | nil =>
      cases h
      exact ⟨decode_start (start_three h₀ h₀') [], List.forall_mem_cons.mpr ⟨h₁,
        List.forall_mem_singleton.mpr h₂⟩⟩
    | cons x e =>
      cases e with
      | nil =>
        cases h
        exact ⟨decode_three h₀ h₀' h₁ hlower [], List.forall_mem_singleton.mpr h₂⟩
      | cons x e => cases e <;> cases (List.cons.inj (List.cons.inj (List.cons.inj h).2).2).2
  · rw [hencode, List.cons_append] at h
    cases e with
    | nil =>
      cases h
      exact ⟨decode_start (start_four h₀ h₀') [], List.forall_mem_cons.mpr ⟨h₁, List.forall_mem_cons.mpr
        ⟨h₂, List.forall_mem_singleton.mpr h₃⟩⟩⟩
    | cons x e =>
      cases e with
      | nil =>
        cases h
        exact ⟨decode_four h₀ h₀' h₁ hlower hupper [], List.forall_mem_cons.mpr
          ⟨h₂, List.forall_mem_singleton.mpr h₃⟩⟩
      | cons x e =>
        cases e with
        | nil =>
          cases h
          exact ⟨(decode_four h₀ h₀' h₁ hlower hupper _).trans (decodeFrom_continuation h₂ []),
            List.forall_mem_singleton.mpr h₃⟩
        | cons x e => cases e <;> cases (List.cons.inj (List.cons.inj (List.cons.inj (List.cons.inj h).2).2).2).2

/-! ### Texts of code points -/

variable {cs : List ℕ}

/-- The bytes of some code points. -/
def bytes (cs : List ℕ) : List ℕ := cs.flatMap encode

/-- What is read of them. -/
def readable (cs : List ℕ) : List UInt16 := cs.flatMap replaced

@[simp] theorem bytes_nil : bytes [] = [] := rfl

@[simp] theorem bytes_cons (c : ℕ) (cs : List ℕ) :
    bytes (c :: cs) = encode c ++ bytes cs := List.flatMap_cons

@[simp] theorem bytes_append (cs ds : List ℕ) :
    bytes (cs ++ ds) = bytes cs ++ bytes ds := List.flatMap_append

@[simp] theorem readable_cons (c : ℕ) (cs : List ℕ) : readable (c :: cs) = replaced c ++ readable cs :=
  List.flatMap_cons

@[simp] theorem readable_append (cs ds : List ℕ) : readable (cs ++ ds) = readable cs ++ readable ds :=
  List.flatMap_append

/-- There are as many bytes as code points at least. -/
theorem length_le_bytes (cs : List ℕ) : cs.length ≤ (bytes cs).length := by
  induction cs with
  | nil => exact le_rfl
  | cons c cs ih =>
    have hpos := encode_length_pos c
    rw [List.length_cons, bytes_cons, List.length_append]
    omega

/-- The bytes of a text are read back. -/
theorem decode_bytes (h : ∀ c ∈ cs, c < 0x110000) (r : List ℕ) :
    decode (bytes cs ++ r) = readable cs ++ decode r := by
  induction cs with
  | nil => rfl
  | cons c cs ih =>
    rw [bytes_cons, List.append_assoc, decode_encode (h c List.mem_cons_self),
      ih fun c hc => h c (List.mem_cons_of_mem _ hc), readable_cons, List.append_assoc]

/-- Where `n` bytes cut a text: between two code points or inside one. -/
theorem cut_bytes (cs : List ℕ) {n : ℕ} (hn : n ≤ (bytes cs).length) :
    (∃ p q, cs = p ++ q ∧ (bytes p).length = n) ∨
    ∃ p c q e f, cs = p ++ c :: q ∧ encode c = e ++ f ∧ e ≠ [] ∧ f ≠ [] ∧ (bytes p ++ e).length = n := by
  induction cs generalizing n with
  | nil =>
    have hzero : n = 0 := Nat.le_zero.mp hn
    exact .inl ⟨[], [], rfl, hzero.symm⟩
  | cons c cs ih =>
    rcases Nat.lt_or_ge n (encode c).length with hlt | hge
    · cases n with
      | zero => exact .inl ⟨[], c :: cs, rfl, rfl⟩
      | succ n =>
        refine .inr ⟨[], c, cs, (encode c).take (n + 1), (encode c).drop (n + 1), rfl,
          (List.take_append_drop _ _).symm, ?_, ?_, ?_⟩
        · exact List.ne_nil_of_length_pos (by rw [List.length_take]; omega)
        · exact List.ne_nil_of_length_pos (by rw [List.length_drop]; omega)
        · rw [bytes_nil, List.nil_append, List.length_take]
          omega
    · rw [bytes_cons, List.length_append] at hn
      rcases @ih (n - (encode c).length) (by omega) with ⟨p, q, rfl, hp⟩ | ⟨p, d, q, e, f, rfl, hd, he, hf, hp⟩
      · refine .inl ⟨c :: p, q, rfl, ?_⟩
        rw [bytes_cons, List.length_append]
        omega
      · refine .inr ⟨c :: p, d, q, e, f, rfl, hd, he, hf, ?_⟩
        rw [bytes_cons, List.append_assoc, List.length_append]
        omega

/-- What is read of a code point has as many units as the code point. -/
theorem length_replaced (c : ℕ) : (replaced c).length = (units c).length := by
  rw [replaced]
  split
  · rename_i hs
    obtain ⟨h₁, h₂⟩ := hs
    rw [units, if_pos (by omega)]
    rfl
  · rfl

/-- Replacing changes no length. -/
theorem length_readable (cs : List ℕ) : (readable cs).length = (cs.flatMap units).length := by
  rw [readable, List.length_flatMap, List.length_flatMap]
  simp only [length_replaced]

/-- It has at most as many units as bytes, and as many only where there is one byte. -/
theorem length_encode (hc : c < 0x110000) :
    (replaced c).length ≤ (encode c).length ∧
      ((replaced c).length = (encode c).length → Surrogate c ∨ c < 0x80) := by
  unfold replaced encode units
  by_cases hs : Surrogate c
  · rw [if_pos hs, if_pos hs]
    exact ⟨le_rfl, fun _ => .inl hs⟩
  rw [if_neg hs, if_neg hs]
  by_cases h₁ : c < 0x80
  · rw [if_pos h₁, if_pos (by omega)]
    exact ⟨le_rfl, fun _ => .inr h₁⟩
  rw [if_neg h₁]
  by_cases h₂ : c < 0x800
  · rw [if_pos h₂, if_pos (by omega)]
    exact ⟨by simp, by simp⟩
  rw [if_neg h₂]
  by_cases h₃ : c < 0x10000
  · rw [if_pos h₃, if_pos h₃]
    exact ⟨by simp, by simp⟩
  · rw [if_neg h₃, if_neg h₃]
    exact ⟨by simp, by simp⟩

/-- There are as many bytes as units at least. -/
theorem length_readable_le (h : ∀ c ∈ cs, c < 0x110000) : (readable cs).length ≤ (bytes cs).length := by
  induction cs with
  | nil => exact le_rfl
  | cons c cs ih =>
    rw [readable_cons, bytes_cons, List.length_append, List.length_append]
    exact Nat.add_le_add (length_encode (h c List.mem_cons_self)).1
      (ih fun c hc => h c (List.mem_cons_of_mem _ hc))

/-- A text with as many bytes as units. -/
theorem ascii_of_length (h : ∀ c ∈ cs, c < 0x110000) (hlen : (readable cs).length = (bytes cs).length) :
    ∀ c ∈ cs, Surrogate c ∨ c < 0x80 := by
  induction cs with
  | nil => exact List.forall_mem_nil _
  | cons c cs ih =>
    have hcs := fun d hd => h d (List.mem_cons_of_mem c hd)
    have hc := length_encode (h c List.mem_cons_self)
    have hle := length_readable_le hcs
    rw [readable_cons, bytes_cons, List.length_append, List.length_append] at hlen
    rw [List.forall_mem_cons]
    exact ⟨hc.2 (by omega), ih hcs (by omega)⟩

/-- The text itself is read exactly where it has no single surrogate. -/
theorem readable_eq_iff (cs : List ℕ) : readable cs = cs.flatMap units ↔ ∀ c ∈ cs, ¬ Surrogate c := by
  induction cs with
  | nil => exact iff_of_true rfl (List.forall_mem_nil _)
  | cons c cs ih =>
    have happend : readable (c :: cs) = (c :: cs).flatMap units ↔
        replaced c = units c ∧ readable cs = cs.flatMap units := by
      rw [readable_cons, List.flatMap_cons]
      constructor
      · exact fun h => List.append_inj h (length_replaced c)
      · rintro ⟨hc, hcs⟩
        rw [hc, hcs]
    rw [happend, ih, List.forall_mem_cons, replaced]
    refine and_congr_left fun _ => ?_
    split
    · rename_i hs
      refine iff_of_false ?_ (not_not_intro hs)
      obtain ⟨h₁, h₂⟩ := hs
      rw [units, if_pos (by omega)]
      intro h
      have hc := congrArg UInt16.toNat (List.cons.inj h).1
      rw [toNat_unit (by omega)] at hc
      have hmark : UInt16.toNat 0x3F = 0x3F := rfl
      omega
    · rename_i hs
      exact iff_of_true rfl hs

/-- A code point has the replacement at most once. -/
theorem count_units_le (hc : c < 0x110000) : (units c).count replacement ≤ 1 := by
  rw [units]
  split
  · exact List.count_le_length
  · rename_i hle
    have hne : ∀ n < 0x10000, n ≠ 0xFFFD → UInt16.ofNat n ≠ replacement := by
      intro n hn hne h
      have hnat := congrArg UInt16.toNat h
      rw [toNat_unit hn] at hnat
      exact hne hnat
    have hhigh := hne (0xD800 + (c - 0x10000) / 0x400) (by omega) (by omega)
    have hlow := hne (0xDC00 + (c - 0x10000) % 0x400) (by omega) (by omega)
    rw [List.count_cons_of_ne hhigh, List.count_cons_of_ne hlow]
    exact Nat.zero_le 1

/-- No replacement character is lost. -/
theorem count_readable (cs : List ℕ) :
    (cs.flatMap units).count replacement ≤ (readable cs).count replacement := by
  induction cs with
  | nil => exact le_rfl
  | cons c cs ih =>
    rw [readable_cons, List.flatMap_cons, List.count_append, List.count_append]
    refine Nat.add_le_add ?_ ih
    rw [replaced]
    split
    · rename_i hs
      obtain ⟨h₁, h₂⟩ := hs
      have hne : UInt16.ofNat c ≠ replacement := by
        intro h
        have hnat := congrArg UInt16.toNat h
        rw [toNat_unit (by omega)] at hnat
        have hrep : replacement.toNat = 0xFFFD := rfl
        omega
      rw [units, if_pos (by omega), List.count_cons_of_ne hne]
      exact Nat.zero_le _
    · exact le_rfl

/-- Zeros are read as zeros. -/
theorem decode_zeros (n : ℕ) : decode (List.replicate n 0) = List.replicate n 0 := by
  induction n with
  | zero => rfl
  | succ n ih =>
    rw [List.replicate_succ, decode_ascii (by omega), ih]
    rfl

/-- A code point that is no surrogate is found again. -/
theorem codePoints_units (hc : c < 0x110000) (hs : ¬ Surrogate c) (s : List UInt16) :
    codePoints (units c ++ s) = c :: codePoints s := by
  rw [units]
  split
  · rename_i hlt
    have hnat : (UInt16.ofNat c).toNat = c := toNat_unit hlt
    have hhigh : ¬ High (.ofNat c) := by
      rintro ⟨h₁, h₂⟩
      rw [hnat] at h₁ h₂
      exact hs ⟨h₁, by omega⟩
    rw [List.singleton_append, codePoints_cons hhigh, hnat]
  · rename_i hle
    have hh : (UInt16.ofNat (0xD800 + (c - 0x10000) / 0x400)).toNat = 0xD800 + (c - 0x10000) / 0x400 :=
      toNat_unit (by omega)
    have hl : (UInt16.ofNat (0xDC00 + (c - 0x10000) % 0x400)).toNat = 0xDC00 + (c - 0x10000) % 0x400 :=
      toNat_unit (by omega)
    have hpair : High (.ofNat (0xD800 + (c - 0x10000) / 0x400)) ∧
        Low (.ofNat (0xDC00 + (c - 0x10000) % 0x400)) := by
      unfold High Low
      omega
    have hpoint : pairPoint (.ofNat (0xD800 + (c - 0x10000) / 0x400))
        (.ofNat (0xDC00 + (c - 0x10000) % 0x400)) = c := by
      unfold pairPoint
      omega
    rw [List.cons_append, List.singleton_append, codePoints, if_pos hpair, hpoint]

/-- The units of code points tell them. -/
theorem codePoints_flatMap_units (h : ∀ c ∈ cs, c < 0x110000) (hs : ∀ c ∈ cs, ¬ Surrogate c) :
    codePoints (cs.flatMap units) = cs := by
  induction cs with
  | nil => rfl
  | cons c cs ih =>
    rw [List.flatMap_cons, codePoints_units (h c List.mem_cons_self) (hs c List.mem_cons_self),
      ih (fun c hc => h c (List.mem_cons_of_mem _ hc)) fun c hc => hs c (List.mem_cons_of_mem _ hc)]

end Utf
