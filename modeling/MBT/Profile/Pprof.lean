import Mathlib.Data.List.Basic
import Mathlib.Data.List.TakeWhile
import Mathlib.Data.Int.Order.Basic
import Mathlib.Tactic.Ring
import MBT.Profile.ProfileData

/-!
# Profile — Pprof

The reader of the CPU profiles, which is `pprof`'s.  It finds out the size and the byte order of the
slots and goes through the file in windows.

* `get_at`: as long as it goes forward, the stream is the list of all slots.
* `counts_of_session`: what it reads from the file of a session.
* `readCPUProfile_stride`: the size of the windows does not matter, whatever the file is.
-/

namespace MBT.Pprof
open Words

/-- Words of four bytes, joined two by two. -/
def joined (big : Bool) : List ℕ → List ℕ
  | a :: b :: ws => (if big then b + a * 2 ^ 32 else a + b * 2 ^ 32) :: joined big ws
  | _ => []

/-- What `overflow` makes of the bytes it reads. -/
def decode (big wide : Bool) (str : List UInt8) : List ℕ :=
  if wide then joined big (unpack big str) else unpack big str

/-- Two words of four bytes make one. -/
theorem length_joined (big : Bool) (ws : List ℕ) : (joined big ws).length = ws.length / 2 := by
  induction ws using joined.induct with
  | case1 a b ws ih =>
    simp only [joined, List.length_cons, ih]
    omega
  | case2 ws hshort =>
    match ws, hshort with
    | [], _ => rfl
    | [_], _ => simp [joined]
    | a :: b :: ws, hshort => exact absurd rfl (hshort a b ws)

theorem joined_append (big : Bool) {ws : List ℕ} (h : 2 ∣ ws.length) (ws' : List ℕ) :
    joined big (ws ++ ws') = joined big ws ++ joined big ws' := by
  induction ws using joined.induct with
  | case1 a b ws ih =>
    have hrest : 2 ∣ ws.length := by
      simp only [List.length_cons] at h
      omega
    simp only [List.cons_append, joined, ih hrest]
  | case2 ws hshort =>
    match ws, hshort, h with
    | [], _, _ => rfl
    | [_], _, h => simp at h
    | a :: b :: ws, hshort, _ => exact absurd rfl (hshort a b ws)

/-- The size of a slot. -/
def sizeOf (wide : Bool) : ℕ := if wide then 8 else 4

@[simp] theorem decode_nil (big wide : Bool) : decode big wide [] = [] := by cases wide <;> rfl

/-- How many slots some bytes have. -/
theorem length_decode (big wide : Bool) (str : List UInt8) :
    (decode big wide str).length = str.length / sizeOf wide := by
  cases wide
  · exact length_unpack big str
  · simp only [decode, if_true, length_joined, length_unpack, sizeOf]
    omega

theorem decode_append (big wide : Bool) {str : List UInt8} (h : sizeOf wide ∣ str.length)
    (str' : List UInt8) : decode big wide (str ++ str') = decode big wide str ++ decode big wide str' := by
  cases wide
  · exact unpack_append big h str'
  · have hfour : 4 ∣ str.length := Dvd.dvd.trans (by decide) h
    have htwo : 2 ∣ (unpack big str).length := by
      rw [length_unpack]
      obtain ⟨n, hn⟩ := h
      simp only [sizeOf, if_true] at hn
      exact ⟨n, by omega⟩
    simp only [decode, if_true, unpack_append big hfour, joined_append big htwo]

/-- A slot is read back. -/
theorem decode_word (big wide : Bool) {n : ℕ} (h : n < 256 ^ sizeOf wide) :
    decode big wide (bytes big (sizeOf wide) n) = [n] := by
  cases wide
  · exact unpack_word big (by simpa [sizeOf] using h)
  · have hlow : n % 2 ^ 32 < 2 ^ 32 := Nat.mod_lt _ (by norm_num)
    have hhigh : n / 2 ^ 32 < 2 ^ 32 := by
      simp only [sizeOf, if_true] at h
      omega
    have hvalue : n % 2 ^ 32 + n / 2 ^ 32 * 2 ^ 32 = n := Nat.mod_add_div' n _
    simp only [decode, sizeOf, if_true, bytes_eight]
    -- the lower word is the second one where the greatest byte comes first
    cases big
    · simp only [Bool.false_eq_true, if_false, unpack_bytes false hlow, unpack_word false hhigh, joined]
      rw [hvalue]
    · simp only [if_true, unpack_bytes true hhigh, unpack_word true hlow, joined]
      rw [hvalue]

/-- The stream reads what a machine writes. -/
theorem decode_bytes (m : ProfileData.SlotType) {slots : List ℕ} (h : ∀ n ∈ slots, n < 256 ^ m.size)
    (str : List UInt8) : decode m.big m.wide (m.bytes slots ++ str) = slots ++ decode m.big m.wide str := by
  induction slots with
  | nil => rfl
  | cons n slots ih =>
    obtain ⟨hn, hrest⟩ := List.forall_mem_cons.mp h
    have hcons : m.bytes (n :: slots) ++ str = bytes m.big m.size n ++ (m.bytes slots ++ str) := by
      rw [ProfileData.SlotType.bytes, List.flatMap_cons, List.append_assoc]
      rfl
    have hlength : sizeOf m.wide ∣ (bytes m.big m.size n).length := by
      rw [length_bytes]
      exact dvd_rfl
    rw [hcons, decode_append _ _ hlength, ih hrest]
    exact congrArg (· ++ (slots ++ decode m.big m.wide str)) (decode_word m.big m.wide hn)

/-- `file` is what is not read yet; `wide` is an `$address_length` of 16. -/
structure CpuProfileStream where
  file : List UInt8
  base : ℕ
  stride : ℕ
  slots : List ℕ
  big : Bool
  wide : Bool
  stride_pos : 0 < stride

/-- The stride, which tests may change. -/
def strideOf (testStride : ℕ) : ℕ := if 0 < testStride then testStride else 512 * 1024

/-- The stride is positive. -/
theorem strideOf_pos (testStride : ℕ) : 0 < strideOf testStride := by
  rw [strideOf]
  split
  · assumption
  · norm_num

namespace CpuProfileStream

/-- `new`: the first two slots tell the size and the byte order. -/
def new (fname : String) (testStride : ℕ) (file : List UInt8) : Except String CpuProfileStream :=
  let stream := fun file slots big wide =>
    (⟨file, 0, strideOf testStride, slots, big, wide, strideOf_pos testStride⟩ : CpuProfileStream)
  let str := file.take 8
  let file := file.drop 8
  if str = List.replicate 8 0 then
    let str := file.take 8
    let file := file.drop 8
    let pair := fun big => (unpack big str).getD 0 0 + (unpack big str).getD 1 0
    if (str.drop 4).take 4 = List.replicate 4 0 then .ok (stream file [0, pair false] false true)
    else if str.take 4 = List.replicate 4 0 then .ok (stream file [0, pair true] true true)
    else .error (fname ++ ": header size >= 2**32\n")
  else if (str.drop 6).take 2 = List.replicate 2 0 then .ok (stream file (unpack false str) false false)
  else if (str.drop 4).take 2 = List.replicate 2 0 then .ok (stream file (unpack true str) true false)
  else .error (fname ++ ": header size >= 2**16\n")

/-- Reads the next stride of the file; what was read before is given up. -/
def overflow (s : CpuProfileStream) : CpuProfileStream :=
  { s with
    base := s.base + s.slots.length
    slots := decode s.big s.wide (s.file.take s.stride)
    file := s.file.drop s.stride }

/-- Reading on comes to an end. -/
theorem overflow_decreases (s : CpuProfileStream) (h : s.slots ≠ []) :
    s.overflow.file.length + min s.overflow.slots.length 1 < s.file.length + min s.slots.length 1 := by
  have hslots : 0 < s.slots.length := List.length_pos_iff.mpr h
  rcases Nat.eq_zero_or_pos s.file.length with hend | hmore
  · have hnil : s.file = [] := List.length_eq_zero_iff.mp hend
    simp only [overflow, hnil, List.take_nil, List.drop_nil, decode_nil, List.length_nil]
    omega
  · have hstride := s.stride_pos
    simp only [overflow, List.length_drop]
    omega

/-- The slot at an index, or -1. -/
def get (s : CpuProfileStream) (idx : ℤ) : ℤ × CpuProfileStream :=
  if h : s.slots = [] then (-1, s)
  else if idx < s.base then (-1, s)
  else if s.base + (s.slots.length - 1) < idx then s.overflow.get idx
  else (s.slots.getD (idx - s.base).toNat 0, s)
termination_by s.file.length + min s.slots.length 1
decreasing_by exact s.overflow_decreases h

/-- No index from here on has a slot. -/
def total (s : CpuProfileStream) : ℕ := s.base + s.slots.length + s.file.length

/-- Reading on finds no slots beyond those there are. -/
theorem total_overflow_le (s : CpuProfileStream) : s.overflow.total ≤ s.total := by
  have hle : (decode s.big s.wide (s.file.take s.stride)).length ≤ (s.file.take s.stride).length := by
    rw [length_decode]
    exact Nat.div_le_self _ _
  rw [List.length_take] at hle
  simp only [total, overflow, List.length_drop]
  omega

/-- Getting a slot finds no slots beyond those there are, and `-1` only at the end. -/
theorem get_total (s : CpuProfileStream) (idx : ℤ) : (s.get idx).2.total ≤ s.total ∧
    -1 ≤ (s.get idx).1 ∧ ((s.get idx).1 ≠ -1 → idx < s.total) := by
  rw [get]
  split
  · exact ⟨le_rfl, le_rfl, fun h => absurd rfl h⟩
  split
  · exact ⟨le_rfl, le_rfl, fun h => absurd rfl h⟩
  split
  · rename_i h _ _
    obtain ⟨hle, hget, hlt⟩ := get_total s.overflow idx
    have hoverflow := s.total_overflow_le
    exact ⟨hle.trans hoverflow, hget, fun hne => by have hidx := hlt hne; omega⟩
  · rename_i hin
    refine ⟨le_rfl, ?_, fun _ => ?_⟩
    · simp only
      omega
    · rw [total]
      omega
termination_by s.file.length + min s.slots.length 1
decreasing_by exact s.overflow_decreases ‹_›

/-- The slot at an index of all slots, or -1. -/
def slotAt (all : List ℕ) (i : ℕ) : ℤ := all[i]?.elim (-1) fun n => n

/-- The window is on all slots, and nothing is read before `i`. -/
structure At (all : List ℕ) (wide : Bool) (i : ℕ) (s : CpuProfileStream) : Prop where
  window : ∃ seen, all = seen ++ s.slots ++ decode s.big s.wide s.file ∧ seen.length = s.base
  ended : s.slots = [] → decode s.big s.wide s.file = []
  whole : sizeOf s.wide ∣ s.stride
  wide_eq : s.wide = wide
  base_le : s.base ≤ i

variable {all : List ℕ} {wide : Bool} {i : ℕ} {s : CpuProfileStream}

/-- Before anything is read. -/
theorem At.start (hbase : s.base = 0) (hended : s.slots = [] → decode s.big s.wide s.file = [])
    (hwhole : sizeOf s.wide ∣ s.stride) : At (s.slots ++ decode s.big s.wide s.file) s.wide 0 s :=
  ⟨⟨[], rfl, hbase.symm⟩, hended, hwhole, rfl, hbase.le⟩

theorem At.mono (h : At all wide i s) {j : ℕ} (hij : i ≤ j) : At all wide j s :=
  ⟨h.window, h.ended, h.whole, h.wide_eq, h.base_le.trans hij⟩

/-- The window goes on when nothing in it is needed. -/
theorem At.overflow (h : At all wide i s) (hbeyond : s.base + s.slots.length ≤ i) :
    At all wide i s.overflow := by
  obtain ⟨seen, hall, hseen⟩ := h.window
  have hrest : decode s.big s.wide s.file = decode s.big s.wide (s.file.take s.stride) ++
      decode s.big s.wide (s.file.drop s.stride) := by
    rcases Nat.le_total s.stride s.file.length with hlong | hshort
    · have hdvd : sizeOf s.wide ∣ (s.file.take s.stride).length := by
        rw [List.length_take, Nat.min_eq_left hlong]
        exact h.whole
      rw [← decode_append _ _ hdvd, List.take_append_drop]
    · rw [List.take_of_length_le hshort, List.drop_eq_nil_of_le hshort, decode_nil, List.append_nil]
  refine ⟨⟨seen ++ s.slots, ?_, ?_⟩, fun hnil => ?_, h.whole, h.wide_eq, hbeyond⟩
  · rw [hall, hrest, CpuProfileStream.overflow, List.append_assoc (seen ++ s.slots)]
  · rw [List.length_append, hseen]
    rfl
  · -- a whole stride has a slot, so the file is at its end
    have hzero : (s.file.take s.stride).length / sizeOf s.wide = 0 := by
      rw [← length_decode s.big]
      exact List.length_eq_zero_iff.mpr hnil
    rcases Nat.le_total s.stride s.file.length with hlong | hshort
    · rw [List.length_take, Nat.min_eq_left hlong] at hzero
      have hstride := Nat.div_mul_cancel h.whole
      rw [hzero, Nat.zero_mul] at hstride
      exact absurd hstride s.stride_pos.ne
    · rw [CpuProfileStream.overflow, List.drop_eq_nil_of_le hshort, decode_nil]

/-- Reading forward gives the slots of the list. -/
theorem get_at {s : CpuProfileStream} (h : At all wide i s) :
    (s.get i).1 = slotAt all i ∧ At all wide i (s.get i).2 := by
  obtain ⟨seen, hall, hseen⟩ := h.window
  have hlook : ¬ ((i : ℤ) < s.base) := by
    have hle := h.base_le
    omega
  rw [get, if_neg hlook]
  split
  · -- an empty window: everything was read
    rename_i hnil
    have hend : all.length ≤ i := by
      rw [hall, hnil, h.ended hnil, List.append_nil, List.append_nil, hseen]
      exact h.base_le
    refine ⟨?_, h⟩
    rw [slotAt, List.getElem?_eq_none hend]
    rfl
  · rename_i hne
    split
    · -- the next window is nearer to the end of the file, as for `get`
      rename_i hbeyond
      exact get_at (h.overflow (by omega))
    · rename_i hin
      have hpos : 0 < s.slots.length := List.length_pos_iff.mpr hne
      have hbase := h.base_le
      have hlt : i - s.base < s.slots.length := by omega
      have hidx : ((i : ℤ) - s.base).toNat = i - s.base := by omega
      refine ⟨?_, h⟩
      rw [slotAt, hall, List.append_assoc, List.getElem?_append_right (hseen ▸ hbase), hseen,
        List.getElem?_append_left hlt, hidx, List.getD_eq_getElem?_getD, List.getElem?_eq_getElem hlt]
      rfl
termination_by s.file.length + min s.slots.length 1
decreasing_by exact s.overflow_decreases ‹_›

end CpuProfileStream

/-- `sprintf("%0*x")` to the length of an address. -/
def hex (wide : Bool) (pc : ℤ) : String :=
  let digits := Nat.toDigits 16 (pc % 2 ^ 64).toNat
  String.ofList (List.replicate ((if wide then 16 else 8) - digits.length) '0' ++ digits)

/-- What is added up: the counts of the keys, and the pcs that were seen. -/
structure Counts where
  profile : String → Option ℤ
  pcs : String → Bool

/-- `$profile->{$k} += $n`. -/
def Counts.addEntry (r : Counts) (k : String) (n : ℤ) : Counts :=
  { r with profile := Function.update r.profile k (some ((r.profile k).getD 0 + n)) }

/-- Marks the pcs as seen. -/
def Counts.addPcs (r : Counts) (pcs : List String) : Counts :=
  { r with pcs := fun pc => r.pcs pc || pcs.contains pc }

/-- The texts of the stack entries from `j` on; a caller's pc goes back to its call. -/
def stackFrom (symbolized : Bool) (s : CpuProfileStream) (i : ℤ) (j : ℕ) :
    ℕ → List String × CpuProfileStream
  | 0 => ([], s)
  | d + 1 =>
    let pc := (s.get (i + j)).1
    let s := (s.get (i + j)).2
    let pc := if 0 < j ∧ symbolized = false then pc - 1 else pc
    let k := stackFrom symbolized s i (j + 1) d
    (hex s.wide pc :: k.1, k.2)

/-- Reading a stack finds no slots beyond those there are. -/
theorem stackFrom_total (symbolized : Bool) (s : CpuProfileStream) (i : ℤ) (j d : ℕ) :
    (stackFrom symbolized s i j d).2.total ≤ s.total := by
  induction d generalizing s j with
  | zero => exact le_rfl
  | succ d ih => exact (ih _ _).trans (s.get_total _).1

/-- The next entry is nearer to the end. -/
theorem entry_decreases (symbolized : Bool) (s : CpuProfileStream) (i : ℤ) (h : (s.get i).1 ≠ -1) :
    ((stackFrom symbolized ((((s.get i).2.get i).2.get (i + 1)).2.get (i + 2)).2 (i + 2) 0
        (((s.get i).2.get i).2.get (i + 1)).1.toNat).2.total -
      (i + 2 + (((s.get i).2.get i).2.get (i + 1)).1)).toNat < (s.total - i).toNat := by
  obtain ⟨h₁, -, hlt⟩ := s.get_total i
  obtain ⟨h₂, -, -⟩ := (s.get i).2.get_total i
  obtain ⟨h₃, hd, -⟩ := ((s.get i).2.get i).2.get_total (i + 1)
  obtain ⟨h₄, -, -⟩ := (((s.get i).2.get i).2.get (i + 1)).2.get_total (i + 2)
  have hk := stackFrom_total symbolized ((((s.get i).2.get i).2.get (i + 1)).2.get (i + 2)).2 (i + 2) 0
    (((s.get i).2.get i).2.get (i + 1)).1.toNat
  have hi := hlt h
  omega

/-- Reads the entries from slot `i` on; with what is added up comes the slot after the end marker. -/
def readEntries (fname : String) (symbolized : Bool) (s : CpuProfileStream) (i : ℤ) (r : Counts) :
    Except String (Counts × ℤ) :=
  if h : (s.get i).1 = -1 then .ok (r, i)
  else
    let s₁ := (s.get i).2
    let n := (s₁.get i).1
    let s₂ := (s₁.get i).2
    let d := (s₂.get (i + 1)).1
    let s₃ := (s₂.get (i + 1)).2
    if 2 ^ 16 < d then .error (fname ++ ": stack trace depth >= 2**32\n")
    else
      let s₄ := (s₃.get (i + 2)).2
      if (s₃.get (i + 2)).1 = 0 then .ok (r, i + 2 + d)
      else
        let k := stackFrom symbolized s₄ (i + 2) 0 d.toNat
        readEntries fname symbolized k.2 (i + 2 + d)
          ((r.addPcs k.1).addEntry ("\n".intercalate k.1) n)
termination_by (s.total - i).toNat
decreasing_by exact entry_decreases symbolized s i h

/-- What is read; `map` and the pcs are what `ParseLibraries` gets. -/
structure Profile where
  version : ℤ
  period : ℤ
  counts : Counts
  map : List UInt8

/-- `ReadCPUProfile`: checks the header, reads the entries, and leaves the map. -/
def readCPUProfile (fname : String) (symbolized : Bool) (testStride : ℕ) (file : List UInt8) :
    Except String Profile := do
  let s ← CpuProfileStream.new fname testStride file
  let s₁ := (s.get 0).2
  if (s.get 0).1 ≠ 0 then throw (fname ++ ": not a profile file, or old format profile file\n")
  let i := 2 + (s₁.get 1).1
  let s₂ := (s₁.get 1).2
  let version := (s₂.get 2).1
  let s₃ := (s₂.get 2).2
  let period := (s₃.get 3).1
  let s₄ := (s₃.get 3).2
  if 2 ^ 32 < version ∨ 2 ^ 32 < period ∨ 2 ^ 32 < i ∨ i < 5 then
    throw (fname ++ ": not a profile file, or corrupted profile file\n")
  let r ← readEntries fname symbolized s₄ i ⟨fun _ => none, fun _ => false⟩
  return ⟨version, period, r.1, file.drop (r.2 * 4).toNat⟩

/-! ### Reading records -/

open CpuProfileStream Tally ProfileData

/-- The texts of a stack from its `j`-th entry on. -/
def texts (symbolized wide : Bool) (j : ℕ) : List ℕ → List String
  | [] => []
  | pc :: stack =>
    hex wide (if 0 < j ∧ symbolized = false then pc - 1 else pc) :: texts symbolized wide (j + 1) stack

/-- The key of a stack. -/
def keyOf (symbolized wide : Bool) (stack : List ℕ) : String :=
  "\n".intercalate (texts symbolized wide 0 stack)

/-- What the reader adds for a record. -/
def Counts.add (symbolized wide : Bool) (r : Counts) (c : Counted (List ℕ)) : Counts :=
  (r.addPcs (texts symbolized wide 0 c.key)).addEntry (keyOf symbolized wide c.key) c.count

variable {all : List ℕ} {symbolized wide : Bool} {i : ℕ} {s : CpuProfileStream} {fname : String}
  {r : Counts}

/-- The slot at an index begins what is left from there. -/
theorem slotAt_of_drop {n : ℕ} {rest : List ℕ} (h : all.drop i = n :: rest) : slotAt all i = n := by
  have hget : all[i]? = some n := by
    rw [← Nat.add_zero i, ← List.getElem?_drop, h]
    rfl
  rw [slotAt, hget]
  rfl

/-- What is left behind it. -/
theorem drop_of_drop {n : ℕ} {rest : List ℕ} (h : all.drop i = n :: rest) : all.drop (i + 1) = rest := by
  rw [← List.drop_drop, h]
  rfl

/-- A slot that is there is read, and the stream goes on behind it. -/
theorem get_of_drop {n : ℕ} {rest : List ℕ} (h : At all wide i s) (hdrop : all.drop i = n :: rest) :
    (s.get i).1 = n ∧ At all wide (i + 1) (s.get i).2 := by
  obtain ⟨hget, hat⟩ := get_at h
  exact ⟨hget.trans (slotAt_of_drop hdrop), hat.mono (Nat.le_succ i)⟩

/-- A stack is read as it was written. -/
theorem stackFrom_texts (symbolized : Bool) {stack rest : List ℕ} {j : ℕ} (h : At all wide (i + j) s)
    (hdrop : all.drop (i + j) = stack ++ rest) :
    (stackFrom symbolized s i j stack.length).1 = texts symbolized wide j stack ∧
      At all wide (i + j + stack.length) (stackFrom symbolized s i j stack.length).2 := by
  induction stack generalizing s j with
  | nil => exact ⟨rfl, h⟩
  | cons pc stack ih =>
    have hidx : ((i : ℤ) + j) = ((i + j : ℕ) : ℤ) := (Nat.cast_add i j).symm
    obtain ⟨hget, hat⟩ := get_of_drop h hdrop
    have hrest := drop_of_drop hdrop
    obtain ⟨htexts, hat'⟩ := ih (j := j + 1) hat hrest
    rw [List.length_cons, stackFrom, hidx, texts]
    dsimp only
    rw [hget, hat.wide_eq, htexts]
    refine ⟨rfl, ?_⟩
    have hend : i + j + (stack.length + 1) = i + (j + 1) + stack.length := by omega
    rw [hend]
    exact hat'

/-- The four reads before the stack of an entry. -/
theorem entry_at (h : At all wide i s) :
    (s.get i).1 = slotAt all i ∧ ((s.get i).2.get i).1 = slotAt all i ∧
      (((s.get i).2.get i).2.get (i + 1)).1 = slotAt all (i + 1) ∧
      ((((s.get i).2.get i).2.get (i + 1)).2.get (i + 2)).1 = slotAt all (i + 2) ∧
      At all wide (i + 2) ((((s.get i).2.get i).2.get (i + 1)).2.get (i + 2)).2 := by
  obtain ⟨hget, h₁⟩ := get_at h
  obtain ⟨hcount, h₂⟩ := get_at h₁
  obtain ⟨hd, h₃⟩ := get_at (h₂.mono (Nat.le_succ i))
  obtain ⟨hpc, h₄⟩ := get_at (h₃.mono (Nat.le_succ (i + 1)))
  exact ⟨hget, hcount, hd, hpc, h₄⟩

/-- The first slots of an entry are read as they were written. -/
theorem entry_reads {n d pc : ℕ} {rest : List ℕ} (h : At all wide i s)
    (hdrop : all.drop i = n :: d :: pc :: rest) :
    (s.get i).1 = n ∧ ((s.get i).2.get i).1 = n ∧ (((s.get i).2.get i).2.get (i + 1)).1 = d ∧
      ((((s.get i).2.get i).2.get (i + 1)).2.get (i + 2)).1 = pc ∧
      At all wide (i + 2) ((((s.get i).2.get i).2.get (i + 1)).2.get (i + 2)).2 := by
  have hdepth := drop_of_drop hdrop
  obtain ⟨hget, hcount, hd, hpc, hat⟩ := entry_at h
  rw [slotAt_of_drop hdrop] at hget hcount
  rw [slotAt_of_drop hdepth] at hd
  rw [slotAt_of_drop (drop_of_drop hdepth)] at hpc
  exact ⟨hget, hcount, hd, hpc, hat⟩

/-- A record is read and added, and the reader goes on behind it. -/
theorem readEntries_record (fname : String) (symbolized : Bool) (r : Counts) {c : Counted (List ℕ)}
    {pc : ℕ} {stack rest : List ℕ} (h : At all wide i s) (hdrop : all.drop i = record c ++ rest)
    (hkey : c.key = pc :: stack) (hpc : pc ≠ 0) (hdepth : c.key.length ≤ 2 ^ 16) :
    ∃ s', At all wide (i + 2 + c.key.length) s' ∧ readEntries fname symbolized s i r =
      readEntries fname symbolized s' (i + 2 + c.key.length : ℕ) (r.add symbolized wide c) := by
  have hslots : all.drop i = c.count :: c.key.length :: pc :: (stack ++ rest) := by
    rw [hdrop, record, hkey]
    rfl
  have hstack : all.drop (i + 2 + 0) = c.key ++ rest := by
    rw [Nat.add_zero, hkey]
    exact drop_of_drop (drop_of_drop hslots)
  obtain ⟨hget, hcount, hd, hfirst, hat⟩ := entry_reads h hslots
  obtain ⟨htexts, hat'⟩ := stackFrom_texts symbolized (i := i + 2) (j := 0) hat hstack
  refine ⟨_, hat', ?_⟩
  rw [readEntries, dif_neg (by rw [hget]; omega)]
  dsimp only
  rw [hd, hcount, hfirst, if_neg (by omega), if_neg (by omega), Int.toNat_natCast]
  have hidx : ((i : ℤ) + 2) = ((i + 2 : ℕ) : ℤ) := by push_cast; rfl
  rw [hidx] at htexts
  rw [hidx, htexts, Counts.add, keyOf]
  push_cast
  rfl

/-- The end marker ends the reading. -/
theorem readEntries_end {n d : ℕ} {rest : List ℕ} (h : At all wide i s)
    (hdrop : all.drop i = n :: d :: 0 :: rest) (hdepth : d ≤ 2 ^ 16) :
    readEntries fname symbolized s i r = .ok (r, (i + 2 + d : ℕ)) := by
  obtain ⟨hget, -, hd, hfirst, -⟩ := entry_reads h hdrop
  rw [readEntries, dif_neg (by rw [hget]; omega)]
  dsimp only
  rw [hd, hfirst, if_neg (by omega), if_pos Nat.cast_zero]
  push_cast
  rfl

/-- The records before one that has no pc at its top. -/
def readable (rs : List (Counted (List ℕ))) : List (Counted (List ℕ)) :=
  rs.takeWhile fun c => c.key.head? ≠ some 0

/-- The entries that are read end before the first record without a pc at its top, or at the marker. -/
theorem readEntries_records (fname : String) (symbolized : Bool) (r : Counts)
    {rs : List (Counted (List ℕ))} (hrs : ∀ c ∈ rs, Recorded c) {rest : List ℕ} (h : At all wide i s)
    (hdrop : all.drop i = rs.flatMap record ++ 0 :: 1 :: 0 :: rest) :
    ∃ last : ℕ, readEntries fname symbolized s i r =
        .ok ((readable rs).foldl (Counts.add symbolized wide) r, last) ∧
      (last ≤ i + (rs.flatMap record).length + 3) ∧
      ((∀ c ∈ rs, c.key.head? ≠ some 0) → last = i + (rs.flatMap record).length + 3) := by
  induction rs generalizing s i r with
  | nil =>
    refine ⟨i + 2 + 1, readEntries_end h hdrop (by norm_num), ?_, fun _ => ?_⟩
    · simp only [List.flatMap_nil, List.length_nil]
      omega
    · simp only [List.flatMap_nil, List.length_nil]
  | cons c rs ih =>
    obtain ⟨hc, hrest⟩ := List.forall_mem_cons.mp hrs
    have hlength : (record c).length = c.key.length + 2 := rfl
    have hdepth : c.key.length ≤ 2 ^ 16 := hc.depth.trans (by decide)
    rw [List.flatMap_cons, List.append_assoc] at hdrop
    rw [List.flatMap_cons, List.length_append, hlength]
    obtain ⟨pc, stack, hkey⟩ := List.exists_cons_of_ne_nil hc.key_ne
    by_cases hpc : pc = 0
    · -- the record looks like the end marker
      subst hpc
      have hslots : all.drop i = c.count :: c.key.length :: 0 :: (stack ++ (rs.flatMap record ++
          0 :: 1 :: 0 :: rest)) := by
        rw [hdrop, record, hkey]
        rfl
      have hread : readable (c :: rs) = [] := by simp [readable, hkey]
      refine ⟨i + 2 + c.key.length, ?_, ?_, fun hall => ?_⟩
      · rw [hread]
        exact readEntries_end h hslots hdepth
      · omega
      · exact absurd (congrArg List.head? hkey) (hall c List.mem_cons_self)
    · obtain ⟨s', hat, hread⟩ := readEntries_record fname symbolized r h hdrop hkey hpc hdepth
      have hnext : all.drop (i + 2 + c.key.length) = rs.flatMap record ++ 0 :: 1 :: 0 :: rest := by
        rw [Nat.add_assoc, ← List.drop_drop, hdrop, Nat.add_comm 2, ← hlength, List.drop_left]
      obtain ⟨last, hentries, hle, heq⟩ := ih (r.add symbolized wide c) hrest hat hnext
      have hreadable : readable (c :: rs) = c :: readable rs := by simp [readable, hkey, hpc]
      refine ⟨last, ?_, ?_, fun hall => ?_⟩
      · rw [hread, hentries, hreadable, List.foldl_cons]
      · omega
      · have hlast := heq (List.forall_mem_cons.mp hall).2
        omega

/-- The size and the byte order are found out. -/
theorem new_of_header (fname : String) (testStride : ℕ) (m : SlotType) (file : List UInt8) :
    CpuProfileStream.new fname testStride (m.bytes [0, 3] ++ file) =
      .ok ⟨file, 0, strideOf testStride, [0, 3], m.big, m.wide, strideOf_pos testStride⟩ := by
  obtain ⟨wide, big⟩ := m
  cases wide <;> cases big <;> rfl

/-! ### The windows do not matter -/

/-- Behind the last slot the window does not matter. -/
theorem CpuProfileStream.At.clamp {j : ℕ} (h : At all wide j s) (hend : all.length ≤ i) : At all wide i s := by
  obtain ⟨seen, hall, hseen⟩ := h.window
  refine ⟨h.window, h.ended, h.whole, h.wide_eq, le_trans ?_ hend⟩
  rw [hall, List.length_append, List.length_append, ← hseen]
  omega

/-- Beyond the end there is no slot. -/
theorem slotAt_eq_neg_one : slotAt all i = -1 ↔ all.length ≤ i := by
  rw [slotAt, ← List.getElem?_eq_none_iff]
  cases all[i]? with
  | none => exact iff_of_true rfl rfl
  | some n =>
    refine iff_of_false (fun h => ?_) (Option.some_ne_none n)
    rw [Option.elim_some] at h
    omega

/-- A slot is at least `-1`. -/
theorem neg_one_le_slotAt : -1 ≤ slotAt all i := by
  rw [slotAt]
  cases all[i]? with
  | none => exact le_rfl
  | some n =>
    rw [Option.elim_some]
    omega

theorem stackFrom_congr {s' : CpuProfileStream} (symbolized : Bool) {j : ℕ} (d : ℕ) (h : At all wide (i + j) s)
    (h' : At all wide (i + j) s') :
    (stackFrom symbolized s i j d).1 = (stackFrom symbolized s' i j d).1 ∧
      At all wide (i + j + d) (stackFrom symbolized s i j d).2 ∧
      At all wide (i + j + d) (stackFrom symbolized s' i j d).2 := by
  induction d generalizing s s' j with
  | zero => exact ⟨rfl, h, h'⟩
  | succ d ih =>
    have hidx : ((i : ℤ) + j) = ((i + j : ℕ) : ℤ) := (Nat.cast_add i j).symm
    obtain ⟨hget, hat⟩ := get_at h
    obtain ⟨hget', hat'⟩ := get_at h'
    obtain ⟨hrest, hend, hend'⟩ := ih (j := j + 1) (hat.mono (Nat.le_succ _)) (hat'.mono (Nat.le_succ _))
    have hnext : i + (j + 1) + d = i + j + (d + 1) := by omega
    rw [hnext] at hend hend'
    rw [stackFrom, stackFrom, hidx]
    dsimp only
    rw [hget, hget', hat.wide_eq, hat'.wide_eq, hrest]
    exact ⟨rfl, hend, hend'⟩

theorem readEntries_congr {s' : CpuProfileStream} (fname : String) (symbolized : Bool) (r : Counts)
    (h : At all wide i s) (h' : At all wide i s') :
    readEntries fname symbolized s i r = readEntries fname symbolized s' i r := by
  generalize hn : all.length - i = n
  induction n using Nat.strong_induction_on generalizing s s' i r with
  | _ n ih =>
    obtain ⟨hget, hcount, hd, hpc, hat⟩ := entry_at h
    obtain ⟨hget', hcount', hd', hpc', hat'⟩ := entry_at h'
    rw [readEntries, readEntries, hget, hget']
    by_cases hend : slotAt all i = -1
    · rw [dif_pos hend, dif_pos hend]
    · rw [dif_neg hend, dif_neg hend]
      dsimp only
      rw [hcount, hcount', hd, hd', hpc, hpc']
      generalize hdepth : slotAt all (i + 1) = d
      have hle : -1 ≤ d := hdepth ▸ neg_one_le_slotAt
      have hlt : i < all.length := Nat.lt_of_not_le fun hle => hend (slotAt_eq_neg_one.mpr hle)
      have htwo : ((i : ℤ) + 2) = ((i + 2 : ℕ) : ℤ) := by push_cast; rfl
      obtain ⟨htexts, hnext, hnext'⟩ := stackFrom_congr symbolized (i := i + 2) (j := 0) d.toNat
        hat hat'
      -- a depth of -1 is behind the last slot, where one slot back does not matter
      have hindex : ((i : ℤ) + 2 + d) = ((i + 1 + (d + 1).toNat : ℕ) : ℤ) := by
        push_cast
        omega
      have hclamp : ∀ {s : CpuProfileStream}, At all wide (i + 2 + 0 + d.toNat) s →
          At all wide (i + 1 + (d + 1).toNat) s := by
        intro s hs
        by_cases hneg : d = -1
        · have hbehind : all.length ≤ i + 1 := slotAt_eq_neg_one.mp (hdepth.trans hneg)
          exact hs.clamp (hbehind.trans (Nat.le_add_right _ _))
        · have hsame : i + 2 + 0 + d.toNat = i + 1 + (d + 1).toNat := by omega
          exact hsame ▸ hs
      rw [htwo] at hindex
      simp only [htwo] at htexts hnext hnext'
      have hless : all.length - (i + 1 + (d + 1).toNat) < n := by omega
      simp only [htwo, hindex, htexts, ih _ hless _ (hclamp hnext) (hclamp hnext') rfl]

/-! ### Keys -/

/-- The text of a pc tells it, within the width of a slot. -/
theorem hex_inj {pc pc' : ℤ} (h : hex wide pc = hex wide pc') : pc % 2 ^ 64 = pc' % 2 ^ 64 := by
  have hvalue := congrArg (fun t : String => hexValue t.toList) h
  simp only [hex, String.toList_ofList, hexValue_zeros, hexValue_toDigits] at hvalue
  omega

/-- The text of a pc has no line end. -/
theorem newline_not_mem_hex (wide : Bool) (pc : ℤ) : '\n' ∉ (hex wide pc).toList := by
  rw [hex, String.toList_ofList]
  intro hmem
  rcases List.mem_append.mp hmem with hzero | hdigit
  · exact absurd (List.mem_replicate.mp hzero).2 (by decide)
  · obtain ⟨d, hd, hc⟩ := digit_of_mem_toDigits hdigit
    interval_cases d <;> exact absurd hc (by decide)

/-- The texts of a stack have none. -/
theorem newline_not_mem_texts {j : ℕ} {stack : List ℕ} :
    ∀ l ∈ (texts symbolized wide j stack).map String.toList, '\n' ∉ l := by
  induction stack generalizing j with
  | nil => exact List.forall_mem_nil _
  | cons pc stack ih =>
    rw [texts, List.map_cons]
    exact List.forall_mem_cons.mpr ⟨newline_not_mem_hex wide _, ih⟩

/-- The texts of a stack tell it. -/
theorem texts_inj {j : ℕ} {stack stack' : List ℕ} (hbound : ∀ pc ∈ stack, pc < 2 ^ 64)
    (hbound' : ∀ pc ∈ stack', pc < 2 ^ 64)
    (h : texts symbolized wide j stack = texts symbolized wide j stack') : stack = stack' := by
  induction stack generalizing j stack' with
  | nil =>
    cases stack' with
    | nil => rfl
    | cons pc' stack' => cases h
  | cons pc stack ih =>
    cases stack' with
    | nil => cases h
    | cons pc' stack' =>
      obtain ⟨hpc, hrest⟩ := List.forall_mem_cons.mp hbound
      obtain ⟨hpc', hrest'⟩ := List.forall_mem_cons.mp hbound'
      rw [texts, texts, List.cons.injEq] at h
      have hhex := hex_inj h.1
      have heq : pc = pc' := by
        -- one less than a pc is not below -1
        split at hhex <;> omega
      rw [heq, ih hrest hrest' h.2]

/-- Different stacks have different keys. -/
theorem keyOf_inj {stack stack' : List ℕ} (hne : stack ≠ []) (hne' : stack' ≠ [])
    (hbound : ∀ pc ∈ stack, pc < 2 ^ 64) (hbound' : ∀ pc ∈ stack', pc < 2 ^ 64)
    (h : keyOf symbolized wide stack = keyOf symbolized wide stack') : stack = stack' := by
  have hsplit : ∀ stack : List ℕ, stack ≠ [] → (keyOf symbolized wide stack).toList.splitOn '\n' =
      (texts symbolized wide 0 stack).map String.toList := by
    intro stack hne
    rw [keyOf, String.toList_intercalate]
    refine List.splitOn_intercalate '\n' newline_not_mem_texts ?_
    obtain ⟨pc, rest, rfl⟩ := List.exists_cons_of_ne_nil hne
    rw [texts, List.map_cons]
    exact List.cons_ne_nil _ _
  have htexts : (texts symbolized wide 0 stack).map String.toList =
      (texts symbolized wide 0 stack').map String.toList := by
    rw [← hsplit stack hne, ← hsplit stack' hne', h]
  have hinj : Function.Injective String.toList := fun _ _ => String.toList_inj.mp
  exact texts_inj hbound hbound' (List.map_injective_iff.mpr hinj htexts)

/-! ### What is added up -/

/-- A record as the profile has it. -/
def keyed (symbolized wide : Bool) : Counted (List ℕ) → Counted String := Counted.map (keyOf symbolized wide)

/-- A record adds its count to its key. -/
theorem getD_add (c : Counted (List ℕ)) (k : String) :
    (((r.add symbolized wide c).profile k).getD 0 : ℤ) =
      (r.profile k).getD 0 + ((keyed symbolized wide c).times k : ℕ) := by
  rw [Counts.add, Counts.addEntry, Counted.times]
  dsimp only
  by_cases hk : k = keyOf symbolized wide c.key
  · subst hk
    rw [Function.update_self, Option.getD_some, keyed, Counted.map, if_pos rfl]
    rfl
  · rw [Function.update_of_ne hk, keyed, Counted.map, if_neg (Ne.symm hk)]
    exact (Int.add_zero _).symm

/-- The records add their counts to their keys. -/
theorem getD_foldl (rs : List (Counted (List ℕ))) (k : String) :
    (((rs.foldl (Counts.add symbolized wide) r).profile k).getD 0 : ℤ) =
      (r.profile k).getD 0 + (tally (rs.map (keyed symbolized wide)) k : ℕ) := by
  induction rs generalizing r with
  | nil => exact (Int.add_zero _).symm
  | cons c rs ih =>
    rw [List.foldl_cons, ih, getD_add, List.map_cons, tally_cons]
    push_cast
    ring

/-- The pcs that are seen are those of the records. -/
theorem pcs_foldl (rs : List (Counted (List ℕ))) (pc : String) :
    (rs.foldl (Counts.add symbolized wide) r).pcs pc = true ↔
      r.pcs pc = true ∨ ∃ c ∈ rs, pc ∈ texts symbolized wide 0 c.key := by
  induction rs generalizing r with
  | nil => simp
  | cons c rs ih =>
    rw [List.foldl_cons, ih]
    simp [Counts.add, Counts.addEntry, Counts.addPcs, or_assoc]

/-! ### The profile of a session -/

/-- The slots that a session writes. -/
def profileSlots (period : ℕ) (rs : List (Counted (List ℕ))) : List ℕ := encode period rs ++ [0, 1, 0]

/-- A slot has four bytes at least. -/
theorem four_le_size (m : SlotType) : 4 ≤ m.size := by
  rw [SlotType.size]
  split <;> norm_num

/-- And eight at most. -/
theorem size_le_eight (m : SlotType) : m.size ≤ 8 := by
  rw [SlotType.size]
  split <;> norm_num

/-- The slots of a profile fit their size. -/
theorem lt_of_mem_profileSlots {m : SlotType} {period : ℕ} {rs : List (Counted (List ℕ))}
    (hperiod : period < 2 ^ 32) (hrs : ∀ c ∈ rs, Recorded c)
    (hbound : ∀ c ∈ rs, c.count < 256 ^ m.size ∧ ∀ pc ∈ c.key, pc < 256 ^ m.size) :
    ∀ n ∈ profileSlots period rs, n < 256 ^ m.size := by
  have hword : 256 ^ 4 ≤ 256 ^ m.size := Nat.pow_le_pow_right (by norm_num) (four_le_size m)
  intro n hn
  rw [profileSlots, encode, List.append_assoc, List.mem_append, List.mem_append, List.mem_flatMap] at hn
  rcases hn with hhead | ⟨c, hc, hrecord⟩ | hend
  · have hle : n ≤ 3 ∨ n = period := by
      simp only [List.mem_cons, List.not_mem_nil, or_false] at hhead
      omega
    omega
  · obtain ⟨hcount, hkey⟩ := hbound c hc
    rcases List.mem_cons.mp hrecord with rfl | hrecord
    · exact hcount
    rcases List.mem_cons.mp hrecord with rfl | hrecord
    · have hdepth := (hrs c hc).depth
      rw [kMaxStackDepth] at hdepth
      omega
    · exact hkey n hrecord
  · have hle : n ≤ 1 := by
      simp only [List.mem_cons, List.not_mem_nil, or_false] at hend
      omega
    omega

/-- The slots of the header, as they are read. -/
theorem header_at (h : At all wide 0 s) :
    (s.get 0).1 = slotAt all 0 ∧ ((s.get 0).2.get 1).1 = slotAt all 1 ∧
      (((s.get 0).2.get 1).2.get 2).1 = slotAt all 2 ∧
      ((((s.get 0).2.get 1).2.get 2).2.get 3).1 = slotAt all 3 ∧
      At all wide 3 ((((s.get 0).2.get 1).2.get 2).2.get 3).2 := by
  obtain ⟨h₀, hat₁⟩ := get_at h
  obtain ⟨h₁, hat₂⟩ := get_at (hat₁.mono (Nat.zero_le 1))
  obtain ⟨h₂, hat₃⟩ := get_at (hat₂.mono (Nat.le_succ 1))
  obtain ⟨h₃, hat₄⟩ := get_at (hat₃.mono (Nat.le_succ 2))
  exact ⟨h₀, h₁, h₂, h₃, hat₄⟩

/-- The header of a profile is read back. -/
theorem header_reads {version period pad : ℕ} {rest : List ℕ} (h : At all wide 0 s)
    (hall : all = 0 :: 3 :: version :: period :: pad :: rest) :
    (s.get 0).1 = 0 ∧ ((s.get 0).2.get 1).1 = 3 ∧ (((s.get 0).2.get 1).2.get 2).1 = version ∧
      ((((s.get 0).2.get 1).2.get 2).2.get 3).1 = period ∧
      At all wide 5 ((((s.get 0).2.get 1).2.get 2).2.get 3).2 := by
  have hdrop : all.drop 0 = 0 :: 3 :: version :: period :: pad :: rest := hall
  obtain ⟨h₀, h₁, h₂, h₃, hat⟩ := header_at h
  rw [slotAt_of_drop hdrop] at h₀
  rw [slotAt_of_drop (drop_of_drop hdrop)] at h₁
  rw [slotAt_of_drop (drop_of_drop (drop_of_drop hdrop))] at h₂
  rw [slotAt_of_drop (drop_of_drop (drop_of_drop (drop_of_drop hdrop)))] at h₃
  exact ⟨h₀, h₁, h₂, h₃, hat.mono (by norm_num)⟩

/-- The file of records, read by `pprof`. -/
theorem readCPUProfile_records (fname : String) (symbolized : Bool) {testStride : ℕ} {m : SlotType}
    (hstride : sizeOf m.wide ∣ strideOf testStride) {period : ℕ} (hperiod : period < 2 ^ 32)
    {rs : List (Counted (List ℕ))} (hrs : ∀ c ∈ rs, Recorded c)
    (hbound : ∀ c ∈ rs, c.count < 256 ^ m.size ∧ ∀ pc ∈ c.key, pc < 256 ^ m.size) (maps : List UInt8) :
    ∃ last ≤ (profileSlots period rs).length,
      readCPUProfile fname symbolized testStride (m.bytes (profileSlots period rs) ++ maps) =
        .ok ⟨0, period, (readable rs).foldl (Counts.add symbolized m.wide) ⟨fun _ => none, fun _ => false⟩,
          (m.bytes (profileSlots period rs) ++ maps).drop (last * 4)⟩ ∧
      ((∀ c ∈ rs, c.key.head? ≠ some 0) → last = (profileSlots period rs).length) := by
  have hslots : profileSlots period rs =
      [0, 3] ++ ([0, period, 0] ++ (rs.flatMap record ++ [0, 1, 0])) := by
    rw [profileSlots, encode, List.append_assoc]
    rfl
  have hlt := lt_of_mem_profileSlots hperiod hrs hbound
  generalize hfile : m.bytes (profileSlots period rs) ++ maps = file
  have hnew := new_of_header fname testStride m
    (m.bytes ([0, period, 0] ++ (rs.flatMap record ++ [0, 1, 0])) ++ maps)
  rw [← List.append_assoc, ← SlotType.bytes_append, ← hslots, hfile] at hnew
  -- the stream is on all slots; what follows them is the text of the maps
  generalize hs : (⟨m.bytes ([0, period, 0] ++ (rs.flatMap record ++ [0, 1, 0])) ++ maps, 0,
    strideOf testStride, [0, 3], m.big, m.wide, strideOf_pos testStride⟩ : CpuProfileStream) = s at hnew
  have hat : At (profileSlots period rs ++ decode m.big m.wide maps) m.wide 0 s := by
    have hrest := decode_bytes m (fun n hn => hlt n (hslots ▸ List.mem_append_right _ hn)) maps
    rw [hslots, List.append_assoc, ← hrest, ← hs]
    exact At.start (s := ⟨_, 0, strideOf testStride, [0, 3], m.big, m.wide, _⟩) rfl
      (fun h => absurd h (List.cons_ne_nil _ _)) hstride
  have hall : profileSlots period rs ++ decode m.big m.wide maps =
      0 :: 3 :: 0 :: period :: 0 :: (rs.flatMap record ++ 0 :: 1 :: 0 :: decode m.big m.wide maps) := by
    rw [hslots]
    simp
  have hdrop : (profileSlots period rs ++ decode m.big m.wide maps).drop 5 =
      rs.flatMap record ++ 0 :: 1 :: 0 :: decode m.big m.wide maps := by
    rw [hall]
    rfl
  obtain ⟨h₀, h₁, h₂, h₃, hat'⟩ := header_reads hat hall
  obtain ⟨last, hread, hle, hend⟩ := readEntries_records fname symbolized
    ⟨fun _ => none, fun _ => false⟩ hrs hat' hdrop
  have hlength : (profileSlots period rs).length = 5 + (rs.flatMap record).length + 3 := by
    rw [hslots]
    simp
    omega
  refine ⟨last, hlength ▸ hle, ?_, fun hzero => hlength ▸ hend hzero⟩
  have hvalid : ¬((2 : ℤ) ^ 32 < (0 : ℕ) ∨ (2 : ℤ) ^ 32 < period ∨ (2 : ℤ) ^ 32 < 2 + 3 ∨ (2 : ℤ) + 3 < 5) := by
    omega
  rw [readCPUProfile, hnew]
  simp only [bind, Except.bind, h₀, h₁, h₂, h₃]
  have hfive : (2 + 3 : ℤ) = (5 : ℕ) := rfl
  have hseek : ((last : ℤ) * 4).toNat = last * 4 := by omega
  rw [if_neg (fun h => h rfl), if_neg hvalid, hfive, hread]
  simp only [hseek]
  rfl

/-- The pcs that are seen are those of the records that are read. -/
theorem pcs_of_records (fname : String) (symbolized : Bool) {testStride : ℕ} {m : SlotType}
    (hstride : sizeOf m.wide ∣ strideOf testStride) {period : ℕ} (hperiod : period < 2 ^ 32)
    {rs : List (Counted (List ℕ))} (hrs : ∀ c ∈ rs, Recorded c)
    (hbound : ∀ c ∈ rs, c.count < 256 ^ m.size ∧ ∀ pc ∈ c.key, pc < 256 ^ m.size) (maps : List UInt8) :
    ∃ r, readCPUProfile fname symbolized testStride (m.bytes (profileSlots period rs) ++ maps) = .ok r ∧
      ∀ pc, r.counts.pcs pc = true ↔ ∃ c ∈ readable rs, pc ∈ texts symbolized m.wide 0 c.key := by
  obtain ⟨last, -, hread, -⟩ := readCPUProfile_records fname symbolized hstride hperiod hrs hbound maps
  refine ⟨_, hread, fun pc => ?_⟩
  rw [pcs_foldl]
  simp

/-- The keys of stacks are counted as the stacks are. -/
theorem count_keys {traces : List (List ℕ)} (hne : ∀ t ∈ traces, t ≠ [])
    (hbound : ∀ t ∈ traces, ∀ pc ∈ t, pc < 2 ^ 64) {t : List ℕ} (ht : t ∈ traces) :
    (traces.map (keyOf symbolized wide)).count (keyOf symbolized wide t) = traces.count t := by
  rw [List.count, List.countP_map, List.count]
  refine List.countP_congr fun t' ht' => ?_
  simp only [Function.comp, beq_iff_eq]
  exact ⟨fun h => keyOf_inj (hne t' ht') (hne t ht) (hbound t' ht') (hbound t ht) h, fun h => h ▸ rfl⟩

/-- All records are read if and only if none is without a pc at its top; otherwise some key is missed. -/
theorem tally_readable_iff (symbolized wide : Bool) {rs : List (Counted (List ℕ))}
    (hrs : ∀ c ∈ rs, Recorded c) :
    (∀ k, tally ((readable rs).map (keyed symbolized wide)) k = tally (rs.map (keyed symbolized wide)) k) ↔
      ∀ c ∈ rs, c.key.head? ≠ some 0 := by
  constructor
  · intro h c hc hzero
    have hmissed : rs.dropWhile (fun c => decide (c.key.head? ≠ some 0)) ≠ [] := fun hnil =>
      of_decide_eq_true (List.dropWhile_eq_nil_iff.mp hnil c hc) hzero
    obtain ⟨missed, rest, hmissed⟩ := List.exists_cons_of_ne_nil hmissed
    have hsplit : readable rs ++ missed :: rest = rs := by
      rw [readable, ← hmissed]
      exact List.takeWhile_append_dropWhile
    have hpos := (hrs missed (hsplit ▸ List.mem_append_right _ List.mem_cons_self)).pos
    -- the key of the missed record is short of its count
    have hkey := h (keyOf symbolized wide missed.key)
    have htimes : (keyed symbolized wide missed).times (keyOf symbolized wide missed.key) = missed.count :=
      if_pos rfl
    have hsum : tally (rs.map (keyed symbolized wide)) (keyOf symbolized wide missed.key) =
        tally ((readable rs).map (keyed symbolized wide)) (keyOf symbolized wide missed.key) +
          (missed.count + tally (rest.map (keyed symbolized wide)) (keyOf symbolized wide missed.key)) := by
      rw [← htimes, ← tally_cons, ← List.map_cons, ← tally_append, ← List.map_append, hsplit]
    omega
  · intro h k
    have hread : readable rs = rs := List.takeWhile_eq_self_iff.mpr fun c hc => decide_eq_true (h c hc)
    rw [hread]

/-- Reading that ended within the slots leaves the whole text behind them. -/
theorem suffix_drop_bytes {m : SlotType} {slots : List ℕ} {last : ℕ} (h : last ≤ slots.length)
    (maps : List UInt8) : maps <:+ (m.bytes slots ++ maps).drop (last * 4) := by
  have hwithin : last * 4 ≤ (m.bytes slots).length := by
    rw [m.length_bytes, Nat.mul_comm last]
    exact Nat.mul_le_mul (four_le_size m) h
  rw [List.drop_append_of_le_length hwithin]
  exact List.suffix_append ..

/-- The seek goes four bytes for each slot, whatever its size. -/
theorem drop_bytes_eq_iff {m : SlotType} {slots : List ℕ} (hne : slots ≠ []) (maps : List UInt8) :
    (m.bytes slots ++ maps).drop (slots.length * 4) = maps ↔ m.wide = false := by
  have hlength := m.length_bytes slots
  cases hwide : m.wide
  · have hfour : m.size = 4 := by rw [SlotType.size, hwide]; rfl
    rw [List.drop_left' (by rw [hlength, hfour, Nat.mul_comm])]
    exact iff_of_true rfl rfl
  · have height : m.size = 8 := by rw [SlotType.size, hwide]; rfl
    have hpos := List.length_pos_iff.mpr hne
    refine iff_of_false (fun heq => ?_) (by simp)
    have hlen := congrArg List.length heq
    rw [List.length_drop, List.length_append, hlength, height] at hlen
    omega

/-- `pprof` reads from the file of a session each stack as often as it was added, if and only if no
stack was added that has no pc at its top.  The text of the maps it finds with slots of four bytes
only. -/
theorem counts_of_session {m : SlotType} {p : ProfileData} {frequency : ℕ} (henabled : p.enabled = false)
    (hfrequency : 0 < frequency) {cs : List ProfileData.Call} (hcs : ∀ c ∈ cs, c.During) (hadd : .add [] ∉ cs)
    (hpcs : ∀ t ∈ cs.flatMap ProfileData.Call.traces, ∀ pc ∈ t, pc < 256 ^ m.size)
    (hcount : (cs.flatMap ProfileData.Call.traces).length < 256 ^ m.size) {testStride : ℕ}
    (hstride : sizeOf m.wide ∣ strideOf testStride) (fname : String) (symbolized : Bool)
    (maps : List UInt8) :
    ∃ p' r, run m p (profiled fname frequency cs maps) = some p' ∧
      readCPUProfile fname symbolized testStride (p'.files fname) = .ok r ∧ r.version = 0 ∧
      r.period = (1000000 / frequency : ℕ) ∧ maps <:+ r.map ∧
      ((∀ k, (r.counts.profile k).getD 0 =
          (((cs.flatMap ProfileData.Call.traces).map (keyOf symbolized m.wide)).count k : ℕ)) ↔
        ∀ t ∈ cs.flatMap ProfileData.Call.traces, t.head? ≠ some 0) ∧
      ((∀ t ∈ cs.flatMap ProfileData.Call.traces, t.head? ≠ some 0) →
        (∀ t ∈ cs.flatMap ProfileData.Call.traces, (r.counts.profile (keyOf symbolized m.wide t)).getD 0 =
          ((cs.flatMap ProfileData.Call.traces).count t : ℕ)) ∧
        (r.map = maps ↔ m.wide = false)) := by
  obtain ⟨p', rs, hrun, -, hfile, hrs, htally, -, -⟩ :=
    (files_of_session m fname henabled hfrequency hcs maps).2 hadd
  generalize htraces : cs.flatMap ProfileData.Call.traces = traces at hpcs hcount htally
  have hmem := mem_iff_of_tally htally
  have hword : 256 ^ m.size ≤ 256 ^ 8 := Nat.pow_le_pow_right (by norm_num) (size_le_eight m)
  have hperiod : 1000000 / frequency < 2 ^ 32 := (Nat.div_le_self _ _).trans_lt (by norm_num)
  have hbound : ∀ c ∈ rs, c.count < 256 ^ m.size ∧ ∀ pc ∈ c.key, pc < 256 ^ m.size := by
    intro c hc
    have hle := (count_le_tally hc).trans_eq (htally c.key)
    exact ⟨(hle.trans List.count_le_length).trans_lt hcount,
      hpcs c.key ((hmem c.key).mpr ⟨c, hc, (hrs c hc).pos, rfl⟩)⟩
  -- the stacks that were added are the keys of the records, so either list may be looked at
  have hheads : (∀ c ∈ rs, c.key.head? ≠ some 0) ↔ ∀ t ∈ traces, t.head? ≠ some 0 := by
    constructor
    · intro h t ht
      obtain ⟨c, hc, -, rfl⟩ := (hmem t).mp ht
      exact h c hc
    · exact fun h c hc => h c.key ((hmem c.key).mpr ⟨c, hc, (hrs c hc).pos, rfl⟩)
  have hne : ∀ t ∈ traces, t ≠ [] := by
    intro t ht
    obtain ⟨c, hc, -, rfl⟩ := (hmem t).mp ht
    exact (hrs c hc).key_ne
  have hsmall : ∀ t ∈ traces, ∀ pc ∈ t, pc < 2 ^ 64 := fun t ht pc hpc =>
    (hpcs t ht pc hpc).trans_le hword
  obtain ⟨last, hle, hread, hend⟩ := readCPUProfile_records fname symbolized hstride hperiod hrs hbound maps
  have hkeys (k : String) : tally (rs.map (keyed symbolized m.wide)) k =
      (traces.map (keyOf symbolized m.wide)).count k := tally_map htally _ k
  have hget (k : String) : (((readable rs).foldl (Counts.add symbolized m.wide)
      ⟨fun _ => none, fun _ => false⟩).profile k).getD 0 =
      (tally ((readable rs).map (keyed symbolized m.wide)) k : ℤ) :=
    (getD_foldl (readable rs) k).trans (Int.zero_add _)
  refine ⟨p', _, hrun, (congrArg _ hfile).trans hread, rfl, rfl, ?_, ?_, fun hzero => ⟨fun t ht => ?_, ?_⟩⟩
  · exact suffix_drop_bytes hle maps
  · rw [← hheads, ← tally_readable_iff symbolized m.wide hrs]
    refine forall_congr' fun k => ?_
    rw [hget, hkeys, Nat.cast_inj]
  · have hall := (tally_readable_iff symbolized m.wide hrs).mpr (hheads.mpr hzero)
    rw [hget, hall, hkeys, count_keys hne hsmall ht]
  · rw [hend (hheads.mpr hzero)]
    exact drop_bytes_eq_iff (List.append_ne_nil_of_right_ne_nil _ (List.cons_ne_nil _ _)) maps

/-- A stack is added before the table is flushed and again after it. -/
def twice : List ProfileData.Call := [.add [4096, 8192], .flushTable, .add [4096], .add [4096, 8192]]

theorem counts_of_session_twice : ∃ p' r,
    run ⟨true, false⟩ (ProfileData.new fun _ => []) (profiled "cpu.prof" 100 twice [10]) = some p' ∧
      readCPUProfile "cpu.prof" false 0 (p'.files "cpu.prof") = .ok r ∧ r.period = 10000 ∧
      (r.counts.profile (keyOf false true [4096, 8192])).getD 0 = 2 := by
  have hduring : ∀ c ∈ twice, c.During := by simp [twice, ProfileData.Call.During]
  have htraces : twice.flatMap ProfileData.Call.traces = [[4096, 8192], [4096], [4096, 8192]] := by decide
  have hheads : ∀ t ∈ twice.flatMap ProfileData.Call.traces, t.head? ≠ some 0 := by simp [htraces]
  have hmem : [4096, 8192] ∈ twice.flatMap ProfileData.Call.traces := by simp [htraces]
  obtain ⟨p', r, hrun, hread, -, hperiod, -, -, hcounts⟩ :=
    counts_of_session (m := ⟨true, false⟩) (p := ProfileData.new fun _ => []) rfl (by decide : 0 < 100)
      hduring (by simp [twice]) (by simp [htraces, SlotType.size]) (by simp [htraces, SlotType.size])
      (by decide : sizeOf true ∣ strideOf 0) "cpu.prof" false [10]
  have hcount := (hcounts hheads).1 [4096, 8192] hmem
  rw [htraces] at hcount
  exact ⟨p', r, hrun, hread, hperiod, hcount⟩

/-! ### Any file -/

/-- Only the stride depends on the option of the tests. -/
theorem new_stride (fname : String) (testStride testStride' : ℕ) (file : List UInt8) :
    CpuProfileStream.new fname testStride' file = (CpuProfileStream.new fname testStride file).map
      fun s => { s with stride := strideOf testStride', stride_pos := strideOf_pos testStride' } := by
  rw [CpuProfileStream.new, CpuProfileStream.new]
  dsimp only
  split
  · split
    · rfl
    · split <;> rfl
  · split
    · rfl
    · split <;> rfl

/-- The slots of a file are wide where it begins with eight zeros. -/
def wideOf (file : List UInt8) : Bool := file.take 8 = List.replicate 8 0

/-- The stream takes its width from the file. -/
theorem wide_of_new {fname : String} {testStride : ℕ} {file : List UInt8} {s : CpuProfileStream}
    (h : CpuProfileStream.new fname testStride file = .ok s) : s.wide = wideOf file := by
  rw [CpuProfileStream.new] at h
  dsimp only at h
  split at h
  · rename_i hzeros
    have hwide : true = wideOf file := (decide_eq_true hzeros).symm
    split at h
    · obtain rfl := Except.ok.inj h
      exact hwide
    · split at h
      · obtain rfl := Except.ok.inj h
        exact hwide
      · cases h
  · rename_i hzeros
    have hnarrow : false = wideOf file := (decide_eq_false hzeros).symm
    split at h
    · obtain rfl := Except.ok.inj h
      exact hnarrow
    · split at h
      · obtain rfl := Except.ok.inj h
        exact hnarrow
      · cases h

/-- Whatever the file is, the stream is on the list of its slots. -/
theorem at_of_new {fname : String} {testStride : ℕ} {file : List UInt8} {s : CpuProfileStream}
    (hstride : sizeOf s.wide ∣ strideOf testStride)
    (h : CpuProfileStream.new fname testStride file = .ok s) :
    At (s.slots ++ decode s.big s.wide s.file) s.wide 0 s := by
  -- a short file has no slots at all
  have hshort : ∀ big, unpack big (file.take 8) = [] → decode big false (file.drop 8) = [] := by
    intro big hnil
    have hlength := congrArg List.length hnil
    rw [length_unpack, List.length_take, List.length_nil] at hlength
    rw [List.drop_eq_nil_of_le (by omega), decode_nil]
  rw [CpuProfileStream.new] at h
  dsimp only at h
  split at h
  · split at h
    · obtain rfl := Except.ok.inj h
      exact .start rfl (fun h => absurd h (List.cons_ne_nil _ _)) hstride
    · split at h
      · obtain rfl := Except.ok.inj h
        exact .start rfl (fun h => absurd h (List.cons_ne_nil _ _)) hstride
      · cases h
  · split at h
    · obtain rfl := Except.ok.inj h
      exact .start rfl (hshort false) hstride
    · split at h
      · obtain rfl := Except.ok.inj h
        exact .start rfl (hshort true) hstride
      · cases h

/-- **The size of the windows does not matter**, whatever the file is, as long as they hold whole
slots. -/
theorem readCPUProfile_stride (fname : String) (symbolized : Bool) {testStride testStride' : ℕ}
    (file : List UInt8) (hstride : sizeOf (wideOf file) ∣ strideOf testStride)
    (hstride' : sizeOf (wideOf file) ∣ strideOf testStride') :
    readCPUProfile fname symbolized testStride file = readCPUProfile fname symbolized testStride' file := by
  rw [readCPUProfile, readCPUProfile, new_stride fname testStride testStride' file]
  cases hnew : CpuProfileStream.new fname testStride file with
  | error e => rfl
  | ok s =>
    rw [← wide_of_new hnew] at hstride hstride'
    have hat := at_of_new hstride hnew
    have hat' : At (s.slots ++ decode s.big s.wide s.file) s.wide 0
        { s with stride := strideOf testStride', stride_pos := strideOf_pos testStride' } :=
      ⟨hat.window, hat.ended, hstride', rfl, hat.base_le⟩
    rw [Except.map]
    generalize ({ s with stride := strideOf testStride', stride_pos := strideOf_pos testStride' } :
      CpuProfileStream) = s' at hat' ⊢
    generalize s.slots ++ decode s.big s.wide s.file = all at hat hat'
    obtain ⟨h₀, h₁, h₂, h₃, hend⟩ := header_at hat
    obtain ⟨h₀', h₁', h₂', h₃', hend'⟩ := header_at hat'
    simp only [bind, Except.bind, h₀, h₁, h₂, h₃, h₀', h₁', h₂', h₃']
    by_cases hhead : slotAt all 0 ≠ 0
    · rw [if_pos hhead, if_pos hhead]
      rfl
    rw [if_neg hhead, if_neg hhead]
    by_cases hvalid : 2 ^ 32 < slotAt all 2 ∨ 2 ^ 32 < slotAt all 3 ∨ 2 ^ 32 < 2 + slotAt all 1 ∨
        2 + slotAt all 1 < 5
    · rw [if_pos hvalid, if_pos hvalid]
      rfl
    rw [if_neg hvalid, if_neg hvalid]
    -- the entries start behind the slots that were read
    obtain ⟨i, hi⟩ := Int.eq_ofNat_of_zero_le (by omega : 0 ≤ 2 + slotAt all 1)
    have hfive : 3 ≤ i := by omega
    rw [hi, readEntries_congr fname symbolized _ (hend.mono hfive) (hend'.mono hfive)]

/-- Two windows of sixteen bytes, or one. -/
theorem readCPUProfile_stride_pair :
    readCPUProfile "cpu.prof" false 16 (SlotType.bytes ⟨true, false⟩ (profileSlots 10000 [⟨2, [4096, 8192]⟩])) =
      readCPUProfile "cpu.prof" false 0
        (SlotType.bytes ⟨true, false⟩ (profileSlots 10000 [⟨2, [4096, 8192]⟩])) :=
  readCPUProfile_stride "cpu.prof" false _ (by decide +kernel) (by decide +kernel)

end MBT.Pprof
