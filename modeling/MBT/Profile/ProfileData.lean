import Mathlib.Data.List.FinRange
import Mathlib.Data.Nat.Notation
import Mathlib.Logic.Function.Basic
import MBT.Support.Tally
import MBT.Support.Words

/-!
# Profile — ProfileData

The collector of the CPU profiler.  It counts the samples in a table of bounded size; an entry that
has to make room goes through a buffer into the file of the profile.

* `session_call`, `session_run`: what is written and what is still held is each sample as often as it
  was added.
* `files_of_session`: the file of a session that is stopped.
-/

namespace MBT
open Tally

namespace ProfileData

/-- The greatest depth of a stack that is recorded. -/
def kMaxStackDepth : ℕ := 64

/-- How many samples a bucket has. -/
def kAssociativity : ℕ := 4

/-- How many buckets the table has. -/
def kBuckets : ℕ := 1024

/-- How many slots the buffer has. -/
def kBufferLength : ℕ := 262144

/-- A slot is a pointer: its size and its byte order are those of the machine. -/
structure SlotType where
  wide : Bool
  big : Bool

/-- How many bytes a slot has. -/
def SlotType.size (m : SlotType) : ℕ := if m.wide then 8 else 4

/-- The memory that some slots take. -/
def SlotType.bytes (m : SlotType) (slots : List ℕ) : List UInt8 := slots.flatMap (Words.bytes m.big m.size)

/-- A sample of the table. -/
structure Entry where
  count : ℕ
  depth : ℕ
  stack : List ℕ

/-- The samples of a bucket. -/
abbrev Bucket := Vector Entry kAssociativity

end ProfileData

/-- The collector: `out` is the file that is open, and `evict` holds the slots of the eviction buffer
that are in use. -/
structure ProfileData where
  hash : Vector ProfileData.Bucket ProfileData.kBuckets
  evict : List ℕ
  out : Option String
  count : ℕ
  evictions : ℕ
  totalBytes : ℕ
  files : String → List UInt8

namespace ProfileData

/-- A zeroed table. -/
def noEntries : Vector Bucket kBuckets := .replicate kBuckets (.replicate kAssociativity ⟨0, 0, []⟩)

/-- The collector before anything is started. -/
def new (files : String → List UInt8) : ProfileData := ⟨noEntries, [], none, 0, 0, 0, files⟩

/-- A file is open. -/
def enabled (p : ProfileData) : Bool := p.out.isSome

/-- `FDWrite` to the open file. -/
def fdWrite (p : ProfileData) (buf : List UInt8) : ProfileData :=
  match p.out with
  | none => p
  | some fname => { p with files := Function.update p.files fname (p.files fname ++ buf) }

variable (m : SlotType)

/-- Writes the buffer to the file and empties it. -/
def flushEvicted (p : ProfileData) : ProfileData :=
  let p := if 0 < p.evict.length then
      { p with totalBytes := p.totalBytes + m.size * p.evict.length }.fdWrite (m.bytes p.evict)
    else p
  { p with evict := [] }

/-- `Evict`. -/
def evictEntry (p : ProfileData) (e : Entry) : ProfileData :=
  let nslots := e.depth + 2
  let p := if kBufferLength < p.evict.length + nslots then p.flushEvicted m else p
  { p with evict := p.evict ++ (e.count :: e.depth :: e.stack.take e.depth) }

/-- A failed `CHECK` is `none`. -/
def start (fname : String) (opens : Bool) (frequency : ℕ) (p : ProfileData) :
    Option (Bool × ProfileData) :=
  if p.enabled then some (false, p)
  else if opens = false then some (false, p)
  else if frequency = 0 then none
  else
    let period := 1000000 / frequency
    some (true,
      { hash := noEntries
        evict := [0, 3, 0, period, 0]
        out := some fname
        count := 0
        evictions := 0
        totalBytes := 0
        files := Function.update p.files fname [] })

/-- All entries, bucket by bucket. -/
def entries (p : ProfileData) : List Entry := p.hash.toList.flatMap Vector.toList

/-- The entries that have a count are moved to the eviction buffer. -/
def evictAll (p : ProfileData) : ProfileData :=
  p.entries.foldl (fun p e => if 0 < e.count then p.evictEntry m e else p) p

/-- The memory is freed; it is not read before the next start. -/
def reset (p : ProfileData) : ProfileData :=
  if p.enabled then { p with evict := [], out := none } else p

/-- `Stop`; `maps` is what `DumpProcSelfMaps` writes. -/
def stop (maps : List UInt8) (p : ProfileData) : ProfileData :=
  if p.enabled then
    let p := p.evictAll m
    let p := if kBufferLength < p.evict.length + 3 then p.flushEvicted m else p
    let p := { p with evict := p.evict ++ [0, 1, 0] }.flushEvicted m
    (p.fdWrite maps).reset
  else p

/-- The entry after it was moved. -/
def Entry.cleared (e : Entry) : Entry := if 0 < e.count then { e with count := 0, depth := 0 } else e

/-- Writes all samples of the table and empties it. -/
def flushTable (p : ProfileData) : ProfileData :=
  if p.enabled then
    let p := p.evictAll m
    { p with hash := p.hash.map (Vector.map Entry.cleared) }.flushEvicted m
  else p

/-- The hash value of a trace. -/
def hashValue (stack : List ℕ) : ℕ :=
  stack.foldl (fun h slot =>
    (((h <<< 8) % 2 ^ (8 * m.size) ||| h >>> (8 * (m.size - 1))) +
      (slot * 31 + slot * 7 + slot * 3)) % 2 ^ (8 * m.size)) 0

/-- The bucket of a stack. -/
def bucketOf (stack : List ℕ) : Fin kBuckets :=
  ⟨hashValue m stack % kBuckets, Nat.mod_lt _ (by decide)⟩

/-- The entry has the trace. -/
def Entry.matches (e : Entry) (stack : List ℕ) : Bool :=
  e.depth = stack.length ∧ e.stack.take stack.length = stack

/-- The first entry with the trace. -/
def findEntry (bucket : Bucket) (stack : List ℕ) : Option (Fin kAssociativity) :=
  (List.finRange kAssociativity).find? fun a => (bucket.get a).matches stack

/-- The first entry with the smallest count. -/
def smallest (bucket : Bucket) : Fin kAssociativity :=
  (List.finRange kAssociativity).tail.foldl
    (fun e a => if (bucket.get a).count < (bucket.get e).count then a else e) ⟨0, by decide⟩

/-- Puts a sample into a place of a bucket. -/
def setEntry (p : ProfileData) (i : Fin kBuckets) (a : Fin kAssociativity) (e : Entry) : ProfileData :=
  { p with hash := p.hash.set i ((p.hash.get i).set a e) }

/-- The part of the stack that is recorded. -/
def trace (stack : List ℕ) : List ℕ := stack.take kMaxStackDepth

/-- `Add` of the frames of a stack; a failed `RAW_CHECK` is `none`. -/
def add (stack : List ℕ) (p : ProfileData) : Option ProfileData :=
  if p.enabled then
    let stack := trace stack
    if stack.length = 0 then none
    else
      let p := { p with count := p.count + 1 }
      let i := bucketOf m stack
      let bucket := p.hash.get i
      match findEntry bucket stack with
      | some a =>
        let e := bucket.get a
        some (p.setEntry i a { e with count := e.count + 1 })
      | none =>
        let a := smallest bucket
        let e := bucket.get a
        let p := if 0 < e.count then { p with evictions := p.evictions + 1 }.evictEntry m e else p
        some (p.setEntry i a ⟨1, stack.length, stack⟩)
  else some p

/-- The calls of the public methods. -/
inductive Call where
  | start (fname : String) (opens : Bool) (frequency : ℕ)
  | add (stack : List ℕ)
  | flushTable
  | stop (maps : List UInt8)
  | reset

/-- What a call does; it may not return. -/
def call (p : ProfileData) : Call → Option ProfileData
  | .start fname opens frequency => (start fname opens frequency p).map Prod.snd
  | .add stack => add m stack p
  | .flushTable => some (p.flushTable m)
  | .stop maps => some (p.stop m maps)
  | .reset => some p.reset

/-- A sequence of calls. -/
def run (p : ProfileData) (cs : List Call) : Option ProfileData := cs.foldlM (call m) p

/-! ### The memory of slots -/

namespace SlotType

@[simp] theorem bytes_nil : m.bytes [] = [] := rfl

theorem bytes_append (slots slots' : List ℕ) : m.bytes (slots ++ slots') = m.bytes slots ++ m.bytes slots' :=
  List.flatMap_append

/-- Each slot takes its size. -/
theorem length_bytes (slots : List ℕ) : (m.bytes slots).length = m.size * slots.length := by
  induction slots with
  | nil => rfl
  | cons n slots ih =>
    rw [bytes, List.flatMap_cons, List.length_append, Words.length_bytes, List.length_cons, Nat.mul_succ,
      Nat.add_comm]
    exact congrArg (· + m.size) ih

end SlotType

/-! ### The table -/

/-- The sample that an entry counts. -/
def Entry.counted (e : Entry) : Counted (List ℕ) := ⟨e.count, e.stack.take e.depth⟩

/-- The samples in the table. -/
def table (p : ProfileData) : List (Counted (List ℕ)) :=
  (p.hash.toList.map fun b => b.toList.map Entry.counted).flatten

/-- The samples of the table are its entries. -/
theorem table_eq (p : ProfileData) : p.table = p.entries.map Entry.counted := by
  rw [table, entries, List.flatMap_def, List.map_flatten, List.map_map]
  rfl

/-- A place of a bucket is an entry of the table. -/
theorem get_mem_entries (p : ProfileData) (i : Fin kBuckets) (a : Fin kAssociativity) :
    (p.hash.get i).get a ∈ p.entries := by
  refine List.mem_flatMap.mpr ⟨p.hash.get i, ?_, ?_⟩ <;> simp [Vector.get]

/-- An entry is replaced. -/
theorem tally_setEntry (p : ProfileData) (i : Fin kBuckets) (a : Fin kAssociativity) (e : Entry)
    (t : List ℕ) : tally (p.setEntry i a e).table t + ((p.hash.get i).get a).counted.times t =
      tally p.table t + e.counted.times t := by
  have hbucket : (p.hash.toList.map fun b => b.toList.map Entry.counted)[i.val]? =
      some ((p.hash.get i).toList.map Entry.counted) := by
    simp [Vector.get]
  have hentry : ((p.hash.get i).toList.map Entry.counted)[a.val]? =
      some ((p.hash.get i).get a).counted := by
    simp [Vector.get]
    rfl
  have hset : (p.setEntry i a e).table = ((p.hash.toList.map fun b => b.toList.map Entry.counted).set i
      (((p.hash.get i).toList.map Entry.counted).set a e.counted)).flatten := by
    rw [table, setEntry, Vector.toList_set, List.map_set, Vector.toList_set, List.map_set]
  have houter := tally_flatten_set hbucket
    (((p.hash.get i).toList.map Entry.counted).set a e.counted) t
  have hinner := tally_set hentry e.counted t
  rw [hset, table]
  omega

/-- One place is changed. -/
theorem mem_entries_setEntry {p : ProfileData} {i : Fin kBuckets} {a : Fin kAssociativity}
    {e x : Entry} (h : x ∈ (p.setEntry i a e).entries) : x = e ∨ x ∈ p.entries := by
  rw [entries, setEntry, List.mem_flatMap] at h
  obtain ⟨b, hb, hx⟩ := h
  rw [Vector.toList_set] at hb
  rcases List.mem_or_eq_of_mem_set hb with hb | rfl
  · exact .inr (List.mem_flatMap.mpr ⟨b, hb, hx⟩)
  · rw [Vector.toList_set] at hx
    rcases List.mem_or_eq_of_mem_set hx with hx | rfl
    · exact .inr (List.mem_flatMap.mpr ⟨_, by simp [Vector.get], hx⟩)
    · exact .inl rfl

/-! ### What goes into the file -/

/-- The slots of a record. -/
def record (c : Counted (List ℕ)) : List ℕ := c.count :: c.key.length :: c.key

/-- The slots of a header and some records. -/
def encode (period : ℕ) (rs : List (Counted (List ℕ))) : List ℕ :=
  [0, 3, 0, period, 0] ++ rs.flatMap record

/-- A sample as `Add` records it. -/
structure Recorded (c : Counted (List ℕ)) : Prop where
  pos : 0 < c.count
  key_ne : c.key ≠ []
  depth : c.key.length ≤ kMaxStackDepth

/-- The entry counts a sample, or nothing. -/
def Entry.Wf (e : Entry) : Prop := 0 < e.count → Recorded e.counted ∧ e.depth = e.counted.key.length

variable {m} {p p' p'' : ProfileData} {fname : String}

/-- From `p` to `p'`, some slots go into the buffer or the file `fname`; nothing else changes. -/
structure Writes (m : SlotType) (fname : String) (p : ProfileData) (slots : List ℕ) (p' : ProfileData) : Prop where
  out : p'.out = p.out
  hash : p'.hash = p.hash
  count : p'.count = p.count
  pending : p'.files fname ++ m.bytes p'.evict = p.files fname ++ m.bytes p.evict ++ m.bytes slots
  others : ∀ g ≠ fname, p'.files g = p.files g
  bytes : p.totalBytes = (p.files fname).length → p'.totalBytes = (p'.files fname).length
  buffer : p.evict.length ≤ kBufferLength → p'.evict.length ≤ kBufferLength

namespace Writes

theorem refl (m : SlotType) (fname : String) (p : ProfileData) : Writes m fname p [] p where
  out := rfl
  hash := rfl
  count := rfl
  pending := (List.append_nil _).symm
  others _ _ := rfl
  bytes h := h
  buffer h := h

theorem trans {slots slots' : List ℕ} (h : Writes m fname p slots p') (h' : Writes m fname p' slots' p'') :
    Writes m fname p (slots ++ slots') p'' where
  out := h'.out.trans h.out
  hash := h'.hash.trans h.hash
  count := h'.count.trans h.count
  pending := by rw [h'.pending, h.pending, SlotType.bytes_append, List.append_assoc]
  others g hg := (h'.others g hg).trans (h.others g hg)
  bytes hp := h'.bytes (h.bytes hp)
  buffer hp := h'.buffer (h.buffer hp)

end Writes

variable (m)

/-- What the flush of the buffer leaves. -/
theorem flushEvicted_eq (hout : p.out = some fname) : p.flushEvicted m =
    { p with
      evict := []
      totalBytes := p.totalBytes + m.size * p.evict.length
      files := Function.update p.files fname (p.files fname ++ m.bytes p.evict) } := by
  rw [flushEvicted]
  split
  · rw [fdWrite, hout]
  · rename_i hempty
    have hnil : p.evict = [] := List.length_eq_zero_iff.mp (Nat.eq_zero_of_not_pos hempty)
    rw [hnil, SlotType.bytes_nil, List.append_nil, Function.update_eq_self, List.length_nil]
    rfl

/-- It moves slots from the buffer to the file. -/
theorem writes_flushEvicted (hout : p.out = some fname) : Writes m fname p [] (p.flushEvicted m) := by
  rw [flushEvicted_eq m hout]
  refine ⟨rfl, rfl, rfl, ?_, fun g hg => Function.update_of_ne hg _ _, fun h => ?_, fun _ => ?_⟩
  · simp
  · simp only [Function.update_self, List.length_append, SlotType.length_bytes, h]
  · exact Nat.zero_le _

/-- What is in the buffer goes into the file. -/
theorem files_flushEvicted (hout : p.out = some fname) :
    (p.flushEvicted m).files fname = p.files fname ++ m.bytes p.evict := by
  rw [flushEvicted_eq m hout]
  exact Function.update_self ..

/-- The slots fit into the buffer, after a flush where it is too full. -/
theorem writes_slots (hout : p.out = some fname) {slots : List ℕ} (hfit : slots.length ≤ kBufferLength) :
    Writes m fname p slots (let q := if kBufferLength < p.evict.length + slots.length then p.flushEvicted m
      else p
    { q with evict := q.evict ++ slots }) := by
  have happend : ∀ q : ProfileData, q.evict.length + slots.length ≤ kBufferLength →
      Writes m fname q slots { q with evict := q.evict ++ slots } := fun q hq =>
    ⟨rfl, rfl, rfl, by rw [SlotType.bytes_append, List.append_assoc], fun _ _ => rfl, id, fun _ => by
      rw [List.length_append]
      exact hq⟩
  dsimp only
  split
  · have hflush := writes_flushEvicted m hout
    have hempty : (p.flushEvicted m).evict = [] := rfl
    exact hflush.trans (happend (p.flushEvicted m) (by rw [hempty, List.length_nil, Nat.zero_add]; exact hfit))
  · rename_i hroom
    exact happend p (Nat.le_of_not_lt hroom)

/-- A sample that is evicted is written as a record. -/
theorem writes_evictEntry (hout : p.out = some fname) {e : Entry} (he : Recorded e.counted)
    (hdepth : e.depth = e.counted.key.length) : Writes m fname p (record e.counted) (p.evictEntry m e) := by
  have hlength : (record e.counted).length = e.depth + 2 := by
    rw [record, List.length_cons, List.length_cons, hdepth]
  have hfit : (record e.counted).length ≤ kBufferLength := by
    have hle := he.depth
    rw [kMaxStackDepth] at hle
    rw [hlength, hdepth, kBufferLength]
    omega
  have hslots : record e.counted = e.count :: e.depth :: e.stack.take e.depth := by
    rw [record, ← hdepth]
    rfl
  have hwrites := writes_slots m hout hfit
  rw [hlength] at hwrites
  rw [hslots] at hwrites ⊢
  exact hwrites

/-- The samples that a list of entries counts. -/
def counts (es : List Entry) : List (Counted (List ℕ)) :=
  (es.map Entry.counted).filter fun c => 0 < c.count

/-- Each sample of a list is written as a record. -/
theorem writes_entries (hout : p.out = some fname) {es : List Entry} (hes : ∀ e ∈ es, e.Wf) :
    Writes m fname p ((counts es).flatMap record)
      (es.foldl (fun p e => if 0 < e.count then p.evictEntry m e else p) p) := by
  induction es generalizing p with
  | nil => exact .refl m fname p
  | cons e es ih =>
    obtain ⟨he, hrest⟩ := List.forall_mem_cons.mp hes
    rw [List.foldl_cons]
    by_cases hpos : 0 < e.count
    · have hcounts : counts (e :: es) = e.counted :: counts es := by
        simp [counts, Entry.counted, hpos]
      obtain ⟨hrecorded, hdepth⟩ := he hpos
      have hfirst := writes_evictEntry m hout hrecorded hdepth
      rw [if_pos hpos, hcounts, List.flatMap_cons]
      exact hfirst.trans (ih (hfirst.out.trans hout) hrest)
    · have hcounts : counts (e :: es) = counts es := by
        simp [counts, Entry.counted, hpos]
      rw [if_neg hpos, hcounts]
      exact ih hout hrest

/-- A sample that matches a stack is one of this stack. -/
theorem depth_of_matches {e : Entry} {stack : List ℕ} (he : e.matches stack = true) :
    e.depth = stack.length ∧ e.counted = ⟨e.count, stack⟩ := by
  obtain ⟨hdepth, hstack⟩ := of_decide_eq_true he
  refine ⟨hdepth, ?_⟩
  rw [Entry.counted, hdepth, hstack]

/-- The place that is found has a matching sample. -/
theorem matches_of_findEntry {bucket : Bucket} {stack : List ℕ} {a : Fin kAssociativity}
    (h : findEntry bucket stack = some a) : (bucket.get a).matches stack = true := by
  rw [findEntry] at h
  exact List.find?_some (p := fun a => (bucket.get a).matches stack) h

theorem trace_ne_nil {stack : List ℕ} (h : stack ≠ []) : trace stack ≠ [] := by
  simp [trace, kMaxStackDepth, h]

/-- No more is recorded than the greatest depth. -/
theorem length_trace_le (stack : List ℕ) : (trace stack).length ≤ kMaxStackDepth := by
  rw [trace]
  exact List.length_take_le ..

/-- An entry of a trace that was recorded. -/
theorem wf_of_trace {e : Entry} {stack : List ℕ} (hstack : stack ≠ []) (hdepth : e.depth = (trace stack).length)
    (hcounted : e.counted.key = trace stack) : e.Wf := fun hpos =>
  ⟨⟨hpos, hcounted ▸ trace_ne_nil hstack, hcounted ▸ length_trace_le stack⟩, hcounted ▸ hdepth⟩

variable {m}

/-! ### A session -/

/-- A session of a period has the samples that were added, in the file, the buffer and the table.
`before` are the files when it was started. -/
structure Session (m : SlotType) (before : String → List UInt8) (fname : String) (period : ℕ) (adds : List (List ℕ))
    (p : ProfileData) : Prop where
  out : p.out = some fname
  others : ∀ g ≠ fname, p.files g = before g
  wf : ∀ e ∈ p.entries, e.Wf
  pending : ∃ rs, p.files fname ++ m.bytes p.evict = m.bytes (encode period rs) ∧ (∀ c ∈ rs, Recorded c) ∧
    ∀ t, tally rs t + tally p.table t = adds.count t
  count : p.count = adds.length
  bytes : p.totalBytes = (p.files fname).length
  buffer : p.evict.length ≤ kBufferLength

variable {before : String → List UInt8} {period : ℕ} {adds : List (List ℕ)}

theorem encode_append (period : ℕ) (rs rs' : List (Counted (List ℕ))) :
    encode period rs ++ rs'.flatMap record = encode period (rs ++ rs') := by
  rw [encode, encode, List.flatMap_append, List.append_assoc]

/-- Samples of the table can be written as records. -/
theorem recorded_counts {es : List Entry} (hes : ∀ e ∈ es, e.Wf) : ∀ c ∈ counts es, Recorded c := by
  intro c hc
  rw [counts, List.mem_filter, List.mem_map] at hc
  obtain ⟨⟨e, he, rfl⟩, hpos⟩ := hc
  exact (hes e he (of_decide_eq_true hpos)).1

/-- The samples of an empty table are empty. -/
theorem zero_of_mem_noEntries {e : Entry} (he : e ∈ noEntries.toList.flatMap Vector.toList) :
    e = ⟨0, 0, []⟩ := by
  obtain ⟨b, hb, he⟩ := List.mem_flatMap.mp he
  rw [noEntries, Vector.toList_replicate] at hb
  rw [(List.mem_replicate.mp hb).2, Vector.toList_replicate] at he
  exact (List.mem_replicate.mp he).2

/-- A start that succeeds begins a session. -/
theorem session_start (fname : String) {frequency : ℕ} (henabled : p.enabled = false)
    (hfrequency : 0 < frequency) :
    ∃ p', start fname true frequency p = some (true, p') ∧
      Session m p.files fname (1000000 / frequency) [] p' := by
  have hstart : start fname true frequency p = some (true,
      ⟨noEntries, [0, 3, 0, 1000000 / frequency, 0], some fname, 0, 0, 0,
        Function.update p.files fname []⟩) := by
    simp [start, henabled, hfrequency.ne']
  refine ⟨_, hstart, rfl, fun g hg => Function.update_of_ne hg _ _, ?_, ⟨[], ?_, ?_, ?_⟩, rfl, ?_, ?_⟩
  · intro e he hpos
    rw [zero_of_mem_noEntries he] at hpos
    exact absurd hpos (Nat.lt_irrefl 0)
  · simp [encode]
  · exact List.forall_mem_nil _
  · -- nothing of the zeroed table counts
    intro t
    rw [tally_nil, Nat.zero_add, List.count_nil, table_eq]
    refine tally_eq_zero (fun c hc => ?_) t
    obtain ⟨e, he, rfl⟩ := List.mem_map.mp hc
    rw [zero_of_mem_noEntries he]
    rfl
  · simp
  · simp [kBufferLength]

namespace Session

variable (h : Session m before fname period adds p)

include h

/-- During a session a file is open. -/
theorem enabled : p.enabled = true := by rw [ProfileData.enabled, h.out, Option.isSome_some]

/-- After all entries were moved, the records have every sample. -/
theorem evictAll : ∃ rs, (p.evictAll m).files fname ++ m.bytes (p.evictAll m).evict = m.bytes (encode period rs) ∧
    (∀ c ∈ rs, Recorded c) ∧ ∀ t, tally rs t = adds.count t := by
  obtain ⟨rs, hpending, hrs, htally⟩ := h.pending
  have hwrites := writes_entries m h.out h.wf
  refine ⟨rs ++ counts p.entries, ?_, ?_, fun t => ?_⟩
  · rw [ProfileData.evictAll, hwrites.pending, hpending, ← SlotType.bytes_append, encode_append]
  · exact List.forall_mem_append.mpr ⟨hrs, recorded_counts h.wf⟩
  · rw [tally_append, counts, tally_filter, ← table_eq, htally]

end Session

/-- The entries of a cleared table are cleared. -/
theorem mem_entries_cleared {es : Vector Bucket kBuckets} {e : Entry}
    (he : e ∈ (es.map (Vector.map Entry.cleared)).toList.flatMap Vector.toList) :
    ∃ e' ∈ es.toList.flatMap Vector.toList, e = e'.cleared := by
  obtain ⟨b, hb, he⟩ := List.mem_flatMap.mp he
  rw [Vector.toList_map] at hb
  obtain ⟨b', hb', rfl⟩ := List.mem_map.mp hb
  rw [Vector.toList_map] at he
  obtain ⟨e', he', rfl⟩ := List.mem_map.mp he
  exact ⟨e', List.mem_flatMap.mpr ⟨b', hb', he'⟩, rfl⟩

/-- A cleared sample counts nothing. -/
theorem Entry.count_cleared (e : Entry) : e.cleared.count = 0 := by
  rw [cleared]
  split
  · rfl
  · rename_i hcount
    exact Nat.eq_zero_of_not_pos hcount

namespace Session

variable (h : Session m before fname period adds p)

include h

/-- A flush keeps the session. -/
theorem flushTable : Session m before fname period adds (p.flushTable m) := by
  have hwrites := writes_entries m h.out h.wf
  obtain ⟨rs, hpending, hrs, htally⟩ := h.evictAll
  rw [ProfileData.flushTable, if_pos h.enabled]
  let q : ProfileData := { (p.evictAll m) with hash := (p.evictAll m).hash.map (Vector.map Entry.cleared) }
  change Session m before fname period adds (q.flushEvicted m)
  have hqout : q.out = some fname := hwrites.out.trans h.out
  have hflush := writes_flushEvicted m hqout
  -- the entries of the table are the cleared ones: none has a count
  have hzero : ∀ e ∈ (q.flushEvicted m).entries, e.count = 0 := by
    intro e he
    rw [entries, hflush.hash] at he
    obtain ⟨e', -, rfl⟩ := mem_entries_cleared he
    exact e'.count_cleared
  refine ⟨hflush.out.trans hqout, fun g hg => ?_, fun e he hpos => ?_, ⟨rs, ?_, hrs, fun t => ?_⟩, ?_, ?_, ?_⟩
  · exact (hflush.others g hg).trans ((hwrites.others g hg).trans (h.others g hg))
  · rw [hzero e he] at hpos
    exact absurd hpos (Nat.lt_irrefl 0)
  · rw [hflush.pending, SlotType.bytes_nil, List.append_nil]
    exact hpending
  · have htable : tally (q.flushEvicted m).table t = 0 := by
      rw [table_eq]
      refine tally_eq_zero (fun c hc => ?_) t
      obtain ⟨e, he, rfl⟩ := List.mem_map.mp hc
      exact hzero e he
    rw [htable, htally, Nat.add_zero]
  · exact hflush.count.trans (hwrites.count.trans h.count)
  · exact hflush.bytes (hwrites.bytes h.bytes)
  · exact hflush.buffer (hwrites.buffer h.buffer)

/-- An entry is replaced by one that counts the trace once more; what it drops is written. -/
theorem replaced {slots : List (Counted (List ℕ))} {q : ProfileData} {stack : List ℕ}
    {i : Fin kBuckets} {a : Fin kAssociativity} {e : Entry}
    (hwrites : Writes m fname { p with count := p.count + 1 } (slots.flatMap record) q)
    (hslots : ∀ c ∈ slots, Recorded c) (he : e.Wf)
    (htimes : ∀ t, tally slots t + e.counted.times t =
      ((p.hash.get i).get a).counted.times t + [stack].count t) :
    Session m before fname period (adds ++ [stack]) (q.setEntry i a e) := by
  obtain ⟨rs, hpending, hrs, htally⟩ := h.pending
  have hhash : q.hash = p.hash := hwrites.hash
  have htable : q.table = p.table := by rw [table, table, hhash]
  have hentries : q.entries = p.entries := by rw [entries, entries, hhash]
  refine ⟨hwrites.out.trans h.out, fun g hg => (hwrites.others g hg).trans (h.others g hg), ?_,
    ⟨rs ++ slots, ?_, List.forall_mem_append.mpr ⟨hrs, hslots⟩, fun t => ?_⟩, ?_,
    hwrites.bytes h.bytes, hwrites.buffer h.buffer⟩
  · intro x hx
    rcases mem_entries_setEntry hx with rfl | hx
    · exact he
    · exact h.wf x (hentries ▸ hx)
  · rw [← encode_append, SlotType.bytes_append, ← hpending]
    exact hwrites.pending
  · -- what the table loses is in the slots, but for the one sample
    have hset := tally_setEntry q i a e t
    rw [htable, hhash] at hset
    have hrest := htally t
    have hnew := htimes t
    rw [tally_append, List.count_append]
    omega
  · have hcount : q.count = p.count + 1 := hwrites.count
    rw [List.length_append, ← h.count]
    exact hcount

/-- An entry that has the trace counts one more. -/
theorem recount {stack : List ℕ} (hstack : stack ≠ []) {i : Fin kBuckets} {a : Fin kAssociativity}
    (hfind : findEntry (p.hash.get i) (trace stack) = some a) :
    Session m before fname period (adds ++ [trace stack]) ({ p with count := p.count + 1 }.setEntry i a
      { (p.hash.get i).get a with count := ((p.hash.get i).get a).count + 1 }) := by
  obtain ⟨hdepth, hcounted⟩ := depth_of_matches (matches_of_findEntry hfind)
  have hnothing : Writes m fname { p with count := p.count + 1 } (List.flatMap record []) _ :=
    .refl m fname _
  refine h.replaced hnothing (List.forall_mem_nil _) ?_ fun t => ?_
  · exact wf_of_trace hstack hdepth (congrArg Counted.key hcounted)
  · have hnew : Entry.counted { (p.hash.get i).get a with
        count := ((p.hash.get i).get a).count + 1 } =
        ⟨((p.hash.get i).get a).count + 1, trace stack⟩ :=
      congrArg (fun c : Counted (List ℕ) => Counted.mk _ c.key) hcounted
    rw [hcounted, hnew, tally_nil, Nat.zero_add, Counted.times_succ]

/-- Any entry makes room for a new one. -/
theorem makeRoom {stack : List ℕ} (hstack : stack ≠ []) (i : Fin kBuckets) (a : Fin kAssociativity) :
    Session m before fname period (adds ++ [trace stack])
      ((if 0 < ((p.hash.get i).get a).count then { p with
          count := p.count + 1
          evictions := p.evictions + 1 }.evictEntry m ((p.hash.get i).get a)
        else { p with count := p.count + 1 }).setEntry i a ⟨1, (trace stack).length, trace stack⟩) := by
  have hmem := get_mem_entries p i a
  generalize hold : (p.hash.get i).get a = old at hmem
  have hnew : Entry.counted ⟨1, (trace stack).length, trace stack⟩ = ⟨1, trace stack⟩ := by
    rw [Entry.counted, List.take_length]
  have hwf : Entry.Wf ⟨1, (trace stack).length, trace stack⟩ :=
    wf_of_trace hstack rfl (congrArg Counted.key hnew)
  have htimes (t : List ℕ) : (⟨1, trace stack⟩ : Counted (List ℕ)).times t = [trace stack].count t := by
    rw [Counted.times_succ, Counted.times_of_count_eq_zero rfl, Nat.zero_add]
  by_cases hpos : 0 < old.count
  · -- what the entry has counted is written before the entry is taken
    obtain ⟨hrecorded, hdepth⟩ := h.wf old hmem hpos
    have hskip : Writes m fname { p with count := p.count + 1 } []
        { p with count := p.count + 1, evictions := p.evictions + 1 } :=
      ⟨rfl, rfl, rfl, (List.append_nil _).symm, fun _ _ => rfl, id, id⟩
    have hevict := writes_evictEntry m (p := { p with count := p.count + 1, evictions := p.evictions + 1 })
      h.out hrecorded hdepth
    have hone : [] ++ record old.counted = List.flatMap record [old.counted] := by
      rw [List.flatMap_cons, List.flatMap_nil, List.append_nil, List.nil_append]
    rw [if_pos hpos]
    refine h.replaced (hone ▸ hskip.trans hevict) (List.forall_mem_singleton.mpr hrecorded) hwf fun t => ?_
    rw [hold, hnew, htimes, tally_cons, tally_nil, Nat.add_zero]
  · have hnothing : Writes m fname { p with count := p.count + 1 } (List.flatMap record []) _ :=
      .refl m fname _
    have hzero (t : List ℕ) : old.counted.times t = 0 :=
      Counted.times_of_count_eq_zero (Nat.eq_zero_of_not_pos hpos) t
    rw [if_neg hpos]
    refine h.replaced hnothing (List.forall_mem_nil _) hwf fun t => ?_
    rw [hold, hnew, htimes, tally_nil, hzero]

/-- `Add` returns, and its stack is in the session. -/
theorem add {stack : List ℕ} (hstack : stack ≠ []) :
    ∃ p', ProfileData.add m stack p = some p' ∧ Session m before fname period (adds ++ [trace stack]) p' := by
  have hlength : (trace stack).length ≠ 0 := fun hzero =>
    trace_ne_nil hstack (List.length_eq_zero_iff.mp hzero)
  rw [ProfileData.add, if_pos h.enabled]
  dsimp only
  rw [if_neg hlength]
  split
  · rename_i hfind
    exact ⟨_, rfl, h.recount hstack hfind⟩
  · exact ⟨_, rfl, h.makeRoom hstack _ _⟩

/-- `Stop` writes the session to the file, behind it the end marker and the map. -/
theorem stop (maps : List UInt8) : (p.stop m maps).out = none ∧ (p.stop m maps).count = adds.length ∧
    (∀ g ≠ fname, (p.stop m maps).files g = before g) ∧
    ∃ rs, (p.stop m maps).files fname = m.bytes (encode period rs ++ [0, 1, 0]) ++ maps ∧
      (∀ c ∈ rs, Recorded c) ∧ ∀ t, tally rs t = adds.count t := by
  have hwrites := writes_entries m h.out h.wf
  obtain ⟨rs, hpending, hrs, htally⟩ := h.evictAll
  have hfit : [0, 1, 0].length ≤ kBufferLength := by decide
  have hmarker := writes_slots m (p := (p.evictAll m)) (hwrites.out.trans h.out) hfit
  -- `q` is the state with the marker in the buffer
  generalize hq : (let q := if kBufferLength < (p.evictAll m).evict.length + [0, 1, 0].length then
      (p.evictAll m).flushEvicted m else (p.evictAll m)
    { q with evict := q.evict ++ [0, 1, 0] } : ProfileData) = q at hmarker
  have hqout : q.out = some fname := hmarker.out.trans (hwrites.out.trans h.out)
  have hflush := writes_flushEvicted m hqout
  have hout : (q.flushEvicted m).out = some fname := hflush.out.trans hqout
  have hfile : (q.flushEvicted m).files fname = m.bytes (encode period rs ++ [0, 1, 0]) := by
    rw [files_flushEvicted m hqout, hmarker.pending, hpending, SlotType.bytes_append]
  have hstop : p.stop m maps = ((q.flushEvicted m).fdWrite maps).reset := by
    rw [ProfileData.stop, if_pos h.enabled, ← hq]
    rfl
  have hreset : ((q.flushEvicted m).fdWrite maps).reset =
      { q.flushEvicted m with
        files := Function.update (q.flushEvicted m).files fname ((q.flushEvicted m).files fname ++ maps)
        evict := []
        out := none } := by
    rw [fdWrite, hout]
    simp [reset, ProfileData.enabled]
  rw [hstop, hreset]
  refine ⟨rfl, ?_, fun g hg => ?_, rs, ?_, hrs, htally⟩
  · exact hflush.count.trans (hmarker.count.trans (hwrites.count.trans h.count))
  · refine (Function.update_of_ne hg _ _).trans ((hflush.others g hg).trans ?_)
    exact (hmarker.others g hg).trans ((hwrites.others g hg).trans (h.others g hg))
  · rw [← hfile]
    exact Function.update_self ..

end Session

/-- The calls between `start` and `stop`. -/
def Call.During : Call → Prop
  | .stop _ | .reset => False
  | .start .. | .add _ | .flushTable => True

/-- The samples that a call adds. -/
def Call.traces : Call → List (List ℕ)
  | .add stack => [trace stack]
  | .start .. | .flushTable | .stop _ | .reset => []

/-- **A call keeps the session**, with the stacks it adds. -/
theorem session_call (h : Session m before fname period adds p) {c : Call} (hc : c.During)
    (hadd : c ≠ .add []) :
    ∃ p', call m p c = some p' ∧ Session m before fname period (adds ++ c.traces) p' := by
  cases c with
  | start fname' opens frequency =>
    refine ⟨p, ?_, (List.append_nil adds).symm ▸ h⟩
    rw [call, start, if_pos h.enabled, Option.map_some]
  | add stack => exact h.add fun hnil => hadd (congrArg Call.add hnil)
  | flushTable => exact ⟨_, rfl, (List.append_nil adds).symm ▸ h.flushTable⟩
  | stop maps => exact hc.elim
  | reset => exact hc.elim

/-- Calls keep the session, with the stacks they add. -/
theorem session_run (h : Session m before fname period adds p) {cs : List Call}
    (hcs : ∀ c ∈ cs, c.During) (hadd : .add [] ∉ cs) :
    ∃ p', run m p cs = some p' ∧ Session m before fname period (adds ++ cs.flatMap Call.traces) p' := by
  induction cs generalizing p adds with
  | nil => exact ⟨p, rfl, (List.append_nil adds).symm ▸ h⟩
  | cons c cs ih =>
    obtain ⟨hc, hrest⟩ := List.forall_mem_cons.mp hcs
    obtain ⟨hne, hnot⟩ := not_or.mp fun hor => hadd (List.mem_cons.mpr hor)
    obtain ⟨p₁, hcall, h₁⟩ := session_call h hc (Ne.symm hne)
    obtain ⟨p', hrun, h'⟩ := ih h₁ hrest hnot
    refine ⟨p', ?_, ?_⟩
    · rw [run, List.foldlM_cons, hcall]
      exact hrun
    · rw [List.flatMap_cons, ← List.append_assoc]
      exact h'

/-- An empty stack is refused, whatever was called before it. -/
theorem run_eq_none (h : Session m before fname period adds p) {cs : List Call}
    (hcs : ∀ c ∈ cs, c.During) (hadd : .add [] ∈ cs) : run m p cs = none := by
  induction cs generalizing p adds with
  | nil => cases hadd
  | cons c cs ih =>
    obtain ⟨hc, hrest⟩ := List.forall_mem_cons.mp hcs
    by_cases hempty : c = .add []
    · subst hempty
      rw [run, List.foldlM_cons, call, ProfileData.add, if_pos h.enabled]
      rfl
    · have hmem : .add [] ∈ cs := (List.mem_cons.mp hadd).resolve_left (Ne.symm hempty)
      obtain ⟨p₁, hcall, h₁⟩ := session_call h hc hempty
      rw [run, List.foldlM_cons, hcall]
      exact ih h₁ hrest hmem

theorem run_append (p : ProfileData) (cs cs' : List Call) :
    run m p (cs ++ cs') = (run m p cs).bind fun p' => run m p' cs' := by
  rw [run, List.foldlM_append]
  rfl

/-- The calls of a session that is stopped. -/
def profiled (fname : String) (frequency : ℕ) (cs : List Call) (maps : List UInt8) : List Call :=
  .start fname true frequency :: cs ++ [.stop maps]

/-- The file of a session has each trace as often as it was added, up to the end marker; the collector
dies if and only if a stack without frames is added. -/
theorem files_of_session (m : SlotType) (fname : String) {frequency : ℕ} (henabled : p.enabled = false)
    (hfrequency : 0 < frequency) {cs : List Call} (hcs : ∀ c ∈ cs, c.During) (maps : List UInt8) :
    (.add [] ∈ cs → run m p (profiled fname frequency cs maps) = none) ∧
      (.add [] ∉ cs → ∃ p' rs, run m p (profiled fname frequency cs maps) = some p' ∧ p'.out = none ∧
        p'.files fname = m.bytes (encode (1000000 / frequency) rs ++ [0, 1, 0]) ++ maps ∧
        (∀ c ∈ rs, Recorded c) ∧ (∀ t, tally rs t = (cs.flatMap Call.traces).count t) ∧
        p'.count = (cs.flatMap Call.traces).length ∧ ∀ g ≠ fname, p'.files g = p.files g) := by
  obtain ⟨p₁, hstart, h₁⟩ := session_start (m := m) fname henabled hfrequency
  have hrun : run m p (profiled fname frequency cs maps) =
      (run m p₁ cs).bind fun p' => some (p'.stop m maps) := by
    rw [profiled, List.cons_append, run, List.foldlM_cons, call, hstart]
    exact run_append p₁ cs _
  rw [hrun]
  constructor
  · intro hadd
    rw [run_eq_none h₁ hcs hadd, Option.bind_none]
  · intro hadd
    obtain ⟨p₂, hcalls, h₂⟩ := session_run h₁ hcs hadd
    rw [List.nil_append] at h₂
    obtain ⟨hout, hcount, hothers, rs, hfile, hrs, htally⟩ := h₂.stop maps
    refine ⟨p₂.stop m maps, rs, ?_, hout, hfile, hrs, htally, hcount, hothers⟩
    rw [hcalls, Option.bind_some]

end ProfileData

end MBT
