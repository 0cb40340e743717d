import MBT.Support.Exec
import MBT.Support.Reentrant

/-!
# Logger — MLogger

The log of a program: its appenders, and the write lock that each method takes.

* `wLock_after`: what each call does to the lock, from any state of the log.
* `balanced_iff`: every call of a run gives the lock back exactly where none adds an appender.
* `lock_other_iff_of_run`: an appender that is once added keeps the lock from all other threads.
-/

namespace MBT
open Exec Reentrant

namespace MLogConfig

/-- The level of `info`. -/
def MLOG_LEVEL_INFO : ℤ := 100

/-- The level of `warning`. -/
def MLOG_LEVEL_WARNING : ℤ := 200

/-- The level of `error`. -/
def MLOG_LEVEL_ERROR : ℤ := 300

/-- The level of `fatal`. -/
def MLOG_LEVEL_FATAL : ℤ := 400

/-- The name of the level `info`. -/
def MLOG_LEVEL_NAME_INFO : String := "info"

/-- The name of the level `warning`. -/
def MLOG_LEVEL_NAME_WARNING : String := "warning"

/-- The name of the level `error`. -/
def MLOG_LEVEL_NAME_ERROR : String := "error"

/-- The name of the level `fatal`. -/
def MLOG_LEVEL_NAME_FATAL : String := "fatal"

/-- What stands between the name of a level and the message. -/
def COLON : String := ":"

end MLogConfig

open MLogConfig

/-- The class `MLogEvent`: a level and a message. -/
structure MLogEvent where
  logLevel : ℤ
  logMessage : String
  deriving DecidableEq

/-- The fields of a log, with the field `levelFilter` of each appender. -/
structure MLogger (T α : Type) where
  lowestLevel : ℤ
  logList : List α
  wLock : Lock T
  levelFilter : α → ℤ

/-- What a method throws, or that its thread waits for the lock. -/
inductive LogFailure where
  | lock (e : Fault)
  | write (e : Exn)

/-- A method of the logger. -/
abbrev LogProg (T α β : Type) := EStateM LogFailure (MLogger T α) β

/-- What the appenders' `write` throws, if it does. -/
abbrev Writes (α : Type) := α → MLogEvent → Option Exn

namespace MLogger

variable {T α β γ : Type} {t : T} {n : ℕ} {s : MLogger T α}

/-- The constructor of `MLogger`: no appenders, and the highest level. -/
def new (levelFilter : α → ℤ) : MLogger T α := ⟨MLOG_LEVEL_FATAL, [], .free, levelFilter⟩

/-- The state that a method leaves, whether it returns or throws. -/
def exec (x : LogProg T α β) (s : MLogger T α) : MLogger T α :=
  match x.run s with
  | .ok _ s' => s'
  | .error _ s' => s'

/-- Behind a part that returns the method goes on. -/
theorem exec_bind_ok {x : LogProg T α β} {f : β → LogProg T α γ} {s' : MLogger T α} {b : β}
    (h : x.run s = .ok b s') : exec (x >>= f) s = exec (f b) s' := by
  rw [exec, EStateM.run_bind, h, exec]

/-- Behind a part that throws it does not. -/
theorem exec_bind_error {x : LogProg T α β} {f : β → LogProg T α γ} {s' : MLogger T α} {e : LogFailure}
    (h : x.run s = .error e s') : exec (x >>= f) s = s' := by
  rw [exec, EStateM.run_bind, h]

/-- A change of the state, then the rest. -/
theorem exec_bind_modify (f : MLogger T α → MLogger T α) (g : Unit → LogProg T α β) (s : MLogger T α) :
    exec (modify f >>= g) s = exec (g ()) (f s) := rfl

/-! ### Writing -/

/-- `MLogAppender.writeLog`. -/
def appenderWriteLog (write : Writes α) (logEvent : MLogEvent) (a : α) : LogProg T α Unit := do
  let s ← get
  if logEvent.logLevel ≥ s.levelFilter a then
    match write a logEvent with
    | none => return ()
    | some e => throw (.write e)

/-- What the appender throws when the event is logged. -/
def thrown (s : MLogger T α) (write : Writes α) (logEvent : MLogEvent) (a : α) : Option Exn :=
  if logEvent.logLevel ≥ s.levelFilter a then write a logEvent else none

/-- An appender throws or leaves the logger. -/
theorem run_appenderWriteLog (write : Writes α) (logEvent : MLogEvent) (a : α) (s : MLogger T α) :
    (appenderWriteLog write logEvent a).run s =
      match s.thrown write logEvent a with
      | none => .ok () s
      | some e => .error (.write e) s := by
  rw [appenderWriteLog, EStateM.run_bind, EStateM.run_get, thrown]
  dsimp only
  by_cases hlevel : logEvent.logLevel ≥ s.levelFilter a
  · rw [if_pos hlevel, if_pos hlevel]
    cases write a logEvent <;> rfl
  · rw [if_neg hlevel, if_neg hlevel]
    rfl

/-- The loop over the appenders ends at the first that throws. -/
theorem run_appenders (write : Writes α) (logEvent : MLogEvent) (l : List α) (s : MLogger T α) :
    (forM l (appenderWriteLog write logEvent)).run s =
      match l.findSome? (s.thrown write logEvent) with
      | none => .ok () s
      | some e => .error (.write e) s := by
  induction l with
  | nil => rfl
  | cons a l ih =>
    rw [List.forM_cons, EStateM.run_bind, run_appenderWriteLog, List.findSome?_cons]
    cases s.thrown write logEvent a with
    | none => exact ih
    | some e => rfl

/-! ### The methods -/

variable [DecidableEq T]

/-- `wLock.lock()` of a thread. -/
def lock (t : T) : LogProg T α Unit := do
  let s ← get
  match s.wLock.lock t with
  | .ok l => set { s with wLock := l }
  | .error e => throw (.lock e)

/-- `wLock.unlock()`. -/
def unlock (t : T) : LogProg T α Unit := do
  let s ← get
  match s.wLock.unlock t with
  | .ok l => set { s with wLock := l }
  | .error e => throw (.lock e)

/-- A thread that has the lock gets it once more. -/
theorem run_lock (h : s.wLock = .times t n) (hn : n < maxCount) :
    (lock t).run s = .ok () { s with wLock := .times t (n + 1) } := by
  rw [lock, EStateM.run_bind, EStateM.run_get]
  dsimp only
  rw [h, Lock.lock_times hn]
  rfl

/-- Not more often than the lock can count. -/
theorem run_lock_max (h : s.wLock = .times t n) (hn : maxCount ≤ n) :
    (lock t).run s = .error (.lock .maximumCount) s := by
  rw [lock, EStateM.run_bind, EStateM.run_get]
  dsimp only
  rw [h, Lock.lock_times_max hn]
  rfl

/-- A thread gives the lock back once. -/
theorem run_unlock (h : s.wLock = .times t (n + 1)) :
    (unlock t).run s = .ok () { s with wLock := .times t n } := by
  rw [unlock, EStateM.run_bind, EStateM.run_get]
  dsimp only
  rw [h, Lock.unlock_times]
  rfl

/-- A method that takes the lock first ends there once the thread holds it too often. -/
theorem exec_max {f : Unit → LogProg T α β} (h : s.wLock = .times t n) (hn : maxCount ≤ n) :
    exec (lock t >>= f) s = s := exec_bind_error (run_lock_max h hn)

variable [DecidableEq α]

/-- The lock is taken once more at the end, and kept where the appender is found in the list. -/
def addAppender (t : T) (appender : Option α) : LogProg T α Bool :=
  match appender with
  | none => return false
  | some appender => do
    lock t
    let s ← get
    if appender ∈ s.logList then return false
    modify fun s => { s with logList := s.logList ++ [appender] }
    if s.lowestLevel > s.levelFilter appender then
      modify fun s => { s with lowestLevel := s.levelFilter appender }
    lock t
    return true

/-- The least of the levels, from a first one. -/
def lowest (lowestLevel : ℤ) (levels : List ℤ) : ℤ :=
  levels.foldl (fun lowestLevel level => if lowestLevel > level then level else lowestLevel) lowestLevel

/-- `logList.remove(appender)`. -/
def remove (logList : List α) : Option α → List α
  | none => logList
  | some appender => logList.erase appender

/-- Removes an appender; the least of the others' levels is the lowest one then. -/
def removeAppender (t : T) (appender : Option α) : LogProg T α Unit := do
  lock t
  modify fun s => { s with logList := remove s.logList appender }
  modify fun s => { s with lowestLevel := lowest MLOG_LEVEL_FATAL (s.logList.map s.levelFilter) }
  unlock t

/-- Sets the level of all appenders. -/
def setLogLevel (t : T) (level : ℤ) : LogProg T α Unit := do
  lock t
  modify fun s => { s with
    levelFilter := s.logList.foldl (fun levelFilter a => Function.update levelFilter a level) s.levelFilter }
  unlock t
  modify fun s => { s with lowestLevel := if s.lowestLevel > level then level else s.lowestLevel }

/-- Hands an event to the appenders, under the lock. -/
def writeLog (t : T) (write : Writes α) (level : ℤ) (msg : String) : LogProg T α Unit := do
  let logEvent := ⟨level, msg⟩
  lock t
  let s ← get
  forM s.logList (appenderWriteLog write logEvent)
  unlock t

/-- Writes a message of level `info`. -/
def info (t : T) (write : Writes α) (msg : String) : LogProg T α Unit :=
  writeLog t write MLOG_LEVEL_INFO (MLOG_LEVEL_NAME_INFO ++ COLON ++ msg)

/-- Writes a message of level `warning`. -/
def warning (t : T) (write : Writes α) (msg : String) : LogProg T α Unit :=
  writeLog t write MLOG_LEVEL_WARNING (MLOG_LEVEL_NAME_WARNING ++ COLON ++ msg)

/-- Writes a message of level `error`. -/
def error (t : T) (write : Writes α) (msg : String) : LogProg T α Unit :=
  writeLog t write MLOG_LEVEL_ERROR (MLOG_LEVEL_NAME_ERROR ++ COLON ++ msg)

/-- Writes a message of level `fatal`. -/
def fatal (t : T) (write : Writes α) (msg : String) : LogProg T α Unit :=
  writeLog t write MLOG_LEVEL_FATAL (MLOG_LEVEL_NAME_FATAL ++ COLON ++ msg)

/-! ### Runs -/

/-- The public methods: `none` is `null`, and a message that is `null` is the text `null`. -/
inductive Call (α : Type) where
  | addAppender (appender : Option α)
  | removeAppender (appender : Option α)
  | setLogLevel (level : ℤ)
  | info (msg : String)
  | warning (msg : String)
  | error (msg : String)
  | fatal (msg : String)

/-- The state after a call, in which the appenders' `write` throws what is given with the call. -/
def after (t : T) (s : MLogger T α) (c : Call α × Writes α) : MLogger T α :=
  match c.1 with
  | .addAppender appender => exec (addAppender t appender) s
  | .removeAppender appender => exec (removeAppender t appender) s
  | .setLogLevel level => exec (setLogLevel t level) s
  | .info msg => exec (info t c.2 msg) s
  | .warning msg => exec (warning t c.2 msg) s
  | .error msg => exec (error t c.2 msg) s
  | .fatal msg => exec (fatal t c.2 msg) s

/-- The event that a call logs. -/
def Call.logEvent : Call α → Option MLogEvent
  | .info msg => some ⟨MLOG_LEVEL_INFO, MLOG_LEVEL_NAME_INFO ++ COLON ++ msg⟩
  | .warning msg => some ⟨MLOG_LEVEL_WARNING, MLOG_LEVEL_NAME_WARNING ++ COLON ++ msg⟩
  | .error msg => some ⟨MLOG_LEVEL_ERROR, MLOG_LEVEL_NAME_ERROR ++ COLON ++ msg⟩
  | .fatal msg => some ⟨MLOG_LEVEL_FATAL, MLOG_LEVEL_NAME_FATAL ++ COLON ++ msg⟩
  | _ => none

/-- The calls of one thread, one after another. -/
def run (t : T) (calls : List (Call α × Writes α)) (s : MLogger T α) : MLogger T α :=
  calls.foldl (after t) s

/-! ### One call -/

/-- What `addAppender` leaves: the lock is held once more, and twice more for a new appender. -/
theorem exec_addAppender (h : s.wLock = .times t n) (hn : n < maxCount) (a : α) :
    exec (addAppender t (some a)) s =
      if a ∈ s.logList then { s with wLock := .times t (n + 1) }
      else { s with
        logList := s.logList ++ [a]
        lowestLevel := if s.lowestLevel > s.levelFilter a then s.levelFilter a else s.lowestLevel
        wLock := .times t (if maxCount ≤ n + 1 then n + 1 else n + 2) } := by
  rw [addAppender, exec_bind_ok (run_lock h hn), exec_bind_ok (EStateM.run_get ..)]
  by_cases hmem : a ∈ s.logList
  · rw [if_pos hmem, if_pos hmem]
    rfl
  · rw [if_neg hmem, if_neg hmem]
    -- the second time the lock is taken it is not given back either
    have hlast : ∀ s' : MLogger T α, s'.wLock = .times t (n + 1) →
        exec (do lock t; return true : LogProg T α Bool) s' =
          { s' with wLock := .times t (if maxCount ≤ n + 1 then n + 1 else n + 2) } := by
      intro s' hs'
      by_cases hmax : maxCount ≤ n + 1
      · rw [exec_bind_error (run_lock_max hs' hmax), if_pos hmax, ← hs']
      · rw [exec_bind_ok (run_lock hs' (Nat.lt_of_not_le hmax)), if_neg hmax]
        rfl
    rw [exec_bind_modify]
    by_cases hlow : s.lowestLevel > s.levelFilter a
    · rw [if_pos hlow, if_pos hlow]
      exact hlast _ rfl
    · rw [if_neg hlow, if_neg hlow]
      exact hlast _ rfl

/-- What `removeAppender` leaves. -/
theorem exec_removeAppender (h : s.wLock = .times t n) (hn : n < maxCount) (a : Option α) :
    exec (removeAppender t a) s = { s with
      logList := remove s.logList a
      lowestLevel := lowest MLOG_LEVEL_FATAL ((remove s.logList a).map s.levelFilter) } := by
  rw [removeAppender, exec_bind_ok (run_lock h hn), exec_bind_modify, exec_bind_modify, exec,
    run_unlock rfl, ← h]

/-- What `setLogLevel` leaves. -/
theorem exec_setLogLevel (h : s.wLock = .times t n) (hn : n < maxCount) (level : ℤ) :
    exec (setLogLevel t level) s = { s with
      levelFilter := s.logList.foldl (fun levelFilter a => Function.update levelFilter a level) s.levelFilter
      lowestLevel := if s.lowestLevel > level then level else s.lowestLevel } := by
  rw [setLogLevel, exec_bind_ok (run_lock h hn), exec_bind_modify, exec_bind_ok (run_unlock rfl), ← h]
  rfl

omit [DecidableEq α] in
/-- What `writeLog` leaves: after an exception the lock is kept. -/
theorem exec_writeLog (h : s.wLock = .times t n) (hn : n < maxCount) (write : Writes α) (level : ℤ)
    (msg : String) :
    exec (writeLog t write level msg) s = { s with
      wLock := .times t (if (s.logList.findSome? (s.thrown write ⟨level, msg⟩)).isSome then n + 1 else n) } := by
  rw [writeLog, exec_bind_ok (run_lock h hn), exec_bind_ok (EStateM.run_get ..)]
  have hloop := run_appenders write ⟨level, msg⟩ s.logList { s with wLock := .times t (n + 1) }
  have hthrown : ({ s with wLock := .times t (n + 1) } : MLogger T α).thrown write ⟨level, msg⟩ =
      s.thrown write ⟨level, msg⟩ := rfl
  rw [hthrown] at hloop
  cases hfind : s.logList.findSome? (s.thrown write ⟨level, msg⟩) with
  | none =>
    rw [hfind] at hloop
    rw [exec_bind_ok hloop, exec, run_unlock rfl]
    rfl
  | some e =>
    rw [hfind] at hloop
    rw [exec_bind_error hloop]
    rfl

/-! ### The lock after a call -/

/-- How often a call takes the lock, held `n` times, and does not give it back. -/
def leaked (s : MLogger T α) (n : ℕ) (c : Call α × Writes α) : ℕ :=
  if maxCount ≤ n then 0
  else match c.1 with
    | .addAppender (some a) => if a ∈ s.logList ∨ maxCount ≤ n + 1 then 1 else 2
    | call =>
      match call.logEvent with
      | none => 0
      | some logEvent => if (s.logList.findSome? (s.thrown c.2 logEvent)).isSome then 1 else 0

/-- A call that the lock throws at leaves the log. -/
theorem after_max (h : s.wLock = .times t n) (hn : maxCount ≤ n) (c : Call α × Writes α) :
    after t s c = s := by
  obtain ⟨call, write⟩ := c
  cases call with
  | addAppender a =>
    cases a with
    | none => rfl
    | some a => exact exec_max h hn
  | removeAppender a => exact exec_max h hn
  | setLogLevel level => exact exec_max h hn
  | info msg => exact exec_max h hn
  | warning msg => exact exec_max h hn
  | error msg => exact exec_max h hn
  | fatal msg => exact exec_max h hn

omit [DecidableEq α] in
/-- How often the lock is held after `writeLog`. -/
theorem wLock_writeLog (h : s.wLock = .times t n) (hn : n < maxCount) (write : Writes α) (level : ℤ)
    (msg : String) : (exec (writeLog t write level msg) s).wLock =
      .times t (n + if (s.logList.findSome? (s.thrown write ⟨level, msg⟩)).isSome then 1 else 0) := by
  rw [exec_writeLog h hn]
  dsimp only
  split <;> rfl

/-- **The lock after a call.** -/
theorem wLock_after (h : s.wLock = .times t n) (c : Call α × Writes α) :
    (after t s c).wLock = .times t (n + s.leaked n c) := by
  by_cases hn : maxCount ≤ n
  · rw [after_max h hn, leaked, if_pos hn]
    exact h
  obtain ⟨call, write⟩ := c
  rw [leaked, if_neg hn]
  have hn := Nat.lt_of_not_le hn
  cases call with
  | addAppender a =>
    cases a with
    | none => exact h
    | some a =>
      have hexec := exec_addAppender h hn a
      by_cases hmem : a ∈ s.logList
      · rw [if_pos hmem] at hexec
        have hleak : a ∈ s.logList ∨ maxCount ≤ n + 1 := .inl hmem
        dsimp only [after]
        rw [hexec, if_pos hleak]
      · rw [if_neg hmem] at hexec
        dsimp only [after]
        rw [hexec]
        dsimp only
        by_cases hmax : maxCount ≤ n + 1
        · rw [if_pos hmax, if_pos (.inr hmax)]
        · rw [if_neg hmax, if_neg (not_or.mpr ⟨hmem, hmax⟩)]
  | removeAppender a =>
    dsimp only [after]
    rw [exec_removeAppender h hn]
    exact h
  | setLogLevel level =>
    dsimp only [after]
    rw [exec_setLogLevel h hn]
    exact h
  | info msg => exact wLock_writeLog h hn ..
  | warning msg => exact wLock_writeLog h hn ..
  | error msg => exact wLock_writeLog h hn ..
  | fatal msg => exact wLock_writeLog h hn ..

omit [DecidableEq α] in
/-- `writeLog` leaves the appenders. -/
theorem logList_writeLog (h : s.wLock = .times t n) (hn : n < maxCount) (write : Writes α) (level : ℤ)
    (msg : String) : (exec (writeLog t write level msg) s).logList = s.logList := by
  rw [exec_writeLog h hn]

/-- Only `addAppender` adds to the list. -/
theorem mem_logList_after (h : s.wLock = .times t n) {c : Call α × Writes α} {a : α}
    (ha : a ∈ (after t s c).logList) : a ∈ s.logList ∨ c.1 = .addAppender (some a) := by
  by_cases hn : maxCount ≤ n
  · rw [after_max h hn] at ha
    exact .inl ha
  obtain ⟨call, write⟩ := c
  have hn := Nat.lt_of_not_le hn
  cases call with
  | addAppender b =>
    cases b with
    | none => exact .inl ha
    | some b =>
      dsimp only [after] at ha
      rw [exec_addAppender h hn] at ha
      split at ha
      · exact .inl ha
      · rcases List.mem_append.mp ha with ha | ha
        · exact .inl ha
        · rw [List.mem_singleton.mp ha]
          exact .inr rfl
  | removeAppender b =>
    dsimp only [after] at ha
    rw [exec_removeAppender h hn] at ha
    cases b with
    | none => exact .inl ha
    | some b => exact .inl (List.mem_of_mem_erase ha)
  | setLogLevel level =>
    dsimp only [after] at ha
    rw [exec_setLogLevel h hn] at ha
    exact .inl ha
  | info msg => exact .inl (logList_writeLog h hn .. ▸ ha)
  | warning msg => exact .inl (logList_writeLog h hn .. ▸ ha)
  | error msg => exact .inl (logList_writeLog h hn .. ▸ ha)
  | fatal msg => exact .inl (logList_writeLog h hn .. ▸ ha)

/-! ### Runs of calls -/

theorem run_append (t : T) (p q : List (Call α × Writes α)) (s : MLogger T α) :
    run t (p ++ q) s = run t q (run t p s) := List.foldl_append ..

/-- No run gives the lock back more often than it takes it. -/
theorem exists_times_run (h : s.wLock = .times t n) (calls : List (Call α × Writes α)) :
    ∃ m, n ≤ m ∧ (run t calls s).wLock = .times t m := by
  induction calls generalizing s n with
  | nil => exact ⟨n, le_rfl, h⟩
  | cons c calls ih =>
    obtain ⟨m, hle, hm⟩ := ih (wLock_after h c)
    exact ⟨m, (Nat.le_add_right n _).trans hle, hm⟩

/-- Nobody has the lock, and there is no appender. -/
structure Idle (s : MLogger T α) : Prop where
  wLock : s.wLock = .free
  logList : s.logList = []

/-- A call that adds no appender leaves the logger idle. -/
theorem Idle.after {c : Call α × Writes α} (h : Idle s) (hc : ∀ a, c.1 ≠ .addAppender (some a)) :
    Idle (after t s c) := by
  have hlock : s.wLock = .times t 0 := h.wLock
  have hleaked : s.leaked 0 c = 0 := by
    obtain ⟨call, write⟩ := c
    rw [leaked, h.logList]
    cases call with
    | addAppender a =>
      cases a with
      | none => rfl
      | some a => exact absurd rfl (hc a)
    | removeAppender a => rfl
    | setLogLevel level => rfl
    | info msg => rfl
    | warning msg => rfl
    | error msg => rfl
    | fatal msg => rfl
  refine ⟨?_, List.eq_nil_iff_forall_not_mem.mpr fun a ha => ?_⟩
  · rw [wLock_after hlock, hleaked]
    rfl
  · rcases mem_logList_after hlock ha with ha | ha
    · rw [h.logList] at ha
      cases ha
    · exact hc a ha

/-- Calls that add no appender leave it idle. -/
theorem Idle.run {calls : List (Call α × Writes α)} (h : Idle s)
    (hcalls : ∀ c ∈ calls, ∀ a, c.1 ≠ .addAppender (some a)) : Idle (run t calls s) := by
  induction calls generalizing s with
  | nil => exact h
  | cons c calls ih =>
    exact ih (h.after (hcalls c List.mem_cons_self)) fun c hc => hcalls c (List.mem_cons_of_mem _ hc)

omit [DecidableEq T] [DecidableEq α] in
/-- A new logger is idle. -/
theorem idle_new (levelFilter : α → ℤ) : Idle (new levelFilter : MLogger T α) := ⟨rfl, rfl⟩

omit [DecidableEq T] in
/-- An appender that is added costs a hold, unless the thread holds the lock too often already. -/
theorem leaked_addAppender_pos {c : Call α × Writes α} {a : α} (hc : c.1 = .addAppender (some a))
    (hn : n < maxCount) : 0 < s.leaked n c := by
  rw [leaked, if_neg (Nat.not_le.mpr hn), hc]
  dsimp only
  split
  · exact Nat.one_pos
  · exact Nat.two_pos

/-- The call gives the lock back, so that another thread can take it. -/
structure Balanced (t : T) (s s' : MLogger T α) : Prop where
  holdCount : s'.wLock.holdCount t = s.wLock.holdCount t
  lock_other : ∀ t' ≠ t, ∃ l, s'.wLock.lock t' = .ok l

/-- **Every call gives the lock back** exactly where no call adds an appender. -/
theorem balanced_iff (t : T) (levelFilter : α → ℤ) (calls : List (Call α × Writes α)) :
    (∀ p c q, calls = p ++ c :: q →
        Balanced t (run t p (new levelFilter)) (run t (p ++ [c]) (new levelFilter))) ↔
      ∀ c ∈ calls, ∀ a, c.1 ≠ .addAppender (some a) := by
  constructor
  · intro h
    -- while the calls are balanced nobody holds the lock
    have hfree : ∀ p q, calls = p ++ q → (run t p (new levelFilter)).wLock = .times t 0 := by
      intro p
      induction p using List.reverseRecOn with
      | nil => exact fun q _ => rfl
      | append_singleton p c ih =>
        intro q hcalls
        rw [List.append_assoc, List.singleton_append] at hcalls
        obtain ⟨m, -, hm⟩ := exists_times_run (idle_new levelFilter).wLock (p ++ [c]) (t := t) (n := 0)
        have hcount := (h p c q hcalls).holdCount
        rw [ih _ hcalls, hm, Lock.holdCount_times, Lock.holdCount_times] at hcount
        rw [hm, hcount]
    intro c hc a hadds
    obtain ⟨p, q, hcalls⟩ := List.append_of_mem hc
    have hcount := (h p c q hcalls).holdCount
    rw [run_append, hfree p _ hcalls] at hcount
    have hafter := wLock_after (hfree p _ hcalls) c
    have hrun : run t [c] (run t p (new levelFilter)) = after t (run t p (new levelFilter)) c := rfl
    rw [hrun, hafter, Lock.holdCount_times, Lock.holdCount_times, Nat.zero_add] at hcount
    exact (leaked_addAppender_pos hadds (by decide)).ne' hcount
  · rintro hcalls p c q rfl
    have hp : Idle (run t p (new levelFilter)) :=
      (idle_new levelFilter).run fun c hc => hcalls c (List.mem_append_left _ hc)
    have hafter : Idle (run t (p ++ [c]) (new levelFilter)) := by
      rw [run_append]
      exact hp.after (hcalls c (List.mem_append_right p List.mem_cons_self))
    refine ⟨?_, fun t' _ => ?_⟩
    · rw [hafter.wLock, hp.wLock]
    · rw [hafter.wLock]
      exact ⟨_, rfl⟩

/-- The first appender that is added keeps the lock. -/
theorem not_balanced_first :
    ¬ ∀ calls : List (Call ℕ × Writes ℕ), ∀ p c q, calls = p ++ c :: q →
      Balanced 1 (run 1 p (new fun _ => 100)) (run 1 (p ++ [c]) (new fun _ => 100)) := by
  intro h
  have hcount := (h [(.addAppender (some 0), fun _ _ => none)] [] _ [] rfl).holdCount
  have hcode :
      (run 1 [(.addAppender (some 0), fun _ _ => none)] (new fun _ => 100)).wLock.holdCount 1 = 2 := by
    decide +kernel
  rw [List.nil_append, hcode] at hcount
  cases hcount

/-- **Another thread gets the lock** after a run exactly where no call has added an appender. -/
theorem lock_other_iff_of_run {t t' : T} (ht : t' ≠ t) (levelFilter : α → ℤ)
    (calls : List (Call α × Writes α)) :
    (∃ l, (run t calls (new levelFilter)).wLock.lock t' = .ok l) ↔
      ∀ c ∈ calls, ∀ a, c.1 ≠ .addAppender (some a) := by
  constructor
  · intro hlock c hc a hadds
    obtain ⟨p, q, rfl⟩ := List.append_of_mem hc
    obtain ⟨n, -, hn⟩ := exists_times_run (idle_new levelFilter).wLock p (t := t) (n := 0)
    obtain ⟨m, hle, hm⟩ := exists_times_run (wLock_after hn c) q
    have hrun :
        run t (p ++ c :: q) (new levelFilter) = run t q (after t (run t p (new levelFilter)) c) :=
      run_append t p (c :: q) _
    rw [hrun, hm, Lock.lock_other_iff ht] at hlock
    have hheld : 0 < n + leaked (run t p (new levelFilter)) n c := by
      by_cases hmax : maxCount ≤ n
      · exact Nat.add_pos_left (Nat.lt_of_lt_of_le (by decide) hmax) _
      · exact Nat.add_pos_right n (leaked_addAppender_pos hadds (Nat.lt_of_not_le hmax))
    omega
  · intro hcalls
    rw [((idle_new levelFilter).run (t := t) hcalls).wLock]
    exact ⟨_, rfl⟩

end MLogger

end MBT
