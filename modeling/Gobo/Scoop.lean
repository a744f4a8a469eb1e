/-
The SCOOP runtime (`ge_scoop.c`): the sections between a lock and an unlock, which any
number of threads execute in any order.
-/
import Gobo.Runs
import Gobo.ScoopCalls
import Gobo.ScoopLocks
import Gobo.ScoopSessions

namespace Gobo

open Function

/-- The thread that is a client for a region, the processor of an active region, and
the threads that wake up passive regions. -/
inductive ScoopAgent (R : Type) where
  | caller (r : R)
  | processor (r : R)
  | helper (n : Nat)
deriving DecidableEq

/-- What a thread is about to do. -/
inductive ScoopPhase (R : Type) where
  | idle
  /-- `GE_add_scoop_session`. -/
  | submitting (x : Nat)
  /-- The session alone is counted, and not yet in the list. -/
  | adding (x : Nat)
  /-- `GE_scoop_processor_run_one_iteration`, or the loop of
  `GE_unprotected_scoop_passive_region_wakeup`. -/
  | wakeup (r : R)
  /-- `GE_promote_scoop_session`. -/
  | promote (r : R)
  /-- The mutexes are locked. -/
  | promoting (r : R) (candidate : Option Nat)
  | promoted (r : R)
  /-- `GE_scoop_session_execute`. -/
  | execute (x : Nat)
  /-- `GE_scoop_call_execute`. -/
  | call (x : Nat) (c : ScoopCall)
  | executed (x : Nat)
  /-- `GE_remove_scoop_session`. -/
  | remove (x : Nat)
  | decrement (x : Nat)
deriving DecidableEq

/-- What happened to a session. -/
inductive ScoopEvent where
  | counted (x : Nat)
  | submitted (x : Nat)
  | added (x : Nat) (c : ScoopCall)
  | executed (x : Nat) (c : ScoopCall)
  | closed (x : Nat)
  | removed (x : Nat)
  | uncounted (x : Nat)
deriving DecidableEq

/-- The sessions with their calls, and where every thread is. -/
structure Scoop (R : Type) extends ScoopSessions R where
  /-- The session is in the list of locked sessions of its caller. -/
  isLocked : Nat → Bool
  isOpen : Nat → Nat
  calls : Nat → CallQueue
  callsCreated : Nat
  sessionsCount : Nat
  /-- The region of the main thread. -/
  mainRegion : R
  isRootCreated : Bool
  multisessionsMutex : Option (ScoopAgent R)
  mutex : R → Option (ScoopAgent R)
  phase : ScoopAgent R → ScoopPhase R
  /-- What happened so far: read by no thread. -/
  log : List ScoopEvent

/-- A section to be executed: one of a client, the start of an iteration, or the next
section of a thread. -/
inductive ScoopAction (R : Type) where
  | rootCreated
  | sessionOpen (caller callee : R) (sibling : Option Nat)
  | passLock (x : Nat)
  | sessionAddCall (x : Nat)
  | sessionAddRunningCall (x : Nat)
  | sessionClose (x : Nat)
  | start (a : ScoopAgent R) (r : R)
  | proceed (a : ScoopAgent R)

namespace Scoop

open ScoopLocks (increment)

variable {R : Type}

/-- `main` has incremented the sessions count, and is about to create the root object. -/
def init (r : R) : Scoop R where
  toScoopSessions := ScoopSessions.init r
  isLocked := fun _ => false
  isOpen := fun _ => 0
  calls := fun _ => CallQueue.empty
  callsCreated := 0
  sessionsCount := 1
  mainRegion := r
  isRootCreated := false
  multisessionsMutex := none
  mutex := fun _ => none
  phase := fun _ => .idle
  log := []

section

variable [DecidableEq R] (isPassive : R → Bool) (s : Scoop R)

def goto (a : ScoopAgent R) (p : ScoopPhase R) : Scoop R :=
  { s with phase := update s.phase a p }

def record (events : List ScoopEvent) : Scoop R :=
  { s with log := s.log ++ events }

/-- `main` has created the root object, and decrements the sessions count. -/
def rootCreated : Option (Scoop R) :=
  if s.isRootCreated then none
  else some { s with sessionsCount := s.sessionsCount - 1, isRootCreated := true }

/-- The locked session of a caller with a callee. -/
def lockedSession (caller callee : R) : Option Nat :=
  (List.range s.created).find? fun x =>
    s.caller x = caller ∧ s.callee x = callee ∧ s.isLocked x

/-- The sessions of a multisession are opened one after the other, before there is a
call for any of them. -/
def isJoinable (caller : R) (a : Nat) : Bool := (a :: s.siblings a).all fun y =>
    s.caller y = caller ∧ s.isLocked y ∧ s.isSubmitted y = false

def addSession (caller callee : R) (sibling : Option Nat) : Scoop R :=
  { s with
    toScoopSessions := s.newSession caller callee sibling
    isLocked := update s.isLocked s.created true
    isOpen := update s.isOpen s.created 1
    calls := update s.calls s.created CallQueue.empty }

def setOpen (x n : Nat) : Scoop R :=
  { s with isOpen := update s.isOpen x n }

def unlink (x : Nat) : Scoop R :=
  { s with isLocked := update s.isLocked x false }

/-- `GE_scoop_session_open`. -/
def sessionOpen (caller callee : R) (sibling : Option Nat) : Option (Scoop R) :=
  if callee = caller then some s
  else match s.lockedSession caller callee with
    | some x => some (s.setOpen x (increment (s.isOpen x)))
    | none =>
        if sibling.all (s.isJoinable caller) then some (s.addSession caller callee sibling)
        else none

/-- A locked session is passed on (`GE_scoop_region_pass_locks`). -/
def passLock (x : Nat) : Option (Scoop R) :=
  if s.isLocked x then some (s.setOpen x (increment (s.isOpen x))) else none

/-- With a call more for a session. -/
def addCall (x : Nat) (c : ScoopCall) (q : CallQueue) : Scoop R :=
  { s with
    calls := update s.calls x q
    callsCreated := s.callsCreated + 1
    log := s.log ++ [.added x c] }

/-- What the caller of a session does once it has added a call: submit the session, or
wake up its callee.  All sessions of a multisession are still locked when it is
submitted. -/
def afterCall (x : Nat) : Option (ScoopPhase R) :=
  if s.isSubmitted x then
    some (if isPassive (s.callee x) then .wakeup (s.callee x) else .idle)
  else if (x :: s.siblings x).all fun y => s.isLocked y then some (.submitting x)
  else none

/-- `GE_scoop_session_add_call`: a locked session gets a call. -/
def sessionAddCall (x : Nat) : Option (Scoop R) :=
  let c : ScoopCall := ⟨s.callsCreated, false⟩
  if s.isLocked x then
    (s.afterCall isPassive x).map fun p =>
      (s.addCall x c ((s.calls x).add c)).goto (.caller (s.caller x)) p
  else none

/-- `GE_scoop_session_add_running_call`. -/
def sessionAddRunningCall (x : Nat) : Option (Scoop R) :=
  let c : ScoopCall := ⟨s.callsCreated, true⟩
  if s.isLocked x ∧ s.mutex (s.callee x) = none then
    if s.isRunning x then some s
    else (s.afterCall isPassive x).map fun p =>
      (s.addCall x c ((s.calls x).push c)).goto (.caller (s.caller x)) p
  else none

/-- `GE_scoop_session_close`, but for the removal and the housekeeping that it goes
on with. -/
def sessionClose (x : Nat) : Scoop R :=
  if s.isOpen x = 0 then s
  else
    let t := s.setOpen x (s.isOpen x - 1)
    if t.isOpen x ≠ 0 then t
    else if s.isSubmitted x = false then
      { t.unlink x with
        isFreed := update s.isFreed x true
        log := s.log ++ [.closed x] }
    else
      ((t.unlink x).record [.closed x]).goto (.caller (s.caller x))
        (if isPassive (s.callee x) then
          if (s.calls x).firstCall = none then .remove x else .wakeup (s.callee x)
        else .idle)

/-- An active region has its processor; any other thread may run the sessions of a
passive one. -/
def serves (r : R) : ScoopAgent R → Bool
  | .processor q => q = r ∧ isPassive r = false
  | .caller _ => isPassive r
  | .helper _ => isPassive r

/-- A thread looks for a session of a region.  The main thread is a processor once it has
created the root object. -/
def start (a : ScoopAgent R) (r : R) : Option (Scoop R) :=
  if serves isPassive r a ∧ s.phase a = .idle ∧
      (a = .processor s.mainRegion → s.isRootCreated) then
    some (s.goto a (.wakeup r))
  else none

/-- `GE_increment_scoop_sessions_count`. -/
def countSession (a : ScoopAgent R) (x : Nat) : Scoop R :=
  { s with
    sessionsCount := increment s.sessionsCount
    log := s.log ++ [.counted x]
    phase := update s.phase a (.adding x) }

/-- `GE_add_scoop_multisession`: a mutex is released only after all are locked. -/
def addMultisession (a : ScoopAgent R) (x : Nat) : Option (Scoop R) :=
  let xs := x :: s.siblings x
  if s.multisessionsMutex = none ∧ xs.all fun y => s.mutex (s.callee y) = none then
    some { s with
      toScoopSessions := s.submitAll xs
      sessionsCount := (s.sessionsCount + xs.length) % 2 ^ 32
      log := s.log ++ xs.flatMap fun y => [.counted y, .submitted y]
      phase := update s.phase a .idle }
  else none

/-- The rest of `GE_add_scoop_session`. -/
def addSingleSession (a : ScoopAgent R) (x : Nat) : Option (Scoop R) :=
  if s.mutex (s.callee x) = none then
    some { s with
      toScoopSessions := s.submit x
      log := s.log ++ [.submitted x]
      phase := update s.phase a
        (if isPassive (s.callee x) then .wakeup (s.callee x) else .idle) }
  else none

/-- A session that is part of a multisession is not executed before it was promoted. -/
def mustWait (x : Nat) : Bool := !s.isRunning x && s.isMultisession x

section

variable (a : ScoopAgent R)

def runSession (x : Nat) : Scoop R :=
  { s with
    toScoopSessions := s.run x
    phase := update s.phase a (.execute x) }

/-- What is done with the first session of a region. -/
def wakeup (r : R) : Option (Scoop R) :=
  if s.mutex r = none then
    some (match s.firstSession r with
      | some x => if s.mustWait x then s.goto a (.promote r) else s.runSession a x
      | none => s.goto a .idle)
  else none

/-- Lock the mutexes for a promotion. -/
def lock (r : R) : Option (Scoop R) :=
  if s.multisessionsMutex = none ∧ s.mutex r = none then
    some { s with
      multisessionsMutex := some a
      mutex := update s.mutex r (some a)
      phase := update s.phase a (.promoting r (s.firstSession r)) }
  else none

/-- Unlock them again, with sessions as they are afterwards. -/
def unlock (r : R) (m : ScoopSessions R) : Scoop R :=
  { s with
    toScoopSessions := m
    multisessionsMutex := none
    mutex := update s.mutex r none
    phase := update s.phase a (.promoted r) }

/-- The loop of `GE_promote_scoop_session`, for one candidate. -/
def promoteCandidate (r : R) (x : Nat) : Option (Scoop R) :=
  if s.mustWait x then
    if (s.siblings x).all fun y => s.mutex (s.callee y) = none then
      (s.areReady (s.siblings x)).bind fun ready =>
        if ready then (s.promoteAll (x :: s.siblings x)).map fun m => s.unlock a r m
        else some (s.goto a (.promoting r (s.next x)))
    else none
  else (s.promote x).map fun m => s.unlock a r m

/-- What is done with the first session of a region after a promotion. A processor
expects one. -/
def afterPromotion (r : R) : Option (Scoop R) :=
  if s.mutex r = none then
    match s.firstSession r with
    | some x => some (if s.mustWait x then s.goto a .idle else s.runSession a x)
    | none => if isPassive r then some (s.goto a .idle) else none
  else none

/-- The loop of `GE_scoop_session_execute`: there is a call, there may be one later,
or there is none. -/
def execute (x : Nat) : Scoop R :=
  match (s.calls x).firstCall with
  | some c =>
      { s with
        calls := update s.calls x ((s.calls x).pop c)
        phase := update s.phase a (.call x c) }
  | none =>
      if 0 < s.isOpen x ∧ isPassive (s.callee x) = false then s
      else s.goto a (if isPassive (s.callee x) then .executed x else .remove x)

/-- `GE_remove_scoop_session`. -/
def removeSession (x : Nat) : Option (Scoop R) :=
  if s.mutex (s.callee x) = none then
    some { s with
      toScoopSessions := s.remove x
      log := s.log ++ [.removed x]
      phase := update s.phase a (.decrement x) }
  else none

/-- `GE_decrement_scoop_sessions_count`. -/
def uncountSession (x : Nat) : Scoop R :=
  { s with
    sessionsCount := s.sessionsCount - 1
    log := s.log ++ [.uncounted x]
    phase := update s.phase a
      (if isPassive (s.callee x) then .wakeup (s.callee x) else .idle) }

/-- The next section of a thread. -/
def proceed : Option (Scoop R) :=
  match s.phase a with
  | .idle => none
  | .submitting x => if s.isMultisession x then s.addMultisession a x else some (s.countSession a x)
  | .adding x => s.addSingleSession isPassive a x
  | .wakeup r => s.wakeup a r
  | .promote r => s.lock a r
  | .promoting r none => some (s.unlock a r s.toScoopSessions)
  | .promoting r (some x) => s.promoteCandidate a r x
  | .promoted r => s.afterPromotion isPassive a r
  | .execute x => some (s.execute isPassive a x)
  | .call x c => some ((s.record [.executed x c]).goto a (.execute x))
  | .executed x => some (s.goto a (if s.isOpen x = 0 then .remove x else .idle))
  | .remove x => s.removeSession a x
  | .decrement x => some (s.uncountSession isPassive a x)

end

/-- A client does one thing after the other. -/
def asClient (r : R) (t : Option (Scoop R)) : Option (Scoop R) :=
  if s.phase (.caller r) = .idle then t else none

def step : ScoopAction R → Option (Scoop R)
  | .rootCreated => s.asClient s.mainRegion s.rootCreated
  | .sessionOpen caller callee sibling => s.asClient caller (s.sessionOpen caller callee sibling)
  | .passLock x => s.asClient (s.caller x) (s.passLock x)
  | .sessionAddCall x => s.asClient (s.caller x) (s.sessionAddCall isPassive x)
  | .sessionAddRunningCall x => s.asClient (s.caller x) (s.sessionAddRunningCall isPassive x)
  | .sessionClose x => s.asClient (s.caller x) (some (s.sessionClose isPassive x))
  | .start a r => s.start isPassive a r
  | .proceed a => s.proceed isPassive a

end

end Scoop

end Gobo
