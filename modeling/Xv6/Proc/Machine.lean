/-
The process machine: any number of CPUs take turns, one critical section on ptable.lock at a time.

- `Sys` is the memory (`KWorld`: data and lock holders) with what the kernel threads remember between critical sections:
  a process in the middle of fork or update_wait_time (`frame`), a CPU whose timer interrupt is inside update_wait_time
  (`irq`), a CPU that has panicked, and the log of the pids that fork and wait returned.
- `step` takes one critical section of one CPU. An operation that is not possible (no current process, a call already in
  progress, a lock another CPU holds) leaves the state unchanged. A panic stops its CPU for good; it keeps the locks it
  holds.
- update_wait_time drops ptable.lock in the middle. Its critical sections are the phases of `Aging`, and any other step
  can come between them: scan up to a process that is due (`start`, `resume`), read its pid without the lock (`window`),
  change_sched_level (`raise`), write its arrival time and scan on (`resume`).
- fork is allocproc's section (`forkAlloc`), the unlocked failure or copy (`forkFail`, `forkCopy`) and the last section
  (`forkFinish`).
- The interrupt handler on CPU 0 runs with interrupts off: until its update_wait_time returns, CPU 0 does nothing else. A
  system call can be preempted (`yield`) in any phase.
-/
import Xv6.Proc.Code

namespace Xv6

open LockProg Function

/-! ## State -/

/-- where a call of update_wait_time is -/
inductive Phase where
  | start
  | window (i : Slot)
  | raise (i : Slot) (pid : Int)
  | resume (i : Slot)
deriving DecidableEq, Repr

structure Aging where
  osTicks : Int
  phase : Phase
deriving DecidableEq, Repr

/-- what a process is in the middle of -/
inductive Frame where
  | idle
  /-- fork: allocproc returned np -/
  | forked (np : Slot)
  /-- fork: np has its parent and name -/
  | copied (np : Slot)
  | aging (a : Aging)
deriving DecidableEq, Repr

/-- a pid returned to the process in slot caller -/
inductive Event where
  | forked (caller : Slot) (pid : Int)
  | waited (caller : Slot) (pid : Int)
deriving DecidableEq, Repr

structure Sys where
  w : KWorld
  frame : Slot → Frame
  irq : Cpu → Option Aging
  panicked : Cpu → Option String
  log : List Event

def Sys.k (s : Sys) : Kernel := s.w.st

def boot : Sys := ⟨⟨fun _ => none, .boot⟩, fun _ => .idle, fun _ => none, fun _ => none, []⟩

inductive Op where
  | userinit (c : Cpu)
  | forkAlloc (c : Cpu)
  | forkFail (c : Cpu)
  | forkCopy (c : Cpu)
  | forkFinish (c : Cpu)
  | dispatch (c : Cpu)
  | yield (c : Cpu)
  | sleep (c : Cpu) (ch : Chan)
  | wakeup (c : Cpu) (ch : Chan)
  | kill (c : Cpu) (pid : Int)
  | exit (c : Cpu)
  | wait (c : Cpu)
  | exec (c : Cpu) (name : String)
  | setDeadline (c : Cpu) (pid deadline : Int)
  | changeLevel (c : Cpu) (pid target : Int)
  | updateWaitTime (c : Cpu) (osTicks : Int)
  | age (c : Cpu)
  | tick
  | account (c : Cpu)
  | fault (c : Cpu)
deriving DecidableEq, Repr

/-! ## One step -/

/-- CPU c can take a step of its own: it has not panicked and is not inside the timer interrupt -/
def Sys.ready (s : Sys) (c : Cpu) : Prop := s.panicked c = none ∧ s.irq c = none

instance (s : Sys) (c : Cpu) : Decidable (s.ready c) :=
  inferInstanceAs (Decidable (s.panicked c = none ∧ s.irq c = none))

/-- the process CPU c runs -/
def Sys.cur (s : Sys) (c : Cpu) : Option Slot := if s.ready c then (s.k.cpu c).proc else none

/-- the process CPU c runs, if it is in the middle of nothing -/
def Sys.idle (s : Sys) (c : Cpu) : Option Slot := (s.cur c).filter fun i => s.frame i = .idle

def Frame.call : Frame → Option Aging
  | .aging a => some a
  | _ => none

/-- the call of update_wait_time that CPU c is in the middle of: the timer interrupt's, or the current process's -/
def Sys.agingOf (s : Sys) (c : Cpu) : Option Aging :=
  if s.panicked c ≠ none then none
  else
    match s.irq c with
    | some a => some a
    | none => (s.cur c).bind fun i => (s.frame i).call

/-- the pid that CPU c's call of update_wait_time is about to pass to change_sched_level -/
def Sys.raising (s : Sys) (c : Cpu) : Option Int :=
  match s.agingOf c with
  | some ⟨_, .raise _ pid⟩ => some pid
  | _ => none

/-- run p on CPU c and go on with f; a panic stops the CPU, a taken lock leaves the step for later -/
def Sys.exec {α : Type} (s : Sys) (c : Cpu) (p : K α) (f : α → Sys → Sys) : Sys :=
  match p.run c s.w with
  | .ok a w => f a { s with w := w }
  | .panic m w => { s with w := w, panicked := update s.panicked c (some m) }
  | .spin _ _ => s

/-- an unlocked store -/
def Sys.write (s : Sys) (f : Kernel → Kernel) : Sys := { s with w := { s.w with st := f s.w.st } }

def Sys.setFrame (s : Sys) (i : Slot) (f : Frame) : Sys := { s with frame := update s.frame i f }

def Sys.setIrq (s : Sys) (c : Cpu) (a : Option Aging) : Sys := { s with irq := update s.irq c a }

/-- where the call that CPU c is in the middle of continues; `none`: it returned -/
def Sys.setAging (s : Sys) (c : Cpu) (a : Option Aging) : Sys :=
  match s.irq c with
  | some _ => s.setIrq c a
  | none =>
    match s.cur c with
    | some i => s.setFrame i (match a with
        | some a => .aging a
        | none => .idle)
    | none => s

def Sys.logged (s : Sys) (e : Event) : Sys := { s with log := s.log ++ [e] }

/-- the pid a call of wait returned, if it returned one -/
def Sys.logWait (s : Sys) (i : Slot) : Exit → Sys
  | .ret r => if r = -1 then s else s.logged (.waited i r)
  | .switched => s

/-- update_wait_time's loop with ptable.lock held, up to a process that is due -/
def agingScan (osTicks : Int) : List Slot → K (Option Slot)
  | [] => return none
  | i :: is => do
    if ← agingCheck osTicks i then return some i
    agingScan osTicks is

/-- the slots the loop visits after i -/
def slotsAfter (i : Slot) : List Slot := slots.drop (i.val + 1)

/-- the next critical section of a call of update_wait_time; `none`: it returned -/
def agingSection (a : Aging) : K (Option Phase) := do
  match a.phase with
  | .start =>
    acquire .ptable
    let r ← agingScan a.osTicks slots
    release .ptable
    return r.map .window
  | .window i => return some (.raise i (← getProc i).pid)
  | .raise i pid =>
    let _ ← changeSchedLevel pid 1
    return some (.resume i)
  | .resume i =>
    acquire .ptable
    modProc i fun p => { p with arrivalTime := a.osTicks }
    let r ← agingScan a.osTicks (slotsAfter i)
    release .ptable
    return r.map .window

/-- a channel that paths other than wait sleep on -/
def Chan.external : Chan → Bool
  | .ticks | .obj _ => true
  | _ => false

def step (s : Sys) : Op → Sys
  | .userinit c => if s.ready c ∧ s.k.initproc = none then s.exec c userinit fun _ s => s else s
  | .forkAlloc c =>
    match s.idle c with
    | none => s
    | some i => s.exec c allocprocLocked fun r s =>
        match r with
        | none => s
        | some np => s.setFrame i (.forked np)
  | .forkFail c =>
    match s.cur c with
    | none => s
    | some i =>
      match s.frame i with
      | .forked np => (s.write fun k => k.modProc np fun p => { p with state := .unused }).setFrame i .idle
      | _ => s
  | .forkCopy c =>
    match s.cur c with
    | none => s
    | some i =>
      match s.frame i with
      | .forked np =>
        (s.write fun k => (k.modProc np fun p => { p with context := .forkret }).adopt np i).setFrame i (.copied np)
      | _ => s
  | .forkFinish c =>
    match s.cur c with
    | none => s
    | some i =>
      match s.frame i with
      | .copied np => s.exec c (forkFinish np) fun pid s => (s.setFrame i .idle).logged (.forked i pid)
      | _ => s
  | .dispatch c =>
    if s.ready c ∧ (s.k.cpu c).proc = none then
      s.exec c dispatch fun r s' =>
        match r with
        | some (i, e) => if (s.k.proc i).context = .wait then s'.logWait i e else s'
        | none => s'
    else s
  | .yield c =>
    match s.cur c with
    | none => s
    | some _ => s.exec c yield fun _ s => s
  | .sleep c ch =>
    match s.idle c with
    | none => s
    | some _ => if ch.external then s.exec c (sleep ch none .sleep) fun _ s => s else s
  | .wakeup c ch => if s.ready c then s.exec c (wakeup ch) fun _ s => s else s
  | .kill c pid => if s.ready c then s.exec c (kill pid) fun _ s => s else s
  | .exit c =>
    match s.idle c with
    | none => s
    | some _ => s.exec c exit fun _ s => s
  | .wait c =>
    match s.idle c with
    | none => s
    | some i => s.exec c wait fun r s => s.logWait i r
  | .exec c name =>
    match s.idle c with
    | none => s
    | some i => s.write fun k => k.modProc i (Proc.execed name)
  | .setDeadline c pid d => if s.ready c then s.exec c (setDeadlineForProcess pid d) fun _ s => s else s
  | .changeLevel c pid t => if s.ready c then s.exec c (changeSchedLevel pid t) fun _ s => s else s
  | .updateWaitTime c n =>
    match s.idle c with
    | none => s
    | some i => s.setFrame i (.aging ⟨int32 n, .start⟩)
  | .age c =>
    match s.agingOf c with
    | none => s
    | some a => s.exec c (agingSection a) fun r s => s.setAging c (r.map fun ph => ⟨a.osTicks, ph⟩)
  | .tick => if s.ready 0 then s.exec 0 clockTick fun n s => s.setIrq 0 (some ⟨n, .start⟩) else s
  | .account c =>
    match s.cur c with
    | none => s
    | some i => s.write fun k => k.modProc i Proc.account
  | .fault c =>
    match s.idle c with
    | none => s
    | some i => s.write fun k => k.modProc i fun p => { p with killed := 1 }

def run (s : Sys) (ops : List Op) : Sys := ops.foldl step s

/-- init forks a child, the child gets a deadline while it waits, and init moves itself to the FCFS level -/
def sampleRun : List Op :=
  [.userinit 0, .dispatch 0, .forkAlloc 0, .forkCopy 0, .forkFinish 0, .setDeadline 0 2 100, .changeLevel 0 1 2]

end Xv6
