/-
The functions of proc.c, and the parts of trap.c, exec.c and sysproc.c that work on the process table, as programs over
the three spinlocks. Every `acquire` and `release` of the source is an operation of the program.

- `makeRunnable` is the block that userinit, fork, yield, wakeup1 and kill repeat: set RUNNABLE, stamp the arrival time
  under tickslock, count the process.
- `sched` saves where the process continues and goes on as the CPU's scheduler after its `swtch`: clear `c->proc`,
  release ptable.lock. A function that calls it does not return there; `Exit.switched` says so. When the process is
  dispatched again, `resumed` runs what is left of it up to the release of ptable.lock.
- `changeSchedLevel` keeps ptable.lock when the process is already at the target level: the source returns without a
  release.
- `cprintf` takes and gives back cons.lock. What it prints is not modelled.
- fork's `kalloc` and `copyuvm` are outside proc.c: whether they succeed is an argument.
-/
import Xv6.Proc.Basic

namespace Xv6

open LockProg

/-! ## Small pieces -/

def kernel : K Kernel := reads fun _ w => w.st

def getProc (i : Slot) : K Proc := reads fun _ w => w.st.proc i

def modProc (i : Slot) (f : Proc → Proc) : K Unit := writes fun _ k => k.modProc i f

def addCount (i : Slot) (d : Int) : K Unit := writes fun _ k => k.addCount (k.proc i) d

def myproc : K (Option Slot) := reads fun c w => (w.st.cpu c).proc

/-- `myproc()` where the source dereferences it: a null pointer traps in the kernel -/
def curproc : K Slot := do
  match ← myproc with
  | some i => return i
  | none => .panic "trap"

def cprintf : K Unit := withLock .cons (pure ())

/-- how a call ends: it returns r, or it has switched to the scheduler -/
inductive Exit where
  | ret (r : Int)
  | switched
deriving DecidableEq, Repr

/-- `p->arrival_time = ticks; p->waited_ticks = 0` -/
def Proc.stamp (t : ℕ) (p : Proc) : Proc := { p with arrivalTime := int32 t, waitedTicks := 0 }

/-- p becomes RUNNABLE: f is what the caller sets besides, while it holds tickslock -/
def makeRunnable (i : Slot) (f : ℕ → Proc → Proc) : K Unit := do
  modProc i fun p => { p with state := .runnable }
  withLock .ticks (writes fun _ k => k.modProc i fun p => f k.ticks (p.stamp k.ticks))
  addCount i 1

/-! ## Switching -/

/-- the CPU's scheduler after its `swtch` -/
def backInScheduler : K Unit := do
  writes fun c k => k.setCpuProc c none
  release .ptable

def sched (ctx : Ctx) : K Unit := do
  let p ← curproc
  let held ← reads fun c w => decide (w.locks .ptable = some c)
  if held = false then Prog.panic "sched ptable.lock"
  let more ← reads fun c w => decide (w.locks .ticks = some c ∨ w.locks .cons = some c)
  if more = true then Prog.panic "sched locks"
  if (← getProc p).state = .running then Prog.panic "sched running"
  modProc p fun q => { q with context := ctx }
  writes fun c k => k.swtch c none
  backInScheduler

/-- `sleep` from the point where ptable.lock is held -/
def sleepLocked (p : Slot) (ch : Chan) (ctx : Ctx) : K Unit := do
  modProc p fun q => { q with chan := ch }
  if (← getProc p).runnable then addCount p (-1)
  modProc p fun q => { q with consecutiveRun := 0 }
  modProc p fun q => { q with state := .sleeping }
  sched ctx

/-- `sleep(ch, lk)`; `none` is a lock other than the three -/
def sleep (ch : Chan) (lk : Option Lock) (ctx : Ctx) : K Unit := do
  match ← myproc with
  | none => .panic "sleep"
  | some p =>
    if lk ≠ some .ptable then
      acquire .ptable
      match lk with
      | some l => release l
      | none => pure ()
    sleepLocked p ch ctx

def yield : K Unit := do
  acquire .ptable
  let p ← curproc
  makeRunnable p fun _ q => { q with consecutiveRun := 0 }
  sched .yield

/-! ## Wakeup and kill -/

/-- wakeup1's loop body -/
def wakeOne (ch : Chan) (i : Slot) : K Unit := do
  let p ← getProc i
  if p.state = .sleeping ∧ p.chan = ch then makeRunnable i fun _ q => q

def wakeup1 (ch : Chan) : K Unit := forEach slots (wakeOne ch)

def wakeup (ch : Chan) : K Unit := do
  acquire .ptable
  wakeup1 ch
  release .ptable

def kill (pid : Int) : K Int := do
  acquire .ptable
  match (← kernel).findPid pid with
  | some i =>
    modProc i fun p => { p with killed := 1 }
    if (← getProc i).state = .sleeping then makeRunnable i fun _ q => q
    release .ptable
    return 0
  | none =>
    release .ptable
    return -1

/-! ## Creation -/

def Kernel.findUnused (k : Kernel) : Option Slot := slots.find? fun i => (k.proc i).state = .unused

/-- the slot of an EMBRYO: pid and scheduler defaults; parent, chan, killed and last_run keep their old values -/
def Proc.embryo (pid : Int) (p : Proc) : Proc :=
  { p with
    state := .embryo, pid := pid, schedClass := 2, schedLevel := 2, deadline := 1000000000, arrivalTime := 0,
    waitedTicks := 0, consecutiveRun := 0, maxConsecutiveRun := 0, rrTicks := 0, runnigTime := 0 }

def Kernel.alloc (k : Kernel) (i : Slot) : Kernel :=
  { k.modProc i (Proc.embryo k.nextpid) with nextpid := int32 (k.nextpid + 1) }

/-- allocproc's critical section -/
def allocprocLocked : K (Option Slot) := do
  acquire .ptable
  match (← kernel).findUnused with
  | none =>
    release .ptable
    return none
  | some i =>
    writes fun _ k => k.alloc i
    release .ptable
    return some i

def allocproc (kalloc : Bool) : K (Option Slot) := do
  match ← allocprocLocked with
  | none => return none
  | some i =>
    if kalloc = false then
      modProc i fun p => { p with state := .unused }
      return none
    modProc i fun p => { p with context := .forkret }
    return some i

def userinit : K Unit := do
  match ← allocproc true with
  | none => .panic "trap"
  | some i =>
    modProc i fun p => { p with schedClass := 2, schedLevel := 1 }
    writes fun _ k => { k with initproc := some i }
    modProc i fun p => { p with name := "initcode" }
    acquire .ptable
    makeRunnable i fun _ q => q
    release .ptable

/-- fork from the copy of the caller's memory to the last acquire: the child's parent and name -/
def Kernel.adopt (k : Kernel) (np cur : Slot) : Kernel :=
  k.modProc np fun p => { p with parent := some cur, name := (k.proc cur).name }

/-- fork's last critical section -/
def forkFinish (np : Slot) : K Int := do
  let pid := (← getProc np).pid
  acquire .ptable
  makeRunnable np fun t q => { q with lastRun := int32 t }
  release .ptable
  return pid

def fork (kalloc copyuvm : Bool) : K Int := do
  let cur ← curproc
  match ← allocproc kalloc with
  | none => return -1
  | some np =>
    if copyuvm = false then
      modProc np fun p => { p with state := .unused }
      return -1
    writes fun _ k => k.adopt np cur
    forkFinish np

/-! ## Exit and wait -/

/-- the address of a table slot, as a sleep channel -/
def chanOf : Option Slot → Chan
  | none => .null
  | some i => .proc i

/-- exit passes an abandoned child to init -/
def passToInit (cur i : Slot) : K Unit := do
  if (← getProc i).parent = some cur then
    writes fun _ k => k.modProc i fun p => { p with parent := k.initproc }
    if (← getProc i).state = .zombie then wakeup1 (chanOf (← kernel).initproc)

def exit : K Unit := do
  let cur ← curproc
  if (← kernel).initproc = some cur then Prog.panic "init exiting"
  acquire .ptable
  wakeup1 (chanOf (← getProc cur).parent)
  forEach slots (passToInit cur)
  modProc cur fun p => { p with state := .zombie }
  sched .exit

/-- wait's scan: whether a child was seen, and the first zombie child -/
def Kernel.waitScan (k : Kernel) (cur : Slot) : List Slot → Bool → Bool × Option Slot
  | [], havekids => (havekids, none)
  | i :: is, havekids =>
    if (k.proc i).parent ≠ some cur then k.waitScan cur is havekids
    else if (k.proc i).state = .zombie then (true, some i)
    else k.waitScan cur is true

/-- a reaped slot -/
def Proc.reaped (p : Proc) : Proc :=
  { p with pid := 0, parent := none, name := "", killed := 0, state := .unused }

/-- one round of wait's loop, with ptable.lock held -/
def waitRound (cur : Slot) : K Exit := do
  match (← kernel).waitScan cur slots false with
  | (_, some i) =>
    let pid := (← getProc i).pid
    modProc i Proc.reaped
    release .ptable
    return .ret pid
  | (havekids, none) =>
    if havekids = false ∨ (← getProc cur).killed ≠ 0 then
      release .ptable
      return .ret (-1)
    sleepLocked cur (.proc cur) .wait
    return .switched

def wait : K Exit := do
  let cur ← curproc
  acquire .ptable
  waitRound cur

/-! ## The scheduler -/

/-- the loops of the EDF and FCFS branches: the candidate with the least key, the lowest slot on a tie -/
def Kernel.pickLeast (k : Kernel) (cand : Proc → Prop) [DecidablePred cand] (key : Proc → Int) : Option Slot :=
  Scan.leastBy (fun i => cand (k.proc i)) (fun i => key (k.proc i)) slots

/-- what the RR branch looks for: the class is not tested -/
def Proc.rrCandidate (p : Proc) : Prop := p.runnable ∧ p.schedLevel = 1

instance (p : Proc) : Decidable p.rrCandidate := inferInstanceAs (Decidable (p.runnable ∧ p.schedLevel = 1))

/-- the RR branch's loop: from the cursor around the table, back to the cursor -/
def Kernel.rrLoop (k : Kernel) (nextrrp : Slot) : Option Slot :=
  Scan.ringFind (fun i => (k.proc i).rrCandidate) nextrrp NPROC nextrrp

/-- `p->waited_ticks++` on every candidate of the FCFS loop -/
def Kernel.bumpWaited (k : Kernel) : Kernel :=
  { k with proc := fun i =>
      if (k.proc i).runnable ∧ (k.proc i).fcfs then { k.proc i with waitedTicks := (k.proc i).waitedTicks + 1 }
      else k.proc i }

/-- the choice of one pass, with the table and the cursor it leaves -/
def Kernel.choose (k : Kernel) (nextrrp : Slot) : Option Slot × Slot × Kernel :=
  if 0 < k.countEdf then (k.pickLeast (fun p => p.runnable ∧ p.edf) Proc.deadline, nextrrp, k)
  else if 0 < k.countRr then
    match k.rrLoop nextrrp with
    | some i => (some i, i + 1, k)
    | none => (none, nextrrp, k)
  else if 0 < k.countFcfs then (k.pickLeast (fun p => p.runnable ∧ p.fcfs) Proc.arrivalTime, nextrrp, k.bumpWaited)
  else (none, nextrrp, k)

/-- the pass's choice, made in memory -/
def Kernel.afterChoice (k : Kernel) (c : Cpu) : Kernel :=
  let r := k.choose (k.cpu c).nextrrp
  { r.2.2 with cpu := Function.update k.cpu c { k.cpu c with nextrrp := r.2.1 } }

/-- one pass of the scheduler's loop through the `swtch` -/
def scheduler : K (Option Slot) := do
  acquire .ptable
  let chosen ← reads fun c w => (w.st.choose (w.st.cpu c).nextrrp).1
  writes fun c k => k.afterChoice c
  match chosen with
  | none =>
    release .ptable
    return none
  | some i =>
    writes fun c k => k.setCpuProc c (some i)
    modProc i fun p => { p with state := .running }
    addCount i (-1)
    modProc i fun p => { p with consecutiveRun := 0, rrTicks := 0, waitedTicks := 0 }
    withLock .ticks (writes fun _ k => k.modProc i fun p => { p with lastRun := int32 k.ticks })
    writes fun c k => k.swtch c (some i)
    return some i

/-- what the process that was switched to does until it releases ptable.lock -/
def resumed (i : Slot) : K Exit := do
  match (← getProc i).context with
  | .forkret | .yield =>
    release .ptable
    return .ret 0
  | .exit => .panic "zombie exit"
  | .wait =>
    modProc i fun p => { p with chan := .null }
    waitRound i
  | .sleep | .sysSleep _ _ | .consoleread _ _ =>
    modProc i fun p => { p with chan := .null }
    release .ptable
    return .ret 0

/-- a pass of the scheduler, with the chosen process run until it releases ptable.lock -/
def dispatch : K (Option (Slot × Exit)) := do
  match ← scheduler with
  | none => return none
  | some i =>
    let r ← resumed i
    return some (i, r)

/-! ## The scheduling system calls -/

/-- set_deadline_for_process on slot i: the counter moves look at the level only -/
def Kernel.setDeadline (k : Kernel) (i : Slot) (deadline : Int) : Kernel :=
  let p := k.proc i
  let k' :=
    if p.runnable then
      if p.schedLevel = 1 then { k with countRr := k.countRr - 1, countEdf := k.countEdf + 1 }
      else if p.schedLevel = 2 then { k with countFcfs := k.countFcfs - 1, countEdf := k.countEdf + 1 }
      else k
    else k
  k'.modProc i fun p => { p with schedLevel := 0, schedClass := 1, deadline := deadline }

def setDeadlineForProcess (pid deadline : Int) : K Int := do
  if deadline < 0 then
    cprintf
    return -1
  acquire .ptable
  match (← kernel).findPid pid with
  | some i =>
    writes fun _ k => k.setDeadline i deadline
    cprintf
    release .ptable
    return 0
  | none =>
    release .ptable
    return -1

/-- change_sched_level's counter moves for slot i: again the level only, and any level but 1 counts as FCFS -/
def Kernel.moveLevelCount (k : Kernel) (i : Slot) : Kernel :=
  if (k.proc i).runnable then
    if (k.proc i).schedLevel = 1 then { k with countRr := k.countRr - 1, countFcfs := k.countFcfs + 1 }
    else { k with countFcfs := k.countFcfs - 1, countRr := k.countRr + 1 }
  else k

def changeSchedLevel (pid target : Int) : K Int := do
  if target ≠ 1 ∧ target ≠ 2 then
    cprintf
    return -1
  acquire .ptable
  match (← kernel).findPid pid with
  | some i =>
    if (← getProc i).schedLevel = target then
      cprintf
      return -1
    writes fun _ k => k.moveLevelCount i
    cprintf
    modProc i fun p => { p with schedLevel := if target = 2 then 2 else 1 }
    release .ptable
    return 0
  | none =>
    release .ptable
    return -1

/-- the process in slot i is due for the RR level -/
def Proc.due (p : Proc) : Prop := p.fcfs ∧ agingThreshold ≤ p.waitedTicks

instance (p : Proc) : Decidable p.due := inferInstanceAs (Decidable (p.fcfs ∧ agingThreshold ≤ p.waitedTicks))

/-- update_wait_time's loop body up to the release: refresh waited_ticks and say whether the process is due -/
def agingCheck (osTicks : Int) (i : Slot) : K Bool := do
  if (← getProc i).runnable then
    modProc i fun p => { p with waitedTicks := int32 (osTicks - p.arrivalTime) }
    return decide (← getProc i).due
  return false

/-- update_wait_time's loop body: a process that is due is raised with the lock released -/
def agingBody (osTicks : Int) (i : Slot) : K Unit := do
  if ← agingCheck osTicks i then
    release .ptable
    let _ ← changeSchedLevel (← getProc i).pid 1
    acquire .ptable
    modProc i fun p => { p with arrivalTime := osTicks }

def updateWaitTime (osTicks : Int) : K Int := do
  acquire .ptable
  forEach slots (agingBody osTicks)
  release .ptable
  return 0

def isHigherWaiting : K Exit := do
  let k ← kernel
  if 0 < k.countEdf ∨ 0 < k.countRr then
    yield
    return .switched
  return .ret 0

/-! ## The timer interrupt -/

/-- trap's clock tick on CPU 0; the result is osTicks -/
def clockTick : K Int := do
  acquire .ticks
  writes fun _ k => { k with ticks := uint32 (k.ticks + 1) }
  let osTicks := int32 (← kernel).ticks
  wakeup .ticks
  release .ticks
  return osTicks

/-- the timer interrupt on CPU 0 -/
def timerTick : K Unit := do
  let osTicks ← clockTick
  let _ ← updateWaitTime osTicks

/-- trap's accounting for the interrupted process -/
def Proc.account (p : Proc) : Proc :=
  let run := int32 (p.consecutiveRun + 1)
  { p with
    consecutiveRun := run, runnigTime := int32 (p.runnigTime + 1),
    maxConsecutiveRun := if p.maxConsecutiveRun < run then run else p.maxConsecutiveRun,
    rrTicks := if p.rr then int32 (p.rrTicks + 1) else p.rrTicks }

/-! ## Printing -/

def digitcount (num : Int) : ℕ := if num = 0 then 1 else (Nat.digits 10 num.natAbs).length

def printspaces (count : ℕ) : K Unit := forEach (List.replicate count ()) fun _ => cprintf

def ProcState.label : ProcState → String
  | .unused => "UNUSED"
  | .embryo => "EMBRYO"
  | .sleeping => "SLEEPING"
  | .runnable => "RUNNABLE"
  | .running => "RUNNING"
  | .zombie => "ZOMBIE"

/-- the cells of a row of print_sched_info: column width and width of the text -/
def Proc.cells (p : Proc) : List (ℕ × ℕ) :=
  [(16, p.name.length), (8, digitcount p.pid), (12, p.state.label.length),
    (12, (if p.edf then "Real-Time" else "Normal").length),
    (12, (if p.edf then "EDF" else if p.schedLevel = 1 then "RR" else "FCFS").length), (12, digitcount p.waitedTicks),
    (12, digitcount p.deadline), (17, digitcount p.maxConsecutiveRun), (9, digitcount p.arrivalTime),
    (10, digitcount p.rrTicks), (13, digitcount p.runnigTime)]

def printSchedInfo : K Int := do
  withLock .ticks cprintf
  cprintf
  acquire .ptable
  forEach slots fun i => do
    let p ← getProc i
    if p.state ≠ .unused then
      forEach p.cells fun cell => do
        cprintf
        printspaces (cell.1 - cell.2)
      cprintf
  release .ptable
  return 0

/-! ## exec -/

/-- exec's writes to the process it runs in: the name, and the RR level for the first two processes -/
def Proc.execed (name : String) (p : Proc) : Proc :=
  if p.pid = 1 ∨ p.pid = 2 then { p with name := name, schedClass := 2, schedLevel := 1 } else { p with name := name }

end Xv6
