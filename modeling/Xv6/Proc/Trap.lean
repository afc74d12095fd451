/-
The timer interrupt's handler in the process it interrupts (the end of trap.c's `trap`), on top of the process machine.

- `Handler`: where the handler of a process is (`pc`), whether it interrupted user code (`tf->cs & 3`), which interrupt of
  the process it is, and what it has done since (`notes`). A process that yields in its handler stays there until it is
  dispatched again.
- `TrapSys`: the process machine, a handler for every slot, and a record for every slot of the timer ticks that its process
  took, one list for each dispatch, the last dispatch and the last tick first.
- `timer c user` is the handler's part from the first test of `killed` on: the accounting of the tick and the branch on the
  class. On CPU 0 it comes after the clock tick and update_wait_time (`tick`, `age`). `trap c` is the next step of the
  handler on CPU c.
- A handler runs with interrupts off: a CPU that is in one takes no other step. yield has no other caller.
- is_higher_waiting reads the counters without a lock, so its test and its yield are two steps.
-/
import Xv6.Proc.Machine

namespace Xv6

open LockProg Function

/-! ## State -/

inductive TrapPc where
  /-- in no handler -/
  | idle
  /-- `exit()`, for a process that has been killed -/
  | exit
  /-- the test in is_higher_waiting -/
  | check
  /-- is_higher_waiting's `yield()` -/
  | higher
  /-- switched out in is_higher_waiting -/
  | inner
  /-- is_higher_waiting has returned 1: trap's `yield()` -/
  | again
  /-- switched out in that yield -/
  | outer
  /-- the quantum is over: trap's `yield()` -/
  | quantum
  /-- switched out in that yield -/
  | sliced
  /-- the last test of `killed` -/
  | last
deriving DecidableEq, Repr

/-- what a handler has done -/
inductive Note where
  | checked (higher : Bool)
  | yielded
  | dispatched
  | returned
  | exited
deriving DecidableEq, Repr

structure Handler where
  pc : TrapPc
  user : Bool
  visit : ℕ
  notes : List Note
deriving DecidableEq, Repr

/-- a timer tick of a process: was the process at the RR level, and did it exit instead of going on -/
structure Tick where
  rr : Bool
  fatal : Bool
deriving DecidableEq, Repr

structure TrapSys where
  sys : Sys
  handler : Slot → Handler
  runs : Slot → List (List Tick)

def TrapSys.boot : TrapSys := ⟨Xv6.boot, fun _ => ⟨.idle, false, 0, []⟩, fun _ => []⟩

inductive TrapOp where
  | base (op : Op)
  | timer (c : Cpu) (user : Bool)
  | trap (c : Cpu)
deriving DecidableEq, Repr

/-! ## The process machine's steps -/

/-- the CPU that takes the step -/
def Op.cpu : Op → Cpu
  | .userinit c | .forkAlloc c | .forkFail c | .forkCopy c | .forkFinish c | .dispatch c | .yield c | .sleep c _
  | .wakeup c _ | .kill c _ | .exit c | .wait c | .exec c _ | .setDeadline c _ _ | .changeLevel c _ _
  | .updateWaitTime c _ | .age c | .account c | .fault c => c
  | .tick => 0

/-- the handler itself takes these steps -/
def Op.handled : Op → Bool
  | .yield _ | .account _ => true
  | _ => false

/-- p finds ptable.lock free, and no lock that another CPU holds -/
def Sys.enters {α : Type} (s : Sys) (c : Cpu) (p : K α) : Bool :=
  match p.run c s.w with
  | .spin _ _ => false
  | _ => decide (s.w.locks .ptable = none)

/-- the process that the step dispatches -/
def Sys.dispatchee (s : Sys) : Op → Option Slot
  | .dispatch c =>
    if s.ready c ∧ (s.k.cpu c).proc = none ∧ s.enters c dispatch = true then (s.k.choose (s.k.cpu c).nextrrp).1 else none
  | _ => none

/-- the slot that the step gives to a new process -/
def Sys.allocatee (s : Sys) : Op → Option Slot
  | .userinit c => if s.ready c ∧ s.k.initproc = none ∧ s.enters c userinit = true then s.k.findUnused else none
  | .forkAlloc c => if s.idle c ≠ none ∧ s.enters c allocprocLocked = true then s.k.findUnused else none
  | _ => none

/-- the process goes on behind the yield that it was switched out in -/
def Handler.resume (h : Handler) : Handler :=
  match h.pc with
  | .inner => { h with pc := .again, notes := h.notes ++ [.dispatched] }
  | .outer | .sliced => { h with pc := .last, notes := h.notes ++ [.dispatched] }
  | _ => h

/-- the CPU is in a handler -/
def TrapSys.inHandler (s : TrapSys) (c : Cpu) : Bool :=
  match (s.sys.k.cpu c).proc with
  | some i => (s.handler i).pc ≠ .idle
  | none => false

def TrapSys.setHandler (s : TrapSys) (i : Slot) (h : Handler) : TrapSys :=
  { s with handler := update s.handler i h }

/-- a step of the process machine, with what it means for the handlers and the records -/
def TrapSys.base (s : TrapSys) (op : Op) : TrapSys where
  sys := step s.sys op
  handler := fun i => if s.sys.dispatchee op = some i then (s.handler i).resume else s.handler i
  runs := fun i =>
    if s.sys.allocatee op = some i then []
    else if s.sys.dispatchee op = some i then [] :: s.runs i
    else s.runs i

/-! ## The handler's steps -/

/-- `Time_Quantum / Unit_Quantum_length_ms` -/
def quantumTicks : Int := timeQuantum / unitQuantumLengthMs

/-- the tick goes into the record of the current dispatch -/
def TrapSys.record (s : TrapSys) (i : Slot) (t : Tick) : TrapSys :=
  { s with runs := update s.runs i (match s.runs i with
      | run :: older => (t :: run) :: older
      | [] => []) }

/-- where the handler goes on after the accounting, which leaves p -/
def Proc.branch (p : Proc) : TrapPc :=
  if p.rr then (if quantumTicks ≤ p.rrTicks then .quantum else .last)
  else if p.fcfs then .check
  else .last

/-- the interrupt -/
def TrapSys.timer (s : TrapSys) (c : Cpu) (user : Bool) : TrapSys :=
  match s.sys.cur c with
  | none => s
  | some i =>
    -- user code is in the middle of no system call
    if (s.handler i).pc ≠ .idle ∨ (user = true ∧ s.sys.frame i ≠ .idle) then s
    else
      let p := s.sys.k.proc i
      let enter := fun pc => Handler.mk pc user ((s.handler i).visit + 1) []
      if p.killed ≠ 0 ∧ user = true then
        (if p.state = .running then s.record i ⟨decide p.rr, true⟩ else s).setHandler i (enter .exit)
      else if p.state = .running then
        let s' := s.record i ⟨decide p.rr, false⟩
        { s' with sys := s'.sys.write fun k => k.modProc i Proc.account }.setHandler i (enter p.account.branch)
      else s.setHandler i (enter .last)

/-- a step that ends in the scheduler, if it goes through -/
def TrapSys.leave (s : TrapSys) (c : Cpu) (i : Slot) (op : Op) (h : Handler) : TrapSys :=
  let s' := { s with sys := step s.sys op }
  if (s'.sys.k.cpu c).proc = none then s'.setHandler i h else s'

/-- a process of a higher class is waiting, as is_higher_waiting sees it -/
def Kernel.higherWaiting (k : Kernel) : Prop := 0 < k.countEdf ∨ 0 < k.countRr

instance (k : Kernel) : Decidable k.higherWaiting := inferInstanceAs (Decidable (_ ∨ _))

/-- the next step of the handler on CPU c -/
def TrapSys.trap (s : TrapSys) (c : Cpu) : TrapSys :=
  match s.sys.cur c with
  | none => s
  | some i =>
    let h := s.handler i
    let noted := fun pc n => { h with pc := pc, notes := h.notes ++ [n] }
    match h.pc with
    | .check =>
      let b := decide s.sys.k.higherWaiting
      s.setHandler i (noted (if b then .higher else .last) (.checked b))
    | .higher => s.leave c i (.yield c) (noted .inner .yielded)
    | .again => s.leave c i (.yield c) (noted .outer .yielded)
    | .quantum => s.leave c i (.yield c) (noted .sliced .yielded)
    | .exit => s.leave c i (.exit c) (noted .idle .exited)
    | .last =>
      if (s.sys.k.proc i).killed ≠ 0 ∧ h.user = true then s.setHandler i { h with pc := .exit }
      else s.setHandler i (noted .idle .returned)
    | .idle | .inner | .outer | .sliced => s

def trapStep (s : TrapSys) : TrapOp → TrapSys
  | .base op => if op.handled = true ∨ s.inHandler op.cpu = true then s else s.base op
  | .timer c user => s.timer c user
  | .trap c => s.trap c

def trapRun (s : TrapSys) (ops : List TrapOp) : TrapSys := ops.foldl trapStep s

/-! ## What a step does to a handler -/

/-- switched out inside the handler -/
def TrapPc.suspended : TrapPc → Bool
  | .inner | .outer | .sliced => true
  | _ => false

/-- the step dispatches the process of slot i, which is switched out inside its handler -/
def TrapSys.redispatches (s : TrapSys) (i : Slot) : TrapOp → Prop
  | .base op => op.handled = false ∧ s.inHandler op.cpu = false ∧ s.sys.dispatchee op = some i ∧
      (s.handler i).pc.suspended = true
  | _ => False

instance (s : TrapSys) (i : Slot) : DecidablePred (s.redispatches i)
  | .base _ => inferInstanceAs (Decidable (_ ∧ _ ∧ _ ∧ _))
  | .timer _ _ => inferInstanceAs (Decidable False)
  | .trap _ => inferInstanceAs (Decidable False)

/-- the steps of a handler that its own process takes -/
inductive Handler.Moves (h : Handler) : Handler → Prop
  | check (b : Bool) (hp : h.pc = .check) :
      Moves h { h with pc := if b then .higher else .last, notes := h.notes ++ [.checked b] }
  | higher (hp : h.pc = .higher) : Moves h { h with pc := .inner, notes := h.notes ++ [.yielded] }
  | again (hp : h.pc = .again) : Moves h { h with pc := .outer, notes := h.notes ++ [.yielded] }
  | quantum (hp : h.pc = .quantum) : Moves h { h with pc := .sliced, notes := h.notes ++ [.yielded] }
  | exit (hp : h.pc = .exit) : Moves h { h with pc := .idle, notes := h.notes ++ [.exited] }
  | killed (hp : h.pc = .last) : Moves h { h with pc := .exit }
  | ret (hp : h.pc = .last) : Moves h { h with pc := .idle, notes := h.notes ++ [.returned] }

variable {s : TrapSys} {i j : Slot} {c : Cpu}

theorem setHandler_self (h : Handler) : (s.setHandler i h).handler i = h := update_self ..

theorem setHandler_ne (h : Handler) (hj : j ≠ i) : (s.setHandler i h).handler j = s.handler j := update_of_ne hj ..

theorem leave_handler (op : Op) (h : Handler) :
    (s.leave c i op h).handler i = s.handler i ∨ (s.leave c i op h).handler i = h := by
  unfold TrapSys.leave
  simp only
  split_ifs
  · exact .inr (setHandler_self h)
  · exact .inl rfl

theorem leave_handler_ne (op : Op) (h : Handler) (hj : j ≠ i) : (s.leave c i op h).handler j = s.handler j := by
  unfold TrapSys.leave
  simp only
  split_ifs
  · exact setHandler_ne h hj
  · rfl

theorem trap_handler_ne (h : s.sys.cur c ≠ some j) : (s.trap c).handler j = s.handler j := by
  unfold TrapSys.trap
  cases hc : s.sys.cur c with
  | none => rfl
  | some i =>
    have hj : j ≠ i := fun e => h (by rw [hc, e])
    cases hp : (s.handler i).pc <;> simp only [hp]
    case check => exact setHandler_ne _ hj
    case last =>
      split_ifs
      · exact setHandler_ne _ hj
      · exact setHandler_ne _ hj
    all_goals first | rfl | exact leave_handler_ne _ _ hj

theorem trap_moves (hc : s.sys.cur c = some i) :
    (s.trap c).handler i = s.handler i ∨ (s.handler i).Moves ((s.trap c).handler i) := by
  have hstay : ∀ (op : Op) (h : Handler), (s.handler i).Moves h →
      (s.leave c i op h).handler i = s.handler i ∨ (s.handler i).Moves ((s.leave c i op h).handler i) := by
    intro op h hm
    rcases leave_handler (s := s) (c := c) (i := i) op h with e | e
    · exact .inl e
    · exact .inr (by rw [e]; exact hm)
  unfold TrapSys.trap
  simp only [hc]
  cases hp : (s.handler i).pc
  case check =>
    right
    rw [setHandler_self]
    exact .check _ hp
  case last =>
    right
    simp only
    split_ifs
    · rw [setHandler_self]
      exact .killed hp
    · rw [setHandler_self]
      exact .ret hp
  case higher => exact hstay _ _ (.higher hp)
  case again => exact hstay _ _ (.again hp)
  case quantum => exact hstay _ _ (.quantum hp)
  case exit => exact hstay _ _ (.exit hp)
  all_goals exact .inl rfl

theorem timer_handler (user : Bool) : (s.timer c user).handler i = s.handler i ∨
    ((s.timer c user).handler i).visit = (s.handler i).visit + 1 := by
  unfold TrapSys.timer
  cases hc : s.sys.cur c with
  | none => exact .inl rfl
  | some j =>
    have hset : ∀ (t : TrapSys) (h : Handler), t.handler = s.handler → h.visit = (s.handler j).visit + 1 →
        (t.setHandler j h).handler i = s.handler i ∨ ((t.setHandler j h).handler i).visit = (s.handler i).visit + 1 := by
      intro t h ht hv
      by_cases hi : i = j
      · rw [hi, setHandler_self]
        exact .inr hv
      · rw [setHandler_ne h hi, ht]
        exact .inl rfl
    simp only
    split_ifs
    · exact .inl rfl
    all_goals exact hset _ _ rfl rfl

/-- **One step of the machine and a handler**: nothing, a new interrupt, the return from a yield, or a step of its own. -/
theorem step_handler (s : TrapSys) (op : TrapOp) (i : Slot) :
    (trapStep s op).handler i = s.handler i ∨ ((trapStep s op).handler i).visit = (s.handler i).visit + 1 ∨
      (s.redispatches i op ∧ (trapStep s op).handler i = (s.handler i).resume) ∨
      (s.handler i).Moves ((trapStep s op).handler i) := by
  cases op with
  | timer c user =>
    rcases timer_handler (s := s) (c := c) (i := i) user with h | h
    · exact .inl h
    · exact .inr (.inl h)
  | trap c =>
    by_cases hc : s.sys.cur c = some i
    · rcases trap_moves hc with h | h
      · exact .inl h
      · exact .inr (.inr (.inr h))
    · exact .inl (trap_handler_ne hc)
  | base op =>
    simp only [trapStep]
    split_ifs with hb
    · exact .inl rfl
    simp only [TrapSys.base]
    split_ifs with hd
    · by_cases hp : (s.handler i).pc.suspended = true
      · rw [not_or, Bool.not_eq_true, Bool.not_eq_true] at hb
        exact .inr (.inr (.inl ⟨⟨hb.1, hb.2, hd, hp⟩, rfl⟩))
      · left
        unfold Handler.resume
        cases hpc : (s.handler i).pc <;> simp only [hpc, TrapPc.suspended] at hp ⊢ <;> exact absurd trivial hp
    · exact .inl rfl

end Xv6
