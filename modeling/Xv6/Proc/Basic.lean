/-
The process side of the kernel's memory: `struct proc` (proc.h), the process table, the run-queue counters, the clock
and the per-CPU records, with the three spinlocks that guard them.

- Pointers into `ptable.proc` are slot numbers. A null pointer is `none`.
- A sleep channel is an address: null, `&ticks`, the address of a table slot (used by `wait` only), or the address of
  any other kernel object.
- `int` is ℤ. `int32` cuts a value to 32 bits where the source can overflow (`nextpid++`, `osTicks - arrival_time`,
  the tick counts, the conversion of the unsigned clock). `uint` is ℕ mod 2^32.
- `context` records where `swtch` resumes a process that is not running.
Left out of `struct proc`: sz, pgdir, kstack, tf, ofile and cwd, which no function modelled here branches on.
-/
import Xv6.Lib.LockProg
import Xv6.Lib.Scan
import Xv6.Lib.Words

namespace Xv6

open LockProg Function

/-! ## Constants (param.h, defs.h) -/

abbrev NPROC : ℕ := 64

instance : NeZero NPROC := ⟨by decide⟩

def timeQuantum : Int := 30
def unitQuantumLengthMs : Int := 10
def agingThreshold : Int := 800
abbrev INPUT_BUF : ℕ := 128

/-! ## Data -/

abbrev Slot := Fin NPROC
abbrev Cpu := ℕ

inductive Lock where
  | ptable
  | ticks
  | cons
deriving DecidableEq, Repr

inductive ProcState where
  | unused
  | embryo
  | sleeping
  | runnable
  | running
  | zombie
deriving DecidableEq, Repr

inductive Chan where
  | null
  | ticks
  | proc (i : Slot)
  | obj (addr : ℕ)
deriving DecidableEq, Repr

/-- where a process continues when the scheduler switches to it -/
inductive Ctx where
  | forkret
  | yield
  | wait
  | exit
  /-- `sleep` called from a path whose lock is none of the three -/
  | sleep
  /-- `sleep` called from `sys_sleep` -/
  | sysSleep (ticks0 n : ℕ)
  /-- `sleep` called from `consoleread`, n bytes still wanted -/
  | consoleread (n target : ℕ)
deriving DecidableEq, Repr

structure Proc where
  state : ProcState
  pid : Int
  parent : Option Slot
  context : Ctx
  chan : Chan
  killed : Int
  name : String
  schedClass : Int
  schedLevel : Int
  deadline : Int
  rrTicks : Int
  runnigTime : Int
  arrivalTime : Int
  waitedTicks : Int
  consecutiveRun : Int
  maxConsecutiveRun : Int
  lastRun : Int
deriving DecidableEq, Repr

/-- the part of `struct cpu` in use here, the cursor `nextrrp` of that CPU's `scheduler`, and the kernel stack that the CPU
is on: a process's, or its scheduler's (`none`) -/
structure CpuState where
  proc : Option Slot
  nextrrp : Slot
  stack : Option Slot
deriving DecidableEq, Repr

/-- the console's input ring -/
structure Input where
  buf : Fin INPUT_BUF → ℕ
  r : ℕ
  w : ℕ
  e : ℕ

structure Kernel where
  proc : Slot → Proc
  initproc : Option Slot
  nextpid : Int
  countEdf : Int
  countRr : Int
  countFcfs : Int
  ticks : ℕ
  cpu : Cpu → CpuState
  input : Input

abbrev KWorld := World Lock Cpu Kernel
abbrev K := Prog Lock Cpu Kernel

/-- a table slot as the loader leaves it -/
def Proc.zero : Proc :=
  ⟨.unused, 0, none, .forkret, .null, 0, "", 0, 0, 0, 0, 0, 0, 0, 0, 0, 0⟩

def Kernel.boot : Kernel where
  proc _ := .zero
  initproc := none
  nextpid := 1
  countEdf := 0
  countRr := 0
  countFcfs := 0
  ticks := 0
  cpu _ := ⟨none, 0, none⟩
  input := ⟨fun _ => 0, 0, 0, 0⟩

/-- the table in scan order -/
@[irreducible] def slots : List Slot := List.finRange NPROC

@[simp] theorem mem_slots (i : Slot) : i ∈ slots := by
  unfold slots; exact List.mem_finRange i

theorem nodup_slots : slots.Nodup := by
  unfold slots; exact List.nodup_finRange _

/-! ## Which queue a process is counted in -/

def Proc.runnable (p : Proc) : Prop := p.state = .runnable
def Proc.edf (p : Proc) : Prop := p.schedClass = 1
def Proc.rr (p : Proc) : Prop := p.schedClass = 2 ∧ p.schedLevel = 1
def Proc.fcfs (p : Proc) : Prop := p.schedClass = 2 ∧ p.schedLevel = 2

instance (p : Proc) : Decidable p.runnable := inferInstanceAs (Decidable (p.state = .runnable))
instance (p : Proc) : Decidable p.edf := inferInstanceAs (Decidable (p.schedClass = 1))
instance (p : Proc) : Decidable p.rr := inferInstanceAs (Decidable (p.schedClass = 2 ∧ p.schedLevel = 1))
instance (p : Proc) : Decidable p.fcfs := inferInstanceAs (Decidable (p.schedClass = 2 ∧ p.schedLevel = 2))

/-! ## Single-slot updates -/

def Kernel.modProc (k : Kernel) (i : Slot) (f : Proc → Proc) : Kernel :=
  { k with proc := update k.proc i (f (k.proc i)) }

/-- the chain of tests that adds d to the counter of p's queue -/
def Kernel.addCount (k : Kernel) (p : Proc) (d : Int) : Kernel :=
  if p.edf then { k with countEdf := k.countEdf + d }
  else if p.rr then { k with countRr := k.countRr + d }
  else if p.fcfs then { k with countFcfs := k.countFcfs + d }
  else k

/-- `c->proc = v` -/
def Kernel.setCpuProc (k : Kernel) (c : Cpu) (v : Option Slot) : Kernel :=
  { k with cpu := update k.cpu c { k.cpu c with proc := v } }

/-- `swtch`: CPU c goes on with another kernel stack -/
def Kernel.swtch (k : Kernel) (c : Cpu) (v : Option Slot) : Kernel :=
  { k with cpu := update k.cpu c { k.cpu c with stack := v } }

/-- the first slot, in scan order, that holds the pid -/
def Kernel.findPid (k : Kernel) (pid : Int) : Option Slot := slots.find? fun i => (k.proc i).pid = pid

/-- the process that a lookup of the pid finds, if any, satisfies P -/
def Kernel.atPid (k : Kernel) (pid : Int) (P : Proc → Prop) : Prop := ∀ i ∈ k.findPid pid, P (k.proc i)

instance (k : Kernel) (pid : Int) (P : Proc → Prop) [DecidablePred P] : Decidable (k.atPid pid P) :=
  inferInstanceAs (Decidable (∀ i ∈ k.findPid pid, P (k.proc i)))

end Xv6
