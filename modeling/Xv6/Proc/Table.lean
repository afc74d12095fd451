/-
The process table as an abstract machine. A `Task` keeps the fields of `struct proc` that other functions branch on; a
`Tab` is the tasks with the run-queue counters, the clock, the pid counter and each CPU's current process.

A `Label` is one atomic change of one task: what some function of proc.c does to a slot between two points where the
table is consistent again. `can` is what the code has established when it makes the change, `apply` is the change.
`Sim` shows that a critical section of the machine is a sequence of labels, so a property that every label keeps holds
along every run.
-/
import Xv6.Lib.Runs
import Xv6.Proc.Machine

namespace Xv6

open LockProg Runs Function

/-! ## Tasks and tables -/

structure Task where
  state : ProcState
  pid : Int
  parent : Option Slot
  context : Ctx
  chan : Chan
  killed : Int
  cls : Int
  level : Int
  arrival : Int
deriving DecidableEq, Repr

def Proc.task (p : Proc) : Task :=
  ⟨p.state, p.pid, p.parent, p.context, p.chan, p.killed, p.schedClass, p.schedLevel, p.arrivalTime⟩

@[ext] structure Tab where
  task : Slot → Task
  init : Option Slot
  nextpid : Int
  edf : Int
  rr : Int
  fcfs : Int
  ticks : ℕ
  cpu : Cpu → Option Slot
  /-- the kernel stack that each CPU is on -/
  stack : Cpu → Option Slot
  /-- each CPU's round-robin cursor -/
  cursor : Cpu → Slot

def Kernel.tab (k : Kernel) : Tab where
  task i := (k.proc i).task
  init := k.initproc
  nextpid := k.nextpid
  edf := k.countEdf
  rr := k.countRr
  fcfs := k.countFcfs
  ticks := k.ticks
  cpu c := (k.cpu c).proc
  stack c := (k.cpu c).stack
  cursor c := (k.cpu c).nextrrp

/-- a process that can still run -/
def Task.live (x : Task) : Prop := x.state = .sleeping ∨ x.state = .runnable ∨ x.state = .running

/-- the task sleeps in wait -/
def Tab.waiting (t : Tab) (i : Slot) : Prop := (t.task i).state = .sleeping ∧ (t.task i).chan = .proc i

def Tab.setTask (t : Tab) (i : Slot) (x : Task) : Tab := { t with task := update t.task i x }

/-- CPU c switches to the process v, or to its scheduler -/
def Tab.setCpu (t : Tab) (c : Cpu) (v : Option Slot) : Tab :=
  { t with cpu := update t.cpu c v, stack := update t.stack c v }

def Tab.setCursor (t : Tab) (c : Cpu) (n : Slot) : Tab := { t with cursor := update t.cursor c n }

/-- add d to the counter of x's queue -/
def Tab.count (t : Tab) (x : Task) (d : Int) : Tab :=
  if x.cls = 1 then { t with edf := t.edf + d }
  else if x.cls = 2 ∧ x.level = 1 then { t with rr := t.rr + d }
  else if x.cls = 2 ∧ x.level = 2 then { t with fcfs := t.fcfs + d }
  else t

/-- the counter moved depends on the class and the level only -/
theorem Tab.count_congr {t : Tab} {x y : Task} {d : Int} (hc : x.cls = y.cls) (hl : x.level = y.level) :
    t.count x d = t.count y d := by
  simp only [Tab.count, hc, hl]

/-- set_deadline_for_process's counter moves for a RUNNABLE task: they look at the level only -/
def Tab.countDeadline (t : Tab) (x : Task) : Tab :=
  if x.state = .runnable then
    if x.level = 1 then { t with rr := t.rr - 1, edf := t.edf + 1 }
    else if x.level = 2 then { t with fcfs := t.fcfs - 1, edf := t.edf + 1 }
    else t
  else t

/-- change_sched_level's counter moves: any level but 1 counts as FCFS -/
def Tab.countLevel (t : Tab) (x : Task) : Tab :=
  if x.state = .runnable then
    if x.level = 1 then { t with rr := t.rr - 1, fcfs := t.fcfs + 1 }
    else { t with fcfs := t.fcfs - 1, rr := t.rr + 1 }
  else t

section Fields

variable (t : Tab) (i j : Slot) (x : Task) (c : Cpu) (v : Option Slot) (n : Slot) (d : Int)

@[simp] theorem setTask_self : (t.setTask i x).task i = x := update_self ..
@[simp] theorem setTask_ne (h : j ≠ i) : (t.setTask i x).task j = t.task j := update_of_ne h ..
@[simp] theorem setTask_init : (t.setTask i x).init = t.init := rfl
@[simp] theorem setTask_cpu : (t.setTask i x).cpu = t.cpu := rfl
@[simp] theorem setTask_stack : (t.setTask i x).stack = t.stack := rfl
@[simp] theorem setTask_ticks : (t.setTask i x).ticks = t.ticks := rfl
@[simp] theorem setTask_nextpid : (t.setTask i x).nextpid = t.nextpid := rfl
@[simp] theorem setTask_cursor : (t.setTask i x).cursor = t.cursor := rfl
@[simp] theorem setCpu_task : (t.setCpu c v).task = t.task := rfl
@[simp] theorem setCpu_init : (t.setCpu c v).init = t.init := rfl
@[simp] theorem setCpu_ticks : (t.setCpu c v).ticks = t.ticks := rfl
@[simp] theorem setCpu_nextpid : (t.setCpu c v).nextpid = t.nextpid := rfl
@[simp] theorem setCpu_cursor : (t.setCpu c v).cursor = t.cursor := rfl
@[simp] theorem setCursor_task : (t.setCursor c n).task = t.task := rfl
@[simp] theorem setCursor_init : (t.setCursor c n).init = t.init := rfl
@[simp] theorem setCursor_cpu : (t.setCursor c n).cpu = t.cpu := rfl
@[simp] theorem setCursor_stack : (t.setCursor c n).stack = t.stack := rfl
@[simp] theorem setCursor_ticks : (t.setCursor c n).ticks = t.ticks := rfl
@[simp] theorem setCursor_nextpid : (t.setCursor c n).nextpid = t.nextpid := rfl

-- the counter moves touch nothing but the counters
@[simp] theorem count_task : (t.count x d).task = t.task := by unfold Tab.count; split_ifs <;> rfl
@[simp] theorem count_init : (t.count x d).init = t.init := by unfold Tab.count; split_ifs <;> rfl
@[simp] theorem count_cpu : (t.count x d).cpu = t.cpu := by unfold Tab.count; split_ifs <;> rfl
@[simp] theorem count_stack : (t.count x d).stack = t.stack := by unfold Tab.count; split_ifs <;> rfl
@[simp] theorem count_ticks : (t.count x d).ticks = t.ticks := by unfold Tab.count; split_ifs <;> rfl
@[simp] theorem count_nextpid : (t.count x d).nextpid = t.nextpid := by unfold Tab.count; split_ifs <;> rfl
@[simp] theorem count_cursor : (t.count x d).cursor = t.cursor := by unfold Tab.count; split_ifs <;> rfl
@[simp] theorem countDeadline_task : (t.countDeadline x).task = t.task := by unfold Tab.countDeadline; split_ifs <;> rfl
@[simp] theorem countDeadline_init : (t.countDeadline x).init = t.init := by unfold Tab.countDeadline; split_ifs <;> rfl
@[simp] theorem countDeadline_cpu : (t.countDeadline x).cpu = t.cpu := by unfold Tab.countDeadline; split_ifs <;> rfl
@[simp] theorem countDeadline_stack : (t.countDeadline x).stack = t.stack := by
  unfold Tab.countDeadline; split_ifs <;> rfl
@[simp] theorem countDeadline_ticks : (t.countDeadline x).ticks = t.ticks := by
  unfold Tab.countDeadline; split_ifs <;> rfl
@[simp] theorem countDeadline_nextpid : (t.countDeadline x).nextpid = t.nextpid := by
  unfold Tab.countDeadline; split_ifs <;> rfl
@[simp] theorem countDeadline_cursor : (t.countDeadline x).cursor = t.cursor := by
  unfold Tab.countDeadline; split_ifs <;> rfl
@[simp] theorem countLevel_task : (t.countLevel x).task = t.task := by unfold Tab.countLevel; split_ifs <;> rfl
@[simp] theorem countLevel_init : (t.countLevel x).init = t.init := by unfold Tab.countLevel; split_ifs <;> rfl
@[simp] theorem countLevel_cpu : (t.countLevel x).cpu = t.cpu := by unfold Tab.countLevel; split_ifs <;> rfl
@[simp] theorem countLevel_stack : (t.countLevel x).stack = t.stack := by unfold Tab.countLevel; split_ifs <;> rfl
@[simp] theorem countLevel_ticks : (t.countLevel x).ticks = t.ticks := by unfold Tab.countLevel; split_ifs <;> rfl
@[simp] theorem countLevel_nextpid : (t.countLevel x).nextpid = t.nextpid := by unfold Tab.countLevel; split_ifs <;> rfl
@[simp] theorem countLevel_cursor : (t.countLevel x).cursor = t.cursor := by unfold Tab.countLevel; split_ifs <;> rfl

theorem setTask_count (y : Task) : (t.count x d).setTask i y = (t.setTask i y).count x d := by
  simp only [Tab.count, Tab.setTask, apply_ite (fun u : Tab => { u with task := update u.task i y })]

theorem count_setCpu : (t.setCpu c v).count x d = (t.count x d).setCpu c v := by
  simp only [Tab.count, apply_ite (fun u : Tab => u.setCpu c v)]
  rfl

theorem count_setCursor : (t.setCursor c n).count x d = (t.count x d).setCursor c n := by
  simp only [Tab.count, Tab.setCursor, apply_ite (fun u : Tab => { u with cursor := update u.cursor c n })]

theorem setTask_setTask (y : Task) : (t.setTask i x).setTask i y = t.setTask i y := by
  simp [Tab.setTask]

end Fields

/-! ## Labels -/

inductive Label where
  | alloc (i : Slot)
  | abort (i : Slot)
  | adopt (i j : Slot)
  | seed (i : Slot)
  | ready (i : Slot)
  | yield (c : Cpu) (i : Slot)
  | block (c : Cpu) (i : Slot) (ch : Chan) (ctx : Ctx)
  | run (c : Cpu) (i n : Slot)
  | clear (i : Slot)
  | die (c : Cpu) (i : Slot)
  | inherit (i : Slot)
  | reap (c : Cpu) (i j : Slot)
  | kill (i : Slot)
  | setDeadline (i : Slot)
  | setLevel (i : Slot) (l : Int)
  | execed (i : Slot)
  | arrive (i : Slot) (n : Int)
  | tick

/-- what holds when the code makes the change -/
def Tab.can (t : Tab) : Label → Prop
  | .alloc i => (t.task i).state = .unused ∧ t.init ≠ none
  | .abort i => (t.task i).state = .embryo ∧ (t.task i).parent = none
  | .adopt i j => (t.task i).state = .embryo ∧ (t.task j).state = .running
  | .seed i => (t.task i).state = .unused ∧ t.init = none
  | .ready i => t.init ≠ none ∧ ((t.task i).state = .sleeping ∨
      ((t.task i).state = .embryo ∧ (t.task i).parent ≠ none ∧ (t.task i).context = .forkret))
  | .yield c i => (t.task i).state = .running ∧ t.cpu c = some i
  | .block c i ch ctx => (t.task i).state = .running ∧ t.cpu c = some i ∧
      ((ctx = .wait ∧ ch = .proc i ∧ ∀ j, (t.task j).parent = some i → (t.task j).state ≠ .zombie) ∨
        (ctx = .sleep ∧ ch.external = true))
  | .run c i _ => (t.task i).state = .runnable ∧ t.cpu c = none
  | .clear i => (t.task i).state = .running
  | .die c i => (t.task i).state = .running ∧ t.cpu c = some i ∧ t.init ≠ some i ∧
      (∀ j, (t.task j).parent ≠ some i) ∧ ∀ j, (t.task i).parent = some j → ¬ t.waiting j
  | .inherit i => (∃ j, (t.task i).parent = some j ∧ (t.task j).state = .running ∧ t.init ≠ some j) ∧
      ((t.task i).state = .zombie → ∀ j, t.init = some j → ¬ t.waiting j)
  | .reap c i j => (t.task i).state = .running ∧ t.cpu c = some i ∧ (t.task j).state = .zombie ∧
      (t.task j).parent = some i
  | .setLevel i l => (l = 1 ∨ l = 2) ∧ (t.task i).level ≠ l
  | .execed i => (t.task i).state = .running
  | .kill _ | .setDeadline _ | .arrive _ _ | .tick => True

def Tab.apply (t : Tab) : Label → Tab
  | .alloc i =>
    { t.setTask i { t.task i with state := .embryo, pid := t.nextpid, cls := 2, level := 2, arrival := 0 } with
      nextpid := int32 (t.nextpid + 1) }
  | .abort i => t.setTask i { t.task i with state := .unused }
  | .adopt i j => t.setTask i { t.task i with context := .forkret, parent := some j }
  | .seed i =>
    { t.setTask i { t.task i with
        state := .runnable, pid := t.nextpid, context := .forkret, cls := 2, level := 1, arrival := int32 t.ticks } with
      init := some i, nextpid := int32 (t.nextpid + 1), rr := t.rr + 1 }
  | .ready i =>
    (t.setTask i { t.task i with state := .runnable, arrival := int32 t.ticks }).count (t.task i) 1
  | .yield c i =>
    ((t.setTask i { t.task i with state := .runnable, arrival := int32 t.ticks, context := .yield }).count
      (t.task i) 1).setCpu c none
  | .block c i ch ctx => (t.setTask i { t.task i with state := .sleeping, chan := ch, context := ctx }).setCpu c none
  | .run c i n =>
    (((t.setTask i { t.task i with state := .running }).count (t.task i) (-1)).setCpu c (some i)).setCursor c n
  | .clear i => t.setTask i { t.task i with chan := .null }
  | .die c i => (t.setTask i { t.task i with state := .zombie, context := .exit }).setCpu c none
  | .inherit i => t.setTask i { t.task i with parent := t.init }
  | .reap _ _ j => t.setTask j { t.task j with state := .unused, pid := 0, parent := none, killed := 0 }
  | .kill i => t.setTask i { t.task i with killed := 1 }
  | .setDeadline i => (t.countDeadline (t.task i)).setTask i { t.task i with level := 0, cls := 1 }
  | .setLevel i l => (t.countLevel (t.task i)).setTask i { t.task i with level := l }
  | .execed i =>
    if (t.task i).pid = 1 ∨ (t.task i).pid = 2 then t.setTask i { t.task i with cls := 2, level := 1 } else t
  | .arrive i n => t.setTask i { t.task i with arrival := n }
  | .tick => { t with ticks := uint32 (t.ticks + 1) }

/-- the slot a label writes -/
def Label.slot : Label → Option Slot
  | .alloc i | .abort i | .adopt i _ | .seed i | .ready i | .yield _ i | .block _ i _ _ | .run _ i _ | .clear i | .die _ i
  | .inherit i | .reap _ _ i | .kill i | .setDeadline i | .setLevel i _ | .execed i | .arrive i _ => some i
  | .tick => none

/-- a label writes one slot -/
theorem apply_task_ne {t : Tab} {l : Label} {j : Slot} (h : l.slot ≠ some j) : (t.apply l).task j = t.task j := by
  have hne {i : Slot} (e : (some i : Option Slot) ≠ some j) : j ≠ i := fun e' => e (by rw [e'])
  cases l <;> simp only [Tab.apply, Label.slot] at h ⊢
  case execed i => split_ifs <;> simp [hne h]
  all_goals simp [Tab.setTask, Tab.setCpu, Tab.setCursor, hne h]

theorem apply_off {t : Tab} {l : Label} {i : Slot} (hs : l.slot = some i) (j : Slot) (hj : j ≠ i) :
    (t.apply l).task j = t.task j := apply_task_ne (by rw [hs]; simpa using hj.symm)

/-- the table as a labelled system -/
def table : System Tab Label := ⟨Tab.can, Tab.apply⟩

theorem takes_label {Q : Tab → Label → Prop} {t : Tab} (l : Label) (h : t.can l) (hQ : Q t l) :
    Takes table Q t (t.apply l) := takes_one h hQ

end Xv6
