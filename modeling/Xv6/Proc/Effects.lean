/-
What the straight-line pieces of the process code do to the kernel when the spinlocks are free (`free`), or with
ptable.lock already taken by the CPU that runs them (`held c`), and how that reads in the abstract table.
-/
import Xv6.Proc.Table

namespace Xv6

open LockProg Runs Function

/-! ## Reading a kernel as a table -/

section Tab

variable (k : Kernel) (i : Slot)

@[simp] theorem tab_task : k.tab.task i = (k.proc i).task := rfl
@[simp] theorem tab_init : k.tab.init = k.initproc := rfl
@[simp] theorem tab_cpu (c : Cpu) : k.tab.cpu c = (k.cpu c).proc := rfl

theorem tab_modProc (f : Proc → Proc) : (k.modProc i f).tab = k.tab.setTask i (f (k.proc i)).task := by
  simp only [Kernel.tab, Kernel.modProc, Tab.setTask, Tab.mk.injEq, and_true]
  funext j
  by_cases h : j = i
  · subst h; simp
  · simp [h]

theorem tab_modProc_same (f : Proc → Proc) (h : (f (k.proc i)).task = (k.proc i).task) :
    (k.modProc i f).tab = k.tab := by
  rw [tab_modProc, h]
  simp only [Tab.setTask, ← tab_task, update_eq_self]

theorem tab_addCount (p : Proc) (d : Int) : (k.addCount p d).tab = k.tab.count p.task d := by
  simp only [Kernel.addCount, apply_ite Kernel.tab]
  rfl

/-- CPU c switches to the process v, or to its scheduler -/
def Kernel.switch (k : Kernel) (c : Cpu) (v : Option Slot) : Kernel := (k.setCpuProc c v).swtch c v

theorem swtch_setCpuProc (c : Cpu) (v : Option Slot) : (k.swtch c v).setCpuProc c v = k.switch c v := by
  simp [Kernel.switch, Kernel.swtch, Kernel.setCpuProc]

@[simp] theorem swtch_proc (c : Cpu) (v : Option Slot) : (k.swtch c v).proc = k.proc := rfl

@[simp] theorem swtch_ticks (c : Cpu) (v : Option Slot) : (k.swtch c v).ticks = k.ticks := rfl

theorem swtch_modProc (c : Cpu) (v : Option Slot) (f : Proc → Proc) :
    (k.modProc i f).swtch c v = (k.swtch c v).modProc i f := rfl

theorem swtch_addCount (c : Cpu) (v : Option Slot) (p : Proc) (d : Int) :
    (k.addCount p d).swtch c v = (k.swtch c v).addCount p d := by
  unfold Kernel.addCount; split_ifs <;> rfl

theorem tab_switch (c : Cpu) (v : Option Slot) : (k.switch c v).tab = k.tab.setCpu c v := by
  simp only [Kernel.tab, Kernel.switch, Kernel.swtch, Kernel.setCpuProc, Tab.setCpu, Tab.mk.injEq, true_and]
  refine ⟨?_, ?_, ?_⟩ <;> funext d <;> by_cases h : d = c
  · subst h; simp
  · simp [h]
  · subst h; simp
  · simp [h]
  · subst h; simp
  · simp [h]

@[simp] theorem modProc_self (f : Proc → Proc) : (k.modProc i f).proc i = f (k.proc i) := update_self ..

@[simp] theorem modProc_ne (f : Proc → Proc) {j : Slot} (h : j ≠ i) : (k.modProc i f).proc j = k.proc j :=
  update_of_ne h ..

@[simp] theorem modProc_cpu (f : Proc → Proc) : (k.modProc i f).cpu = k.cpu := rfl

@[simp] theorem modProc_ticks (f : Proc → Proc) : (k.modProc i f).ticks = k.ticks := rfl

@[simp] theorem modProc_initproc (f : Proc → Proc) : (k.modProc i f).initproc = k.initproc := rfl

theorem modProc_modProc (f g : Proc → Proc) : (k.modProc i f).modProc i g = k.modProc i fun p => g (f p) := by
  simp [Kernel.modProc]

@[simp] theorem addCount_proc (p : Proc) (d : Int) : (k.addCount p d).proc = k.proc := by
  unfold Kernel.addCount; split_ifs <;> rfl

@[simp] theorem addCount_cpu (p : Proc) (d : Int) : (k.addCount p d).cpu = k.cpu := by
  unfold Kernel.addCount; split_ifs <;> rfl

@[simp] theorem addCount_ticks (p : Proc) (d : Int) : (k.addCount p d).ticks = k.ticks := by
  unfold Kernel.addCount; split_ifs <;> rfl

@[simp] theorem addCount_nextpid (p : Proc) (d : Int) : (k.addCount p d).nextpid = k.nextpid := by
  unfold Kernel.addCount; split_ifs <;> rfl

@[simp] theorem addCount_initproc (p : Proc) (d : Int) : (k.addCount p d).initproc = k.initproc := by
  unfold Kernel.addCount; split_ifs <;> rfl

end Tab

/-! ## Lock states -/

/-- no lock is held -/
def free : Lock → Option Cpu := fun _ => none

/-- CPU c holds ptable.lock, and nothing else is held -/
def held (c : Cpu) : Lock → Option Cpu := update free .ptable (some c)

@[simp] theorem free_eq (l : Lock) : free l = none := by rfl

-- proved by tactic: simp must not treat these as definitional, or it cannot use them on side conditions
@[simp] theorem held_ptable (c : Cpu) : held c .ptable = some c := by rfl
@[simp] theorem held_ticks (c : Cpu) : held c .ticks = none := by rfl
@[simp] theorem held_cons (c : Cpu) : held c .cons = none := by rfl

variable {c : Cpu} {k : Kernel} {lk : Lock → Option Cpu} {i : Slot} {w : KWorld}

@[simp] theorem run_acquire_ptable : (acquire .ptable : K Unit).run c ⟨free, k⟩ = .ok () ⟨held c, k⟩ :=
  run_acquire_free rfl

@[simp] theorem run_release_ptable : (release .ptable : K Unit).run c ⟨held c, k⟩ = .ok () ⟨free, k⟩ := by
  rw [run_release_held (held_ptable c), held, update_update_none rfl]

@[simp] theorem run_kernel : kernel.run c w = .ok w.st w := rfl

@[simp] theorem run_getProc (i : Slot) : (getProc i).run c w = .ok (w.st.proc i) w := rfl

@[simp] theorem run_modProc (i : Slot) (f : Proc → Proc) :
    (modProc i f).run c w = .ok () { w with st := w.st.modProc i f } := rfl

@[simp] theorem run_addCount (i : Slot) (d : Int) :
    (addCount i d).run c w = .ok () { w with st := w.st.addCount (w.st.proc i) d } := rfl

@[simp] theorem run_myproc : myproc.run c w = .ok (w.st.cpu c).proc w := rfl

@[simp] theorem run_curproc (h : (k.cpu c).proc = some i) : curproc.run c ⟨lk, k⟩ = .ok i ⟨lk, k⟩ := by
  simp [curproc, h]

@[simp] theorem run_cprintf (h : lk .cons = none) : cprintf.run c ⟨lk, k⟩ = .ok () ⟨lk, k⟩ :=
  run_withLock h rfl

/-! ## A process becomes RUNNABLE -/

/-- the effect of `makeRunnable` -/
def Kernel.ready (k : Kernel) (i : Slot) (f : ℕ → Proc → Proc) : Kernel :=
  let k' := k.modProc i fun p => f k.ticks (Proc.stamp k.ticks { p with state := .runnable })
  k'.addCount (k'.proc i) 1

theorem run_makeRunnable (h : lk .ticks = none) (i : Slot) (f : ℕ → Proc → Proc) :
    (makeRunnable i f).run c ⟨lk, k⟩ = .ok () ⟨lk, k.ready i f⟩ := by
  simp only [makeRunnable, Prog.bind_eq, run_bind, run_modProc, andThen_ok]
  rw [run_withLock h rfl]
  simp [Kernel.ready, modProc_modProc]

theorem ready_proc_ne {i j : Slot} (f : ℕ → Proc → Proc) (h : j ≠ i) : (k.ready i f).proc j = k.proc j := by
  simp [Kernel.ready, h]

theorem ready_proc_self (f : ℕ → Proc → Proc) :
    (k.ready i f).proc i = f k.ticks (Proc.stamp k.ticks { k.proc i with state := .runnable }) := by
  simp [Kernel.ready]

/-- `makeRunnable` in the table, when the caller's part touches no field of the task -/
theorem tab_ready (i : Slot) (f : ℕ → Proc → Proc) (hf : ∀ t p, (f t p).task = p.task) :
    (k.ready i f).tab = k.tab.apply (.ready i) := by
  simp only [Kernel.ready, tab_addCount, tab_modProc, modProc_self, hf]
  exact Tab.count_congr rfl rfl

/-! ## Switching away -/

/-- **`sched`** with only ptable.lock held and the state already changed: the CPU is back in its scheduler -/
theorem run_sched (ctx : Ctx) (hc : (k.cpu c).proc = some i) (hs : (k.proc i).state ≠ .running) :
    (sched ctx).run c ⟨held c, k⟩ = .ok () ⟨free, (k.modProc i fun q => { q with context := ctx }).switch c none⟩ := by
  simp [sched, backInScheduler, hc, hs, swtch_setCpuProc]

/-- the effect of `sleepLocked` on a running process -/
def Kernel.block (k : Kernel) (c : Cpu) (i : Slot) (ch : Chan) (ctx : Ctx) : Kernel :=
  (k.modProc i fun p => { p with chan := ch, consecutiveRun := 0, state := .sleeping, context := ctx }).switch c none

theorem run_sleepLocked (ch : Chan) (ctx : Ctx) (hc : (k.cpu c).proc = some i)
    (hs : (k.proc i).state = .running) :
    (sleepLocked i ch ctx).run c ⟨held c, k⟩ = .ok () ⟨free, k.block c i ch ctx⟩ := by
  simp only [sleepLocked, Prog.bind_eq, run_bind, run_modProc, andThen_ok, run_getProc]
  rw [if_neg (by simp [Proc.runnable, hs])]
  simp only [andThen_ok, run_bind, run_modProc]
  rw [run_sched (i := i) ctx (by simpa using hc) (by simp)]
  simp only [modProc_modProc, Kernel.block]

theorem tab_block (i : Slot) (ch : Chan) (ctx : Ctx) : (k.block c i ch ctx).tab = k.tab.apply (.block c i ch ctx) := by
  simp only [Kernel.block, tab_switch, tab_modProc]
  rfl

theorem run_sleep (ch : Chan) (ctx : Ctx) (hc : (k.cpu c).proc = some i) (hs : (k.proc i).state = .running) :
    (sleep ch none ctx).run c ⟨free, k⟩ = .ok () ⟨free, k.block c i ch ctx⟩ := by
  simp [sleep, hc, run_sleepLocked ch ctx hc hs]

def Kernel.yielded (k : Kernel) (c : Cpu) (i : Slot) : Kernel :=
  ((k.ready i fun _ q => { q with consecutiveRun := 0 }).modProc i fun q => { q with context := .yield }).switch c none

theorem ready_cpu (i : Slot) (f : ℕ → Proc → Proc) : (k.ready i f).cpu = k.cpu := by
  simp [Kernel.ready]

theorem run_yield (hc : (k.cpu c).proc = some i) :
    yield.run c ⟨free, k⟩ = .ok () ⟨free, k.yielded c i⟩ := by
  simp only [yield, Prog.bind_eq, run_bind, run_acquire_ptable, andThen_ok, run_curproc hc, run_makeRunnable, held_ticks]
  rw [run_sched (i := i) .yield (by rw [ready_cpu]; exact hc) (by rw [ready_proc_self]; simp [Proc.stamp])]
  rfl

theorem tab_yielded (i : Slot) : (k.yielded c i).tab = k.tab.apply (.yield c i) := by
  have h := tab_ready (k := k) i (fun _ q => { q with consecutiveRun := 0 }) fun _ _ => rfl
  simp only [Kernel.yielded, tab_switch, tab_modProc, ready_proc_self, h]
  simp only [Tab.apply, setTask_count, setTask_setTask]
  rfl

/-! ## wakeup1 -/

def Kernel.wakeStep (k : Kernel) (ch : Chan) (i : Slot) : Kernel :=
  if (k.proc i).state = .sleeping ∧ (k.proc i).chan = ch then k.ready i fun _ q => q else k

def Kernel.wakeAll (k : Kernel) (ch : Chan) (is : List Slot) : Kernel := is.foldl (fun k i => k.wakeStep ch i) k

theorem run_wakeup1 (h : lk .ticks = none) (ch : Chan) :
    (wakeup1 ch).run c ⟨lk, k⟩ = .ok () ⟨lk, k.wakeAll ch slots⟩ := by
  refine run_forEach (fun i y => ?_) slots
  simp only [wakeOne, Prog.bind_eq, run_bind, run_getProc, andThen_ok, Kernel.wakeStep]
  split_ifs
  · exact run_makeRunnable h i _
  · rfl

theorem run_wakeup (ch : Chan) : (wakeup ch).run c ⟨free, k⟩ = .ok () ⟨free, k.wakeAll ch slots⟩ := by
  simp [wakeup, run_wakeup1]

/-- the task of a process that wakeup1 wakes -/
def Task.woken (t : ℕ) (x : Task) : Task := { x with state := .runnable, arrival := int32 t }

theorem wakeStep_rest (ch : Chan) (i : Slot) : (k.wakeStep ch i).cpu = k.cpu ∧ (k.wakeStep ch i).ticks = k.ticks ∧
    (k.wakeStep ch i).initproc = k.initproc := by
  unfold Kernel.wakeStep Kernel.ready
  split_ifs <;> simp

theorem wakeAll_rest (ch : Chan) (is : List Slot) : (k.wakeAll ch is).cpu = k.cpu ∧ (k.wakeAll ch is).ticks = k.ticks ∧
    (k.wakeAll ch is).initproc = k.initproc := by
  induction is generalizing k with
  | nil => exact ⟨rfl, rfl, rfl⟩
  | cons i is ih =>
    obtain ⟨h1, h2, h3⟩ := wakeStep_rest (k := k) ch i
    obtain ⟨g1, g2, g3⟩ := ih (k := k.wakeStep ch i)
    exact ⟨g1.trans h1, g2.trans h2, g3.trans h3⟩

theorem wakeStep_task (ch : Chan) (i j : Slot) : ((k.wakeStep ch i).proc j).task =
    if j = i ∧ (k.proc j).state = .sleeping ∧ (k.proc j).chan = ch then (k.proc j).task.woken k.ticks
    else (k.proc j).task := by
  by_cases h : (k.proc i).state = .sleeping ∧ (k.proc i).chan = ch
  · rw [Kernel.wakeStep, if_pos h]
    by_cases hj : j = i
    · subst hj
      rw [ready_proc_self, if_pos ⟨rfl, h⟩]; rfl
    · rw [ready_proc_ne _ hj, if_neg fun h' => hj h'.1]
  · rw [Kernel.wakeStep, if_neg h, if_neg]
    rintro ⟨rfl, h'⟩
    exact h h'

/-- **wakeup1, slot by slot**: exactly the processes asleep on the channel become RUNNABLE -/
theorem wakeAll_task (ch : Chan) (is : List Slot) (hn : is.Nodup) (j : Slot) : ((k.wakeAll ch is).proc j).task =
    if j ∈ is ∧ (k.proc j).state = .sleeping ∧ (k.proc j).chan = ch then (k.proc j).task.woken k.ticks
    else (k.proc j).task := by
  induction is generalizing k with
  | nil => simp [Kernel.wakeAll]
  | cons i is ih =>
    have hi := (List.nodup_cons.1 hn).1
    have e := ih (k := k.wakeStep ch i) (List.nodup_cons.1 hn).2
    have et := wakeStep_task (k := k) ch i j
    rw [show (k.wakeAll ch (i :: is)) = (k.wakeStep ch i).wakeAll ch is from rfl, e, (wakeStep_rest ch i).2.1]
    by_cases hj : j = i
    · subst hj
      rw [if_neg (fun h => hi h.1), et]
      simp
    · rw [if_neg (fun h => hj h.1)] at et
      have hs : ((k.wakeStep ch i).proc j).state = (k.proc j).state := congrArg Task.state et
      have hc : ((k.wakeStep ch i).proc j).chan = (k.proc j).chan := congrArg Task.chan et
      rw [hs, hc, et]
      simp [hj]

/-- nobody sleeps on the channel after wakeup1 -/
theorem wakeAll_awake (ch : Chan) (j : Slot) :
    ¬ (((k.wakeAll ch slots).proc j).state = .sleeping ∧ ((k.wakeAll ch slots).proc j).chan = ch) := by
  rintro ⟨h1, h2⟩
  have e := wakeAll_task (k := k) ch slots nodup_slots j
  have h1' := congrArg Task.state e
  have h2' := congrArg Task.chan e
  split_ifs at h1' h2' with h
  · exact absurd (h1.symm.trans h1') (by simp [Task.woken])
  · exact h ⟨mem_slots j, h1'.symm.trans h1, h2'.symm.trans h2⟩

/-! ## kill -/

def Kernel.kill (k : Kernel) (i : Slot) : Kernel :=
  let k' := k.modProc i fun p => { p with killed := 1 }
  if (k.proc i).state = .sleeping then k'.ready i fun _ q => q else k'

theorem run_kill (pid : Int) : (kill pid).run c ⟨free, k⟩ =
    match k.findPid pid with
    | some i => .ok 0 ⟨free, k.kill i⟩
    | none => .ok (-1) ⟨free, k⟩ := by
  simp only [kill, Prog.bind_eq, run_bind, run_acquire_ptable, andThen_ok, run_kernel]
  cases k.findPid pid with
  | none => simp
  | some i =>
    simp only [run_bind, run_modProc, andThen_ok, run_getProc, modProc_self, Kernel.kill]
    split_ifs
    · simp [run_makeRunnable]
    · simp

/-! ## Creation -/

theorem findUnused_some (h : k.findUnused = some i) : (k.proc i).state = .unused := by
  simpa using List.find?_some h

theorem run_allocprocLocked : allocprocLocked.run c ⟨free, k⟩ =
    match k.findUnused with
    | none => .ok none ⟨free, k⟩
    | some i => .ok (some i) ⟨free, k.alloc i⟩ := by
  simp only [allocprocLocked, Prog.bind_eq, run_bind, run_acquire_ptable, andThen_ok, run_kernel]
  cases k.findUnused with
  | none | some i => simp

theorem tab_alloc (i : Slot) : (k.alloc i).tab = k.tab.apply (.alloc i) := by
  have h := congrArg Tab.task (tab_modProc k i (Proc.embryo k.nextpid))
  exact Tab.ext h rfl rfl rfl rfl rfl rfl rfl rfl rfl

theorem run_forkFinish (np : Slot) : (forkFinish np).run c ⟨free, k⟩ =
    .ok (k.proc np).pid ⟨free, k.ready np fun t q => { q with lastRun := int32 t }⟩ := by
  simp [forkFinish, run_makeRunnable]

theorem tab_adopt (np cur : Slot) :
    ((k.modProc np fun p => { p with context := .forkret }).adopt np cur).tab = k.tab.apply (.adopt np cur) := by
  simp only [Kernel.adopt, modProc_modProc, tab_modProc]
  rfl

/-- userinit's effect, with slot i free -/
def Kernel.seeded (k : Kernel) (i : Slot) : Kernel :=
  let k' := (k.alloc i).modProc i fun p =>
    { p with context := .forkret, schedClass := 2, schedLevel := 1, name := "initcode" }
  { k' with initproc := some i }.ready i fun _ q => q

theorem run_userinit (h : k.findUnused = some i) : userinit.run c ⟨free, k⟩ = .ok () ⟨free, k.seeded i⟩ := by
  have ha : (allocproc true).run c ⟨free, k⟩ =
      .ok (some i) ⟨free, (k.alloc i).modProc i fun p => { p with context := .forkret }⟩ := by
    simp [allocproc, run_allocprocLocked, h]
  simp only [userinit, Prog.bind_eq, run_bind, ha, andThen_ok, run_modProc, run_writes, run_acquire_ptable,
    run_makeRunnable, held_ticks, run_release_ptable]
  simp only [Kernel.seeded, Kernel.modProc, update_self, update_idem]

theorem tab_seeded (i : Slot) : (k.seeded i).tab = k.tab.apply (.seed i) := by
  have hc : (k.seeded i).tab.rr = k.countRr + 1 ∧ (k.seeded i).tab.edf = k.countEdf ∧
      (k.seeded i).tab.fcfs = k.countFcfs := by
    simp [Kernel.seeded, Kernel.ready, Kernel.addCount, Kernel.modProc, Kernel.alloc, Kernel.tab, Proc.edf, Proc.rr,
      Proc.stamp]
  refine Tab.ext ?_ ?_ ?_ hc.2.1 hc.1 hc.2.2 ?_ ?_ ?_ ?_
  · funext j
    by_cases h : j = i
    · subst h
      simp [Kernel.seeded, ready_proc_self, Kernel.modProc, Kernel.alloc, Tab.apply]
      rfl
    · simp [Kernel.seeded, ready_proc_ne, Kernel.modProc, Kernel.alloc, Tab.apply, h]
  all_goals simp [Kernel.seeded, Kernel.ready, Kernel.alloc, Kernel.modProc, Kernel.tab, Tab.apply, Tab.setTask]

end Xv6
