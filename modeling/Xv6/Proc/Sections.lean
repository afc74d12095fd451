/-
The longer critical sections, with the locks free on entry: exit, wait, the scheduler's pass, the scheduling system
calls, update_wait_time and the clock tick. Each `run_` lemma gives the kernel the section leaves.

- `run_changeSchedLevel`: with the process already at the target level the call ends with ptable.lock still held.
- `run_clockTick_panic`: with a process asleep on `&ticks` the clock tick panics inside wakeup1.
-/
import Xv6.Proc.Effects

namespace Xv6

open LockProg Runs Function

variable {c : Cpu} {k : Kernel} {lk : Lock → Option Cpu} {i : Slot}

/-! ## exit -/

/-- exit's loop body: slot i goes to initproc if it is a child of cur -/
def Kernel.inheritStep (k : Kernel) (cur i : Slot) : Kernel :=
  if (k.proc i).parent = some cur then
    let k' := k.modProc i fun p => { p with parent := k.initproc }
    if (k.proc i).state = .zombie then k'.wakeAll (chanOf k.initproc) slots else k'
  else k

def Kernel.inheritAll (k : Kernel) (cur : Slot) (is : List Slot) : Kernel := is.foldl (fun k i => k.inheritStep cur i) k

/-- exit up to the point where the process becomes a zombie -/
def Kernel.farewell (k : Kernel) (cur : Slot) : Kernel :=
  (k.wakeAll (chanOf (k.proc cur).parent) slots).inheritAll cur slots

def Kernel.exited (k : Kernel) (c : Cpu) (cur : Slot) : Kernel :=
  ((k.farewell cur).modProc cur fun p => { p with state := .zombie, context := .exit }).switch c none

theorem inheritStep_rest (cur i : Slot) : (k.inheritStep cur i).cpu = k.cpu ∧
    (k.inheritStep cur i).initproc = k.initproc := by
  unfold Kernel.inheritStep
  split_ifs
  · exact ⟨(wakeAll_rest ..).1, (wakeAll_rest ..).2.2⟩
  · exact ⟨rfl, rfl⟩
  · exact ⟨rfl, rfl⟩

theorem inheritAll_rest (cur : Slot) (is : List Slot) : (k.inheritAll cur is).cpu = k.cpu ∧
    (k.inheritAll cur is).initproc = k.initproc := by
  induction is generalizing k with
  | nil => exact ⟨rfl, rfl⟩
  | cons i is ih =>
    obtain ⟨h1, h2⟩ := inheritStep_rest (k := k) cur i
    obtain ⟨g1, g2⟩ := ih (k := k.inheritStep cur i)
    exact ⟨g1.trans h1, g2.trans h2⟩

theorem farewell_rest (cur : Slot) : (k.farewell cur).cpu = k.cpu ∧ (k.farewell cur).initproc = k.initproc := by
  obtain ⟨h1, h2⟩ := inheritAll_rest (k := k.wakeAll (chanOf (k.proc cur).parent) slots) cur slots
  obtain ⟨g1, -, g2⟩ := wakeAll_rest (k := k) (chanOf (k.proc cur).parent) slots
  exact ⟨h1.trans g1, h2.trans g2⟩

theorem run_passToInit (cur i : Slot) : (passToInit cur i).run c ⟨held c, k⟩ = .ok () ⟨held c, k.inheritStep cur i⟩ := by
  simp only [passToInit, Prog.bind_eq, run_bind, run_getProc, andThen_ok, Kernel.inheritStep]
  split_ifs <;> simp_all [run_wakeup1]

theorem run_exit (hc : (k.cpu c).proc = some i) (hi : k.initproc ≠ some i) :
    exit.run c ⟨free, k⟩ = .ok () ⟨free, k.exited c i⟩ := by
  have hloop : (forEach slots (passToInit i)).run c ⟨held c, k.wakeAll (chanOf (k.proc i).parent) slots⟩ =
      .ok () ⟨held c, k.farewell i⟩ := run_forEach (fun j _ => run_passToInit i j) slots
  have hcpu : ((k.farewell i).cpu c).proc = some i := by rw [(farewell_rest i).1, hc]
  simp only [exit, Prog.bind_eq, run_bind, run_curproc hc, andThen_ok, run_kernel, if_neg hi,
    run_acquire_ptable, run_getProc, run_wakeup1 (held_ticks c), hloop, run_modProc]
  rw [run_sched (i := i) .exit (by simpa using hcpu) (by simp), modProc_modProc]
  rfl

/-! ## wait -/

theorem waitScan_zombie {cur i : Slot} {is : List Slot} {b b' : Bool} (h : k.waitScan cur is b = (b', some i)) :
    (k.proc i).parent = some cur ∧ (k.proc i).state = .zombie := by
  induction is generalizing b with
  | nil => simp [Kernel.waitScan] at h
  | cons j is ih =>
    simp only [Kernel.waitScan] at h
    split_ifs at h with h1 h2
    · exact ih h
    · obtain ⟨-, rfl⟩ : true = b' ∧ j = i := by simpa using h
      exact ⟨not_not.1 h1, h2⟩
    · exact ih h

theorem waitScan_none {cur : Slot} {is : List Slot} {b b' : Bool} (h : k.waitScan cur is b = (b', none)) :
    ∀ i ∈ is, (k.proc i).parent = some cur → (k.proc i).state ≠ .zombie := by
  induction is generalizing b with
  | nil => simp
  | cons j is ih =>
    simp only [Kernel.waitScan] at h
    intro i hi hp
    split_ifs at h with h1 h2 <;> rcases List.mem_cons.1 hi with rfl | hi
    · exact absurd hp h1
    · exact ih h i hi hp
    · simp at h
    · simp at h
    · exact h2
    · exact ih h i hi hp

/-- what a round of wait returns and leaves -/
def Kernel.waited (k : Kernel) (c : Cpu) (cur : Slot) : Exit × Kernel :=
  match k.waitScan cur slots false with
  | (_, some i) => (.ret (k.proc i).pid, k.modProc i Proc.reaped)
  | (havekids, none) =>
    if havekids = false ∨ (k.proc cur).killed ≠ 0 then (.ret (-1), k)
    else (.switched, k.block c cur (.proc cur) .wait)

theorem run_waitRound (hc : (k.cpu c).proc = some i) (hs : (k.proc i).state = .running) :
    (waitRound i).run c ⟨held c, k⟩ = .ok (k.waited c i).1 ⟨free, (k.waited c i).2⟩ := by
  simp only [waitRound, Prog.bind_eq, run_bind, run_kernel, andThen_ok, Kernel.waited]
  rcases k.waitScan i slots false with ⟨b, _ | j⟩
  · simp only [run_bind, run_getProc, andThen_ok]
    split_ifs
    · simp
    · simp [run_sleepLocked _ _ hc hs]
  · simp

theorem run_wait (hc : (k.cpu c).proc = some i) (hs : (k.proc i).state = .running) :
    wait.run c ⟨free, k⟩ = .ok (k.waited c i).1 ⟨free, (k.waited c i).2⟩ := by
  simp [wait, run_curproc hc, run_waitRound hc hs]

/-! ## The scheduler -/

theorem bumpWaited_task (i : Slot) : (k.bumpWaited.proc i).task = (k.proc i).task := by
  simp only [Kernel.bumpWaited]
  split_ifs <;> rfl

theorem tab_choose (n : Slot) : (k.choose n).2.2.tab = k.tab := by
  have hb : k.bumpWaited.tab = k.tab := Tab.ext (funext fun i => bumpWaited_task i) rfl rfl rfl rfl rfl rfl rfl rfl rfl
  unfold Kernel.choose
  split_ifs
  · rfl
  · cases k.rrLoop n <;> rfl
  · exact hb
  · rfl

theorem tab_afterChoice : (k.afterChoice c).tab = k.tab.setCursor c (k.choose (k.cpu c).nextrrp).2.1 := by
  obtain ⟨h1, h2, h3, h4, h5, h6, h7, -, -, -⟩ := Tab.ext_iff.1 (tab_choose (k := k) (k.cpu c).nextrrp)
  refine Tab.ext h1 h2 h3 h4 h5 h6 h7 ?_ ?_ ?_ <;> funext d <;> by_cases hd : d = c
  · subst hd; simp [Kernel.afterChoice, Kernel.tab]
  · simp [Kernel.afterChoice, Kernel.tab, hd]
  · subst hd; simp [Kernel.afterChoice, Kernel.tab, Tab.setCursor]
  · simp [Kernel.afterChoice, Kernel.tab, Tab.setCursor, hd]
  · subst hd; simp [Kernel.afterChoice, Kernel.tab, Tab.setCursor]
  · simp [Kernel.afterChoice, Kernel.tab, Tab.setCursor, hd]

/-- the kernel after the scheduler's `swtch` to slot i -/
def Kernel.dispatched (k : Kernel) (c : Cpu) (i : Slot) : Kernel :=
  let k' := ((k.afterChoice c).switch c (some i)).modProc i fun p => { p with state := .running }
  (k'.addCount (k'.proc i) (-1)).modProc i fun p =>
    { p with consecutiveRun := 0, rrTicks := 0, waitedTicks := 0, lastRun := int32 k'.ticks }

theorem run_scheduler : scheduler.run c ⟨free, k⟩ =
    match (k.choose (k.cpu c).nextrrp).1 with
    | none => .ok none ⟨free, k.afterChoice c⟩
    | some i => .ok (some i) ⟨held c, k.dispatched c i⟩ := by
  simp only [scheduler, Prog.bind_eq, run_bind, run_acquire_ptable, andThen_ok, run_reads, run_writes]
  cases (k.choose (k.cpu c).nextrrp).1 with
  | none => simp
  | some i =>
    simp only [run_bind, run_writes, andThen_ok, run_modProc, run_addCount]
    rw [run_withLock (held_ticks c) rfl]
    simp [Kernel.dispatched, Kernel.switch, modProc_modProc, swtch_modProc, swtch_addCount]

theorem tab_dispatched (i : Slot) :
    (k.dispatched c i).tab = k.tab.apply (.run c i (k.choose (k.cpu c).nextrrp).2.1) := by
  have ht : ((k.afterChoice c).proc i).task = (k.proc i).task :=
    congrFun (congrArg Tab.task (tab_afterChoice (k := k) (c := c))) i
  have hrun : ({ (k.afterChoice c).proc i with state := .running } : Proc).task =
      { (k.proc i).task with state := .running } := by rw [← ht]; rfl
  simp only [Kernel.dispatched, tab_modProc, tab_addCount, tab_switch, tab_afterChoice, addCount_proc, modProc_self,
    setTask_count, setTask_setTask, Tab.apply]
  set n := (k.choose (k.cpu c).nextrrp).2.1
  change (((k.tab.setTask i { (k.afterChoice c).proc i with state := .running : Proc}.task).setCursor c n).setCpu c
    (some i)).count { (k.afterChoice c).proc i with state := .running : Proc}.task (-1) = _
  rw [hrun, count_setCpu, count_setCursor]
  exact congrArg (fun t : Tab => (t.setCursor c n).setCpu c (some i)) (Tab.count_congr rfl rfl)

/-- what the process that was switched to leaves, and how it ends -/
def Kernel.resume (k : Kernel) (c : Cpu) (i : Slot) : Exit × Kernel :=
  match (k.proc i).context with
  | .forkret | .yield | .exit => (.ret 0, k)
  | .wait => (k.modProc i fun p => { p with chan := .null }).waited c i
  | .sleep | .sysSleep _ _ | .consoleread _ _ => (.ret 0, k.modProc i fun p => { p with chan := .null })

theorem run_resumed (hc : (k.cpu c).proc = some i) (hs : (k.proc i).state = .running)
    (hx : (k.proc i).context ≠ .exit) :
    (resumed i).run c ⟨held c, k⟩ = .ok (k.resume c i).1 ⟨free, (k.resume c i).2⟩ := by
  simp only [resumed, Prog.bind_eq, run_bind, run_getProc, andThen_ok, Kernel.resume]
  cases hctx : (k.proc i).context with
  | exit => exact absurd hctx hx
  | wait =>
    simp only [run_bind, run_modProc, andThen_ok]
    exact run_waitRound (by simpa using hc) (by simpa using hs)
  | _ => simp

theorem dispatched_cpu (i : Slot) : ((k.dispatched c i).cpu c).proc = some i := by
  have h := congrFun (congrArg Tab.cpu (tab_dispatched (k := k) (c := c) i)) c
  simpa [Tab.apply, Tab.setCpu] using h

theorem dispatched_task (i : Slot) : ((k.dispatched c i).proc i).task = { (k.proc i).task with state := .running } := by
  have h := congrFun (congrArg Tab.task (tab_dispatched (k := k) (c := c) i)) i
  simpa [Tab.apply] using h

/-- **A pass of the scheduler** that finds a process, run until that process releases ptable.lock -/
theorem run_dispatch_some (h : (k.choose (k.cpu c).nextrrp).1 = some i) (hx : (k.proc i).context ≠ .exit) :
    dispatch.run c ⟨free, k⟩ =
      .ok (some (i, ((k.dispatched c i).resume c i).1)) ⟨free, ((k.dispatched c i).resume c i).2⟩ := by
  have ht := dispatched_task (k := k) (c := c) i
  have hs : ((k.dispatched c i).proc i).state = .running := congrArg Task.state ht
  have hctx : ((k.dispatched c i).proc i).context = (k.proc i).context := congrArg Task.context ht
  simp only [dispatch, Prog.bind_eq, run_bind, run_scheduler, h, andThen_ok,
    run_resumed (dispatched_cpu i) hs (by rwa [hctx]), Prog.pure_eq, run_ret]

theorem run_dispatch_none (h : (k.choose (k.cpu c).nextrrp).1 = none) :
    dispatch.run c ⟨free, k⟩ = .ok none ⟨free, k.afterChoice c⟩ := by
  simp [dispatch, run_scheduler, h]

/-! ## The scheduling system calls -/

theorem run_setDeadlineForProcess (pid d : Int) : (setDeadlineForProcess pid d).run c ⟨free, k⟩ =
    if d < 0 then .ok (-1) ⟨free, k⟩
    else match k.findPid pid with
      | some i => .ok 0 ⟨free, k.setDeadline i d⟩
      | none => .ok (-1) ⟨free, k⟩ := by
  simp only [setDeadlineForProcess, Prog.bind_eq]
  split_ifs
  · simp
  · simp only [run_bind, run_acquire_ptable, andThen_ok, run_kernel]
    cases k.findPid pid <;> simp

theorem tab_setDeadline (i : Slot) (d : Int) : (k.setDeadline i d).tab = k.tab.apply (.setDeadline i) := by
  have e1 : (k.proc i).runnable ↔ (k.tab.task i).state = .runnable := Iff.rfl
  have e2 : (k.proc i).schedLevel = (k.tab.task i).level := rfl
  simp only [Kernel.setDeadline, Tab.apply, Tab.countDeadline, e1, e2]
  split_ifs <;> exact tab_modProc ..

/-- change_sched_level's effect on slot i -/
def Kernel.setLevel (k : Kernel) (i : Slot) (target : Int) : Kernel :=
  (k.moveLevelCount i).modProc i fun p => { p with schedLevel := if target = 2 then 2 else 1 }

theorem run_changeSchedLevel (pid t : Int) : (changeSchedLevel pid t).run c ⟨free, k⟩ =
    if t ≠ 1 ∧ t ≠ 2 then .ok (-1) ⟨free, k⟩
    else match k.findPid pid with
      | some i => if (k.proc i).schedLevel = t then .ok (-1) ⟨held c, k⟩ else .ok 0 ⟨free, k.setLevel i t⟩
      | none => .ok (-1) ⟨free, k⟩ := by
  simp only [changeSchedLevel, Prog.bind_eq]
  by_cases h : t ≠ 1 ∧ t ≠ 2
  · simp [h]
  rw [if_neg h, if_neg h]
  simp only [run_bind, run_acquire_ptable, andThen_ok, run_kernel]
  cases k.findPid pid with
  | none => simp
  | some i =>
    simp only [run_bind, run_getProc, andThen_ok]
    by_cases hl : (k.proc i).schedLevel = t
    · simp [hl]
    · simp [hl, Kernel.setLevel]

theorem tab_setLevel (i : Slot) {t : Int} (ht : t = 1 ∨ t = 2) : (k.setLevel i t).tab = k.tab.apply (.setLevel i t) := by
  have e1 : (k.proc i).runnable ↔ (k.tab.task i).state = .runnable := Iff.rfl
  have e2 : (k.proc i).schedLevel = (k.tab.task i).level := rfl
  have hl : (if t = 2 then 2 else 1 : Int) = t := by rcases ht with rfl | rfl <;> rfl
  simp only [Kernel.setLevel, Kernel.moveLevelCount, Tab.apply, Tab.countLevel, e1, e2, hl]
  split_ifs <;> exact tab_modProc ..

/-! ## update_wait_time -/

/-- the task is RUNNABLE, at the FCFS level, and has waited for the aging threshold at the clock value n -/
def Task.due (n : Int) (x : Task) : Prop :=
  x.state = .runnable ∧ x.cls = 2 ∧ x.level = 2 ∧ agingThreshold ≤ int32 (n - x.arrival)

instance (n : Int) (x : Task) : Decidable (x.due n) :=
  inferInstanceAs (Decidable (x.state = .runnable ∧ x.cls = 2 ∧ x.level = 2 ∧ agingThreshold ≤ int32 (n - x.arrival)))

/-- the first slot of the list that update_wait_time finds due -/
def Tab.firstDue (t : Tab) (n : Int) (is : List Slot) : Option Slot := is.find? fun i => (t.task i).due n

/-- `p->waited_ticks = osTicks - p->arrival_time` on a RUNNABLE process -/
def Kernel.refresh (k : Kernel) (n : Int) (i : Slot) : Kernel :=
  if (k.proc i).runnable then k.modProc i fun p => { p with waitedTicks := int32 (n - p.arrivalTime) } else k

theorem tab_refresh (n : Int) (i : Slot) : (k.refresh n i).tab = k.tab := by
  unfold Kernel.refresh
  split_ifs
  · exact tab_modProc_same _ _ _ rfl
  · rfl

theorem run_agingCheck (n : Int) (i : Slot) :
    (agingCheck n i).run c ⟨lk, k⟩ = .ok (decide ((k.proc i).task.due n)) ⟨lk, k.refresh n i⟩ := by
  simp only [agingCheck, Prog.bind_eq, run_bind, run_getProc, andThen_ok, Kernel.refresh]
  split_ifs with h
  · have hd : ((k.modProc i fun p => { p with waitedTicks := int32 (n - p.arrivalTime) }).proc i).due ↔
        (k.proc i).task.due n := by
      rw [modProc_self]
      exact ⟨fun ⟨⟨h1, h2⟩, h3⟩ => ⟨h, h1, h2, h3⟩, fun ⟨_, h1, h2, h3⟩ => ⟨⟨h1, h2⟩, h3⟩⟩
    simp only [run_bind, run_modProc, andThen_ok, run_getProc, Prog.pure_eq, run_ret, hd]
  · have hd : ¬ (k.proc i).task.due n := fun hd => h hd.1
    simp [hd]

/-- update_wait_time's scan leaves the table as it was and stops at the first process that is due -/
theorem run_agingScan (lk : Lock → Option Cpu) (n : Int) (is : List Slot) : ∃ k' : Kernel, k'.tab = k.tab ∧
    (agingScan n is).run c ⟨lk, k⟩ = .ok (k.tab.firstDue n is) ⟨lk, k'⟩ := by
  induction is generalizing k with
  | nil => exact ⟨k, rfl, rfl⟩
  | cons i is ih =>
    have ht := tab_refresh (k := k) n i
    simp only [agingScan, Prog.bind_eq, run_bind, run_agingCheck, andThen_ok, Tab.firstDue, List.find?_cons, tab_task]
    by_cases h : (k.proc i).task.due n
    · exact ⟨k.refresh n i, ht, by simp [h]⟩
    · obtain ⟨k', h1, h2⟩ := ih (k := k.refresh n i)
      rw [ht] at h2
      exact ⟨k', h1.trans ht, by simpa [h, Tab.firstDue] using h2⟩

theorem run_agingStart (n : Int) : ∃ k' : Kernel, k'.tab = k.tab ∧
    (agingSection ⟨n, .start⟩).run c ⟨free, k⟩ = .ok ((k.tab.firstDue n slots).map .window) ⟨free, k'⟩ := by
  obtain ⟨k', h1, h2⟩ := run_agingScan (c := c) (k := k) (held c) n slots
  exact ⟨k', h1, by simp [agingSection, h2]⟩

theorem run_agingWindow {w : KWorld} (n : Int) (i : Slot) :
    (agingSection ⟨n, .window i⟩).run c w = .ok (some (.raise i (w.st.proc i).pid)) w := rfl

theorem run_agingRaise (n : Int) (i : Slot) (pid : Int) : (agingSection ⟨n, .raise i pid⟩).run c ⟨free, k⟩ =
    match k.findPid pid with
    | some j =>
      if (k.proc j).schedLevel = 1 then .ok (some (.resume i)) ⟨held c, k⟩ else .ok (some (.resume i)) ⟨free, k.setLevel j 1⟩
    | none => .ok (some (.resume i)) ⟨free, k⟩ := by
  simp only [agingSection, Prog.bind_eq, run_bind, run_changeSchedLevel]
  rw [if_neg (by decide)]
  cases k.findPid pid with
  | none => simp
  | some j =>
    simp only
    split_ifs <;> simp

theorem run_agingResume (n : Int) (i : Slot) : ∃ k' : Kernel, k'.tab = k.tab.apply (.arrive i n) ∧
    (agingSection ⟨n, .resume i⟩).run c ⟨free, k⟩ =
      .ok (((k.tab.apply (.arrive i n)).firstDue n (slotsAfter i)).map .window) ⟨free, k'⟩ := by
  have ht : (k.modProc i fun p => { p with arrivalTime := n }).tab = k.tab.apply (.arrive i n) := tab_modProc ..
  obtain ⟨k', h1, h2⟩ := run_agingScan (c := c) (k := k.modProc i fun p => { p with arrivalTime := n }) (held c) n
    (slotsAfter i)
  rw [ht] at h1 h2
  exact ⟨k', h1, by simp [agingSection, h2]⟩

/-! ## The clock tick -/

/-- a process sleeps on `&ticks` -/
def Kernel.tickSleeper (k : Kernel) (i : Slot) : Prop := (k.proc i).state = .sleeping ∧ (k.proc i).chan = .ticks

instance (k : Kernel) (i : Slot) : Decidable (k.tickSleeper i) :=
  inferInstanceAs (Decidable ((k.proc i).state = .sleeping ∧ (k.proc i).chan = .ticks))

/-- the clock after one more tick -/
def Kernel.ticked (k : Kernel) : Kernel := { k with ticks := uint32 (k.ticks + 1) }

theorem tab_ticked : k.ticked.tab = k.tab.apply .tick := rfl

/-- the lock state in the clock tick, and inside its wakeup -/
def heldTicks (c : Cpu) : Lock → Option Cpu := update free .ticks (some c)
def heldBoth (c : Cpu) : Lock → Option Cpu := update (heldTicks c) .ptable (some c)

@[simp] theorem heldTicks_ticks : heldTicks c .ticks = some c := by rfl
@[simp] theorem heldTicks_ptable : heldTicks c .ptable = none := by rfl
@[simp] theorem heldBoth_ptable : heldBoth c .ptable = some c := by rfl
@[simp] theorem heldBoth_ticks : heldBoth c .ticks = some c := by rfl

theorem run_wakeOne_awake (ch : Chan) (h : ¬ ((k.proc i).state = .sleeping ∧ (k.proc i).chan = ch)) :
    (wakeOne ch i).run c ⟨lk, k⟩ = .ok () ⟨lk, k⟩ := by
  simp only [wakeOne, Prog.bind_eq, run_bind, run_getProc, andThen_ok, if_neg h, Prog.pure_eq, run_ret]

/-- wakeup1 reaches for tickslock: a CPU that holds it panics on the first process it wakes -/
theorem run_wakeOne_panic (k : Kernel) (ch : Chan) (h : (k.proc i).state = .sleeping ∧ (k.proc i).chan = ch)
    (ht : lk .ticks = some c) : ∃ k', (wakeOne ch i).run c ⟨lk, k⟩ = .panic "acquire" ⟨lk, k'⟩ := by
  refine ⟨k.modProc i fun p => { p with state := .runnable }, ?_⟩
  simp only [wakeOne, makeRunnable, withLock, Prog.bind_eq, run_bind, run_getProc, andThen_ok, if_pos h, run_modProc,
    run_acquire_held ht, andThen_panic]

theorem run_clockTick (h : ∀ i, ¬ k.tickSleeper i) :
    clockTick.run c ⟨free, k⟩ = .ok (int32 k.ticked.ticks) ⟨free, k.ticked⟩ := by
  have hw : (wakeup1 .ticks).run c ⟨heldBoth c, k.ticked⟩ = .ok () ⟨heldBoth c, k.ticked⟩ :=
    run_forEach_skip fun i _ => run_wakeOne_awake .ticks (h i)
  have ha : (acquire .ptable : K Unit).run c ⟨heldTicks c, k.ticked⟩ = .ok () ⟨heldBoth c, k.ticked⟩ :=
    run_acquire_free heldTicks_ptable
  have hr : (release .ptable : K Unit).run c ⟨heldBoth c, k.ticked⟩ = .ok () ⟨heldTicks c, k.ticked⟩ := by
    rw [run_release_held heldBoth_ptable, heldBoth, update_update_none heldTicks_ptable]
  have hwk : (wakeup .ticks).run c ⟨heldTicks c, k.ticked⟩ = .ok () ⟨heldTicks c, k.ticked⟩ := by
    simp only [wakeup, Prog.bind_eq, run_bind, ha, hw, hr, andThen_ok]
  have h0 : (acquire .ticks : K Unit).run c ⟨free, k⟩ = .ok () ⟨heldTicks c, k⟩ := run_acquire_free rfl
  have h1 : (release .ticks : K Unit).run c ⟨heldTicks c, k.ticked⟩ = .ok () ⟨free, k.ticked⟩ := by
    rw [run_release_held heldTicks_ticks, heldTicks, update_update_none rfl]
  simp only [clockTick, Prog.bind_eq, run_bind, h0, andThen_ok, run_writes, run_kernel]
  change (((wakeup .ticks).run c ⟨heldTicks c, k.ticked⟩).andThen _) = _
  simp only [hwk, andThen_ok, h1, Prog.pure_eq, run_ret]
  rfl

/-- **The clock tick with a sleeper on `&ticks`** panics, and its CPU keeps ptable.lock and tickslock -/
theorem run_clockTick_panic (h : k.tickSleeper i) :
    ∃ k', clockTick.run c ⟨free, k⟩ = .panic "acquire" ⟨heldBoth c, k'⟩ := by
  have hw : ∃ w', (wakeup1 .ticks).run c ⟨heldBoth c, k.ticked⟩ = .panic "acquire" w' ∧ w'.locks = heldBoth c := by
    refine run_forEach_panic (fun j _ => ?_) ⟨i, mem_slots i, ?_⟩
    · by_cases hj : (k.proc j).state = .sleeping ∧ (k.proc j).chan = .ticks
      · obtain ⟨k', hk⟩ := run_wakeOne_panic k.ticked .ticks hj (heldBoth_ticks (c := c))
        exact .inr ⟨_, hk, rfl⟩
      · exact .inl (run_wakeOne_awake .ticks hj)
    · obtain ⟨k', hk⟩ := run_wakeOne_panic k.ticked .ticks h (heldBoth_ticks (c := c))
      rw [hk]; simp
  obtain ⟨⟨lk, k'⟩, hw, rfl⟩ := hw
  refine ⟨k', ?_⟩
  have ha : (acquire .ptable : K Unit).run c ⟨heldTicks c, k.ticked⟩ = .ok () ⟨heldBoth c, k.ticked⟩ :=
    run_acquire_free heldTicks_ptable
  have h0 : (acquire .ticks : K Unit).run c ⟨free, k⟩ = .ok () ⟨heldTicks c, k⟩ := run_acquire_free rfl
  simp only [clockTick, Prog.bind_eq, run_bind, h0, andThen_ok, run_writes, run_kernel]
  change (((wakeup .ticks).run c ⟨heldTicks c, k.ticked⟩).andThen _) = _
  simp only [wakeup, Prog.bind_eq, run_bind, ha, hw, andThen_ok, andThen_panic]

end Xv6
