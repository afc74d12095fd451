/-
What the functions of proc.c do to the run-time statistics of a process: consecutive_run, max_consecutive_run,
runnig_time and rr_ticks.

- `Proc.StatsKept p q`: the totals stay, nobody starts to run, and a process that runs on keeps its counters.
- `Proc.Fresh`: a new process. `Proc.Started p q`: p has been dispatched, and its counters start at 0.

Results:
- `keeps_*`: every function but the scheduler and allocproc keeps the statistics, also where it panics;
- `step_stats`: a step of the process machine keeps the statistics of every process, except for the one it dispatches and
  the one it creates.
-/
import Xv6.Proc.Steps
import Xv6.Proc.Trap

namespace Xv6

open LockProg Function

/-! ## The statistics of one process -/

structure Proc.StatsKept (p q : Proc) : Prop where
  most : q.maxConsecutiveRun = p.maxConsecutiveRun
  total : q.runnigTime = p.runnigTime
  runs : q.state = .running → p.state = .running ∧ q.consecutiveRun = p.consecutiveRun ∧ q.rrTicks = p.rrTicks

structure Proc.Started (p q : Proc) : Prop where
  most : q.maxConsecutiveRun = p.maxConsecutiveRun
  total : q.runnigTime = p.runnigTime
  zero : q.state = .running → q.consecutiveRun = 0 ∧ q.rrTicks = 0

structure Proc.Fresh (q : Proc) : Prop where
  most : q.maxConsecutiveRun = 0
  total : q.runnigTime = 0
  still : q.state ≠ .running

theorem Proc.StatsKept.refl (p : Proc) : p.StatsKept p := ⟨rfl, rfl, fun h => ⟨h, rfl, rfl⟩⟩

theorem Proc.StatsKept.trans {p q r : Proc} (h : p.StatsKept q) (h' : q.StatsKept r) : p.StatsKept r := by
  refine ⟨h'.most.trans h.most, h'.total.trans h.total, fun hr => ?_⟩
  obtain ⟨hq, h1, h2⟩ := h'.runs hr
  obtain ⟨hp, h3, h4⟩ := h.runs hq
  exact ⟨hp, h1.trans h3, h2.trans h4⟩

theorem Proc.Started.kept {p q r : Proc} (h : p.Started q) (h' : q.StatsKept r) : p.Started r := by
  refine ⟨h'.most.trans h.most, h'.total.trans h.total, fun hr => ?_⟩
  obtain ⟨hq, h1, h2⟩ := h'.runs hr
  obtain ⟨h3, h4⟩ := h.zero hq
  exact ⟨h1.trans h3, h2.trans h4⟩

theorem Proc.Fresh.kept {p q : Proc} (h : p.Fresh) (h' : p.StatsKept q) : q.Fresh :=
  ⟨h'.most.trans h.most, h'.total.trans h.total, fun hq => h.still (h'.runs hq).1⟩

/-- the process stops: whatever else is written -/
theorem Proc.StatsKept.stop {p q : Proc} (h1 : q.maxConsecutiveRun = p.maxConsecutiveRun) (h2 : q.runnigTime = p.runnigTime)
    (h3 : q.state ≠ .running) : p.StatsKept q := ⟨h1, h2, fun h => absurd h h3⟩

def Kernel.StatsKept (k k' : Kernel) : Prop := ∀ i, (k.proc i).StatsKept (k'.proc i)

instance : IsPreorder Kernel Kernel.StatsKept where
  refl _ _ := .refl _
  trans _ _ _ h h' i := (h i).trans (h' i)

variable {k : Kernel} {i j : Slot} {c : Cpu} {lk : Lock → Option Cpu} {α : Type} {p : K α}

theorem statsKept_modProc {f : Proc → Proc} (hf : (k.proc i).StatsKept (f (k.proc i))) : k.StatsKept (k.modProc i f) := by
  intro j
  by_cases hj : j = i
  · rw [hj, modProc_self]
    exact hf
  · rw [modProc_ne k i f hj]
    exact .refl _

/-- a change that leaves the table alone -/
theorem statsKept_of_proc {k' : Kernel} (h : k'.proc = k.proc) : k.StatsKept k' := by
  intro i
  rw [h]
  exact .refl _

/-! ## The functions -/

/-- a field that is no statistic -/
def Proc.Untouched (f : Proc → Proc) : Prop := ∀ p : Proc, p.StatsKept (f p)

theorem keeps_modProc {f : Proc → Proc} (hf : Proc.Untouched f) : Keeps Kernel.StatsKept (modProc i f) :=
  keeps_writes fun _ _ => statsKept_modProc (hf _)

theorem keeps_addCount (i : Slot) (d : Int) : Keeps Kernel.StatsKept (addCount i d) :=
  keeps_writes fun _ _ => statsKept_of_proc (addCount_proc ..)

theorem keeps_curproc : Keeps Kernel.StatsKept curproc :=
  keeps_bind (keeps_reads _) fun o => by
    cases o with
    | none => exact keeps_panic _
    | some i => exact keeps_ret i

theorem keeps_cprintf : Keeps Kernel.StatsKept cprintf := keeps_withLock (keeps_ret ())

/-- makeRunnable stops the process, also where it finds tickslock taken -/
theorem makeRunnable_stops {f : ℕ → Proc → Proc} (h1 : ∀ t p, (f t p).maxConsecutiveRun = p.maxConsecutiveRun)
    (h2 : ∀ t p, (f t p).runnigTime = p.runnigTime) (h3 : ∀ t p, (f t p).state = p.state) (c : Cpu) (w : KWorld) :
    w.st.StatsKept ((makeRunnable i f).run c w).world.st ∧
      (((makeRunnable i f).run c w).world.st.proc i).state ≠ .running := by
  obtain ⟨lk, k⟩ := w
  cases hl : lk .ticks with
  | none =>
    rw [run_makeRunnable hl]
    have hself : (k.proc i).StatsKept ((k.ready i f).proc i) ∧ ((k.ready i f).proc i).state ≠ .running := by
      rw [ready_proc_self]
      have hstate : (f k.ticks (Proc.stamp k.ticks { k.proc i with state := .runnable })).state ≠ .running := by
        rw [h3]
        simp [Proc.stamp]
      exact ⟨.stop (h1 ..) (h2 ..) hstate, hstate⟩
    refine ⟨fun j => ?_, hself.2⟩
    by_cases hj : j = i
    · rw [hj]
      exact hself.1
    · show (k.proc j).StatsKept ((k.ready i f).proc j)
      rw [ready_proc_ne f hj]
      exact .refl _
  | some d =>
    -- the run stops behind the first write
    have hfirst : ((makeRunnable i f).run c ⟨lk, k⟩).world.st = k.modProc i fun p => { p with state := .runnable } := by
      simp only [makeRunnable, withLock, Prog.bind_eq, run_bind, run_modProc, andThen_ok]
      by_cases hd : d = c
      · rw [run_acquire_held (by rw [hl, hd])]
        rfl
      · rw [run_acquire_other hl hd]
        rfl
    rw [hfirst]
    exact ⟨statsKept_modProc (.stop rfl rfl (by simp)), by simp⟩

theorem keeps_makeRunnable {f : ℕ → Proc → Proc} (h1 : ∀ t p, (f t p).maxConsecutiveRun = p.maxConsecutiveRun)
    (h2 : ∀ t p, (f t p).runnigTime = p.runnigTime) (h3 : ∀ t p, (f t p).state = p.state) :
    Keeps Kernel.StatsKept (makeRunnable i f) := fun c w => (makeRunnable_stops h1 h2 h3 c w).1

theorem keeps_wakeup1 (ch : Chan) : Keeps Kernel.StatsKept (wakeup1 ch) :=
  keeps_forEach _ fun _ => keeps_bind (keeps_reads _) fun _ =>
    keeps_ite (keeps_makeRunnable (fun _ _ => rfl) (fun _ _ => rfl) fun _ _ => rfl) (keeps_ret ())

theorem keeps_wakeup (ch : Chan) : Keeps Kernel.StatsKept (wakeup ch) :=
  keeps_bind (keeps_acquire _) fun _ => keeps_bind (keeps_wakeup1 ch) fun _ => keeps_release _

/-- `if(a) panic(m);` before the rest -/
theorem keeps_guard {a : Prop} [Decidable a] {m : String} (hp : Keeps Kernel.StatsKept p) :
    Keeps Kernel.StatsKept (if a then (Prog.panic m : K Unit).bind fun _ => p else p) :=
  keeps_ite (keeps_panic m) hp

theorem keeps_sched (ctx : Ctx) : Keeps Kernel.StatsKept (sched ctx) := by
  unfold sched
  simp only [Prog.bind_eq]
  refine keeps_bind keeps_curproc fun p => keeps_bind (keeps_reads _) fun held => keeps_guard ?_
  refine keeps_bind (keeps_reads _) fun more => keeps_guard (keeps_bind (keeps_reads _) fun q => keeps_guard ?_)
  refine keeps_bind (keeps_modProc fun _ => ⟨rfl, rfl, fun h => ⟨h, rfl, rfl⟩⟩) fun _ => ?_
  refine keeps_bind (keeps_writes fun _ _ => statsKept_of_proc rfl) fun _ => ?_
  exact keeps_bind (keeps_writes fun _ _ => statsKept_of_proc rfl) fun _ => keeps_release _

/-- sleep clears consecutive_run while the process is RUNNING and stops it with the next write -/
theorem keeps_sleepLocked (p : Slot) (ch : Chan) (ctx : Ctx) : Keeps Kernel.StatsKept (sleepLocked p ch ctx) := by
  have hend : Keeps Kernel.StatsKept (Prog.set (fun _ k => k.modProc p fun q => { q with consecutiveRun := 0 })
      (Prog.set (fun _ k => k.modProc p fun q => { q with state := .sleeping }) (sched ctx))) := by
    refine keeps_set_set (fun _ k => ?_) (keeps_sched ctx)
    rw [modProc_modProc]
    exact statsKept_modProc (.stop rfl rfl (by simp))
  unfold sleepLocked
  simp only [Prog.bind_eq]
  refine keeps_bind (keeps_modProc fun _ => ⟨rfl, rfl, fun h => ⟨h, rfl, rfl⟩⟩) fun _ => ?_
  exact keeps_bind (keeps_reads _) fun _ => keeps_ite (keeps_bind (keeps_addCount _ _) fun _ => hend) hend

theorem keeps_sleep (ch : Chan) (lk : Option Lock) (ctx : Ctx) : Keeps Kernel.StatsKept (sleep ch lk ctx) := by
  refine keeps_bind (keeps_reads _) fun o => ?_
  cases o with
  | none => exact keeps_panic _
  | some p =>
    refine keeps_ite (keeps_bind (keeps_acquire _) fun _ => ?_) (keeps_sleepLocked p ch ctx)
    cases lk with
    | none => exact keeps_sleepLocked p ch ctx
    | some l => exact keeps_bind (keeps_release l) fun _ => keeps_sleepLocked p ch ctx

theorem keeps_yield : Keeps Kernel.StatsKept yield :=
  keeps_bind (keeps_acquire _) fun _ => keeps_bind keeps_curproc fun _ =>
    keeps_bind (keeps_makeRunnable (fun _ _ => rfl) (fun _ _ => rfl) fun _ _ => rfl) fun _ => keeps_sched _

theorem keeps_kill (pid : Int) : Keeps Kernel.StatsKept (kill pid) := by
  refine keeps_bind (keeps_acquire _) fun _ => keeps_bind (keeps_reads _) fun k => ?_
  have hend : ∀ n : Int, Keeps Kernel.StatsKept (do release .ptable; return n : K Int) := fun n =>
    keeps_bind (keeps_release _) fun _ => keeps_ret n
  cases k.findPid pid with
  | none => exact hend _
  | some i =>
    refine keeps_bind (keeps_modProc fun _ => ⟨rfl, rfl, fun h => ⟨h, rfl, rfl⟩⟩) fun _ => keeps_bind (keeps_reads _) fun p => ?_
    refine keeps_ite (keeps_bind ?_ fun _ => hend 0) (hend 0)
    exact keeps_makeRunnable (fun _ _ => rfl) (fun _ _ => rfl) fun _ _ => rfl

theorem keeps_forkFinish (np : Slot) : Keeps Kernel.StatsKept (forkFinish np) :=
  keeps_bind (keeps_reads _) fun _ => keeps_bind (keeps_acquire _) fun _ =>
    keeps_bind (keeps_makeRunnable (fun _ _ => rfl) (fun _ _ => rfl) fun _ _ => rfl) fun _ =>
      keeps_bind (keeps_release _) fun _ => keeps_ret _

theorem keeps_exit : Keeps Kernel.StatsKept exit := by
  have hpass : ∀ cur i, Keeps Kernel.StatsKept (passToInit cur i) := fun cur i =>
    keeps_bind (keeps_reads _) fun _ => keeps_ite
      (keeps_bind (keeps_writes fun _ _ => statsKept_modProc ⟨rfl, rfl, fun h => ⟨h, rfl, rfl⟩⟩) fun _ =>
        keeps_bind (keeps_reads _) fun _ => keeps_ite (keeps_bind (keeps_reads _) fun _ => keeps_wakeup1 _) (keeps_ret ()))
      (keeps_ret ())
  unfold exit
  simp only [Prog.bind_eq]
  refine keeps_bind keeps_curproc fun cur => keeps_bind (keeps_reads _) fun _ => keeps_guard ?_
  refine keeps_bind (keeps_acquire _) fun _ => keeps_bind (keeps_reads _) fun _ => keeps_bind (keeps_wakeup1 _) fun _ => ?_
  refine keeps_bind (keeps_forEach _ (hpass cur)) fun _ => keeps_bind (keeps_modProc fun p => ?_) fun _ => keeps_sched _
  exact .stop rfl rfl (by simp)

theorem keeps_waitRound (cur : Slot) : Keeps Kernel.StatsKept (waitRound cur) := by
  refine keeps_bind (keeps_reads _) fun k => ?_
  obtain ⟨havekids, o⟩ := k.waitScan cur slots false
  cases o with
  | some i =>
    refine keeps_bind (keeps_reads _) fun _ => keeps_bind (keeps_modProc fun p => ?_) fun _ =>
      keeps_bind (keeps_release _) fun _ => keeps_ret _
    exact .stop rfl rfl (by simp [Proc.reaped])
  | none =>
    refine keeps_bind (keeps_reads _) fun _ => keeps_ite ?_ ?_
    · exact keeps_bind (keeps_release _) fun _ => keeps_ret _
    · exact keeps_bind (keeps_sleepLocked _ _ _) fun _ => keeps_ret _

theorem keeps_wait : Keeps Kernel.StatsKept wait :=
  keeps_bind keeps_curproc fun _ => keeps_bind (keeps_acquire _) fun _ => keeps_waitRound _

theorem statsKept_setDeadline (k : Kernel) (i : Slot) (d : Int) : k.StatsKept (k.setDeadline i d) := by
  intro j
  have hproc : (k.setDeadline i d).proc =
      update k.proc i { k.proc i with schedLevel := 0, schedClass := 1, deadline := d } := by
    unfold Kernel.setDeadline
    simp only
    split_ifs <;> rfl
  rw [hproc]
  by_cases hj : j = i
  · rw [hj, update_self]
    exact ⟨rfl, rfl, fun h => ⟨h, rfl, rfl⟩⟩
  · rw [update_of_ne hj]
    exact .refl _

theorem keeps_setDeadlineForProcess (pid d : Int) : Keeps Kernel.StatsKept (setDeadlineForProcess pid d) := by
  refine keeps_ite (keeps_bind keeps_cprintf fun _ => keeps_ret _) ?_
  refine keeps_bind (keeps_acquire _) fun _ => keeps_bind (keeps_reads _) fun k => ?_
  cases k.findPid pid with
  | none => exact keeps_bind (keeps_release _) fun _ => keeps_ret _
  | some i =>
    exact keeps_bind (keeps_writes fun _ k => statsKept_setDeadline k i d) fun _ => keeps_bind keeps_cprintf fun _ =>
      keeps_bind (keeps_release _) fun _ => keeps_ret _

theorem moveLevelCount_proc (k : Kernel) (i : Slot) : (k.moveLevelCount i).proc = k.proc := by
  unfold Kernel.moveLevelCount
  split_ifs <;> rfl

theorem keeps_changeSchedLevel (pid t : Int) : Keeps Kernel.StatsKept (changeSchedLevel pid t) := by
  refine keeps_ite (keeps_bind keeps_cprintf fun _ => keeps_ret _) ?_
  refine keeps_bind (keeps_acquire _) fun _ => keeps_bind (keeps_reads _) fun k => ?_
  cases k.findPid pid with
  | none => exact keeps_bind (keeps_release _) fun _ => keeps_ret _
  | some i =>
    refine keeps_bind (keeps_reads _) fun p => keeps_ite (keeps_bind keeps_cprintf fun _ => keeps_ret _) ?_
    refine keeps_bind (keeps_writes fun _ k => statsKept_of_proc (moveLevelCount_proc k i)) fun _ => ?_
    refine keeps_bind keeps_cprintf fun _ => keeps_bind (keeps_modProc fun p => ?_) fun _ =>
      keeps_bind (keeps_release _) fun _ => keeps_ret _
    exact ⟨rfl, rfl, fun h => ⟨h, rfl, rfl⟩⟩

theorem keeps_agingScan (n : Int) (is : List Slot) : Keeps Kernel.StatsKept (agingScan n is) := by
  induction is with
  | nil => exact keeps_ret _
  | cons i is ih =>
    have hcheck : Keeps Kernel.StatsKept (agingCheck n i) :=
      keeps_bind (keeps_reads _) fun _ => keeps_ite
        (keeps_bind (keeps_modProc fun _ => ⟨rfl, rfl, fun h => ⟨h, rfl, rfl⟩⟩) fun _ =>
          keeps_bind (keeps_reads _) fun _ => keeps_ret _) (keeps_ret _)
    exact keeps_bind hcheck fun _ => keeps_ite (keeps_ret _) ih

theorem keeps_agingSection (a : Aging) : Keeps Kernel.StatsKept (agingSection a) := by
  obtain ⟨n, ph⟩ := a
  cases ph with
  | start =>
    exact keeps_bind (keeps_acquire _) fun _ => keeps_bind (keeps_agingScan _ _) fun _ =>
      keeps_bind (keeps_release _) fun _ => keeps_ret _
  | window i => exact keeps_bind (keeps_reads _) fun _ => keeps_ret _
  | raise i pid => exact keeps_bind (keeps_changeSchedLevel pid 1) fun _ => keeps_ret _
  | resume i =>
    exact keeps_bind (keeps_acquire _) fun _ => keeps_bind (keeps_modProc fun _ => ⟨rfl, rfl, fun h => ⟨h, rfl, rfl⟩⟩) fun _ =>
      keeps_bind (keeps_agingScan _ _) fun _ => keeps_bind (keeps_release _) fun _ => keeps_ret _

theorem keeps_clockTick : Keeps Kernel.StatsKept clockTick :=
  keeps_bind (keeps_acquire _) fun _ => keeps_bind (keeps_writes fun _ _ => statsKept_of_proc rfl) fun _ =>
    keeps_bind (keeps_reads _) fun _ => keeps_bind (keeps_wakeup _) fun _ => keeps_bind (keeps_release _) fun _ => keeps_ret _

theorem keeps_resumed (i : Slot) : Keeps Kernel.StatsKept (resumed i) := by
  have hchan : Keeps Kernel.StatsKept (modProc i fun p => { p with chan := .null }) :=
    keeps_modProc fun _ => ⟨rfl, rfl, fun h => ⟨h, rfl, rfl⟩⟩
  have hend : Keeps Kernel.StatsKept (do release .ptable; return .ret 0 : K Exit) :=
    keeps_bind (keeps_release _) fun _ => keeps_ret _
  refine keeps_bind (keeps_reads _) fun p => ?_
  cases p.context with
  | forkret | yield => exact hend
  | exit => exact keeps_panic _
  | wait => exact keeps_bind hchan fun _ => keeps_waitRound i
  | _ => exact keeps_bind hchan fun _ => hend

/-! ## The scheduler and allocproc -/

theorem statsKept_afterChoice (k : Kernel) (c : Cpu) : k.StatsKept (k.afterChoice c) := by
  intro i
  have hproc : (k.choose (k.cpu c).nextrrp).2.2 = k ∨ (k.choose (k.cpu c).nextrrp).2.2 = k.bumpWaited := by
    unfold Kernel.choose
    split_ifs
    · exact .inl rfl
    · cases k.rrLoop (k.cpu c).nextrrp <;> exact .inl rfl
    · exact .inr rfl
    · exact .inl rfl
  show (k.proc i).StatsKept ((k.choose (k.cpu c).nextrrp).2.2.proc i)
  rcases hproc with h | h
  · rw [h]
    exact .refl _
  · rw [h]
    simp only [Kernel.bumpWaited]
    split_ifs
    · exact ⟨rfl, rfl, fun h => ⟨h, rfl, rfl⟩⟩
    · exact .refl _

/-- the scheduler's writes to the process it has chosen, up to tickslock -/
def Kernel.chosen (k : Kernel) (c : Cpu) (i : Slot) : Kernel :=
  let k' := ((k.afterChoice c).setCpuProc c (some i)).modProc i fun p => { p with state := .running }
  (k'.addCount (k'.proc i) (-1)).modProc i fun p => { p with consecutiveRun := 0, rrTicks := 0, waitedTicks := 0 }

/-- what a pass does from tickslock on -/
def dispatchEnd (i : Slot) : K (Option (Slot × Exit)) := do
  withLock .ticks (writes fun _ k => k.modProc i fun p => { p with lastRun := int32 k.ticks })
  writes fun c k => k.swtch c (some i)
  let r ← resumed i
  return some (i, r)

theorem chosen_stats (k : Kernel) (c : Cpu) (i : Slot) :
    (k.proc i).Started ((k.chosen c i).proc i) ∧ ∀ j, j ≠ i → (k.proc j).StatsKept ((k.chosen c i).proc j) := by
  have hchoice := statsKept_afterChoice k c
  refine ⟨?_, fun j hj => ?_⟩
  · have hself : (k.chosen c i).proc i =
        { (k.afterChoice c).proc i with state := .running, consecutiveRun := 0, rrTicks := 0, waitedTicks := 0 } := by
      simp [Kernel.chosen, Kernel.setCpuProc]
    rw [hself]
    exact ⟨(hchoice i).most, (hchoice i).total, fun _ => ⟨rfl, rfl⟩⟩
  · have hne : (k.chosen c i).proc j = (k.afterChoice c).proc j := by simp [Kernel.chosen, Kernel.setCpuProc, hj]
    rw [hne]
    exact hchoice j

theorem keeps_dispatchEnd (i : Slot) : Keeps Kernel.StatsKept (dispatchEnd i) := by
  refine keeps_bind (keeps_withLock (keeps_writes fun _ _ => statsKept_modProc ⟨rfl, rfl, fun h => ⟨h, rfl, rfl⟩⟩)) fun _ => ?_
  exact keeps_bind (keeps_writes fun _ _ => statsKept_of_proc rfl) fun _ => keeps_bind (keeps_resumed i) fun _ => keeps_ret _

theorem run_dispatch_chosen (hl : lk .ptable = none) (hi : (k.choose (k.cpu c).nextrrp).1 = some i) :
    dispatch.run c ⟨lk, k⟩ = (dispatchEnd i).run c ⟨update lk .ptable (some c), k.chosen c i⟩ := by
  simp only [dispatch, scheduler, dispatchEnd, Prog.bind_eq, run_bind, run_acquire_free hl, andThen_ok, run_reads, run_writes,
    hi, run_modProc, run_addCount, Prog.pure_eq, run_ret]
  show Outcome.andThen (Outcome.andThen (Prog.run c (withLock Lock.ticks _) ⟨_, k.chosen c i⟩) _) _ = _
  cases Prog.run c (withLock .ticks (writes fun _ k => k.modProc i fun p => { p with lastRun := int32 k.ticks }))
    ⟨update lk .ptable (some c), k.chosen c i⟩ with
  | ok a w => simp only [andThen_ok, run_bind, run_ret]
  | panic m w => rfl
  | spin l w => rfl

/-- **dispatch** starts the process it chooses and keeps the others -/
theorem dispatch_stats (hl : lk .ptable = none) (j : Slot) :
    ((k.choose (k.cpu c).nextrrp).1 = some j → (k.proc j).Started ((dispatch.run c ⟨lk, k⟩).world.st.proc j)) ∧
    ((k.choose (k.cpu c).nextrrp).1 ≠ some j → (k.proc j).StatsKept ((dispatch.run c ⟨lk, k⟩).world.st.proc j)) := by
  cases hch : (k.choose (k.cpu c).nextrrp).1 with
  | none =>
    refine ⟨fun h => (by cases h), fun _ => ?_⟩
    simp only [dispatch, scheduler, Prog.bind_eq, run_bind, run_acquire_free hl, andThen_ok, run_reads, run_writes, hch]
    rw [run_release_held (update_self ..)]
    exact statsKept_afterChoice k c j
  | some i =>
    rw [run_dispatch_chosen hl hch]
    obtain ⟨hst, hne⟩ := chosen_stats k c i
    have hend := keeps_dispatchEnd i c ⟨update lk .ptable (some c), k.chosen c i⟩ j
    constructor
    · intro h
      rw [Option.some.injEq] at h
      subst h
      exact hst.kept hend
    · intro h
      exact (hne j fun e => h (by rw [e])).trans hend

theorem alloc_stats (k : Kernel) (i : Slot) :
    ((k.alloc i).proc i).Fresh ∧ ∀ j, j ≠ i → (k.proc j).StatsKept ((k.alloc i).proc j) := by
  refine ⟨?_, fun j hj => ?_⟩
  · have hself : (k.alloc i).proc i = Proc.embryo k.nextpid (k.proc i) := modProc_self k i _
    rw [hself]
    exact ⟨rfl, rfl, by simp [Proc.embryo]⟩
  · have hne : (k.alloc i).proc j = k.proc j := modProc_ne k i _ hj
    rw [hne]
    exact .refl _

/-- a run that has cleared the slot allocproc finds, and kept the others -/
def Kernel.Allocates {α : Type} (k : Kernel) (j : Slot) (o : Outcome Lock Cpu Kernel α) : Prop :=
  (k.findUnused = some j → (o.world.st.proc j).Fresh) ∧ (k.findUnused ≠ some j → (k.proc j).StatsKept (o.world.st.proc j))

theorem allocates_andThen {α β : Type} {o : Outcome Lock Cpu Kernel α} {f : α → K β} (h : k.Allocates j o)
    (hf : ∀ a, Keeps Kernel.StatsKept (f a)) : k.Allocates j (o.andThen fun a w => (f a).run c w) := by
  cases o with
  | ok a w => exact ⟨fun hj => (h.1 hj).kept (hf a c w j), fun hj => (h.2 hj).trans (hf a c w j)⟩
  | panic m w | spin m w => exact h

theorem allocprocLocked_stats (hl : lk .ptable = none) (j : Slot) :
    k.Allocates j (allocprocLocked.run c ⟨lk, k⟩) := by
  unfold Kernel.Allocates
  simp only [allocprocLocked, Prog.bind_eq, run_bind, run_acquire_free hl, andThen_ok, run_kernel]
  cases hf : k.findUnused with
  | none =>
    simp only [run_bind, run_release_held (update_self ..), andThen_ok, Prog.pure_eq, run_ret]
    exact ⟨fun h => (by cases h), fun _ => .refl _⟩
  | some i =>
    simp only [run_bind, run_writes, andThen_ok, run_release_held (update_self ..), Prog.pure_eq, run_ret]
    obtain ⟨hfresh, hne⟩ := alloc_stats k i
    constructor
    · intro h
      rw [Option.some.injEq] at h
      subst h
      exact hfresh
    · intro h
      exact hne j fun e => h (by rw [e])

theorem userinit_stats (hl : lk .ptable = none) (j : Slot) :
    k.Allocates j (userinit.run c ⟨lk, k⟩) := by
  have hfield : ∀ (i : Slot) (f : Proc → Proc), Proc.Untouched f → Keeps Kernel.StatsKept (modProc i f) :=
    fun _ _ hf => keeps_modProc hf
  simp only [userinit, allocproc, Prog.bind_eq, run_bind]
  refine allocates_andThen (allocates_andThen (allocprocLocked_stats hl j) fun o => ?_) fun o => ?_
  · cases o with
    | none => exact keeps_ret _
    | some i =>
      simp only [Bool.true_eq_false, if_false]
      exact keeps_bind (hfield i _ fun _ => ⟨rfl, rfl, fun h => ⟨h, rfl, rfl⟩⟩) fun _ => keeps_ret _
  · cases o with
    | none => exact keeps_panic _
    | some i =>
      refine keeps_bind (hfield i _ fun _ => ⟨rfl, rfl, fun h => ⟨h, rfl, rfl⟩⟩) fun _ => ?_
      refine keeps_bind (keeps_writes fun _ _ => statsKept_of_proc rfl) fun _ => ?_
      refine keeps_bind (hfield i _ fun _ => ⟨rfl, rfl, fun h => ⟨h, rfl, rfl⟩⟩) fun _ => keeps_bind (keeps_acquire _) fun _ => ?_
      exact keeps_bind (keeps_makeRunnable (fun _ _ => rfl) (fun _ _ => rfl) fun _ _ => rfl) fun _ => keeps_release _

/-! ## A step of the process machine -/

variable {s : Sys} {f : α → Sys → Sys}

theorem exec_keeps (hp : Keeps Kernel.StatsKept p) (hf : ∀ a s, (f a s).w = s.w) :
    s.k.StatsKept (s.exec c p f).k := by
  have h := hp c s.w
  unfold Sys.exec
  cases hr : p.run c s.w with
  | ok a w =>
    rw [hr] at h
    show s.k.StatsKept (f a { s with w := w }).w.st
    rw [hf]
    exact h
  | panic m w => rw [hr] at h; exact h
  | spin l w => exact refl_of Kernel.StatsKept s.k

theorem enters_free (he : s.enters c p = true) : s.w.locks .ptable = none := by
  unfold Sys.enters at he
  cases hr : p.run c s.w with
  | spin l w => rw [hr] at he; cases he
  | ok a w | panic m w => rw [hr] at he; exact of_decide_eq_true he

theorem exec_allocates (hf : ∀ a s, (f a s).w = s.w)
    (h : s.k.Allocates j (p.run c s.w)) (he : s.enters c p = true) :
    (s.k.findUnused = some j → ((s.exec c p f).k.proc j).Fresh) ∧
      (s.k.findUnused ≠ some j → (s.k.proc j).StatsKept ((s.exec c p f).k.proc j)) := by
  unfold Sys.enters at he
  unfold Sys.exec
  cases hr : p.run c s.w with
  | ok a w =>
    rw [hr] at h
    show (_ → ((f a { s with w := w }).w.st.proc j).Fresh) ∧ (_ → (s.k.proc j).StatsKept ((f a { s with w := w }).w.st.proc j))
    rw [hf]
    exact h
  | panic m w => rw [hr] at h; exact h
  | spin l w => rw [hr] at he; cases he

/-- a program that has to take ptable.lock first does nothing while it is taken -/
theorem held_world (hp : ∃ q, p = .acquire .ptable q) {w : KWorld} (hl : w.locks .ptable ≠ none) :
    (p.run c w).world = w := by
  obtain ⟨q, rfl⟩ := hp
  cases hd : w.locks .ptable with
  | none => exact absurd hd hl
  | some d =>
    simp only [Prog.run, hd]
    split_ifs <;> rfl

theorem exec_outside (hp : ∃ q, p = .acquire .ptable q)
    (hf : ∀ a s, (f a s).w = s.w) (he : s.enters c p = false) : (s.exec c p f).k = s.k := by
  have hworld : s.w.locks .ptable ≠ none → (p.run c s.w).world = s.w := fun hl => held_world hp hl
  unfold Sys.enters at he
  unfold Sys.exec
  cases hr : p.run c s.w with
  | ok a w =>
    rw [hr] at he hworld
    show (f a { s with w := w }).w.st = s.w.st
    rw [hf]
    exact congrArg World.st (hworld (of_decide_eq_false he))
  | panic m w =>
    rw [hr] at he hworld
    exact congrArg World.st (hworld (of_decide_eq_false he))
  | spin l w => rfl

theorem write_keeps {f : Kernel → Kernel} (h : ∀ k : Kernel, k.StatsKept (f k)) : s.k.StatsKept (s.write f).k := h s.k

/-- a step that neither creates nor dispatches a process, and is not the accounting of a tick -/
def Op.plain : Op → Bool
  | .userinit _ | .forkAlloc _ | .dispatch _ | .account _ => false
  | _ => true

theorem step_keeps (op : Op) (hop : op.plain = true) : s.k.StatsKept (step s op).k := by
  have hrefl : s.k.StatsKept s.k := refl_of Kernel.StatsKept s.k
  have hcopy : ∀ i np, s.k.StatsKept ((s.k.modProc np fun p => { p with context := .forkret }).adopt np i) := by
    intro i np
    have h1 : s.k.StatsKept (s.k.modProc np fun p => { p with context := .forkret }) :=
      statsKept_modProc ⟨rfl, rfl, fun h => ⟨h, rfl, rfl⟩⟩
    exact trans_of Kernel.StatsKept h1 (statsKept_modProc ⟨rfl, rfl, fun h => ⟨h, rfl, rfl⟩⟩)
  cases op <;> simp only [step] <;> repeat' split
  -- a call that is not made leaves the state; what is left are the calls, in the order of Op
  all_goals first | exact hrefl | exact absurd hop Bool.false_ne_true | skip
  · exact write_keeps fun k => statsKept_modProc (.stop rfl rfl (by simp))
  · exact hcopy _ _
  · exact exec_keeps (keeps_forkFinish _) fun _ _ => rfl
  · exact exec_keeps keeps_yield fun _ _ => rfl
  · exact exec_keeps (keeps_sleep _ _ _) fun _ _ => rfl
  · exact exec_keeps (keeps_wakeup _) fun _ _ => rfl
  · exact exec_keeps (keeps_kill _) fun _ _ => rfl
  · exact exec_keeps keeps_exit fun _ _ => rfl
  · exact exec_keeps keeps_wait fun _ _ => logWait_w _ _
  · refine write_keeps fun k => statsKept_modProc ?_
    unfold Proc.execed
    split_ifs <;> exact ⟨rfl, rfl, fun h => ⟨h, rfl, rfl⟩⟩
  · exact exec_keeps (keeps_setDeadlineForProcess _ _) fun _ _ => rfl
  · exact exec_keeps (keeps_changeSchedLevel _ _) fun _ _ => rfl
  · exact exec_keeps (keeps_agingSection _) fun _ _ => setAging_w _
  · exact exec_keeps keeps_clockTick fun _ _ => rfl
  · exact write_keeps fun k => statsKept_modProc ⟨rfl, rfl, fun h => ⟨h, rfl, rfl⟩⟩

/-- what a step does to the statistics of slot i -/
structure Sys.StepStats (s : Sys) (op : Op) (i : Slot) : Prop where
  fresh : s.allocatee op = some i → ((step s op).k.proc i).Fresh
  started : s.allocatee op ≠ some i → s.dispatchee op = some i → (s.k.proc i).Started ((step s op).k.proc i)
  kept : s.allocatee op ≠ some i → s.dispatchee op ≠ some i → (s.k.proc i).StatsKept ((step s op).k.proc i)

/-- a step that creates and dispatches nobody -/
theorem stats_plain {op : Op} (ha : s.allocatee op = none) (hd : s.dispatchee op = none) (h : s.k.StatsKept (step s op).k) :
    s.StepStats op i :=
  ⟨fun e => (by rw [ha] at e; cases e), fun _ e => (by rw [hd] at e; cases e), fun _ _ => h i⟩

theorem stats_userinit (c : Cpu) (i : Slot) : s.StepStats (.userinit c) i := by
  by_cases hg : s.ready c ∧ s.k.initproc = none
  swap
  · refine stats_plain (if_neg fun h => hg ⟨h.1, h.2.1⟩) rfl ?_
    simp only [step, if_neg hg]
    exact refl_of Kernel.StatsKept s.k
  cases he : s.enters c userinit with
  | false =>
    refine stats_plain (if_neg fun h => (by rw [he] at h; cases h.2.2)) rfl (statsKept_of_proc ?_)
    simp only [step, if_pos hg]
    rw [exec_outside (p := userinit) ⟨_, rfl⟩ (fun _ _ => rfl) he]
  | true =>
    have ha : s.allocatee (.userinit c) = s.k.findUnused := if_pos ⟨hg.1, hg.2, he⟩
    have hl : s.w.locks .ptable = none := enters_free he
    have h := exec_allocates (f := fun _ s => s) (fun _ _ => rfl) (userinit_stats (c := c) (k := s.k) hl i) he
    have hstep : step s (.userinit c) = s.exec c userinit fun _ s => s := by simp only [step, if_pos hg]
    rw [← hstep] at h
    exact ⟨fun e => h.1 (ha ▸ e), fun _ e => (by cases e), fun e _ => h.2 (ha ▸ e)⟩

/-- how fork goes on behind allocproc -/
def Sys.afterAlloc (cur : Slot) (r : Option Slot) (s : Sys) : Sys :=
  match r with
  | none => s
  | some np => s.setFrame cur (.forked np)

theorem afterAlloc_w (cur : Slot) (r : Option Slot) (s : Sys) : (Sys.afterAlloc cur r s).w = s.w := by
  cases r <;> rfl

theorem stats_forkAlloc (c : Cpu) (i : Slot) : s.StepStats (.forkAlloc c) i := by
  cases hc : s.idle c with
  | none =>
    refine stats_plain (if_neg fun h => h.1 hc) rfl ?_
    simp only [step, hc]
    exact refl_of Kernel.StatsKept s.k
  | some cur =>
    have hstep : step s (.forkAlloc c) = s.exec c allocprocLocked (Sys.afterAlloc cur) := by
      simp only [step, hc]
      rfl
    cases he : s.enters c allocprocLocked with
    | false =>
      refine stats_plain (if_neg fun h => (by rw [he] at h; cases h.2)) rfl (statsKept_of_proc ?_)
      rw [hstep, exec_outside (p := allocprocLocked) ⟨_, rfl⟩ (afterAlloc_w cur) he]
    | true =>
      have ha : s.allocatee (.forkAlloc c) = s.k.findUnused := if_pos ⟨by rw [hc]; simp, he⟩
      have h := exec_allocates (afterAlloc_w cur) (allocprocLocked_stats (c := c) (k := s.k) (enters_free he) i) he
      rw [← hstep] at h
      exact ⟨fun e => h.1 (ha ▸ e), fun _ e => (by cases e), fun e _ => h.2 (ha ▸ e)⟩

/-- how the machine goes on behind a dispatch -/
def Sys.afterDispatch (s : Sys) (r : Option (Slot × Exit)) (s' : Sys) : Sys :=
  match r with
  | some (i, e) => if (s.k.proc i).context = .wait then s'.logWait i e else s'
  | none => s'

theorem afterDispatch_w (r : Option (Slot × Exit)) (s' : Sys) : (s.afterDispatch r s').w = s'.w := by
  unfold Sys.afterDispatch
  cases r with
  | none => rfl
  | some p =>
    obtain ⟨i, e⟩ := p
    simp only
    split_ifs
    · exact logWait_w i e
    · rfl

theorem stats_dispatch (c : Cpu) (i : Slot) : s.StepStats (.dispatch c) i := by
  by_cases hg : s.ready c ∧ (s.k.cpu c).proc = none
  swap
  · refine stats_plain rfl (if_neg fun h => hg ⟨h.1, h.2.1⟩) ?_
    simp only [step, if_neg hg]
    exact refl_of Kernel.StatsKept s.k
  have hstep : step s (.dispatch c) = s.exec c dispatch s.afterDispatch := by
    simp only [step, if_pos hg]
    rfl
  cases he : s.enters c dispatch with
  | false =>
    refine stats_plain rfl (if_neg fun h => (by rw [he] at h; cases h.2.2)) (statsKept_of_proc ?_)
    rw [hstep, exec_outside (p := dispatch) ⟨_, rfl⟩ afterDispatch_w he]
  | true =>
    have hd : s.dispatchee (.dispatch c) = (s.k.choose (s.k.cpu c).nextrrp).1 := if_pos ⟨hg.1, hg.2, he⟩
    have h := dispatch_stats (c := c) (k := s.k) (enters_free he) i
    have hk : (step s (.dispatch c)).k = (dispatch.run c ⟨s.w.locks, s.k⟩).world.st := by
      show _ = (dispatch.run c s.w).world.st
      unfold Sys.enters at he
      rw [hstep]
      unfold Sys.exec
      cases hr : dispatch.run c s.w with
      | ok a w =>
        show (s.afterDispatch a { s with w := w }).w.st = w.st
        rw [afterDispatch_w]
      | panic m w => rfl
      | spin l w => rw [hr] at he; cases he
    rw [← hk] at h
    exact ⟨fun e => (by cases e), fun _ e => h.1 (hd ▸ e), fun _ e => h.2 (hd ▸ e)⟩

/-- **A step and the statistics.** -/
theorem step_stats (op : Op) (hop : ∀ c, op ≠ .account c) (i : Slot) : s.StepStats op i := by
  cases op with
  | account c => exact absurd rfl (hop c)
  | userinit c => exact stats_userinit c i
  | forkAlloc c => exact stats_forkAlloc c i
  | dispatch c => exact stats_dispatch c i
  | _ => exact stats_plain rfl rfl (step_keeps _ rfl)

end Xv6
