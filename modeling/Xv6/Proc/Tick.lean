/-
The timer interrupt on CPU 0: the clock tick under tickslock, which wakes the sleepers on `&ticks`, and then
update_wait_time, with other CPUs taking steps between its critical sections.

wakeup1 stamps a process that it wakes under tickslock, which the clock tick already holds, so one sleeper on `&ticks`
is enough for panic("acquire"). update_wait_time raises a process through a lookup of its pid after it gave ptable.lock
up; if the process it finds is at level 1 by then, change_sched_level returns with ptable.lock held, and the next acquire
panics.

Results:
- `irq_leak_panics`: a process raised in the window, and the next section of the interrupt panics.
- `timer_tick_returns`: in every run without a leak of ptable.lock the interrupt returns.
- `timer_tick_panics`: a sleeper on `&ticks`, and a process that another CPU raises in the window.
-/
import Xv6.Proc.Aging

namespace Xv6

open LockProg Runs

variable {s : Sys}

/-- the interrupt's change_sched_level finds the process at level 1 and keeps ptable.lock -/
theorem irq_leak_panics (h : s.Ok) {a : Aging} (ha : s.irq 0 = some a) (hu : ¬ s.Unlocked (.age 0)) :
    (run s [.age 0, .age 0]).panicked 0 = some "acquire" := by
  simp only [Sys.Unlocked, Kernel.atPid, not_forall, not_not] at hu
  obtain ⟨pid, hpid, j, hj, hlev⟩ := hu
  obtain ⟨n, i, hraise⟩ := raising_some.1 hpid
  have hp : s.panicked 0 = none := by
    by_contra hp
    simp [Sys.agingOf, hp] at hraise
  have hleak : step s (.age 0) = Sys.setIrq { s with w := ⟨held 0, s.k⟩ } 0 (some ⟨n, .resume i⟩) := by
    rw [step_age_raise h.locks hraise, hj]
    simp [hlev, Sys.setAging, ha]
  have hnext : (step s (.age 0)).agingOf 0 = some ⟨n, .resume i⟩ := by
    simp [hleak, Sys.agingOf, Sys.setIrq, hp]
  -- resume starts with an acquire of the lock that CPU 0 kept
  have hrun : (agingSection ⟨n, .resume i⟩).run 0 (step s (.age 0)).w = .panic "acquire" ⟨held 0, s.k⟩ := by
    have hheld : held 0 .ptable = some 0 := rfl
    simp [hleak, Sys.setIrq, agingSection, run_acquire_held hheld]
  show (step (step s (.age 0)) (.age 0)).panicked 0 = _
  rw [step, hnext]
  simp [Sys.exec, hrun]

/-- what the timer interrupt does in the state s: the clock tick, a section of update_wait_time, and the rest of the call -/
structure Sys.TickReturns (s : Sys) : Prop where
  tick : s.ready 0 → (∀ i, ¬ s.k.tickSleeper i) →
    (step s .tick).panicked = s.panicked ∧ ∃ n, (step s .tick).irq 0 = some ⟨n, .start⟩
  sleeper : s.ready 0 → ∀ i, s.k.tickSleeper i → (step s .tick).panicked 0 = some "acquire"
  age : s.irq 0 ≠ none → s.Unlocked (.age 0) → (step s (.age 0)).panicked = s.panicked
  raised : s.irq 0 ≠ none → ¬ s.Unlocked (.age 0) → (run s [.age 0, .age 0]).panicked 0 = some "acquire"
  returns : ∀ ops, Along step Sys.Unlocked s ops → 3 * NPROC + 1 ≤ turns none s ops →
    ∃ pre, pre <+: ops ∧ (run s pre).irq 0 = none

theorem tickReturns (h : s.Ok) (h1 : s.OneClock) : s.TickReturns where
  tick := by
    intro hr hn
    rw [step_tick h.locks hr hn]
    exact ⟨rfl, int32 s.k.ticked.ticks, by simp [Sys.setIrq]⟩
  sleeper := by
    intro hr i hi
    obtain ⟨k', hk⟩ := step_tick_panic h.locks hr hi
    simp [hk]
  age := by
    intro _ hu
    cases ha : s.agingOf 0 with
    | none => simp only [step, ha]
    | some a => exact (step_age h h1 ha hu).1
  raised := by
    intro hirq hu
    obtain ⟨a, ha⟩ := Option.ne_none_iff_exists'.1 hirq
    exact irq_leak_panics h ha hu
  returns := by
    intro ops ha ht
    cases hc : s.call none with
    | none => exact ⟨[], by simp, hc⟩
    | some a => exact returns_of_turns h h1 ha hc ((left_le _).trans ht)

/-- **The timer interrupt.** In every run in which no clock tick finds a sleeper on `&ticks` and no change_sched_level, that
of update_wait_time after its window included, finds the process already at the level: the locks are free between steps; the
clock tick goes through exactly when no process sleeps on `&ticks`, and panics on a lock it holds otherwise; a section of
update_wait_time does not panic, and the next one does exactly when the process it is about to raise was raised by then; and
the interrupt returns when it takes its turns, whatever the other CPUs do. -/
theorem timer_tick_returns (ops : List Op) (h : Along step Sys.Unlocked boot ops) :
    (run boot ops).w.locks = free ∧ (run boot ops).TickReturns := by
  have hinv : (run boot ops).Ok ∧ (run boot ops).OneClock :=
    along_inv (P := fun s => s.Ok ∧ s.OneClock)
      (fun _ _ hu hs => ⟨step_ok hs.1 ((step_free_iff hs.1).2 hu), step_oneClock hs.1 hs.2 hu⟩) h ⟨boot_ok, fun _ _ => rfl⟩
  exact ⟨hinv.1.locks, tickReturns hinv.1 hinv.2⟩

/-- init forks pids 2 and 3, pid 2 runs on CPU 1, and two calls of update_wait_time leave pid 3 at the FCFS level with an
arrival time long past -/
def duePid3 : List Op :=
  [.userinit 0, .dispatch 0, .forkAlloc 0, .forkCopy 0, .forkFinish 0, .forkAlloc 0, .forkCopy 0, .forkFinish 0, .dispatch 1,
    .updateWaitTime 0 2147483647, .age 0, .age 0, .age 0, .age 0, .changeLevel 0 3 2,
    .updateWaitTime 0 (-2147482649), .age 0, .age 0, .age 0, .age 0, .changeLevel 0 3 2]

/-- the interrupt finds pid 3 due, CPU 1 kills it in the window and yields before it is raised -/
def windowRun : List Op := duePid3 ++ [.tick, .age 0, .kill 1 3, .age 0, .yield 1]

theorem timer_tick_returns_windowRun : Along step Sys.Unlocked boot windowRun ∧
    (run boot windowRun).irq 0 = some ⟨1, .raise 2 3⟩ ∧ (step (run boot windowRun) (.age 0)).panicked 0 = none ∧
    (run (run boot windowRun) [.age 0, .age 0]).irq 0 = none := by
  have ha : Along step Sys.Unlocked boot windowRun := by decide +kernel
  refine ⟨ha, by decide +kernel, ?_, by decide +kernel⟩
  rw [(timer_tick_returns windowRun ha).2.age (by decide +kernel) (by decide +kernel)]
  decide +kernel

/-- init calls sleep(1), or pid 2 on CPU 1 raises pid 3 in the window of the interrupt -/
theorem timer_tick_panics :
    (run boot [.userinit 0, .dispatch 0, .sleep 0 .ticks, .tick]).panicked 0 = some "acquire" ∧
      (run boot (duePid3 ++ [.tick, .age 0, .changeLevel 1 3 1, .age 0, .age 0, .age 0])).panicked 0 = some "acquire" := by
  decide +kernel

end Xv6
