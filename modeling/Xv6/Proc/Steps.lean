/-
What each operation of the machine does from a state whose spinlocks are free: one equation per operation.
-/
import Xv6.Proc.Sim

namespace Xv6

open LockProg Runs Function

variable {s : Sys} {c : Cpu}

/-! ## Running a section -/

/-- s with the kernel k and the locks free -/
def Sys.to (s : Sys) (k : Kernel) : Sys := { s with w := ⟨free, k⟩ }

@[simp] theorem to_k (k : Kernel) : (s.to k).k = k := rfl
@[simp] theorem to_frame (k : Kernel) : (s.to k).frame = s.frame := rfl

theorem to_self (h : s.w.locks = free) : s.to s.k = s := by
  rcases s with ⟨⟨lk, k⟩, f, q, p, g⟩
  obtain rfl : lk = free := h
  rfl

theorem w_of_free (h : s.w.locks = free) : s.w = ⟨free, s.k⟩ := by
  rw [← h]; rfl

theorem exec_ok {α : Type} {p : K α} {f : α → Sys → Sys} {a : α} {k' : Kernel} (h : s.w.locks = free)
    (hr : p.run c ⟨free, s.k⟩ = .ok a ⟨free, k'⟩) : s.exec c p f = f a (s.to k') := by
  simp only [Sys.exec, w_of_free h, hr, Sys.to]

theorem cur_some {i : Slot} (h : s.cur c = some i) : s.ready c ∧ (s.k.cpu c).proc = some i := by
  unfold Sys.cur at h
  split_ifs at h with hr
  exact ⟨hr, h⟩

theorem idle_some {i : Slot} (h : s.idle c = some i) : s.cur c = some i ∧ s.frame i = .idle := by
  simpa [Sys.idle, Option.filter_eq_some_iff] using h

/-! ## Each operation from a state with the locks free -/

section Equations

-- the equations of step, generated once for the lemmas below
attribute [local simp] step

variable {i np : Slot} (hl : s.w.locks = free) {n : Int}

include hl

theorem step_userinit (hg : s.ready c ∧ s.k.initproc = none) (hu : s.k.findUnused = some i) :
    step s (.userinit c) = s.to (s.k.seeded i) := by
  rw [step, if_pos hg, exec_ok hl (run_userinit hu)]

theorem step_forkAlloc (hc : s.idle c = some i) : step s (.forkAlloc c) =
    match s.k.findUnused with
    | none => s
    | some np => (s.to (s.k.alloc np)).setFrame i (.forked np) := by
  simp only [step, hc]
  cases hu : s.k.findUnused with
  | none => rw [exec_ok hl (run_allocprocLocked.trans (by rw [hu])), to_self hl]
  | some np => rw [exec_ok hl (run_allocprocLocked.trans (by rw [hu]))]

theorem step_forkFinish (hc : s.cur c = some i) (hf : s.frame i = .copied np) : step s (.forkFinish c) =
    ((s.to (s.k.ready np fun t q => { q with lastRun := int32 t })).setFrame i .idle).logged
      (.forked i (s.k.proc np).pid) := by
  simp only [step, hc, hf]
  rw [exec_ok hl (run_forkFinish np)]

theorem step_dispatch_some (hg : s.ready c ∧ (s.k.cpu c).proc = none)
    (hi : (s.k.choose (s.k.cpu c).nextrrp).1 = some i) (hx : (s.k.proc i).context ≠ .exit) : step s (.dispatch c) =
      if (s.k.proc i).context = .wait then
        (s.to ((s.k.dispatched c i).resume c i).2).logWait i ((s.k.dispatched c i).resume c i).1
      else s.to ((s.k.dispatched c i).resume c i).2 := by
  rw [step, if_pos hg, exec_ok hl (run_dispatch_some hi hx)]

theorem step_dispatch_none (hg : s.ready c ∧ (s.k.cpu c).proc = none)
    (hi : (s.k.choose (s.k.cpu c).nextrrp).1 = none) : step s (.dispatch c) = s.to (s.k.afterChoice c) := by
  rw [step, if_pos hg, exec_ok hl (run_dispatch_none hi)]

theorem step_yield (hc : s.cur c = some i) : step s (.yield c) = s.to (s.k.yielded c i) := by
  simp only [step, hc]
  rw [exec_ok hl (run_yield (cur_some hc).2)]

theorem step_sleep {ch : Chan} (hc : s.idle c = some i) (hch : ch.external = true)
    (hs : (s.k.proc i).state = .running) : step s (.sleep c ch) = s.to (s.k.block c i ch .sleep) := by
  simp only [step, hc, hch, if_true]
  rw [exec_ok hl (run_sleep ch .sleep (cur_some (idle_some hc).1).2 hs)]

theorem step_wakeup {ch : Chan} (hr : s.ready c) : step s (.wakeup c ch) = s.to (s.k.wakeAll ch slots) := by
  rw [step, if_pos hr, exec_ok hl (run_wakeup ch)]

theorem step_kill {pid : Int} (hr : s.ready c) : step s (.kill c pid) =
    match s.k.findPid pid with
    | some i => s.to (s.k.kill i)
    | none => s := by
  rw [step, if_pos hr]
  cases hf : s.k.findPid pid with
  | none => rw [exec_ok hl ((run_kill pid).trans (by rw [hf])), to_self hl]
  | some j => rw [exec_ok hl ((run_kill pid).trans (by rw [hf]))]

theorem step_exit (hc : s.idle c = some i) (hi : s.k.initproc ≠ some i) :
    step s (.exit c) = s.to (s.k.exited c i) := by
  simp only [step, hc]
  rw [exec_ok hl (run_exit (cur_some (idle_some hc).1).2 hi)]

/-- init's exit panics before it takes a lock -/
theorem step_exit_init (hc : s.idle c = some i) (hi : s.k.initproc = some i) :
    step s (.exit c) = { s with panicked := update s.panicked c (some "init exiting") } := by
  have hcpu := (cur_some (idle_some hc).1).2
  have hr : exit.run c s.w = .panic "init exiting" s.w := by
    rw [w_of_free hl]
    simp only [exit, Prog.bind_eq, run_bind, run_curproc hcpu, andThen_ok, run_kernel, if_pos hi, run_panic, andThen_panic]
  simp only [step, hc, Sys.exec, hr]

theorem step_wait (hc : s.idle c = some i) (hs : (s.k.proc i).state = .running) :
    step s (.wait c) = (s.to (s.k.waited c i).2).logWait i (s.k.waited c i).1 := by
  simp only [step, hc]
  rw [exec_ok hl (run_wait (cur_some (idle_some hc).1).2 hs)]

theorem step_setDeadline {pid d : Int} (hr : s.ready c) : step s (.setDeadline c pid d) =
    if d < 0 then s
    else match s.k.findPid pid with
      | some i => s.to (s.k.setDeadline i d)
      | none => s := by
  rw [step, if_pos hr]
  have hrun := run_setDeadlineForProcess (c := c) (k := s.k) pid d
  split_ifs at hrun ⊢
  · rw [exec_ok hl hrun, to_self hl]
  · cases hf : s.k.findPid pid with
    | none => rw [exec_ok hl (hrun.trans (by rw [hf])), to_self hl]
    | some j => rw [exec_ok hl (hrun.trans (by rw [hf]))]

theorem step_changeLevel {pid t : Int} (hr : s.ready c) : step s (.changeLevel c pid t) =
    if t ≠ 1 ∧ t ≠ 2 then s
    else match s.k.findPid pid with
      | some i => if (s.k.proc i).schedLevel = t then { s with w := ⟨held c, s.k⟩ } else s.to (s.k.setLevel i t)
      | none => s := by
  rw [step, if_pos hr]
  have hrun := run_changeSchedLevel (c := c) (k := s.k) pid t
  by_cases ht : t ≠ 1 ∧ t ≠ 2
  · rw [if_pos ht] at hrun ⊢
    rw [exec_ok hl hrun, to_self hl]
  rw [if_neg ht] at hrun ⊢
  cases hf : s.k.findPid pid with
  | none => rw [exec_ok hl (hrun.trans (by rw [hf])), to_self hl]
  | some j =>
    simp only [hf] at hrun ⊢
    split_ifs at hrun ⊢
    · simp only [Sys.exec, w_of_free hl, hrun]
    · rw [exec_ok hl hrun]

theorem step_age_start (ha : s.agingOf c = some ⟨n, .start⟩) : ∃ k' : Kernel, k'.tab = s.k.tab ∧
    step s (.age c) = (s.to k').setAging c ((s.k.tab.firstDue n slots).map fun i => ⟨n, .window i⟩) := by
  obtain ⟨k', ht, hr⟩ := run_agingStart (c := c) (k := s.k) n
  refine ⟨k', ht, ?_⟩
  simp only [step, ha]
  rw [exec_ok hl hr]
  cases s.k.tab.firstDue n slots <;> rfl

theorem step_age_raise {pid : Int} (ha : s.agingOf c = some ⟨n, .raise i pid⟩) : step s (.age c) =
    (match s.k.findPid pid with
      | some j => if (s.k.proc j).schedLevel = 1 then { s with w := ⟨held c, s.k⟩ } else s.to (s.k.setLevel j 1)
      | none => s).setAging c (some ⟨n, .resume i⟩) := by
  have hrun := run_agingRaise (c := c) (k := s.k) n i pid
  simp only [step, ha]
  cases hf : s.k.findPid pid with
  | none => rw [exec_ok hl (hrun.trans (by rw [hf])), to_self hl]; rfl
  | some j =>
    simp only [hf] at hrun ⊢
    split_ifs at hrun ⊢
    · simp only [Sys.exec, w_of_free hl, hrun]; rfl
    · rw [exec_ok hl hrun]; rfl

theorem step_age_resume (ha : s.agingOf c = some ⟨n, .resume i⟩) :
    ∃ k' : Kernel, k'.tab = s.k.tab.apply (.arrive i n) ∧ step s (.age c) =
      (s.to k').setAging c
        (((s.k.tab.apply (.arrive i n)).firstDue n (slotsAfter i)).map fun i => ⟨n, .window i⟩) := by
  obtain ⟨k', ht, hr⟩ := run_agingResume (c := c) (k := s.k) n i
  refine ⟨k', ht, ?_⟩
  simp only [step, ha]
  rw [exec_ok hl hr]
  cases (s.k.tab.apply (.arrive i n)).firstDue n (slotsAfter i) <;> rfl

theorem step_tick (hr : s.ready 0) (hn : ∀ i, ¬ s.k.tickSleeper i) :
    step s .tick = (s.to s.k.ticked).setIrq 0 (some ⟨int32 s.k.ticked.ticks, .start⟩) := by
  rw [step, if_pos hr, exec_ok hl (run_clockTick hn)]

theorem step_tick_panic (hr : s.ready 0) (hi : s.k.tickSleeper i) : ∃ k', step s .tick =
    { s with w := ⟨heldBoth 0, k'⟩, panicked := update s.panicked 0 (some "acquire") } := by
  obtain ⟨k', hk⟩ := run_clockTick_panic (c := 0) hi
  exact ⟨k', by rw [step, if_pos hr]; simp only [Sys.exec, w_of_free hl, hk]⟩

end Equations

theorem step_age_window {i : Slot} (ha : s.agingOf c = some ⟨n, .window i⟩) :
    step s (.age c) = s.setAging c (some ⟨n, .raise i (s.k.proc i).pid⟩) := by
  simp only [step, ha, Sys.exec, run_agingWindow]
  rfl

theorem step_forkFail {i np : Slot} (hc : s.cur c = some i) (hf : s.frame i = .forked np) : step s (.forkFail c) =
    (s.write fun k => k.modProc np fun p => { p with state := .unused }).setFrame i .idle := by
  simp only [step, hc, hf]

theorem step_forkCopy {i np : Slot} (hc : s.cur c = some i) (hf : s.frame i = .forked np) : step s (.forkCopy c) =
    (s.write fun k => (k.modProc np fun p => { p with context := .forkret }).adopt np i).setFrame i (.copied np) := by
  simp only [step, hc, hf]

/-- fork's later operations do nothing, or the process is in their frame -/
theorem forked_cases (s : Sys) (c : Cpu) : (step s (.forkFail c) = s ∧ step s (.forkCopy c) = s) ∨
    ∃ i np, s.cur c = some i ∧ s.frame i = .forked np := by
  cases hc : s.cur c with
  | none => simp [step, hc]
  | some i => cases hf : s.frame i <;> simp [step, hc, hf]

theorem copied_cases (s : Sys) (c : Cpu) : step s (.forkFinish c) = s ∨
    ∃ i np, s.cur c = some i ∧ s.frame i = .copied np := by
  cases hc : s.cur c with
  | none => simp [step, hc]
  | some i => cases hf : s.frame i <;> simp [step, hc, hf]

theorem w_write (h : s.w.locks = free) (f : Kernel → Kernel) : (s.write f).w = ⟨free, f s.k⟩ := by
  simp only [Sys.write, w_of_free h]

@[simp] theorem setFrame_w (i : Slot) (f : Frame) : (s.setFrame i f).w = s.w := rfl
@[simp] theorem logWait_w (i : Slot) (e : Exit) : (s.logWait i e).w = s.w := by
  unfold Sys.logWait; split
  · split_ifs <;> rfl
  · rfl
@[simp] theorem setAging_w (a : Option Aging) : (s.setAging c a).w = s.w := by
  unfold Sys.setAging; split
  · rfl
  · split <;> rfl

end Xv6
