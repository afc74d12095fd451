/-
The timer interrupt and a process of the FCFS level (trap.c, is_higher_waiting).

`Handler.Exact` is what the handler should do: look at the counters; go back to the process if nobody of a higher class is
waiting; otherwise give up the CPU once and, when the process is dispatched again, go back to it. A process that has been
killed exits where it would go back.

is_higher_waiting yields before it returns 1, and trap yields again because it returned 1. So the process that gave up the
CPU and is dispatched again gives it up a second time, whoever is waiting.

Results:
- `exact_stays`: nobody waits, and the handler is exact to its end;
- `exact_until_dispatched`: somebody waits, and the handler is exact until the process is dispatched again, and no longer;
- `fcfs_preemption_exact_iff`: for every state and every schedule, **the handler is exact if and only if nobody of a
  higher class was waiting when it looked, or the process is not dispatched again**;
- `preempted_twice`: a process that gives up the CPU a second time with all three counters at 0.
-/
import Xv6.Lib.Runs
import Xv6.Proc.Trap

namespace Xv6

open LockProg Runs

/-! ## What the handler should do -/

/-- going back to the process, or leaving because it has been killed -/
def TrapPc.ending : TrapPc → Bool
  | .last | .exit => true
  | _ => false

/-- the notes of a handler and where it may be then -/
inductive Handler.Exact : Handler → Prop
  | start {u v} : Exact ⟨.check, u, v, []⟩
  | killed {u v} : Exact ⟨.exit, u, v, []⟩
  | exited {u v} : Exact ⟨.idle, u, v, [.exited]⟩
  | nobody {pc u v} (hp : pc.ending = true) : Exact ⟨pc, u, v, [.checked false]⟩
  | back {u v n} (hn : n = .returned ∨ n = .exited) : Exact ⟨.idle, u, v, [.checked false, n]⟩
  | somebody {u v} : Exact ⟨.higher, u, v, [.checked true]⟩
  | out {pc u v} (hp : pc.suspended = true) : Exact ⟨pc, u, v, [.checked true, .yielded]⟩
  | dispatched {pc u v} (hp : pc.ending = true) : Exact ⟨pc, u, v, [.checked true, .yielded, .dispatched]⟩
  | returned {u v n} (hn : n = .returned ∨ n = .exited) : Exact ⟨.idle, u, v, [.checked true, .yielded, .dispatched, n]⟩

/-- in every state of the run, as long as it is the same interrupt, the handler of slot i is exact -/
def TrapSys.ExactVisit (s : TrapSys) (i : Slot) (visit : ℕ) (ops : List TrapOp) : Prop :=
  Throughout trapStep (fun t => (t.handler i).visit = visit → (t.handler i).Exact) s ops

/-- the schedule does not dispatch the process again, as long as it is the same interrupt -/
def TrapSys.NotDispatched (s : TrapSys) (i : Slot) (visit : ℕ) (ops : List TrapOp) : Prop :=
  Along trapStep (fun t op => (t.handler i).visit = visit → ¬ t.redispatches i op) s ops

variable {s : TrapSys} {i : Slot} {c : Cpu} {v : ℕ} {h : Handler}

theorem Handler.Moves.visit {h h' : Handler} (hm : h.Moves h') : h'.visit = h.visit := by
  cases hm <;> rfl

theorem resume_visit (h : Handler) : h.resume.visit = h.visit := by
  unfold Handler.resume
  cases h.pc <;> rfl

theorem visit_mono (op : TrapOp) : (s.handler i).visit ≤ ((trapStep s op).handler i).visit := by
  rcases step_handler s op i with h | h | ⟨-, h⟩ | h
  · rw [h]
  · omega
  · rw [h, resume_visit]
  · exact h.visit.ge

/-! ## Nobody is waiting -/

/-- behind a check that found nobody, or on the way out of a process that was killed before the interrupt -/
inductive Handler.Alone : Handler → Prop
  | killed {u v} : Alone ⟨.exit, u, v, []⟩
  | exited {u v} : Alone ⟨.idle, u, v, [.exited]⟩
  | ending {pc u v} (hp : pc.ending = true) : Alone ⟨pc, u, v, [.checked false]⟩
  | back {u v n} (hn : n = .returned ∨ n = .exited) : Alone ⟨.idle, u, v, [.checked false, n]⟩

theorem Handler.Alone.exact (ha : h.Alone) : h.Exact := by
  cases ha with
  | killed => exact .killed
  | exited => exact .exited
  | ending hp => exact .nobody hp
  | back hn => exact .back hn

theorem Handler.Alone.not_suspended (ha : h.Alone) : h.pc.suspended = false := by
  cases ha with
  | @ending pc u v hp => cases pc <;> simp [TrapPc.ending, TrapPc.suspended] at hp ⊢
  | _ => rfl

theorem Handler.Alone.moves {h h' : Handler} (ha : h.Alone) (hm : h.Moves h') : h'.Alone := by
  cases ha with
  | killed =>
    cases hm with
    | exit _ => exact .exited
    | _ => contradiction
  | exited => cases hm <;> contradiction
  | @ending pc u v hp =>
    cases hm with
    | exit _ => exact .back (.inr rfl)
    | killed _ => exact .ending rfl
    | ret _ => exact .back (.inl rfl)
    | check b e | higher e | again e | quantum e => subst e; cases hp
  | back hn => cases hm <;> contradiction

/-- a process that is not switched out is not dispatched -/
theorem alone_not_dispatched (op : TrapOp) (ha : (s.handler i).Alone) : ¬ s.redispatches i op := by
  intro hd
  cases op with
  | base op =>
    have hsus := hd.2.2.2
    rw [ha.not_suspended] at hsus
    cases hsus
  | _ => exact hd.elim

theorem alone_step (op : TrapOp) (ha : (s.handler i).visit = v → (s.handler i).Alone)
    (hv : v ≤ (s.handler i).visit) : ((trapStep s op).handler i).visit = v → ((trapStep s op).handler i).Alone := by
  intro hv'
  have hmono := visit_mono (s := s) (i := i) op
  have ha := ha (by omega)
  rcases step_handler s op i with h | h | ⟨hd, -⟩ | h
  · rwa [h]
  · omega
  · exact absurd hd (alone_not_dispatched op ha)
  · exact ha.moves h

theorem exact_stays (ops : List TrapOp) (ha : (s.handler i).visit = v → (s.handler i).Alone)
    (hv : v ≤ (s.handler i).visit) : s.ExactVisit i v ops ∧ s.NotDispatched i v ops := by
  induction ops generalizing s with
  | nil => exact ⟨fun h => (ha h).exact, trivial⟩
  | cons op ops ih =>
    obtain ⟨hex, hnot⟩ := ih (alone_step op ha hv) (hv.trans (visit_mono op))
    exact ⟨⟨fun h => (ha h).exact, hex⟩, fun h => alone_not_dispatched op (ha h), hnot⟩

/-! ## Somebody is waiting -/

/-- behind a check that found somebody, up to the next dispatch -/
inductive Handler.Giving : Handler → Prop
  | higher {u v} : Giving ⟨.higher, u, v, [.checked true]⟩
  | inner {u v} : Giving ⟨.inner, u, v, [.checked true, .yielded]⟩

theorem Handler.Giving.exact (hg : h.Giving) : h.Exact := by
  cases hg with
  | higher => exact .somebody
  | inner => exact .out rfl

theorem Handler.Giving.moves {h h' : Handler} (hg : h.Giving) (hm : h.Moves h') : h'.Giving := by
  cases hg with
  | higher =>
    cases hm with
    | higher _ => exact .inner
    | _ => contradiction
  | inner => cases hm <;> contradiction

/-- dispatched again, the process is about to yield once more -/
theorem Handler.Giving.resume (hg : h.Giving) (hp : h.pc.suspended = true) : ¬ h.resume.Exact := by
  cases hg with
  | higher => cases hp
  | inner =>
    intro he
    simp only [Handler.resume, List.cons_append, List.nil_append] at he
    cases he with
    | dispatched hp => cases hp

/-- a step that does not dispatch the process -/
theorem giving_step {op : TrapOp} (hg : (s.handler i).visit = v → (s.handler i).Giving) (hv : v ≤ (s.handler i).visit)
    (hd : (s.handler i).visit = v → ¬ s.redispatches i op) :
    ((trapStep s op).handler i).visit = v → ((trapStep s op).handler i).Giving := by
  intro hv'
  have hmono := visit_mono (s := s) (i := i) op
  have hsame : (s.handler i).visit = v := by omega
  rcases step_handler s op i with h | h | ⟨hr, -⟩ | h
  · rw [h]
    exact hg hsame
  · omega
  · exact absurd hr (hd hsame)
  · exact (hg hsame).moves h

theorem redispatches_resume {op : TrapOp} (h : s.redispatches i op) : (trapStep s op).handler i = (s.handler i).resume := by
  cases op with
  | base op =>
    obtain ⟨h1, h2, h3, -⟩ := h
    have hb : ¬ (op.handled = true ∨ s.inHandler op.cpu = true) := by
      rw [h1, h2]
      decide
    simp only [trapStep, if_neg hb]
    exact if_pos h3
  | _ => exact h.elim

theorem exact_until_dispatched (ops : List TrapOp) (hg : (s.handler i).visit = v → (s.handler i).Giving)
    (hv : v ≤ (s.handler i).visit) : s.ExactVisit i v ops ↔ s.NotDispatched i v ops := by
  induction ops generalizing s with
  | nil => exact ⟨fun _ => trivial, fun _ h => (hg h).exact⟩
  | cons op ops ih =>
    have hnow : (s.handler i).visit = v → (s.handler i).Exact := fun h => (hg h).exact
    by_cases hd : (s.handler i).visit = v → ¬ s.redispatches i op
    · have hrest := ih (giving_step hg hv hd) (hv.trans (visit_mono op))
      exact ⟨fun h => ⟨hd, hrest.1 h.2⟩, fun h => ⟨hnow, hrest.2 h.2⟩⟩
    · -- this step dispatches it: the next state is not exact
      refine ⟨fun h => absurd h.2 fun hnext => ?_, fun h => absurd h.1 hd⟩
      rw [Classical.not_imp, not_not] at hd
      obtain ⟨hsame, hr⟩ := hd
      have hres := redispatches_resume hr
      have hsus : (s.handler i).pc.suspended = true := by
        cases op with
        | base op => exact hr.2.2.2
        | _ => exact hr.elim
      have hex := throughout_head hnext (by rw [hres, resume_visit, hsame])
      rw [hres] at hex
      exact (hg hsame).resume hsus hex

/-! ## The interrupt -/

/-- the interrupt brings a process of the FCFS level to the check, unless it has been killed -/
theorem timer_check {user : Bool} (hc : s.sys.cur c = some i) (hidle : (s.handler i).pc = .idle)
    (hrun : (s.sys.k.proc i).state = .running) (hfcfs : (s.sys.k.proc i).fcfs)
    (huser : user = true → s.sys.frame i = .idle) :
    (trapStep s (.timer c user)).handler i =
      ⟨if (s.sys.k.proc i).killed ≠ 0 ∧ user = true then .exit else .check, user, (s.handler i).visit + 1, []⟩ := by
  have hguard : ¬ ((s.handler i).pc ≠ .idle ∨ (user = true ∧ s.sys.frame i ≠ .idle)) := by
    intro h
    rcases h with h | h
    · exact h hidle
    · exact h.2 (huser h.1)
  have hbranch : (s.sys.k.proc i).account.branch = .check := by
    have hnot : ¬ (s.sys.k.proc i).account.rr := by
      intro h
      have hl : (s.sys.k.proc i).schedLevel = 1 := h.2
      rw [hfcfs.2] at hl
      exact absurd hl (by decide)
    rw [Proc.branch, if_neg hnot]
    exact if_pos hfcfs
  simp only [trapStep, TrapSys.timer, hc]
  rw [if_neg hguard]
  split_ifs
  · rw [setHandler_self]
  · rw [setHandler_self, hbranch]

theorem trap_check (hc : s.sys.cur c = some i) (hh : s.handler i = h) (hp : h.pc = .check) :
    (trapStep s (.trap c)).handler i = { h with
      pc := if s.sys.k.higherWaiting then .higher else .last
      notes := h.notes ++ [.checked (decide s.sys.k.higherWaiting)] } := by
  simp only [trapStep, TrapSys.trap, hc, hh, hp]
  rw [setHandler_self]
  simp only [decide_eq_true_eq]

/-- **FCFS preemption.** The process in slot i is RUNNING on CPU c at the FCFS level when the timer interrupts it; pre is
what happens up to its check and post what happens after it. -/
theorem fcfs_preemption_exact_iff (s : TrapSys) (c : Cpu) (i : Slot) (user : Bool) (pre post : List TrapOp)
    (hc : s.sys.cur c = some i) (hidle : (s.handler i).pc = .idle) (hrun : (s.sys.k.proc i).state = .running)
    (hfcfs : (s.sys.k.proc i).fcfs) (huser : user = true → s.sys.frame i = .idle)
    (hpre : (trapRun s (.timer c user :: pre)).handler i = (trapStep s (.timer c user)).handler i)
    (hcpu : (trapRun s (.timer c user :: pre)).sys.cur c = some i) :
    (trapRun s (.timer c user :: pre)).ExactVisit i ((s.handler i).visit + 1) (.trap c :: post) ↔
      ¬ (trapRun s (.timer c user :: pre)).sys.k.higherWaiting ∨
        (trapRun s (.timer c user :: pre)).NotDispatched i ((s.handler i).visit + 1) (.trap c :: post) := by
  rw [timer_check hc hidle hrun hfcfs huser] at hpre
  generalize trapRun s (.timer c user :: pre) = t at hpre hcpu ⊢
  by_cases hkill : (s.sys.k.proc i).killed ≠ 0 ∧ user = true
  · -- it exits at once
    rw [if_pos hkill] at hpre
    have ha : (t.handler i).Alone := by
      rw [hpre]
      exact .killed
    obtain ⟨hex, hnot⟩ := exact_stays (v := (s.handler i).visit + 1) (.trap c :: post) (fun _ => ha) (by rw [hpre])
    exact ⟨fun _ => .inr hnot, fun _ => hex⟩
  rw [if_neg hkill] at hpre
  have hnext := trap_check hcpu hpre rfl
  have hstart : (t.handler i).visit = (s.handler i).visit + 1 → (t.handler i).Exact := by
    intro _
    rw [hpre]
    exact .start
  have hvisit : ((trapStep t (.trap c)).handler i).visit = (s.handler i).visit + 1 := by rw [hnext]
  by_cases hw : t.sys.k.higherWaiting
  · have hg : ((trapStep t (.trap c)).handler i).Giving := by
      rw [hnext, if_pos hw, decide_eq_true hw]
      exact .higher
    have hiff := exact_until_dispatched post (fun _ => hg) hvisit.ge
    constructor
    · intro h
      exact .inr ⟨fun _ hr => hr.elim, hiff.1 h.2⟩
    · intro h
      rcases h with h | h
      · exact absurd hw h
      · exact ⟨hstart, hiff.2 h.2⟩
  · have ha : ((trapStep t (.trap c)).handler i).Alone := by
      rw [hnext, if_neg hw, decide_eq_false hw]
      exact .ending rfl
    exact ⟨fun _ => .inl hw, fun _ => ⟨hstart, (exact_stays post (fun _ => ha) hvisit.ge).1⟩⟩

/-! ## A run -/

/-- init forks a child, and CPU 1 takes the child; init uses up its quantum on CPU 0 and waits -/
def childRuns : List TrapOp :=
  ([.userinit 0, .dispatch 0, .forkAlloc 0, .forkCopy 0, .forkFinish 0, .dispatch 1] : List Op).map .base ++
    [.timer 0 true, .trap 0, .timer 0 true, .trap 0, .timer 0 true, .trap 0]

theorem fcfs_preemption_exact_iff_child :
    (trapRun (trapRun .boot childRuns) [.timer 1 true]).sys.k.higherWaiting ∧
    ((trapRun (trapRun .boot childRuns) [.timer 1 true]).ExactVisit 1 (((trapRun .boot childRuns).handler 1).visit + 1)
        [.trap 1, .trap 1] ↔
      ¬ (trapRun (trapRun .boot childRuns) [.timer 1 true]).sys.k.higherWaiting ∨
        (trapRun (trapRun .boot childRuns) [.timer 1 true]).NotDispatched 1 (((trapRun .boot childRuns).handler 1).visit + 1)
          [.trap 1, .trap 1]) :=
  ⟨by decide +kernel, fcfs_preemption_exact_iff (trapRun .boot childRuns) 1 1 true [] [.trap 1] (by decide +kernel)
    (by decide +kernel) (by decide +kernel) (by decide +kernel) (fun _ => by decide +kernel) rfl (by decide +kernel)⟩

/-- the child gives up the CPU to init; CPU 0 takes init and CPU 1 the child; the child gives up the CPU again -/
def childYields : List TrapOp :=
  childRuns ++ [.timer 1 true, .trap 1, .trap 1, .base (.dispatch 0), .base (.dispatch 1)]

theorem preempted_twice :
    ((trapRun .boot (childRuns ++ [.timer 1 true])).handler 1).pc = .check ∧
    (trapRun .boot (childRuns ++ [.timer 1 true])).sys.k.higherWaiting ∧
    ((trapRun .boot childYields).handler 1).notes = [.checked true, .yielded, .dispatched] ∧
    ¬ (trapRun .boot childYields).sys.k.higherWaiting ∧
    ((trapRun .boot (childYields ++ [.trap 1])).handler 1).notes = [.checked true, .yielded, .dispatched, .yielded] ∧
    ((trapRun .boot (childYields ++ [.trap 1])).sys.k.proc 1).state = .runnable := by
  decide +kernel

end Xv6
