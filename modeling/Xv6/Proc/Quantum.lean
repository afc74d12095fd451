/-
The quantum and the run-time statistics (trap.c, proc.c): rr_ticks, consecutive_run, max_consecutive_run, runnig_time.

The record of the timer ticks of a process (`TrapSys.runs`) is kept beside the kernel: one list for each dispatch. `survived`
counts the ticks of a dispatch that the process did not exit in: trap lets a process that has been killed exit before it
counts the tick.

Results:
- `step_accounted`: every step keeps the statistics equal to what the record says;
- `quantum_leaves`: the handler leaves the end of the quantum by its yield only, and the process is then off its CPU;
- `quantum_and_run_time`: **in every state of every run** both hold, and outside the handler rr_ticks is below the quantum;
- `killed_tick_uncounted`: a process that exits in a tick and has no tick in its statistics, and one that stays at the end of
  its quantum because ptable.lock was leaked.
-/
import Xv6.Proc.Preempt
import Xv6.Proc.Reach
import Xv6.Proc.Stats

namespace Xv6

open LockProg Runs Function

/-! ## The record -/

/-- the ticks of a dispatch that the process did not exit in -/
def survived (run : List Tick) : ℕ := run.countP fun t => !t.fatal

/-- those of them that it took at the RR level -/
def sliceTicks (run : List Tick) : ℕ := run.countP fun t => t.rr && !t.fatal

def longest : List (List Tick) → ℕ
  | [] => 0
  | run :: older => max (survived run) (longest older)

def allTicks : List (List Tick) → ℕ
  | [] => 0
  | run :: older => survived run + allTicks older

/-- the statistics of slot i are what its record says, cut to 32 bits, and a process that is switched out inside its handler
does not run -/
structure TrapSys.Accounted (s : TrapSys) (i : Slot) : Prop where
  most : allTicks (s.runs i) < 2 ^ 31 → (s.sys.k.proc i).maxConsecutiveRun = longest (s.runs i)
  total : (s.sys.k.proc i).runnigTime = int32 (allTicks (s.runs i))
  current : (s.sys.k.proc i).state = .running → ∃ run older, s.runs i = run :: older ∧
    (s.sys.k.proc i).consecutiveRun = int32 (survived run) ∧ (s.sys.k.proc i).rrTicks = sliceTicks run
  slice : (s.sys.k.proc i).state = .running → (s.handler i).pc ≠ .quantum → (s.sys.k.proc i).rrTicks < quantumTicks
  parked : (s.handler i).pc.suspended = true → (s.sys.k.proc i).state ≠ .running

variable {s t : TrapSys} {i j : Slot} {c : Cpu}

theorem sliceTicks_all {run : List Tick} (h : ∀ x ∈ run, x.rr = true) : sliceTicks run = survived run := by
  refine List.countP_congr fun x hx => ?_
  rw [h x hx, Bool.true_and]

/-! ## Steps that count no tick -/

/-- a step that counts no tick; if the process still runs, its handler has not left the end of the quantum -/
theorem accounted_kept (h : s.Accounted i) (hp : (s.sys.k.proc i).StatsKept (t.sys.k.proc i)) (hr : t.runs i = s.runs i)
    (hpc : (t.sys.k.proc i).state = .running →
      ((t.handler i).pc ≠ .quantum → (s.handler i).pc ≠ .quantum) ∧ (t.handler i).pc.suspended = false) : t.Accounted i := by
  refine ⟨fun hlt => ?_, ?_, fun hrun => ?_, fun hrun hs => ?_, fun hs hrun => ?_⟩
  · rw [hr] at hlt ⊢
    exact hp.most.trans (h.most hlt)
  · rw [hp.total, hr, h.total]
  · obtain ⟨hold, h1, h2⟩ := hp.runs hrun
    rw [hr, h1, h2]
    exact h.current hold
  · obtain ⟨hold, -, h2⟩ := hp.runs hrun
    rw [h2]
    exact h.slice hold ((hpc hrun).1 hs)
  · rw [(hpc hrun).2] at hs
    cases hs

/-- a step that leaves the handler where it is -/
theorem accounted_still (h : s.Accounted i) (hp : (s.sys.k.proc i).StatsKept (t.sys.k.proc i)) (hr : t.runs i = s.runs i)
    (hh : t.handler i = s.handler i) : t.Accounted i := by
  refine accounted_kept h hp hr fun hrun => ?_
  rw [hh]
  exact ⟨id, Bool.eq_false_iff.2 fun hs => h.parked hs (hp.runs hrun).1⟩

theorem accounted_same (h : s.Accounted i) (hp : t.sys.k.proc i = s.sys.k.proc i) (hr : t.runs i = s.runs i)
    (hq : (s.handler i).pc ≠ .quantum) (hs : (t.handler i).pc.suspended = false) : t.Accounted i :=
  accounted_kept h (by rw [hp]; exact .refl _) hr fun _ => ⟨fun _ => hq, hs⟩

theorem resume_not_suspended (h : Handler) : h.resume.pc.suspended = false := by
  obtain ⟨pc, user, visit, notes⟩ := h
  cases pc <;> rfl

theorem base_accounted (op : Op) (hop : op.handled = false) (h : s.Accounted i) : (s.base op).Accounted i := by
  have hst := step_stats (s := s.sys) op (fun c e => by rw [e] at hop; cases hop) i
  by_cases ha : s.sys.allocatee op = some i
  · -- a new process
    have hf := hst.fresh ha
    have hr : (s.base op).runs i = [] := if_pos ha
    refine ⟨fun _ => ?_, ?_, fun hrun => absurd hrun hf.still, fun hrun => absurd hrun hf.still, fun _ => hf.still⟩
    · rw [hr]
      exact hf.most
    · rw [hr]
      exact hf.total.trans int32_zero.symm
  by_cases hd : s.sys.dispatchee op = some i
  · have hs := hst.started ha hd
    have hr : (s.base op).runs i = [] :: s.runs i := (if_neg ha).trans (if_pos hd)
    have hall : allTicks ([] :: s.runs i) = allTicks (s.runs i) := by simp [allTicks, survived]
    have hlong : longest ([] :: s.runs i) = longest (s.runs i) := by simp [longest, survived]
    refine ⟨fun hlt => ?_, ?_, fun hrun => ?_, fun hrun _ => ?_, fun hpc => ?_⟩
    · rw [hr, hall] at hlt
      rw [hr, hlong]
      exact hs.most.trans (h.most hlt)
    · rw [hr, hall]
      exact hs.total.trans h.total
    · obtain ⟨h1, h2⟩ := hs.zero hrun
      exact ⟨[], s.runs i, hr, h1.trans int32_zero.symm, h2⟩
    · have h2 : ((s.base op).sys.k.proc i).rrTicks = 0 := (hs.zero hrun).2
      rw [h2]
      decide
    · have hh : (s.base op).handler i = (s.handler i).resume := if_pos hd
      rw [hh, resume_not_suspended] at hpc
      cases hpc
  · exact accounted_still h (hst.kept ha hd) ((if_neg ha).trans (if_neg hd)) (if_neg hd)

/-! ## The interrupt -/

theorem timer_other (user : Bool) (hc : s.sys.cur c ≠ some i) (h : s.Accounted i) : (s.timer c user).Accounted i := by
  unfold TrapSys.timer
  cases hj : s.sys.cur c with
  | none => exact h
  | some j =>
    have hne : i ≠ j := fun e => hc (by rw [hj, e])
    have hrec : ∀ x, (s.record j x).runs i = s.runs i := fun x => update_of_ne hne _ _
    have hset : ∀ (t : TrapSys) (g : Handler), t.sys.k.proc i = s.sys.k.proc i → t.runs i = s.runs i →
        t.handler i = s.handler i → (t.setHandler j g).Accounted i := by
      intro t g hp hr hh
      refine accounted_still h ?_ hr ((setHandler_ne g hne).trans hh)
      show (s.sys.k.proc i).StatsKept (t.sys.k.proc i)
      rw [hp]
      exact .refl _
    simp only
    split_ifs
    · exact h
    · exact hset _ _ rfl (hrec _) rfl
    · exact hset _ _ rfl rfl rfl
    · exact hset _ _ (modProc_ne s.sys.k j Proc.account hne) (hrec _) rfl
    · exact hset _ _ rfl rfl rfl

theorem survived_le (run : List Tick) (older : List (List Tick)) : survived run ≤ allTicks (run :: older) :=
  Nat.le_add_right ..

/-- the accounting of one tick -/
theorem account_accounted {run : List Tick} {older : List (List Tick)} {g : Handler} (h : s.Accounted i)
    (hr : s.runs i = run :: older) (hrun : (s.sys.k.proc i).state = .running)
    (hc : (s.sys.k.proc i).consecutiveRun = int32 (survived run)) (hrr : (s.sys.k.proc i).rrTicks = sliceTicks run)
    (hp : t.sys.k.proc i = (s.sys.k.proc i).account)
    (ht : t.runs i = (⟨decide (s.sys.k.proc i).rr, false⟩ :: run) :: older)
    (hg : t.handler i = g) (hb : g.pc = (s.sys.k.proc i).account.branch) (hpc : (s.handler i).pc ≠ .quantum) :
    t.Accounted i := by
  have hsurv : survived (⟨decide (s.sys.k.proc i).rr, false⟩ :: run) = survived run + 1 := by simp [survived]
  have hslice : (sliceTicks (⟨decide (s.sys.k.proc i).rr, false⟩ :: run) : Int) =
      if (s.sys.k.proc i).rr then (sliceTicks run : Int) + 1 else sliceTicks run := by
    unfold sliceTicks
    rw [List.countP_cons]
    by_cases hq : (s.sys.k.proc i).rr <;> simp [hq]
  have hall : allTicks (t.runs i) = allTicks (s.runs i) + 1 := by
    rw [ht, hr, allTicks, allTicks, hsurv]
    omega
  have hold := h.slice hrun hpc
  have hquantum : quantumTicks = 3 := rfl
  -- the dispatch's count, cut again
  have hcount : (s.sys.k.proc i).account.consecutiveRun = int32 ((survived run + 1 : ℕ) : Int) := by
    show int32 ((s.sys.k.proc i).consecutiveRun + 1) = _
    rw [hc, int32_add]
    push_cast
    rfl
  refine ⟨fun hlt => ?_, ?_, fun _ => ⟨_, older, ht, ?_, ?_⟩, fun _ hs => ?_, fun hs => ?_⟩
  · have hmost := h.most (by omega)
    have hle := survived_le run older
    rw [← hr] at hle
    rw [int32_eq (by omega) (by omega)] at hcount
    rw [hr, longest] at hmost
    rw [hp, ht, longest, hsurv]
    show (if (s.sys.k.proc i).maxConsecutiveRun < (s.sys.k.proc i).account.consecutiveRun then
      (s.sys.k.proc i).account.consecutiveRun else (s.sys.k.proc i).maxConsecutiveRun) = _
    split_ifs <;> omega
  · rw [hp, hall]
    show int32 ((s.sys.k.proc i).runnigTime + 1) = _
    rw [h.total, int32_add]
    push_cast
    rfl
  · rw [hp, hsurv]
    exact hcount
  · rw [hp, hslice, ← hrr]
    show (if _ then int32 ((s.sys.k.proc i).rrTicks + 1) else _) = _
    rw [int32_eq (by omega) (by omega)]
  · -- behind the branch the quantum is not over
    rw [hg, hb] at hs
    rw [hp]
    unfold Proc.branch at hs
    by_cases hq : (s.sys.k.proc i).account.rr
    · rw [if_pos hq] at hs
      by_cases hover : quantumTicks ≤ (s.sys.k.proc i).account.rrTicks
      · rw [if_pos hover] at hs
        exact absurd rfl hs
      · exact not_le.1 hover
    · have hkeep : (s.sys.k.proc i).account.rrTicks = (s.sys.k.proc i).rrTicks := if_neg hq
      rw [hkeep]
      exact hold
  · rw [hg, hb] at hs
    unfold Proc.branch at hs
    split_ifs at hs <;> cases hs

theorem idle_of_guard {h : Handler} {q : Prop} (hg : ¬ (h.pc ≠ .idle ∨ q)) : h.pc ≠ .quantum := by
  rw [not_or, not_not] at hg
  rw [hg.1]
  decide

theorem timer_accounted (user : Bool) (h : s.Accounted i) : (s.timer c user).Accounted i := by
  by_cases hc : s.sys.cur c = some i
  swap
  · exact timer_other user hc h
  unfold TrapSys.timer
  simp only [hc]
  split_ifs with hguard hkill hrun hrun
  · exact h
  · -- the process exits: the tick is not counted
    obtain ⟨run, older, hr, h1, h2⟩ := h.current hrun
    have hrec : (s.record i ⟨decide (s.sys.k.proc i).rr, true⟩).runs i =
        (⟨decide (s.sys.k.proc i).rr, true⟩ :: run) :: older := by
      simp only [TrapSys.record, update_self, hr]
    have hs : survived (⟨decide (s.sys.k.proc i).rr, true⟩ :: run) = survived run := by simp [survived]
    have hl : sliceTicks (⟨decide (s.sys.k.proc i).rr, true⟩ :: run) = sliceTicks run := by simp [sliceTicks]
    have hall : allTicks ((s.record i ⟨decide (s.sys.k.proc i).rr, true⟩).runs i) = allTicks (s.runs i) := by
      rw [hrec, hr, allTicks, allTicks, hs]
    have hlong : longest ((s.record i ⟨decide (s.sys.k.proc i).rr, true⟩).runs i) = longest (s.runs i) := by
      rw [hrec, hr, longest, longest, hs]
    refine ⟨fun hlt => ?_, ?_, fun _ => ⟨_, older, hrec, ?_, ?_⟩, fun hr' _ => h.slice hr' (idle_of_guard hguard), fun hpc => ?_⟩
    · exact (h.most (hall.symm.trans_lt hlt)).trans (congrArg _ hlong.symm)
    · exact h.total.trans (congrArg (fun n : ℕ => int32 n) hall.symm)
    · rw [hs]
      exact h1
    · rw [hl]
      exact h2
    · rw [setHandler_self] at hpc
      cases hpc
  · exact accounted_same h rfl rfl (idle_of_guard hguard) (by rw [setHandler_self]; rfl)
  · obtain ⟨run, older, hr, h1, h2⟩ := h.current hrun
    refine account_accounted h hr hrun h1 h2 (modProc_self s.sys.k i Proc.account) ?_ (setHandler_self _) rfl
      (idle_of_guard hguard)
    show (s.record i _).runs i = _
    simp only [TrapSys.record, update_self, hr]
  · exact accounted_same h rfl rfl (idle_of_guard hguard) (by rw [setHandler_self]; rfl)

/-! ## The handler's steps -/

/-- yield stops the process that calls it, or does nothing -/
theorem yield_stops {s : Sys} (hc : s.cur c = some i) (hnone : ((step s (.yield c)).k.cpu c).proc = none) :
    ((step s (.yield c)).k.proc i).state ≠ .running := by
  have hcur := (cur_some hc).2
  have hstep : step s (.yield c) = s.exec c yield fun _ s => s := by simp only [step, hc]
  have hk : (step s (.yield c)).k = (yield.run c s.w).world.st ∨ (step s (.yield c)).k = s.k := by
    rw [hstep]
    unfold Sys.exec
    cases yield.run c s.w with
    | ok a w | panic m w => exact .inl rfl
    | spin l w => exact .inr rfl
  by_cases hl : s.w.locks .ptable = none
  swap
  · have hworld : (yield.run c s.w).world = s.w := held_world ⟨_, rfl⟩ hl
    rw [hworld] at hk
    rw [hk.elim id id] at hnone
    exact absurd (hnone.symm.trans hcur) (by simp)
  rcases hk with hk | hk
  swap
  · rw [hk] at hnone
    exact absurd (hnone.symm.trans hcur) (by simp)
  rw [hk]
  have hrun : yield.run c s.w = ((makeRunnable i fun _ q => { q with consecutiveRun := 0 }).run c
      ⟨update s.w.locks .ptable (some c), s.k⟩).andThen fun _ w => (sched .yield).run c w := by
    simp only [yield, Prog.bind_eq, run_bind, run_acquire_free hl, andThen_ok, run_curproc (k := s.w.st) hcur]
    rfl
  obtain ⟨-, hstop⟩ := makeRunnable_stops (i := i) (f := fun _ q => { q with consecutiveRun := 0 }) (fun _ _ => rfl)
    (fun _ _ => rfl) (fun _ _ => rfl) c ⟨update s.w.locks .ptable (some c), s.k⟩
  rw [hrun]
  cases hm : (makeRunnable i fun _ q => { q with consecutiveRun := 0 }).run c
      ⟨update s.w.locks .ptable (some c), s.k⟩ with
  | ok a w =>
    rw [hm] at hstop
    exact fun h => hstop (keeps_sched .yield c w i |>.runs h).1
  | panic m w | spin l w => rw [hm] at hstop; exact hstop

/-- a step into the scheduler keeps the statistics of slot i; if it goes through, the process of slot j is where hj says -/
theorem leave_accounted (op : Op) (g : Handler) (ha : ∀ i, s.sys.allocatee op ≠ some i) (hd : ∀ i, s.sys.dispatchee op ≠ some i)
    (hop : ∀ c, op ≠ .account c)
    (hj : ((step s.sys op).k.cpu c).proc = none → ((step s.sys op).k.proc j).state = .running →
      (s.handler j).pc ≠ .quantum ∧ g.pc.suspended = false)
    (h : s.Accounted i) : (s.leave c j op g).Accounted i := by
  have hk := (step_stats (s := s.sys) op hop i).kept (ha i) (hd i)
  unfold TrapSys.leave
  simp only
  split_ifs with hnone
  swap
  · exact accounted_still h hk rfl rfl
  by_cases hij : i = j
  · subst hij
    refine accounted_kept h hk rfl fun hrun => ?_
    rw [setHandler_self]
    exact ⟨fun _ => (hj hnone hrun).1, (hj hnone hrun).2⟩
  · exact accounted_still h hk rfl (setHandler_ne g hij)

theorem set_accounted {g : Handler} (hq : (s.handler j).pc ≠ .quantum) (hs : g.pc.suspended = false) (h : s.Accounted i) :
    (s.setHandler j g).Accounted i := by
  by_cases hij : i = j
  · subst hij
    exact accounted_same h rfl rfl hq (by rw [setHandler_self]; exact hs)
  · exact accounted_still h (.refl _) rfl (setHandler_ne g hij)

theorem trap_accounted (h : s.Accounted i) : (s.trap c).Accounted i := by
  unfold TrapSys.trap
  cases hj : s.sys.cur c with
  | none => exact h
  | some j =>
    have hyield : ∀ g, (s.leave c j (.yield c) g).Accounted i := by
      intro g
      refine leave_accounted _ g (by simp [Sys.allocatee]) (by simp [Sys.dispatchee]) (by simp) (fun hnone hrun => ?_) h
      exact absurd hrun (yield_stops hj hnone)
    simp only
    cases hp : (s.handler j).pc
    case check => exact set_accounted (by rw [hp]; decide) (by split_ifs <;> rfl) h
    case higher => exact hyield _
    case again => exact hyield _
    case quantum => exact hyield _
    case exit =>
      exact leave_accounted _ _ (by simp [Sys.allocatee]) (by simp [Sys.dispatchee]) (by simp)
        (fun _ _ => ⟨by rw [hp]; decide, rfl⟩) h
    case last =>
      simp only
      split_ifs
      all_goals exact set_accounted (by rw [hp]; decide) rfl h
    all_goals exact h

/-! ## The end of the quantum -/

/-- trap's yield has switched the process of slot i out of CPU c -/
structure TrapSys.SwitchedOut (t : TrapSys) (i : Slot) (c : Cpu) : Prop where
  pc : (t.handler i).pc = .sliced
  stopped : (t.sys.k.proc i).state ≠ .running
  cpu : (t.sys.k.cpu c).proc = none

theorem trap_quantum (hc : s.sys.cur c = some i) (hq : (s.handler i).pc = .quantum) :
    (s.trap c).handler i = s.handler i ∨ (s.trap c).SwitchedOut i c := by
  unfold TrapSys.trap
  simp only [hc, hq]
  unfold TrapSys.leave
  simp only
  split_ifs with hnone
  · exact .inr ⟨by rw [setHandler_self], yield_stops hc hnone, hnone⟩
  · exact .inl rfl

/-- **The handler leaves the end of the quantum by its yield only**, and then the process is off its CPU. -/
theorem quantum_leaves (op : TrapOp) (hq : (s.handler i).pc = .quantum) :
    (trapStep s op).handler i = s.handler i ∨ ∃ c, op = .trap c ∧ s.sys.cur c = some i ∧ (trapStep s op).SwitchedOut i c := by
  cases op with
  | base op =>
    refine .inl ?_
    simp only [trapStep]
    split_ifs
    · rfl
    · simp only [TrapSys.base]
      split_ifs
      · simp only [Handler.resume, hq]
      · rfl
  | timer c user =>
    refine .inl ?_
    simp only [trapStep, TrapSys.timer]
    cases hc : s.sys.cur c with
    | none => rfl
    | some j =>
      by_cases hij : i = j
      · subst hij
        simp [hq]
      · simp only
        split_ifs <;> first | rfl | exact setHandler_ne _ hij
  | trap c =>
    by_cases hc : s.sys.cur c = some i
    · exact (trap_quantum hc hq).imp id fun h => ⟨c, rfl, hc, h⟩
    · exact .inl (trap_handler_ne hc)

/-- with the locks free, the yield goes through -/
theorem quantum_yields (hl : s.sys.w.locks = free) (hc : s.sys.cur c = some i) (hq : (s.handler i).pc = .quantum) :
    (trapStep s (.trap c)).SwitchedOut i c := by
  have hnone : ((step s.sys (.yield c)).k.cpu c).proc = none := by
    rw [step_yield hl hc, to_k]
    have := congrArg (fun t => t.cpu c) (tab_yielded (k := s.sys.k) (c := c) i)
    simpa [Kernel.tab, Tab.apply, Tab.setCpu] using this
  show (s.trap c).SwitchedOut i c
  unfold TrapSys.trap
  simp only [hc, hq]
  unfold TrapSys.leave
  simp only [hnone, if_true]
  exact ⟨by rw [setHandler_self], yield_stops hc hnone, hnone⟩

/-! ## Runs -/

/-- one step keeps the statistics equal to the record -/
theorem step_accounted (op : TrapOp) (h : s.Accounted i) : (trapStep s op).Accounted i := by
  cases op with
  | timer c user => exact timer_accounted user h
  | trap c => exact trap_accounted h
  | base op =>
    simp only [trapStep]
    split_ifs with hb
    · exact h
    · rw [not_or, Bool.not_eq_true] at hb
      exact base_accounted op hb.1 h

theorem boot_accounted (i : Slot) : TrapSys.boot.Accounted i := by
  have hstate : (TrapSys.boot.sys.k.proc i).state ≠ .running := ProcState.noConfusion
  exact ⟨fun _ => rfl, int32_zero.symm, fun h => absurd h hstate, fun h => absurd h hstate,
    fun _ => hstate⟩

/-- a step of the handlers is a step of the process machine, or none -/
theorem trapStep_sys (s : TrapSys) (op : TrapOp) :
    (trapStep s op).sys = s.sys ∨ ∃ op', (trapStep s op).sys = step s.sys op' := by
  have hleave : ∀ (j : Slot) (c : Cpu) (op : Op) (g : Handler), (s.leave c j op g).sys = step s.sys op := by
    intro j c op g
    unfold TrapSys.leave
    simp only
    split_ifs <;> rfl
  cases op with
  | base op =>
    simp only [trapStep]
    split_ifs
    · exact .inl rfl
    · exact .inr ⟨op, rfl⟩
  | timer c user =>
    simp only [trapStep, TrapSys.timer]
    cases hc : s.sys.cur c with
    | none => exact .inl rfl
    | some j =>
      simp only
      split_ifs
      all_goals first | exact .inl rfl | exact .inr ⟨.account c, by simp only [step, hc]; rfl⟩
  | trap c =>
    simp only [trapStep, TrapSys.trap]
    cases s.sys.cur c with
    | none => exact .inl rfl
    | some j =>
      cases hp : (s.handler j).pc <;> simp only [hp]
      case last => split_ifs <;> exact .inl rfl
      all_goals first | exact .inr ⟨_, hleave ..⟩ | exact .inl rfl | simp

/-- so every state of the handlers has one of the process machine -/
theorem trapRun_sys (ops : List TrapOp) : ∃ ops', (trapRun .boot ops).sys = run boot ops' := by
  induction ops using List.reverseRecOn with
  | nil => exact ⟨[], rfl⟩
  | append_singleton ops op ih =>
    obtain ⟨ops', h⟩ := ih
    have hlast : trapRun .boot (ops ++ [op]) = trapStep (trapRun .boot ops) op := List.foldl_append ..
    rw [hlast]
    rcases trapStep_sys (trapRun .boot ops) op with e | ⟨op', e⟩
    · exact ⟨ops', e.trans h⟩
    · exact ⟨ops' ++ [op'], by rw [e, h, run_append]; rfl⟩

theorem run_accounted (ops : List TrapOp) (h : s.Accounted i) : (trapRun s ops).Accounted i := by
  induction ops generalizing s with
  | nil => exact h
  | cons op ops ih => exact ih (step_accounted op h)

/-- **Quantum and run time, in every state of every run.** A running process that is not in its timer handler has rr_ticks
below the quantum. If it took all the ticks of its current dispatch at the RR level, it is at the yield at the end of the
quantum as soon as it has taken that many of them. The handler leaves that point by the yield only, with the process not
RUNNING and the CPU without it, and its next step does so if ptable.lock is free. As long as the process has taken fewer than
2^31 ticks, max_consecutive_run is the largest number of ticks in one dispatch and runnig_time the number of all ticks, counting
the ticks that the process did not exit in. -/
theorem quantum_and_run_time (ops : List TrapOp) (s : TrapSys) (hs : s = trapRun .boot ops) (i : Slot) :
    ((s.sys.k.proc i).state = .running → (s.handler i).pc = .idle → (s.sys.k.proc i).rrTicks < quantumTicks) ∧
      (∀ run older, (s.sys.k.proc i).state = .running → s.runs i = run :: older → (∀ x ∈ run, x.rr = true) →
        quantumTicks ≤ survived run → (s.handler i).pc = .quantum) ∧
      ((s.handler i).pc = .quantum →
        (∀ op, (trapStep s op).handler i = s.handler i ∨
          ∃ c, op = .trap c ∧ s.sys.cur c = some i ∧ (trapStep s op).SwitchedOut i c) ∧
        ∀ c, s.sys.cur c = some i → s.sys.w.locks .ptable = none → (trapStep s (.trap c)).SwitchedOut i c) ∧
      (allTicks (s.runs i) < 2 ^ 31 → (s.sys.k.proc i).maxConsecutiveRun = longest (s.runs i) ∧
        (s.sys.k.proc i).runnigTime = allTicks (s.runs i)) := by
  subst hs
  have h := run_accounted ops (boot_accounted i)
  refine ⟨fun hrun hpc => h.slice hrun (by rw [hpc]; decide), fun run older hrun hr hrr hover => ?_, fun hq => ⟨?_, ?_⟩,
    fun hlt => ⟨h.most hlt, ?_⟩⟩
  · by_contra hne
    have hlt := h.slice hrun hne
    obtain ⟨run', older', hr', -, hticks⟩ := h.current hrun
    obtain ⟨rfl, -⟩ := List.cons.inj (hr.symm.trans hr')
    rw [hticks, sliceTicks_all hrr] at hlt
    exact absurd hover (not_le.2 hlt)
  · exact fun op => quantum_leaves op hq
  · intro c hc hf
    obtain ⟨ops', e⟩ := trapRun_sys ops
    rw [e] at hf
    exact quantum_yields (by rw [e]; exact (run_ok hf).locks) hc hq
  · rw [h.total]
    exact int32_eq (by omega) (by omega)

/-- init takes the ticks of its quantum -/
def threeTicks : List TrapOp :=
  [.base (.userinit 0), .base (.dispatch 0), .timer 0 true, .trap 0, .timer 0 true, .trap 0, .timer 0 true]

theorem quantum_and_run_time_threeTicks : ((trapRun .boot threeTicks).sys.k.proc 0).state = .running ∧
    ((trapRun .boot threeTicks).handler 0).pc = .quantum ∧ (trapStep (trapRun .boot threeTicks) (.trap 0)).SwitchedOut 0 0 ∧
    ((trapRun .boot threeTicks).sys.k.proc 0).maxConsecutiveRun = 3 := by
  obtain ⟨-, hend, hout, hstats⟩ := quantum_and_run_time threeTicks _ rfl 0
  have hpc := hend [⟨true, false⟩, ⟨true, false⟩, ⟨true, false⟩] [] (by decide +kernel) (by decide +kernel) (by decide)
    (by decide)
  exact ⟨by decide +kernel, hpc, (hout hpc).2 0 (by decide +kernel) (by decide +kernel),
    (hstats (by decide +kernel)).1.trans (by decide +kernel)⟩

/-- init forks, the child is dispatched and killed, and a timer interrupt finds it in user mode -/
def killedTick : List TrapOp :=
  [.base (.userinit 0), .base (.dispatch 0), .base (.forkAlloc 0), .base (.forkCopy 0), .base (.forkFinish 0),
    .base (.dispatch 1), .base (.kill 0 2), .timer 1 true, .trap 1]

/-- init asks for the level it has, which leaks ptable.lock, and takes the ticks of its quantum -/
def leakedTicks : List TrapOp :=
  [.base (.userinit 0), .base (.dispatch 0), .base (.changeLevel 0 1 1), .timer 0 true, .trap 0, .timer 0 true, .trap 0,
    .timer 0 true, .trap 0]

/-- The child took one tick while it was running, and neither statistic counts it. And with ptable.lock leaked, the yield at
the end of the quantum panics and init is not switched out. -/
theorem killed_tick_uncounted :
    ((trapRun .boot (killedTick.take 7)).sys.k.proc 1).state = .running ∧
      (trapRun .boot (killedTick.take 7)).sys.cur 1 = some 1 ∧
      ((trapRun .boot killedTick).sys.k.proc 1).state = .zombie ∧
      (trapRun .boot killedTick).runs 1 = [[⟨false, true⟩]] ∧
      ((trapRun .boot killedTick).sys.k.proc 1).maxConsecutiveRun = 0 ∧
      ((trapRun .boot killedTick).sys.k.proc 1).runnigTime = 0 ∧
      (trapRun .boot leakedTicks).runs 0 = [[⟨true, false⟩, ⟨true, false⟩, ⟨true, false⟩]] ∧
      (trapRun .boot leakedTicks).sys.panicked 0 = some "acquire" ∧
      ((trapRun .boot leakedTicks).sys.k.proc 0).state = .running := by
  decide +kernel

end Xv6
