/-
Calls that address a process by its pid: kill, set_deadline_for_process and change_sched_level.

They take the first slot of the table with the pid and do not look at its state. An UNUSED slot has pid 0, or the pid of a
process whose fork failed, so it can be the one they find; and allocproc does not clear `killed`. A flag set on an UNUSED
slot is then inherited by the next process in that slot.

Results:
- `kill_touchesLive`, `setDeadline_touchesLive`, `changeLevel_touchesLive`: a call whose pid does not lead to an UNUSED slot
  succeeds only on a process and writes no UNUSED slot.
- `step_marks`: how a step can leave an EMBRYO with the flag set.
- `pid_calls_touch_live`: calls whose pid does not lead to an UNUSED slot touch live processes only.
- `kill_zero_marks_next_child`: kill(0) makes the next child start out killed.
-/
import Xv6.Proc.Pids

namespace Xv6

open LockProg Runs

variable {s : Sys} {c : Cpu} {op : Op} {t : Tab} {l : Label}

/-! ## One call -/

/-- a call addressed to pid returns, succeeds only if some process has the pid, and writes no UNUSED slot -/
def Kernel.TouchesLive (k : Kernel) (c : Cpu) (pid : Int) (p : K Int) : Prop :=
  ∃ r w, p.run c ⟨free, k⟩ = .ok r w ∧ (r = 0 → ∃ i, (k.proc i).state ≠ .unused ∧ (k.proc i).pid = pid) ∧
    ∀ i, (k.proc i).state = .unused → w.st.proc i = k.proc i

section Calls

variable {k : Kernel} {pid : Int} {i : Slot}

/-- a call that fails and writes nothing -/
theorem touchesLive_failed {p : K Int} {w : KWorld} (h : p.run c ⟨free, k⟩ = .ok (-1) w) (hw : w.st = k) :
    k.TouchesLive c pid p :=
  ⟨-1, w, h, fun e => absurd e (by decide), fun i _ => by rw [hw]⟩

/-- a call that succeeds on slot i and writes that slot -/
theorem touchesLive_found {p : K Int} {k' : Kernel} (hf : k.findPid pid = some i)
    (hs : (k.proc i).state ≠ .unused) (h : p.run c ⟨free, k⟩ = .ok 0 ⟨free, k'⟩)
    (hk : ∀ j, j ≠ i → k'.proc j = k.proc j) : k.TouchesLive c pid p := by
  refine ⟨0, _, h, fun _ => ⟨i, hs, findPid_some hf⟩, fun j hj => hk j ?_⟩
  rintro rfl
  exact hs hj

theorem kill_touchesLive (h : k.atPid pid fun p => p.state ≠ .unused) : k.TouchesLive c pid (kill pid) := by
  cases hf : k.findPid pid with
  | none => exact touchesLive_failed ((run_kill pid).trans (by rw [hf])) rfl
  | some i =>
    refine touchesLive_found hf (h i hf) ((run_kill pid).trans (by rw [hf])) fun j hj => ?_
    simp only [Kernel.kill]
    split_ifs <;> simp [Kernel.ready, Kernel.modProc, hj]

theorem setDeadline_touchesLive (h : k.atPid pid fun p => p.state ≠ .unused) (d : Int) :
    k.TouchesLive c pid (setDeadlineForProcess pid d) := by
  have hrun := run_setDeadlineForProcess (c := c) (k := k) pid d
  split_ifs at hrun
  · exact touchesLive_failed hrun rfl
  cases hf : k.findPid pid with
  | none => exact touchesLive_failed (hrun.trans (by rw [hf])) rfl
  | some i =>
    refine touchesLive_found hf (h i hf) (hrun.trans (by rw [hf])) fun j hj => ?_
    simp only [Kernel.setDeadline]
    split_ifs <;> simp [Kernel.modProc, hj]

theorem changeLevel_touchesLive (h : k.atPid pid fun p => p.state ≠ .unused) (n : Int) :
    k.TouchesLive c pid (changeSchedLevel pid n) := by
  have hrun := run_changeSchedLevel (c := c) (k := k) pid n
  by_cases hn : n ≠ 1 ∧ n ≠ 2
  · rw [if_pos hn] at hrun
    exact touchesLive_failed hrun rfl
  rw [if_neg hn] at hrun
  cases hf : k.findPid pid with
  | none => exact touchesLive_failed (hrun.trans (by rw [hf])) rfl
  | some i =>
    simp only [hf] at hrun
    split_ifs at hrun
    · exact touchesLive_failed hrun rfl
    · refine touchesLive_found hf (h i hf) hrun fun j hj => ?_
      simp only [Kernel.setLevel, Kernel.moveLevelCount]
      split_ifs <;> simp [Kernel.modProc, hj]

end Calls

/-! ## The killed flag -/

/-- no UNUSED slot has the flag -/
def Tab.Unmarked (t : Tab) : Prop := ∀ i, (t.task i).state = .unused → (t.task i).killed = 0

/-- kill does not hit an UNUSED slot, and fork does not fail on a child that was killed -/
def Sys.Addresses (s : Sys) : Op → Prop
  | .kill c pid => s.ready c → s.k.atPid pid fun p => p.state ≠ .unused
  | .forkFail c => ∀ i ∈ s.cur c, ∀ np, s.frame i = .forked np → (s.k.proc np).killed = 0
  | _ => True

instance (s : Sys) : (op : Op) → Decidable (s.Addresses op)
  | .kill _ _ => inferInstanceAs (Decidable (_ → Kernel.atPid _ _ _))
  | .forkFail c => inferInstanceAs (Decidable (∀ i ∈ s.cur c, ∀ np, s.frame i = .forked np → (s.k.proc np).killed = 0))
  | .userinit _ | .forkAlloc _ | .forkCopy _ | .forkFinish _ | .dispatch _ | .yield _ | .sleep _ _ | .wakeup _ _ | .exit _
  | .wait _ | .exec _ _ | .setDeadline _ _ _ | .changeLevel _ _ _ | .updateWaitTime _ _ | .age _ | .tick | .account _
  | .fault _ => .isTrue trivial

/-- the step is a kill that finds slot i -/
def Sys.kills (s : Sys) (op : Op) (i : Slot) : Prop := ∃ c pid, op = .kill c pid ∧ s.ready c ∧ s.k.findPid pid = some i

theorem labels_kill (h : s.labels op t (.kill i)) :
    (∃ c pid, op = .kill c pid ∧ s.k.findPid pid = some i) ∨ ∃ c, op = .fault c ∧ s.idle c = some i := by
  cases op <;> simp [Sys.labels, Pass, Resume, WaitRound, Farewell, Woken] at h ⊢ <;> exact h

/-- only a failed fork and wait free a slot -/
theorem used_apply (hc : t.can l) (ha : l ≠ .abort i) (hr : ∀ c j, l ≠ .reap c j i)
    (h : (t.task i).state ≠ .unused) : ((t.apply l).task i).state ≠ .unused := by
  by_cases e : l.slot = some i
  swap
  · rwa [apply_task_ne e]
  cases l <;> simp only [Label.slot, Option.some.injEq, reduceCtorEq] at e <;> subst e <;> simp_all [Tab.can, Tab.apply]
  split_ifs <;> simp_all

theorem unmarked_apply (hc : t.can l) (hk : ∀ i, l = .kill i → (t.task i).state ≠ .unused)
    (ha : ∀ i, l = .abort i → (t.task i).killed = 0) (h : t.Unmarked) : (t.apply l).Unmarked := by
  intro i
  by_cases e : l.slot = some i
  swap
  · rw [apply_task_ne e]; exact h i
  have hi := h i
  cases l <;> simp only [Label.slot, Option.some.injEq, reduceCtorEq] at e <;> subst e <;> simp_all [Tab.can, Tab.apply]
  split_ifs <;> simp_all

/-- an EMBRYO gets the flag by kill only -/
theorem embryo_apply (hc : t.can l) (hu : t.Unmarked) (hk : l ≠ .kill i)
    (h : (t.task i).state = .embryo → (t.task i).killed = 0) :
    ((t.apply l).task i).state = .embryo → ((t.apply l).task i).killed = 0 := by
  by_cases e : l.slot = some i
  swap
  · rwa [apply_task_ne e]
  have hi := hu i
  cases l <;> simp only [Label.slot, Option.some.injEq, reduceCtorEq] at e <;> subst e <;> simp_all [Tab.can, Tab.apply]
  split_ifs <;> simp_all

/-- the slot that a step sets the flag on -/
def Sys.marks (s : Sys) (op : Op) (i : Slot) : Prop := ∃ t, s.labels op t (.kill i)

theorem marks_used (h : s.Ok) (ha : s.Addresses op) (hr : ∀ c pid, op = .kill c pid → s.ready c)
    (hm : s.marks op i) : (s.k.tab.task i).state ≠ .unused := by
  obtain ⟨t, hl⟩ := hm
  rcases labels_kill hl with ⟨c, pid, rfl, hf⟩ | ⟨c, rfl, hi⟩
  · exact ha (hr c pid rfl) i hf
  · have hrun : (s.k.tab.task i).state = .running := h.running (idle_some hi).1
    rw [hrun]; decide

/-- an UNUSED slot never gets the flag, and an EMBRYO gets it by kill only -/
theorem takes_marks (h : s.Ok) (h' : (step s op).Ok) (ha : s.Addresses op) (hu : s.k.tab.Unmarked)
    (hr : ∀ c pid, op = .kill c pid → s.ready c) : (step s op).k.tab.Unmarked ∧
      ∀ i, ¬ s.marks op i → ((s.k.tab.task i).state = .embryo → (s.k.tab.task i).killed = 0) →
        ((step s op).k.tab.task i).state = .embryo → ((step s op).k.tab.task i).killed = 0 := by
  -- along the labels, the slots marked by the step stay in use and a child given up keeps its flag clear
  let P (t : Tab) : Prop := t.Unmarked ∧ (∀ i, s.marks op i → (t.task i).state ≠ .unused) ∧
    ∀ c i np, op = .forkFail c → s.cur c = some i → s.frame i = .forked np → (t.task np).killed = 0
  have hstep (t : Tab) (l : Label) (hl : s.labels op t l) (hc : t.can l) (hP : P t) : P (t.apply l) := by
    obtain ⟨hun, hused, hfail⟩ := hP
    have hk (i : Slot) (e : l = .kill i) : (t.task i).state ≠ .unused := hused i ⟨t, e ▸ hl⟩
    refine ⟨unmarked_apply hc hk (fun i e => ?_) hun, fun i hm => ?_, fun c i np hop hcur hfr => ?_⟩
    · subst e
      obtain ⟨c, j, hop, hcur, hfr⟩ := labels_abort hl
      exact hfail c j i hop hcur hfr
    · obtain ⟨u, hm'⟩ := hm
      rcases labels_kill hm' with ⟨c, pid, rfl, -⟩ | ⟨c, rfl, -⟩
      · refine used_apply hc ?_ ?_ (hused i ⟨u, hm'⟩)
        · rintro rfl; simp [Sys.labels, Woken] at hl
        · rintro c j rfl; simp [Sys.labels, Woken] at hl
      · refine used_apply hc ?_ ?_ (hused i ⟨u, hm'⟩)
        · rintro rfl; simp [Sys.labels] at hl
        · rintro c j rfl; simp [Sys.labels] at hl
    · subst hop
      obtain ⟨j, np', -, -, rfl⟩ := hl
      by_cases e : np = np'
      · subst e; simpa [Tab.apply] using hfail c i np rfl hcur hfr
      · rw [apply_off rfl _ e]
        exact hfail c i np rfl hcur hfr
  have h0 : P s.k.tab := by
    refine ⟨hu, fun i => marks_used h ha hr, fun c i np hop hcur hfr => ?_⟩
    subst hop
    exact ha i hcur np hfr
  refine ⟨(takes_inv hstep (step_takes h h') h0).1, fun i hm hi => ?_⟩
  refine (takes_inv (P := fun t => P t ∧ ((t.task i).state = .embryo → (t.task i).killed = 0)) (fun t l hl hc hP => ?_)
    (step_takes h h') ⟨h0, hi⟩).2
  exact ⟨hstep t l hl hc hP.1, embryo_apply hc hP.1.1 (fun e => hm ⟨t, e ▸ hl⟩) hP.2⟩

/-- **One step.** UNUSED slots stay without the flag; an EMBRYO has it if it had it, or if the step is a kill of it. -/
theorem step_marks (h : s.Ok) (h' : (step s op).Ok) (ha : s.Addresses op) (hu : s.k.tab.Unmarked) :
    (step s op).k.tab.Unmarked ∧
      ∀ i, ((step s op).k.proc i).state = .embryo → ((step s op).k.proc i).killed ≠ 0 →
        ((s.k.proc i).state = .embryo ∧ (s.k.proc i).killed ≠ 0) ∨ ((s.k.proc i).state ≠ .unused ∧ s.kills op i) := by
  by_cases hr : ∀ c pid, op = .kill c pid → s.ready c
  swap
  · -- a kill on a CPU that is not ready does nothing
    push Not at hr
    obtain ⟨c, pid, rfl, hr⟩ := hr
    have e : step s (.kill c pid) = s := by rw [step, if_neg hr]
    rw [e]
    exact ⟨hu, fun i hs hk => .inl ⟨hs, hk⟩⟩
  obtain ⟨hun, hemb⟩ := takes_marks h h' ha hu hr
  refine ⟨hun, fun i hs hk => ?_⟩
  by_cases hm : s.marks op i
  swap
  · refine .inl ?_
    by_contra hn
    refine hk (hemb i hm (fun e => ?_) hs)
    by_contra hk'
    exact hn ⟨e, hk'⟩
  have hused := marks_used h ha hr hm
  obtain ⟨t, hl⟩ := hm
  rcases labels_kill hl with ⟨c, pid, rfl, hf⟩ | ⟨c, rfl, hi⟩
  · exact .inr ⟨hused, c, pid, rfl, hr c pid rfl, hf⟩
  · -- a fault marks the running process, and it goes on running
    have hrun : (s.k.proc i).state = .running := h.running (idle_some hi).1
    have e : ((step s (.fault c)).k.proc i).state = .running := by
      simp only [step, hi, Sys.write, Sys.k, Kernel.modProc, Function.update_self]
      exact hrun
    rw [e] at hs; cases hs

/-! ## Runs -/

/-- the run called kill with the pid of the process in slot i when that process already existed -/
def KilledSince (ops : List Op) (i : Slot) : Prop :=
  ∃ pre c post, ops = pre ++ .kill c ((run boot pre).k.proc i).pid :: post ∧
    Throughout step (fun s => (s.k.proc i).state ≠ .unused) (run boot pre)
      (.kill c ((run boot pre).k.proc i).pid :: post)

/-- the process goes on existing -/
theorem killedSince_snoc {ops : List Op} (h : KilledSince ops i)
    (hs : ((run boot (ops ++ [op])).k.proc i).state ≠ .unused) : KilledSince (ops ++ [op]) i := by
  obtain ⟨pre, c, post, rfl, ht⟩ := h
  refine ⟨pre, c, post ++ [op], by simp, ?_⟩
  rw [← List.cons_append, throughout_append]
  have e : run boot (pre ++ .kill c ((run boot pre).k.proc i).pid :: post) =
      (.kill c ((run boot pre).k.proc i).pid :: post).foldl step (run boot pre) := run_append ..
  rw [run_append, e] at hs
  exact ⟨ht, throughout_last ht, hs⟩

/-- **Every run** along the condition: an EMBRYO with the flag set was killed after it was allocated. -/
theorem marked_run {ops : List Op} (ha : Along step Sys.Addresses boot ops)
    (hf : (run boot ops).w.locks .ptable = none) : (run boot ops).k.tab.Unmarked ∧
      ∀ i, ((run boot ops).k.proc i).state = .embryo → ((run boot ops).k.proc i).killed ≠ 0 → KilledSince ops i := by
  -- from the back, since the last step is the one that may have set the flag
  induction ops using List.reverseRecOn with
  | nil => exact ⟨fun _ _ => rfl, fun _ _ hk => absurd rfl hk⟩
  | append_singleton ops op ih =>
    have e : run boot (ops ++ [op]) = step (run boot ops) op := run_append ..
    obtain ⟨ha1, ha2, -⟩ := along_append.1 ha
    have hf1 : (run boot ops).w.locks .ptable = none := free_of_run_free (by rw [← run_append]; exact hf)
    obtain ⟨hun, hmark⟩ := ih ha1 hf1
    have hok := run_ok hf1
    have hok' : (step (run boot ops) op).Ok := step_ok hok (by rw [← e]; exact hf)
    obtain ⟨hun', hstep⟩ := step_marks hok hok' ha2 hun
    refine ⟨by rw [e]; exact hun', fun i hs hk => ?_⟩
    have hs' : ((run boot (ops ++ [op])).k.proc i).state ≠ .unused := by rw [hs]; decide
    rw [e] at hs hk
    rcases hstep i hs hk with ⟨hs0, hk0⟩ | ⟨hs0, c, pid, rfl, -, hpid⟩
    · exact killedSince_snoc (hmark i hs0 hk0) hs'
    · obtain rfl := findPid_some hpid
      exact ⟨ops, c, [], rfl, hs0, by rwa [e] at hs'⟩

/-- **Pid-addressed calls touch live processes only**, on a pid that does not lead to an UNUSED slot; and after a run in
which no kill hit an UNUSED slot and no fork failed on a killed child, the process that fork makes RUNNABLE next has the
flag clear, or kill was called with its pid since it was allocated. -/
theorem pid_calls_touch_live (ops : List Op) (ha : Along step Sys.Addresses boot ops)
    (hf : (run boot ops).w.locks .ptable = none) :
    (∀ c pid, ((run boot ops).k.atPid pid fun p => p.state ≠ .unused) →
      (run boot ops).k.TouchesLive c pid (kill pid) ∧
        (∀ d, (run boot ops).k.TouchesLive c pid (setDeadlineForProcess pid d)) ∧
        ∀ n, (run boot ops).k.TouchesLive c pid (changeSchedLevel pid n)) ∧
    ∀ c i np, (run boot ops).cur c = some i → (run boot ops).frame i = .copied np →
      ((step (run boot ops) (.forkFinish c)).k.proc np).state = .runnable ∧
        (((step (run boot ops) (.forkFinish c)).k.proc np).killed = 0 ∨ KilledSince ops np) := by
  refine ⟨fun c pid h => ⟨kill_touchesLive h, setDeadline_touchesLive h, changeLevel_touchesLive h⟩,
    fun c i np hc hfr => ?_⟩
  have hok := run_ok hf
  have hemb : ((run boot ops).k.proc np).state = .embryo := (hok.frames.copied i np hfr).1
  rw [step_forkFinish hok.locks hc hfr]
  have hready : (((run boot ops).k.ready np fun t q => { q with lastRun := int32 t }).proc np).state = .runnable ∧
      (((run boot ops).k.ready np fun t q => { q with lastRun := int32 t }).proc np).killed =
        ((run boot ops).k.proc np).killed := by
    rw [ready_proc_self]; exact ⟨rfl, rfl⟩
  refine ⟨hready.1, ?_⟩
  by_cases hk : ((run boot ops).k.proc np).killed = 0
  · exact .inl (hready.2.trans hk)
  · exact .inr ((marked_run ha hf).2 np hemb hk)

/-- init kills its child while fork is still working on it -/
def killedChildRun : List Op := [.userinit 0, .dispatch 0, .forkAlloc 0, .forkCopy 0, .kill 1 2]

theorem pid_calls_touch_live_killedChildRun :
    (run boot killedChildRun).k.TouchesLive 0 1 (kill 1) ∧ KilledSince killedChildRun 1 :=
  ⟨((pid_calls_touch_live killedChildRun (by decide +kernel) (by decide +kernel)).1 0 1 (by decide +kernel)).1,
    (((pid_calls_touch_live killedChildRun (by decide +kernel) (by decide +kernel)).2 0 0 1 (by decide +kernel)
      (by decide +kernel)).2.resolve_left (by decide +kernel))⟩

/-- init calls kill(0) and forks -/
def killZeroRun : List Op := [.userinit 0, .dispatch 0, .kill 0 0, .forkAlloc 0, .forkCopy 0, .forkFinish 0]

/-- kill(0) succeeds although no process has pid 0, and the next child, pid 2, starts out killed -/
theorem kill_zero_marks_next_child :
    (∃ w, (kill 0).run 0 (run boot [.userinit 0, .dispatch 0]).w = .ok 0 w ∧ (w.st.proc 1).state = .unused ∧
      (w.st.proc 1).killed = 1) ∧
    (∀ i, ((run boot [.userinit 0, .dispatch 0]).k.proc i).pid = 0 →
      ((run boot [.userinit 0, .dispatch 0]).k.proc i).state = .unused) ∧
    ((run boot [.userinit 0, .dispatch 0]).k.proc 1).killed = 0 ∧
    ((run boot killZeroRun).k.proc 1).state = .runnable ∧ ((run boot killZeroRun).k.proc 1).pid = 2 ∧
      ((run boot killZeroRun).k.proc 1).killed = 1 := by
  refine ⟨⟨⟨free, (run boot [.userinit 0, .dispatch 0]).k.kill 1⟩, ?_, by decide +kernel, by decide +kernel⟩,
    by decide +kernel⟩
  have hfind : (run boot [.userinit 0, .dispatch 0]).k.findPid 0 = some 1 := by decide +kernel
  rw [w_of_free (run_ok (by decide +kernel)).locks, run_kill, hfind]

end Xv6
