/-
The run-queue counters against the table.

`Kernel.Exact`: count_edf, count_rr and count_fcfs are the numbers of RUNNABLE processes in the three queues.
set_deadline_for_process and change_sched_level move the counters by the level alone, so on a RUNNABLE real-time process
they miscount. `Sys.Counted s op` says that the step does not do that: no RUNNABLE class-1 process changes its level, and
none that has level 1 or 2 gets a new deadline.

Results:
- `counters_exact`: the counters are exact whenever ptable.lock is free along Counted steps, and along no others.
- `realtime_level_change_miscounts`: set_deadline_for_process and then change_sched_level on a waiting process give
  count_rr = 1 and count_fcfs = -1 with no process in either queue.
-/
import Xv6.Proc.Reach

namespace Xv6

open LockProg Runs Scan

/-! ## Exactness -/

def Task.inEdf (x : Task) : Prop := x.state = .runnable ∧ x.cls = 1
def Task.inRr (x : Task) : Prop := x.state = .runnable ∧ x.cls = 2 ∧ x.level = 1
def Task.inFcfs (x : Task) : Prop := x.state = .runnable ∧ x.cls = 2 ∧ x.level = 2

instance (x : Task) : Decidable x.inEdf := inferInstanceAs (Decidable (_ ∧ _))
instance (x : Task) : Decidable x.inRr := inferInstanceAs (Decidable (_ ∧ _))
instance (x : Task) : Decidable x.inFcfs := inferInstanceAs (Decidable (_ ∧ _))

structure Tab.Exact (t : Tab) : Prop where
  edf : t.edf = tally fun i => (t.task i).inEdf
  rr : t.rr = tally fun i => (t.task i).inRr
  fcfs : t.fcfs = tally fun i => (t.task i).inFcfs

/-- the counters are the numbers of RUNNABLE processes in each queue -/
def Kernel.Exact (k : Kernel) : Prop :=
  k.countEdf = tally (fun i => (k.proc i).runnable ∧ (k.proc i).edf) ∧
    k.countRr = tally (fun i => (k.proc i).runnable ∧ (k.proc i).rr) ∧
    k.countFcfs = tally (fun i => (k.proc i).runnable ∧ (k.proc i).fcfs)

instance (k : Kernel) : Decidable k.Exact := inferInstanceAs (Decidable (_ ∧ _))

theorem exact_iff {k : Kernel} : k.Exact ↔ k.tab.Exact :=
  ⟨fun h => ⟨h.1, h.2.1, h.2.2⟩, fun h => ⟨h.edf, h.rr, h.fcfs⟩⟩

/-- how far the three counters are from the numbers they should be -/
def Tab.drift (t : Tab) : Int × Int × Int :=
  (t.edf - tally (fun i => (t.task i).inEdf), t.rr - tally (fun i => (t.task i).inRr),
    t.fcfs - tally (fun i => (t.task i).inFcfs))

variable {t : Tab}

theorem exact_iff_drift : t.Exact ↔ t.drift = (0, 0, 0) := by
  constructor
  · rintro ⟨h1, h2, h3⟩
    simp [Tab.drift, h1, h2, h3]
  · intro h
    simp only [Tab.drift, Prod.mk.injEq, sub_eq_zero] at h
    exact ⟨h.1, h.2.1, h.2.2⟩

section Moves

variable (t : Tab) (x : Task) (d : Int)

theorem count_moves : (t.count x d).edf = t.edf + (if x.cls = 1 then d else 0) ∧
    (t.count x d).rr = t.rr + (if x.cls = 2 ∧ x.level = 1 then d else 0) ∧
    (t.count x d).fcfs = t.fcfs + (if x.cls = 2 ∧ x.level = 2 then d else 0) := by
  unfold Tab.count
  split_ifs <;> simp <;> omega

theorem countDeadline_moves : (t.countDeadline x).edf = t.edf + one (x.state = .runnable ∧ (x.level = 1 ∨ x.level = 2)) ∧
    (t.countDeadline x).rr = t.rr - one (x.state = .runnable ∧ x.level = 1) ∧
    (t.countDeadline x).fcfs = t.fcfs - one (x.state = .runnable ∧ x.level = 2) := by
  unfold Tab.countDeadline one
  split_ifs <;> simp_all

theorem countLevel_moves : (t.countLevel x).edf = t.edf ∧
    (t.countLevel x).rr = t.rr - one (x.state = .runnable ∧ x.level = 1) + one (x.state = .runnable ∧ x.level ≠ 1) ∧
    (t.countLevel x).fcfs = t.fcfs + one (x.state = .runnable ∧ x.level = 1) - one (x.state = .runnable ∧ x.level ≠ 1) := by
  unfold Tab.countLevel one
  split_ifs <;> simp_all

end Moves

def Tab.CountsAs (u v : Tab) : Prop := u.edf = v.edf ∧ u.rr = v.rr ∧ u.fcfs = v.fcfs

section Write

variable {u v : Tab} {i : Slot} (hoff : ∀ j, j ≠ i → u.task j = t.task j)

include hoff

/-- what a label does to the drift: its counters, those of v, move against the queues of the one task it writes -/
theorem drift_update (hm : u.CountsAs v) : u.drift = (t.drift.1 + (v.edf - t.edf) + one (t.task i).inEdf - one (u.task i).inEdf,
    t.drift.2.1 + (v.rr - t.rr) + one (t.task i).inRr - one (u.task i).inRr,
    t.drift.2.2 + (v.fcfs - t.fcfs) + one (t.task i).inFcfs - one (u.task i).inFcfs) := by
  have h1 := tally_update (p := fun j => (t.task j).inEdf) (q := fun j => (u.task j).inEdf) i
    fun j hj => by rw [hoff j hj]
  have h2 := tally_update (p := fun j => (t.task j).inRr) (q := fun j => (u.task j).inRr) i
    fun j hj => by rw [hoff j hj]
  have h3 := tally_update (p := fun j => (t.task j).inFcfs) (q := fun j => (u.task j).inFcfs) i
    fun j hj => by rw [hoff j hj]
  simp only [Tab.drift, h1, h2, h3, hm.1, hm.2.1, hm.2.2, Prod.mk.injEq]
  refine ⟨?_, ?_, ?_⟩ <;> ring

/-- a change of slot i that moves no counter, of a task outside the queues or one that stays in its queue -/
theorem drift_same (hm : u.CountsAs t) (hq : ((t.task i).state ≠ .runnable ∧ (u.task i).state ≠ .runnable) ∨
    ((u.task i).state = (t.task i).state ∧ (u.task i).cls = (t.task i).cls ∧ (u.task i).level = (t.task i).level)) :
    u.drift = t.drift := by
  rw [drift_update hoff hm]
  rcases hq with ⟨hx, hy⟩ | ⟨e1, e2, e3⟩
  · simp [one, Task.inEdf, Task.inRr, Task.inFcfs, hx, hy]
  · rw [one_congr (a := (u.task i).inEdf) (b := (t.task i).inEdf) (by simp only [Task.inEdf, e1, e2]),
      one_congr (a := (u.task i).inRr) (b := (t.task i).inRr) (by simp only [Task.inRr, e1, e2, e3]),
      one_congr (a := (u.task i).inFcfs) (b := (t.task i).inFcfs) (by simp only [Task.inFcfs, e1, e2, e3])]
    simp

/-- slot i enters its queue, and is counted there -/
theorem drift_enter (hm : u.CountsAs (t.count (t.task i) 1)) (hx : (t.task i).state ≠ .runnable)
    (hy : (u.task i).state = .runnable ∧ (u.task i).cls = (t.task i).cls ∧ (u.task i).level = (t.task i).level) :
    u.drift = t.drift := by
  obtain ⟨m1, m2, m3⟩ := count_moves t (t.task i) 1
  rw [drift_update hoff hm, m1, m2, m3]
  simp [one, Task.inEdf, Task.inRr, Task.inFcfs, hx, hy]

/-- slot i leaves its queue, and is counted out -/
theorem drift_leave (hm : u.CountsAs (t.count (t.task i) (-1))) (hx : (t.task i).state = .runnable)
    (hy : (u.task i).state ≠ .runnable) : u.drift = t.drift := by
  obtain ⟨m1, m2, m3⟩ := count_moves t (t.task i) (-1)
  rw [drift_update hoff hm, m1, m2, m3]
  simp only [one, Task.inEdf, Task.inRr, Task.inFcfs, hx, hy, true_and, false_and, if_false, Prod.ext_iff]
  refine ⟨?_, ?_, ?_⟩ <;> split_ifs <;> ring

end Write

theorem drift_run {c : Cpu} {i n : Slot} (hx : (t.task i).state = .runnable) :
    (t.apply (.run c i n)).drift = t.drift := by
  refine drift_leave (apply_off rfl) ?_ hx (by simp [Tab.apply])
  rw [Tab.apply, ← setTask_count]
  exact ⟨rfl, rfl, rfl⟩

/-- the label moves the level of a RUNNABLE real-time task -/
def Label.miscounts (t : Tab) : Label → Prop
  | .setDeadline i => (t.task i).inEdf ∧ ((t.task i).level = 1 ∨ (t.task i).level = 2)
  | .setLevel i _ => (t.task i).inEdf
  | _ => False

theorem drift_setDeadline (hok : t.Ok) (i : Slot) :
    (t.apply (.setDeadline i)).drift = t.drift ↔ ¬ (Label.setDeadline i).miscounts t := by
  obtain ⟨m1, m2, m3⟩ := countDeadline_moves t (t.task i)
  have hself : (t.apply (.setDeadline i)).task i = { t.task i with level := 0, cls := 1 } := by simp [Tab.apply]
  rw [drift_update (apply_off rfl) (v := t.countDeadline (t.task i)) ⟨rfl, rfl, rfl⟩, hself, m1, m2, m3]
  simp only [one, Label.miscounts, Task.inEdf, Task.inRr, Task.inFcfs, Prod.ext_iff]
  by_cases hr : (t.task i).state = .runnable
  · have hq := hok.queue i (by simp [hr])
    simp only [hr, true_and, if_true, and_true]
    rcases hq with hc | ⟨hc, hl | hl⟩
    · simp only [hc]
      by_cases h1 : (t.task i).level = 1
      · simp [h1]
      · by_cases h2 : (t.task i).level = 2
        · simp [h2]
        · simp [h1, h2]
    · simp [hc, hl]
    · simp [hc, hl]
  · simp [hr]

theorem drift_setLevel (hok : t.Ok) {i : Slot} {n : Int} (hc : t.can (.setLevel i n)) :
    (t.apply (.setLevel i n)).drift = t.drift ↔ ¬ (Label.setLevel i n).miscounts t := by
  obtain ⟨m1, m2, m3⟩ := countLevel_moves t (t.task i)
  have hself : (t.apply (.setLevel i n)).task i = { t.task i with level := n } := by simp [Tab.apply]
  rw [drift_update (apply_off rfl) (v := t.countLevel (t.task i)) ⟨rfl, rfl, rfl⟩, hself, m1, m2, m3]
  simp only [one, Label.miscounts, Task.inEdf, Task.inRr, Task.inFcfs, Prod.ext_iff]
  obtain ⟨hn, hne⟩ := hc
  by_cases hr : (t.task i).state = .runnable
  · have hq := hok.queue i (by simp [hr])
    simp only [hr, true_and]
    rcases hq with hcls | ⟨hcls, hl⟩
    · simp only [hcls]
      by_cases h1 : (t.task i).level = 1
      · simp [h1]
      · simp [h1]
    · rcases hn with rfl | rfl <;> rcases hl with hl | hl <;> simp_all
  · simp [hr]

/-- **The drift moves exactly with the labels that miscount.** -/
theorem drift_apply {l : Label} (hok : t.Ok) (hc : t.can l) : (t.apply l).drift = t.drift ↔ ¬ l.miscounts t := by
  have quiet (h : (t.apply l).drift = t.drift) (hn : ¬ l.miscounts t) : (t.apply l).drift = t.drift ↔ ¬ l.miscounts t :=
    ⟨fun _ => hn, fun _ => h⟩
  cases l with
  | setDeadline i => exact drift_setDeadline hok i
  | setLevel i n => exact drift_setLevel hok hc
  | tick => exact quiet rfl id
  | alloc i =>
    exact quiet (drift_same (apply_off rfl) ⟨rfl, rfl, rfl⟩ (.inl (by simp [Tab.apply, Tab.setTask, hc.1]))) id
  | abort i | adopt i j | block c i ch ctx | die c i =>
    exact quiet (drift_same (apply_off rfl) ⟨rfl, rfl, rfl⟩ (.inl (by simp [Tab.apply, hc.1]))) id
  | reap c i j => exact quiet (drift_same (apply_off rfl) ⟨rfl, rfl, rfl⟩ (.inl (by simp [Tab.apply, hc.2.2.1]))) id
  | clear i | inherit i | kill i | arrive i n =>
    exact quiet (drift_same (apply_off rfl) ⟨rfl, rfl, rfl⟩ (.inr (by simp [Tab.apply]))) id
  | execed i =>
    have hr : (t.task i).state = .running := hc
    refine quiet ?_ id
    refine drift_same (apply_off rfl) ⟨?_, ?_, ?_⟩ (.inl ⟨by simp [hr], ?_⟩) <;> simp only [Tab.apply] <;> split_ifs <;>
      simp [Tab.setTask, hr]
  | seed i =>
    refine quiet ?_ id
    rw [drift_update (apply_off rfl) ⟨rfl, rfl, rfl⟩]
    simp [Tab.apply, Tab.setTask, one, Task.inEdf, Task.inRr, Task.inFcfs, hc.1]
  | ready i =>
    have hx : (t.task i).state ≠ .runnable := by rcases hc.2 with e | ⟨e, -⟩ <;> simp [e]
    refine quiet (drift_enter (apply_off rfl) ?_ hx (by simp [Tab.apply])) id
    rw [Tab.apply, ← setTask_count]
    exact ⟨rfl, rfl, rfl⟩
  | yield c i =>
    refine quiet (drift_enter (apply_off rfl) ?_ (by simp [hc.1]) (by simp [Tab.apply])) id
    rw [Tab.apply, ← setTask_count]
    exact ⟨rfl, rfl, rfl⟩
  | run c i n => exact quiet (drift_run hc.1) id

/-! ## Steps and runs -/

/-- the step moves no RUNNABLE real-time process between levels, and gives none that has a level a new deadline -/
def Sys.Counted (s : Sys) : Op → Prop
  | .setDeadline c pid d => s.ready c → 0 ≤ d →
      s.k.atPid pid fun p => ¬ (p.runnable ∧ p.edf ∧ (p.schedLevel = 1 ∨ p.schedLevel = 2))
  | .changeLevel c pid n => s.ready c → n = 1 ∨ n = 2 → s.k.atPid pid fun p => p.schedLevel ≠ n → ¬ (p.runnable ∧ p.edf)
  | .age c => ∀ pid ∈ s.raising c, s.k.atPid pid fun p => p.schedLevel ≠ 1 → ¬ (p.runnable ∧ p.edf)
  | _ => True

instance (s : Sys) : (op : Op) → Decidable (s.Counted op)
  | .setDeadline _ _ _ => inferInstanceAs (Decidable (_ → _ → Kernel.atPid _ _ _))
  | .changeLevel _ _ _ => inferInstanceAs (Decidable (_ → _ → Kernel.atPid _ _ _))
  | .age _ => inferInstanceAs (Decidable (∀ pid ∈ s.raising _, Kernel.atPid _ pid _))
  | .userinit _ | .forkAlloc _ | .forkFail _ | .forkCopy _ | .forkFinish _ | .dispatch _ | .yield _ | .sleep _ _
  | .wakeup _ _ | .kill _ _ | .exit _ | .wait _ | .exec _ _ | .updateWaitTime _ _ | .tick | .account _ | .fault _ =>
    .isTrue trivial

variable {s : Sys}

theorem counted_labels {op : Op} {l : Label} (hC : s.Counted op) (hl : s.labels op t l) (hc : t.can l) :
    ¬ l.miscounts t := by
  cases l with
  | setDeadline i =>
    obtain ⟨c, pid, d, rfl, rfl, hr, hd, hf⟩ := labels_setDeadline hl
    exact fun hm => hC hr hd i hf ⟨hm.1.1, hm.1.2, hm.2⟩
  | setLevel i n =>
    obtain ⟨rfl, ⟨c, pid, rfl, hr, hf⟩ | ⟨c, pid, rfl, rfl, hr, hf⟩⟩ := labels_setLevel hl
    · exact fun hm => hC hr hc.1 i hf hc.2 hm
    · exact fun hm => hC pid hr i hf hc.2 hm
  | _ => exact id

/-- **A Counted step keeps the counters exact.** -/
theorem step_exact {op : Op} (h : s.Ok) (h' : (step s op).Ok) (hC : s.Counted op) (he : s.k.Exact) :
    (step s op).k.Exact := by
  have ht : Takes table (s.labels op) s.k.tab (step s op).k.tab :=
    step_takes h h'
  have hinv : (step s op).k.tab.Ok ∧ (step s op).k.tab.drift = (0, 0, 0) := by
    refine takes_inv (P := fun t => t.Ok ∧ t.drift = (0, 0, 0)) (fun t l hl hc hP => ?_) ht
      ⟨h.tab, exact_iff_drift.1 (exact_iff.1 he)⟩
    exact ⟨ok_apply hP.1 hc, ((drift_apply hP.1 hc).2 (counted_labels hC hl hc)).trans hP.2⟩
  exact exact_iff.2 (exact_iff_drift.2 hinv.2)

/-- a label that miscounts spoils exact counters -/
theorem not_exact_of_miscounts {k k' : Kernel} {l : Label} (hok : k.tab.Ok) (hc : k.tab.can l) (hm : l.miscounts k.tab)
    (ht : k'.tab = k.tab.apply l) (he : k.Exact) : ¬ k'.Exact := by
  intro he'
  have h0 := exact_iff_drift.1 (exact_iff.1 he)
  have h1 := exact_iff_drift.1 (exact_iff.1 he')
  rw [ht] at h1
  exact (drift_apply hok hc).1 (h1.trans h0.symm) hm

/-- a step that is not Counted spoils exact counters -/
theorem step_not_exact {op : Op} (h : s.Ok) (h' : (step s op).Ok) (hC : ¬ s.Counted op) (he : s.k.Exact) :
    ¬ (step s op).k.Exact := by
  have hfree : (step s op).w.locks .ptable = none := by rw [h'.locks]; rfl
  cases op with
  | setDeadline c pid d =>
    simp only [Sys.Counted, Kernel.atPid, not_forall, not_not] at hC
    obtain ⟨hr, hd, i, hf, hrun, hedf, hlev⟩ := hC
    rw [step_setDeadline h.locks hr, if_neg (not_lt.2 hd), hf]
    exact not_exact_of_miscounts (l := .setDeadline i) h.tab trivial ⟨⟨hrun, hedf⟩, hlev⟩ (tab_setDeadline i d) he
  | changeLevel c pid n =>
    simp only [Sys.Counted, Kernel.atPid, not_forall, not_not] at hC
    obtain ⟨hr, hn, i, hf, hlev, hrun⟩ := hC
    rw [step_changeLevel h.locks hr, if_neg (by tauto), hf]
    simp only [if_neg hlev]
    exact not_exact_of_miscounts (l := .setLevel i n) h.tab ⟨hn, hlev⟩ hrun (tab_setLevel i hn) he
  | age c =>
    simp only [Sys.Counted, Kernel.atPid, not_forall, not_not] at hC
    obtain ⟨pid, hp, i, hf, hlev, hrun⟩ := hC
    obtain ⟨n, j, ha⟩ := raising_some.1 hp
    rw [step_age_raise h.locks ha, hf]
    simp only [if_neg hlev]
    simp only [Sys.k, setAging_w]
    exact not_exact_of_miscounts (l := .setLevel i 1) h.tab ⟨.inl rfl, hlev⟩ hrun (tab_setLevel i (.inl rfl)) he
  | _ => exact absurd trivial hC

/-- **The run-queue counters.** Along Counted steps they are exact whenever ptable.lock is free. From a reachable state
in which they are exact, a step keeps them exact if and only if it is Counted. -/
theorem counters_exact (ops : List Op) :
    (Along step Sys.Counted boot ops → (run boot ops).w.locks .ptable = none → (run boot ops).k.Exact) ∧
      ∀ op, (run boot (ops ++ [op])).w.locks .ptable = none → (run boot ops).k.Exact →
        ((run boot (ops ++ [op])).k.Exact ↔ (run boot ops).Counted op) := by
  refine ⟨fun ha hf => ?_, fun op hf he => ?_⟩
  · exact (run_inv (P := fun s => s.k.Exact) (fun s op hC h he h' => step_exact h h' hC he) ha boot_ok
      (by decide +kernel) hf).2
  · have hstep : run boot (ops ++ [op]) = step (run boot ops) op := by simp [run]
    rw [hstep] at hf ⊢
    have h := run_ok (free_of_step_free hf)
    have h' := step_ok h hf
    exact ⟨fun he' => by_contra fun hC => step_not_exact h h' hC he he', fun hC => step_exact h h' hC he⟩

theorem counters_exact_sampleRun : Along step Sys.Counted boot sampleRun ∧
    (run boot sampleRun).w.locks .ptable = none ∧ (run boot sampleRun).k.Exact :=
  ⟨by decide +kernel, by decide +kernel, (counters_exact sampleRun).1 (by decide +kernel) (by decide +kernel)⟩

/-- a waiting process gets a deadline, and then a level -/
def miscountedRun : List Op :=
  [.userinit 0, .dispatch 0, .forkAlloc 0, .forkCopy 0, .forkFinish 0, .setDeadline 0 2 100, .changeLevel 0 2 1]

theorem realtime_level_change_miscounts : (run boot miscountedRun).w.locks .ptable = none ∧
    (run boot miscountedRun).k.countRr = 1 ∧ (run boot miscountedRun).k.countFcfs = -1 ∧
    (∀ i, ¬ (((run boot miscountedRun).k.proc i).runnable ∧ ((run boot miscountedRun).k.proc i).rr)) ∧
    ∀ i, ¬ (((run boot miscountedRun).k.proc i).runnable ∧ ((run boot miscountedRun).k.proc i).fcfs) := by
  decide +kernel

end Xv6
