/-
Which process runs where.

ptable.lock is taken by one thread and released by another across `swtch`: sched, called from yield, sleep and exit with
the process's state already changed, goes back to the scheduler's stack, and only there `c->proc` is cleared and the lock
released; the scheduler sets `c->proc` and the state and switches to the process's stack, and the process releases the lock.
When the lock is free the two sides agree.

Results:
- `placed_apply`: every label keeps each RUNNING process on a CPU, and each CPU on the stack of its current process;
- `process_table_integrity`: pids, RUNNING processes and kernel stacks.
-/
import Xv6.Proc.Pids

namespace Xv6

open LockProg Runs Function

variable {s : Sys} {t : Tab} {l : Label}

structure Tab.Placed (t : Tab) : Prop where
  running : ∀ i, (t.task i).state = .running → ∃ c, t.cpu c = some i
  stack : ∀ c, t.stack c = t.cpu c

/-- CPU c switches to v, and slot i is the only one that starts or stops running -/
theorem placed_switch {u : Tab} {c : Cpu} {v : Option Slot} {i : Slot} (h : t.Placed)
    (hcpu : u.cpu = update t.cpu c v) (hstack : u.stack = update t.stack c v)
    (hi : (u.task i).state = .running → v = some i) (hne : ∀ j, j ≠ i → u.task j = t.task j)
    (hc : t.cpu c = none ∨ t.cpu c = some i) : u.Placed := by
  refine ⟨fun j hj => ?_, fun d => ?_⟩
  · by_cases e : j = i
    · subst e; exact ⟨c, by rw [hcpu, update_self, hi hj]⟩
    · rw [hne j e] at hj
      obtain ⟨d, hd⟩ := h.running j hj
      refine ⟨d, ?_⟩
      have hdc : d ≠ c := by
        rintro rfl
        rcases hc with e' | e' <;> rw [e'] at hd
        · cases hd
        · exact e (Option.some.inj hd).symm
      rw [hcpu, update_of_ne hdc, hd]
  · by_cases e : d = c
    · subst e; rw [hcpu, hstack, update_self, update_self]
    · rw [hcpu, hstack, update_of_ne e, update_of_ne e]; exact h.stack d

/-- no CPU switches, and no slot starts or stops running -/
theorem placed_same {u : Tab} (h : t.Placed) (hcpu : u.cpu = t.cpu) (hstack : u.stack = t.stack)
    (hs : ∀ i, (u.task i).state = .running → (t.task i).state = .running) : u.Placed := by
  refine ⟨fun i hi => ?_, fun c => ?_⟩
  · rw [hcpu]; exact h.running i (hs i hi)
  · rw [hcpu, hstack]; exact h.stack c

/-- **Every label keeps the CPUs and the RUNNING processes together.** -/
theorem placed_apply (hc : t.can l) (h : t.Placed) : (t.apply l).Placed := by
  have same {i : Slot} (hl : l.slot = some i) (hcpu : (t.apply l).cpu = t.cpu) (hstack : (t.apply l).stack = t.stack)
      (hs : ((t.apply l).task i).state = .running → (t.task i).state = .running) : (t.apply l).Placed := by
    refine placed_same h hcpu hstack fun j hj => ?_
    by_cases e : j = i
    · subst e; exact hs hj
    · rwa [apply_off hl j e] at hj
  cases l with
  | yield c i =>
    exact placed_switch (v := none) h (by simp [Tab.apply, Tab.setCpu]) (by simp [Tab.apply, Tab.setCpu])
      (by simp [Tab.apply]) (apply_off rfl) (.inr hc.2)
  | block c i ch ctx =>
    exact placed_switch (v := none) h (by simp [Tab.apply, Tab.setCpu]) (by simp [Tab.apply, Tab.setCpu])
      (by simp [Tab.apply]) (apply_off rfl) (.inr hc.2.1)
  | run c i n =>
    exact placed_switch (v := some i) h (by simp [Tab.apply, Tab.setCpu]) (by simp [Tab.apply, Tab.setCpu]) (fun _ => rfl)
      (apply_off rfl) (.inl hc.2)
  | die c i =>
    exact placed_switch (v := none) h (by simp [Tab.apply, Tab.setCpu]) (by simp [Tab.apply, Tab.setCpu])
      (by simp [Tab.apply]) (apply_off rfl) (.inr hc.2.1)
  | tick => exact placed_same h rfl rfl fun _ hi => hi
  | execed i =>
    refine same rfl ?_ ?_ fun _ => hc <;> simp only [Tab.apply] <;> split_ifs <;> rfl
  | _ => exact same rfl (by simp [Tab.apply]) (by simp [Tab.apply]) (by simp [Tab.apply])

theorem placed_run {ops : List Op} (hf : (run boot ops).w.locks .ptable = none) : (run boot ops).k.tab.Placed :=
  (run_inv (C := fun _ _ => True) (P := fun s => s.k.tab.Placed)
    (fun _ _ _ h hP h' => takes_inv (P := Tab.Placed) (fun _ _ _ hc hP => placed_apply hc hP) (step_takes h h') hP)
    (along_of_mem (fun _ _ _ => trivial) boot) boot_ok ⟨by simp [boot, Sys.k, Kernel.boot, Proc.zero, Proc.task], fun _ => rfl⟩
    hf).2

/-- **Process-table and CPU integrity.** In every state with ptable.lock free, for any number of CPUs and after fewer than
2^31 forks: no two processes have the same pid; the RUNNING processes are those that exactly one CPU has as its current
process, and a current process is RUNNING; and no CPU is on the kernel stack of a ZOMBIE. -/
theorem process_table_integrity (ops : List Op) (hn : forks boot ops < 2 ^ 31)
    (hf : (run boot ops).w.locks .ptable = none) :
    (∀ i j, ((run boot ops).k.proc i).state ≠ .unused → ((run boot ops).k.proc j).state ≠ .unused →
      ((run boot ops).k.proc i).pid = ((run boot ops).k.proc j).pid → i = j) ∧
    (∀ i, ((run boot ops).k.proc i).state = .running ↔ ∃! c, ((run boot ops).k.cpu c).proc = some i) ∧
    (∀ c i, ((run boot ops).k.cpu c).proc = some i → ((run boot ops).k.proc i).state = .running) ∧
    ∀ c i, ((run boot ops).k.cpu c).stack = some i → ((run boot ops).k.proc i).state ≠ .zombie := by
  have hok := run_ok hf
  have hap := apart_along (fresh_along hn hf) hf
  have hpl := placed_run hf
  have hrun (c : Cpu) (i : Slot) (h : ((run boot ops).k.cpu c).proc = some i) :
      ((run boot ops).k.proc i).state = .running := hok.tab.running c i h
  refine ⟨fun i j hi _ hij => hap.apart i j hij (hap.named i hi), fun i => ⟨fun hi => ?_, fun ⟨c, hc, _⟩ => hrun c i hc⟩,
    hrun, fun c i hc => ?_⟩
  · obtain ⟨c, hc⟩ := hpl.running i hi
    exact ⟨c, hc, fun d hd => hok.tab.alone d c i hd hc⟩
  · rw [hrun c i ((hpl.stack c).symm.trans hc)]
    decide

theorem process_table_integrity_sampleRun : ((run boot sampleRun).k.proc 0).state = .running ∧
    ∃! c, ((run boot sampleRun).k.cpu c).proc = some 0 :=
  ⟨by decide +kernel, ((process_table_integrity sampleRun (by decide +kernel) (by decide +kernel)).2.1 0).1
    (by decide +kernel)⟩

end Xv6
