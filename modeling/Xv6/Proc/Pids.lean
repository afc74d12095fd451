/-
Pids.

allocproc numbers processes with a counter that wraps around, and kill, set_deadline_for_process, change_sched_level and
update_wait_time find a process by its pid alone. `Tab.Apart`: every process has a pid, and no other slot has the same
one. A freed slot may keep its old pid, and a reaped one has pid 0.

Results:
- `step_allocates`: a step allocates at most one pid, and says when;
- `apart_along`: when every allocation takes a fresh pid (`Sys.FreshPid`), the pids stay apart, and `findPid_self` finds
  each process under its own;
- `numbered_run`: after n forks the pids in the table are among the first n + 1 numbers, so `fresh_along`: with fewer than
  2^31 forks every allocation is fresh.
-/
import Xv6.Proc.Reach

namespace Xv6

open LockProg Runs

/-! ## Allocations -/

/-- the label numbers a process -/
def Label.allocates : Label → Prop
  | .alloc _ | .seed _ => True
  | _ => False

/-- the step numbers a process -/
def Sys.allocates (s : Sys) : Op → Prop
  | .userinit c => s.ready c ∧ s.k.initproc = none
  | .forkAlloc c => s.idle c ≠ none ∧ s.k.findUnused ≠ none
  | _ => False

instance (s : Sys) : (op : Op) → Decidable (s.allocates op)
  | .userinit c => inferInstanceAs (Decidable (s.ready c ∧ s.k.initproc = none))
  | .forkAlloc c => inferInstanceAs (Decidable (s.idle c ≠ none ∧ s.k.findUnused ≠ none))
  | .forkFail _ | .forkCopy _ | .forkFinish _ | .dispatch _ | .yield _ | .sleep _ _ | .wakeup _ _ | .kill _ _ | .exit _
  | .wait _ | .exec _ _ | .setDeadline _ _ _ | .changeLevel _ _ _ | .updateWaitTime _ _ | .age _ | .tick | .account _
  | .fault _ => .isFalse id

variable {s : Sys} {t : Tab} {l : Label} {op : Op} {i : Slot} {ops : List Op}

theorem labels_alloc (h : s.labels op t (.alloc i)) : ∃ c, op = .forkAlloc c := by
  cases op <;> simp [Sys.labels, Pass, Resume, WaitRound, Farewell, Woken] at h ⊢

theorem labels_seed (h : s.labels op t (.seed i)) : ∃ c, op = .userinit c := by
  cases op <;> simp [Sys.labels, Pass, Resume, WaitRound, Farewell, Woken] at h ⊢

/-- **A step allocates at most one pid.** -/
theorem step_allocates (h : s.Ok) (h' : (step s op).Ok) :
    Takes table (fun _ l => ¬ l.allocates) s.k.tab (step s op).k.tab ∨
      ∃ l, l.allocates ∧ s.k.tab.can l ∧ (step s op).k.tab = s.k.tab.apply l ∧ s.allocates op := by
  cases op with
  | userinit c =>
    by_cases hg : s.ready c ∧ s.k.initproc = none
    · obtain ⟨i, hi⟩ := findUnused_of_unused (h.tab.empty hg.2 0)
      refine .inr ⟨.seed i, trivial, ⟨findUnused_some hi, hg.2⟩, ?_, hg⟩
      rw [step_userinit h.locks hg hi, to_k, tab_seeded]
    · rw [step, if_neg hg]; exact .inl (takes_refl _)
  | forkAlloc c =>
    cases hc : s.idle c with
    | none => simp only [step, hc]; exact .inl (takes_refl _)
    | some i =>
      rw [step_forkAlloc h.locks hc]
      cases hu : s.k.findUnused with
      | none => exact .inl (takes_refl _)
      | some np =>
        exact .inr ⟨.alloc np, trivial, ⟨findUnused_some hu, h.started (idle_some hc).1⟩, tab_alloc np, by simp [hc],
          by simp [hu]⟩
  | _ =>
    refine .inl (takes_mono (fun t l hl => ?_) (step_takes h h'))
    cases l with
    | alloc i => obtain ⟨c, e⟩ := labels_alloc hl; cases e
    | seed i => obtain ⟨c, e⟩ := labels_seed hl; cases e
    | _ => exact id

/-- other labels keep a slot's pid, or free the slot with pid 0 -/
theorem apply_pid (hc : t.can l) (hn : ¬ l.allocates) (j : Slot) :
    ((t.apply l).task j).pid = (t.task j).pid ∧ (((t.apply l).task j).state ≠ .unused → (t.task j).state ≠ .unused) ∨
      ((t.apply l).task j).pid = 0 ∧ ((t.apply l).task j).state = .unused := by
  by_cases e : l.slot = some j
  swap
  · exact .inl (by rw [apply_task_ne e]; exact ⟨rfl, id⟩)
  cases l <;> simp only [Label.slot, Option.some.injEq, reduceCtorEq] at e <;> subst e <;>
    simp_all [Tab.can, Tab.apply, Label.allocates]
  · rcases hc.2 with h | h <;> simp [h]
  · split_ifs <;> simp [hc]

/-- an allocation gives one slot the next pid -/
theorem allocates_pid (h : l.allocates) : ∃ i, ((t.apply l).task i).pid = t.nextpid ∧
    ((t.apply l).task i).state ≠ .unused ∧ (∀ j, j ≠ i → (t.apply l).task j = t.task j) ∧
      (t.apply l).nextpid = int32 (t.nextpid + 1) := by
  cases l <;> simp only [Label.allocates] at h
  case alloc i => exact ⟨i, by simp [Tab.apply], by simp [Tab.apply], apply_off rfl, rfl⟩
  case seed i => exact ⟨i, by simp [Tab.apply], by simp [Tab.apply], apply_off rfl, rfl⟩

/-! ## Pids stay apart -/

structure Tab.Apart (t : Tab) : Prop where
  named : ∀ i, (t.task i).state ≠ .unused → (t.task i).pid ≠ 0
  apart : ∀ i j, (t.task i).pid = (t.task j).pid → (t.task i).pid ≠ 0 → i = j

/-- the next pid is not 0, and no slot has it -/
def Kernel.freshPid (k : Kernel) : Prop := k.nextpid ≠ 0 ∧ ∀ j, (k.proc j).pid ≠ k.nextpid

instance (k : Kernel) : Decidable k.freshPid :=
  inferInstanceAs (Decidable (k.nextpid ≠ 0 ∧ ∀ j, (k.proc j).pid ≠ k.nextpid))

/-- a step that allocates takes a fresh pid -/
def Sys.FreshPid (s : Sys) (op : Op) : Prop := s.allocates op → s.k.freshPid

instance (s : Sys) (op : Op) : Decidable (s.FreshPid op) := inferInstanceAs (Decidable (s.allocates op → s.k.freshPid))

theorem apart_apply (hc : t.can l) (hn : ¬ l.allocates) (h : t.Apart) : (t.apply l).Apart := by
  constructor
  · intro i hi
    rcases apply_pid hc hn i with ⟨hp, hs⟩ | ⟨-, hs⟩
    · rw [hp]; exact h.named i (hs hi)
    · exact absurd hs hi
  · intro i j hij hi
    rcases apply_pid hc hn i with ⟨hp, -⟩ | ⟨hp, -⟩
    · rcases apply_pid hc hn j with ⟨hq, -⟩ | ⟨hq, -⟩
      · rw [hp] at hij hi
        exact h.apart i j (hij.trans hq) hi
      · exact absurd (hij.trans hq) hi
    · exact absurd hp hi

theorem apart_allocates (ha : l.allocates) (h : t.Apart) (h0 : t.nextpid ≠ 0) (hf : ∀ j, (t.task j).pid ≠ t.nextpid) :
    (t.apply l).Apart := by
  obtain ⟨i, hp, -, hne, -⟩ := allocates_pid (t := t) ha
  constructor
  · intro j hj
    by_cases e : j = i
    · rw [e, hp]; exact h0
    · rw [hne j e] at hj ⊢; exact h.named j hj
  · intro j m hjm hj
    by_cases ej : j = i <;> by_cases em : m = i
    · rw [ej, em]
    · rw [ej, hp, hne m em] at hjm; exact absurd hjm.symm (hf m)
    · rw [em, hp, hne j ej] at hjm; exact absurd hjm (hf j)
    · rw [hne j ej] at hjm hj; rw [hne m em] at hjm; exact h.apart j m hjm hj

theorem step_apart (h : s.Ok) (h' : (step s op).Ok) (hf : s.FreshPid op) (ha : s.k.tab.Apart) :
    (step s op).k.tab.Apart := by
  rcases step_allocates h h' with ht | ⟨l, hl, -, ht, hop⟩
  · exact takes_inv (P := Tab.Apart) (fun t l hn hc hP => apart_apply hc hn hP) ht ha
  · rw [ht]; exact apart_allocates hl ha (hf hop).1 (hf hop).2

/-- **Pids stay apart** along fresh allocations. -/
theorem apart_along (ha : Along step Sys.FreshPid boot ops)
    (hf : (run boot ops).w.locks .ptable = none) : (run boot ops).k.tab.Apart :=
  (run_inv (P := fun s => s.k.tab.Apart) (fun _ _ hC h hP h' => step_apart h h' hC hP) ha boot_ok
    ⟨fun _ hi => absurd rfl hi, fun _ _ _ hi => absurd rfl hi⟩ hf).2

theorem findPid_some {k : Kernel} {pid : Int} (h : k.findPid pid = some i) : (k.proc i).pid = pid := by
  simpa using List.find?_some h

/-- a process is found under its own pid -/
theorem findPid_self {k : Kernel} (h : k.tab.Apart) (hi : (k.proc i).state ≠ .unused) :
    k.findPid (k.proc i).pid = some i := by
  cases hf : k.findPid (k.proc i).pid with
  | none => simpa using List.find?_eq_none.1 hf i (mem_slots i)
  | some j =>
    have hp := findPid_some hf
    rw [h.apart j i hp (by rw [show (k.tab.task j).pid = (k.proc i).pid from hp]; exact h.named i hi)]

/-! ## Numbers -/

/-- after m allocations the next pid is number m + 1, and a slot has pid 0 or one of the first m -/
structure Tab.Numbered (t : Tab) (m : ℕ) : Prop where
  next : t.nextpid = int32 (m + 1)
  past : ∀ i, (t.task i).pid = 0 ∨ ∃ n : ℕ, 1 ≤ n ∧ n ≤ m ∧ (t.task i).pid = int32 n
  start : t.init = none → m = 0

/-- a label that allocates no pid leaves the counter, and init -/
theorem apply_nextpid (hn : ¬ l.allocates) : (t.apply l).nextpid = t.nextpid ∧ (t.apply l).init = t.init := by
  cases l <;> simp only [Label.allocates, not_true_eq_false, not_false_eq_true] at hn <;> simp [Tab.apply]
  split_ifs <;> simp

theorem numbered_apply {m : ℕ} (hc : t.can l) (hn : ¬ l.allocates) (h : t.Numbered m) : (t.apply l).Numbered m := by
  obtain ⟨e1, e2⟩ := apply_nextpid (t := t) hn
  refine ⟨e1.trans h.next, fun i => ?_, fun e => h.start (e2 ▸ e)⟩
  rcases apply_pid hc hn i with ⟨e, -⟩ | ⟨e, -⟩
  · rw [e]; exact h.past i
  · exact .inl e

theorem numbered_allocates {m : ℕ} (hc : t.can l) (ha : l.allocates) (h : t.Numbered m) :
    (t.apply l).Numbered (m + 1) := by
  obtain ⟨i, hp, -, hne, hnext⟩ := allocates_pid (t := t) ha
  refine ⟨?_, fun j => ?_, fun e => ?_⟩
  · rw [hnext, h.next, int32_add]
    push_cast; rfl
  · by_cases e : j = i
    · rw [e, hp, h.next]
      exact .inr ⟨m + 1, by omega, le_rfl, by push_cast; rfl⟩
    · rw [hne j e]
      rcases h.past j with h0 | ⟨n, h1, h2, h3⟩
      · exact .inl h0
      · exact .inr ⟨n, h1, by omega, h3⟩
  · cases l <;> simp only [Label.allocates] at ha
    case alloc => exact absurd e hc.2
    case seed => cases e

/-- the next number is no slot's -/
theorem fresh_of_numbered {k : Kernel} {m : ℕ} (hm : m + 1 < 2 ^ 32) (h : k.tab.Numbered m) : k.freshPid := by
  have hnext : k.nextpid = int32 (m + 1) := h.next
  refine ⟨fun e => ?_, fun j e => ?_⟩
  · have := int32_inj (by omega) (by omega) le_rfl (by norm_num) ((hnext.symm.trans e).trans int32_zero.symm)
    omega
  · rcases h.past j with hj | ⟨n, h1, h2, hj⟩
    · have := int32_inj (by omega) (by omega) le_rfl (by norm_num) 
        (((hnext.symm.trans e.symm).trans hj).trans int32_zero.symm)
      omega
    · have := int32_inj (by omega) (by omega) (by omega) (by omega) ((hnext.symm.trans e.symm).trans hj)
      omega

/-- 1 if the step is a fork that gets a slot -/
def Sys.forkStep (s : Sys) : Op → ℕ
  | .forkAlloc c => if s.allocates (.forkAlloc c) then 1 else 0
  | _ => 0

/-- how many forks of the run get a slot -/
def forks : Sys → List Op → ℕ
  | _, [] => 0
  | s, op :: ops => s.forkStep op + forks (step s op) ops

/-- **One step** of the numbering: init takes number 1, and a fork takes the next. -/
theorem step_numbered (h : s.Ok) (h' : (step s op).Ok) {m n : ℕ} (hm : s.k.tab.Numbered m) (hmn : m ≤ n + 1)
    (hn : n + s.forkStep op < 2 ^ 31) : s.FreshPid op ∧
      ∃ m', (step s op).k.tab.Numbered m' ∧ m ≤ m' ∧ m' ≤ n + s.forkStep op + 1 := by
  refine ⟨fun _ => fresh_of_numbered (by omega) hm, ?_⟩
  rcases step_allocates h h' with ht | ⟨l, hl, hc, ht, hop⟩
  · exact ⟨m, takes_inv (P := fun t => t.Numbered m) (fun t l hn hc hP => numbered_apply hc hn hP) ht hm, le_rfl, by omega⟩
  · rw [ht]
    refine ⟨m + 1, numbered_allocates hc hl hm, by omega, ?_⟩
    cases op <;> simp only [Sys.allocates] at hop
    case userinit c =>
      have := hm.start hop.2
      omega
    case forkAlloc c =>
      have e : s.forkStep (.forkAlloc c) = 1 := if_pos hop
      omega

theorem numbered_run {m n : ℕ} (h : s.Ok) (hm : s.k.tab.Numbered m) (hmn : m ≤ n + 1)
    (hn : n + forks s ops < 2 ^ 31) (hf : (run s ops).w.locks .ptable = none) : Along step Sys.FreshPid s ops ∧
      ∃ m', (run s ops).k.tab.Numbered m' ∧ m' ≤ n + forks s ops + 1 := by
  induction ops generalizing s m n with
  | nil => exact ⟨trivial, m, hm, hmn⟩
  | cons op ops ih =>
    simp only [forks] at hn ⊢
    have h' := step_ok h (free_of_run_free (s := step s op) hf)
    obtain ⟨hfresh, m', hm', -, hmn'⟩ := step_numbered h h' hm hmn (by omega)
    obtain ⟨ha, m'', hm'', hle⟩ := ih h' hm' hmn' (by omega) hf
    exact ⟨⟨hfresh, ha⟩, m'', hm'', by omega⟩

theorem numbered_boot : boot.k.tab.Numbered 0 where
  next := (int32_eq (x := 1) (by norm_num) (by norm_num)).symm
  past _ := .inl rfl
  start _ := rfl

/-- **With fewer than 2^31 forks every allocation is fresh.** -/
theorem fresh_along (hn : forks boot ops < 2 ^ 31) (hf : (run boot ops).w.locks .ptable = none) :
    Along step Sys.FreshPid boot ops :=
  (numbered_run (n := 0) boot_ok numbered_boot (by omega) (by omega) hf).1

end Xv6
