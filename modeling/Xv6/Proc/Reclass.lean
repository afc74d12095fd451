/-
Reclassification: what change_sched_level and set_deadline_for_process leave a process as.

set_deadline_for_process writes the class, the level and the deadline. change_sched_level writes the level only, so a
real-time process that is given a level stays real-time: the EDF branch still picks it.

Results:
- `change_returns`, `deadline_returns`: what a call that returned 0 has written, from any state.
- `choose_enters`: a process of class 2 is picked by the branch of its level only.
- `reclassification`: after change_sched_level the process has the class and level asked for if and only if its class was 2.
- `realtime_keeps_class`: a deadline and then level 1: both calls return 0, and the class is 1.
-/
import Xv6.Proc.Pids
import Xv6.Proc.Scheduling

namespace Xv6

open LockProg Runs Scan Function

/-- every process with this pid satisfies P -/
def Kernel.named (k : Kernel) (pid : Int) (P : Proc → Prop) : Prop :=
  ∀ i, (k.proc i).state ≠ .unused → (k.proc i).pid = pid → P (k.proc i)

/-- from k to k' the class, level and deadline of every process with another pid stay -/
def Kernel.KeepsOthers (k k' : Kernel) (pid : Int) : Prop :=
  ∀ i, (k.proc i).pid ≠ pid → (k'.proc i).schedClass = (k.proc i).schedClass ∧
    (k'.proc i).schedLevel = (k.proc i).schedLevel ∧ (k'.proc i).deadline = (k.proc i).deadline

/-- the pass would enter the branch of this level -/
def Kernel.enters (k : Kernel) (level : Int) : Prop :=
  ¬ 0 < k.countEdf ∧ (level = 1 → 0 < k.countRr) ∧ (level = 2 → ¬ 0 < k.countRr ∧ 0 < k.countFcfs)

variable {k : Kernel} {c : Cpu} {pid : Int}

/-! ## What the calls write -/

theorem setLevel_proc (i : Slot) (t : Int) : (k.setLevel i t).proc =
    update k.proc i { k.proc i with schedLevel := if t = 2 then 2 else 1 } := by
  have hm : (k.moveLevelCount i).proc = k.proc := by
    unfold Kernel.moveLevelCount
    split_ifs <;> rfl
  simp [Kernel.setLevel, Kernel.modProc, hm]

theorem setDeadline_proc (i : Slot) (d : Int) : (k.setDeadline i d).proc =
    update k.proc i { k.proc i with schedLevel := 0, schedClass := 1, deadline := d } := by
  simp only [Kernel.setDeadline]
  split_ifs <;> rfl

/-- a call of change_sched_level that returned 0 found the process and wrote its level -/
theorem change_returns {L : Int} {w' : KWorld} (hL : L = 1 ∨ L = 2)
    (h : (changeSchedLevel pid L).run c ⟨free, k⟩ = .ok 0 w') :
    ∃ i, k.findPid pid = some i ∧ w'.st.proc = update k.proc i { k.proc i with schedLevel := L } := by
  rw [run_changeSchedLevel, if_neg (by omega)] at h
  cases hf : k.findPid pid with
  | none => simp [hf] at h
  | some i =>
    simp only [hf] at h
    split_ifs at h
    · simp at h
    · have hlevel : (if L = 2 then 2 else 1) = L := by split_ifs <;> omega
      obtain ⟨-, rfl⟩ := Outcome.ok.inj h
      exact ⟨i, rfl, by rw [setLevel_proc, hlevel]⟩

/-- a call of set_deadline_for_process that returned 0 found the process and wrote its class, level and deadline -/
theorem deadline_returns {d : Int} {w' : KWorld} (h : (setDeadlineForProcess pid d).run c ⟨free, k⟩ = .ok 0 w') :
    ∃ i, k.findPid pid = some i ∧ w'.st.proc =
      update k.proc i { k.proc i with schedLevel := 0, schedClass := 1, deadline := d } := by
  rw [run_setDeadlineForProcess] at h
  split_ifs at h
  · simp at h
  cases hf : k.findPid pid with
  | none => simp [hf] at h
  | some i =>
    simp only [hf] at h
    obtain ⟨-, rfl⟩ := Outcome.ok.inj h
    exact ⟨i, rfl, setDeadline_proc i d⟩

/-- both calls wait for ptable.lock, unless they refuse their arguments -/
theorem change_needs {L : Int} (hL : L = 1 ∨ L = 2) : Needs .ptable (changeSchedLevel pid L) := by
  rw [changeSchedLevel, if_neg (by omega)]
  exact needs_acquire _

theorem deadline_free {d : Int} {w w' : KWorld} (h : (setDeadlineForProcess pid d).run c w = .ok 0 w') :
    w.locks .ptable = none := by
  by_contra hn
  by_cases hd : d < 0
  · -- refused: the message is printed and -1 returned
    simp only [setDeadlineForProcess, if_pos hd, Prog.bind_eq, run_bind, Prog.pure_eq, run_ret] at h
    cases hc : cprintf.run c w <;> simp [hc] at h
  · rw [setDeadlineForProcess, if_neg hd] at h
    exact needs_acquire _ c w 0 w' hn h

/-! ## The processes afterwards -/

theorem keepsOthers_update {k' : Kernel} {i : Slot} {p : Proc} (hf : k.findPid pid = some i)
    (h : k'.proc = update k.proc i p) : k.KeepsOthers k' pid := by
  intro j hj
  have hne : j ≠ i := fun e => hj (by rw [e]; exact findPid_some hf)
  rw [h, update_of_ne hne]
  exact ⟨rfl, rfl, rfl⟩

/-- with the pids apart, the process that the scan finds is the one with the pid -/
theorem named_update (ha : k.tab.Apart) {k' : Kernel} {i : Slot} {p : Proc} (hf : k.findPid pid = some i)
    (h : k'.proc = update k.proc i p) (hs : p.state = (k.proc i).state) (hp : p.pid = (k.proc i).pid)
    {P : Proc → Prop} : k'.named pid P ↔ ((k.proc i).state ≠ .unused → P p) := by
  have hi : (k'.proc i) = p := by rw [h, update_self]
  constructor
  · intro hn hu
    have := hn i (by rwa [hi, hs]) (by rw [hi, hp]; exact findPid_some hf)
    rwa [hi] at this
  · intro hP j hu hj
    by_cases e : j = i
    · subst e
      rw [hi] at hu ⊢
      exact hP (by rwa [← hs])
    · rw [h, update_of_ne e] at hu hj
      have := findPid_self ha hu
      rw [hj, hf] at this
      exact absurd (Option.some.inj this).symm e

theorem named_iff (ha : k.tab.Apart) {i : Slot} (hf : k.findPid pid = some i) {P : Proc → Prop} :
    k.named pid P ↔ ((k.proc i).state ≠ .unused → P (k.proc i)) :=
  named_update ha hf (update_eq_self i k.proc).symm rfl rfl

/-- a process of class 2 is picked only by the branch of its level -/
theorem choose_enters {n i : Slot} (hc : (k.proc i).schedClass = 2) (h : (k.choose n).1 = some i) :
    k.enters (k.proc i).schedLevel := by
  unfold Kernel.choose at h
  split_ifs at h with h1 h2 h3
  · have := (leastBy_some h).2.1.2
    rw [Proc.edf, hc] at this
    exact absurd this (by decide)
  · cases hr : k.rrLoop n with
    | none => simp [hr] at h
    | some j =>
      simp only [hr, Option.some.injEq] at h
      subst h
      have hl : (k.proc j).schedLevel = 1 := (ringFind_some (m := 63) hr).1.2
      exact ⟨h1, fun _ => h2, fun e => by omega⟩
  · have hl : (k.proc i).schedLevel = 2 := (leastBy_some h).2.1.2.2
    exact ⟨h1, fun e => by omega, fun _ => ⟨h2, h3⟩⟩

/-- **Reclassification.** In every state reached with fresh pids. A call of change_sched_level that returns 0 leaves the
process with that pid in class 2 at level L, and so in the branch of level L alone, if and only if its class was 2. A call
of set_deadline_for_process that returns 0 leaves it in class 1 with that deadline. No other process changes. -/
theorem reclassification (ops : List Op) (hf : Along step Sys.FreshPid boot ops) (c : Cpu) (pid : Int) (w' : KWorld) :
    (∀ L, L = 1 ∨ L = 2 → (changeSchedLevel pid L).run c (run boot ops).w = .ok 0 w' →
      (w'.st.named pid (fun p => p.schedClass = 2 ∧ p.schedLevel = L) ↔
        (run boot ops).k.named pid fun p => p.schedClass = 2) ∧
      ((run boot ops).k.named pid (fun p => p.schedClass = 2) →
        ∀ n i, (w'.st.choose n).1 = some i → (w'.st.proc i).pid = pid → w'.st.enters L) ∧
      (run boot ops).k.KeepsOthers w'.st pid) ∧
    (∀ d, (setDeadlineForProcess pid d).run c (run boot ops).w = .ok 0 w' →
      w'.st.named pid (fun p => p.schedClass = 1 ∧ p.deadline = d) ∧ (run boot ops).k.KeepsOthers w'.st pid) := by
  constructor
  · intro L hL h
    have hfree : (run boot ops).w.locks .ptable = none := by
      by_contra hn
      exact change_needs hL c _ 0 w' hn h
    have ha := apart_along hf hfree
    rw [w_of_free (run_ok hfree).locks] at h
    obtain ⟨i, hi, hw⟩ := change_returns hL h
    have heff : w'.st.named pid (fun p => p.schedClass = 2 ∧ p.schedLevel = L) ↔
        (run boot ops).k.named pid fun p => p.schedClass = 2 := by
      rw [named_update ha hi hw rfl rfl, named_iff ha hi]
      simp
    refine ⟨heff, fun hcls n j hj hp => ?_, keepsOthers_update hi hw⟩
    have hused : (w'.st.proc j).state ≠ .unused := by rw [choose_runnable hj]; decide
    obtain ⟨h2, hlevel⟩ := heff.2 hcls j hused hp
    rw [← hlevel]
    exact choose_enters h2 hj
  · intro d h
    have hfree := deadline_free h
    have ha := apart_along hf hfree
    rw [w_of_free (run_ok hfree).locks] at h
    obtain ⟨i, hi, hw⟩ := deadline_returns h
    refine ⟨?_, keepsOthers_update hi hw⟩
    rw [named_update ha hi hw rfl rfl]
    exact fun _ => ⟨rfl, rfl⟩

/-- init's child gets a deadline; nothing else happens to it -/
def deadlineRun : List Op := [.userinit 0, .dispatch 0, .forkAlloc 0, .forkCopy 0, .forkFinish 0, .setDeadline 0 2 100]

theorem reclassification_deadlineRun :
    Along step Sys.FreshPid boot deadlineRun ∧ (changeSchedLevel 1 2).run 0 (run boot deadlineRun).w =
        .ok 0 ⟨free, (run boot deadlineRun).k.setLevel 0 2⟩ ∧
      (((run boot deadlineRun).k.setLevel 0 2).named 1 (fun p => p.schedClass = 2 ∧ p.schedLevel = 2) ↔
        (run boot deadlineRun).k.named 1 fun p => p.schedClass = 2) := by
  have hf : Along step Sys.FreshPid boot deadlineRun := by decide +kernel
  have hfree : (run boot deadlineRun).w.locks .ptable = none := by decide +kernel
  have hpid : (run boot deadlineRun).k.findPid 1 = some 0 := by decide +kernel
  have hlevel : ((run boot deadlineRun).k.proc 0).schedLevel ≠ 2 := by decide +kernel
  have hrun : (changeSchedLevel 1 2).run 0 (run boot deadlineRun).w =
      .ok 0 ⟨free, (run boot deadlineRun).k.setLevel 0 2⟩ := by
    rw [w_of_free (run_ok hfree).locks, run_changeSchedLevel, if_neg (by decide), hpid]
    exact if_neg hlevel
  exact ⟨hf, hrun, ((reclassification deadlineRun hf 0 1 _).1 2 (.inr rfl) hrun).1⟩

/-- the child with a deadline is given level 1: the call returns 0, and the child is still of class 1 -/
theorem realtime_keeps_class : ∃ w', (changeSchedLevel 2 1).run 0 (run boot deadlineRun).w = .ok 0 w' ∧
    (w'.st.proc 1).pid = 2 ∧ (w'.st.proc 1).runnable ∧ (w'.st.proc 1).schedLevel = 1 ∧ (w'.st.proc 1).schedClass = 1 := by
  have hfree : (run boot deadlineRun).w.locks .ptable = none := by decide +kernel
  have hpid : (run boot deadlineRun).k.findPid 2 = some 1 := by decide +kernel
  have hlevel : ((run boot deadlineRun).k.proc 1).schedLevel ≠ 1 := by decide +kernel
  refine ⟨⟨free, (run boot deadlineRun).k.setLevel 1 1⟩, ?_, by decide +kernel⟩
  rw [w_of_free (run_ok hfree).locks, run_changeSchedLevel, if_neg (by decide), hpid]
  exact if_neg hlevel

end Xv6
