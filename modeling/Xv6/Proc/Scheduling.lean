/-
What a pass of the scheduler dispatches.

The pass enters at most one of three branches, and the run-queue counters decide which. `Kernel.Prefers k j` is what it
should dispatch: a RUNNABLE process, real-time if one is RUNNABLE, else of the RR level if one is, else of the FCFS level.

Results:
- `choose_prefers`: with exact counters, a pass that finds a RUNNABLE process chooses one the table prefers.
- `scheduler_prefers`: along Counted and Unlocked steps, a pass on any CPU dispatches such a process if there is one.
- `runnable_process_passed_over`: count_rr counts a process that is not there, and a pass finds nothing.
-/
import Xv6.Proc.Counters

namespace Xv6

open LockProg Runs Scan

/-- a RUNNABLE process satisfies q -/
def Kernel.waitsIn (k : Kernel) (q : Proc → Prop) : Prop := ∃ i, (k.proc i).runnable ∧ q (k.proc i)

/-- slot j is a RUNNABLE process of the most urgent queue that is not empty -/
structure Kernel.Prefers (k : Kernel) (j : Slot) : Prop where
  runnable : (k.proc j).runnable
  edf : k.waitsIn Proc.edf → (k.proc j).edf
  rr : ¬ k.waitsIn Proc.edf → k.waitsIn Proc.rr → (k.proc j).rr
  fcfs : ¬ k.waitsIn Proc.edf → ¬ k.waitsIn Proc.rr → (k.proc j).fcfs

variable {k : Kernel}

theorem pos_iff_waitsIn {n : Int} {q : Proc → Prop} [DecidablePred q]
    (h : n = tally fun i => (k.proc i).runnable ∧ q (k.proc i)) : 0 < n ↔ k.waitsIn q := by
  rw [h]
  exact ⟨exists_of_tally_pos, fun ⟨_, hi⟩ => tally_pos (p := fun i => (k.proc i).runnable ∧ q (k.proc i)) hi⟩

/-- a RUNNABLE process is in one of the three queues -/
theorem queue_cases (h : k.tab.Ok) {i : Slot} (hi : (k.proc i).runnable) :
    (k.proc i).edf ∨ (k.proc i).rr ∨ (k.proc i).fcfs := by
  have hne : (k.tab.task i).state ≠ .unused := by
    rw [show (k.tab.task i).state = .runnable from hi]; decide
  rcases h.queue i hne with h1 | ⟨h2, h3 | h3⟩
  · exact .inl h1
  · exact .inr (.inl ⟨h2, h3⟩)
  · exact .inr (.inr ⟨h2, h3⟩)

theorem pickLeast_isSome (cand : Proc → Prop) [DecidablePred cand] (key : Proc → Int) (h : ∃ i, cand (k.proc i)) :
    ∃ j, k.pickLeast cand key = some j ∧ cand (k.proc j) := by
  obtain ⟨i, hi⟩ := h
  cases hp : k.pickLeast cand key with
  | none => exact absurd hi (leastBy_none hp i (mem_slots i))
  | some j => exact ⟨j, rfl, (leastBy_some hp).2.1⟩

theorem rrLoop_isSome {n : Slot} (h : ∃ i, (k.proc i).rrCandidate) : ∃ j, k.rrLoop n = some j ∧ (k.proc j).rrCandidate := by
  obtain ⟨i, hi⟩ := h
  cases hp : k.rrLoop n with
  | none => exact absurd hi (ringFind_none (m := 63) hp i)
  | some j => exact ⟨j, rfl, (ringFind_some (m := 63) hp).1⟩

/-- **With exact counters a pass chooses a process that the table prefers.** -/
theorem choose_prefers (h : k.tab.Ok) (he : k.Exact) (hw : ∃ i, (k.proc i).runnable) (n : Slot) :
    ∃ j, (k.choose n).1 = some j ∧ k.Prefers j := by
  obtain ⟨he1, he2, he3⟩ := he
  by_cases h1 : k.waitsIn Proc.edf
  · obtain ⟨j, hj, hr, hq⟩ := pickLeast_isSome (fun p => p.runnable ∧ p.edf) Proc.deadline h1
    refine ⟨j, ?_, hr, fun _ => hq, fun h => absurd h1 h, fun h => absurd h1 h⟩
    simpa only [Kernel.choose, if_pos ((pos_iff_waitsIn he1).2 h1)] using hj
  have c1 : ¬ 0 < k.countEdf := fun h => h1 ((pos_iff_waitsIn he1).1 h)
  by_cases h2 : k.waitsIn Proc.rr
  · obtain ⟨j, hj, hr, hq⟩ := rrLoop_isSome (n := n) (h2.imp fun i hi => ⟨hi.1, hi.2.2⟩)
    -- the branch tests the level only; the class is 2 because no class-1 process is RUNNABLE
    have hrr : (k.proc j).rr := by
      rcases queue_cases h hr with hedf | hrr | hf
      · exact absurd ⟨j, hr, hedf⟩ h1
      · exact hrr
      · exact ⟨hf.1, hq⟩
    refine ⟨j, ?_, hr, fun h => absurd h h1, fun _ _ => hrr, fun _ h => absurd h2 h⟩
    simp only [Kernel.choose, if_neg c1, if_pos ((pos_iff_waitsIn he2).2 h2), hj]
  have c2 : ¬ 0 < k.countRr := fun h => h2 ((pos_iff_waitsIn he2).1 h)
  have h3 : k.waitsIn Proc.fcfs := by
    obtain ⟨i, hi⟩ := hw
    rcases queue_cases h hi with hq | hq | hq
    · exact absurd ⟨i, hi, hq⟩ h1
    · exact absurd ⟨i, hi, hq⟩ h2
    · exact ⟨i, hi, hq⟩
  obtain ⟨j, hj, hr, hq⟩ := pickLeast_isSome (fun p => p.runnable ∧ p.fcfs) Proc.arrivalTime h3
  refine ⟨j, ?_, hr, fun h => absurd h h1, fun _ h => absurd h h2, fun _ _ => hq⟩
  simpa only [Kernel.choose, if_neg c1, if_neg c2, if_pos ((pos_iff_waitsIn he3).2 h3)] using hj

/-- **Work conservation and strict priority.** Along Counted and Unlocked steps, whenever a process is RUNNABLE, one pass
of the scheduler's loop on any CPU dispatches a RUNNABLE process of the most urgent queue that is not empty. -/
theorem scheduler_prefers (ops : List Op) (ha : Along step (fun s op => s.Counted op ∧ s.Unlocked op) boot ops) (c : Cpu)
    (hw : ∃ i, ((run boot ops).k.proc i).runnable) :
    ∃ j w, scheduler.run c (run boot ops).w = .ok (some j) w ∧ (w.st.cpu c).proc = some j ∧
      (w.st.proc j).state = .running ∧ (run boot ops).k.Prefers j := by
  have hok : (run boot ops).Ok := ok_along (along_mono (fun _ _ h => h.2) ha)
  have he : (run boot ops).k.Exact :=
    (run_inv (P := fun s => s.k.Exact) (fun s op hC h he h' => step_exact h h' hC.1 he) ha boot_ok (by decide +kernel)
      (by rw [hok.locks]; rfl)).2
  obtain ⟨j, hj, hp⟩ := choose_prefers hok.tab he hw ((run boot ops).k.cpu c).nextrrp
  refine ⟨j, ⟨held c, (run boot ops).k.dispatched c j⟩, ?_, dispatched_cpu j, congrArg Task.state (dispatched_task j), hp⟩
  rw [w_of_free hok.locks, run_scheduler, hj]

theorem scheduler_prefers_sampleRun :
    Along step (fun s op => s.Counted op ∧ s.Unlocked op) boot sampleRun ∧
      ∃ j w, scheduler.run 1 (run boot sampleRun).w = .ok (some j) w ∧ (w.st.cpu 1).proc = some j ∧
        (w.st.proc j).state = .running ∧ (run boot sampleRun).k.Prefers j :=
  ⟨by decide +kernel, scheduler_prefers sampleRun (by decide +kernel) 1 ⟨1, by decide +kernel⟩⟩

/-- after the miscount a second process becomes RUNNABLE and the real-time one is dispatched -/
def passedOverRun : List Op := miscountedRun ++ [.forkAlloc 0, .forkCopy 0, .forkFinish 0, .dispatch 1]

theorem runnable_process_passed_over : (run boot passedOverRun).w.locks .ptable = none ∧
    ((run boot passedOverRun).k.proc 2).runnable ∧ ((run boot passedOverRun).k.proc 2).fcfs ∧
    ∃ w, scheduler.run 2 (run boot passedOverRun).w = .ok none w := by
  have hfree : (run boot passedOverRun).w.locks .ptable = none := by decide +kernel
  have hnone : ((run boot passedOverRun).k.choose ((run boot passedOverRun).k.cpu 2).nextrrp).1 = none := by
    decide +kernel
  refine ⟨hfree, by decide +kernel, by decide +kernel, ⟨free, (run boot passedOverRun).k.afterChoice 2⟩, ?_⟩
  rw [w_of_free (run_ok hfree).locks, run_scheduler, hnone]

end Xv6
