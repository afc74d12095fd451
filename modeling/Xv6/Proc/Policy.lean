/-
The choice of a pass against the scheduling policy.

`Kernel.Policy k n o n'` says what a pass from the cursor n should choose, and where it should leave the cursor. It speaks
of the table only, not of the counters: the RUNNABLE real-time process with the least deadline, else the first RUNNABLE
process of the RR level in ring order from the cursor, else the RUNNABLE process of the FCFS level with the least
arrival_time, else none. On a tie the lowest slot is chosen.

The scheduler decides by the counters which loop to enter, and the RR loop does not test the class. `Kernel.Classed` is
what proc.h says of sched_class: it is 1 or 2.

Results:
- `policy_choose`: with exact counters the pass makes the policy's choice.
- `policy_unique`: the policy allows one choice.
- `classed_of_ok`: in every state that the process machine reaches with ptable.lock free, the classes are 1 or 2.
- `scheduler_follows_policy`: a pass of the scheduler then chooses what the policy allows and nothing else.
- `classless_chosen`: a process of class 0 at the RR level is chosen before one of the RR queue.
-/
import Xv6.Proc.Scheduling

namespace Xv6

open LockProg Runs Scan

/-! ## The policy -/

/-- slot i holds the RUNNABLE process of queue q with the least key, the lowest slot on a tie -/
structure Kernel.FirstLeast (k : Kernel) (q : Proc → Prop) (key : Proc → Int) (i : Slot) : Prop where
  runnable : (k.proc i).runnable
  queue : q (k.proc i)
  least : ∀ j, (k.proc j).runnable → q (k.proc j) → key (k.proc i) ≤ key (k.proc j)
  lowest : ∀ j, j < i → (k.proc j).runnable → q (k.proc j) → key (k.proc i) < key (k.proc j)

/-- slot i holds the first RUNNABLE process of queue q in ring order from n -/
structure Kernel.FirstFrom (k : Kernel) (q : Proc → Prop) (n i : Slot) : Prop where
  runnable : (k.proc i).runnable
  queue : q (k.proc i)
  before : ∀ j, ahead (m := 63) n j < ahead (m := 63) n i → ¬ ((k.proc j).runnable ∧ q (k.proc j))

/-- from the cursor n the policy allows the choice o and leaves the cursor at n' -/
inductive Kernel.Policy (k : Kernel) (n : Slot) : Option Slot → Slot → Prop
  | edf {i : Slot} (h : k.FirstLeast Proc.edf Proc.deadline i) : Policy k n (some i) n
  | rr {i : Slot} (h1 : ¬ k.waitsIn Proc.edf) (h : k.FirstFrom Proc.rr n i) : Policy k n (some i) (i + 1)
  | fcfs {i : Slot} (h1 : ¬ k.waitsIn Proc.edf) (h2 : ¬ k.waitsIn Proc.rr)
      (h : k.FirstLeast Proc.fcfs Proc.arrivalTime i) : Policy k n (some i) n
  | idle (h1 : ¬ k.waitsIn Proc.edf) (h2 : ¬ k.waitsIn Proc.rr) (h3 : ¬ k.waitsIn Proc.fcfs) : Policy k n none n

/-- the class of a RUNNABLE process is one of the two there are -/
def Kernel.Classed (k : Kernel) : Prop :=
  ∀ i, (k.proc i).runnable → (k.proc i).schedClass = 1 ∨ (k.proc i).schedClass = 2

instance (k : Kernel) : Decidable k.Classed :=
  inferInstanceAs (Decidable (∀ i, (k.proc i).runnable → (k.proc i).schedClass = 1 ∨ (k.proc i).schedClass = 2))

variable {k : Kernel} {n : Slot} {q : Proc → Prop}

/-! ## The policy allows one choice -/

theorem firstLeast_unique {key : Proc → Int} {i j : Slot} (hi : k.FirstLeast q key i)
    (hj : k.FirstLeast q key j) : i = j := by
  rcases lt_trichotomy i j with h | h | h
  · exact absurd (hj.lowest i h hi.runnable hi.queue) (not_lt.2 (hi.least j hj.runnable hj.queue))
  · exact h
  · exact absurd (hi.lowest j h hj.runnable hj.queue) (not_lt.2 (hj.least i hi.runnable hi.queue))

theorem firstFrom_unique {i j : Slot} (hi : k.FirstFrom q n i) (hj : k.FirstFrom q n j) : i = j := by
  rcases lt_trichotomy (ahead (m := 63) n i) (ahead (m := 63) n j) with h | h | h
  · exact absurd ⟨hi.runnable, hi.queue⟩ (hj.before i h)
  · exact ahead_inj h
  · exact absurd ⟨hj.runnable, hj.queue⟩ (hi.before j h)

theorem policy_unique {o o' : Option Slot} {m m' : Slot} (h : k.Policy n o m) (h' : k.Policy n o' m') :
    o' = o ∧ m' = m := by
  cases h with
  | edf h =>
    cases h' with
    | edf h' => exact ⟨by rw [firstLeast_unique h' h], rfl⟩
    | rr h1 _ | fcfs h1 _ _ | idle h1 _ _ => exact absurd ⟨_, h.runnable, h.queue⟩ h1
  | rr h1 h =>
    cases h' with
    | edf h' => exact absurd ⟨_, h'.runnable, h'.queue⟩ h1
    | rr _ h' => rw [firstFrom_unique h' h]; exact ⟨rfl, rfl⟩
    | fcfs _ h2 _ | idle _ h2 _ => exact absurd ⟨_, h.runnable, h.queue⟩ h2
  | fcfs h1 h2 h =>
    cases h' with
    | edf h' => exact absurd ⟨_, h'.runnable, h'.queue⟩ h1
    | rr _ h' => exact absurd ⟨_, h'.runnable, h'.queue⟩ h2
    | fcfs _ _ h' => exact ⟨by rw [firstLeast_unique h' h], rfl⟩
    | idle _ _ h3 => exact absurd ⟨_, h.runnable, h.queue⟩ h3
  | idle h1 h2 h3 =>
    cases h' with
    | edf h' => exact absurd ⟨_, h'.runnable, h'.queue⟩ h1
    | rr _ h' => exact absurd ⟨_, h'.runnable, h'.queue⟩ h2
    | fcfs _ _ h' => exact absurd ⟨_, h'.runnable, h'.queue⟩ h3
    | idle _ _ _ => exact ⟨rfl, rfl⟩

/-! ## The loops make the policy's choice -/

/-- the slots before i in the table are those the loop sees before i -/
theorem mem_before {pre post : List Slot} {i j : Slot} (h : slots = pre ++ i :: post) (hj : j < i) : j ∈ pre := by
  have hs : (pre ++ i :: post).Pairwise (· < ·) := by
    rw [← h]; unfold slots; exact List.pairwise_lt_finRange NPROC
  have hm : j ∈ pre ++ i :: post := by rw [← h]; exact mem_slots j
  rcases List.mem_append.1 hm with hm | hm
  · exact hm
  rcases List.mem_cons.1 hm with rfl | hm
  · exact absurd hj (lt_irrefl _)
  · have hlt := (List.pairwise_cons.1 (List.pairwise_append.1 hs).2.1).1 j hm
    exact absurd hj hlt.asymm

/-- both arg-min loops, over the RUNNABLE processes of a queue -/
theorem pickLeast_firstLeast [DecidablePred q] (key : Proc → Int) (h : k.waitsIn q) :
    ∃ i, k.pickLeast (fun p => p.runnable ∧ q p) key = some i ∧ k.FirstLeast q key i := by
  obtain ⟨i, hi, hr, hq⟩ := pickLeast_isSome (fun p => p.runnable ∧ q p) key h
  obtain ⟨pre, post, hs, hpre⟩ := leastBy_first hi
  refine ⟨i, hi, hr, hq, fun j h1 h2 => (leastBy_some hi).2.2 j (mem_slots j) ⟨h1, h2⟩, fun j hj h1 h2 => ?_⟩
  exact hpre j (mem_before hs hj) ⟨h1, h2⟩

/-- with no real-time process RUNNABLE, the RR loop's test of the level alone finds the RR queue -/
theorem rrCandidate_iff (hc : k.Classed) (h : ¬ k.waitsIn Proc.edf) (i : Slot) :
    (k.proc i).rrCandidate ↔ (k.proc i).runnable ∧ (k.proc i).rr := by
  constructor
  · rintro ⟨hr, hl⟩
    rcases hc i hr with h1 | h2
    · exact absurd ⟨i, hr, h1⟩ h
    · exact ⟨hr, h2, hl⟩
  · rintro ⟨hr, -, hl⟩
    exact ⟨hr, hl⟩

theorem rrLoop_firstFrom (hc : k.Classed) (h1 : ¬ k.waitsIn Proc.edf) (h2 : k.waitsIn Proc.rr) :
    ∃ i, k.rrLoop n = some i ∧ k.FirstFrom Proc.rr n i := by
  obtain ⟨i, hi, hcand⟩ := rrLoop_isSome (n := n) (h2.imp fun i => (rrCandidate_iff hc h1 i).2)
  obtain ⟨hr, hq⟩ := (rrCandidate_iff hc h1 i).1 hcand
  refine ⟨i, hi, hr, hq, fun j hj hw => ?_⟩
  exact (ringFind_some (m := 63) hi).2 j hj ((rrCandidate_iff hc h1 j).2 hw)

/-- **With exact counters the pass makes the policy's choice.** -/
theorem policy_choose (hc : k.Classed) (he : k.Exact) : k.Policy n (k.choose n).1 (k.choose n).2.1 := by
  obtain ⟨he1, he2, he3⟩ := he
  by_cases h1 : k.waitsIn Proc.edf
  · obtain ⟨i, hi, hp⟩ := pickLeast_firstLeast Proc.deadline h1
    simp only [Kernel.choose, if_pos ((pos_iff_waitsIn he1).2 h1), hi]
    exact .edf hp
  have c1 : ¬ 0 < k.countEdf := fun h => h1 ((pos_iff_waitsIn he1).1 h)
  by_cases h2 : k.waitsIn Proc.rr
  · obtain ⟨i, hi, hp⟩ := rrLoop_firstFrom (n := n) hc h1 h2
    simp only [Kernel.choose, if_neg c1, if_pos ((pos_iff_waitsIn he2).2 h2), hi]
    exact .rr h1 hp
  have c2 : ¬ 0 < k.countRr := fun h => h2 ((pos_iff_waitsIn he2).1 h)
  by_cases h3 : k.waitsIn Proc.fcfs
  · obtain ⟨i, hi, hp⟩ := pickLeast_firstLeast Proc.arrivalTime h3
    simp only [Kernel.choose, if_neg c1, if_neg c2, if_pos ((pos_iff_waitsIn he3).2 h3), hi]
    exact .fcfs h1 h2 hp
  have c3 : ¬ 0 < k.countFcfs := fun h => h3 ((pos_iff_waitsIn he3).1 h)
  simp only [Kernel.choose, if_neg c1, if_neg c2, if_neg c3]
  exact .idle h1 h2 h3

/-! ## The counters after the dispatch -/

theorem policy_runnable {i m : Slot} (h : k.Policy n (some i) m) : (k.proc i).runnable := by
  cases h with
  | edf h | rr _ h | fcfs _ _ h => exact h.runnable

theorem exact_afterChoice {c : Cpu} (he : k.Exact) : (k.afterChoice c).Exact := by
  obtain ⟨h1, h2, h3⟩ := exact_iff.1 he
  rw [exact_iff, tab_afterChoice]
  exact ⟨h1, h2, h3⟩

/-- the dispatched process leaves its queue and is counted out of it -/
theorem exact_dispatched {c : Cpu} {i : Slot} (hi : (k.proc i).runnable) (he : k.Exact) : (k.dispatched c i).Exact := by
  have hr : (k.tab.task i).state = .runnable := hi
  rw [exact_iff, exact_iff_drift, tab_dispatched, drift_run hr]
  exact exact_iff_drift.1 (exact_iff.1 he)

/-- every process that is created, exec'd or given a deadline has class 1 or 2 -/
theorem classed_of_ok {s : Sys} (h : s.Ok) : s.k.Classed := by
  intro i hi
  rcases queue_cases h.tab hi with hedf | hrr | hfcfs
  · exact .inl hedf
  · exact .inr hrr.1
  · exact .inr hfcfs.1

/-- **The dispatch choice is the policy's.** For every table whose RUNNABLE processes have class 1 or 2, every cursor and exact
counters: a pass of the scheduler on CPU c chooses what the policy allows and nothing else, leaves the cursor where the policy
puts it, runs the chosen process, and leaves exact counters. In every state that is reached with ptable.lock free the classes
are such. -/
theorem scheduler_follows_policy :
    (∀ (k : Kernel) (c : Cpu), k.Classed → k.Exact → ∃ o w, scheduler.run c ⟨free, k⟩ = .ok o w ∧
      (∀ o' m, k.Policy (k.cpu c).nextrrp o' m ↔ o' = o ∧ m = (w.st.cpu c).nextrrp) ∧
      (∀ i, o = some i → (w.st.cpu c).proc = some i ∧ (w.st.proc i).state = .running) ∧ w.st.Exact) ∧
      ∀ ops, (run boot ops).w.locks .ptable = none → (run boot ops).k.Classed := by
  refine ⟨fun k c hc he => ?_, fun ops hf => classed_of_ok (run_ok hf)⟩
  have hp : k.Policy (k.cpu c).nextrrp _ _ := policy_choose hc he
  have only {m : Slot} {o : Option Slot} (h : k.Policy (k.cpu c).nextrrp o m) (o' : Option Slot) (m' : Slot) :
      k.Policy (k.cpu c).nextrrp o' m' ↔ o' = o ∧ m' = m :=
    ⟨policy_unique h, fun ⟨h1, h2⟩ => by rwa [h1, h2]⟩
  rw [run_scheduler]
  cases ho : (k.choose (k.cpu c).nextrrp).1 with
  | none =>
    rw [ho] at hp
    have hcur : ((k.afterChoice c).cpu c).nextrrp = (k.choose (k.cpu c).nextrrp).2.1 := by simp [Kernel.afterChoice]
    refine ⟨none, _, rfl, ?_, by simp, exact_afterChoice he⟩
    simp only [hcur]
    exact only hp
  | some i =>
    rw [ho] at hp
    have hcur : ((k.dispatched c i).cpu c).nextrrp = (k.choose (k.cpu c).nextrrp).2.1 := by
      have := congrArg (fun t => t.cursor c) (tab_dispatched (k := k) (c := c) i)
      simpa [Kernel.tab, Tab.apply, Tab.setCursor] using this
    refine ⟨some i, _, rfl, ?_, fun j hj => ?_, exact_dispatched (policy_runnable hp) he⟩
    · simp only [hcur]
      exact only hp
    · cases hj
      exact ⟨dispatched_cpu i, congrArg Task.state (dispatched_task i)⟩

theorem scheduler_follows_policy_sampleRun :
    (run boot sampleRun).k.Classed ∧ (run boot sampleRun).k.Exact ∧
      ∃ o w, scheduler.run 1 ⟨free, (run boot sampleRun).k⟩ = .ok o w ∧
        (∀ o' m, (run boot sampleRun).k.Policy ((run boot sampleRun).k.cpu 1).nextrrp o' m ↔
          o' = o ∧ m = (w.st.cpu 1).nextrrp) ∧
        (∀ i, o = some i → (w.st.cpu 1).proc = some i ∧ (w.st.proc i).state = .running) ∧ w.st.Exact :=
  have hc := scheduler_follows_policy.2 sampleRun (by decide +kernel)
  ⟨hc, by decide +kernel, scheduler_follows_policy.1 _ 1 hc (by decide +kernel)⟩

/-- slot 0 is RUNNABLE at level 1 with class 0, slot 1 is RUNNABLE in the RR queue -/
def classless : Kernel :=
  { Kernel.boot with
    proc := fun i =>
      if i = 0 then { Proc.zero with state := .runnable, schedLevel := 1 }
      else if i = 1 then { Proc.zero with state := .runnable, schedLevel := 1, schedClass := 2 }
      else .zero
    countRr := 1 }

/-- The counters are exact, the policy is for slot 1, and the pass takes slot 0: the RR loop does not test the class. -/
theorem classless_chosen : classless.Exact ∧ classless.Policy 0 (some 1) 2 ∧
    ∃ w, scheduler.run 0 ⟨free, classless⟩ = .ok (some 0) w := by
  have hfirst : classless.FirstFrom Proc.rr 0 1 := ⟨by decide +kernel, by decide +kernel, by decide +kernel⟩
  have hchoice : (classless.choose (classless.cpu 0).nextrrp).1 = some 0 := by decide +kernel
  have hedf : ¬ classless.waitsIn Proc.edf := by
    unfold Kernel.waitsIn
    decide +kernel
  refine ⟨by decide +kernel, .rr hedf hfirst, ⟨held 0, classless.dispatched 0 0⟩, ?_⟩
  rw [run_scheduler, hchoice]

end Xv6
