/-
update_wait_time as one pass over the table (proc.c), run without interleaving.

The loop changes the table it runs over: it refreshes waited_ticks in place, and it raises a process that is due through
change_sched_level, which looks the process up by its pid. `Proc.aged` is what should become of one process,
`Kernel.agedOn` what should become of the kernel when the loop has visited a set of slots.

Results:
- `run_agingBody_aged`: a turn of the loop at a slot not visited yet ages that slot and no other;
- `run_agingLoop`: so a run of the loop ages the slots it visits;
- `exact_aged`: the counters stay exact;
- `aging_pass_exact`: **update_wait_time ages every process, moves the counters by the number promoted, and changes
  nothing else**.
-/
import Xv6.Proc.Counters
import Xv6.Proc.Pids

namespace Xv6

open LockProg Runs Scan Function Finset

/-! ## What the pass is for -/

/-- RUNNABLE at the FCFS level, with a 32-bit wait of the threshold or more -/
def Proc.promoted (n : Int) (p : Proc) : Prop := p.runnable ∧ p.fcfs ∧ agingThreshold ≤ int32 (n - p.arrivalTime)

instance (n : Int) (p : Proc) : Decidable (p.promoted n) := inferInstanceAs (Decidable (_ ∧ _ ∧ _))

/-- the process after the pass -/
def Proc.aged (n : Int) (p : Proc) : Proc :=
  if p.promoted n then { p with waitedTicks := int32 (n - p.arrivalTime), schedLevel := 1, arrivalTime := n }
  else if p.runnable then { p with waitedTicks := int32 (n - p.arrivalTime) }
  else p

/-- the kernel when the slots of v have been visited -/
def Kernel.agedOn (k : Kernel) (n : Int) (v : Finset Slot) : Kernel :=
  { k with
    proc := fun i => if i ∈ v then (k.proc i).aged n else k.proc i
    countRr := k.countRr + (v.filter fun i => (k.proc i).promoted n).card
    countFcfs := k.countFcfs - (v.filter fun i => (k.proc i).promoted n).card }

variable {k : Kernel} {c : Cpu} {n : Int} {i : Slot} {v : Finset Slot}

theorem aged_pid (p : Proc) : (p.aged n).pid = p.pid := by
  unfold Proc.aged
  split_ifs <;> rfl

theorem agedOn_pid (j : Slot) : ((k.agedOn n v).proc j).pid = (k.proc j).pid := by
  simp only [Kernel.agedOn]
  split_ifs
  · exact aged_pid _
  · rfl

theorem agedOn_new (hi : i ∉ v) : (k.agedOn n v).proc i = k.proc i := if_neg hi

/-- one slot more, where nobody is due -/
theorem agedOn_insert_stays (hi : i ∉ v) (hp : ¬ (k.proc i).promoted n) :
    k.agedOn n (insert i v) = (k.agedOn n v).refresh n i := by
  have hcard : ((insert i v).filter fun i => (k.proc i).promoted n) = v.filter fun i => (k.proc i).promoted n :=
    filter_insert .. |>.trans (if_neg hp)
  have hproc : ∀ j, (if j ∈ insert i v then (k.proc j).aged n else k.proc j) =
      if j = i then (k.proc i).aged n else if j ∈ v then (k.proc j).aged n else k.proc j := by
    intro j
    by_cases hj : j = i
    · rw [if_pos hj, hj, if_pos (mem_insert_self i v)]
    · rw [if_neg hj]
      simp only [mem_insert, hj, false_or]
  have hage : (k.proc i).aged n =
      if (k.proc i).runnable then { k.proc i with waitedTicks := int32 (n - (k.proc i).arrivalTime) } else k.proc i := if_neg hp
  simp only [Kernel.agedOn, hcard, hproc, Kernel.refresh, if_neg hi, hage]
  split_ifs with hr
  · simp only [Kernel.modProc, if_neg hi]
    congr 1
    funext j
    by_cases hj : j = i
    · rw [if_pos hj, hj, update_self]
    · rw [if_neg hj, update_of_ne hj]
  · congr 1
    funext j
    by_cases hj : j = i
    · rw [if_pos hj, hj, if_neg hi]
    · rw [if_neg hj]

/-- one slot more, whose process is due: it is raised and stamped -/
theorem agedOn_insert_raised (hi : i ∉ v) (hp : (k.proc i).promoted n) : k.agedOn n (insert i v) =
    (((k.agedOn n v).refresh n i).setLevel i 1).modProc i fun p => { p with arrivalTime := n } := by
  have hcard : (((insert i v).filter fun i => (k.proc i).promoted n).card : Int) =
      (v.filter fun i => (k.proc i).promoted n).card + 1 := by
    rw [filter_insert, if_pos hp, card_insert_of_notMem fun h => hi (mem_filter.1 h).1]
    push_cast
    rfl
  have hage : (k.proc i).aged n =
      { k.proc i with waitedTicks := int32 (n - (k.proc i).arrivalTime), schedLevel := 1, arrivalTime := n } := if_pos hp
  have hrun : (k.proc i).runnable := hp.1
  have hlev : (k.proc i).schedLevel = 2 := hp.2.1.2
  have hnew := agedOn_new (k := k) (n := n) hi
  have href : (k.agedOn n v).refresh n i =
      (k.agedOn n v).modProc i fun p => { p with waitedTicks := int32 (n - p.arrivalTime) } :=
    if_pos (by rw [hnew]; exact hrun)
  have hmove : ((k.agedOn n v).refresh n i).moveLevelCount i = { (k.agedOn n v).refresh n i with
      countFcfs := (k.agedOn n v).countFcfs - 1, countRr := (k.agedOn n v).countRr + 1 } := by
    rw [Kernel.moveLevelCount, href]
    simp only [modProc_self, hnew, Proc.runnable] at hrun ⊢
    rw [if_pos hrun, if_neg (by rw [hlev]; decide)]
    rfl
  rw [Kernel.setLevel, hmove, href]
  simp only [Kernel.modProc, update_self, update_idem, hnew]
  simp only [Kernel.agedOn, hcard]
  congr 1
  · funext j
    by_cases hj : j = i
    · rw [hj, if_pos (mem_insert_self i v), update_self, hage]
      rfl
    · rw [update_of_ne hj]
      simp only [mem_insert, hj, false_or]
  · omega
  · omega

/-! ## The loop -/

/-- no two slots share a pid other than 0, and a RUNNABLE process has such a pid -/
structure Kernel.Named (k : Kernel) : Prop where
  apart : ∀ i j, (k.proc i).pid = (k.proc j).pid → (k.proc i).pid ≠ 0 → i = j
  runnable : ∀ i, (k.proc i).runnable → (k.proc i).pid ≠ 0

/-- the search by pid comes back to the process -/
theorem findPid_named (h : k.Named) (hi : (k.proc i).runnable) : k.findPid (k.proc i).pid = some i := by
  cases hf : k.findPid (k.proc i).pid with
  | none => simpa using List.find?_eq_none.1 hf i (mem_slots i)
  | some j =>
    have hp := findPid_some hf
    rw [h.apart j i hp (by rw [hp]; exact h.runnable i hi)]

/-- **A turn of the loop.** -/
theorem run_agingBody_aged (h : k.Named) (hi : i ∉ v) :
    (agingBody n i).run c ⟨held c, k.agedOn n v⟩ = .ok () ⟨held c, k.agedOn n (insert i v)⟩ := by
  have hnew := agedOn_new (k := k) (n := n) hi
  have hdue : ((k.agedOn n v).proc i).task.due n ↔ (k.proc i).promoted n := by
    rw [hnew]
    constructor
    · intro hd
      exact ⟨hd.1, ⟨hd.2.1, hd.2.2.1⟩, hd.2.2.2⟩
    · intro hp
      exact ⟨hp.1, hp.2.1.1, hp.2.1.2, hp.2.2⟩
  simp only [agingBody, Prog.bind_eq, run_bind, run_agingCheck, andThen_ok, hdue]
  by_cases hp : (k.proc i).promoted n
  swap
  · rw [agedOn_insert_stays hi hp]
    simp [hp]
  have hsame : ((k.agedOn n v).refresh n i).tab = (k.agedOn n v).tab := tab_refresh n i
  have hpids : ∀ j, (((k.agedOn n v).refresh n i).proc j).pid = (k.proc j).pid := by
    intro j
    have htask := congrArg (fun t => (Tab.task t j).pid) hsame
    exact htask.trans (agedOn_pid j)
  have hfind : ((k.agedOn n v).refresh n i).findPid (k.proc i).pid = some i := by
    rw [Kernel.findPid]
    simp only [hpids]
    exact findPid_named h hp.1
  have hlev : (((k.agedOn n v).refresh n i).proc i).schedLevel ≠ 1 := by
    have htask := congrArg (fun t => (Tab.task t i).level) hsame
    have hl : (((k.agedOn n v).refresh n i).proc i).schedLevel = ((k.agedOn n v).proc i).schedLevel := htask
    rw [hl, hnew, hp.2.1.2]
    decide
  have hcall : (changeSchedLevel (k.proc i).pid 1).run c ⟨free, (k.agedOn n v).refresh n i⟩ =
      .ok 0 ⟨free, ((k.agedOn n v).refresh n i).setLevel i 1⟩ := by
    rw [run_changeSchedLevel, if_neg (by decide), hfind]
    simp only [if_neg hlev]
  rw [agedOn_insert_raised hi hp]
  simp [hp, hpids, hcall]

/-- the loop over slots that have not been visited -/
theorem run_agingLoop (h : k.Named) (is : List Slot) (hn : is.Nodup) (hv : ∀ i ∈ is, i ∉ v) :
    (forEach is (agingBody n)).run c ⟨held c, k.agedOn n v⟩ = .ok () ⟨held c, k.agedOn n (v ∪ is.toFinset)⟩ := by
  induction is generalizing v with
  | nil => simp [forEach]
  | cons i is ih =>
    obtain ⟨hnot, hrest⟩ := List.nodup_cons.1 hn
    have hbody := run_agingBody_aged (c := c) (n := n) h (hv i List.mem_cons_self)
    have hloop := ih (v := insert i v) hrest fun j hj hmem => by
      rcases mem_insert.1 hmem with rfl | hjv
      · exact hnot hj
      · exact hv j (List.mem_cons_of_mem i hj) hjv
    have hset : insert i v ∪ is.toFinset = v ∪ (i :: is).toFinset := by
      rw [List.toFinset_cons, insert_union, union_insert]
    simp only [forEach, Prog.bind_eq, run_bind, hbody, andThen_ok, hloop, hset]

/-! ## The pass -/

/-- the kernel after the pass: nothing else changes -/
def Kernel.aged (k : Kernel) (n : Int) : Kernel :=
  { k with
    proc := fun i => (k.proc i).aged n
    countRr := k.countRr + tally fun i => (k.proc i).promoted n
    countFcfs := k.countFcfs - tally fun i => (k.proc i).promoted n }

theorem agedOn_empty : k.agedOn n ∅ = k := by simp [Kernel.agedOn]

theorem agedOn_slots : k.agedOn n (∅ ∪ slots.toFinset) = k.aged n := by
  have hall : ∅ ∪ slots.toFinset = (Finset.univ : Finset Slot) := by
    ext i
    simp
  rw [hall]
  simp [Kernel.agedOn, Kernel.aged, tally]

theorem exact_aged (he : k.Exact) : (k.aged n).Exact := by
  obtain ⟨h1, h2, h3⟩ := he
  have hedf : ∀ i, ((k.proc i).aged n).runnable ∧ ((k.proc i).aged n).edf ↔ (k.proc i).runnable ∧ (k.proc i).edf := by
    intro i
    unfold Proc.aged
    split_ifs <;> rfl
  have hrr : ∀ i, ((k.proc i).aged n).runnable ∧ ((k.proc i).aged n).rr ↔
      (k.proc i).runnable ∧ (k.proc i).rr ∨ (k.proc i).promoted n := by
    intro i
    unfold Proc.aged
    split_ifs with hp hr
    · exact ⟨fun _ => .inr hp, fun _ => ⟨hp.1, hp.2.1.1, rfl⟩⟩
    all_goals exact ⟨.inl, fun h => h.resolve_right hp⟩
  have hfcfs : ∀ i, (k.proc i).runnable ∧ (k.proc i).fcfs ↔
      ((k.proc i).aged n).runnable ∧ ((k.proc i).aged n).fcfs ∨ (k.proc i).promoted n := by
    intro i
    unfold Proc.aged
    split_ifs with hp hr
    · exact ⟨fun _ => .inr hp, fun _ => ⟨hp.1, hp.2.1⟩⟩
    all_goals exact ⟨.inl, fun h => h.resolve_right hp⟩
  refine ⟨?_, ?_, ?_⟩
  · exact h1.trans (tally_congr fun i => (hedf i).symm)
  · have hsum := tally_or hrr fun i hi hp => by
      have hl : (k.proc i).schedLevel = 2 := hp.2.1.2
      rw [hi.2.2] at hl
      exact absurd hl (by decide)
    exact (congrArg (· + _) h2).trans hsum.symm
  · have hsum := tally_or hfcfs fun i hi hp => by
      have hl : ((k.proc i).aged n).schedLevel = 2 := hi.2.2
      rw [Proc.aged, if_pos hp] at hl
      exact absurd (show (1 : Int) = 2 from hl) (by decide)
    show k.countFcfs - tally (fun i => (k.proc i).promoted n) = _
    rw [h3, hsum]
    exact add_sub_cancel_right _ _

/-- **Sequential aging.** -/
theorem aging_pass_exact (k : Kernel) (c : Cpu) (n : Int) (h : k.Named) (he : k.Exact) :
    (updateWaitTime n).run c ⟨free, k⟩ = .ok 0 ⟨free, k.aged n⟩ ∧ (k.aged n).Exact := by
  have hloop := run_agingLoop (c := c) (n := n) (v := ∅) h slots nodup_slots fun _ _ => notMem_empty _
  rw [agedOn_empty, agedOn_slots] at hloop
  exact ⟨by simp [updateWaitTime, hloop], exact_aged he⟩

/-- two RUNNABLE processes of the FCFS level: the first has waited for 900 ticks, the second for 100 -/
def waitingKernel : Kernel :=
  { Kernel.boot with
    proc := fun i =>
      if i = 0 then { Proc.zero with state := .runnable, pid := 1, schedClass := 2, schedLevel := 2, arrivalTime := 100 }
      else if i = 1 then { Proc.zero with state := .runnable, pid := 2, schedClass := 2, schedLevel := 2, arrivalTime := 900 }
      else .zero
    countFcfs := 2 }

theorem waitingKernel_named : waitingKernel.Named := by
  constructor <;> decide +kernel

theorem aging_pass_exact_waiting : waitingKernel.Named ∧ waitingKernel.Exact ∧
    (updateWaitTime 1000).run 0 ⟨free, waitingKernel⟩ = .ok 0 ⟨free, waitingKernel.aged 1000⟩ ∧
    (waitingKernel.aged 1000).Exact ∧ (waitingKernel.aged 1000).countRr = 1 :=
  have he : waitingKernel.Exact := by decide +kernel
  ⟨waitingKernel_named, he, (aging_pass_exact waitingKernel 0 1000 waitingKernel_named he).1,
    (aging_pass_exact waitingKernel 0 1000 waitingKernel_named he).2, by decide +kernel⟩

end Xv6
