/-
Interleavings: any number of CPUs run lock programs, one operation at a time.

- `Conf`: each CPU's stack of programs, the running one first, over one shared world.
- `Act`: a CPU starts a program when it runs none (`call`); it starts one over another while it holds no lock
  (`interrupt`); two CPUs that hold no lock exchange what they run (`migrate`); a CPU takes one operation (`op`).
- `Conf.waits c d`: CPU c spins on a lock that d holds. `Conf.Deadlocked`: a cycle of such CPUs.
- `Conf.Orderly rank s c`: what CPU c runs takes, from here on, only locks that rank above all locks it holds.
- `Conf.Clear rank s a`: if a CPU takes a lock while another CPU holds one, both are orderly.

Results:
- `not_deadlocked`: along acts that are clear no interleaving reaches a deadlock. Which programs are orderly is read off
  them with `wp`, for any data.
- `clear_of_fits`: interleavings of programs that are all in order are clear.
-/
import Xv6.Lib.LockSet
import Xv6.Lib.Runs

namespace Xv6.LockProg

open Function

variable {L C σ : Type} [DecidableEq L] [DecidableEq C]

/-! ## Configurations -/

structure Conf (L C σ : Type) where
  stack : C → List (Prog L C σ Unit)
  w : World L C σ

inductive Act (L C σ : Type) where
  | call (c : C) (p : Prog L C σ Unit)
  | interrupt (c : C) (p : Prog L C σ Unit)
  | migrate (c d : C)
  | op (c : C)

def Conf.setStack (s : Conf L C σ) (c : C) (ps : List (Prog L C σ Unit)) : Conf L C σ :=
  { s with stack := update s.stack c ps }

/-- CPU c holds no lock -/
def World.unlocked (c : C) (w : World L C σ) : Prop := ∀ l, w.holds c l = false

instance [Fintype L] (c : C) (w : World L C σ) : Decidable (w.unlocked c) :=
  inferInstanceAs (Decidable (∀ l, w.holds c l = false))

variable [Fintype L]

def Conf.act (s : Conf L C σ) : Act L C σ → Conf L C σ
  | .call c p => if (s.stack c).isEmpty then s.setStack c [p] else s
  | .interrupt c p => if s.w.unlocked c then s.setStack c (p :: s.stack c) else s
  | .migrate c d =>
    if s.w.unlocked c ∧ s.w.unlocked d then { s with stack := s.stack ∘ Equiv.swap c d } else s
  | .op c =>
    match s.stack c with
    | [] => s
    | .ret _ :: ps => s.setStack c ps
    | p :: ps => { s.setStack c ((advance c p s.w).1 :: ps) with w := (advance c p s.w).2 }

def Conf.run (s : Conf L C σ) (as : List (Act L C σ)) : Conf L C σ := as.foldl Conf.act s

/-- every CPU idle, every lock free -/
def Conf.start (x : σ) : Conf L C σ := ⟨fun _ => [], ⟨fun _ => none, x⟩⟩

/-- the lock that a program takes next -/
def Prog.wants {α : Type} : Prog L C σ α → Option L
  | .acquire l _ => some l
  | _ => none

/-- CPU c spins on a lock that d holds -/
def Conf.waits (s : Conf L C σ) (c d : C) : Prop :=
  ∃ p ∈ (s.stack c).head?, ∃ l ∈ p.wants, s.w.locks l = some d ∧ d ≠ c

def Conf.Deadlocked (s : Conf L C σ) : Prop := ∃ c, Relation.TransGen s.waits c c

/-! ## Lock order along interleavings -/

/-- l ranks above every lock held -/
def below (rank : L → ℕ) (H : L → Bool) (l : L) : Prop := ∀ m, H m = true → rank m < rank l

/-- p takes its locks in the order of rank, from the lock set H on -/
def InOrder (rank : L → ℕ) (p : Prog L C σ Unit) (H : L → Bool) : Prop := wp (below rank) p (fun _ _ => True) H

/-- the program that CPU c runs takes its locks in order from here on -/
def Conf.Orderly (rank : L → ℕ) (s : Conf L C σ) (c : C) : Prop :=
  ∀ p ∈ (s.stack c).head?, InOrder rank p (s.w.holds c)

/-- the next operation of CPU c takes a lock -/
def Conf.takes (s : Conf L C σ) (c : C) : Prop := ∃ p ∈ (s.stack c).head?, ∃ l ∈ p.wants, s.w.locks l = none

/-- a CPU that takes a lock while another one holds a lock: both are orderly -/
def Conf.Clear (rank : L → ℕ) (s : Conf L C σ) : Act L C σ → Prop
  | .op c => s.takes c → ∀ d, d ≠ c → ¬ s.w.unlocked d → s.Orderly rank c ∧ s.Orderly rank d
  | _ => True

/-- of two CPUs that hold locks, both are orderly -/
def Conf.Apart (rank : L → ℕ) (s : Conf L C σ) : Prop :=
  ∀ c d, c ≠ d → ¬ s.w.unlocked c → ¬ s.w.unlocked d → s.Orderly rank c

variable {rank : L → ℕ} {ok : (L → Bool) → L → Prop} {I : (L → Bool) → Prop} {c d : C} {s : Conf L C σ}

/-- the programs of a stack run one after the other from H and end in I; what was interrupted goes on with no lock -/
def Fits (ok : (L → Bool) → L → Prop) (I : (L → Bool) → Prop) : List (Prog L C σ Unit) → (L → Bool) → Prop
  | [], H => I H
  | p :: ps, H => wp ok p (fun _ H' => (ps ≠ [] → H' = fun _ => false) ∧ Fits ok I ps H') H

/-- every CPU's stack fits the locks it holds -/
def Conf.Fits (ok : (L → Bool) → L → Prop) (I : (L → Bool) → Prop) (s : Conf L C σ) : Prop :=
  ∀ c, LockProg.Fits ok I (s.stack c) (s.w.holds c)

/-- what is started keeps I between programs, and an interrupt gives back what it takes -/
def Act.Fits (ok : (L → Bool) → L → Prop) (I : (L → Bool) → Prop) : Act L C σ → Prop
  | .call _ p => ∀ H, I H → wp ok p (fun _ H' => I H') H
  | .interrupt _ p => wp ok p (fun _ H' => H' = fun _ => false) fun _ => false
  | _ => True

/-- a program that is called with a lock held is in order -/
def Act.Orderly (rank : L → ℕ) (I : (L → Bool) → Prop) : Act L C σ → Prop
  | .call _ p => ∀ H, I H → (∃ l, H l = true) → InOrder rank p H
  | _ => True

/-! ## Single operations -/

section Advance

variable {α : Type} {p : Prog L C σ α} {w : World L C σ}

omit [Fintype L] in
/-- an operation of CPU c leaves the lock sets of the others -/
theorem holds_advance_ne (h : d ≠ c) : (advance c p w).2.holds d = w.holds d := by
  funext m
  cases p with
  | acquire l k =>
    simp only [advance]
    split
    · rename_i hl
      by_cases e : m = l
      · subst e; simp [World.holds, hl, h.symm]
      · simp [World.holds, e]
    · split_ifs <;> rfl
  | release l k =>
    simp only [advance]
    split_ifs with hl
    · by_cases e : m = l
      · subst e; simp [World.holds, hl, h.symm]
      · simp [World.holds, e]
    · rfl
  | _ => rfl

omit [Fintype L] in
/-- an operation that takes no lock leaves CPU c no more locks than it held -/
theorem holds_of_holds_advance {m : L} (hw : ∀ l ∈ p.wants, w.locks l ≠ none) (h : (advance c p w).2.holds c m = true) :
    w.holds c m = true := by
  cases p with
  | acquire l k =>
    simp only [advance] at h
    split at h
    · rename_i hl
      exact absurd hl (hw l rfl)
    · split_ifs at h <;> exact h
  | release l k =>
    simp only [advance] at h
    split_ifs at h
    · rw [holds_given] at h
      by_cases e : m = l
      · subst e; simp at h
      · simpa [e] using h
    · exact h
  | _ => exact h

omit [Fintype L] in
/-- wp is kept by single operations -/
theorem wp_advance {Q : α → (L → Bool) → Prop} (h : wp ok p Q (w.holds c)) :
    wp ok (advance c p w).1 Q ((advance c p w).2.holds c) := by
  cases p with
  | ret a => exact h
  | acquire l k =>
    simp only [advance]
    split
    · rename_i hl
      rw [holds_taken]
      exact (h (by simp [hl])).2
    · split_ifs
      · exact wp_panic _
      · exact h
  | release l k =>
    simp only [advance]
    split_ifs with hl
    · rw [holds_given]
      exact h (by simp [hl])
    · exact wp_panic _
  | get k => exact h c w
  | set f k | panic m => exact h

end Advance

/-! ## What every act keeps -/

/-- what an operation of CPU c does to the configuration -/
theorem op_cases (s : Conf L C σ) (c : C) : s.act (.op c) = s ∨
    (∃ u ps, s.stack c = .ret u :: ps ∧ s.act (.op c) = s.setStack c ps) ∨
    ∃ p ps, s.stack c = p :: ps ∧
      s.act (.op c) = { s.setStack c ((advance c p s.w).1 :: ps) with w := (advance c p s.w).2 } := by
  simp only [Conf.act]
  split
  · exact .inl rfl
  · rename_i u ps e
    exact .inr (.inl ⟨u, ps, e, rfl⟩)
  · rename_i p ps _ e
    exact .inr (.inr ⟨p, ps, e, rfl⟩)

omit [DecidableEq L] [Fintype L] in
theorem holds_of_unlocked {w : World L C σ} (h : w.unlocked c) : w.holds c = fun _ => false := funext h

theorem act_fits {a : Act L C σ} (ha : a.Fits ok I) (hs : s.Fits ok I) : (s.act a).Fits ok I := by
  intro d
  cases a with
  | call c p =>
    simp only [Conf.act]
    split_ifs with he
    · by_cases hd : d = c
      · subst hd
        have hI := hs d
        rw [List.isEmpty_iff.1 he] at hI
        simpa [Conf.setStack, LockProg.Fits] using ha _ hI
      · simpa [Conf.setStack, hd] using hs d
    · exact hs d
  | interrupt c p =>
    simp only [Conf.act]
    split_ifs with hu
    · by_cases hd : d = c
      · subst hd
        have hps := hs d
        simp only [Conf.setStack, update_self, LockProg.Fits]
        rw [holds_of_unlocked hu] at hps ⊢
        exact wp_mono (fun _ _ e => ⟨fun _ => e, by rw [e]; exact hps⟩) ha
      · simpa [Conf.setStack, hd] using hs d
    · exact hs d
  | migrate c e =>
    simp only [Conf.act]
    split_ifs with hu
    · have hc := hs c
      have he := hs e
      rw [holds_of_unlocked hu.1] at hc
      rw [holds_of_unlocked hu.2] at he
      -- both CPUs hold nothing, so each stack fits the other's lock set
      by_cases hd : d = c
      · subst hd
        simpa [Function.comp, holds_of_unlocked hu.1] using he
      by_cases hd' : d = e
      · subst hd'
        simpa [Function.comp, holds_of_unlocked hu.2] using hc
      simpa [Function.comp, Equiv.swap_apply_of_ne_of_ne hd hd'] using hs d
    · exact hs d
  | op c =>
    have hc := hs c
    obtain e | ⟨u, ps, e, h⟩ | ⟨p, ps, e, h⟩ := op_cases s c
    · rw [e]; exact hs d
    · rw [h]
      by_cases hd : d = c
      · subst hd
        rw [e] at hc
        simpa [Conf.setStack, LockProg.Fits] using hc.2
      · simpa [Conf.setStack, hd] using hs d
    · rw [h]
      by_cases hd : d = c
      · subst hd
        rw [e] at hc
        simpa [Conf.setStack, LockProg.Fits] using wp_advance (c := d) (w := s.w) hc
      · have hw := hs d
        rw [← holds_advance_ne (p := p) (w := s.w) hd] at hw
        simpa [Conf.setStack, hd] using hw

omit [Fintype L] in
/-- an orderly CPU stays orderly through an operation of CPU c -/
theorem orderly_advance {p : Prog L C σ Unit} {ps : List (Prog L C σ Unit)} (e : s.stack c = p :: ps)
    (h : s.Orderly rank d) :
    Conf.Orderly rank { s.setStack c ((advance c p s.w).1 :: ps) with w := (advance c p s.w).2 } d := by
  intro q hq
  by_cases hd : d = c
  · subst hd
    obtain rfl : (advance d p s.w).1 = q := by simpa [Conf.setStack] using hq
    exact wp_advance (h p (by rw [e]; rfl))
  · have hq' : q ∈ (s.stack d).head? := by simpa [Conf.setStack, hd] using hq
    have := h q hq'
    rwa [← holds_advance_ne (p := p) (w := s.w) hd] at this

/-- an operation keeps CPUs that hold locks apart -/
theorem op_apart (hc : s.Clear rank (.op c)) (hf : s.Fits ok I) (hs : s.Apart rank) : (s.act (.op c)).Apart rank := by
  obtain e | ⟨u, ps, e, h⟩ | ⟨p, ps, e, h⟩ := op_cases s c
  · rw [e]; exact hs
  · -- the program has returned: what it interrupted goes on with no lock held
    rw [h]
    intro a b hab ha hb q hq
    by_cases hac : a = c
    · subst hac
      have hfit := hf a
      rw [e] at hfit
      have hps : ps ≠ [] := by rintro rfl; simp [Conf.setStack] at hq
      exact absurd (fun l => congrFun (hfit.1 hps) l) ha
    · exact hs a b hab ha hb q (by simpa [Conf.setStack, hac] using hq)
  · rw [h]
    intro a b hab ha hb
    refine orderly_advance e ?_
    have hne {d : C} (hd : d ≠ c) (hl : ¬ (advance c p s.w).2.unlocked d) : ¬ s.w.unlocked d := by
      simpa [World.unlocked, holds_advance_ne hd] using hl
    by_cases ht : s.takes c
    · -- a lock is taken: the condition on the step
      by_cases hac : a = c
      · subst hac
        exact (hc ht b hab.symm (hne hab.symm hb)).1
      by_cases hbc : b = c
      · exact (hc ht a hac (hne hac ha)).2
      · exact hs a b hab (hne hac ha) (hne hbc hb)
    · -- no lock is taken: who holds one now held one before
      have hw : ∀ l ∈ p.wants, s.w.locks l ≠ none := fun l hl hn => ht ⟨p, by rw [e]; rfl, l, hl, hn⟩
      have hold (d : C) (hl : ¬ (advance c p s.w).2.unlocked d) : ¬ s.w.unlocked d := by
        by_cases hd : d = c
        · subst hd
          intro hu
          refine hl fun m => ?_
          by_contra hm
          have := holds_of_holds_advance hw (Bool.of_not_eq_false hm)
          rw [hu m] at this
          cases this
        · exact hne hd hl
      exact hs a b hab (hold a ha) (hold b hb)

theorem act_apart {a : Act L C σ} (ha : a.Orderly rank I) (hc : s.Clear rank a) (hf : s.Fits ok I) (hs : s.Apart rank) :
    (s.act a).Apart rank := by
  cases a with
  | call c p =>
    simp only [Conf.act]
    split_ifs with he
    · intro a b hab hla hlb q hq
      by_cases hac : a = c
      · subst hac
        have hI := hf a
        rw [List.isEmpty_iff.1 he] at hI
        obtain rfl : p = q := by simpa [Conf.setStack] using hq
        refine ha _ hI ?_
        simpa [Conf.setStack, World.unlocked] using hla
      · exact hs a b hab hla hlb q (by simpa [Conf.setStack, hac] using hq)
    · exact hs
  | interrupt c p =>
    simp only [Conf.act]
    split_ifs with hu
    · intro a b hab hla hlb q hq
      have hac : a ≠ c := by rintro rfl; exact hla hu
      exact hs a b hab hla hlb q (by simpa [Conf.setStack, hac] using hq)
    · exact hs
  | migrate c e =>
    simp only [Conf.act]
    split_ifs with hu
    · intro a b hab hla hlb q hq
      have hac : a ≠ c := by rintro rfl; exact hla hu.1
      have hae : a ≠ e := by rintro rfl; exact hla hu.2
      exact hs a b hab hla hlb q (by simpa [Equiv.swap_apply_of_ne_of_ne hac hae] using hq)
    · exact hs
  | op c => exact op_apart hc hf hs

/-! ## Deadlock -/

/-- a relation along which some number rises has no cycle -/
theorem no_cycle_of_rising {α : Type} {r : α → α → Prop} (f : α → ℕ) (h : ∀ a b e, r a b → r b e → f a < f b) (a : α) :
    ¬ Relation.TransGen r a a := by
  have rise {b : α} (hab : Relation.TransGen r a b) : (∃ e, r b e) → f a < f b := by
    induction hab with
    | single hr => exact fun ⟨e, he⟩ => h _ _ e hr he
    | tail _ hr ih => exact fun ⟨e, he⟩ => (ih ⟨_, hr⟩).trans (h _ _ e hr he)
  intro ha
  obtain ⟨b, hb, -⟩ := Relation.TransGen.head'_iff.1 ha
  exact (rise ha ⟨b, hb⟩).false

omit [Fintype L] in
/-- CPUs that are orderly where they hold locks do not wait in a cycle: the locks waited for rise in rank -/
theorem not_deadlocked_of_apart (hs : s.Apart rank) : ¬ s.Deadlocked := by
  rintro ⟨c, hc⟩
  refine no_cycle_of_rising (fun c => ((s.stack c).head?.bind Prog.wants).elim 0 rank) (fun a b e hab hbe => ?_) c hc
  obtain ⟨p, hp, l, hl, hlock, -⟩ := hab
  obtain ⟨q, hq, m, hm, hlock', hne⟩ := hbe
  simp only [Option.mem_def] at hp hq hl hm
  simp only [hp, hq, Option.bind_some, hl, hm, Option.elim_some]
  -- b holds l and takes m next, so l ranks below m
  have hb : ¬ s.w.unlocked b := fun hu => by simpa [hlock] using hu l
  have he : ¬ s.w.unlocked e := fun hu => by simpa [hlock'] using hu m
  have hin := hs b e hne.symm hb he q hq
  cases q with
  | acquire m' k =>
    obtain rfl : m' = m := by simpa [Prog.wants] using hm
    exact (hin (by simp [hlock', hne])).1 l (by simpa using hlock)
  | _ => simp [Prog.wants] at hm

omit [Fintype L] in
theorem start_fits (hI : I fun _ => false) (x : σ) : (Conf.start x : Conf L C σ).Fits ok I := fun _ => hI

/-- **Deadlock freedom.** Any interleaving of programs, from any data: if no CPU takes a lock while another one holds a
lock unless both take their locks in order, no cycle of waiting CPUs is reached. -/
theorem not_deadlocked (hI : I fun _ => false) (x : σ) {as : List (Act L C σ)}
    (ha : ∀ a ∈ as, a.Fits anyOrder I ∧ a.Orderly rank I)
    (hc : Runs.Along Conf.act (Conf.Clear rank) (Conf.start x) as) : ¬ ((Conf.start x).run as).Deadlocked := by
  have h0 : (Conf.start x : Conf L C σ).Fits anyOrder I ∧ (Conf.start x : Conf L C σ).Apart rank :=
    ⟨start_fits hI x, fun _ _ _ h _ => absurd (fun _ => rfl) h⟩
  have hboth := Runs.along_and.2 ⟨hc, Runs.along_of_mem (fun a h _ => ha a h) _⟩
  have h := Runs.along_inv (P := fun s => s.Fits anyOrder I ∧ s.Apart rank)
    (fun s a hca hs => ⟨act_fits hca.2.1 hs.1, act_apart hca.2.2 hca.1 hs.1 hs.2⟩) hboth h0
  exact not_deadlocked_of_apart h.2

omit [Fintype L] in
theorem orderly_of_fits (h : s.Fits (below rank) I) (c : C) : s.Orderly rank c := by
  intro p hp
  obtain ⟨ps, e⟩ := List.head?_eq_some_iff.1 hp
  have hc := h c
  rw [e] at hc
  exact wp_mono (fun _ _ _ => trivial) hc

/-- interleavings of programs that are all in order are clear -/
theorem clear_of_fits (hI : I fun _ => false) (x : σ) {as : List (Act L C σ)} (ha : ∀ a ∈ as, a.Fits (below rank) I) :
    Runs.Along Conf.act (Conf.Clear rank) (Conf.start x) as := by
  refine Runs.along_of_inv (D := fun _ a => a.Fits (below rank) I) (P := fun s => s.Fits (below rank) I)
    (fun s a hf hs => ⟨?_, act_fits hf hs⟩) (Runs.along_of_mem (fun a h _ => ha a h) _) (start_fits hI x)
  cases a with
  | op c => exact fun _ d _ _ => ⟨orderly_of_fits hs c, orderly_of_fits hs d⟩
  | _ => trivial

end Xv6.LockProg
