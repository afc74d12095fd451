/-
Sleep-locks (sleeplock.c): acquiresleep and releasesleep as monitor code on lk->lk.

Any number of processes each run acquiresleep, what they hold the lock for, and releasesleep, again and again. The labels
are the statements of the two functions; sleep and wakeup are `Monitor`'s, every acquire and release of lk->lk and
ptable.lock is a step, and any process may be killed at any time.

`owner` is not in the source: it names the process that set lk->locked, for the proof.

Result: `sleeplock_exclusion`. At most one process is between acquiresleep and releasesleep, lk->pid is its pid, and
while lk->lk and ptable.lock are free nobody is SLEEPING on a lock that is not locked.
-/
import Xv6.Lib.Monitor

namespace Xv6

open Monitor Runs Option

/-! ## The code -/

structure Sleeplock (ι : Type) where
  locked : Bool
  pid : Int
  owner : Option ι
deriving DecidableEq

namespace Sleeplock

inductive Label where
  | outside
  /-- acquiresleep: acquire(&lk->lk) -/
  | enter
  | test
  | rest
  | lock
  | sign
  | leave
  /-- the process has the sleep-lock -/
  | inside
  /-- releasesleep: acquire(&lk->lk) -/
  | giveUp
  | unlock
  | unsign
  | wake
  | done
deriving DecidableEq

variable {ι : Type} (pid : ι → Int)

/-- the one call that may begin here -/
def only (l : Label) (_ : ι) (next : Label) (d : Sleeplock ι) : Option (Sleeplock ι) := if next = l then some d else none

def act : Label → Act ι (Sleeplock ι) Label Unit
  | .outside => .call (only .enter)
  | .enter => .acquire .test
  | .test => .access fun _ _ lk => (lk, if lk.locked then .rest else .lock)
  | .rest => .sleep () .test
  | .lock => .access fun i _ lk => ({ lk with locked := true, owner := some i }, .sign)
  | .sign => .access fun i _ lk => ({ lk with pid := pid i }, .leave)
  | .leave => .release .inside
  | .inside => .call (only .giveUp)
  | .giveUp => .acquire .unlock
  | .unlock => .access fun _ _ lk => ({ lk with locked := false, owner := none }, .unsign)
  | .unsign => .access fun _ _ lk => ({ lk with pid := 0 }, .wake)
  | .wake => .wakeup () .done
  | .done => .release .outside

def code : Code ι (Sleeplock ι) Label Unit Empty := ⟨act pid, nofun⟩

/-- initsleeplock -/
def init : Sleeplock ι := ⟨false, 0, none⟩

/-! ## What holds at the labels -/

def held : Label → Prop
  | .outside | .enter | .inside | .giveUp => False
  | _ => True

/-- the lock is locked while it has an owner -/
def Fair (lk : Sleeplock ι) : Prop := lk.locked = lk.owner.isSome

/-- process i has the sleep-lock -/
def Has (i : ι) (lk : Sleeplock ι) : Prop := lk.locked = true ∧ lk.owner = some i

def atLabel (i : ι) : Label → Sleeplock ι → Prop
  | .test, lk | .wake, lk | .done, lk => Fair lk
  | .rest, lk => Fair lk ∧ lk.locked = true
  | .lock, lk | .unsign, lk => Fair lk ∧ lk.locked = false
  | .sign, lk => Has i lk
  | .leave, lk | .unlock, lk => Has i lk ∧ lk.pid = pid i
  | _, _ => True

def away (i : ι) : Label → Sleeplock ι → Prop
  | .inside, lk | .giveUp, lk => Has i lk ∧ lk.pid = pid i
  | _, _ => True

variable {pid}

theorem fair_of_has {i : ι} {lk : Sleeplock ι} (h : Has i lk) : Fair lk := by
  rw [Fair, h.1, h.2]; rfl

/-- a process that is away does not have the lock while another has it, or nobody has -/
theorem away_vacuous {j : ι} {l : Label} {lk lk' : Sleeplock ι} (h : lk.owner ≠ some j) (hj : away pid j l lk) :
    away pid j l lk' := by
  cases l with
  | inside | giveUp => exact absurd hj.1.2 h
  | _ => trivial

theorem owner_of_unlocked {lk : Sleeplock ι} (h : Fair lk) (hn : lk.locked = false) : lk.owner = none := by
  rw [Fair, hn] at h
  exact not_isSome_iff_eq_none.1 (by rw [← h]; decide)

theorem keeps : Keeps held Fair (atLabel pid) (away pid) (code pid) where
  act l := by
    cases l with
    | outside =>
      refine ⟨id, fun i next d d' he => ?_⟩
      simp only [only, ite_none_right_eq_some, some.injEq] at he
      obtain ⟨rfl, rfl⟩ := he
      exact ⟨id, id, fun _ => trivial, fun j _ m => ⟨id, id⟩⟩
    | enter => exact ⟨id, trivial, fun i d h _ => h⟩
    | test =>
      refine ⟨trivial, fun i b d h => ?_⟩
      by_cases hl : d.locked = true
      · simp only [hl, if_true]
        exact ⟨trivial, ⟨h, hl⟩, fun j _ m hj => hj⟩
      · simp only [hl, if_false, Bool.false_eq_true]
        exact ⟨trivial, ⟨h, by simpa using hl⟩, fun j _ m hj => hj⟩
    | rest => exact ⟨trivial, trivial, fun i d h => ⟨h.1, trivial⟩, fun i d h _ => h⟩
    | lock =>
      refine ⟨trivial, fun i b d h => ⟨trivial, ⟨rfl, rfl⟩, fun j _ m hj => ?_⟩⟩
      exact away_vacuous (by rw [owner_of_unlocked h.1 h.2]; simp) hj
    | sign =>
      refine ⟨trivial, fun i b d h => ⟨trivial, ⟨h, rfl⟩, fun j e m hj => ?_⟩⟩
      exact away_vacuous (by rw [h.2]; simpa using Ne.symm e) hj
    | leave => exact ⟨trivial, id, fun i d h => ⟨fair_of_has h.1, h⟩⟩
    | inside =>
      refine ⟨id, fun i next d d' he => ?_⟩
      simp only [only, ite_none_right_eq_some, some.injEq] at he
      obtain ⟨rfl, rfl⟩ := he
      exact ⟨id, id, id, fun j _ m => ⟨id, id⟩⟩
    | giveUp => exact ⟨id, trivial, fun i d _ h => h⟩
    | unlock =>
      refine ⟨trivial, fun i b d h => ⟨trivial, ⟨rfl, rfl⟩, fun j e m hj => ?_⟩⟩
      exact away_vacuous (by rw [h.1.2]; simpa using Ne.symm e) hj
    | unsign =>
      refine ⟨trivial, fun i b d h => ⟨trivial, h.1, fun j _ m hj => ?_⟩⟩
      exact away_vacuous (by rw [owner_of_unlocked h.1 h.2]; simp) hj
    | wake => exact ⟨trivial, trivial, fun i d h => h⟩
    | done => exact ⟨trivial, id, fun i d h => ⟨h, trivial⟩⟩
  env e := nomatch e

/-! ## Debts -/

/-- a process sleeps on a lock that is locked -/
def waits (_ : Unit) (lk : Sleeplock ι) : Prop := lk.locked = true

/-- releasesleep has unlocked the lock and not called wakeup yet -/
def owed : Label → Unit → Prop
  | .unsign, _ | .wake, _ => True
  | _, _ => False

theorem pays : Pays (atLabel pid) waits owed (fun _ _ _ _ => False) (code pid) where
  act l := by
    cases l with
    | outside | inside =>
      intro i next d d' he ch hw
      simp only [only, ite_none_right_eq_some, some.injEq] at he
      rwa [← he.2]
    | enter | giveUp => trivial
    | leave | done => exact fun _ => id
    | rest => exact ⟨fun i d h => h.2, fun _ => id⟩
    | wake => exact fun c _ => .inl rfl
    | test => exact fun i b d h ch _ => .inr ⟨id, id⟩
    | lock => exact fun i b d h ch _ => .inr ⟨id, fun _ => rfl⟩
    | sign => exact fun i b d h ch _ => .inr ⟨id, id⟩
    | unlock | unsign => exact fun i b d h ch hn => absurd trivial hn
  env e := nomatch e

variable [DecidableEq ι]

theorem sound_run (pid : ι → Int) (ops : List (Monitor.Op ι Label Empty)) :
    Sound waits owed held Fair (atLabel pid) (away pid) (Monitor.run (code pid) (start init .outside) ops) :=
  have hinit : Sound waits owed held Fair (atLabel pid) (away pid) (start init .outside : St ι (Sleeplock ι) Label Unit) :=
    sound_start rfl id fun _ => trivial
  sound_along keeps pays hinit (along_of_mem (fun op _ s => calm_of_never op s) _)

/-- the process is between the end of acquiresleep and the start of releasesleep -/
def between (p : Pos Label Unit) : Prop := p = .run .inside ∨ p = .run .giveUp

theorem has_of_between {ops : List (Monitor.Op ι Label Empty)} {i : ι}
    (h : between ((Monitor.run (code pid) (start init .outside) ops).pos i)) :
    Has i (Monitor.run (code pid) (start init .outside) ops).data ∧
      (Monitor.run (code pid) (start init .outside) ops).data.pid = pid i := by
  have hf := (sound_run pid ops).kept.fact i
  rcases h with h | h <;> rw [h] at hf <;> exact hf.2 id

/-- **Sleep-locks exclude, and lose no wakeup.** For any number of processes and any interleaving of their operations, kills
included. -/
theorem sleeplock_exclusion (pid : ι → Int) (ops : List (Monitor.Op ι Label Empty)) :
    let s := Monitor.run (code pid) (start init .outside) ops
    (∀ i j, between (s.pos i) → between (s.pos j) → i = j) ∧
      (∀ i, between (s.pos i) → s.data.locked = true ∧ s.data.pid = pid i) ∧
      (s.lock = none → s.ptable = none → ∀ i l, s.pos i = .asleep () l → s.data.locked = true) := by
  intro s
  refine ⟨fun i j hi hj => ?_, fun i hi => ?_, fun hl _ i l hi => ?_⟩
  · have h1 := (has_of_between hi).1.2
    rw [(has_of_between hj).1.2] at h1
    exact (some.inj h1).symm
  · obtain ⟨h1, h2⟩ := has_of_between hi
    exact ⟨h1.1, h2⟩
  · exact wait_of_asleep (sound_run pid ops) hl hi

end Sleeplock

end Xv6
