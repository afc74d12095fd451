/-
Which locks a CPU holds along a program, whatever the other CPUs do meanwhile.

- `World.holds c w`: the locks that CPU c holds, as a set.
- `Reaches c p w a w'`: CPU c runs p from w and returns a in w', with other CPUs in between. They may change the data and
  every lock that c does not hold.
- `wp ok p Q H`: from the lock set H, every lock that p takes is allowed by `ok`, and wherever p returns, Q holds of the
  result and the lock set. Reads may see any world, so nothing is assumed about the data. A panic returns nothing.

Results:
- `wp_bind`, `wp_forEach`, `wp_withLock`: the rules for sequences, loops and blocks;
- `wp_reaches`, `wp_run`: what wp says of a program that returns, with and without interference.
-/
import Xv6.Lib.LockProg

namespace Xv6.LockProg

open Function

variable {L C σ α β ι : Type} [DecidableEq L] [DecidableEq C]

/-! ## Lock sets -/

def World.holds (c : C) (w : World L C σ) (l : L) : Bool := decide (w.locks l = some c)

variable {c : C} {w : World L C σ} {l : L}

omit [DecidableEq L] in
@[simp] theorem holds_eq_true : w.holds c l = true ↔ w.locks l = some c := by simp [World.holds]

omit [DecidableEq L] in
@[simp] theorem holds_eq_false : w.holds c l = false ↔ w.locks l ≠ some c := by simp [World.holds]

theorem holds_taken : World.holds c { w with locks := update w.locks l (some c) } =
    update (w.holds c) l true := by
  funext m
  by_cases h : m = l
  · subst h; simp [World.holds]
  · simp [World.holds, h]

theorem holds_given : World.holds c { w with locks := update w.locks l none } =
    update (w.holds c) l false := by
  funext m
  by_cases h : m = l
  · subst h; simp [World.holds]
  · simp [World.holds, h]

/-- giving back what was taken restores the lock set -/
theorem taken_given {H : L → Bool} (h : H l = false) : update (update H l true) l false = H := by
  rw [update_idem, ← h, update_eq_self]

/-! ## Programs with other CPUs in between -/

inductive Reaches (c : C) : Prog L C σ α → World L C σ → α → World L C σ → Prop
  | ret (a : α) (w : World L C σ) : Reaches c (.ret a) w a w
  | acquire {l : L} {k : Prog L C σ α} {w w' : World L C σ} {a : α} (h : w.locks l = none)
      (hk : Reaches c k { w with locks := update w.locks l (some c) } a w') : Reaches c (.acquire l k) w a w'
  | release {l : L} {k : Prog L C σ α} {w w' : World L C σ} {a : α} (h : w.locks l = some c)
      (hk : Reaches c k { w with locks := update w.locks l none } a w') : Reaches c (.release l k) w a w'
  | get {k : C → World L C σ → Prog L C σ α} {w w' : World L C σ} {a : α} (hk : Reaches c (k c w) w a w') :
      Reaches c (.get k) w a w'
  | set {f : C → σ → σ} {k : Prog L C σ α} {w w' : World L C σ} {a : α}
      (hk : Reaches c k { w with st := f c w.st } a w') : Reaches c (.set f k) w a w'
  /-- the other CPUs move -/
  | others {p : Prog L C σ α} {w v w' : World L C σ} {a : α} (h : v.holds c = w.holds c) (hp : Reaches c p v a w') :
      Reaches c p w a w'

/-- a run with no other CPU in between -/
theorem reaches_of_run {p : Prog L C σ α} {a : α} {w' : World L C σ} (h : p.run c w = .ok a w') : Reaches c p w a w' := by
  induction p generalizing w with
  | ret b =>
    simp only [run_ret, Outcome.ok.injEq] at h
    rw [h.1, h.2]; exact .ret a w'
  | acquire l k ih =>
    simp only [Prog.run] at h
    split at h
    · rename_i hl; exact .acquire hl (ih h)
    · split_ifs at h
  | release l k ih =>
    simp only [Prog.run] at h
    split_ifs at h with hl
    exact .release hl (ih h)
  | get k ih => exact .get (ih c w h)
  | set f k ih => exact .set (ih h)
  | panic m => cases h

/-! ## Weakest preconditions over lock sets -/

variable {ok : (L → Bool) → L → Prop}

def wp (ok : (L → Bool) → L → Prop) : Prog L C σ α → (α → (L → Bool) → Prop) → (L → Bool) → Prop
  | .ret a, Q, H => Q a H
  | .acquire l k, Q, H => H l = false → ok H l ∧ wp ok k Q (update H l true)
  | .release l k, Q, H => H l = true → wp ok k Q (update H l false)
  | .get k, Q, H => ∀ c w, wp ok (k c w) Q H
  | .set _ k, Q, H => wp ok k Q H
  | .panic _, _, _ => True

/-- every order of acquisition -/
def anyOrder (_ : L → Bool) (_ : L) : Prop := True

section Rules

-- the equations of wp, generated once for the rules below
attribute [local simp] wp

variable {p : Prog L C σ α} {f : α → Prog L C σ β} {Q R : α → (L → Bool) → Prop} {S : β → (L → Bool) → Prop}
  {H : L → Bool}

omit [DecidableEq C] in
@[simp] theorem wp_ret (a : α) : wp ok (.ret a : Prog L C σ α) Q H ↔ Q a H := by simp

omit [DecidableEq C] in
@[simp] theorem wp_panic (m : String) : wp ok (.panic m : Prog L C σ α) Q H := by simp

omit [DecidableEq C] in
@[simp] theorem wp_acquire {Q : Unit → (L → Bool) → Prop} :
    wp ok (acquire l : Prog L C σ Unit) Q H ↔ (H l = false → ok H l ∧ Q () (update H l true)) := by
  simp [acquire]

omit [DecidableEq C] in
@[simp] theorem wp_release {Q : Unit → (L → Bool) → Prop} :
    wp ok (release l : Prog L C σ Unit) Q H ↔ (H l = true → Q () (update H l false)) := by
  simp [release]

omit [DecidableEq C] in
@[simp] theorem wp_writes {g : C → σ → σ} {Q : Unit → (L → Bool) → Prop} :
    wp ok (writes g : Prog L C σ Unit) Q H ↔ Q () H := by
  simp [writes]

omit [DecidableEq C] in
@[simp] theorem wp_reads {g : C → World L C σ → α} : wp ok (reads g) Q H ↔ ∀ c w, Q (g c w) H := by
  simp [reads]

omit [DecidableEq C] in
@[simp] theorem wp_ite {b : Prop} [Decidable b] {q : Prog L C σ α} :
    wp ok (if b then p else q) Q H ↔ (b → wp ok p Q H) ∧ (¬ b → wp ok q Q H) := by
  split_ifs with hb <;> simp [hb]

omit [DecidableEq C] in
theorem wp_mono (hQR : ∀ a H, Q a H → R a H) (h : wp ok p Q H) : wp ok p R H := by
  induction p generalizing H with
  | ret a => exact hQR a H h
  | acquire l k ih => exact fun hl => ⟨(h hl).1, ih (h hl).2⟩
  | release l k ih => exact fun hl => ih (h hl)
  | get k ih => exact fun c w => ih c w (h c w)
  | set g k ih => exact ih (H := H) h
  | panic m => trivial

omit [DecidableEq C] in
/-- **Sequence rule.** -/
@[simp] theorem wp_bind : wp ok (p.bind f) S H ↔ wp ok p (fun a => wp ok (f a) S) H := by
  induction p generalizing H with
  | ret a => rfl
  | acquire l k ih | release l k ih | get k ih | set g k ih => simp only [Prog.bind, wp, ih]
  | panic m => rfl

omit [DecidableEq C] in
/-- a lock that is held already: nothing comes after the acquire -/
theorem wp_acquire_held {f : Unit → Prog L C σ β} (hl : H l = true) :
    wp ok ((acquire l : Prog L C σ Unit).bind f) S H :=
  wp_bind.2 (wp_acquire.2 fun h => absurd h (by simp [hl]))

omit [DecidableEq C] in
/-- after a part that gives back what it takes -/
theorem wp_after (hp : wp ok p (fun _ H' => H' = H) H) (hf : ∀ a, wp ok (f a) S H) : wp ok (p.bind f) S H :=
  wp_bind.2 (wp_mono (fun a _ e => by rw [e]; exact hf a) hp)

omit [DecidableEq C] in
theorem wp_read {g : C → World L C σ → α} (hf : ∀ a, wp ok (f a) S H) : wp ok ((reads g).bind f) S H :=
  wp_after (wp_reads.2 fun _ _ => rfl) hf

omit [DecidableEq C] in
theorem wp_write {g : C → σ → σ} {f : Unit → Prog L C σ β} (hf : wp ok (f ()) S H) :
    wp ok ((writes g : Prog L C σ Unit).bind f) S H :=
  wp_after (wp_writes.2 rfl) fun _ => hf

omit [DecidableEq C] in
/-- **Loop rule.** A body that gives back what it takes makes a loop that does. -/
theorem wp_forEach {g : ι → Prog L C σ Unit} (is : List ι) (hg : ∀ i ∈ is, wp ok (g i) (fun _ H' => H' = H) H) :
    wp ok (forEach is g) (fun _ H' => H' = H) H := by
  induction is with
  | nil => exact (wp_ret ()).2 rfl
  | cons i is ih =>
    exact wp_after (hg i List.mem_cons_self) fun _ => ih fun j hj => hg j (List.mem_cons_of_mem i hj)

omit [DecidableEq C] in
/-- **Block rule.** -/
theorem wp_withLock (ho : H l = false → ok H l)
    (hp : wp ok p (fun _ H' => H' = update H l true) (update H l true)) :
    wp ok (withLock l p) (fun _ H' => H' = H) H := by
  simp only [withLock, Prog.bind_eq, wp_bind, wp_acquire]
  refine fun hl => ⟨ho hl, wp_mono (fun a H' e => ?_) hp⟩
  rw [e, wp_bind, wp_release]
  exact fun _ => (wp_ret a).2 (taken_given hl)

/-- **Soundness.** A program that returns, with other CPUs in between, ends in a lock set that wp allows. -/
theorem wp_reaches {a : α} {w' : World L C σ} (h : Reaches c p w a w') (hw : wp ok p Q (w.holds c)) :
    Q a (w'.holds c) := by
  induction h with
  | ret a w => exact hw
  | acquire hl _ ih =>
    refine ih ?_
    rw [holds_taken]
    exact (hw (by simp [hl])).2
  | release hl _ ih =>
    refine ih ?_
    rw [holds_given]
    exact hw (by simp [hl])
  | get _ ih => exact ih (hw _ _)
  | set _ ih => exact ih hw
  | others e _ ih => exact ih (by rwa [e])

/-- a program that gives back what it takes leaves the lock set it found -/
theorem holds_of_reaches {a : α} {w' : World L C σ} (h : Reaches c p w a w')
    (hw : wp ok p (fun _ H' => H' = w.holds c) (w.holds c)) : w'.holds c = w.holds c :=
  wp_reaches (Q := fun _ H' => H' = w.holds c) h hw

theorem wp_run {a : α} {w' : World L C σ} (h : p.run c w = .ok a w') (hw : wp ok p Q (w.holds c)) : Q a (w'.holds c) :=
  wp_reaches (reaches_of_run h) hw

end Rules

end Xv6.LockProg
