/-
Programs that change a state and can fail. The state σ and the failures ε are arbitrary.

- `wp E m Q s`: m, run from s, returns with Q of the result and the state, or fails with an error that E allows.

Results:
- `wp_bind` and one rule for each operation, as equivalences for simp;
- `wp_mono`, `wp_seq`: the rule of consequence, and a sequence through what its first part ensures;
- `wp_allow`, `wp_and`: other failures, and two things at once;
- `wp_ok`, `wp_error`: what wp says of a run;
- `wp_total`: a program for which no failure is allowed returns.
-/
import Mathlib.Tactic

namespace Xv6.Fallible

variable {σ ε α β : Type}

def wp (E : ε → Prop) (m : StateT σ (Except ε) α) (Q : α → σ → Prop) (s : σ) : Prop :=
  match m s with
  | .ok (a, s') => Q a s'
  | .error e => E e

variable {E F : ε → Prop} {m : StateT σ (Except ε) α} {f : α → StateT σ (Except ε) β} {Q R : α → σ → Prop}
  {S : β → σ → Prop} {s s' : σ} {a : α} {e : ε}

/-! ## Operations -/

@[simp] theorem wp_pure : wp E (pure a : StateT σ (Except ε) α) Q s ↔ Q a s := Iff.rfl

@[simp] theorem wp_throw : wp E (throw e : StateT σ (Except ε) α) Q s ↔ E e := Iff.rfl

@[simp] theorem wp_get {Q : σ → σ → Prop} : wp E (get : StateT σ (Except ε) σ) Q s ↔ Q s s := Iff.rfl

@[simp] theorem wp_set {Q : PUnit → σ → Prop} : wp E (set s' : StateT σ (Except ε) PUnit) Q s ↔ Q ⟨⟩ s' := Iff.rfl

@[simp] theorem wp_modify {g : σ → σ} {Q : PUnit → σ → Prop} :
    wp E (modify g : StateT σ (Except ε) PUnit) Q s ↔ Q ⟨⟩ (g s) := Iff.rfl

@[simp] theorem wp_ite {c : Prop} [Decidable c] {m' : StateT σ (Except ε) α} :
    wp E (if c then m else m') Q s ↔ (c → wp E m Q s) ∧ (¬ c → wp E m' Q s) := by
  split_ifs with hc <;> simp [hc]

@[simp] theorem wp_dite {c : Prop} [Decidable c] {m : c → StateT σ (Except ε) α} {m' : ¬ c → StateT σ (Except ε) α} :
    wp E (if h : c then m h else m' h) Q s ↔ (∀ h, wp E (m h) Q s) ∧ ∀ h, wp E (m' h) Q s := by
  split_ifs with hc <;> simp [hc]

/-- **Sequence rule.** -/
@[simp] theorem wp_bind : wp E (m >>= f) S s ↔ wp E m (fun a s' => wp E (f a) S s') s := by
  have hrun : (m >>= f) s = (m s).bind fun p => f p.1 p.2 := rfl
  rw [wp, wp, hrun]
  cases m s <;> rfl

/-! ## Consequence -/

theorem wp_mono (h : wp E m Q s) (hQ : ∀ a s', Q a s' → R a s') : wp E m R s := by
  rw [wp] at h ⊢
  cases hm : m s with
  | ok p => rw [hm] at h; exact hQ p.1 p.2 h
  | error e => rw [hm] at h; exact h

/-- a sequence, through what its first part ensures -/
theorem wp_seq (h : wp E m Q s) (hf : ∀ a s', Q a s' → wp E (f a) S s') : wp E (m >>= f) S s :=
  wp_bind.2 (wp_mono h hf)

/-- more failures are allowed -/
theorem wp_allow (h : wp E m Q s) (hE : ∀ e, E e → F e) : wp F m Q s := by
  rw [wp] at h ⊢
  cases hm : m s with
  | ok p => rw [hm] at h; exact h
  | error e => rw [hm] at h; exact hE e h

/-- two things that m ensures -/
theorem wp_and (h : wp E m Q s) (h' : wp F m R s) : wp E m (fun a s' => Q a s' ∧ R a s') s := by
  rw [wp] at h h' ⊢
  cases hm : m s with
  | ok p => rw [hm] at h h'; exact ⟨h, h'⟩
  | error e => rw [hm] at h; exact h

/-! ## Runs -/

theorem wp_ok (h : wp E m Q s) (hm : m s = .ok (a, s')) : Q a s' := by
  rw [wp, hm] at h
  exact h

theorem wp_of_ok (hm : m s = .ok (a, s')) (h : Q a s') : wp E m Q s := by
  unfold wp
  rw [hm]
  exact h

theorem wp_error (h : wp E m Q s) (hm : m s = .error e) : E e := by
  rw [wp, hm] at h
  exact h

theorem wp_total (h : wp (fun _ => False) m Q s) : ∃ a s', m s = .ok (a, s') ∧ Q a s' := by
  rw [wp] at h
  cases hm : m s with
  | ok p => rw [hm] at h; exact ⟨p.1, p.2, rfl, h⟩
  | error e => rw [hm] at h; exact h.elim

-- a goal about wp is not to be solved by running the program
attribute [irreducible] wp

end Xv6.Fallible
