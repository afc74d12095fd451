/-
Sequences of writes to a store, and stores cut off in the middle of one. Addresses and contents are arbitrary.

- `apply ws d`: the store d after the writes ws, in order.
- A crash keeps a prefix of the writes: `apply (ws.take k) d`.

Results:
- `apply_of_not_mem`, `apply_of_mem`: what the writes leave at an address.
-/
import Mathlib.Data.List.Nodup
import Mathlib.Logic.Function.Basic

namespace Xv6.Writes

open Function List

variable {A B : Type} [DecidableEq A] {ws vs : List (A × B)} {d e : A → B} {a : A} {b : B}

def apply (ws : List (A × B)) (d : A → B) : A → B := ws.foldl (fun d w => update d w.1 w.2) d

@[simp] theorem apply_nil (d : A → B) : apply [] d = d := rfl

@[simp] theorem apply_cons (w : A × B) (ws : List (A × B)) (d : A → B) :
    apply (w :: ws) d = apply ws (update d w.1 w.2) := rfl

theorem apply_append (ws vs : List (A × B)) (d : A → B) : apply (ws ++ vs) d = apply vs (apply ws d) :=
  foldl_append ..

/-- an address that no write goes to -/
theorem apply_of_not_mem (h : ∀ w ∈ ws, w.1 ≠ a) : apply ws d a = d a := by
  induction ws generalizing d with
  | nil => rfl
  | cons w ws ih =>
    have hw : a ≠ w.1 := (h w mem_cons_self).symm
    rw [apply_cons, ih fun v hv => h v (mem_cons_of_mem w hv), update_of_ne hw]

/-- an address that one write goes to -/
theorem apply_of_mem (hn : (ws.map Prod.fst).Nodup) (h : (a, b) ∈ ws) : apply ws d a = b := by
  induction ws generalizing d with
  | nil => cases h
  | cons w ws ih =>
    simp only [map_cons, nodup_cons] at hn
    rcases mem_cons.1 h with rfl | h
    · rw [apply_cons, apply_of_not_mem, update_self]
      intro v hv e
      exact hn.1 (mem_map.2 ⟨v, hv, e⟩)
    · exact ih hn.2 h

end Xv6.Writes
