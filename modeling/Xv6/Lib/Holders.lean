/-
References held in slots. The slots ι and the things κ that they refer to are arbitrary.

- `holders g k`: how many slots of the table g hold a reference to k;
- `one x`: the reference in a single slot x, if there is one, as a count.

Results:
- `holders_update`: a slot is overwritten;
- `holders_put`, `holders_clear`: a free slot gets a reference, a slot gives its reference up;
- `holders_pos`, `holders_eq_zero`: a count says whether there is a slot.
-/
import Mathlib.Tactic

namespace Xv6.Holders

open Function Finset

variable {ι κ : Type} [Fintype ι] [DecidableEq ι] [DecidableEq κ]

omit [DecidableEq ι] in
def holders (g : ι → Option κ) (k : κ) : ℕ := (Finset.univ.filter fun i => g i = some k).card

def one (x : Option κ) (k : κ) : ℕ := if x = some k then 1 else 0

variable {g : ι → Option κ} {i : ι} {x : Option κ} {k k' : κ}

@[simp] theorem one_none : one (none : Option κ) = 0 := rfl

theorem one_some : one (some k) k' = if k = k' then 1 else 0 := by simp [one]

@[simp] theorem one_self : one (some k) k = 1 := by simp [one]

omit [DecidableEq ι] in
theorem holders_eq_sum (k : κ) : holders g k = ∑ i, one (g i) k := by
  rw [holders, card_filter]
  rfl

/-- **A slot is overwritten.** -/
theorem holders_update : holders (update g i x) + one (g i) = holders g + one x := by
  funext k
  simp only [Pi.add_apply, holders_eq_sum]
  have hsum : ∑ j, one (update g i x j) k = ∑ j, update (fun j => one (g j) k) i (one x k) j := by
    refine sum_congr rfl fun j _ => ?_
    by_cases hj : j = i
    · rw [hj, update_self, update_self]
    · rw [update_of_ne hj, update_of_ne hj]
  have hrest := add_sum_erase Finset.univ (fun j => one (g j) k) (mem_univ i)
  rw [hsum, sum_update_of_mem (mem_univ i), sdiff_singleton_eq_erase]
  omega

/-- a free slot gets a reference -/
theorem holders_put (hi : g i = none) : holders (update g i x) = holders g + one x := by
  have hup := holders_update (g := g) (i := i) (x := x)
  rw [hi, one_none, add_zero] at hup
  exact hup

/-- a slot gives its reference up -/
theorem holders_clear : holders (update g i none) + one (g i) = holders g := by
  rw [holders_update, one_none, add_zero]

omit [DecidableEq ι] in
theorem holders_pos : 0 < holders g k ↔ ∃ i, g i = some k := by
  rw [holders, card_pos]
  exact ⟨fun ⟨i, hi⟩ => ⟨i, (mem_filter.1 hi).2⟩, fun ⟨i, hi⟩ => ⟨i, mem_filter.2 ⟨mem_univ i, hi⟩⟩⟩

omit [DecidableEq ι] in
theorem holders_eq_zero : holders g k = 0 ↔ ∀ i, g i ≠ some k := by
  rw [← not_iff_not, ← ne_eq, ← Nat.pos_iff_ne_zero, holders_pos]
  push Not
  rfl

end Xv6.Holders
