/-
Resources that are each held in one place. Places and resources are arbitrary.

- `Exact hold used`: no resource is held in two places, and the resources in use are those that are held.

Results:
- `exact_put`, `exact_drop`: a free resource goes to an empty place; a place gives up what it holds;
- `exact_move`, `exact_shift`: a resource goes from one place to another;
- `exact_frame`: some of the places exchange what they hold, and the others keep it;
- `exact_same`: the holders and the resources in use, replaced by equal ones.
-/
import Mathlib.Logic.Function.Basic
import Mathlib.Tactic

namespace Xv6.Owners

open Function

variable {P A : Type} {hold hold' : P → Option A} {used used' : A → Prop} {p q : P} {x y : A}

structure Exact (hold : P → Option A) (used : A → Prop) : Prop where
  inj : ∀ p q x, hold p = some x → hold q = some x → p = q
  used : ∀ x, used x ↔ ∃ p, hold p = some x

theorem exact_same (h : Exact hold used) (hh : ∀ p, hold' p = hold p) (hu : ∀ x, used' x ↔ used x) : Exact hold' used' := by
  have e : hold' = hold := funext hh
  rw [e]
  exact ⟨h.inj, fun x => (hu x).trans (h.used x)⟩

/-- two places that hold something hold different resources -/
theorem exact_ne (h : Exact hold used) (hp : hold p = some x) (hq : hold q = some y) (hpq : p ≠ q) : x ≠ y := by
  rintro rfl
  exact hpq (h.inj p q x hp hq)

/-- some of the places exchange what they hold among each other, and the others keep it -/
theorem exact_frame (part : P → Prop) (h : Exact hold used) (hrest : ∀ p, ¬ part p → hold' p = hold p)
    (hinj : ∀ p q x, part p → part q → hold' p = some x → hold' q = some x → p = q)
    (hsame : ∀ x, (∃ p, part p ∧ hold' p = some x) ↔ ∃ p, part p ∧ hold p = some x) : Exact hold' used := by
  -- what a place holds now it has held before, or another place of the part has
  have hback : ∀ p x, hold' p = some x → ∃ q, hold q = some x ∧ (part p → part q) ∧ (¬ part p → q = p) := by
    intro p x hpx
    by_cases hp : part p
    · obtain ⟨q, hq, hqx⟩ := (hsame x).1 ⟨p, hp, hpx⟩
      exact ⟨q, hqx, fun _ => hq, fun hn => absurd hp hn⟩
    · exact ⟨p, (hrest p hp).symm.trans hpx, fun hn => absurd hn hp, fun _ => rfl⟩
  refine ⟨?_, ?_⟩
  · intro p q x hpx hqx
    obtain ⟨r, hrx, hin, hout⟩ := hback p x hpx
    obtain ⟨r', hrx', hin', hout'⟩ := hback q x hqx
    obtain rfl : r = r' := h.inj r r' x hrx hrx'
    by_cases hp : part p
    · by_cases hq : part q
      · exact hinj p q x hp hq hpx hqx
      · exact absurd (hin hp) (hout' hq ▸ hq)
    · by_cases hq : part q
      · exact absurd (hin' hq) (hout hp ▸ hp)
      · exact (hout hp).symm.trans (hout' hq)
  · intro x
    rw [h.used x]
    constructor
    · intro hx
      obtain ⟨p, hpx⟩ := hx
      by_cases hp : part p
      · obtain ⟨q, -, hqx⟩ := (hsame x).2 ⟨p, hp, hpx⟩
        exact ⟨q, hqx⟩
      · exact ⟨p, (hrest p hp).trans hpx⟩
    · intro hx
      obtain ⟨p, hpx⟩ := hx
      obtain ⟨q, hqx, -⟩ := hback p x hpx
      exact ⟨q, hqx⟩

variable [DecidableEq P]

/-- a free resource goes to an empty place -/
theorem exact_put (h : Exact hold used) (hp : hold p = none) (hx : ¬ used x) :
    Exact (update hold p (some x)) fun y => used y ∨ y = x := by
  have hfree : ∀ q, hold q ≠ some x := fun q e => hx ((h.used x).2 ⟨q, e⟩)
  refine ⟨?_, ?_⟩
  · intro q r y hq hr
    by_cases hqp : q = p
    · by_cases hrp : r = p
      · rw [hqp, hrp]
      · rw [hqp, update_self, Option.some.injEq] at hq
        rw [update_of_ne hrp, ← hq] at hr
        exact absurd hr (hfree r)
    · by_cases hrp : r = p
      · rw [hrp, update_self, Option.some.injEq] at hr
        rw [update_of_ne hqp, ← hr] at hq
        exact absurd hq (hfree q)
      · rw [update_of_ne hqp] at hq
        rw [update_of_ne hrp] at hr
        exact h.inj q r y hq hr
  · intro y
    constructor
    · rintro (hy | rfl)
      · obtain ⟨q, hq⟩ := (h.used y).1 hy
        have hqp : q ≠ p := by
          rintro rfl
          rw [hp] at hq; cases hq
        exact ⟨q, by rw [update_of_ne hqp, hq]⟩
      · exact ⟨p, update_self ..⟩
    · rintro ⟨q, hq⟩
      by_cases hqp : q = p
      · rw [hqp, update_self, Option.some.injEq] at hq
        exact .inr hq.symm
      · rw [update_of_ne hqp] at hq
        exact .inl ((h.used y).2 ⟨q, hq⟩)

/-- a place gives up what it holds -/
theorem exact_drop (h : Exact hold used) (hp : hold p = some x) :
    Exact (update hold p none) fun y => used y ∧ y ≠ x := by
  refine ⟨?_, ?_⟩
  · intro q r y hq hr
    have hqp : q ≠ p := by
      rintro rfl
      rw [update_self] at hq; cases hq
    have hrp : r ≠ p := by
      rintro rfl
      rw [update_self] at hr; cases hr
    rw [update_of_ne hqp] at hq
    rw [update_of_ne hrp] at hr
    exact h.inj q r y hq hr
  · intro y
    constructor
    · rintro ⟨hy, hne⟩
      obtain ⟨q, hq⟩ := (h.used y).1 hy
      have hqp : q ≠ p := by
        rintro rfl
        rw [hp, Option.some.injEq] at hq
        exact hne hq.symm
      exact ⟨q, by rw [update_of_ne hqp, hq]⟩
    · rintro ⟨q, hq⟩
      have hqp : q ≠ p := by
        rintro rfl
        rw [update_self] at hq; cases hq
      rw [update_of_ne hqp] at hq
      refine ⟨(h.used y).2 ⟨q, hq⟩, ?_⟩
      rintro rfl
      exact hqp (h.inj q p y hq hp)

/-- a resource goes from its place to an empty one -/
theorem exact_move (h : Exact hold used) (hp : hold p = some x) (hq : hold q = none) :
    Exact (update (update hold p none) q (some x)) used := by
  have hqp : q ≠ p := by
    rintro rfl
    rw [hp] at hq; cases hq
  have hempty : update hold p none q = none := by rw [update_of_ne hqp, hq]
  refine exact_same (exact_put (exact_drop h hp) hempty fun hx => hx.2 rfl) (fun _ => rfl) fun y => ?_
  constructor
  · intro hy
    by_cases hyx : y = x
    · exact .inr hyx
    · exact .inl ⟨hy, hyx⟩
  · rintro (hy | rfl)
    · exact hy.1
    · exact (h.used y).2 ⟨p, hp⟩

/-- the same, with the other places alone -/
theorem exact_shift (h : Exact (update hold p (some x)) used) (hp : hold p = none) (hq : hold q = none) :
    Exact (update hold q (some x)) used := by
  by_cases hqp : q = p
  · rwa [hqp]
  · have hmove := exact_move h (update_self ..) ((update_of_ne hqp ..).trans hq)
    have hsame : update hold p none = hold := update_eq_self_iff.2 hp.symm
    rwa [update_idem, hsame] at hmove

end Xv6.Owners
