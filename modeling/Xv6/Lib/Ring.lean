/-
Circular doubly linked lists with a head, by their pointers.

- A node is none, the head, or an element. `Links` are the two pointers of every node.
- `Seg L x l y`: from x the pointers lead through l to y, and back. The list as a whole is `Seg L none l none`.
- `unlink`, `pushFront`: the writes that take an element out and put one in behind the head.
- `walk`: a loop along one of the pointers, to the first element with a property or to the head.

Results: `seg_unlink`, `seg_pushFront`, `walk_next`, `walk_prev`: on a list without repetitions, these are erase, cons and find.
-/
import Mathlib.Logic.Function.Basic
import Mathlib.Data.List.Nodup

namespace Xv6

open Function List Option

structure Links (α : Type) where
  next : Option α → Option α
  prev : Option α → Option α

namespace Links

variable {α : Type} {L L' : Links α} {x y z : Option α} {a b : α} {l l₁ l₂ : List α}

def Seg (L : Links α) : Option α → List α → Option α → Prop
  | x, [], y => L.next x = y ∧ L.prev y = x
  | x, a :: l, y => L.next x = some a ∧ L.prev (some a) = x ∧ Seg L (some a) l y

/-! ## Segments -/

theorem seg_append : L.Seg x (l₁ ++ a :: l₂) y ↔ L.Seg x l₁ (some a) ∧ L.Seg (some a) l₂ y := by
  induction l₁ generalizing x with
  | nil => simp only [nil_append, Seg, and_assoc]
  | cons c l₁ ih => simp only [cons_append, Seg, ih, and_assoc]

/-- the list the other way round -/
theorem Seg.reverse (h : L.Seg x l y) : (⟨L.prev, L.next⟩ : Links α).Seg y l.reverse x := by
  induction l generalizing x with
  | nil => exact h.symm
  | cons a l ih =>
    obtain ⟨hnext, hprev, hrest⟩ := h
    rw [reverse_cons, seg_append]
    exact ⟨ih hrest, hprev, hnext⟩

/-- a segment depends on the pointers between its ends only -/
theorem Seg.congr (h : L.Seg x l y) (hx : L'.next x = L.next x) (hy : L'.prev y = L.prev y)
    (hl : ∀ a ∈ l, L'.next (some a) = L.next (some a) ∧ L'.prev (some a) = L.prev (some a)) : L'.Seg x l y := by
  induction l generalizing x with
  | nil => exact ⟨hx.trans h.1, hy.trans h.2⟩
  | cons a l ih =>
    obtain ⟨hnext, hprev, hrest⟩ := h
    obtain ⟨⟨hn, hp⟩, hl⟩ := forall_mem_cons.1 hl
    exact ⟨hx.trans hnext, hp.trans hprev, ih hrest hn hl⟩

theorem Seg.prev_mem (h : L.Seg x l y) : L.prev y = x ∨ ∃ a ∈ l, L.prev y = some a := by
  induction l generalizing x with
  | nil => exact .inl h.2
  | cons a l ih =>
    rcases ih h.2.2 with hprev | ⟨c, hc, hprev⟩
    · exact .inr ⟨a, mem_cons_self, hprev⟩
    · exact .inr ⟨c, mem_cons_of_mem _ hc, hprev⟩

/-- the last pointers of a segment led to another node -/
theorem Seg.redirect (h : L.Seg x l y) (hx : ∀ a ∈ l, x ≠ some a) (hl : l.Nodup) (hz : L'.next (L.prev y) = z)
    (hz' : L'.prev z = L.prev y) (hnext : ∀ n ≠ L.prev y, L'.next n = L.next n)
    (hprev : ∀ a ∈ l, L'.prev (some a) = L.prev (some a)) : L'.Seg x l z := by
  induction l generalizing x with
  | nil =>
    obtain ⟨-, rfl⟩ := h
    exact ⟨hz, hz'⟩
  | cons a l ih =>
    obtain ⟨hn, hp, hrest⟩ := h
    obtain ⟨ha, hl⟩ := nodup_cons.1 hl
    obtain ⟨hpa, hprev⟩ := forall_mem_cons.1 hprev
    have hfirst : x ≠ L.prev y := by
      rcases hrest.prev_mem with heq | ⟨c, hc, heq⟩
      · exact heq ▸ hx a mem_cons_self
      · exact heq ▸ hx c (mem_cons_of_mem _ hc)
    exact ⟨(hnext x hfirst).trans hn, hpa.trans hp,
      ih hrest (fun c hc heq => ha (some.inj heq ▸ hc)) hl hprev⟩

/-! ## Loops -/

/-- `for(b = head.next; b != &head; b = b->next) if(P(b)) return b;`, for at most fuel turns -/
def walk (next : Option α → Option α) (P : α → Bool) : ℕ → Option α → Option (Option α)
  | 0, _ => none
  | _ + 1, none => some none
  | fuel + 1, some a => if P a then some (some a) else walk next P fuel (next (some a))

theorem walk_next {P : α → Bool} {fuel : ℕ} (h : L.Seg x l none) (hfuel : l.length < fuel) :
    walk L.next P fuel (L.next x) = some (l.find? P) := by
  induction l generalizing x fuel with
  | nil =>
    obtain ⟨fuel, rfl⟩ := Nat.exists_eq_add_of_lt hfuel
    rw [h.1]
    rfl
  | cons a l ih =>
    obtain ⟨fuel, rfl⟩ := Nat.exists_eq_add_of_lt (Nat.zero_lt_of_lt hfuel)
    obtain ⟨hnext, -, hrest⟩ := h
    rw [hnext, walk, find?_cons]
    cases hP : P a with
    | true => rfl
    | false =>
      rw [length_cons] at hfuel
      exact ih hrest (by omega)

/-- the loop along prev meets the elements from the last one on -/
theorem walk_prev {P : α → Bool} {fuel : ℕ} (h : L.Seg none l none) (hfuel : l.length < fuel) :
    walk L.prev P fuel (L.prev none) = some (l.reverse.find? P) :=
  walk_next h.reverse (by rwa [length_reverse])

/-! ## The writes -/

variable [DecidableEq α]

def setNext (L : Links α) (x y : Option α) : Links α := { L with next := update L.next x y }

def setPrev (L : Links α) (x y : Option α) : Links α := { L with prev := update L.prev x y }

/-- `b->next->prev = b->prev; b->prev->next = b->next;` -/
def unlink (L : Links α) (b : α) : Links α :=
  let L := L.setPrev (L.next (some b)) (L.prev (some b))
  L.setNext (L.prev (some b)) (L.next (some b))

/-- `b->next = head.next; b->prev = &head; head.next->prev = b; head.next = b;` -/
def pushFront (L : Links α) (b : α) : Links α :=
  let L := L.setNext (some b) (L.next none)
  let L := L.setPrev (some b) none
  let L := L.setPrev (L.next none) (some b)
  L.setNext none (some b)

theorem seg_unlink (h : L.Seg none (l₁ ++ b :: l₂) none) (hl : (l₁ ++ b :: l₂).Nodup) : (L.unlink b).Seg none (l₁ ++ l₂) none := by
  rw [seg_append] at h
  obtain ⟨hfront, hback⟩ := h
  obtain ⟨hl₁, hl₂, hdisj⟩ := nodup_append.1 hl
  obtain ⟨hb, hl₂⟩ := nodup_cons.1 hl₂
  have hself : L.next (some b) ≠ some b := by
    cases l₂ with
    | nil => rw [hback.1]; exact (some_ne_none b).symm
    | cons a l₂ => rw [hback.1]; exact fun heq => hb (some.inj heq ▸ mem_cons_self)
  have hunlink : L.unlink b = ⟨update L.next (L.prev (some b)) (L.next (some b)),
      update L.prev (L.next (some b)) (L.prev (some b))⟩ := by
    simp only [unlink, setPrev, setNext, update_of_ne hself.symm]
  have hfront' : ∀ z, L.next (some b) = z → (∀ a ∈ l₁, z ≠ some a) → (L.unlink b).Seg none l₁ z := by
    intro z hz hz'
    rw [hunlink, hz]
    exact hfront.redirect (by simp) hl₁ (update_self ..) (update_self ..)
      (fun n hn => update_of_ne hn ..) fun a ha => update_of_ne (hz' a ha).symm ..
  cases l₂ with
  | nil =>
    rw [append_nil]
    exact hfront' none hback.1 (by simp)
  | cons a l₂ =>
    obtain ⟨hnext, -, hrest⟩ := hback
    obtain ⟨ha, hl₂⟩ := nodup_cons.1 hl₂
    have hout : ∀ c ∈ a :: l₂, some c ≠ L.prev (some b) := by
      intro c hc heq
      rcases hfront.prev_mem with hprev | ⟨d, hd, hprev⟩
      · exact some_ne_none c (heq.trans hprev)
      · exact hdisj d hd c (mem_cons_of_mem _ hc) (some.inj (heq.trans hprev)).symm
    refine seg_append.2 ⟨hfront' (some a) hnext ?_, ?_⟩
    · intro c hc heq
      exact hdisj c hc a (by simp) (some.inj heq).symm
    · rw [hunlink, hnext]
      have hlast : update L.prev (some a) (L.prev (some b)) none = L.prev none :=
        update_of_ne (some_ne_none a).symm ..
      refine hrest.congr (update_of_ne (hout a mem_cons_self) ..) hlast ?_
      intro c hc
      have hca : some c ≠ some a := fun heq => ha (some.inj heq ▸ hc)
      exact ⟨update_of_ne (hout c (mem_cons_of_mem _ hc)) .., update_of_ne hca ..⟩

theorem seg_pushFront (h : L.Seg none l none) (hl : (b :: l).Nodup) : (L.pushFront b).Seg none (b :: l) none := by
  obtain ⟨hb, hl⟩ := nodup_cons.1 hl
  have hne : ∀ c ∈ l, some c ≠ some b := fun c hc heq => hb (some.inj heq ▸ hc)
  have hn : (L.pushFront b).next = update (update L.next (some b) (L.next none)) none (some b) := rfl
  have hp : (L.pushFront b).prev = update (update L.prev (some b) none) (L.next none) (some b) := by
    simp only [pushFront, setPrev, setNext, update_of_ne (some_ne_none b).symm]
  have hself : some b ≠ L.next none := by
    cases l with
    | nil => rw [h.1]; exact some_ne_none b
    | cons a l => rw [h.1]; exact (hne a mem_cons_self).symm
  have hfirst : (L.pushFront b).next (some b) = L.next none := by
    rw [hn, update_of_ne (some_ne_none b), update_self]
  have hback : (L.pushFront b).prev (L.next none) = some b := by rw [hp, update_self]
  refine ⟨by rw [hn, update_self], by rw [hp, update_of_ne hself, update_self], ?_⟩
  cases l with
  | nil =>
    rw [h.1] at hfirst hback
    exact ⟨hfirst, hback⟩
  | cons a l =>
    obtain ⟨ha, -⟩ := nodup_cons.1 hl
    obtain ⟨hnext, -, hrest⟩ := h
    rw [hnext] at hfirst hback hp
    have hkeep : ∀ c ∈ a :: l, (L.pushFront b).next (some c) = L.next (some c) := by
      intro c hc
      rw [hn, update_of_ne (some_ne_none c), update_of_ne (hne c hc)]
    refine ⟨hfirst, hback, hrest.congr (hkeep a mem_cons_self) ?_ ?_⟩
    · rw [hp, update_of_ne (some_ne_none a).symm, update_of_ne (some_ne_none b).symm]
    · intro c hc
      have hca : some c ≠ some a := fun heq => ha (some.inj heq ▸ hc)
      refine ⟨hkeep c (mem_cons_of_mem _ hc), ?_⟩
      rw [hp, update_of_ne hca, update_of_ne (hne c (mem_cons_of_mem _ hc))]

end Links

end Xv6
