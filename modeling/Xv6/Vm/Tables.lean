/-
What a page directory says: the two levels of tables as one map.

- `table r d i`: the page table behind entry i of the directory in page d, none if the entry is not present.
- `walk r d v`: the entry for virtual page v, none if there is no page table for it. It is what walkpgdir finds.
- `view r d v`: what a process sees at virtual page v: the flags and the contents of the page, none if it is not present.

Results:
- `table_congr`, `walk_congr`, `view_congr`: a directory reads the same while its pages stay the same;
- `walk_put`, `walk_install`: a word stored in a page table, and a new page table;
- `wp_walk`: walkpgdir without allocation.
-/
import Xv6.Vm.Basic

namespace Xv6.Vm

open Bytes Fallible Function Option

/-- the contents of all pages -/
abbrev Ram := ℕ → Page

variable {r r' : Ram} {d i j p q t u v w f va : ℕ} {E : Fault → Prop}

/-! ## Entries -/

theorem frame_or (h : f < 4096) : p * 4096 ||| f = p * 4096 + f := by
  have h12 : f < 2 ^ 12 := h
  have e := Nat.two_pow_add_eq_or_of_lt h12 p
  rw [Nat.mul_comm]
  exact e.symm

theorem or_one (f : ℕ) : f ||| 1 = f + (1 - f % 2) := by
  have hf : f = 2 ^ 1 * (f / 2) + f % 2 := by omega
  have hlt : f % 2 < 2 ^ 1 := by omega
  have hone : (f % 2) ||| 1 = 1 := by
    rcases Nat.mod_two_eq_zero_or_one f with e | e <;> rw [e] <;> rfl
  have e : f ||| 1 = 2 ^ 1 * (f / 2) + 1 := by
    conv_lhs => rw [hf, Nat.two_pow_add_eq_or_of_lt hlt, Nat.lor_assoc, hone]
    exact (Nat.two_pow_add_eq_or_of_lt (by omega) _).symm
  rw [e]
  omega

/-- the entry that mappages stores -/
theorem pte_eq (h : f < 4096) : p * 4096 ||| f ||| PTE_P = p * 4096 + (f + (1 - f % 2)) := by
  have hlt : f + (1 - f % 2) < 4096 := by omega
  rw [Nat.lor_assoc, or_one, frame_or hlt]

/-- the entry that walkpgdir stores -/
theorem pde_eq : p * 4096 ||| PTE_P ||| PTE_W ||| PTE_U = p * 4096 + 7 := by
  rw [Nat.lor_assoc, Nat.lor_assoc]
  exact frame_or (f := 7) (by decide)

theorem clearUser_frame (w : ℕ) : pteFrame (clearUser w) = pteFrame w := by
  unfold clearUser
  split_ifs with h
  · simp only [UserBit, pteFrame, PGSIZE, PTE_U] at h ⊢
    omega
  · rfl

theorem clearUser_present (w : ℕ) : Present (clearUser w) ↔ Present w := by
  unfold clearUser
  split_ifs with h
  · simp only [UserBit, Present, PTE_U] at h ⊢
    omega
  · rfl

theorem userBit_flags (w : ℕ) : UserBit (pteFlags w) ↔ UserBit w := by
  simp only [UserBit, pteFlags, PGSIZE, PTE_U]
  omega

theorem clearUser_flags (w : ℕ) : pteFlags (clearUser w) = clearUser (pteFlags w) := by
  unfold clearUser
  simp only [userBit_flags]
  split_ifs with h
  · simp only [UserBit, pteFlags, PGSIZE, PTE_U] at h ⊢
    omega
  · rfl

theorem clearUser_le (w : ℕ) : clearUser w ≤ w := by
  unfold clearUser
  split_ifs
  · exact Nat.sub_le ..
  · exact le_refl w

theorem present_flags (w : ℕ) : Present (pteFlags w) ↔ Present w := by
  simp only [Present, pteFlags, PGSIZE]
  omega

theorem flags_lt (w : ℕ) : pteFlags w < 4096 := Nat.mod_lt _ (by decide)

/-! ## Words of a page -/

/-- word i of page p -/
def wordOf (r : Ram) (p i : ℕ) : ℕ := Bytes.word 4 (r p) (4 * i)

/-- a word stored in page p -/
def store (r : Ram) (p i w : ℕ) : Ram := update r p (putWord 4 (r p) (4 * i) w)

theorem wordOf_store_self (hi : i < 1024) (hw : w < 2 ^ 32) : wordOf (store r p i w) p i = w := by
  unfold wordOf store
  rw [update_self]
  exact word_putWord (by omega) hw

theorem wordOf_store_ne (h : p ≠ q ∨ i ≠ j) : wordOf (store r p i w) q j = wordOf r q j := by
  unfold wordOf store
  by_cases hq : q = p
  · rw [hq, update_self]
    refine word_putWord_disjoint ?_
    have : i ≠ j := h.resolve_left fun hne => hne hq.symm
    omega
  · rw [update_of_ne hq]

theorem wordOf_lt (r : Ram) (p i : ℕ) : wordOf r p i < 2 ^ 32 := word_lt 4 (r p) (4 * i)

theorem wordOf_zero (h : r p = zeroPage) (i : ℕ) : wordOf r p i = 0 := by
  unfold wordOf Bytes.word
  rw [h]
  have hz : slice zeroPage (4 * i) 4 = [0, 0, 0, 0] := by
    refine List.ext_getElem rfl fun k h1 h2 => ?_
    have hb : byteAt zeroPage (4 * i + k) = 0 := by
      unfold byteAt zeroPage
      split_ifs <;> rfl
    rw [getElem_slice, hb]
    have hk : k < 4 := by rwa [slice_length] at h1
    interval_cases k <;> rfl
  rw [hz]
  rfl

/-! ## The two levels -/

def table (r : Ram) (d i : ℕ) : Option ℕ :=
  if Present (wordOf r d i) then some (pteFrame (wordOf r d i)) else none

def walk (r : Ram) (d v : ℕ) : Option ℕ := (table r d (v / 1024)).map fun t => wordOf r t (v % 1024)

/-- the page of an entry that is present -/
def entryFrame (w : ℕ) : Option ℕ := if Present w then some (pteFrame w) else none

/-- flags and contents for an entry that is present -/
def entryView (r : Ram) (w : ℕ) : Option (ℕ × Page) := if Present w then some (pteFlags w, r (pteFrame w)) else none

abbrev View := ℕ → Option (ℕ × Page)

def view (r : Ram) (d v : ℕ) : Option (ℕ × Page) := (walk r d v).bind (entryView r)

theorem table_congr (h : r' d = r d) : table r' d i = table r d i := by
  unfold table wordOf
  rw [h]

theorem walk_congr (hd : r' d = r d) (ht : ∀ t, table r d (v / 1024) = some t → r' t = r t) : walk r' d v = walk r d v := by
  unfold walk
  rw [table_congr hd]
  cases hw : table r d (v / 1024) with
  | none => rfl
  | some t =>
    unfold wordOf
    rw [map_some, map_some, ht t hw]

theorem view_congr (hw : walk r' d v = walk r d v) (hp : ∀ w, walk r d v = some w → Present w → r' (pteFrame w) = r (pteFrame w)) :
    view r' d v = view r d v := by
  unfold view
  rw [hw]
  cases e : walk r d v with
  | none => rfl
  | some w =>
    unfold entryView
    rw [bind_some, bind_some]
    split_ifs with h
    · rw [hp w e h]
    · rfl

theorem walk_of_table (h : table r d (v / 1024) = some t) : walk r d v = some (wordOf r t (v % 1024)) := by
  rw [walk, h, map_some]

/-- a present page has a page table -/
theorem table_of_walk (h : walk r d v = some w) : ∃ t, table r d (v / 1024) = some t ∧ wordOf r t (v % 1024) = w := by
  unfold walk at h
  exact map_eq_some_iff.1 h

theorem walk_lt (h : walk r d v = some w) : w < 2 ^ 32 := by
  obtain ⟨t, -, rfl⟩ := table_of_walk h
  exact wordOf_lt ..

theorem view_some {x : ℕ × Page} (h : view r d v = some x) :
    ∃ w, walk r d v = some w ∧ Present w ∧ x = (pteFlags w, r (pteFrame w)) := by
  unfold view at h
  obtain ⟨w, hw, hv⟩ := bind_eq_some_iff.1 h
  unfold entryView at hv
  split_ifs at hv with hp
  exact ⟨w, hw, hp, (some.inj hv).symm⟩

theorem view_none (h : view r d v = none) (hw : walk r d v = some w) : ¬ Present w := by
  unfold view entryView at h
  rw [hw, bind_some] at h
  intro hp
  rw [if_pos hp] at h
  cases h

theorem view_of_walk (h : walk r d v = some w) (hp : Present w) : view r d v = some (pteFlags w, r (pteFrame w)) := by
  rw [view, h, bind_some, entryView, if_pos hp]

/-- **A word stored in a page table**, which no other entry of the directory leads to. -/
theorem walk_put (ht : table r d (v / 1024) = some t) (htd : t ≠ d)
    (hinj : ∀ j, j < 1024 → table r d j = some t → j = v / 1024) (hw : w < 2 ^ 32) (hu : u < 2 ^ 20) :
    walk (store r t (v % 1024) w) d u = if u = v then some w else walk r d u := by
  have hsame : ∀ i, table (store r t (v % 1024) w) d i = table r d i :=
    fun i => table_congr (update_of_ne htd.symm _ _)
  unfold walk
  rw [hsame]
  split_ifs with huv
  · rw [huv, ht, map_some, wordOf_store_self (Nat.mod_lt _ (by decide)) hw]
  · cases hq : table r d (u / 1024) with
    | none => rfl
    | some q =>
      rw [map_some, map_some, wordOf_store_ne]
      by_cases htq : t = q
      · right
        have := hinj (u / 1024) (by omega) (by rw [hq, htq])
        omega
      · exact .inl htq

/-- the directory entry for a page table in page p -/
theorem table_install (hi : i < 1024) (hp : p < 2 ^ 20) (j : ℕ) :
    table (store r d i (p * 4096 + 7)) d j = if j = i then some p else table r d j := by
  by_cases hj : j = i
  · have hP : Present (p * 4096 + 7) := by simp only [Present]; omega
    have hF : pteFrame (p * 4096 + 7) = p := by simp only [pteFrame, PGSIZE]; omega
    rw [if_pos hj, hj, table, wordOf_store_self hi (by omega), if_pos hP, hF]
  · rw [if_neg hj, table, table, wordOf_store_ne (.inr fun e => hj e.symm)]

/-- **A new page table**, which is all zero, in page p. -/
theorem walk_install (hi : i < 1024) (hp : p < 2 ^ 20) (hpd : p ≠ d) (hz : r p = zeroPage) (hnd : table r d (v / 1024) ≠ some d) :
    walk (store r d i (p * 4096 + 7)) d v = if v / 1024 = i then some 0 else walk r d v := by
  unfold walk
  rw [table_install hi hp]
  split_ifs with hv
  · rw [map_some, wordOf_store_ne (.inl hpd.symm), wordOf_zero hz]
  · cases hq : table r d (v / 1024) with
    | none => rfl
    | some q =>
      have hqd : d ≠ q := fun e => hnd (by rw [hq, ← e])
      rw [map_some, map_some, wordOf_store_ne (.inl hqd)]

/-! ## walkpgdir -/

theorem PDX_eq (h : va < 2 ^ 32) : PDX va = va / 4096 / 1024 := by
  unfold PDX
  omega

theorem wp_walk {m : Mem} {Q : Option (ℕ × ℕ) → Mem → Prop} (hva : va < 2 ^ 32)
    (h : Q ((table m.page d (va / 4096 / 1024)).map fun t => (t, va / 4096 % 1024)) m) :
    wp E (walkpgdir d va false) Q m := by
  have hword : m.word d (PDX va) = wordOf m.page d (va / 4096 / 1024) := by rw [PDX_eq hva]; rfl
  simp only [walkpgdir, wp_bind, wp_get, wp_ite, hword, wp_pure, if_true]
  unfold table at h
  refine ⟨fun hp => ?_, fun hp => ?_⟩
  · rw [if_pos hp] at h
    exact h
  · rw [if_neg hp] at h
    exact h

end Xv6.Vm
