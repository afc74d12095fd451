/-
Scans of a finite table.

- `leastBy cand key xs`: the loop that keeps the candidate with the least key, the earlier one on a tie.
- `ringFind p start n i`: the loop that walks a ring of slots from i, at most n of them, and stops before `start`.
- `tally p`: how many slots satisfy p.

Results:
- `leastBy_some`, `leastBy_none`: the result is a least candidate; it is missing only if there is none;
- `leastBy_first`: it is the first of the least candidates;
- `ringFind_some`, `ringFind_none`: a full walk finds the first slot satisfying p in ring order from `start`;
- `tally_update`: changing one slot moves the tally by that slot's own change.
-/
import Mathlib.Data.Fintype.Card
import Mathlib.Tactic

namespace Xv6.Scan

open List

/-! ## The least candidate -/

section Least

variable {ι κ : Type} [LinearOrder κ] {cand : ι → Prop} [DecidablePred cand] {key : ι → κ} {xs : List ι}

/-- one pass of the loop's body -/
def keepLess (cand : ι → Prop) [DecidablePred cand] (key : ι → κ) (chosen : Option ι) (i : ι) : Option ι :=
  if cand i then
    match chosen with
    | none => some i
    | some j => if key i < key j then some i else some j
  else chosen

def leastBy (cand : ι → Prop) [DecidablePred cand] (key : ι → κ) (xs : List ι) : Option ι :=
  xs.foldl (keepLess cand key) none

/-- i is a least candidate among xs -/
def IsLeastBy (cand : ι → Prop) (key : ι → κ) (xs : List ι) (i : ι) : Prop :=
  i ∈ xs ∧ cand i ∧ ∀ j ∈ xs, cand j → key i ≤ key j

/-- what the loop has chosen after it has seen xs -/
def Chosen (cand : ι → Prop) (key : ι → κ) (xs : List ι) : Option ι → Prop
  | none => ∀ j ∈ xs, ¬ cand j
  | some i => IsLeastBy cand key xs i

theorem keepLess_chosen {o : Option ι} (h : Chosen cand key xs o) (i : ι) :
    Chosen cand key (xs ++ [i]) (keepLess cand key o i) := by
  unfold keepLess
  by_cases hi : cand i
  · rw [if_pos hi]
    cases o with
    | none =>
      refine ⟨by simp, hi, fun j hj hc => ?_⟩
      rcases mem_append.1 hj with hj | hj
      · exact absurd hc (h j hj)
      · rw [mem_singleton.1 hj]
    | some j =>
      obtain ⟨hm, hc, hle⟩ := h
      simp only
      split_ifs with hlt
      · refine ⟨by simp, hi, fun l hl hcl => ?_⟩
        rcases mem_append.1 hl with hl | hl
        · exact hlt.le.trans (hle l hl hcl)
        · rw [mem_singleton.1 hl]
      · refine ⟨by simp [hm], hc, fun l hl hcl => ?_⟩
        rcases mem_append.1 hl with hl | hl
        · exact hle l hl hcl
        · rw [mem_singleton.1 hl]; exact not_lt.1 hlt
  · rw [if_neg hi]
    cases o with
    | none =>
      intro j hj
      rcases mem_append.1 hj with hj | hj
      · exact h j hj
      · rw [mem_singleton.1 hj]; exact hi
    | some j =>
      obtain ⟨hm, hc, hle⟩ := h
      refine ⟨by simp [hm], hc, fun l hl hcl => ?_⟩
      rcases mem_append.1 hl with hl | hl
      · exact hle l hl hcl
      · rw [mem_singleton.1 hl] at hcl; exact absurd hcl hi

theorem leastBy_chosen (xs : List ι) : Chosen cand key xs (leastBy cand key xs) := by
  induction xs using List.reverseRecOn with
  | nil => intro j hj; simp at hj
  | append_singleton xs i ih =>
    rw [leastBy, foldl_append]
    exact keepLess_chosen ih i

theorem leastBy_some {i : ι} (h : leastBy cand key xs = some i) : IsLeastBy cand key xs i := by
  have hc : Chosen cand key xs (leastBy cand key xs) := leastBy_chosen xs
  rwa [h] at hc

theorem leastBy_none (h : leastBy cand key xs = none) : ∀ j ∈ xs, ¬ cand j := by
  have hc : Chosen cand key xs (leastBy cand key xs) := leastBy_chosen xs
  rwa [h] at hc

/-- **On a tie the loop keeps the earlier candidate**: everything before the chosen one has a larger key. -/
theorem leastBy_first {i : ι} (h : leastBy cand key xs = some i) :
    ∃ pre post, xs = pre ++ i :: post ∧ ∀ j ∈ pre, cand j → key i < key j := by
  induction xs using List.reverseRecOn generalizing i with
  | nil => simp [leastBy] at h
  | append_singleton xs x ih =>
    have hfold : leastBy cand key (xs ++ [x]) = keepLess cand key (leastBy cand key xs) x := by
      simp only [leastBy, foldl_append, foldl_cons, foldl_nil]
    have kept (hl : leastBy cand key xs = some i) :
        ∃ pre post, xs ++ [x] = pre ++ i :: post ∧ ∀ j ∈ pre, cand j → key i < key j := by
      obtain ⟨pre, post, rfl, hpre⟩ := ih hl
      exact ⟨pre, post ++ [x], by simp, hpre⟩
    rw [hfold] at h
    unfold keepLess at h
    split_ifs at h with hx
    · cases hl : leastBy cand key xs with
      | none =>
        rw [hl] at h
        cases h
        exact ⟨xs, [], rfl, fun j hj hc => absurd hc (leastBy_none hl j hj)⟩
      | some l =>
        rw [hl] at h
        simp only at h
        split_ifs at h with hlt
        · cases h
          exact ⟨xs, [], rfl, fun j hj hc => hlt.trans_le ((leastBy_some hl).2.2 j hj hc)⟩
        · cases h
          exact kept hl
    · exact kept h

end Least

/-! ## The ring -/

section Ring

variable {m : ℕ} {p : Fin (m + 1) → Prop} [DecidablePred p] {start : Fin (m + 1)}

def ringFind (p : Fin (m + 1) → Prop) [DecidablePred p] (start : Fin (m + 1)) : ℕ → Fin (m + 1) → Option (Fin (m + 1))
  | 0, _ => none
  | n + 1, i => if p i then some i else if i + 1 = start then none else ringFind p start n (i + 1)

/-- how far j is ahead of i on the ring -/
def ahead (i j : Fin (m + 1)) : ℕ := (j - i).val

theorem ahead_lt (i j : Fin (m + 1)) : ahead i j < m + 1 := (j - i).isLt

@[simp] theorem ahead_self (i : Fin (m + 1)) : ahead i i = 0 := by simp [ahead]

theorem ahead_inj {i j l : Fin (m + 1)} (h : ahead i j = ahead i l) : j = l := by
  have := Fin.ext h
  simpa using this

theorem ahead_succ {i j : Fin (m + 1)} (h : j + 1 ≠ i) : ahead i (j + 1) = ahead i j + 1 := by
  have hne : j - i + 1 ≠ 0 := fun e => h (by
    have : j + 1 - i = 0 := by rw [← e]; abel
    exact sub_eq_zero.1 this)
  have hlt : j - i < Fin.last m := by
    refine lt_of_le_of_ne (Fin.le_last _) fun e => hne ?_
    rw [e]; exact Fin.last_add_one m
  have : j + 1 - i = j - i + 1 := by abel
  simp only [ahead, this, Fin.val_add_one_of_lt hlt]

theorem ahead_last {i j : Fin (m + 1)} (h : j + 1 = i) : ahead i j = m := by
  subst h
  simp [ahead]

/-- the walk has passed every slot before i, and has m + 1 - (slots passed) left -/
theorem ringFind_spec (start : Fin (m + 1)) (n : ℕ) (i : Fin (m + 1)) (hn : ahead start i + n = m + 1)
    (hpre : ∀ j, ahead start j < ahead start i → ¬ p j) :
    match ringFind p start n i with
    | some r => p r ∧ ∀ j, ahead start j < ahead start r → ¬ p j
    | none => ∀ j, ¬ p j := by
  induction n generalizing i with
  | zero => exact absurd hn (by have := ahead_lt start i; omega)
  | succ n ih =>
    simp only [ringFind]
    by_cases hp : p i
    · rw [if_pos hp]; exact ⟨hp, hpre⟩
    rw [if_neg hp]
    have hpre' : ∀ j, ahead start j < ahead start i + 1 → ¬ p j := by
      intro j hj
      rcases Nat.lt_succ_iff_lt_or_eq.1 hj with hj | hj
      · exact hpre j hj
      · rw [ahead_inj hj]; exact hp
    by_cases hs : i + 1 = start
    · rw [if_pos hs]
      intro j
      refine hpre' j ?_
      rw [ahead_last hs]
      exact ahead_lt start j
    · rw [if_neg hs]
      have hsucc := ahead_succ hs
      exact ih (i + 1) (by omega) (by rwa [hsucc])

/-- **The full walk finds the first slot in ring order.** -/
theorem ringFind_some {r : Fin (m + 1)} (h : ringFind p start (m + 1) start = some r) :
    p r ∧ ∀ j, ahead start j < ahead start r → ¬ p j := by
  have := ringFind_spec (p := p) start (m + 1) start (by simp) (by simp)
  rwa [h] at this

theorem ringFind_none (h : ringFind p start (m + 1) start = none) : ∀ j, ¬ p j := by
  have := ringFind_spec (p := p) start (m + 1) start (by simp) (by simp)
  rwa [h] at this

/-- distances add up as long as the way does not pass its start again -/
theorem ahead_add {b c r : Fin (m + 1)} (h : ahead b c + ahead c r < m + 1) : ahead b r = ahead b c + ahead c r := by
  have e : r - b = (c - b) + (r - c) := by abel
  simp only [ahead] at h ⊢
  rw [e, Fin.val_add, Nat.mod_eq_of_lt h]

/-- from a slot on the way from b to p, the rest of the way is left -/
theorem ahead_sub {b c p : Fin (m + 1)} (h : ahead b c ≤ ahead b p) : ahead c p = ahead b p - ahead b c := by
  have e : p - c = (p - b) - (c - b) := by abel
  have hle : c - b ≤ p - b := h
  simp only [ahead]
  rw [e, Fin.sub_val_of_le hle]

/-- a cursor on the way from b to p that moves past a slot before p is still on that way -/
theorem ahead_succ_le {b c r p : Fin (m + 1)} (h : ahead b c ≤ ahead b p) (hr : ahead c r < ahead c p) :
    ahead b (r + 1) ≤ ahead b p := by
  have hp := ahead_sub h
  have hlt := ahead_lt b p
  have hb : ahead b r = ahead b c + ahead c r := ahead_add (by omega)
  have hne : r + 1 ≠ b := by
    intro e
    have := ahead_last e
    omega
  rw [ahead_succ hne]
  omega

/-- from a cursor on the way from q + 1 to p, p comes before q -/
theorem ahead_lt_of_between {c p q : Fin (m + 1)} (hpq : p ≠ q) (h : ahead (q + 1) c ≤ ahead (q + 1) p) :
    ahead c p < ahead c q := by
  have hq : ahead (q + 1) q = m := ahead_last rfl
  have hlt : ahead (q + 1) p ≠ m := fun e => hpq (ahead_inj (e.trans hq.symm))
  have hle := ahead_lt (q + 1) p
  have h1 := ahead_sub h
  have h2 : ahead c q = ahead (q + 1) q - ahead (q + 1) c := ahead_sub (by omega)
  omega

end Ring

/-! ## Tallies -/

section Tally

variable {ι : Type} [Fintype ι] {p q : ι → Prop} [DecidablePred p] [DecidablePred q]

/-- how many elements satisfy p -/
def tally (p : ι → Prop) [DecidablePred p] : Int := (Finset.univ.filter p).card

/-- 1 for a true proposition, 0 for a false one -/
def one (a : Prop) [Decidable a] : Int := if a then 1 else 0

theorem one_congr {a b : Prop} [Decidable a] [Decidable b] (h : a ↔ b) : one a = one b := by
  simp only [one, h]

/-- **One slot's change**: p and q agree off i -/
theorem tally_update [DecidableEq ι] (i : ι) (h : ∀ j, j ≠ i → (p j ↔ q j)) : tally q = tally p - one (p i) + one (q i) := by
  have split (r : ι → Prop) [DecidablePred r] :
      tally r = ((Finset.univ.erase i).filter r).card + one (r i) := by
    rw [tally, ← Finset.insert_erase (Finset.mem_univ i), Finset.filter_insert, one]
    split_ifs with hr
    · rw [Finset.card_insert_of_notMem (by simp)]; simp
    · simp
  have hc : (Finset.univ.erase i).filter p = (Finset.univ.erase i).filter q :=
    Finset.filter_congr fun j hj => h j (Finset.ne_of_mem_erase hj)
  rw [split p, split q, hc]
  ring

theorem tally_congr (h : ∀ j, p j ↔ q j) : tally p = tally q := by
  simp only [tally, Finset.filter_congr fun j _ => h j]

/-- two parts that exclude each other -/
theorem tally_or [DecidableEq ι] {r : ι → Prop} [DecidablePred r] (h : ∀ j, r j ↔ p j ∨ q j) (hne : ∀ j, p j → ¬ q j) :
    tally r = tally p + tally q := by
  have hset : Finset.univ.filter r = Finset.univ.filter p ∪ Finset.univ.filter q := by
    rw [← Finset.filter_or]
    exact Finset.filter_congr fun j _ => h j
  have hdisj : Disjoint (Finset.univ.filter p) (Finset.univ.filter q) :=
    Finset.disjoint_filter.2 fun j _ hp => hne j hp
  rw [tally, tally, tally, hset, Finset.card_union_of_disjoint hdisj]
  push_cast
  rfl

theorem tally_pos {i : ι} (h : p i) : 0 < tally p := by
  simp only [tally]
  exact_mod_cast Finset.card_pos.2 ⟨i, by simpa using h⟩

theorem exists_of_tally_pos (h : 0 < tally p) : ∃ i, p i := by
  simp only [tally] at h
  obtain ⟨i, hi⟩ := Finset.card_pos.1 (by exact_mod_cast h)
  exact ⟨i, by simpa using hi⟩

end Tally

end Xv6.Scan
