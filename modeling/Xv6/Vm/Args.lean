/-
The arguments of exec: copyout and the stack of the new image.

- `room n`: the bytes that a string of length n takes on the stack.
- `Gap sp n`: pushing such a string takes the stack pointer around to the addresses between the kernel's two regions, where
  the new directory has no page table.
- `Clear base sp ns`: that happens for none of the strings, as long as those before it fit into the stack page.
- `Pushed base top sp c done`: the strings that are on the stack already, with their addresses.

Results:
- `wp_copyIn`, `wp_copyGuard`, `wp_copyKern`: copyout inside a page, across the guard page, and above KERNBASE;
- `copyout_writes`: **copyout changes user-accessible pages only**;
- `wp_pushStrings`, `wp_pushArgs`: exec's loop and its frame;
- `arguments_follow_no_null_iff`: **no missing page table is followed, if and only if the lengths are clear of the gap**.
-/
import Xv6.Vm.Load

namespace Xv6.Vm

open Bytes Owners Fallible Function List Option

variable {L : Link} {S : ℕ → Prop} {F : Ram} {m m' : Mem} {V V' : View} {K : ℕ → Option ℕ} {b : ℕ → UInt8} {c : Page}
  {d g n o sp sz v w va base top : ℕ} {p : List UInt8} {x : ℕ × Page} {E : Fault → Prop}

/-! ## copyout -/

theorem wp_uva2ka {Q : Option ℕ → Mem → Prop} (hva : va < 2 ^ 32) (hv : va / 4096 = v)
    (hnull : walk m.page d v = none → E .nullPte)
    (hno : ∀ w, walk m.page d v = some w → ¬ (Present w ∧ UserBit w) → Q none m)
    (hyes : ∀ w, walk m.page d v = some w → Present w → UserBit w → Q (some (pteFrame w)) m) : wp E (uva2ka d va) Q m := by
  unfold uva2ka
  refine wp_bind.2 (wp_walk hva ?_)
  rw [hv]
  cases ht : table m.page d (v / 1024) with
  | none =>
    refine wp_throw.2 (hnull ?_)
    rw [walk, ht, map_none]
  | some t =>
    have hw := walk_of_table ht
    have hword : m.word t (v % 1024) = wordOf m.page t (v % 1024) := rfl
    simp only [map_some, wp_bind, wp_get, wp_ite, wp_pure, hword]
    refine ⟨fun hP => hno _ hw fun h => hP h.1, fun hP => ⟨fun hU => hno _ hw fun h => hU h.2, fun hU => ?_⟩⟩
    exact hyes _ hw (not_not.1 hP) (not_not.1 hU)

/-- what uva2ka finds in the user's half -/
theorem wp_uva2kaUser {Q : Option ℕ → Mem → Prop} (h : Rep L S F m (some d) [] V K) (hv : v < UPAGES) (hV : V v = some x)
    (hno : ¬ UserBit x.1 → Q none m)
    (hyes : ∀ w, UserBit x.1 → walk m.page d v = some w → Present w → x = (pteFlags w, m.page (pteFrame w)) →
      Q (some (pteFrame w)) m) : wp E (uva2ka d (v * 4096)) Q m := by
  have hlt : v < 2 ^ 19 := hv
  obtain ⟨w, hw, hP, hx⟩ := view_some ((h.view d rfl v hv).trans hV)
  have hbit : UserBit x.1 ↔ UserBit w := by rw [hx]; exact userBit_flags w
  refine wp_uva2ka (by omega) (Nat.mul_div_cancel v (by decide)) (fun hn => ?_) (fun w' hw' hb => ?_) fun w' hw' _ hU => ?_
  · rw [hw] at hn
    cases hn
  · obtain rfl : w = w' := some.inj (hw.symm.trans hw')
    exact hno fun hU => hb ⟨hP, hbit.1 hU⟩
  · obtain rfl : w = w' := some.inj (hw.symm.trans hw')
    exact hyes w (hbit.2 hU) hw hP hx

theorem round_page (ho : o < 4096) : PGROUNDDOWN (v * 4096 + o) = v * 4096 := by
  simp only [PGROUNDDOWN, PGSIZE]
  omega

variable {Q : Bool → Mem → Prop} {argv : List (List UInt8)}

/-- inside one page -/
theorem wp_copyIn (h : Rep L S F m (some d) [] V K) (hv : v < UPAGES) (hV : V v = some x)
    (hU : UserBit x.1) (hp : p ≠ []) (hfit : o + p.length ≤ 4096)
    (hQ : ∀ m', Rep L S F m' (some d) [] (update V v (some (x.1, patch x.2 o p))) K → Q true m') :
    wp E (copyout d (v * 4096 + o) p) Q m := by
  have hpos : 0 < p.length := length_pos_of_ne_nil hp
  obtain ⟨n, hn⟩ : ∃ n, p.length = n + 1 := Nat.exists_eq_succ_of_ne_zero hpos.ne'
  have hk : min (PGSIZE - o) p.length = p.length := min_eq_right (by simp only [PGSIZE]; omega)
  have hsub : v * 4096 + o - v * 4096 = o := Nat.add_sub_cancel_left ..
  unfold copyout
  rw [hn, copyLoopOut, if_neg hp]
  simp only [round_page (by omega : o < 4096), hsub, hk]
  refine wp_bind.2 (wp_uva2kaUser h hv hV (fun hbad => absurd hU hbad) fun w _ hw hP hx => ?_)
  simp only [wp_bind, wp_modify, take_length, drop_length]
  have h1 := rep_write h hv hw hP (patch (m.page (pteFrame w)) o p)
  have hx1 : pteFlags w = x.1 := by rw [hx]
  have hx2 : m.page (pteFrame w) = x.2 := by rw [hx]
  rw [hx1, hx2] at h1
  rw [hx2]
  have hend : ∀ (n va : ℕ) (m : Mem), Q true m → wp E (copyLoopOut d n va []) Q m := by
    intro n va m hm
    cases n with
    | zero | succ n => rw [copyLoopOut, if_pos rfl]; exact wp_pure.2 hm
  exact hend _ _ _ (hQ _ h1)

/-- from below the guard page into it: copyout fails there -/
theorem wp_copyGuard (n : ℕ) (h : Rep L S F m (some d) [] V K) (hg : g < UPAGES)
    (hbelow : ∀ v, v < g → ∃ x, V v = some x ∧ UserBit x.1) (hguard : ∃ x, V g = some x ∧ ¬ UserBit x.1) (ho : o < 4096)
    (hv : v ≤ g) (hmeet : g * 4096 < v * 4096 + o + p.length) (hp : p ≠ []) (hn : p.length ≤ n)
    (hQ : ∀ m' V', Rep L S F m' (some d) [] V' K → Q false m') : wp E (copyLoopOut d n (v * 4096 + o) p) Q m := by
  have hg' : g < 2 ^ 19 := hg
  induction n generalizing m V v o p with
  | zero => exact absurd (length_pos_of_ne_nil hp) (by omega)
  | succ n ih =>
    have hsub : v * 4096 + o - v * 4096 = o := Nat.add_sub_cancel_left ..
    have hvu : v < UPAGES := lt_of_le_of_lt hv hg
    rw [copyLoopOut, if_neg hp]
    simp only [round_page ho, hsub]
    rcases Nat.lt_or_ge v g with hlt | hge
    · obtain ⟨x, hV, hU⟩ := hbelow v hlt
      refine wp_bind.2 (wp_uva2kaUser h hvu hV (fun hbad => absurd hU hbad) fun w _ hw hP hx => ?_)
      have hk : min (PGSIZE - o) p.length = 4096 - o := min_eq_left (by simp only [PGSIZE]; omega)
      have hmore : 4096 - o < p.length := by omega
      have hlen : g * 4096 < v * 4096 + 4096 + (p.length - (4096 - o)) := by omega
      have hnext : uint32 (v * 4096 + PGSIZE) = (v + 1) * 4096 + 0 := (next_page hvu).trans (Nat.add_zero _).symm
      have hrest : (p.drop (4096 - o)).length = p.length - (4096 - o) := length_drop ..
      simp only [wp_bind, wp_modify, hk, hnext]
      have h1 := rep_write h hvu hw hP (patch (m.page (pteFrame w)) o (p.take (4096 - o)))
      refine ih h1 (fun u hu => ?_) ?_ (by decide) hlt ?_ ?_ ?_
      · by_cases huv : u = v
        · refine ⟨_, by rw [huv, update_self], ?_⟩
          rw [hx] at hU
          exact hU
        · rw [update_of_ne huv]
          exact hbelow u hu
      · rw [update_of_ne hlt.ne']
        exact hguard
      · rw [hrest, Nat.add_zero, Nat.succ_mul]
        exact hlen
      · refine ne_nil_of_length_pos ?_
        rw [hrest]
        exact Nat.sub_pos_of_lt hmore
      · rw [hrest]
        exact le_trans (Nat.sub_le_sub_right hn _) (by omega)
    · obtain rfl : v = g := le_antisymm hv hge
      obtain ⟨x, hV, hU⟩ := hguard
      exact wp_bind.2 (wp_uva2kaUser h hvu hV (fun _ => wp_pure.2 (hQ m V h)) fun w hU' => absurd hU' hU)

theorem kernelEntry_user (L : Link) (v : ℕ) : ¬ UserBit (kernelEntry L v) := by
  have hbit : ∀ a f, f < 4 → ¬ UserBit (a * 4096 + f) := by
    intro a f hf
    simp only [UserBit, PTE_U]
    omega
  unfold kernelEntry
  split_ifs <;> exact hbit _ _ (by decide)

/-- above KERNBASE -/
theorem wp_copyKern (h : Rep L S F m (some d) [] V (kernelMap L)) (hv : UPAGES ≤ v) (hvn : v < NPAGES)
    (ho : o < 4096) (hp : p ≠ []) (hnull : kernelMap L v = none → E .nullPte) (hQ : kernelMap L v ≠ none → Q false m) :
    wp E (copyout d (v * 4096 + o) p) Q m := by
  have hlt : v < 2 ^ 20 := hvn
  obtain ⟨n, hn⟩ : ∃ n, p.length = n + 1 := Nat.exists_eq_succ_of_ne_zero (length_pos_of_ne_nil hp).ne'
  have hwalk := h.kern d rfl v hv hvn
  unfold copyout
  rw [hn, copyLoopOut, if_neg hp]
  simp only [round_page ho]
  refine wp_bind.2 (wp_uva2ka (by omega) (Nat.mul_div_cancel v (by decide)) (fun hn => ?_) (fun w hw _ => ?_) fun w hw _ hU => ?_)
  · exact hnull (hwalk.symm.trans hn)
  · refine wp_pure.2 (hQ ?_)
    rw [← hwalk, hw]
    simp
  · rw [hwalk, kernelMap] at hw
    split_ifs at hw
    rw [← some.inj hw] at hU
    exact absurd hU (kernelEntry_user L v)

/-! ## What copyout writes -/

/-- page q is present and user-accessible in the directory d -/
def UserPage (r : Ram) (d q : ℕ) : Prop := ∃ v w, v < UPAGES ∧ walk r d v = some w ∧ Present w ∧ UserBit w ∧ pteFrame w = q

/-- from m to m' only user-accessible pages have changed -/
structure Writes (L : Link) (S : ℕ → Prop) (F : Ram) (d : ℕ) (m m' : Mem) : Prop where
  rep : ∃ V, Rep L S F m' (some d) [] V (kernelMap L)
  walk : ∀ v, v < NPAGES → walk m'.page d v = walk m.page d v
  pages : ∀ q, m'.page q ≠ m.page q → UserPage m.page d q

theorem Writes.refl (h : Rep L S F m (some d) [] V (kernelMap L)) : Writes L S F d m m :=
  ⟨⟨V, h⟩, fun _ _ => rfl, fun _ hq => absurd rfl hq⟩

theorem Writes.trans {m'' : Mem} (h : Writes L S F d m m') (h' : Writes L S F d m' m'') : Writes L S F d m m'' := by
  refine ⟨h'.rep, fun v hv => (h'.walk v hv).trans (h.walk v hv), fun q hq => ?_⟩
  by_cases hq' : m''.page q = m'.page q
  · exact h.pages q fun e => hq (hq'.trans e)
  · obtain ⟨v, w, hv, hw, hrest⟩ := h'.pages q hq'
    rw [h.walk v (lt_of_lt_of_le hv (by decide))] at hw
    exact ⟨v, w, hv, hw, hrest⟩

theorem copyLoopOut_writes (n : ℕ) (h : Rep L S F m (some d) [] V (kernelMap L)) (hva : va < 2 ^ 32) :
    wp (fun _ => True) (copyLoopOut d n va p) (fun _ m' => Writes L S F d m m') m := by
  induction n generalizing m V va p with
  | zero =>
    rw [copyLoopOut, wp_ite]
    exact ⟨fun _ => wp_pure.2 (Writes.refl h), fun _ => wp_throw.2 trivial⟩
  | succ n ih =>
    rw [copyLoopOut, wp_ite]
    refine ⟨fun _ => wp_pure.2 (Writes.refl h), fun _ => ?_⟩
    obtain ⟨v, hv⟩ : ∃ v, va / 4096 = v := ⟨_, rfl⟩
    have hlt : v < 2 ^ 20 := by omega
    have hround : PGROUNDDOWN va = v * 4096 := by rw [← hv]; rfl
    simp only [hround]
    refine wp_bind.2 (wp_uva2ka (by omega) (Nat.mul_div_cancel v (by decide)) (fun _ => trivial)
      (fun w _ _ => wp_pure.2 (Writes.refl h)) fun w hw hP hU => ?_)
    -- the kernel's pages are not the user's
    have hvu : v < UPAGES := by
      by_contra hge
      have hk := (h.kern d rfl v (not_lt.1 hge) hlt).symm.trans hw
      unfold kernelMap at hk
      split_ifs at hk
      rw [← some.inj hk] at hU
      exact kernelEntry_user L v hU
    simp only [wp_bind, wp_modify]
    have h1 := rep_write h hvu hw hP (patch (m.page (pteFrame w)) (va - v * 4096)
      (p.take (min (PGSIZE - (va - v * 4096)) p.length)))
    refine wp_mono (ih h1 (uint32_lt _)) fun r m' h' => Writes.trans ⟨⟨_, h1⟩, fun u hu => walk_write h hvu hw hP _ hu, ?_⟩ h'
    intro q hq
    refine ⟨v, w, hvu, hw, hP, hU, ?_⟩
    by_contra hne
    exact hq (update_of_ne (Ne.symm hne) _ _)

/-- **copyout changes user-accessible pages only.** -/
theorem copyout_writes (h : Rep L S F m (some d) [] V (kernelMap L)) (hva : va < 2 ^ 32) :
    wp (fun _ => True) (copyout d va p) (fun _ m' => Writes L S F d m m') m :=
  copyLoopOut_writes p.length h hva

theorem down_lt (sp n : ℕ) : down sp n < 2 ^ 32 := by
  have h := uint32_lt (sp + (2 ^ 32 - uint32 n))
  unfold down
  omega

theorem pushStrings_writes {argc : ℕ} {ptrs : List ℕ} (h : Rep L S F m (some d) [] V (kernelMap L)) :
    wp (fun _ => True) (pushStrings d argv argc sp ptrs) (fun _ m' => Writes L S F d m m') m := by
  induction argv generalizing m V argc sp ptrs with
  | nil => exact wp_pure.2 (Writes.refl h)
  | cons s argv ih =>
    rw [pushStrings, wp_ite]
    refine ⟨fun _ => wp_pure.2 (Writes.refl h), fun _ => ?_⟩
    refine wp_seq (copyout_writes h (down_lt ..)) fun r m1 h1 => ?_
    obtain ⟨V1, hV1⟩ := h1.rep
    rw [wp_ite]
    exact ⟨fun _ => wp_mono (ih hV1) fun r m' h' => h1.trans h', fun _ => wp_pure.2 h1⟩

theorem pushArgs_writes (h : Rep L S F m (some d) [] V (kernelMap L)) :
    wp (fun _ => True) (pushArgs d argv sz) (fun _ m' => Writes L S F d m m') m := by
  unfold pushArgs
  refine wp_seq (pushStrings_writes h) fun r m1 h1 => ?_
  obtain ⟨V1, hV1⟩ := h1.rep
  cases r with
  | none => exact wp_pure.2 h1
  | some x =>
    refine wp_seq (copyout_writes hV1 (uint32_lt _)) fun r m2 h2 => ?_
    rw [wp_ite]
    exact ⟨fun _ => wp_pure.2 (h1.trans h2), fun _ => wp_pure.2 (h1.trans h2)⟩

/-! ## The stack pointer -/

/-- what a string of length n takes on the stack: its bytes and the NUL, in whole words -/
def room (n : ℕ) : ℕ := (n + 4) / 4 * 4

def Gap (sp n : ℕ) : Prop := sp + (2 ^ 32 - DEVSPACE) < room n ∧ room n ≤ sp + (2 ^ 32 - (KERNBASE + PHYSTOP))

instance (sp n : ℕ) : Decidable (Gap sp n) := inferInstanceAs (Decidable (_ ∧ _))

def Clear (base : ℕ) : ℕ → List ℕ → Prop
  | _, [] => True
  | sp, n :: ns => ¬ Gap sp n ∧ (base + room n ≤ sp → Clear base (sp - room n) ns)

theorem down_eq (hsp : sp < 2 ^ 31) (halign : sp % 4 = 0) (hn : n < 2 ^ 31) :
    down sp (n + 1) = if room n ≤ sp then sp - room n else 2 ^ 32 + sp - room n := by
  unfold down room uint32
  split_ifs <;> omega

/-- where the string goes when the subtraction wraps around: above KERNBASE, and in the gap only if Gap says so -/
theorem down_wraps (hsp : sp < 2 ^ 31) (halign : sp % 4 = 0) (hn : n < 2 ^ 31) (hlow : 8 ≤ sp) (h : sp < room n) :
    UPAGES ≤ down sp (n + 1) / 4096 ∧ (kernelMap L (down sp (n + 1) / 4096) = none ↔ Gap sp n) := by
  rw [down_eq hsp halign hn, if_neg (not_le.2 h)]
  have hr : room n ≤ 2 ^ 31 + 3 := by unfold room; omega
  have hr4 : room n % 4 = 0 := by unfold room; omega
  unfold kernelMap Gap
  simp only [UPAGES, KERNBASE, PHYSTOP, DEVSPACE, PGSIZE]
  refine ⟨by omega, ?_⟩
  split_ifs with hin
  · simp only [false_iff]
    omega
  · simp only [true_iff]
    omega

/-! ## One push -/

theorem loadedView_stack {c' : Page} : update (loadedView g b c) (g + 1) (some (7, c')) = loadedView g b c' := by
  funext v
  unfold loadedView
  by_cases hv : v = g + 1
  · rw [hv, update_self, if_neg (by omega), if_neg (by omega), if_pos rfl]
  · rw [update_of_ne hv, if_neg hv, if_neg hv]

theorem loadedView_below (hv : v < g) : ∃ x, loadedView g b c v = some x ∧ UserBit x.1 :=
  ⟨(7, pageOf b v), if_pos hv, (by decide : UserBit 7)⟩

theorem loadedView_at : ∃ x, loadedView g b c g = some x ∧ ¬ UserBit x.1 := by
  refine ⟨(3, zeroPage), ?_, (by decide : ¬ UserBit 3)⟩
  unfold loadedView
  rw [if_neg (lt_irrefl g), if_pos rfl]

theorem loadedView_top : loadedView g b c (g + 1) = some (7, c) := by
  unfold loadedView
  rw [if_neg (by omega), if_neg (by omega), if_pos rfl]

/-- the stack page of an image with guard page g, and a stack pointer in it -/
structure InStack (g sp : ℕ) : Prop where
  fits : g + 2 < UPAGES
  low : (g + 1) * 4096 ≤ sp
  high : sp ≤ (g + 2) * 4096
  aligned : sp % 4 = 0

/-- a string or the frame, n + 1 bytes, below a stack pointer in the stack page -/
theorem wp_push (h : Rep L S F m (some d) [] (loadedView g b c) (kernelMap L)) (hs : InStack g sp)
    (hp : p.length = n + 1) (hn : n < KERNBASE) (hnull : Gap sp n → E .nullPte)
    (hyes : ∀ m', (g + 1) * 4096 + room n ≤ sp →
      Rep L S F m' (some d) [] (loadedView g b (patch c (sp - room n - (g + 1) * 4096) p)) (kernelMap L) → Q true m')
    (hno : ∀ m' V', ¬ Gap sp n → ¬ (g + 1) * 4096 + room n ≤ sp → Rep L S F m' (some d) [] V' (kernelMap L) → Q false m') :
    wp E (copyout d (down sp (n + 1)) p) Q m := by
  obtain ⟨hfits, hlow, hhigh, halign⟩ := hs
  have hg : g + 2 < 2 ^ 19 := hfits
  have hsp : sp < 2 ^ 31 := lt_of_le_of_lt hhigh (by omega)
  have hn' : n < 2 ^ 31 := hn
  have hne : p ≠ [] := ne_nil_of_length_eq_add_one hp
  have hroom : n + 1 ≤ room n ∧ room n ≤ n + 4 ∧ room n % 4 = 0 := by unfold room; omega
  have hbase : (g + 2) * 4096 = (g + 1) * 4096 + 4096 := Nat.succ_mul (g + 1) 4096
  obtain ⟨z, hz⟩ : ∃ z, (g + 1) * 4096 = z := ⟨_, rfl⟩
  rw [hz] at hlow hbase hyes hno
  rw [hbase] at hhigh
  by_cases hwrap : room n ≤ sp
  · rw [down_eq hsp halign hn', if_pos hwrap]
    have hgap : ¬ Gap sp n := by
      unfold Gap
      omega
    by_cases hin : z + room n ≤ sp
    · -- inside the stack page
      have hva : sp - room n = (g + 1) * 4096 + (sp - room n - z) := by rw [hz]; omega
      rw [hva]
      refine wp_copyIn h (by simp only [UPAGES]; omega) loadedView_top (by decide : UserBit 7) hne ?_ fun m' h' => hyes m' hin ?_
      · rw [hp]
        omega
      · rwa [loadedView_stack] at h'
    · -- it reaches into the guard page
      obtain ⟨v, hv⟩ : ∃ v, (sp - room n) / 4096 = v := ⟨_, rfl⟩
      have hva : sp - room n = v * 4096 + (sp - room n) % 4096 := by omega
      have hvg : v ≤ g := by omega
      rw [hva]
      refine wp_copyGuard p.length h (by simp only [UPAGES]; omega) (fun v hv => loadedView_below hv) loadedView_at
        (Nat.mod_lt _ (by decide)) hvg ?_ hne (le_refl _) fun m' V' h' => hno m' V' hgap hin h'
      rw [← hva, hp]
      omega
  · -- around the end of the address space
    have hw := not_le.1 hwrap
    have hlow8 : 8 ≤ sp := by omega
    obtain ⟨hup, hiff⟩ := down_wraps (L := L) hsp halign hn' hlow8 hw
    obtain ⟨v, hv⟩ : ∃ v, down sp (n + 1) / 4096 = v := ⟨_, rfl⟩
    rw [hv] at hup hiff
    have hlt := down_lt sp (n + 1)
    have hva : down sp (n + 1) = v * 4096 + down sp (n + 1) % 4096 := by omega
    rw [hva]
    refine wp_copyKern h hup (by unfold NPAGES; omega) (Nat.mod_lt _ (by decide)) hne (fun hnone => hnull (hiff.1 hnone))
      fun hsome => hno m _ (fun hgap => hsome (hiff.2 hgap)) (by omega) h

/-! ## The strings -/

structure Pushed (base top sp : ℕ) (c : Page) (done : List (List UInt8 × ℕ)) : Prop where
  each : ∀ x ∈ done, x.2 % 4 = 0 ∧ sp ≤ x.2 ∧ x.2 + x.1.length + 1 ≤ top ∧ slice c (x.2 - base) (x.1.length + 1) = x.1 ++ [0]
  apart : done.Pairwise fun x y => y.2 + y.1.length + 1 ≤ x.2

theorem pushed_nil (base top : ℕ) (c : Page) : Pushed base top sp c [] := ⟨by simp, List.Pairwise.nil⟩

/-- one more string, below the others -/
theorem pushed_snoc {done : List (List UInt8 × ℕ)} {s : List UInt8} {r : ℕ} (h : Pushed base top sp c done)
    (hr : s.length + 1 ≤ r) (hlow : base + r ≤ sp) (htop : sp ≤ top) (hsize : top ≤ base + 4096) (ha : (sp - r) % 4 = 0) :
    Pushed base top (sp - r) (patch c (sp - r - base) (s ++ [0])) (done ++ [(s, sp - r)]) := by
  have hlen : (s ++ [0]).length = s.length + 1 := by simp
  refine ⟨fun x hx => ?_, ?_⟩
  · rcases mem_append.1 hx with hx | hx
    · obtain ⟨h1, h2, h3, h4⟩ := h.each x hx
      refine ⟨h1, by omega, h3, ?_⟩
      rw [slice_patch_disjoint (.inr (by rw [hlen]; omega)), h4]
    · rw [mem_singleton] at hx
      subst hx
      refine ⟨ha, le_refl _, by simp only; omega, ?_⟩
      simp only
      rw [← hlen]
      exact slice_patch_self (by rw [hlen]; omega)
  · refine pairwise_append.2 ⟨h.apart, pairwise_singleton _ _, fun x hx y hy => ?_⟩
    rw [mem_singleton] at hy
    subst hy
    obtain ⟨-, h2, -, -⟩ := h.each x hx
    simp only
    omega

theorem pushed_patch {done : List (List UInt8 × ℕ)} {o : ℕ} (h : Pushed base top sp c done) (hfit : base + o + p.length ≤ sp) :
    Pushed base top sp (patch c o p) done := by
  refine ⟨fun x hx => ?_, h.apart⟩
  obtain ⟨h1, h2, h3, h4⟩ := h.each x hx
  exact ⟨h1, h2, h3, by rw [slice_patch_disjoint (.inr (by omega)), h4]⟩

theorem not_gap (h : room n ≤ sp) : ¬ Gap sp n := by
  unfold Gap
  omega

/-- the next stack pointer in the stack page -/
theorem inStack_down (hs : InStack g sp) (hlow : (g + 1) * 4096 + room n ≤ sp) : InStack g (sp - room n) := by
  refine ⟨hs.fits, Nat.le_sub_of_add_le hlow, le_trans (Nat.sub_le ..) hs.high, ?_⟩
  have ha := hs.aligned
  have hr : room n % 4 = 0 := by unfold room; omega
  omega

/-- what the strings take -/
def rooms (argv : List (List UInt8)) : ℕ := (argv.map fun s => room s.length).sum

theorem rooms_cons (s : List UInt8) (argv : List (List UInt8)) : rooms (s :: argv) = room s.length + rooms argv := by
  rw [rooms, map_cons, sum_cons, rooms]

/-- exec's loop. It fails only if there are too many strings or if they do not fit into the page. -/
theorem wp_pushStrings {Q : Option (ℕ × List ℕ) → Mem → Prop} {D : List (List UInt8 × ℕ)}
    (h : Rep L S F m (some d) [] (loadedView g b c) (kernelMap L)) (hs : InStack g sp)
    (hlen : ∀ s ∈ argv, s.length < KERNBASE) (hdone : Pushed ((g + 1) * 4096) ((g + 2) * 4096) sp c D)
    (hargc : D.length ≤ MAXARG)
    (hnull : ¬ Clear ((g + 1) * 4096) sp (argv.map List.length) → E .nullPte)
    (hyes : ∀ m' sp' c' D', Clear ((g + 1) * 4096) sp (argv.map List.length) → InStack g sp' → sp' + rooms argv = sp →
      Pushed ((g + 1) * 4096) ((g + 2) * 4096) sp' c' D' → D'.map Prod.fst = D.map Prod.fst ++ argv →
      D'.length ≤ MAXARG → Rep L S F m' (some d) [] (loadedView g b c') (kernelMap L) →
      Q (some (sp', D'.map Prod.snd)) m')
    (hno : ∀ m' V', (D.length + argv.length ≤ MAXARG → Clear ((g + 1) * 4096) sp (argv.map List.length)) →
      (D.length + argv.length ≤ MAXARG → sp < (g + 1) * 4096 + rooms argv) →
      Rep L S F m' (some d) [] V' (kernelMap L) → Q none m') :
    wp E (pushStrings d argv D.length sp (D.map Prod.snd)) Q m := by
  induction argv generalizing m c sp D with
  | nil => exact wp_pure.2 (hyes m sp c D trivial hs rfl hdone (by simp) hargc h)
  | cons s argv ih =>
    have hsp : sp < 2 ^ 31 := by
      have hf : g + 2 < 2 ^ 19 := hs.fits
      exact lt_of_le_of_lt hs.high (by omega)
    have hslen := hlen s mem_cons_self
    rw [pushStrings, wp_ite]
    refine ⟨fun hmax => wp_pure.2 (hno m _ (fun hle => absurd hle ?_) (fun hle => absurd hle ?_) h), fun hmax => ?_⟩
    · rw [length_cons]
      omega
    · rw [length_cons]
      omega
    refine wp_bind.2 (wp_push h hs (by simp) hslen (fun hgap => hnull fun hclear => hclear.1 hgap) (fun m1 hin h1 => ?_)
      fun m1 V1 hgap hout h1 => ?_)
    · have hr : room s.length ≤ sp := le_trans (Nat.le_add_left ..) hin
      have hdown : down sp (s.length + 1) = sp - room s.length := by rw [down_eq hsp hs.aligned hslen, if_pos hr]
      have hs1 := inStack_down hs hin
      have hd1 := pushed_snoc (s := s) hdone (by unfold room; omega) hin hs.high (by rw [Nat.succ_mul (g + 1)]) hs1.aligned
      have hpair : ∀ x : List UInt8 × ℕ, (D ++ [x]).length = D.length + 1 := fun x => by simp
      have hcount : ∀ x : List UInt8 × ℕ, D.length + (s :: argv).length ≤ MAXARG → (D ++ [x]).length + argv.length ≤ MAXARG := by
        intro x hle
        rw [hpair]
        rw [length_cons] at hle
        omega
      have hclear : Clear ((g + 1) * 4096) (sp - room s.length) (argv.map List.length) →
          Clear ((g + 1) * 4096) sp ((s :: argv).map List.length) := fun hc => ⟨not_gap hr, fun _ => hc⟩
      rw [if_pos rfl, hdown]
      have hgoal : wp E (pushStrings d argv (D ++ [(s, sp - room s.length)]).length (sp - room s.length)
          ((D ++ [(s, sp - room s.length)]).map Prod.snd)) Q m1 := by
        refine ih h1 hs1 (fun x hx => hlen x (mem_cons_of_mem _ hx)) hd1 (by rw [hpair]; omega)
          (fun hn => hnull fun hc => hn (hc.2 hin)) (fun m' sp' c' D' hc hs' hsum hp' hfst hmax' h' => ?_)
          fun m' V' hc hfull h' => hno m' V' (fun hle => hclear (hc (hcount _ hle))) (fun hle => ?_) h'
        · refine hyes m' sp' c' D' (hclear hc) hs' ?_ hp' (by rw [hfst]; simp) hmax' h'
          rw [rooms_cons]
          omega
        · have hlt := hfull (hcount _ hle)
          rw [rooms_cons]
          omega
      rw [hpair, map_append] at hgoal
      exact hgoal
    · rw [if_neg (by decide)]
      refine wp_pure.2 (hno m1 V1 (fun _ => ⟨hgap, fun hin => absurd hin hout⟩) (fun _ => ?_) h1)
      rw [rooms_cons]
      omega

/-! ## The frame -/

theorem wordBytes_length (ws : List ℕ) : (wordBytes ws).length = 4 * ws.length := by
  unfold wordBytes
  induction ws with
  | nil => rfl
  | cons w ws ih =>
    rw [flatMap_cons, length_append, leBytes_length, ih, length_cons]
    omega

/-- the stack of main: its frame at sp, and the strings with their addresses -/
structure Frame (g sp : ℕ) (c : Page) (argv : List (List UInt8)) (ptrs : List ℕ) : Prop where
  stack : InStack g sp
  count : ptrs.length = argv.length
  frame : slice c (sp - (g + 1) * 4096) (4 * (argv.length + 4)) =
    wordBytes ([0xffffffff, argv.length, sp + 12] ++ ptrs ++ [0])
  strings : Pushed ((g + 1) * 4096) ((g + 2) * 4096) (sp + 4 * (argv.length + 4)) c (argv.zip ptrs)

theorem frame_fits {z : ℕ} (hin : (g + 1) * 4096 + z ≤ sp) (hhigh : sp ≤ (g + 2) * 4096) : sp - z - (g + 1) * 4096 + z ≤ 4096 := by
  rw [Nat.succ_mul (g + 1)] at hhigh
  generalize (g + 1) * 4096 = y at hin hhigh
  omega

theorem frame_below {z : ℕ} (hz : 0 < z) (hin : base + z ≤ sp) : base + (sp - z - base) + (z - 1 + 1) ≤ sp := by
  omega

theorem wp_pushArgs {Q : Option ℕ → Mem → Prop}
    (h : Rep L S F m (some d) [] (loadedView g b c) (kernelMap L)) (hg : g + 2 < UPAGES)
    (hlen : ∀ s ∈ argv, s.length < KERNBASE)
    (hnull : ¬ Clear ((g + 1) * 4096) ((g + 2) * 4096) (argv.map List.length) → E .nullPte)
    (hyes : ∀ m' sp c' ptrs, Clear ((g + 1) * 4096) ((g + 2) * 4096) (argv.map List.length) → Frame g sp c' argv ptrs →
      Rep L S F m' (some d) [] (loadedView g b c') (kernelMap L) → Q (some sp) m')
    (hno : ∀ m' V', (argv.length ≤ MAXARG → Clear ((g + 1) * 4096) ((g + 2) * 4096) (argv.map List.length)) →
      (argv.length ≤ MAXARG → 4096 < rooms argv + 4 * (argv.length + 4)) →
      Rep L S F m' (some d) [] V' (kernelMap L) → Q none m') :
    wp E (pushArgs d argv ((g + 2) * 4096)) Q m := by
  have hs0 : InStack g ((g + 2) * 4096) := ⟨hg, Nat.mul_le_mul_right 4096 (by omega), le_refl _, by omega⟩
  unfold pushArgs
  have hpage : (g + 2) * 4096 = (g + 1) * 4096 + 4096 := Nat.succ_mul (g + 1) 4096
  refine wp_bind.2 (wp_pushStrings (D := []) h hs0 hlen (pushed_nil _ _ c) (Nat.zero_le _) hnull
    (fun m1 sp c1 done hclear hs hsum hdone hfst hmax h1 => ?_) fun m1 V1 hclear hfull h1 => wp_pure.2 (hno m1 V1 ?_ ?_ h1))
  rotate_left
  · intro hle
    exact hclear (by rwa [length_nil, Nat.zero_add])
  · intro hle
    have hlt := hfull (by rwa [length_nil, Nat.zero_add])
    rw [hpage] at hlt
    exact lt_of_lt_of_le (Nat.lt_of_add_lt_add_left hlt) (Nat.le_add_right ..)
  obtain rfl : argv = done.map Prod.fst := by simpa using hfst.symm
  obtain ⟨k, hk⟩ : ∃ k, done.length = k := ⟨_, rfl⟩
  have hf : g + 2 < 2 ^ 19 := hg
  have hsp : sp < 2 ^ 31 := lt_of_le_of_lt hs.high (by omega)
  have hlow : 4096 ≤ sp := le_trans (by omega) hs.low
  have hkmax : k ≤ 32 := hk ▸ hmax
  have hroom : room (4 * (k + 4) - 1) = 4 * (k + 4) := by unfold room; omega
  have hsub : uint32 (sp + (2 ^ 32 - (3 + k + 1) * 4)) = sp - 4 * (k + 4) := by unfold uint32; omega
  have hdown : down sp (4 * (k + 4) - 1 + 1) = sp - 4 * (k + 4) := by
    rw [down_eq hsp hs.aligned (by omega), hroom, if_pos (by omega)]
  have hwords : (wordBytes (ustack sp (done.map Prod.snd))).length = 4 * (k + 4) - 1 + 1 := by
    rw [wordBytes_length]
    simp only [ustack, length_append, length_cons, length_nil, length_map, hk]
    omega
  simp only [length_map, hk, hsub]
  rw [← hdown]
  have hgap : ¬ Gap sp (4 * (k + 4) - 1) := not_gap (by rw [hroom]; omega)
  refine wp_bind.2 (wp_push h1 hs hwords (by simp only [KERNBASE]; omega) (fun hbad => absurd hbad hgap) (fun m2 hin h2 => ?_)
    fun m2 V2 _ hout h2 => ?_)
  · rw [if_pos rfl, hdown]
    rw [hroom] at h2 hin
    refine wp_pure.2 (hyes m2 _ _ (done.map Prod.snd) hclear ⟨?_, by rw [length_map, length_map], ?_, ?_⟩ h2)
    · have hs' := inStack_down (n := 4 * (k + 4) - 1) hs (by rwa [hroom])
      rwa [hroom] at hs'
    · have hargv : uint32 (sp + (2 ^ 32 - (k + 1) * 4)) = sp - 4 * (k + 4) + 12 := by unfold uint32; omega
      have hlist : ustack sp (done.map Prod.snd) = [0xffffffff, k, sp - 4 * (k + 4) + 12] ++ done.map Prod.snd ++ [0] := by
        unfold ustack
        rw [length_map, hk, hargv]
      have hbytes : 4 * (k + 4) = (wordBytes (ustack sp (done.map Prod.snd))).length := by rw [hwords]; omega
      have hfit : sp - 4 * (k + 4) - (g + 1) * 4096 + (wordBytes (ustack sp (done.map Prod.snd))).length ≤ 4096 := by
        rw [← hbytes]
        exact frame_fits hin hs.high
      rw [length_map, hk, ← hlist]
      rw [hbytes] at hfit ⊢
      exact slice_patch_self hfit
    · have hzip : (done.map Prod.fst).zip (done.map Prod.snd) = done := (zip_of_prod rfl rfl).symm
      have hback : sp - 4 * (k + 4) + 4 * ((done.map Prod.fst).length + 4) = sp := by rw [length_map, hk]; omega
      rw [hzip, hback]
      refine pushed_patch hdone ?_
      rw [hwords]
      exact frame_below (by omega) hin
  · rw [if_neg (by decide)]
    refine wp_pure.2 (hno m2 V2 (fun _ => hclear) (fun _ => ?_) h2)
    rw [hroom] at hout
    rw [length_map, hk]
    rw [hpage] at hsum
    generalize (g + 1) * 4096 = z at hout hsum
    omega

/-! ## Following the page tables -/

/-- what `load` leaves: an image of size sz in the directory d, and the kernel's half of `setupkvm` -/
def Loaded (L : Link) (m : Mem) (d sz : ℕ) : Prop :=
  ∃ S F g b, g + 2 < UPAGES ∧ sz = (g + 2) * PGSIZE ∧ Rep L S F m (some d) [] (loadedView g b zeroPage) (kernelMap L)

theorem load_loaded {c elf : List UInt8} (hc : c.length < 2 ^ 32)
    (h : Rep L S F m (some d) [] (fun _ => none) (kernelMap L)) :
    wp E (load L c elf d) (fun r m' => ∀ sz, r = some sz → Loaded L m' d sz) m := by
  refine wp_load hc h (fun m' g _ hg h' sz hsz => ?_) fun m' V' _ _ sz hbad => by cases hbad
  cases hsz
  exact ⟨S, F, g, _, hg, rfl, h'⟩

/-- **exec's argument copy and missing page tables.** For every loaded image and all argument strings that fit into an address
space, fewer than MAXARG: copying them follows no null pointer to a page-table entry if and only if their lengths are clear of
the gap between the kernel's regions. Whatever they are, only pages that are present and user-accessible in the new directory
are written, and there is no other fault. -/
theorem arguments_follow_no_null_iff {argv : List (List UInt8)} (h : Loaded L m d sz) (hargc : argv.length < MAXARG)
    (hlen : ∀ s ∈ argv, s.length < KERNBASE) :
    (pushArgs d argv sz m ≠ .error .nullPte ↔ Clear (sz - PGSIZE) sz (argv.map List.length)) ∧
      (∀ e, pushArgs d argv sz m = .error e → e = .nullPte) ∧
      ∀ r m', pushArgs d argv sz m = .ok (r, m') → ∀ q, m'.page q ≠ m.page q → UserPage m.page d q := by
  obtain ⟨S, F, g, b, hg, rfl, hrep⟩ := h
  have hbase : (g + 2) * PGSIZE - PGSIZE = (g + 1) * 4096 := by rw [Nat.succ_mul (g + 1)]; exact Nat.add_sub_cancel ..
  rw [hbase]
  have hpush : wp (fun e => e = .nullPte ∧ ¬ Clear ((g + 1) * 4096) ((g + 2) * 4096) (argv.map List.length))
      (pushArgs d argv ((g + 2) * 4096)) (fun _ _ => Clear ((g + 1) * 4096) ((g + 2) * 4096) (argv.map List.length)) m := by
    exact wp_pushArgs hrep hg hlen (fun hc => ⟨rfl, hc⟩) (fun _ _ _ _ hc _ _ => hc) fun _ _ hc _ _ => hc (le_of_lt hargc)
  refine ⟨⟨fun hne => ?_, fun hclear herr => (wp_error hpush herr).2 hclear⟩, fun e he => (wp_error hpush he).1, ?_⟩
  · cases hrun : pushArgs d argv ((g + 2) * 4096) m with
    | ok x =>
      obtain ⟨r, m'⟩ := x
      have hclear := wp_ok hpush hrun
      exact hclear
    | error e =>
      obtain ⟨rfl, -⟩ := wp_error hpush hrun
      exact absurd hrun hne
  · intro r m' hrun q hq
    exact (wp_ok (pushArgs_writes hrep) hrun).pages q hq

/-! ## An empty program -/

/-- an ELF header without program headers -/
def emptyElf : List UInt8 := [0x7F, 0x45, 0x4C, 0x46] ++ List.replicate 48 0

theorem emptyImage : ∃ m d, Loaded smallLink m d 8192 := by
  have hset : wp (fun _ => False) (setupkvm smallLink) (fun r m' => ∃ d, r = some d ∧
      Rep smallLink (fun p => p ∈ manyFree.freelist) manyFree.page m' (some d) [] (fun _ => none) (kernelMap smallLink))
      manyFree :=
    wp_setupkvm manyFree_rep (fun d m' h' => ⟨d, rfl, h'⟩) fun _ _ _ hfull => absurd hfull (manyFree_enough (by decide))
  obtain ⟨_, m1, -, d, -, h1⟩ := wp_total hset
  have hphnum : field emptyElf 44 2 = 0 := by decide
  have hload : wp (fun _ => False) (load smallLink emptyElf emptyElf d) (fun _ m' => Loaded smallLink m' d 8192) m1 := by
    refine wp_load (by decide) h1 (fun m' g hg0 hg h' => ?_) fun _ _ hfull _ => ?_
    · obtain rfl := hg0 hphnum
      exact ⟨_, _, 0, _, hg, rfl, h'⟩
    · exact absurd (hfull hphnum) (manyFree_enough (by decide))
  obtain ⟨_, m2, -, h2⟩ := wp_total hload
  exact ⟨m2, d, h2⟩

/-- A short argument. -/
theorem arguments_follow_no_null_iff_short :
    ∃ m d, Loaded smallLink m d 8192 ∧ pushArgs d [[97]] 8192 m ≠ .error .nullPte := by
  obtain ⟨m, d, h⟩ := emptyImage
  exact ⟨m, d, h, (arguments_follow_no_null_iff h (by decide) (by simp)).1.2 ⟨by decide, fun _ => trivial⟩⟩

/-- An argument of 36 MByte takes the stack pointer below zero, to an address where the new directory has no page table. -/
theorem long_argument_follows_null :
    ∃ m d s, Loaded smallLink m d 8192 ∧ s.length = 0x2400000 ∧ pushArgs d [s] 8192 m = .error .nullPte := by
  obtain ⟨m, d, h⟩ := emptyImage
  obtain ⟨s, hs⟩ : ∃ s : List UInt8, s.length = 0x2400000 := ⟨List.replicate _ 97, length_replicate⟩
  refine ⟨m, d, s, h, hs, ?_⟩
  obtain ⟨S, F, g, b, hg, hsz, hrep⟩ := h
  obtain rfl : g = 0 := by
    simp only [PGSIZE] at hsz
    omega
  have hlens : [s].map List.length = [0x2400000] := by rw [map_singleton, hs]
  have hnot : ¬ Clear 4096 8192 [0x2400000] := fun hc => hc.1 (by decide)
  have hpush : wp (fun e => e = Fault.nullPte) (pushArgs d [s] 8192) (fun _ _ => False) m := by
    refine wp_pushArgs hrep hg (fun x hx => ?_) (fun _ => rfl) (fun _ _ _ _ hc => ?_) fun _ _ hc => ?_
    · rw [mem_singleton.1 hx, hs]
      decide
    · rw [hlens] at hc
      exact absurd hc hnot
    · rw [hlens] at hc
      exact absurd (hc (Nat.le_of_ble_eq_true rfl)) hnot
  cases hrun : pushArgs d [s] 8192 m with
  | ok x =>
    obtain ⟨r, m'⟩ := x
    exact absurd (wp_ok hpush hrun) not_false
  | error e => rw [wp_error hpush hrun]

end Xv6.Vm
