/-
The address space as an abstract map, and the functions of vm.c on it.

- `pages sz`: the number of pages for sz bytes.
- `cut V lo hi`, `grow V lo hi`: the view without the pages from lo to hi, and with fresh zero pages there.

Results: what each function does to `Rep`. In every one of them no page of S is lost or held twice, no other page changes, and
there is no panic.
- `wp_kalloc`, `wp_kfree`, `wp_walkAlloc`, `wp_mapUser`;
- `wp_deallocuvm`: **deallocuvm is cut**;
- `wp_allocuvm`: **allocuvm is grow, or nothing at all**, the latter only if there was no free page left at some point (`Full`,
  and `full_bound` for how many pages that takes);
- `wp_freevm`: freevm gives back everything;
- `wp_setupkvm`: an empty user half and `kernelMap`, or nothing at all.
-/
import Xv6.Vm.Own

namespace Xv6.Vm

open Bytes Owners Fallible Function List

variable {L : Link} {S : ℕ → Prop} {F : Ram} {m m' : Mem} {o : Option ℕ} {hand : List (ℕ × Page)} {V V' : View}
  {K K' : ℕ → Option ℕ} {c : Page} {d i n p q t u v w va sz lo hi perm oldsz newsz : ℕ}
  {ps : List ℕ} {E : Fault → Prop}

/-! ## Representations -/

theorem rep_view (h : Rep L S F m o hand V K) (hV : ∀ v, v < UPAGES → V v = V' v) : Rep L S F m o hand V' K :=
  { h with view := fun e he v hv => (h.view e he v hv).trans (hV v hv) }

theorem rep_half (h : Rep L S F m o hand V K) (hK : ∀ v, UPAGES ≤ v → v < NPAGES → K v = K' v) : Rep L S F m o hand V K' :=
  { h with kern := fun e he v hv hvn => (h.kern e he v hv hvn).trans (hK v hv hvn) }

theorem rep_table (h : Rep L S F m (some d) hand V K) (hv : v < UPAGES) (hV : V v = some x) :
    ∃ w t, walk m.page d v = some w ∧ Present w ∧ table m.page d (v / 1024) = some t ∧ wordOf m.page t (v % 1024) = w ∧
      x = (pteFlags w, m.page (pteFrame w)) := by
  obtain ⟨w, hw, hP, hx⟩ := view_some ((h.view d rfl v hv).trans hV)
  obtain ⟨t, ht, htw⟩ := table_of_walk hw
  exact ⟨w, t, hw, hP, ht, htw, hx⟩

/-! ## kalloc and kfree -/

theorem wp_kalloc {Q : Option ℕ → Mem → Prop} (h : Rep L S F m o hand V K) (hnone : m.freelist = [] → Q none m)
    (hsome : ∀ p m', Rep L S F m' o ((p, m.page p) :: hand) V K → m'.page = m.page → Q (some p) m') : wp E kalloc Q m := by
  unfold kalloc
  rw [wp_bind, wp_get]
  cases hm : m.freelist with
  | nil => exact wp_pure.2 (hnone hm)
  | cons p ps =>
    simp only [wp_bind, wp_modify, wp_pure]
    exact hsome p _ (rep_take h hm) rfl

theorem managed_range (h : L.Managed p) : ¬ (p * PGSIZE < L.kend ∨ PHYSTOP ≤ p * PGSIZE) := by
  rintro (hlt | hle)
  · exact absurd h.1 (not_le.2 hlt)
  · exact absurd h.2 (not_lt.2 hle)

variable {Q : Unit → Mem → Prop}

theorem wp_kfree (h : Rep L S F m o ((p, c) :: hand) V K)
    (hQ : ∀ m', Rep L S F m' o hand V K → (∀ q, q ≠ p → m'.page q = m.page q) → Q () m') : wp E (kfree L p) Q m := by
  have hman : L.Managed p := h.managed p (h.mem (held_hand (by simp)))
  simp only [kfree, wp_bind, wp_ite, wp_modify, wp_throw]
  refine ⟨fun hbad => absurd hbad (managed_range hman), fun _ => hQ _ (rep_release h _) fun q hq => ?_⟩
  exact update_of_ne hq _ _

theorem wp_clearPage (h : Rep L S F m o ((p, c) :: hand) V K)
    (hQ : ∀ m', Rep L S F m' o ((p, zeroPage) :: hand) V K → (∀ q, q ≠ p → m'.page q = m.page q) → Q () m') :
    wp E (clearPage p) Q m :=
  wp_modify.2 (hQ _ (rep_fill h zeroPage) fun _ hq => update_of_ne hq _ _)

/-! ## walkpgdir and mappages -/

/-- the kernel's half with a page table for entry i -/
def withTable (K : ℕ → Option ℕ) (i : ℕ) : ℕ → Option ℕ := fun v => if v / 1024 = i then some ((K v).getD 0) else K v

theorem rep_withTable (h : Rep L S F m (some d) hand V K) (ht : table m.page d i = some t) :
    Rep L S F m (some d) hand V (withTable K i) := by
  refine rep_half h fun v hv hvn => ?_
  unfold withTable
  split_ifs with hi
  · have hw := h.kern d rfl v hv hvn
    rw [walk_of_table (hi ▸ ht)] at hw
    rw [← hw, Option.getD_some]
  · rfl

theorem wp_walkAlloc {Q : Option (ℕ × ℕ) → Mem → Prop} (h : Rep L S F m (some d) hand V K) (hva : va < 2 ^ 32)
    (hv : va / 4096 = v) (hnone : m.freelist = [] → Q none m)
    (hsome : ∀ t m', Rep L S F m' (some d) hand V (withTable K (v / 1024)) → table m'.page d (v / 1024) = some t →
      Q (some (t, v % 1024)) m') : wp E (walkpgdir d va true) Q m := by
  subst hv
  have hword : m.word d (PDX va) = wordOf m.page d (va / 4096 / 1024) := by rw [PDX_eq hva]; rfl
  simp only [walkpgdir, wp_bind, wp_get, wp_ite, hword, wp_pure, Bool.true_eq_false, false_implies, true_and, not_false_eq_true,
    forall_const]
  refine ⟨fun hP => ?_, fun hP => ?_⟩
  · have ht : table m.page d (va / 4096 / 1024) = some (pteFrame (wordOf m.page d (va / 4096 / 1024))) := if_pos hP
    exact hsome _ m (rep_withTable h ht) ht
  · have ht : table m.page d (va / 4096 / 1024) = none := if_neg hP
    have hi : va / 4096 / 1024 < 1024 := by omega
    refine wp_kalloc h (fun hm => wp_pure.2 (hnone hm)) fun p m' h' hpage => ?_
    refine wp_bind.2 (wp_clearPage h' fun m'' h'' hkeep => ?_)
    have hdp : d ≠ p := h'.ne (a := .dir) rfl (held_hand (by simp)) (by simp)
    have htab : table m''.page d (va / 4096 / 1024) = none := by
      rw [table_congr (hkeep d hdp), hpage, ht]
    simp only [wp_bind, wp_modify, wp_pure, pde_eq, PDX_eq hva]
    have hp := managed_lt (h''.managed p (h''.mem (held_hand (by simp))))
    refine hsome p _ (rep_half (rep_install h'' hi htab) fun u hu hun => ?_) ?_
    · unfold withTable
      split_ifs with hui
      · have hw := h.kern d rfl u hu hun
        rw [walk, hui, ht, Option.map_none] at hw
        rw [← hw, Option.getD_none]
      · rfl
    · have := table_install (r := m''.page) (d := d) hi hp (va / 4096 / 1024)
      rw [if_pos rfl] at this
      exact this

/-- a page table for the user's half leaves the kernel's half as it is -/
theorem withTable_user (hi : i < 512) (hv : UPAGES ≤ v) : withTable K i v = K v := by
  have hne : v / 1024 ≠ i := by
    simp only [UPAGES] at hv
    omega
  exact if_neg hne

/-- the flags that mappages stores -/
def withP (perm : ℕ) : ℕ := perm + (1 - perm % 2)

theorem withP_present (h : Present perm) : withP perm = perm := by
  unfold withP
  unfold Present at h
  omega

/-- the entry for a page, and what it is made of -/
theorem entry_spec (hp : p < 2 ^ 20) (hf : perm < 4096) :
    p * 4096 + withP perm < 2 ^ 32 ∧ Present (p * 4096 + withP perm) ∧ pteFrame (p * 4096 + withP perm) = p ∧
      pteFlags (p * 4096 + withP perm) = withP perm := by
  simp only [withP, Present, pteFrame, pteFlags, PGSIZE]
  omega

/-- mappages for one user page, which is in hand -/
theorem wp_mapUser {Q : Bool → Mem → Prop} (h : Rep L S F m (some d) ((p, c) :: hand) V K) (hv : v < UPAGES) (hV : V v = none)
    (hf : perm < 4096)
    (hyes : ∀ m', Rep L S F m' (some d) hand (update V v (some (withP perm, c))) K → Q true m')
    (hno : m.freelist = [] → Q false m) :
    wp E (mappages d (v * 4096) PGSIZE (p * PGSIZE) perm) Q m := by
  have hlt : v < 2 ^ 19 := hv
  have hdown : PGROUNDDOWN (v * 4096) = v * 4096 := by simp only [PGROUNDDOWN, PGSIZE]; omega
  have hlast : PGROUNDDOWN (uint32 (v * 4096 + PGSIZE + (2 ^ 32 - 1))) = v * 4096 := by
    unfold uint32 PGROUNDDOWN PGSIZE
    omega
  unfold mappages
  rw [hdown, hlast]
  have hN : NPAGES = 1048575 + 1 := rfl
  rw [hN, mapLoop]
  refine wp_bind.2 (wp_walkAlloc (v := v) h (by omega) (by omega) (fun hm => wp_pure.2 (hno hm)) fun t m' h' ht => ?_)
  have h' : Rep L S F m' (some d) ((p, c) :: hand) V K :=
    rep_half h' fun u hu _ => withTable_user (by omega) hu
  have hword : m'.word t (v % 1024) = wordOf m'.page t (v % 1024) := rfl
  have hempty : ¬ Present (wordOf m'.page t (v % 1024)) :=
    view_none ((h'.view d rfl v hv).trans hV) (walk_of_table ht)
  have hp := managed_lt (h'.managed p (h'.mem (held_hand (by simp))))
  obtain ⟨he, hP, hfr, hfl⟩ := entry_spec hp hf
  simp only [wp_bind, wp_get, wp_ite, wp_throw, wp_modify, wp_pure, hword, pte_eq hf]
  refine ⟨fun hbad => absurd hbad hempty, fun _ => ⟨fun _ => ?_, fun hne => absurd trivial hne⟩⟩
  have h'' := rep_map h' hv hV ht he hP hfr
  rw [hfl] at h''
  exact hyes _ h''

/-! ## Sizes -/

def pages (sz : ℕ) : ℕ := (sz + 4095) / 4096

theorem PGROUNDUP_eq (h : sz ≤ KERNBASE) : PGROUNDUP sz = pages sz * 4096 := by
  simp only [KERNBASE] at h
  unfold PGROUNDUP pages uint32 PGSIZE
  omega

theorem lt_pages : v < pages sz ↔ v * 4096 < sz := by
  unfold pages
  omega

theorem pages_le (h : sz ≤ KERNBASE) : pages sz ≤ UPAGES := by
  simp only [KERNBASE] at h
  unfold pages UPAGES
  omega

/-- the loops go from page to page -/
theorem next_page (h : v < UPAGES) : uint32 (v * 4096 + PGSIZE) = (v + 1) * 4096 := by
  have hlt : v < 2 ^ 19 := h
  unfold uint32 PGSIZE
  omega

def cut (V : View) (lo hi : ℕ) : View := fun v => if lo ≤ v ∧ v < hi then none else V v

def grow (V : View) (lo hi : ℕ) : View := fun v => if lo ≤ v ∧ v < hi then some (7, zeroPage) else V v

theorem cut_empty (h : hi ≤ lo) : cut V lo hi = V := by
  funext v
  exact if_neg fun hv => absurd (lt_of_le_of_lt hv.1 hv.2) (not_lt.2 h)

theorem grow_empty (h : hi ≤ lo) : grow V lo hi = V := by
  funext v
  exact if_neg fun hv => absurd (lt_of_le_of_lt hv.1 hv.2) (not_lt.2 h)

/-- one page, and the others after it -/
theorem cut_cons (h : lo < hi) : cut (update V lo none) (lo + 1) hi = cut V lo hi := by
  funext v
  unfold cut
  by_cases hv : v = lo
  · rw [hv, update_self, ite_self, if_pos ⟨le_refl lo, h⟩]
  · rw [update_of_ne hv]
    exact if_congr (by omega) rfl rfl

theorem cut_skip (h : ∀ v, lo ≤ v → v < n → V v = none) (hn : lo ≤ n) : cut V n hi = cut V lo hi := by
  funext v
  unfold cut
  by_cases hv : lo ≤ v ∧ v < n
  · rw [h v hv.1 hv.2, ite_self, ite_self]
  · exact if_congr (by omega) rfl rfl

theorem cut_grow (h : ∀ v, lo ≤ v → v < hi → V v = none) (hn : n ≤ hi) : cut (grow V lo n) lo hi = V := by
  funext v
  unfold cut grow
  split_ifs with h1 h2
  · exact (h v h1.1 h1.2).symm
  · exact absurd ⟨h2.1, lt_of_lt_of_le h2.2 hn⟩ h1
  · rfl

theorem grow_snoc (h : lo ≤ n) : update (grow V lo n) n (some (7, zeroPage)) = grow V lo (n + 1) := by
  funext v
  unfold grow
  by_cases hv : v = n
  · rw [hv, update_self, if_pos ⟨h, Nat.lt_succ_self n⟩]
  · rw [update_of_ne hv]
    exact if_congr (by omega) rfl rfl

/-! ## deallocuvm -/

theorem setWord_comm (h : t ≠ p) : ((m.setPage p c).setFree ps).setWord t i w = ((m.setWord t i w).setPage p c).setFree ps := by
  simp only [Mem.setWord, Mem.setPage, Mem.setFree, update_of_ne h]
  rw [update_comm h]

/-- deallocuvm frees a user page before it clears the entry -/
theorem wp_unmap (h : Rep L S F m (some d) hand V K) (hv : v < UPAGES)
    (ht : table m.page d (v / 1024) = some t) (hw : walk m.page d v = some w) (hP : Present w)
    (hQ : ∀ m', Rep L S F m' (some d) hand (update V v none) K → Q () m') :
    wp E (kfree L (pteFrame w)) (fun _ m' => Q () (m'.setWord t (v % 1024) 0)) m := by
  have hheld : m.held (some d) (hand.map Prod.fst) (.user v) = some (pteFrame w) := held_user hv hw hP
  have hne : t ≠ pteFrame w := (leaf_apart h (lt_of_lt_of_le hv (by decide)) ht hheld (by simp)).symm
  have hman : L.Managed (pteFrame w) := h.managed _ (h.mem hheld)
  simp only [kfree, wp_bind, wp_ite, wp_modify, wp_throw]
  refine ⟨fun hbad => absurd hbad (managed_range hman), fun _ => ?_⟩
  rw [setWord_comm hne]
  exact hQ _ (rep_release (rep_unmap h hv ht hw hP) _)

/-- the pages from v on, with fuel for all of them -/
theorem wp_deallocLoop (n : ℕ) (h : Rep L S F m (some d) hand V K) (hsz : oldsz ≤ KERNBASE)
    (hn : pages oldsz - v < n) (hQ : ∀ m', Rep L S F m' (some d) hand (cut V v (pages oldsz)) K → Q () m') :
    wp E (deallocLoop L d oldsz n (v * 4096)) Q m := by
  induction n generalizing m V v with
  | zero => exact absurd hn (Nat.not_lt_zero _)
  | succ n ih =>
    rw [deallocLoop, wp_ite]
    refine ⟨fun hlt => ?_, fun hge => ?_⟩
    swap
    · have hover : pages oldsz ≤ v := not_lt.1 fun hv => hge (lt_pages.1 hv)
      rw [cut_empty hover] at hQ
      exact wp_pure.2 (hQ m h)
    have hin : v < pages oldsz := lt_pages.2 hlt
    have hv : v < 2 ^ 19 := lt_of_lt_of_le hin (pages_le hsz)
    have hva : v * 4096 / 4096 = v := Nat.mul_div_cancel v (by decide)
    refine wp_bind.2 (wp_walk (by omega) ?_)
    rw [hva]
    cases ht : table m.page d (v / 1024) with
    | none =>
      -- no page table: none of its pages is present
      have hjump : uint32 (uint32 (PGADDR (PDX (v * 4096) + 1) 0 0 + (2 ^ 32 - PGSIZE)) + PGSIZE) = (v / 1024 + 1) * 1024 * 4096 := by
        rw [PDX_eq (by omega), hva]
        unfold uint32 PGADDR uint32 PGSIZE
        omega
      have hnone : ∀ u, v ≤ u → u < (v / 1024 + 1) * 1024 → V u = none := by
        intro u hu hu'
        have hi : u / 1024 = v / 1024 := by omega
        rw [← h.view d rfl u (by simp only [UPAGES]; omega), view, walk, hi, ht]
        rfl
      simp only [Option.map_none]
      rw [hjump]
      refine ih h (by omega) fun m' h' => hQ m' ?_
      rwa [cut_skip hnone (by omega)] at h'
    | some t =>
      have hwalk := walk_of_table ht
      have hword : m.word t (v % 1024) = wordOf m.page t (v % 1024) := rfl
      simp only [Option.map_some, wp_bind, wp_get, wp_ite, wp_modify, hword]
      refine ⟨fun hP => ⟨fun hzero => ?_, fun _ => ?_⟩, fun hP => ?_⟩
      · exact absurd hzero (managed_ne_zero (h.managed _ (h.mem (held_user hv hwalk hP))))
      · refine wp_unmap (Q := fun _ => wp E (deallocLoop L d oldsz n _) Q) h hv ht hwalk hP fun m' h' => ?_
        rw [next_page hv]
        refine ih h' (by omega) fun m'' h'' => hQ m'' ?_
        rwa [cut_cons hin] at h''
      · rw [next_page hv]
        refine ih h (by omega) fun m' h' => hQ m' ?_
        have hnone : V v = none := by
          rw [← h.view d rfl v hv, view, hwalk, Option.bind_some, entryView, if_neg hP]
        have hone : ∀ u, v ≤ u → u < v + 1 → V u = none := by
          intro u hu hu'
          rw [le_antisymm (Nat.lt_succ_iff.1 hu') hu, hnone]
        rwa [cut_skip hone (Nat.le_succ v)] at h'

/-- **deallocuvm takes the pages from newsz to oldsz away.** -/
theorem wp_deallocuvm {Q : ℕ → Mem → Prop} (h : Rep L S F m (some d) hand V K) (hsz : oldsz ≤ KERNBASE)
    (hQ : ∀ m', Rep L S F m' (some d) hand (cut V (pages newsz) (pages oldsz)) K → Q (min oldsz newsz) m') :
    wp E (deallocuvm L d oldsz newsz) Q m := by
  unfold deallocuvm
  rw [wp_ite]
  refine ⟨fun hle => ?_, fun hlt => ?_⟩
  · have hpages : pages oldsz ≤ pages newsz := by unfold pages; omega
    rw [cut_empty hpages, min_eq_left hle] at hQ
    exact wp_pure.2 (hQ m h)
  · have hnew : newsz ≤ KERNBASE := le_trans (le_of_lt (not_le.1 hlt)) hsz
    rw [PGROUNDUP_eq hnew]
    have hp := pages_le hsz
    refine wp_bind.2 (wp_deallocLoop (NPAGES + 1) h hsz ?_ fun m' h' => wp_pure.2 ?_)
    · simp only [NPAGES, UPAGES] at hp ⊢
      omega
    · rw [min_eq_right (le_of_lt (not_le.1 hlt))] at hQ
      exact hQ m' h'

/-! ## allocuvm -/

/-- at some point there was no free page left: the pages of S were in one directory with user pages below N, or in hand -/
def Full (L : Link) (S : ℕ → Prop) (F : Ram) (N : ℕ) : Prop :=
  ∃ m o hand V K, Rep L S F m o hand V K ∧ m.freelist = [] ∧ hand.length ≤ 1 ∧ ∀ v, N ≤ v → v < UPAGES → V v = none

theorem Full.mono {N N' : ℕ} (h : Full L S F N) (hle : N ≤ N') : Full L S F N' := by
  obtain ⟨m, o, hand, V, K, hrep, hfree, hhand, hV⟩ := h
  exact ⟨m, o, hand, V, K, hrep, hfree, hhand, fun v hv => hV v (le_trans hle hv)⟩

/-- so S has that many pages at most -/
theorem full_bound {N : ℕ} (h : Full L S F N) {ps : List ℕ} (hnd : ps.Nodup) (hps : ∀ p ∈ ps, S p) :
    ps.length ≤ N + 1026 := by
  obtain ⟨m, o, hand, V, K, hrep, hfree, hhand, hV⟩ := h
  have hsub : ps ⊆ ((Place.dir :: (List.range 1024).map Place.table ++ (List.range N).map Place.user) ++
      (hand.map Prod.fst).map Place.hand).filterMap (m.held o (hand.map Prod.fst)) := by
    intro p hp
    obtain ⟨a, ha⟩ := (hrep.exact.used p).1 (hps p hp)
    refine mem_filterMap.2 ⟨a, ?_, ha⟩
    simp only [mem_append, mem_cons, mem_map, mem_range]
    cases a with
    | free q =>
      rw [Mem.held, hfree, if_neg not_mem_nil] at ha
      cases ha
    | hand q =>
      simp only [Mem.held] at ha
      split_ifs at ha with hq
      exact .inr ⟨q, mem_map.1 hq, rfl⟩
    | dir => exact .inl (.inl (.inl rfl))
    | table i =>
      cases o with
      | none => cases ha
      | some e =>
        simp only [Mem.held, Option.bind_some] at ha
        split_ifs at ha with hi
        exact .inl (.inl (.inr ⟨i, hi, rfl⟩))
    | user v =>
      cases o with
      | none => cases ha
      | some e =>
        refine .inl (.inr ⟨v, ?_, rfl⟩)
        by_contra hge
        by_cases hv : v < UPAGES
        · rw [held_user_none ((hrep.view e rfl v hv).trans (hV v (not_lt.1 hge) hv))] at ha
          cases ha
        · simp only [Mem.held, Option.bind_some, if_neg hv] at ha
          cases ha
  have hle := (hnd.subperm hsub).length_le
  refine le_trans hle (le_trans (length_filterMap_le ..) ?_)
  simp only [length_append, length_cons, length_map, length_range]
  omega

theorem wp_allocLoop {Q : ℕ → Mem → Prop} (n : ℕ) (hnew : newsz < KERNBASE)
    (hV : ∀ u, pages oldsz ≤ u → u < UPAGES → V u = none) (hv : pages oldsz ≤ v) (hn : pages newsz - v < n)
    (h : Rep L S F m (some d) [] (grow V (pages oldsz) v) K) (hvn : v ≤ pages newsz)
    (hyes : ∀ m', Rep L S F m' (some d) [] (grow V (pages oldsz) (pages newsz)) K → Q newsz m')
    (hno : ∀ m', Full L S F (pages newsz) → Rep L S F m' (some d) [] V K → Q 0 m') :
    wp E (allocLoop L d oldsz newsz n (v * 4096)) Q m := by
  have hpages := pages_le (le_of_lt hnew)
  -- the way back, from any point of the loop
  have hback : ∀ {m hand} {Q : ℕ → Mem → Prop} (u : ℕ), u ≤ pages newsz → Rep L S F m (some d) hand (grow V (pages oldsz) u) K →
      (∀ r m', Rep L S F m' (some d) hand V K → Q r m') → wp E (deallocuvm L d newsz oldsz) Q m := by
    intro m hand Q u hu h hQ
    refine wp_deallocuvm h (le_of_lt hnew) fun m' h' => hQ _ m' ?_
    rwa [cut_grow (fun x hx hx' => hV x hx (lt_of_lt_of_le hx' hpages)) hu] at h'
  have hfull : ∀ {m hand} (u : ℕ), u ≤ pages newsz → pages oldsz ≤ u → Rep L S F m (some d) hand (grow V (pages oldsz) u) K →
      hand.length ≤ 1 → m.freelist = [] → Full L S F (pages newsz) := by
    intro m hand u hu hold h hhand hm
    refine ⟨m, some d, hand, _, K, h, hm, hhand, fun x hx hx' => ?_⟩
    unfold grow
    rw [if_neg (by omega)]
    exact hV x (le_trans hold (le_trans hu hx)) hx'
  induction n generalizing m v with
  | zero => exact absurd hn (Nat.not_lt_zero _)
  | succ n ih =>
    rw [allocLoop, wp_ite]
    refine ⟨fun hlt => ?_, fun hge => ?_⟩
    swap
    · have hend : v = pages newsz := le_antisymm hvn (not_lt.1 fun hlt => hge (lt_pages.1 hlt))
      rw [hend] at h
      exact wp_pure.2 (hyes m h)
    have hin : v < pages newsz := lt_pages.2 hlt
    have hu : v < UPAGES := lt_of_lt_of_le hin hpages
    have hVv : grow V (pages oldsz) v v = none := by
      unfold grow
      rw [if_neg (by omega), hV v hv hu]
    refine wp_bind.2 (wp_kalloc h (fun hm => ?_) fun p m1 h1 _ => ?_)
    · exact wp_bind.2 (hback v hvn h fun r m' h' => wp_pure.2 (hno m' (hfull v hvn hv h (Nat.zero_le _) hm) h'))
    refine wp_bind.2 (wp_clearPage h1 fun m2 h2 _ => ?_)
    refine wp_bind.2 (wp_mapUser h2 hu hVv (by decide) (fun m3 h3 => ?_) fun hm => ?_)
    · rw [if_pos rfl, next_page hu]
      have hflags : withP (PTE_W ||| PTE_U) = 7 := rfl
      rw [hflags, grow_snoc hv] at h3
      exact ih (by omega) (by omega) h3 hin
    · rw [if_neg (by decide)]
      refine wp_bind.2 (hback v hvn h2 fun r m4 h4 => ?_)
      exact wp_bind.2 (wp_kfree h4 fun m5 h5 _ => wp_pure.2 (hno m5 (hfull v hvn hv h2 (le_refl _) hm) h5))

/-- **allocuvm adds zero pages from oldsz to newsz, or changes nothing.** -/
theorem wp_allocuvm {Q : ℕ → Mem → Prop} (h : Rep L S F m (some d) [] V K) (hold : oldsz ≤ newsz) (hnew : newsz < KERNBASE)
    (hV : ∀ u, pages oldsz ≤ u → u < UPAGES → V u = none)
    (hyes : ∀ m', Rep L S F m' (some d) [] (grow V (pages oldsz) (pages newsz)) K → Q newsz m')
    (hno : ∀ m', Full L S F (pages newsz) → Rep L S F m' (some d) [] V K → Q 0 m') :
    wp E (allocuvm L d oldsz newsz) Q m := by
  unfold allocuvm
  rw [wp_ite, wp_ite]
  refine ⟨fun hbad => absurd hnew (not_lt.2 hbad), fun _ => ⟨fun hbad => absurd hold (not_le.2 hbad), fun _ => ?_⟩⟩
  have hle : pages oldsz ≤ pages newsz := by unfold pages; omega
  have hp := pages_le (le_of_lt hnew)
  rw [PGROUNDUP_eq (le_trans hold (le_of_lt hnew))]
  refine wp_allocLoop (NPAGES + 1) hnew hV (le_refl _) ?_ ?_ hle hyes hno
  · simp only [NPAGES, UPAGES] at hp ⊢
    omega
  · rwa [grow_empty (le_refl _)]

/-! ## freevm -/

/-- the page tables behind the n entries from i on -/
def tablesFrom (r : Ram) (d i n : ℕ) : List ℕ := (List.range' i n).filterMap (table r d)

/-- pages with their contents -/
def withPages (r : Ram) (ps : List ℕ) : List (ℕ × Page) := ps.map fun p => (p, r p)

theorem withPages_fst (r : Ram) (ps : List ℕ) : (withPages r ps).map Prod.fst = ps := by
  simp [withPages, Function.comp_def]

theorem mem_tablesFrom : t ∈ tablesFrom m.page d 0 1024 ↔ ∃ i, i < 1024 ∧ table m.page d i = some t := by
  simp [tablesFrom, mem_filterMap, mem_range']

/-- a directory without user pages, as pages in hand -/
theorem rep_dissolve (h : Rep L S F m (some d) [] V K) (hV : ∀ v, v < UPAGES → V v = none) :
    Rep L S F m none (withPages m.page (d :: tablesFrom m.page d 0 1024)) V K := by
  have hd : m.held (some d) [] .dir = some d := rfl
  have hdt : d ∉ tablesFrom m.page d 0 1024 := by
    intro hin
    obtain ⟨i, hi, ht⟩ := mem_tablesFrom.1 hin
    exact h.ne hd (held_table hi ht) (by simp) rfl
  have hnd : (d :: tablesFrom m.page d 0 1024).Nodup := by
    refine nodup_cons.2 ⟨hdt, pairwise_filterMap.2 ?_⟩
    refine (nodup_range' (s := 0) (n := 1024)).imp_of_mem fun {i j} hi hj hij t ht t' ht' => ?_
    have hlt : ∀ k, k ∈ List.range' 0 1024 → k < 1024 := fun k hk => by simpa using (mem_range'_1.1 hk).2
    exact h.ne (held_table (hlt i hi) ht) (held_table (hlt j hj) ht') (by simpa using hij)
  have hold : ∀ p, p ∈ d :: tablesFrom m.page d 0 1024 → ∃ a, (∀ q, a ≠ .free q) ∧ m.held (some d) [] a = some p := by
    intro p hp
    rcases mem_cons.1 hp with rfl | hp
    · exact ⟨.dir, by simp, hd⟩
    · obtain ⟨i, hi, ht⟩ := mem_tablesFrom.1 hp
      exact ⟨.table i, by simp, held_table hi ht⟩
  have hapart : ∀ p, p ∈ m.freelist → p ∉ d :: tablesFrom m.page d 0 1024 := by
    intro p hf hp
    obtain ⟨a, ha, hap⟩ := hold p hp
    exact h.ne (held_free hf) hap (ha p).symm rfl
  have hplace : ∀ a p, m.held none (d :: tablesFrom m.page d 0 1024) a = some p →
      (a = .free p ∧ p ∈ m.freelist) ∨ (a = .hand p ∧ p ∈ d :: tablesFrom m.page d 0 1024) := by
    intro a p ha
    cases a with
    | free q =>
      left
      simp only [Mem.held] at ha
      split_ifs at ha with hq
      cases ha
      exact ⟨rfl, hq⟩
    | hand q =>
      right
      simp only [Mem.held] at ha
      split_ifs at ha with hq
      cases ha
      exact ⟨rfl, hq⟩
    | dir | table i | user v => cases ha
  refine ⟨h.nodup, by rwa [withPages_fst], ⟨?_, ?_⟩, h.managed, ?_, h.frame, by simp, by simp⟩
  · intro a b p ha hb
    rw [withPages_fst] at ha hb
    rcases hplace a p ha with ⟨rfl, hp⟩ | ⟨rfl, hp⟩ <;> rcases hplace b p hb with ⟨rfl, hq⟩ | ⟨rfl, hq⟩
    · rfl
    · exact absurd hq (hapart p hp)
    · exact absurd hp (hapart p hq)
    · rfl
  · intro p
    rw [withPages_fst, h.exact.used]
    constructor
    · rintro ⟨a, ha⟩
      cases a with
      | free q => exact ⟨.free q, ha⟩
      | hand q => cases ha
      | dir =>
        cases ha
        exact ⟨.hand d, held_hand mem_cons_self⟩
      | table i =>
        simp only [Mem.held, Option.bind_some] at ha
        split_ifs at ha with hi
        exact ⟨.hand p, held_hand (mem_cons_of_mem _ (mem_tablesFrom.2 ⟨i, hi, ha⟩))⟩
      | user v =>
        by_cases hv : v < UPAGES
        · have hnone : m.held (some d) [] (.user v) = none := held_user_none ((h.view d rfl v hv).trans (hV v hv))
          rw [map_nil, hnone] at ha
          cases ha
        · simp only [Mem.held, Option.bind_some, if_neg hv] at ha
          cases ha
    · rintro ⟨a, ha⟩
      rcases hplace a p ha with ⟨-, hp⟩ | ⟨-, hp⟩
      · exact ⟨.free p, held_free hp⟩
      · obtain ⟨a, -, hap⟩ := hold p hp
        exact ⟨a, hap⟩
  · intro x hx
    obtain ⟨p, -, rfl⟩ := mem_map.1 hx
    rfl

theorem rep_none (h : Rep L S F m none hand V K) (V' : View) (K' : ℕ → Option ℕ) : Rep L S F m none hand V' K' :=
  { h with view := by simp, kern := by simp }

theorem wp_freeTables {r : Ram} (n i : ℕ)
    (h : Rep L S F m none (withPages r (d :: tablesFrom r d i n)) V K)
    (hQ : ∀ m', Rep L S F m' none (withPages r [d]) V K → Q () m') : wp E (freeTables L d n i) Q m := by
  induction n generalizing m i with
  | zero => exact wp_pure.2 (hQ m h)
  | succ n ih =>
    have hdir : m.page d = r d := h.content (d, r d) mem_cons_self
    have hword : m.word d i = wordOf r d i := by
      unfold Mem.word wordOf
      rw [hdir]
    have hcons : tablesFrom r d i (n + 1) = (table r d i).toList ++ tablesFrom r d (i + 1) n := by
      unfold tablesFrom
      rw [List.range'_succ, filterMap_cons]
      cases table r d i <;> rfl
    simp only [freeTables, wp_bind, wp_get, wp_ite, hword]
    refine ⟨fun hP => ?_, fun hP => ?_⟩
    · have ht : table r d i = some (pteFrame (wordOf r d i)) := if_pos hP
      rw [hcons, ht] at h
      exact wp_kfree (rep_perm h (List.Perm.swap ..)) fun m' h' _ => ih (i + 1) h'
    · have ht : table r d i = none := if_neg hP
      rw [hcons, ht] at h
      exact ih (i + 1) h

/-- **freevm gives back all that the directory leads to.** -/
theorem wp_freevm (h : Rep L S F m (some d) [] V K)
    (hQ : ∀ m' V' K', Rep L S F m' none [] V' K' → Q () m') : wp E (freevm L (some d)) Q m := by
  unfold freevm
  refine wp_bind.2 (wp_deallocuvm h (le_refl _) fun m1 h1 => ?_)
  have hnone : ∀ v, v < UPAGES → cut V (pages 0) (pages KERNBASE) v = none := fun v hv => if_pos ⟨Nat.zero_le v, hv⟩
  refine wp_bind.2 (wp_freeTables NPDENTRIES 0 (rep_dissolve h1 hnone) fun m2 h2 => ?_)
  exact wp_kfree h2 fun m3 h3 _ => hQ m3 _ _ h3

/-! ## setupkvm -/

/-- a zero page in hand becomes a directory -/
theorem rep_adopt (h : Rep L S F m none ((p, zeroPage) :: hand) V K) :
    Rep L S F m (some p) hand (fun _ => none) (fun _ => none) := by
  have hp : m.held none (((p, zeroPage) :: hand).map Prod.fst) (.hand p) = some p := held_hand (by simp)
  have hz : m.page p = zeroPage := h.content (p, zeroPage) mem_cons_self
  have htab : ∀ i, table m.page p i = none := by
    intro i
    rw [table, wordOf_zero hz, if_neg (by decide)]
  have hwalk : ∀ v, walk m.page p v = none := by
    intro v
    rw [walk, htab, Option.map_none]
  have hnd := h.handNodup
  rw [map_cons, nodup_cons] at hnd
  have hheld : m.held (some p) (hand.map Prod.fst) =
      update (update (m.held none (((p, zeroPage) :: hand).map Prod.fst)) (.hand p) none) .dir (some p) := by
    funext a
    cases a with
    | free q => rw [update_of_ne (by simp), update_of_ne (by simp)]; rfl
    | hand q =>
      rw [update_of_ne (by simp)]
      by_cases hq : q = p
      · rw [hq, update_self]
        exact if_neg hnd.1
      · rw [update_of_ne (by simpa using hq)]
        exact if_congr (by simp [hq]) rfl rfl
    | dir => rw [update_self]; rfl
    | table i =>
      rw [update_of_ne (by simp), update_of_ne (by simp)]
      simp only [Mem.held, Option.bind_some, htab, ite_self, Option.bind_none]
    | user v =>
      rw [update_of_ne (by simp), update_of_ne (by simp)]
      simp only [Mem.held, Option.bind_some, hwalk, Option.bind_none, ite_self]
  refine ⟨h.nodup, hnd.2, ?_, h.managed, fun x hx => h.content x (mem_cons_of_mem _ hx), h.frame, ?_, ?_⟩
  · rw [hheld]
    exact exact_move h.exact hp rfl
  · intro e he v _
    rw [← Option.some.inj he, Vm.view, hwalk, Option.bind_none]
  · intro e he v _ _
    rw [← Option.some.inj he, hwalk]

/-- the kernel's half with an entry for page v -/
def withEntry (K : ℕ → Option ℕ) (v w : ℕ) : ℕ → Option ℕ := update (withTable K (v / 1024)) v (some w)

/-- mappages in the kernel's half: the pages v .. v + k, and the physical pages from p on. A is the half after each page. -/
theorem wp_mapKern {Q : Bool → Mem → Prop} {A : ℕ → ℕ → Option ℕ} (n k : ℕ) (hf : perm < 4096)
    (hstep : ∀ j, j ≤ k → ∀ u, UPAGES ≤ u → u < NPAGES → withEntry (A j) (v + j) ((p + j) * 4096 + withP perm) u = A (j + 1) u)
    (hempty : ∀ j, j ≤ k → ∀ w, A j (v + j) = some w → ¬ Present w)
    (hv : UPAGES ≤ v) (hvk : v + k < NPAGES) (hpk : p + k < 2 ^ 20) (hn : k < n)
    (h : Rep L S F m (some d) hand V (A 0))
    (hyes : ∀ m', Rep L S F m' (some d) hand V (A (k + 1)) → Q true m')
    (hno : ∀ m' K', m'.freelist = [] → Rep L S F m' (some d) hand V K' → Q false m') :
    wp E (mapLoop d ((v + k) * 4096) perm n (v * 4096) (p * 4096)) Q m := by
  have hlt : v + k < 2 ^ 20 := hvk
  induction n generalizing m v p k A with
  | zero => exact absurd hn (Nat.not_lt_zero _)
  | succ n ih =>
    rw [mapLoop]
    refine wp_bind.2 (wp_walkAlloc (v := v) h (by omega) (by omega) (fun hm => wp_pure.2 (hno m _ hm h)) fun t m' h' ht => ?_)
    have hvn : v < NPAGES := lt_of_le_of_lt (Nat.le_add_right v k) hvk
    have hword : m'.word t (v % 1024) = wordOf m'.page t (v % 1024) := rfl
    have hfree : ¬ Present (wordOf m'.page t (v % 1024)) := by
      have hw := h'.kern d rfl v hv hvn
      rw [walk_of_table ht, withTable, if_pos rfl, Option.some.injEq] at hw
      rw [hw]
      cases hA : A 0 v with
      | none => exact (by decide : ¬ Present 0)
      | some w => exact hempty 0 (Nat.zero_le k) w hA
    obtain ⟨he, -, -, -⟩ := entry_spec (by omega : p < 2 ^ 20) hf
    simp only [wp_bind, wp_get, wp_ite, wp_throw, wp_modify, wp_pure, hword, pte_eq hf]
    refine ⟨fun hbad => absurd hbad hfree, fun _ => ?_⟩
    have h1 : Rep L S F (m'.setWord t (v % 1024) (p * 4096 + withP perm)) (some d) hand V (A 1) :=
      rep_half (rep_kern h' hv hvn ht he) fun u hu hun => hstep 0 (Nat.zero_le k) u hu hun
    refine ⟨fun hlast => ?_, fun hmore => ?_⟩
    · have hk : k = 0 := by omega
      rw [hk] at hyes
      exact hyes _ h1
    · -- the remaining pages, with the halves that come after the first
      obtain ⟨k', rfl⟩ : ∃ k', k = k' + 1 := Nat.exists_eq_succ_of_ne_zero fun e => hmore (by rw [e, Nat.add_zero])
      have hnv : uint32 (v * 4096 + PGSIZE) = (v + 1) * 4096 := by unfold uint32 PGSIZE; omega
      have hnp : uint32 (p * PGSIZE + PGSIZE) = (p + 1) * 4096 := by unfold uint32 PGSIZE; omega
      have hend : v + (k' + 1) = v + 1 + k' := by omega
      have hv1 : ∀ j, v + (j + 1) = v + 1 + j := fun j => by omega
      have hp1 : ∀ j, p + (j + 1) = p + 1 + j := fun j => by omega
      rw [hnv, hnp, hend]
      refine ih (A := fun j => A (j + 1)) k' (fun j hj u hu hun => ?_) (fun j hj w hw => ?_) (le_trans hv (Nat.le_succ v)) ?_ ?_
        ?_ h1 hyes ?_
      · have e := hstep (j + 1) (Nat.succ_le_succ hj) u hu hun
        rwa [hv1, hp1] at e
      · exact hempty (j + 1) (Nat.succ_le_succ hj) w (by rwa [hv1])
      · rwa [← hend]
      · omega
      · omega
      · omega

/-- the kernel's entry for page v -/
def kernelEntry (L : Link) (v : ℕ) : ℕ :=
  if DEVSPACE / PGSIZE ≤ v then v * 4096 + withP PTE_W
  else (v - UPAGES) * 4096 +
    withP (if EXTMEM / PGSIZE ≤ v - UPAGES ∧ v - UPAGES < L.data / PGSIZE then 0 else PTE_W)

/-- the kernel's half of every directory: physical memory from KERNBASE on, the devices, and nothing between them -/
def kernelMap (L : Link) (v : ℕ) : Option ℕ :=
  if v < (KERNBASE + PHYSTOP) / PGSIZE ∨ DEVSPACE / PGSIZE ≤ v then some (kernelEntry L v) else none

/-- the kernel's half while setupkvm fills it: below b, and from DEVSPACE up to c -/
def kernelUpTo (L : Link) (b c v : ℕ) : Option ℕ :=
  if v < b ∨ (DEVSPACE / PGSIZE ≤ v ∧ v < c) then some (kernelEntry L v)
  else if v / 1024 < (b + 1023) / 1024 ∨ (DEVSPACE / PGSIZE / 1024 ≤ v / 1024 ∧ v / 1024 < (c + 1023) / 1024) then some 0
  else none

theorem kernelUpTo_low {b c : ℕ} (hb : b < 0x8E000) (u : ℕ) :
    withEntry (kernelUpTo L b c) b (kernelEntry L b) u = kernelUpTo L (b + 1) c u := by
  simp only [withEntry, withTable, kernelUpTo, DEVSPACE, PGSIZE, update_apply]
  by_cases hub : u = b
  · rw [if_pos hub, if_pos (by omega), hub]
  · rw [if_neg hub]
    split_ifs <;> first | rfl | omega

theorem kernelUpTo_dev {b c : ℕ} (hb : b ≤ 0x8E000) (hc : 0xFE000 ≤ c) (hu : UPAGES ≤ u) :
    withEntry (kernelUpTo L b c) c (kernelEntry L c) u = kernelUpTo L b (c + 1) u := by
  simp only [withEntry, withTable, kernelUpTo, DEVSPACE, PGSIZE, update_apply]
  by_cases hub : u = c
  · rw [if_pos hub, if_pos (by omega), hub]
  · rw [if_neg hub]
    split_ifs <;> first | rfl | omega

theorem kernelUpTo_start (hu : UPAGES ≤ u) (hun : u < NPAGES) : kernelUpTo L UPAGES 0xFE000 u = none := by
  simp only [kernelUpTo, DEVSPACE, PGSIZE, UPAGES, NPAGES] at hu hun ⊢
  rw [if_neg (by omega), if_neg (by omega)]

theorem kernelUpTo_end (hun : u < NPAGES) : kernelUpTo L 0x8E000 0x100000 u = kernelMap L u := by
  simp only [kernelUpTo, kernelMap, DEVSPACE, PGSIZE, KERNBASE, PHYSTOP, NPAGES] at hun ⊢
  split_ifs <;> first | rfl | omega

/-- the next page is not present -/
theorem kernelUpTo_next {b c : ℕ} (hb : b < 0xFE000) (h : kernelUpTo L b c b = some w) : ¬ Present w := by
  simp only [kernelUpTo, DEVSPACE, PGSIZE] at h
  rw [if_neg (by omega)] at h
  split_ifs at h
  cases h
  decide

theorem kernelUpTo_nextDev {b c : ℕ} (hb : b ≤ 0xFE000) (hc : 0xFE000 ≤ c) (h : kernelUpTo L b c c = some w) : ¬ Present w := by
  simp only [kernelUpTo, DEVSPACE, PGSIZE] at h
  rw [if_neg (by omega)] at h
  split_ifs at h
  cases h
  decide

/-- mappages covers whole pages -/
theorem mappages_eq {k : ℕ} (h : v + k < NPAGES) :
    mappages d (v * 4096) ((k + 1) * 4096) (p * 4096) perm = mapLoop d ((v + k) * 4096) perm NPAGES (v * 4096) (p * 4096) := by
  have hlt : v + k < 2 ^ 20 := h
  have hdown : PGROUNDDOWN (v * 4096) = v * 4096 := by simp only [PGROUNDDOWN, PGSIZE]; omega
  have hlast : PGROUNDDOWN (uint32 (v * 4096 + (k + 1) * 4096 + (2 ^ 32 - 1))) = (v + k) * 4096 := by
    unfold uint32 PGROUNDDOWN PGSIZE
    omega
  unfold mappages
  rw [hdown, hlast]

/-- a region of kmap below KERNBASE + PHYSTOP -/
theorem wp_mapLow {Q : Bool → Mem → Prop} (k : ℕ) (hf : perm < 4096) (hv : UPAGES ≤ v) (hk : v + k < 0x8E000)
    (hentry : ∀ u, v ≤ u → u ≤ v + k → kernelEntry L u = (u - UPAGES) * 4096 + withP perm)
    (h : Rep L S F m (some d) hand V (kernelUpTo L v 0xFE000))
    (hyes : ∀ m', Rep L S F m' (some d) hand V (kernelUpTo L (v + k + 1) 0xFE000) → Q true m')
    (hno : ∀ m' K', m'.freelist = [] → Rep L S F m' (some d) hand V K' → Q false m') :
    wp E (mappages d (v * 4096) ((k + 1) * 4096) ((v - UPAGES) * 4096) perm) Q m := by
  have hvk : v + k < NPAGES := by unfold NPAGES; omega
  have hv' : 2 ^ 19 ≤ v := hv
  rw [mappages_eq hvk]
  refine wp_mapKern (A := fun j => kernelUpTo L (v + j) 0xFE000) NPAGES k hf (fun j hj u _ _ => ?_) (fun j hj w hw => ?_) hv hvk ?_
    ?_ h hyes hno
  · have e := hentry (v + j) (Nat.le_add_right v j) (Nat.add_le_add_left hj v)
    have hpj : v + j - UPAGES = v - UPAGES + j := by simp only [UPAGES]; omega
    rw [hpj] at e
    rw [← e]
    exact kernelUpTo_low (by omega) u
  · exact kernelUpTo_next (by omega) hw
  · simp only [UPAGES]
    omega
  · unfold NPAGES
    omega

/-- the devices -/
theorem wp_mapDev {Q : Bool → Mem → Prop} (h : Rep L S F m (some d) hand V (kernelUpTo L 0x8E000 0xFE000))
    (hyes : ∀ m', Rep L S F m' (some d) hand V (kernelMap L) → Q true m')
    (hno : ∀ m' K', m'.freelist = [] → Rep L S F m' (some d) hand V K' → Q false m') :
    wp E (mappages d (0xFE000 * 4096) ((0x1FFF + 1) * 4096) (0xFE000 * 4096) PTE_W) Q m := by
  rw [mappages_eq (by unfold NPAGES; omega)]
  refine wp_mapKern (A := fun j => kernelUpTo L 0x8E000 (0xFE000 + j)) NPAGES 0x1FFF (by decide) (fun j hj u hu _ => ?_)
    (fun j hj w hw => ?_) (by decide) (by decide) (by decide) (by decide) h (fun m' h' => hyes m' ?_) hno
  · have e : kernelEntry L (0xFE000 + j) = (0xFE000 + j) * 4096 + withP PTE_W :=
      if_pos (by simp only [DEVSPACE, PGSIZE]; omega)
    rw [← e]
    exact kernelUpTo_dev (le_refl _) (by omega) hu
  · exact kernelUpTo_nextDev (by omega) (by omega) hw
  · exact rep_half h' fun u _ hun => kernelUpTo_end hun

theorem kernelEntry_io (hu : u < UPAGES + 256) : kernelEntry L u = (u - UPAGES) * 4096 + withP PTE_W := by
  simp only [kernelEntry, DEVSPACE, PGSIZE, EXTMEM, UPAGES] at hu ⊢
  rw [if_neg (by omega), if_neg (by omega)]

theorem kernelEntry_text (hu : UPAGES + 256 ≤ u) (hn : u < UPAGES + L.data / 4096) :
    kernelEntry L u = (u - UPAGES) * 4096 + withP 0 := by
  have hsmall := le_trans L.order L.small
  simp only [kernelEntry, DEVSPACE, PGSIZE, EXTMEM, UPAGES] at hu hn ⊢
  rw [if_neg (by omega), if_pos (by omega)]

theorem kernelEntry_data (hn : UPAGES + L.data / 4096 ≤ u) (hu : u < 0x8E000) :
    kernelEntry L u = (u - UPAGES) * 4096 + withP PTE_W := by
  simp only [kernelEntry, DEVSPACE, PGSIZE, EXTMEM, UPAGES] at hn ⊢
  rw [if_neg (by omega), if_neg (by omega)]

/-- setupkvm's loop over kmap -/
theorem wp_mapKernel {Q : Bool → Mem → Prop} (h : Rep L S F m (some d) hand V (kernelUpTo L UPAGES 0xFE000))
    (hyes : ∀ m', Rep L S F m' (some d) hand V (kernelMap L) → Q true m')
    (hno : ∀ m' K', m'.freelist = [] → Rep L S F m' (some d) hand V K' → Q false m') : wp E (mapKernel d (kmap L)) Q m := by
  have htext := L.text
  have hdata := L.aligned
  have hsmall := le_trans L.order L.small
  simp only [EXTMEM, PGSIZE] at htext hdata
  obtain ⟨n, hn⟩ : ∃ n, L.data / 4096 = n := ⟨_, rfl⟩
  have hdn : L.data = n * 4096 := by omega
  have hbad : ∀ {m' K'} {ks : List Kmap}, m'.freelist = [] → Rep L S F m' (some d) hand V K' →
      wp E (if false = true then mapKernel d ks else pure false) Q m' := by
    intro m' K' ks hm h'
    rw [if_neg (by decide)]
    exact wp_pure.2 (hno m' K' hm h')
  -- the four regions, in pages
  have e1 : mappages d KERNBASE (uint32 (EXTMEM + (2 ^ 32 - 0))) 0 PTE_W =
      mappages d (UPAGES * 4096) ((255 + 1) * 4096) ((UPAGES - UPAGES) * 4096) PTE_W := by
    have hs : uint32 (EXTMEM + (2 ^ 32 - 0)) = (255 + 1) * 4096 := by unfold uint32 EXTMEM; omega
    rw [hs]
    rfl
  have e2 : mappages d KERNLINK (uint32 (L.data + (2 ^ 32 - EXTMEM))) EXTMEM 0 =
      mappages d ((UPAGES + 256) * 4096) ((n - 257 + 1) * 4096) ((UPAGES + 256 - UPAGES) * 4096) 0 := by
    have hs : uint32 (L.data + (2 ^ 32 - EXTMEM)) = (n - 257 + 1) * 4096 := by unfold uint32 EXTMEM; omega
    rw [hs]
    rfl
  have e3 : mappages d (KERNBASE + L.data) (uint32 (PHYSTOP + (2 ^ 32 - L.data))) L.data PTE_W =
      mappages d ((UPAGES + n) * 4096) ((0xE000 - n - 1 + 1) * 4096) ((UPAGES + n - UPAGES) * 4096) PTE_W := by
    have hs : uint32 (PHYSTOP + (2 ^ 32 - L.data)) = (0xE000 - n - 1 + 1) * 4096 := by unfold uint32 PHYSTOP; omega
    have hv : KERNBASE + L.data = (UPAGES + n) * 4096 := by simp only [KERNBASE, UPAGES]; omega
    have hp : (UPAGES + n - UPAGES) * 4096 = L.data := by rw [Nat.add_sub_cancel_left, hdn]
    rw [hs, hv, hp]
  have e4 : mappages d DEVSPACE (uint32 (0 + (2 ^ 32 - DEVSPACE))) DEVSPACE PTE_W =
      mappages d (0xFE000 * 4096) ((0x1FFF + 1) * 4096) (0xFE000 * 4096) PTE_W := by
    have hs : uint32 (0 + (2 ^ 32 - DEVSPACE)) = (0x1FFF + 1) * 4096 := by unfold uint32 DEVSPACE; omega
    rw [hs]
  unfold kmap
  rw [mapKernel, e1]
  refine wp_bind.2 (wp_mapLow 255 (by decide) (le_refl _) (by decide) (fun u _ hu => kernelEntry_io ?_) h (fun m1 h1 => ?_)
    fun m' K' hm h' => hbad hm h')
  · exact Nat.lt_succ_of_le hu
  rw [if_pos rfl, mapKernel, e2]
  refine wp_bind.2 (wp_mapLow (n - 257) (by decide) (Nat.le_add_right ..) ?_ (fun u hu hu' => kernelEntry_text hu ?_) h1
    (fun m2 h2 => ?_) fun m' K' hm h' => hbad hm h')
  · simp only [UPAGES]
    omega
  · omega
  have h2 : Rep L S F m2 (some d) hand V (kernelUpTo L (UPAGES + n) 0xFE000) := by
    have hb : UPAGES + 256 + (n - 257) + 1 = UPAGES + n := by omega
    rwa [hb] at h2
  rw [if_pos rfl, mapKernel, e3]
  refine wp_bind.2 (wp_mapLow (0xE000 - n - 1) (by decide) (Nat.le_add_right ..) ?_ (fun u hu hu' => kernelEntry_data ?_ ?_) h2
    (fun m3 h3 => ?_) fun m' K' hm h' => hbad hm h')
  · simp only [UPAGES]
    omega
  · rwa [hn]
  · simp only [UPAGES] at hu'
    omega
  have h3 : Rep L S F m3 (some d) hand V (kernelUpTo L 0x8E000 0xFE000) := by
    have hb : UPAGES + n + (0xE000 - n - 1) + 1 = 0x8E000 := by simp only [UPAGES]; omega
    rwa [hb] at h3
  rw [if_pos rfl, mapKernel, e4]
  refine wp_bind.2 (wp_mapDev h3 (fun m4 h4 => ?_) fun m' K' hm h' => hbad hm h')
  rw [if_pos rfl, mapKernel]
  exact wp_pure.2 (hyes m4 h4)

/-- **setupkvm maps the kernel, or changes nothing.** -/
theorem wp_setupkvm {Q : Option ℕ → Mem → Prop} (h : Rep L S F m none [] V K)
    (hyes : ∀ d m', Rep L S F m' (some d) [] (fun _ => none) (kernelMap L) → Q (some d) m')
    (hno : ∀ m' V' K', Full L S F 0 → Rep L S F m' none [] V' K' → Q none m') : wp E (setupkvm L) Q m := by
  have h0 := rep_none h (fun _ => none) K
  unfold setupkvm
  refine wp_bind.2 (wp_kalloc h (fun hm => wp_pure.2 (hno m V K ?_ h)) fun d m1 h1 _ => ?_)
  · exact ⟨m, none, [], _, K, h0, hm, Nat.zero_le _, fun _ _ _ => rfl⟩
  refine wp_bind.2 (wp_clearPage h1 fun m2 h2 _ => ?_)
  rw [wp_ite]
  refine ⟨fun hbad => absurd hbad (by decide), fun _ => ?_⟩
  have h3 : Rep L S F m2 (some d) [] (fun _ => none) (kernelUpTo L UPAGES 0xFE000) :=
    rep_half (rep_adopt h2) fun u hu hun => (kernelUpTo_start hu hun).symm
  refine wp_bind.2 (wp_mapKernel h3 (fun m4 h4 => ?_) fun m4 K4 hm h4 => ?_)
  · rw [if_pos rfl]
    exact wp_pure.2 (hyes d m4 h4)
  · rw [if_neg (by decide)]
    have hfull : Full L S F 0 := ⟨m4, some d, [], _, K4, h4, hm, Nat.zero_le _, fun _ _ _ => rfl⟩
    exact wp_bind.2 (wp_freevm h4 fun m5 V5 K5 h5 => wp_pure.2 (hno m5 V5 K5 hfull h5))

end Xv6.Vm
