/-
copyuvm (vm.c): the address space of a new process is a copy of its parent's.

The child is built from the free pages only: S is the free list, and everything else, the parent included, is the frame.

Results:
- `wp_copyuvm`: the child sees what the parent sees below sz, or nothing has changed;
- `fork_copy_isolated`: **the copy is equal and isolated**.
-/
import Xv6.Vm.Grow

namespace Xv6.Vm

open Bytes Owners Fallible Function

variable {L : Link} {S : ℕ → Prop} {F : Ram} {m m' : Mem} {V : View} {K : ℕ → Option ℕ} {d e n p sz v w : ℕ} {E : Fault → Prop}

/-! ## The parent -/

/-- the directory d and all that it leads to is outside S -/
structure Outside (S : ℕ → Prop) (r : Ram) (d : ℕ) : Prop where
  dir : ¬ S d
  table : ∀ i t, i < 1024 → table r d i = some t → ¬ S t
  user : ∀ v w, v < UPAGES → walk r d v = some w → Present w → ¬ S (pteFrame w)

theorem Outside.walk (h : Outside S F d) (hr : ∀ p, ¬ S p → m.page p = F p) (hv : v < NPAGES) :
    Vm.walk m.page d v = Vm.walk F d v := by
  refine walk_congr (hr d h.dir) fun t ht => hr t (h.table _ t ?_ ht)
  simp only [NPAGES] at hv
  omega

theorem Outside.view (h : Outside S F d) (hr : ∀ p, ¬ S p → m.page p = F p) (hv : v < UPAGES) :
    Vm.view m.page d v = Vm.view F d v :=
  view_congr (h.walk hr (lt_of_lt_of_le hv (by decide))) fun w hw hP => hr _ (h.user v w hv hw hP)

theorem Outside.tableAt (h : Outside S F d) (hr : ∀ p, ¬ S p → m.page p = F p) (i : ℕ) :
    Vm.table m.page d i = Vm.table F d i := table_congr (hr d h.dir)

/-- nothing of a directory is on the free list -/
theorem Sound.outside (h : Sound L m d) : Outside (fun p => p ∈ m.freelist) m.page d := by
  have hne : ∀ a p, m.held (some d) [] a = some p → (∀ q, a ≠ .free q) → p ∉ m.freelist :=
    fun a p ha hf hp => hf p (h.once a (.free p) p ha (held_free hp))
  refine ⟨?_, ?_, ?_⟩
  · exact hne .dir d rfl (by simp)
  · exact fun i t hi ht => hne (.table i) t (held_table hi ht) (by simp)
  · exact fun v w hv hw hP => hne (.user v) (pteFrame w) (held_user hv hw hP) (by simp)

/-! ## The copy -/

/-- the first n pages -/
def below (V : View) (n : ℕ) : View := fun v => if v < n then V v else none

theorem below_succ (h : V v = some x) : update (below V v) v (some x) = below V (v + 1) := by
  funext u
  unfold below
  by_cases hu : u = v
  · rw [hu, update_self, if_pos (Nat.lt_succ_self v), h]
  · rw [update_of_ne hu]
    exact if_congr (by omega) rfl rfl

theorem wp_copyLoop {Q : Bool → Mem → Prop} (n : ℕ) (hp : Outside S F d) (hsz : sz ≤ KERNBASE)
    (hall : ∀ v, v < pages sz → (view F d v).isSome = true) (hv : v ≤ pages sz) (hn : pages sz - v < n)
    (h : Rep L S F m (some e) [] (below (view F d) v) K)
    (hyes : ∀ m', Rep L S F m' (some e) [] (below (view F d) (pages sz)) K → Q true m')
    (hno : ∀ m' V', Full L S F (pages sz) → Rep L S F m' (some e) [] V' K → Q false m') :
    wp E (copyLoop L d e sz n (v * 4096)) Q m := by
  induction n generalizing m v with
  | zero => exact absurd hn (Nat.not_lt_zero _)
  | succ n ih =>
    rw [copyLoop, wp_ite]
    refine ⟨fun hlt => ?_, fun hge => ?_⟩
    swap
    · have hend : v = pages sz := le_antisymm hv (not_lt.1 fun hlt => hge (lt_pages.1 hlt))
      rw [hend] at h
      exact wp_pure.2 (hyes m h)
    have hin : v < pages sz := lt_pages.2 hlt
    have hu : v < 2 ^ 19 := lt_of_lt_of_le hin (pages_le hsz)
    have hva : v * 4096 / 4096 = v := Nat.mul_div_cancel v (by decide)
    -- the parent's entry
    obtain ⟨x, hx⟩ := Option.isSome_iff_exists.1 (hall v hin)
    obtain ⟨w, hw, hP, rfl⟩ := view_some hx
    obtain ⟨t, ht, htw⟩ := table_of_walk hw
    have hpage : m.page t = F t := h.frame t (hp.table _ t (by omega) ht)
    have hword : m.word t (v % 1024) = w := by
      rw [← htw]
      unfold Mem.word wordOf
      rw [hpage]
    refine wp_bind.2 (wp_walk (by omega) ?_)
    rw [hva, hp.tableAt h.frame, ht]
    simp only [Option.map_some, wp_bind, wp_get, wp_ite, wp_throw, hword]
    refine ⟨fun hnot => absurd hP hnot, fun _ => ?_⟩
    have hfull : ∀ {m hand}, Rep L S F m (some e) hand (below (view F d) v) K → hand.length ≤ 1 → m.freelist = [] →
        Full L S F (pages sz) := by
      intro m hand h hhand hm
      exact ⟨m, some e, hand, _, K, h, hm, hhand, fun x hx _ => if_neg (not_lt.2 (le_trans hv hx))⟩
    refine wp_kalloc h (fun hm => wp_pure.2 (hno m _ (hfull h (Nat.zero_le _) hm) h)) fun p m1 h1 hm1 => ?_
    have hcopy : m1.page (pteFrame w) = F (pteFrame w) := h1.frame _ (hp.user v w hu hw hP)
    simp only [wp_bind, wp_modify, hcopy]
    have h2 := rep_fill h1 (F (pteFrame w))
    have hnone : below (view F d) v v = none := if_neg (lt_irrefl v)
    refine wp_mapUser h2 hu hnone (flags_lt w) (fun m3 h3 => ?_) fun hm => ?_
    · rw [if_pos rfl, next_page hu]
      rw [withP_present ((present_flags w).2 hP), below_succ hx] at h3
      exact ih hin (by omega) h3
    · rw [if_neg (by decide)]
      exact wp_bind.2 (wp_kfree h2 fun m4 h4 _ => wp_pure.2 (hno m4 _ (hfull h2 (le_refl _) hm) h4))

/-- copyuvm on the abstract address spaces -/
theorem wp_copyuvm {Q : Option ℕ → Mem → Prop} (hp : Outside S F d) (hsz : sz ≤ KERNBASE)
    (hall : ∀ v, v < pages sz → (view F d v).isSome = true) (h : Rep L S F m none [] V K)
    (hyes : ∀ e m', Rep L S F m' (some e) [] (below (view F d) (pages sz)) (kernelMap L) → Q (some e) m')
    (hno : ∀ m' V' K', Full L S F (pages sz) → Rep L S F m' none [] V' K' → Q none m') : wp E (copyuvm L d sz) Q m := by
  have hpages := pages_le hsz
  unfold copyuvm
  refine wp_bind.2 (wp_setupkvm h (fun e m1 h1 => ?_) fun m1 V1 K1 hfull h1 =>
    wp_pure.2 (hno m1 V1 K1 (hfull.mono (Nat.zero_le _)) h1))
  have hzero : below (view F d) 0 = fun _ => none := funext fun v => if_neg (Nat.not_lt_zero v)
  have h1 : Rep L S F m1 (some e) [] (below (view F d) 0) (kernelMap L) := by rwa [hzero]
  refine wp_bind.2 (wp_copyLoop (v := 0) (NPAGES + 1) hp hsz hall (Nat.zero_le _) ?_ h1 (fun m2 h2 => ?_)
    fun m2 V2 hfull h2 => ?_)
  · simp only [NPAGES, UPAGES] at hpages ⊢
    omega
  · rw [if_pos rfl]
    exact wp_pure.2 (hyes e m2 h2)
  · rw [if_neg (by decide)]
    exact wp_bind.2 (wp_freevm h2 fun m3 V3 K3 h3 => wp_pure.2 (hno m3 V3 K3 hfull h3))

/-- the free list after a copy that failed -/
theorem rep_freelist (h : Rep L S F m none [] V K) (p : ℕ) : p ∈ m.freelist ↔ S p := by
  rw [h.exact.used]
  constructor
  · exact fun hp => ⟨.free p, held_free hp⟩
  · rintro ⟨a, ha⟩
    cases a with
    | free q =>
      simp only [Mem.held] at ha
      split_ifs at ha with hq
      cases ha
      exact hq
    | _ => simp [Mem.held] at ha

/-! ## The child is equal and isolated -/

/-- the free pages by themselves -/
theorem Sound.free (h : Sound L m d) :
    Rep L (fun p => p ∈ m.freelist) m.page m none [] (fun _ => none) (fun _ => none) :=
  rep_free h.nodup fun p hp => h.managed (.free p) p (held_free hp)

/-- the pages of the addresses below sz -/
theorem all_pages (h : ∀ a, a < sz → (view F d (a / PGSIZE)).isSome = true) (v : ℕ) (hv : v < pages sz) :
    (view F d v).isSome = true := by
  have e : v * 4096 / PGSIZE = v := Nat.mul_div_cancel v (by decide)
  have := h (v * 4096) (lt_pages.1 hv)
  rwa [e] at this

/-- with free pages for the directory, all its page tables and the user pages, the copy succeeds -/
theorem copyuvm_enough (hs : Sound L m d) (hsz : sz ≤ KERNBASE) (hall : ∀ v, v < pages sz → (view m.page d v).isSome = true)
    (hfree : pages sz + 1026 < m.freelist.length) : ∃ e m', copyuvm L d sz m = .ok (some e, m') := by
  have hcopy : wp (fun _ => False) (copyuvm L d sz) (fun r _ => r.isSome = true) m :=
    wp_copyuvm hs.outside hsz hall hs.free (fun _ _ _ => rfl)
      fun _ _ _ hfull _ => absurd (full_bound hfull hs.nodup fun p hp => hp) (not_le.2 hfree)
  obtain ⟨r, m', hrun, hr⟩ := wp_total hcopy
  obtain ⟨e, rfl⟩ := Option.isSome_iff_exists.1 hr
  exact ⟨e, m', hrun⟩

/-- what a copy of the memory below sz has to be, for a parent d: it maps every address with the parent's flags to a page with
the parent's contents, its pages were free before and are in one place now, and none of them is a page of the parent -/
structure Isolated (L : Link) (m : Mem) (d sz : ℕ) (e : ℕ) (m' : Mem) : Prop where
  same : ∀ a, a < sz → view m'.page e (a / PGSIZE) = view m.page d (a / PGSIZE)
  sound : Sound L m' e
  fresh : ∀ a p, m'.held (some e) [] a = some p → p ∈ m.freelist
  apart : ∀ u v w x, u < UPAGES → v < UPAGES → walk m'.page e u = some w → Present w → walk m'.page d v = some x → Present x →
    pteFrame w ≠ pteFrame x

/-- **fork's copy of the address space is equal and isolated.** Whatever the free list is, copyuvm returns. It changes no page
that was not free, and so neither the parent's entries nor its contents. If it succeeds, the child's memory is a copy of the
parent's, in pages of its own; if it fails, the free pages are those from before. -/
theorem fork_copy_isolated (hs : Sound L m d) (hsz : sz ≤ KERNBASE)
    (hall : ∀ a, a < sz → (view m.page d (a / PGSIZE)).isSome = true) :
    ∃ r m', copyuvm L d sz m = .ok (r, m') ∧ (∀ p, p ∉ m.freelist → m'.page p = m.page p) ∧
      (∀ v, v < NPAGES → walk m'.page d v = walk m.page d v) ∧ (∀ v, v < UPAGES → view m'.page d v = view m.page d v) ∧
      (∀ e, r = some e → Isolated L m d sz e m') ∧
      (r = none → m'.freelist.Nodup ∧ ∀ p, p ∈ m'.freelist ↔ p ∈ m.freelist) := by
  have hout := hs.outside
  have h0 := hs.free
  have hkeep : ∀ {m' : Mem}, (∀ p, p ∉ m.freelist → m'.page p = m.page p) →
      (∀ v, v < NPAGES → walk m'.page d v = walk m.page d v) ∧ ∀ v, v < UPAGES → view m'.page d v = view m.page d v :=
    fun hf => ⟨fun v hv => hout.walk hf hv, fun v hv => hout.view hf hv⟩
  have hcopy : wp (fun _ => False) (copyuvm L d sz) (fun r m' => (∀ p, p ∉ m.freelist → m'.page p = m.page p) ∧
      (∀ e, r = some e → Isolated L m d sz e m') ∧ (r = none → m'.freelist.Nodup ∧ ∀ p, p ∈ m'.freelist ↔ p ∈ m.freelist)) m := by
    refine wp_copyuvm hout hsz (all_pages hall) h0 (fun e m' h' => ⟨h'.frame, fun e' he => ?_, fun hbad => by cases hbad⟩)
      fun m' V' K' _ h' => ⟨h'.frame, fun e he => (by cases he), fun _ => ⟨h'.nodup, rep_freelist h'⟩⟩
    obtain rfl : e = e' := Option.some.inj he
    refine ⟨fun a ha => ?_, h'.sound, fun a p hp => h'.mem hp, fun u v w x hu hv hw hP hx hPx hwx => ?_⟩
    · have hin : a / PGSIZE < pages sz := by
        simp only [PGSIZE]
        unfold pages
        omega
      rw [h'.view e rfl _ (lt_of_lt_of_le hin (pages_le hsz))]
      exact if_pos hin
    · -- the child's page was free, the parent's was not
      have hfree : pteFrame w ∈ m.freelist := h'.mem (held_user hu hw hP)
      rw [hout.walk h'.frame (lt_of_lt_of_le hv (by decide))] at hx
      rw [hwx] at hfree
      exact hout.user v x hv hx hPx hfree
  obtain ⟨r, m', hrun, hpost⟩ := wp_total hcopy
  exact ⟨r, m', hrun, hpost.1, (hkeep hpost.1).1, (hkeep hpost.1).2, hpost.2.1, hpost.2.2⟩

/-- The process with the guard page and the stack, among free pages: the copy succeeds, and has the same two pages. -/
theorem fork_copy_isolated_twoPages : ∃ e m', copyuvm smallLink 1024 8192 twoPages = .ok (some e, m') ∧
    Isolated smallLink twoPages 1024 8192 e m' ∧ view m'.page e 0 = some (3, zeroPage) ∧
    view m'.page e 1 = some (7, fun _ => 90) ∧ view m'.page 1024 1 = some (7, fun _ => 90) := by
  have hs : Sound smallLink twoPages 1024 := twoPages_rep.sound
  have hin : ∀ a, a < 8192 → a / PGSIZE < pages 8192 := fun a ha => Nat.div_lt_of_lt_mul ha
  have hall : ∀ v, v < pages 8192 → (view twoPages.page 1024 v).isSome = true :=
    fun v hv => (twoPages_exactly v (lt_trans hv (by decide))).2 hv
  have hlen : twoPages.freelist.length = 2996 := List.length_range'
  obtain ⟨e, m', hrun⟩ := copyuvm_enough hs (by decide) hall (by rw [hlen]; decide)
  obtain ⟨r, m1, hrun', -, -, hview, hyes, -⟩ := fork_copy_isolated hs (by decide) fun a ha => hall _ (hin a ha)
  rw [hrun] at hrun'
  cases hrun'
  have hiso := hyes e rfl
  have hpage : ∀ v, v < 2 → view twoPages.page 1024 v = twoPageView v :=
    fun v hv => twoPages_rep.view 1024 rfl v (lt_trans hv (by decide))
  exact ⟨e, m', hrun, hiso, (hiso.same 0 (by decide)).trans (hpage 0 (by decide)),
    (hiso.same 4096 (by decide)).trans (hpage 1 (by decide)), (hview 1 (by decide)).trans (hpage 1 (by decide))⟩

end Xv6.Vm
