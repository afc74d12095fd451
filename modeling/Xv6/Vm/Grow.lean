/-
growproc (proc.c): a process changes the size of its memory.

- `Uproc`: what proc.c and exec.c keep for a process and its user memory.
- `Sound L m d`: the pages that the directory d leads to and those on the free list are different pages, all of them kfree's.
- `GrowExact`: what growproc should do: the new size is the sum, or nothing changes.

Results:
- `growproc_grows`, `growproc_shrinks`: the two directions on the abstract address space;
- `growproc_exact_iff`: **growproc does that, unless a process with memory asks to give back all of it or more**;
- `growproc_all_or_more`: what happens then.
-/
import Xv6.Vm.Space

namespace Xv6.Vm

open Bytes Owners Fallible Function List

variable {L : Link} {S : ℕ → Prop} {F : Ram} {m m' : Mem} {V : View} {K : ℕ → Option ℕ} {d v : ℕ} {n : Int}

/-! ## Processes -/

structure Uproc where
  pgdir : ℕ
  sz : ℕ
  pid : Int
  eip : ℕ
  esp : ℕ
  name : List UInt8
  schedClass : Int
  schedLevel : Int
deriving DecidableEq, Repr

/-- `sz + n` for an unsigned sz and an int n -/
def addInt (sz : ℕ) (n : Int) : ℕ := ((sz + n) % 2 ^ 32).toNat

/-- growproc: true for 0, false for -1. switchuvm, at its end, loads the page directory into the CPU. -/
def growproc (L : Link) (p : Uproc) (n : Int) : M (Bool × Uproc) := do
  if 0 < n then
    let sz ← allocuvm L p.pgdir p.sz (addInt p.sz n)
    if sz = 0 then return (false, p) else return (true, { p with sz := sz })
  else if n < 0 then
    let sz ← deallocuvm L p.pgdir p.sz (addInt p.sz n)
    if sz = 0 then return (false, p) else return (true, { p with sz := sz })
  else return (true, p)

/-! ## Page directories -/

structure Sound (L : Link) (m : Mem) (d : ℕ) : Prop where
  nodup : m.freelist.Nodup
  once : ∀ a b p, m.held (some d) [] a = some p → m.held (some d) [] b = some p → a = b
  managed : ∀ a p, m.held (some d) [] a = some p → L.Managed p

/-- the pages that the directory leads to, and the free ones -/
def Mem.holds (m : Mem) (d : ℕ) (p : ℕ) : Prop := ∃ a, m.held (some d) [] a = some p

theorem Sound.rep (h : Sound L m d) : Rep L (m.holds d) m.page m (some d) [] (view m.page d) (walk m.page d) where
  nodup := h.nodup
  handNodup := nodup_nil
  exact := ⟨h.once, fun _ => Iff.rfl⟩
  managed := fun p hp => by
    obtain ⟨a, ha⟩ := hp
    exact h.managed a p ha
  content := fun x hx => absurd hx not_mem_nil
  frame := fun _ _ => rfl
  view := fun e he v _ => by rw [Option.some.inj he]
  kern := fun e he v _ _ => by rw [Option.some.inj he]

theorem Rep.sound {hand : List (ℕ × Page)} (h : Rep L S F m (some d) hand V K) : Sound L m d := by
  have hheld : ∀ a p, m.held (some d) [] a = some p → m.held (some d) (hand.map Prod.fst) a = some p := by
    intro a p ha
    cases a with
    | hand q => cases ha
    | _ => exact ha
  exact ⟨h.nodup, fun a b p ha hb => h.exact.inj a b p (hheld a p ha) (hheld b p hb),
    fun a p ha => h.managed p (h.mem (hheld a p ha))⟩

/-- the present user pages are exactly those below PGROUNDUP(sz) -/
def Exactly (V : View) (sz : ℕ) : Prop := ∀ v, v < UPAGES → ((V v).isSome ↔ v < pages sz)

/-! ## The property -/

/-- the memory of a process that has gone from size sz to size new -/
def resized (V : View) (sz new : ℕ) : View :=
  fun v => if v < pages new then (if v < pages sz then V v else some (7, zeroPage)) else none

structure GrowExact (p : Uproc) (n : Int) (m : Mem) (ok : Bool) (p' : Uproc) (m' : Mem) : Prop where
  done : ok = true → (p'.sz : Int) = p.sz + n ∧ p'.sz < KERNBASE ∧ p' = { p with sz := p'.sz } ∧
    ∀ v, v < UPAGES → view m'.page p.pgdir v = resized (view m.page p.pgdir) p.sz p'.sz v
  failed : ok = false → p' = p ∧ ∀ v, v < UPAGES → view m'.page p.pgdir v = view m.page p.pgdir v

/-- growproc returns, with what it should do -/
def Grows (L : Link) (p : Uproc) (n : Int) (m : Mem) : Prop :=
  ∃ ok p' m', growproc L p n m = .ok ((ok, p'), m') ∧ GrowExact p n m ok p' m'

variable {p : Uproc} {Q : Bool × Uproc → Mem → Prop} {E : Fault → Prop}

theorem addInt_eq {sz : ℕ} (h : 0 ≤ (sz : Int) + n) (h' : (sz : Int) + n < 2 ^ 32) : (addInt sz n : Int) = sz + n := by
  unfold addInt
  rw [Int.emod_eq_of_lt h h']
  exact Int.toNat_of_nonneg h

theorem addInt_wrap {sz : ℕ} (h : (sz : Int) + n < 0) (h' : -2 ^ 31 ≤ n) : 2 ^ 31 ≤ addInt sz n := by
  unfold addInt
  omega

theorem resized_self (h : Exactly V p.sz) (hv : v < UPAGES) : resized V p.sz p.sz v = V v := by
  unfold resized
  split_ifs with hlt
  · rfl
  · cases hV : V v with
    | none => rfl
    | some x => exact absurd ((h v hv).1 (by rw [hV]; rfl)) hlt

theorem growproc_grows (h : Rep L S F m (some p.pgdir) [] V K) (hsz : p.sz < KERNBASE) (hV : Exactly V p.sz) (hn : 0 < n)
    (hn' : n < 2 ^ 31)
    (hyes : ∀ m' (sz : ℕ), (sz : Int) = p.sz + n → sz < KERNBASE → Rep L S F m' (some p.pgdir) [] (resized V p.sz sz) K →
      Q (true, { p with sz := sz }) m')
    (hno : ∀ m', ((p.sz : Int) + n < KERNBASE → Full L S F (pages (addInt p.sz n))) → Rep L S F m' (some p.pgdir) [] V K →
      Q (false, p) m') : wp E (growproc L p n) Q m := by
  have hs : p.sz < 2 ^ 31 := hsz
  have hsum : (addInt p.sz n : Int) = p.sz + n := addInt_eq (by omega) (by omega)
  unfold growproc
  rw [wp_ite]
  refine ⟨fun _ => ?_, fun h' => absurd hn h'⟩
  by_cases hbig : addInt p.sz n < KERNBASE
  · have hle : p.sz ≤ addInt p.sz n := by omega
    have hpos : addInt p.sz n ≠ 0 := by omega
    refine wp_bind.2 (wp_allocuvm h hle hbig (fun u hu hu' => ?_) (fun m' h' => ?_) fun m' hfull h' => ?_)
    · cases hVu : V u with
      | none => rfl
      | some x => exact absurd ((hV u hu').1 (by rw [hVu]; rfl)) (not_lt.2 hu)
    · rw [if_neg hpos]
      refine wp_pure.2 (hyes m' _ hsum hbig (rep_view h' fun u hu => ?_))
      unfold grow resized
      have hmono : pages p.sz ≤ pages (addInt p.sz n) := by unfold pages; omega
      by_cases hlt : u < pages p.sz
      · rw [if_neg fun hb => absurd hlt (not_lt.2 hb.1), if_pos (lt_of_lt_of_le hlt hmono), if_pos hlt]
      · by_cases hin : u < pages (addInt p.sz n)
        · rw [if_pos ⟨not_lt.1 hlt, hin⟩, if_pos hin, if_neg hlt]
        · rw [if_neg fun hb => hin hb.2, if_neg hin]
          cases hVu : V u with
          | none => rfl
          | some x => exact absurd ((hV u hu).1 (by rw [hVu]; rfl)) hlt
    · rw [if_pos rfl]
      exact wp_pure.2 (hno m' (fun _ => hfull) h')
  · -- allocuvm refuses the size
    have hz : wp E (allocuvm L p.pgdir p.sz (addInt p.sz n)) (fun r m' => r = 0 ∧ m' = m) m := by
      unfold allocuvm
      rw [wp_ite]
      exact ⟨fun _ => wp_pure.2 ⟨rfl, rfl⟩, fun hlt => absurd (not_lt.1 hbig) hlt⟩
    refine wp_seq hz fun r m' hr => ?_
    obtain ⟨rfl, rfl⟩ := hr
    rw [if_pos rfl]
    refine wp_pure.2 (hno m' (fun hlt => absurd ?_ hbig) h)
    simp only [KERNBASE] at hlt ⊢
    omega

theorem growproc_shrinks (h : Rep L S F m (some p.pgdir) [] V K) (hsz : p.sz < KERNBASE) (hn : n < 0)
    (hyes : ∀ m', Rep L S F m' (some p.pgdir) [] (cut V (pages (addInt p.sz n)) (pages p.sz)) K →
      Q (if min p.sz (addInt p.sz n) = 0 then (false, p) else (true, { p with sz := min p.sz (addInt p.sz n) })) m') :
    wp E (growproc L p n) Q m := by
  unfold growproc
  rw [wp_ite, wp_ite]
  refine ⟨fun hpos => absurd hn (not_lt.2 (le_of_lt hpos)), fun _ => ⟨fun _ => ?_, fun h' => absurd hn h'⟩⟩
  refine wp_bind.2 (wp_deallocuvm h (le_of_lt hsz) fun m' h' => ?_)
  have hQ := hyes m' h'
  split_ifs at hQ ⊢ with hz
  · exact wp_pure.2 hQ
  · exact wp_pure.2 hQ

theorem grows_of_wp (h : wp (fun _ => False) (growproc L p n) (fun r m' => GrowExact p n m r.1 r.2 m') m) : Grows L p n m := by
  obtain ⟨r, m', hrun, hexact⟩ := wp_total h
  exact ⟨r.1, r.2, m', hrun, hexact⟩

theorem pages_mono {a b : ℕ} (h : a ≤ b) : pages a ≤ pages b := by
  unfold pages
  omega

/-- pages that go are those that a smaller size does not have -/
theorem cut_resized {sz new v : ℕ} (hV : Exactly V sz) (hle : new ≤ sz) (hv : v < UPAGES) :
    cut V (pages new) (pages sz) v = resized V sz new v := by
  have hmono := pages_mono hle
  unfold cut resized
  by_cases hlt : v < pages new
  · rw [if_neg fun hb => absurd hlt (not_lt.2 hb.1), if_pos hlt, if_pos (lt_of_lt_of_le hlt hmono)]
  · rw [if_neg hlt]
    split_ifs with hin
    · rfl
    · exact Option.not_isSome_iff_eq_none.1 fun hs => hin ⟨not_lt.1 hlt, (hV v hv).1 hs⟩

/-- a shrink that leaves some memory -/
theorem shrink_exact (hs : Sound L m p.pgdir) (hsz : p.sz < KERNBASE) (hV : Exactly (view m.page p.pgdir) p.sz) (hn : n < 0)
    (hleft : 0 < (p.sz : Int) + n) : Grows L p n m := by
  have hs' : p.sz < 2 ^ 31 := hsz
  have hsum : (addInt p.sz n : Int) = p.sz + n := addInt_eq (by omega) (by omega)
  have hmin : min p.sz (addInt p.sz n) = addInt p.sz n := min_eq_right (by omega)
  have hne : addInt p.sz n ≠ 0 := by omega
  refine grows_of_wp (growproc_shrinks hs.rep hsz hn fun m' h' => ?_)
  rw [hmin, if_neg hne]
  refine ⟨fun _ => ⟨hsum, ?_, rfl, fun v hv => ?_⟩, fun hbad => by cases hbad⟩
  · simp only [KERNBASE]
    omega
  · rw [h'.view _ rfl v hv]
    exact cut_resized hV (by omega) hv

/-- a process without memory cannot give any back, and growproc says so -/
theorem empty_exact (hs : Sound L m p.pgdir) (hz : p.sz = 0) (hn : n < 0) : Grows L p n m := by
  refine grows_of_wp (growproc_shrinks hs.rep (by rw [hz]; decide) hn fun m' h' => ?_)
  have hmin : min p.sz (addInt p.sz n) = 0 := by rw [hz, Nat.zero_min]
  rw [if_pos hmin]
  refine ⟨fun hbad => (by cases hbad), fun _ => ⟨rfl, fun v hv => ?_⟩⟩
  have hpages : pages p.sz = 0 := by rw [hz]; rfl
  rw [h'.view _ rfl v hv, cut_empty (by rw [hpages]; exact Nat.zero_le _)]

/-- growproc, when it does what it should, does not give back all the memory or more -/
theorem grows_leaves (hs : Sound L m p.pgdir) (hsz : p.sz < KERNBASE) (hV : Exactly (view m.page p.pgdir) p.sz)
    (hn : -2 ^ 31 ≤ n) (hneg : n < 0) (hg : Grows L p n m) : p.sz = 0 ∨ 0 < (p.sz : Int) + n := by
  obtain ⟨ok, p', m', hrun, hexact⟩ := hg
  have hs' : p.sz < 2 ^ 31 := hsz
  by_contra hcon
  rw [not_or] at hcon
  obtain ⟨hpos, hle⟩ := hcon
  have hwp : wp (fun _ => False) (growproc L p n) (fun r m' =>
      view m'.page p.pgdir 0 = cut (view m.page p.pgdir) (pages (addInt p.sz n)) (pages p.sz) 0 ∧
      r = if min p.sz (addInt p.sz n) = 0 then (false, p) else (true, { p with sz := min p.sz (addInt p.sz n) })) m :=
    growproc_shrinks hs.rep hsz hneg fun m' h' => ⟨h'.view _ rfl 0 (by decide), rfl⟩
  obtain ⟨hview, hres⟩ := wp_ok hwp hrun
  by_cases hzero : (p.sz : Int) + n = 0
  · -- all of it: the pages are gone, and growproc reports an error
    have hsum : (addInt p.sz n : Int) = p.sz + n := addInt_eq (by omega) (by omega)
    have hnew : addInt p.sz n = 0 := by omega
    have hin : pages 0 ≤ 0 ∧ 0 < pages p.sz := ⟨le_refl _, by unfold pages; omega⟩
    rw [hnew, Nat.min_zero, if_pos rfl] at hres
    obtain ⟨rfl, -⟩ := Prod.mk.inj hres
    rw [(hexact.failed rfl).2 0 (by decide), hnew, cut, if_pos hin] at hview
    have hsome := (hV 0 (by decide)).2 hin.2
    rw [hview] at hsome
    cases hsome
  · -- more than all of it: the sum wraps around, and growproc reports success
    have hwrap : 2 ^ 31 ≤ addInt p.sz n := addInt_wrap (by omega) hn
    have hmin : min p.sz (addInt p.sz n) = p.sz := min_eq_left (by omega)
    rw [hmin, if_neg hpos] at hres
    obtain ⟨rfl, rfl⟩ := Prod.mk.inj hres
    have hsz' := (hexact.done rfl).1
    simp only at hsz'
    omega

/-- **growproc is exact or does nothing, if and only if it is not asked to take all the memory of a process, or more.** -/
theorem growproc_exact_iff (hs : Sound L m p.pgdir) (hsz : p.sz < KERNBASE) (hV : Exactly (view m.page p.pgdir) p.sz)
    (hn : -2 ^ 31 ≤ n) (hn' : n < 2 ^ 31) : Grows L p n m ↔ (n < 0 → p.sz = 0 ∨ 0 < (p.sz : Int) + n) := by
  refine ⟨fun hg hneg => grows_leaves hs hsz hV hn hneg hg, fun hcond => ?_⟩
  rcases lt_trichotomy n 0 with hneg | rfl | hpos
  · rcases hcond hneg with hz | hleft
    · exact empty_exact hs hz hneg
    · exact shrink_exact hs hsz hV hneg hleft
  · refine grows_of_wp ?_
    unfold growproc
    rw [wp_ite, wp_ite]
    refine ⟨fun h => absurd h (lt_irrefl _), fun _ => ⟨fun h => absurd h (lt_irrefl _), fun _ => wp_pure.2 ?_⟩⟩
    exact ⟨fun _ => ⟨(add_zero _).symm, hsz, rfl, fun v hv => (resized_self hV hv).symm⟩, fun hbad => by cases hbad⟩
  · refine grows_of_wp (growproc_grows hs.rep hsz hV hpos hn' (fun m' sz hsum hlt h' => ?_) fun m' _ h' => ?_)
    · exact ⟨fun _ => ⟨hsum, hlt, rfl, fun v hv => h'.view _ rfl v hv⟩, fun hbad => by cases hbad⟩
    · exact ⟨fun hbad => by (cases hbad), fun _ => ⟨rfl, fun v hv => h'.view _ rfl v hv⟩⟩

/-! ## A process with two pages -/

/-- free pages only -/
theorem rep_free (hnd : m.freelist.Nodup) (hman : ∀ p ∈ m.freelist, L.Managed p) :
    Rep L (fun p => p ∈ m.freelist) m.page m none [] V K := by
  refine ⟨hnd, nodup_nil, ⟨?_, ?_⟩, hman, by simp, fun _ _ => rfl, by simp, by simp⟩
  · intro a b p ha hb
    cases a with
    | free q =>
      cases b with
      | free q' =>
        simp only [Mem.held] at ha hb
        split_ifs at ha hb
        cases ha
        cases hb
        rfl
      | _ => simp [Mem.held] at hb
    | _ => simp [Mem.held] at ha
  · intro p
    constructor
    · exact fun hp => ⟨.free p, held_free hp⟩
    · rintro ⟨a, ha⟩
      cases a with
      | free q =>
        simp only [Mem.held] at ha
        split_ifs at ha with hq
        cases ha
        exact hq
      | _ => simp [Mem.held] at ha

def smallLink : Link := ⟨0x101000, 0x102000, by decide, by decide, by decide, by decide⟩

def manyFree : Mem := ⟨fun _ => zeroPage, List.range' 1024 3000⟩

theorem manyFree_rep : Rep smallLink (fun p => p ∈ manyFree.freelist) manyFree.page manyFree none [] (fun _ => none)
    (fun _ => none) := by
  refine rep_free nodup_range' fun p hp => ?_
  have hr := mem_range'_1.1 hp
  simp only [Link.Managed, smallLink, PGSIZE, PHYSTOP]
  omega

/-- 3000 pages do not run out -/
theorem manyFree_enough {N : ℕ} (hN : N < 1974) : ¬ Full smallLink (fun p => p ∈ manyFree.freelist) manyFree.page N := by
  intro hfull
  have hnd : manyFree.freelist.Nodup := nodup_range'
  have hle := full_bound hfull hnd fun p hp => hp
  have hlen : manyFree.freelist.length = 3000 := length_range'
  omega

/-- page 1024 is the directory and 1025 its page table; page 1026 is at address 0 without PTE_U, as the guard page of exec is, and
page 1027 is the stack above it -/
def twoPages : Mem :=
  ((((manyFree.setWord 1024 0 (1025 * 4096 + 7)).setWord 1025 0 (1026 * 4096 + 3)).setPage 1027 fun _ => 90).setWord 1025 1
    (1027 * 4096 + 7)).setFree (List.range' 1028 2996)

def twoPageProc : Uproc := ⟨1024, 8192, 1, 0, 0, [], 2, 2⟩

def twoPageView : View := update (update (fun _ => none) 0 (some (3, zeroPage))) 1 (some (7, fun _ => 90))

theorem twoPages_rep : Rep smallLink (fun p => p ∈ manyFree.freelist) manyFree.page twoPages (some 1024) [] twoPageView
    (fun v => if v / 1024 = 0 then some 0 else none) := by
  have h1 := rep_take (rep_adopt (rep_take manyFree_rep rfl)) rfl
  have hzero : table manyFree.page 1024 0 = none := by
    rw [table, wordOf_zero rfl, if_neg (by decide)]
  have h2 := rep_take (rep_install (i := 0) h1 (by decide) hzero) rfl
  have htab : table (store manyFree.page 1024 0 (1025 * 4096 + 7)) 1024 (0 / 1024) = some 1025 :=
    table_install (by decide) (by decide) 0
  have h3 := rep_map (v := 0) (w := 1026 * 4096 + 3) h2 (by decide) rfl htab (by decide) (by decide) (by decide)
  have h4 := rep_fill (rep_take h3 rfl) fun _ => 90
  exact rep_map (v := 1) (w := 1027 * 4096 + 7) h4 (by decide) rfl htab (by decide) (by decide) (by decide)

theorem twoPages_exactly : Exactly (view twoPages.page 1024) 8192 := by
  intro v hv
  rw [twoPages_rep.view 1024 rfl v hv, twoPageView, update_apply, update_apply]
  have htwo : v < pages 8192 ↔ v = 1 ∨ v = 0 := by
    have hpages : pages 8192 = 2 := rfl
    omega
  rw [htwo]
  split_ifs with h1 h0 <;> simp [*]

/-- The stack page goes back, or three pages come to the two. -/
theorem growproc_exact_iff_twoPages : Grows smallLink twoPageProc (-4096) twoPages ∧ Grows smallLink twoPageProc 12288 twoPages :=
  ⟨(growproc_exact_iff (p := twoPageProc) twoPages_rep.sound (by decide) twoPages_exactly (by decide) (by decide)).2
    fun _ => .inr (by decide),
  (growproc_exact_iff (p := twoPageProc) twoPages_rep.sound (by decide) twoPages_exactly (by decide) (by decide)).2
    fun hneg => absurd hneg (by decide)⟩

/-- All the memory goes back: growproc reports an error, keeps the size, and has taken the pages away. One page more goes back:
growproc reports success and has done nothing. -/
theorem growproc_all_or_more : Sound smallLink twoPages 1024 ∧ Exactly (view twoPages.page 1024) 8192 ∧
    (∃ m', growproc smallLink twoPageProc (-8192) twoPages = .ok ((false, twoPageProc), m') ∧
      (view twoPages.page 1024 1).isSome = true ∧ view m'.page 1024 1 = none) ∧
    ∃ m', growproc smallLink twoPageProc (-12288) twoPages = .ok ((true, twoPageProc), m') := by
  have hs : Sound smallLink twoPages twoPageProc.pgdir := twoPages_rep.sound
  refine ⟨hs, twoPages_exactly, ?_, ?_⟩
  · obtain ⟨r, m', hrun, hr, hview⟩ := wp_total (growproc_shrinks (p := twoPageProc) (n := -8192)
      (Q := fun r m' => r = (false, twoPageProc) ∧ view m'.page 1024 1 = none) hs.rep (by decide) (by decide)
      fun m' h' => ⟨by decide, (h'.view _ rfl 1 (by decide)).trans (if_pos (by decide))⟩)
    subst hr
    exact ⟨m', hrun, (twoPages_exactly 1 (by decide)).2 (by decide), hview⟩
  · obtain ⟨r, m', hrun, hr⟩ := wp_total (growproc_shrinks (p := twoPageProc) (n := -12288)
      (Q := fun r _ => r = (true, twoPageProc)) hs.rep (by decide) (by decide) fun m' h' => by decide)
    subst hr
    exact ⟨m', hrun⟩

end Xv6.Vm
