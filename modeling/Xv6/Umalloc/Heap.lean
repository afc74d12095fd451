/-
The allocator (umalloc.c) over whole runs: any calls of malloc, frees of pointers that are allocated, and writes of the program
into its own blocks.

- `logged S`: the system S, with the ranges that sbrk has returned.
- `World`: the memory, and the pointers that are allocated, each with the number of bytes it was asked for.
- `Heap S top w N`: the invariant. N is the free list; its blocks and the allocated ones share no byte, no two allocated ones do,
  and together they are what sbrk has returned.

Results:
- `step_inv`: each step ends, and keeps the invariant;
- `heap_invariant`: **in every run the free list is in order, coalesced and apart from the allocated blocks, the units that sbrk gave
  are free or allocated, malloc returns 0 or a block of its own, and every loop ends**.
-/
import Xv6.Umalloc.Malloc

namespace Xv6.Umalloc

open Fallible Function List

/-! ## Runs -/

def logged {κ : Type} (S : Sys κ) : Sys (κ × List (ℕ × ℕ)) where
  base := S.base
  sbrk n k := match S.sbrk n k.1 with
    | (none, k') => (none, k', k.2)
    | (some a, k') => (some a, k', (a, n) :: k.2)
  valid k a := S.valid k.1 a

structure World (κ : Type) where
  st : St (κ × List (ℕ × ℕ))
  live : List (ℕ × ℕ)

inductive Event where
  | malloc (nbytes : ℕ)
  | free (ap : ℕ)
  | write (a p n : ℕ)
deriving DecidableEq, Repr

/-- the block of an allocated pointer -/
def blockOf (l : ℕ × ℕ) : Block := (l.1 - 8, nunits l.2)

/-- some of the 8 bytes at a are behind the header of an allocated block -/
def inside (live : List (ℕ × ℕ)) (a : ℕ) : Bool :=
  live.any fun l => (blockOf l).1 < a && a < (blockOf l).1 + 8 * (blockOf l).2

/-- only allocated pointers are freed, and only allocated memory is written -/
def step {κ : Type} (S : Sys κ) (fuel : ℕ) (w : World κ) : Event → Except Fault (World κ)
  | .malloc nbytes => do
    let r ← malloc (logged S) fuel nbytes w.st
    return if r.1 = 0 then ⟨r.2, w.live⟩ else ⟨r.2, (r.1, nbytes) :: w.live⟩
  | .free ap =>
    if ap ∈ w.live.map Prod.fst then do
      let r ← free (logged S) fuel ap w.st
      return ⟨r.2, w.live.eraseP (·.1 = ap)⟩
    else return w
  | .write a p n =>
    if inside w.live a then
      return ⟨{ w.st with ptr := update w.st.ptr a p, size := update w.st.size a n }, w.live⟩
    else return w

def run {κ : Type} (S : Sys κ) (fuel : ℕ) (w : World κ) (es : List Event) : Except Fault (World κ) := es.foldlM (step S fuel) w

/-- before the first call: freep is 0, and sbrk has not been called -/
def start {κ : Type} (ptr size : ℕ → ℕ) (k : κ) : World κ := ⟨⟨ptr, size, 0, k, []⟩, []⟩

/-- the request of an event -/
def Event.bytes : Event → ℕ
  | .malloc nbytes => nbytes
  | _ => 0

/-- byte x is in one of the ranges -/
def Got (l : List (ℕ × ℕ)) (x : ℕ) : Prop := ∃ g ∈ l, g.1 ≤ x ∧ x < g.1 + g.2

variable {κ : Type} {S : Sys κ} {top : κ → ℕ} {w w' : World κ} {N N' : List Block} {E : Fault → Prop} {ap fuel m nbytes x : ℕ}

/-! ## The invariant -/

structure Heap (S : Sys κ) (top : κ → ℕ) (w : World κ) (N : List Block) : Prop where
  free : FreeList (logged S) (fun k => top k.1) w.st N
  sizes : ∀ l ∈ w.live, w.st.size (blockOf l).1 = (blockOf l).2
  pairs : (w.live.map blockOf).Pairwise fun b c => ∀ x, In b x → ¬ In c x
  apart : ∀ x, Covers N x → ¬ Covers (w.live.map blockOf) x
  exact : ∀ x, Got w.st.kern.2 x ↔ Covers N x ∨ Covers (w.live.map blockOf) x
  range : ∀ x, Got w.st.kern.2 x → S.base + 8 ≤ x ∧ x < top w.st.kern.1

/-- before the first call -/
structure Unused (S : Sys κ) (top : κ → ℕ) (w : World κ) : Prop where
  first : w.st.freep = 0
  none : w.live = []
  nothing : w.st.kern.2 = []
  low : S.base + 8 ≤ top w.st.kern.1

/-- after m calls -/
def Inv (S : Sys κ) (top : κ → ℕ) (m : ℕ) (w : World κ) : Prop :=
  Unused S top w ∨ ∃ N, Heap S top w N ∧ N.length ≤ m + 1

/-- sbrk that fails adds no range -/
theorem logged_none {k k' : κ × List (ℕ × ℕ)} {n : ℕ} (h : (logged S).sbrk n k = (none, k')) :
    S.sbrk n k.1 = (none, k'.1) ∧ k'.2 = k.2 := by
  simp only [logged] at h
  split at h <;> cases h
  exact ⟨by assumption, rfl⟩

theorem logged_call {k : κ × List (ℕ × ℕ)} {k' : κ} {a n : ℕ} (h : S.sbrk n k.1 = (some a, k')) :
    (logged S).sbrk n k = (some a, k', (a, n) :: k.2) := by
  simp only [logged, h]

theorem logged_some {k k' : κ × List (ℕ × ℕ)} {a n : ℕ} (h : (logged S).sbrk n k = (some a, k')) :
    S.sbrk n k.1 = (some a, k'.1) ∧ k'.2 = (a, n) :: k.2 := by
  simp only [logged] at h
  split at h <;> cases h
  exact ⟨by assumption, rfl⟩

theorem grows_logged (hg : Grows S top) : Grows (logged S) fun k => top k.1 where
  limit k := hg.limit k.1
  mapped k a ha := hg.mapped k.1 a ha
  fail _ _ n htop hpos hlt hn := hg.fail _ _ n htop hpos hlt (logged_none hn).1
  grow _ _ n a htop hpos hlt ha := hg.grow _ _ n a htop hpos hlt (logged_some ha).1

theorem got_cons {g : ℕ × ℕ} {l : List (ℕ × ℕ)} : Got (g :: l) x ↔ g.1 ≤ x ∧ x < g.1 + g.2 ∨ Got l x := by
  unfold Got
  simp only [mem_cons, exists_eq_or_imp]

variable {l : ℕ × ℕ}

/-- the header of an allocated block is in it -/
theorem live_covers (hl : l ∈ w.live) : Covers (w.live.map blockOf) (blockOf l).1 := by
  refine ⟨blockOf l, mem_map_of_mem hl, le_refl _, ?_⟩
  have hpos := nunits_pos l.2
  simp only [blockOf]
  omega

theorem live_above (h : Heap S top w N) (hl : l ∈ w.live) : S.base + 8 ≤ (blockOf l).1 :=
  (h.range _ ((h.exact _).2 (.inr (live_covers hl)))).1

theorem live_below (h : Heap S top w N) (hl : l ∈ w.live) : (blockOf l).1 < top w.st.kern.1 :=
  (h.range _ ((h.exact _).2 (.inr (live_covers hl)))).2

/-- the header of an allocated block is not one of the list -/
theorem live_not_node (h : Heap S top w N) (hl : l ∈ w.live) :
    (blockOf l).1 ∉ N.map Prod.fst ∧ ¬ Covers N (blockOf l).1 := by
  have hcov : ¬ Covers N (blockOf l).1 := fun hc => h.apart _ hc (live_covers hl)
  refine ⟨fun hnode => ?_, hcov⟩
  rcases node_covers h.free.ring hnode with hbase | hc
  · have habove := live_above h hl
    simp only [logged] at hbase
    omega
  · exact hcov hc

/-! ## malloc -/

/-- the heap with which malloc's first call starts -/
theorem heap_first (hu : Unused S top w) (hbase : 0 < S.base) :
    Heap S top ⟨⟨update w.st.ptr S.base S.base, update w.st.size S.base 0, S.base, w.st.kern⟩, w.live⟩
      [(S.base, 0)] := by
  have hlist : FreeList (logged S) (fun k => top k.1)
      ⟨update w.st.ptr S.base S.base, update w.st.size S.base 0, S.base, w.st.kern⟩ [(S.base, 0)] :=
    freeList_base hbase hu.low
  have hempty : ∀ x, ¬ Covers [(S.base, 0)] x := by
    intro x hc
    obtain ⟨hx, hx'⟩ := covers_singleton.1 hc
    simp only at hx hx'
    omega
  have hgot : ∀ x, ¬ Got w.st.kern.2 x := by
    intro x hx
    rw [hu.nothing] at hx
    obtain ⟨g, hg, -⟩ := hx
    cases hg
  refine ⟨hlist, ?_, ?_, fun x hc => absurd hc (hempty x), fun x => ?_, fun x hx => absurd hx (hgot x)⟩
  · rw [hu.none]
    intro l hl
    cases hl
  · rw [hu.none]
    exact List.Pairwise.nil
  · rw [hu.none]
    refine iff_of_false (hgot x) fun hc => ?_
    rcases hc with hc | hc
    · exact hempty x hc
    · exact covers_nil hc

/-- sbrk has failed -/
theorem heap_none {k' : κ × List (ℕ × ℕ)} {n : ℕ} (hg : Grows S top) (h : Heap S top w N) (hpos : 0 < n) (hlt : n < 2 ^ 31)
    (hk : (logged S).sbrk n w.st.kern = (none, k')) : Heap S top ⟨{ w.st with kern := k' }, w.live⟩ N := by
  have htop : 0 < top w.st.kern.1 := (Nat.succ_pos _).trans_le ((Nat.le_add_left ..).trans h.free.low)
  have hmono : top w.st.kern.1 ≤ top k'.1 := (grows_logged hg).fail _ _ n htop hpos hlt hk
  have hlog := (logged_none hk).2
  have hring := h.free.ring
  refine ⟨⟨⟨hring.links, hring.sizes, hring.gaps, hring.first, hring.pos⟩, h.free.start, h.free.base, h.free.low.trans hmono,
    fun b hb => (h.free.tops b hb).trans hmono⟩, h.sizes, h.pairs, h.apart, fun x => ?_, fun x hx => ?_⟩
  · simp only [hlog]
    exact h.exact x
  · simp only [hlog] at hx
    obtain ⟨hlow, htop⟩ := h.range x hx
    exact ⟨hlow, htop.trans_le hmono⟩

/-- malloc has returned a block -/
theorem heap_served {s' : St (κ × List (ℕ × ℕ))} {a : ℕ} {got : List Block} (h : Heap S top w N)
    (hs : Served (logged S) (fun k => top k.1) w.st s' N N' a (nunits nbytes) got) :
    Heap S top ⟨s', (a + 8, nbytes) :: w.live⟩ N' := by
  have hblock : blockOf (a + 8, nbytes) = (a, nunits nbytes) := by
    simp only [blockOf, Nat.add_sub_cancel]
  have hlog : ∀ x, Got s'.kern.2 x ↔ Covers got x ∨ Got w.st.kern.2 x := by
    intro x
    rcases hs.asked with ⟨rfl, hk⟩ | ⟨c, rfl, hk⟩
    · rw [hk, or_iff_right covers_nil]
    · rw [(logged_some hk).2, got_cons, covers_singleton]
      rfl
  have hmono := hs.mono
  -- neither the free memory nor the new ranges have a byte of an allocated block
  have hnew : ∀ x, Covers N' x ∨ In (a, nunits nbytes) x → ¬ Covers (w.live.map blockOf) x := by
    intro x hx hlive
    rcases (hs.covers x).2 hx with hold | hgot
    · exact h.apart x hold hlive
    · have hrange := h.range x ((h.exact x).2 (.inr hlive))
      have hfresh := hs.fresh x hgot
      omega
  refine ⟨hs.free, fun l hl => ?_, ?_, fun x hx => ?_, fun x => ?_, fun x hx => ?_⟩
  · rcases mem_cons.1 hl with rfl | hl
    · rw [hblock]
      exact hs.size
    · obtain ⟨hnode, hcov⟩ := live_not_node h hl
      have hbelow := live_below h hl
      refine (hs.sizes _ hnode hcov fun hgot => ?_).trans (h.sizes l hl)
      have hfresh := hs.fresh _ hgot
      omega
  · rw [map_cons, hblock]
    refine pairwise_cons.2 ⟨fun c hc x hx hxc => ?_, h.pairs⟩
    exact hnew x (.inr hx) ⟨c, hc, hxc⟩
  · rw [map_cons, hblock, covers_cons]
    intro hc
    rcases hc with hc | hc
    · exact hs.apart x hc hx
    · exact hnew x (.inl hx) hc
  · rw [map_cons, hblock, covers_cons, ← or_assoc, ← hs.covers x, hlog x, h.exact x]
    tauto
  · rcases (hlog x).1 hx with hgot | hold
    · have hfresh := hs.fresh x hgot
      have hlow := h.free.low
      simp only [logged] at hfresh hlow ⊢
      omega
    · obtain ⟨hlow, htop⟩ := h.range x hold
      exact ⟨hlow, htop.trans_le hmono⟩

/-- malloc's outcome, after m calls -/
def Outcome (S : Sys κ) (top : κ → ℕ) (m : ℕ) (w : World κ) (nbytes r : ℕ) (st : St (κ × List (ℕ × ℕ))) : Prop :=
  ∃ N, Heap S top ⟨st, if r = 0 then w.live else (r, nbytes) :: w.live⟩ N ∧ N.length ≤ m + 2

theorem wp_malloc_heap (hg : Grows S top) (h : Heap S top w N) (hsmall : 8 * nunits nbytes < 2 ^ 31) (hlen : N.length ≤ m + 1)
    (hfuel : 2 * m + 3 ≤ fuel) : wp E (malloc (logged S) fuel nbytes) (Outcome S top m w nbytes) w.st := by
  have hask := atLeast_lt hsmall
  have hpos : 0 < 8 * atLeast (nunits nbytes) := by
    have hle := le_atLeast (nunits nbytes)
    have hunits := nunits_pos nbytes
    omega
  refine wp_malloc_ready (grows_logged hg) h.free hsmall (by omega) (fun k' hk => ⟨N, ?_, by omega⟩)
    fun a s' N' got hs => ⟨N', ?_, hs.length.trans (by omega)⟩
  · rw [if_pos rfl]
    exact heap_none hg h hpos hask hk
  · rw [if_neg (by omega)]
    exact heap_served h hs

theorem wp_malloc_inv (hg : Grows S top) (hbase : 0 < S.base) (h : Inv S top m w) (hsmall : 8 * nunits nbytes < 2 ^ 31)
    (hfuel : 2 * m + 3 ≤ fuel) : wp E (malloc (logged S) fuel nbytes) (Outcome S top m w nbytes) w.st := by
  rcases h with hu | ⟨N, h, hlen⟩
  · exact wp_malloc_first (grows_logged hg) hu.first hbase hu.low
      (wp_malloc_heap hg (heap_first hu hbase) hsmall (by simp only [length_singleton]; omega) hfuel)
  · exact wp_malloc_heap hg h hsmall hlen hfuel

/-! ## free -/

/-- one allocated block, and the others -/
theorem live_split (h : Heap S top w N) {L1 L2 : List (ℕ × ℕ)} (hlive : w.live = L1 ++ l :: L2) :
    (∀ l' ∈ L1 ++ L2, ∀ x, In (blockOf l) x → ¬ In (blockOf l') x) ∧
      ((L1 ++ L2).map blockOf).Pairwise (fun b c => ∀ x, In b x → ¬ In c x) ∧
      ∀ x, Covers (w.live.map blockOf) x ↔ In (blockOf l) x ∨ Covers ((L1 ++ L2).map blockOf) x := by
  have hpairs := h.pairs
  rw [hlive, map_append, map_cons, pairwise_middle (fun hbc x hc hb => hbc x hb hc), ← map_append] at hpairs
  obtain ⟨hothers, hrest⟩ := pairwise_cons.1 hpairs
  refine ⟨fun l' hl' => hothers _ (mem_map_of_mem hl'), hrest, fun x => ?_⟩
  rw [hlive, map_append, map_append, map_cons, covers_append, covers_append, covers_cons]
  tauto

theorem wp_free_heap (hg : Grows S top) (h : Heap S top w N) (hap : ap ∈ w.live.map Prod.fst) (hfuel : N.length ≤ fuel) :
    wp E (free (logged S) fuel ap)
      (fun _ st => ∃ N', Heap S top ⟨st, w.live.eraseP (·.1 = ap)⟩ N' ∧ N'.length ≤ N.length + 1) w.st := by
  obtain ⟨l0, hl0, hl0ap⟩ := mem_map.1 hap
  obtain ⟨l, L1, L2, -, hl, hlive, herase⟩ := exists_of_eraseP (p := fun l => decide (l.1 = ap)) hl0 (by simpa using hl0ap)
  have hlap : l.1 = ap := by simpa using hl
  have hmem : l ∈ w.live := by
    rw [hlive]
    exact mem_append_right L1 mem_cons_self
  have hg' := grows_logged hg
  have habove := live_above h hmem
  obtain ⟨hothers, hpairs', hcov⟩ := live_split h hlive
  have hsub : ∀ l' ∈ L1 ++ L2, l' ∈ w.live := by
    intro l' hl'
    rw [hlive]
    rcases mem_append.1 hl' with hl' | hl'
    · exact mem_append_left _ hl'
    · exact mem_append_right L1 (mem_cons_of_mem _ hl')
  have hrange : ∀ x, In (blockOf l) x → S.base + 8 ≤ x ∧ x < top w.st.kern.1 :=
    fun x hx => h.range x ((h.exact x).2 (.inr ((hcov x).2 (.inl hx))))
  have hpos : 0 < (blockOf l).2 := nunits_pos l.2
  have hlast := hrange ((blockOf l).1 + 8 * (blockOf l).2 - 1) ⟨by omega, by omega⟩
  have hlim := hg.limit w.st.kern.1
  have hfirst : (blockOf l).1 = l.1 - 8 := rfl
  have haddr : uint32 (ap + (2 ^ 32 - 8)) = (blockOf l).1 := by
    unfold uint32
    omega
  unfold free
  rw [haddr, herase]
  refine wp_freeBlock h.free.ring (freeList_mapped hg' h.free) h.free.start hfuel (hg'.mapped _ _ (by omega)) h.free.base
    (by simp only [logged]; omega) (h.sizes l hmem) hpos (by omega) (fun b hb => ?_)
    (fun x hx hc => h.apart x hc ((hcov x).2 (.inl hx))) fun s' N' hfreed => ⟨N', ?_, hfreed.length⟩
  · have htop := h.free.tops b hb
    omega
  · refine ⟨hfreed.freeList h.free (by omega), fun l' hl' => ?_, hpairs', fun x hx hc => ?_, fun x => ?_, fun x hx => ?_⟩
    · obtain ⟨hnode, -⟩ := live_not_node h (hsub l' hl')
      refine (hfreed.sizes _ (fun heq => ?_) hnode).trans (h.sizes l' (hsub l' hl'))
      -- two blocks do not start at the same address
      have hl'pos : 0 < (blockOf l').2 := nunits_pos l'.2
      exact hothers l' hl' (blockOf l).1 ⟨le_refl _, by omega⟩ ⟨heq.le, by omega⟩
    · rcases (hfreed.covers x).1 hx with hold | hblock
      · exact h.apart x hold ((hcov x).2 (.inr hc))
      · obtain ⟨c, hcm, hxc⟩ := hc
        obtain ⟨l', hl', rfl⟩ := mem_map.1 hcm
        exact hothers l' hl' x hblock hxc
    · rw [hfreed.kern, h.exact x, hcov x, hfreed.covers x]
      tauto
    · rw [hfreed.kern] at hx ⊢
      exact h.range x hx

/-! ## The program's own writes -/

theorem heap_write {a p n : ℕ} (h : Heap S top w N) (ha : inside w.live a = true) :
    Heap S top ⟨{ w.st with ptr := update w.st.ptr a p, size := update w.st.size a n }, w.live⟩ N := by
  obtain ⟨l, hl, hin⟩ := any_eq_true.1 ha
  simp only [Bool.and_eq_true, decide_eq_true_eq] at hin
  have hlin : In (blockOf l) a := ⟨hin.1.le, hin.2⟩
  have hlcov : Covers (w.live.map blockOf) a := ⟨_, mem_map_of_mem hl, hlin⟩
  have hnode : ∀ b ∈ N, b.1 ≠ a := by
    intro b hb heq
    rcases node_covers h.free.ring (mem_map_of_mem hb) with hbase | hc
    · have habove := live_above h hl
      simp only [logged] at hbase
      omega
    · rw [heq] at hc
      exact h.apart a hc hlcov
  obtain ⟨L1, L2, hlive'⟩ := append_of_mem hl
  obtain ⟨hothers, -, -⟩ := live_split h hlive'
  have hlive : ∀ l' ∈ w.live, (blockOf l').1 ≠ a := by
    intro l' hl' heq
    have hpos : 0 < (blockOf l').2 := nunits_pos l'.2
    rw [hlive'] at hl'
    rcases mem_append.1 hl' with hl' | hl'
    · exact hothers l' (mem_append_left _ hl') a hlin ⟨heq.le, by omega⟩
    · rcases mem_cons.1 hl' with rfl | hl'
      · omega
      · exact hothers l' (mem_append_right _ hl') a hlin ⟨heq.le, by omega⟩
  have hring := h.free.ring
  refine ⟨⟨⟨?_, fun b hb => ?_, hring.gaps, hring.first, hring.pos⟩, h.free.start, h.free.base, h.free.low, h.free.tops⟩,
    fun l' hl' => ?_, h.pairs, h.apart, h.exact, h.range⟩
  · refine linked_congr hring.links fun y hy => ?_
    obtain ⟨b, hb, rfl⟩ := mem_map.1 hy
    exact update_of_ne (hnode b hb) _ _
  · exact (update_of_ne (hnode b hb) _ _).trans (hring.sizes b hb)
  · exact (update_of_ne (hlive l' hl') _ _).trans (h.sizes l' hl')

/-! ## Runs -/

theorem inv_mono (h : Inv S top m w) : Inv S top (m + 1) w := by
  rcases h with hu | ⟨N, h, hlen⟩
  · exact .inl hu
  · exact .inr ⟨N, h, hlen.trans (Nat.le_succ _)⟩

/-- **each step ends, and keeps the invariant** -/
theorem step_inv {e : Event} (hg : Grows S top) (hbase : 0 < S.base) (h : Inv S top m w) (he : 8 * nunits e.bytes < 2 ^ 31)
    (hfuel : 2 * m + 3 ≤ fuel) : ∃ w', step S fuel w e = .ok w' ∧ Inv S top (m + 1) w' := by
  cases e with
  | malloc nbytes =>
    have hsmall : 8 * nunits nbytes < 2 ^ 31 := he
    obtain ⟨r, st, hrun, N, hN, hlen⟩ := wp_total (wp_malloc_inv hg hbase h hsmall hfuel)
    refine ⟨⟨st, if r = 0 then w.live else (r, nbytes) :: w.live⟩, ?_, .inr ⟨N, hN, hlen⟩⟩
    rw [step, hrun]
    by_cases hr : r = 0
    · rw [if_pos hr]
      exact congrArg Except.ok (if_pos hr)
    · rw [if_neg hr]
      exact congrArg Except.ok (if_neg hr)
  | free ap =>
    by_cases hap : ap ∈ w.live.map Prod.fst
    · rcases h with hu | ⟨N, h, hlen⟩
      · rw [hu.none] at hap
        cases hap
      · have hrounds : N.length ≤ fuel := by omega
        obtain ⟨r, st, hrun, N', hN', hlen'⟩ := wp_total (wp_free_heap hg h hap hrounds)
        refine ⟨⟨st, w.live.eraseP (·.1 = ap)⟩, ?_, .inr ⟨N', hN', by omega⟩⟩
        rw [step, if_pos hap, hrun]
        rfl
    · refine ⟨w, ?_, inv_mono h⟩
      rw [step, if_neg hap]
      rfl
  | write a p n =>
    by_cases ha : inside w.live a = true
    · rcases h with hu | ⟨N, h, hlen⟩
      · rw [hu.none] at ha
        cases ha
      · refine ⟨_, ?_, .inr ⟨N, heap_write (p := p) (n := n) h ha, hlen.trans (Nat.le_succ _)⟩⟩
        rw [step, if_pos ha]
        rfl
    · refine ⟨w, ?_, inv_mono h⟩
      rw [step, if_neg ha]
      rfl

theorem run_inv {es : List Event} (hg : Grows S top) (hbase : 0 < S.base) (h : Inv S top m w)
    (hes : ∀ e ∈ es, 8 * nunits e.bytes < 2 ^ 31) (hfuel : 2 * (m + es.length) + 3 ≤ fuel) :
    ∃ w', run S fuel w es = .ok w' ∧ Inv S top (m + es.length) w' := by
  induction es generalizing m w with
  | nil => exact ⟨w, rfl, h⟩
  | cons e es ih =>
    rw [length_cons] at hfuel
    have hrounds : 2 * m + 3 ≤ fuel := by omega
    obtain ⟨w1, hstep, h1⟩ := step_inv hg hbase h (hes e mem_cons_self) hrounds
    obtain ⟨w2, hrun, h2⟩ := ih h1 (fun e' he' => hes e' (mem_cons_of_mem _ he')) (by omega)
    refine ⟨w2, ?_, ?_⟩
    · unfold run at hrun ⊢
      rw [foldlM_cons, hstep]
      exact hrun
    · rw [length_cons, Nat.add_comm es.length, ← Nat.add_assoc]
      exact h2

theorem start_inv {k : κ} {ptr size : ℕ → ℕ} (hlow : S.base + 8 ≤ top k) : Inv S top 0 (start ptr size k) :=
  Or.inl ⟨rfl, rfl, rfl, hlow⟩

/-- the units are enough for the bytes and the header -/
theorem nunits_fit (h : nbytes < 2 ^ 31) : nbytes + 8 ≤ 8 * nunits nbytes := by
  unfold nunits
  rw [uint32_eq (by omega)]
  omega

/-- the bytes of a pointer are behind the header of its block -/
theorem bytes_in_block {r : ℕ} (hr : 8 ≤ r) (hn : nbytes < 2 ^ 31) (hx : r ≤ x) (hx' : x < r + nbytes) :
    In (blockOf (r, nbytes)) x := by
  have hfit := nunits_fit hn
  simp only [In, blockOf]
  omega

/-- **the invariant of the heap**, for requests below 2^30 bytes: the calls end, and the next call of malloc returns 0 or a block that
is apart from all allocated ones -/
theorem heap_invariant (S : Sys κ) (top : κ → ℕ) (hg : Grows S top) (hbase : 0 < S.base) (k : κ) (hlow : S.base + 8 ≤ top k)
    (ptr size : ℕ → ℕ) (es : List Event) (hes : ∀ e ∈ es, e.bytes < 2 ^ 30) (fuel : ℕ) (hfuel : 2 * es.length + 3 ≤ fuel) :
    ∃ w, run S fuel (start ptr size k) es = .ok w ∧ (Unused S top w ∨ ∃ N, Heap S top w N) ∧
      ∀ nbytes < 2 ^ 30, ∃ r st, malloc (logged S) fuel nbytes w.st = .ok (r, st) ∧
        (r = 0 ∨ ∀ x, r ≤ x → x < r + nbytes → Got st.kern.2 x ∧ ∀ l ∈ w.live, ¬ In (blockOf l) x) := by
  have hsmall : ∀ n, n < 2 ^ 30 → 8 * nunits n < 2 ^ 31 := by
    intro n hn
    unfold nunits
    rw [uint32_eq (by omega)]
    omega
  have hinv : Inv S top 0 (start ptr size k) := start_inv hlow
  have hrounds : 2 * (0 + es.length) + 3 ≤ fuel := by omega
  obtain ⟨w, hrun, hw⟩ := run_inv hg hbase hinv (fun e he => hsmall _ (hes e he)) hrounds
  rw [Nat.zero_add] at hw
  refine ⟨w, hrun, ?_, fun nbytes hn => ?_⟩
  · rcases hw with hu | ⟨N, h, -⟩
    · exact .inl hu
    · exact .inr ⟨N, h⟩
  · obtain ⟨r, st, hcall, N, h, -⟩ := wp_total (wp_malloc_inv hg hbase hw (hsmall _ hn) hfuel)
    refine ⟨r, st, hcall, ?_⟩
    by_cases hr : r = 0
    · exact .inl hr
    rw [if_neg hr] at h
    have habove : S.base + 8 ≤ r - 8 := live_above h mem_cons_self
    refine .inr fun x hx hx' => ?_
    have hin : In (blockOf (r, nbytes)) x := bytes_in_block (by omega) (by omega) hx hx'
    refine ⟨(h.exact x).2 (.inr ⟨_, mem_cons_self, hin⟩), fun l hl => ?_⟩
    exact (pairwise_cons.1 h.pairs).1 _ (mem_map_of_mem hl) x hin

/-- a system whose memory ends at k -/
def plainBrk : Sys (Fin (2 ^ 31)) where
  base := 16
  sbrk n k := if h : k.val + n < 2 ^ 31 then (some k.val, ⟨k.val + n, h⟩) else (none, k)
  valid k a := a + 8 ≤ k.val

theorem plainBrk_grows : Grows plainBrk fun k => k.val := by
  refine ⟨fun k => by omega, fun k a ha => by simpa [plainBrk] using ha, fun k k' n _ _ _ h => ?_, fun k k' n a _ _ _ h => ?_⟩
  · simp only [plainBrk] at h
    split_ifs at h
    · exact absurd (Prod.mk.inj h).1 (by simp)
    · obtain rfl := (Prod.mk.inj h).2
      exact le_refl _
  · simp only [plainBrk] at h
    split_ifs at h
    · obtain ⟨ha, rfl⟩ := Prod.mk.inj h
      obtain rfl := Option.some.inj ha
      exact ⟨le_refl _, le_refl _⟩
    · exact absurd (Prod.mk.inj h).1 (by simp)

theorem heap_invariant_plain : Grows plainBrk (fun k => k.val) ∧
    ∃ w, run plainBrk 11 (start (fun _ => 0) (fun _ => 0) 4096) [.malloc 10, .malloc 20, .free 36848, .malloc 100000] = .ok w ∧
      (Unused plainBrk (fun k => k.val) w ∨ ∃ N, Heap plainBrk (fun k => k.val) w N) ∧
      ∀ nbytes < 2 ^ 30, ∃ r st, malloc (logged plainBrk) 11 nbytes w.st = .ok (r, st) ∧
        (r = 0 ∨ ∀ x, r ≤ x → x < r + nbytes → Got st.kern.2 x ∧ ∀ l ∈ w.live, ¬ In (blockOf l) x) :=
  ⟨plainBrk_grows, heap_invariant plainBrk (fun k => k.val) plainBrk_grows (by decide) 4096 (by decide)
    _ _ _ (by decide) 11 (by decide)⟩

end Xv6.Umalloc
