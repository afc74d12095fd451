/-
Every request size: malloc (umalloc.c) over the kernel's own sbrk (sys_sbrk and growproc), which takes the number of bytes as a
signed one.

- `Kern`: a process and the memory of the machine. `sysSbrk` is growproc's model run on them; a panic, which does not return, is none.
- `machine L base`: the system for the allocator. An access faults if its page is not present.
- `Good L k`: the process has the pages up to its size and no others, and its pages and the free ones are different.
- `Safe L nbytes`: from every state that requests of at most 2^31 - 16 bytes, frees and writes lead to, malloc(nbytes) returns 0 or
  a pointer to nbytes bytes below the process's size.

Results:
- `machine_grows`: growproc keeps the promise that the heap rests on;
- `malloc_safe_iff`: **malloc is safe up to 2^31 - 16 bytes, and for no larger request**;
- `malloc_faults`, `malloc_too_small`: what goes wrong above: sbrk takes the request for a negative one, or the sum wraps around.
-/
import Xv6.Umalloc.Heap
import Xv6.Vm.Grow

namespace Xv6.Umalloc

open Fallible Function List

/-! ## The kernel -/

structure Kern where
  p : Vm.Uproc
  m : Vm.Mem

/-- what sys_sbrk returns after growproc: the old size, or none for -1 -/
def answer (k : Kern) : Except Vm.Fault ((Bool × Vm.Uproc) × Vm.Mem) → Option ℕ × Kern
  | .ok ((true, p), m) => (some k.p.sz, ⟨p, m⟩)
  | .ok ((false, p), m) => (none, ⟨p, m⟩)
  | .error _ => (none, k)

def sysSbrk (L : Vm.Link) (n : ℕ) (k : Kern) : Option ℕ × Kern := answer k (Vm.growproc L k.p (int32 n) k.m)

/-- the page of a byte is present -/
def Kern.present (k : Kern) (a : ℕ) : Bool := (Vm.view k.m.page k.p.pgdir (a / 4096)).isSome

def machine (L : Vm.Link) (base : ℕ) : Sys Kern where
  base := base
  sbrk := sysSbrk L
  valid k a := k.present a && k.present (a + 7)

structure Good (L : Vm.Link) (k : Kern) : Prop where
  sound : Vm.Sound L k.m k.p.pgdir
  size : k.p.sz < Vm.KERNBASE
  pages : Vm.Exactly (Vm.view k.m.page k.p.pgdir) k.p.sz

open Classical in
/-- the end of the process's memory -/
noncomputable def memTop (L : Vm.Link) (k : Kern) : ℕ := if Good L k then k.p.sz else 0

variable {L : Vm.Link} {S : ℕ → Prop} {F : Vm.Ram} {V : Vm.View} {K : ℕ → Option ℕ} {k k' : Kern} {a base n nbytes sz : ℕ}

theorem memTop_good (h : Good L k) : memTop L k = k.p.sz := if_pos h

theorem good_of_top (h : 0 < memTop L k) : Good L k := by
  by_contra hno
  rw [memTop, if_neg hno] at h
  exact absurd h (lt_irrefl _)

theorem present_below (h : Good L k) (ha : a < k.p.sz) : k.present a = true := by
  have hsz := h.size
  simp only [Vm.KERNBASE] at hsz
  refine (h.pages _ ?_).2 ?_
  · simp only [Vm.UPAGES]
    omega
  · unfold Vm.pages
    omega

/-- the address space after a growth -/
theorem exactly_resized {V : Vm.View} {sz new : ℕ} (h : Vm.Exactly V sz) : Vm.Exactly (Vm.resized V sz new) new := by
  intro v hv
  unfold Vm.resized
  by_cases hnew : v < Vm.pages new
  · rw [if_pos hnew]
    by_cases hold : v < Vm.pages sz
    · rw [if_pos hold]
      exact iff_of_true ((h v hv).2 hold) hnew
    · rw [if_neg hold]
      exact iff_of_true rfl hnew
  · rw [if_neg hnew]
    exact iff_of_false (by simp) hnew

theorem exactly_congr {V V' : Vm.View} {sz : ℕ} (h : Vm.Exactly V sz) (hV : ∀ v, v < Vm.UPAGES → V' v = V v) : Vm.Exactly V' sz := by
  intro v hv
  rw [hV v hv]
  exact h v hv

/-- the kernel's memory, and the abstract address space of the process in it -/
structure Space (L : Vm.Link) (S : ℕ → Prop) (F : Vm.Ram) (k : Kern) (V : Vm.View) (K : ℕ → Option ℕ) : Prop where
  rep : Vm.Rep L S F k.m (some k.p.pgdir) [] V K
  size : k.p.sz < Vm.KERNBASE
  pages : Vm.Exactly V k.p.sz

theorem Space.good (h : Space L S F k V K) : Good L k :=
  ⟨h.rep.sound, h.size, exactly_congr h.pages fun v hv => h.rep.view _ rfl v hv⟩

theorem Good.space (h : Good L k) : Space L (k.m.holds k.p.pgdir) k.m.page k (Vm.view k.m.page k.p.pgdir)
    (Vm.walk k.m.page k.p.pgdir) := ⟨h.sound.rep, h.size, h.pages⟩

theorem sysSbrk_eq {ok : Bool} {p' : Vm.Uproc} {m' : Vm.Mem} (h : Vm.growproc L k.p (int32 n) k.m = .ok ((ok, p'), m')) :
    sysSbrk L n k = (if ok = true then some k.p.sz else none, ⟨p', m'⟩) := by
  rw [sysSbrk, h]
  cases ok <;> rfl

/-- sbrk of a positive number: it fails, or the process grows by so much -/
theorem sysSbrk_grows (h : Space L S F k V K) (hn : 0 < n) (hn' : n < 2 ^ 31) :
    (∃ m', sysSbrk L n k = (none, ⟨k.p, m'⟩) ∧ Space L S F ⟨k.p, m'⟩ V K ∧
      (k.p.sz + n < Vm.KERNBASE → Vm.Full L S F (Vm.pages (k.p.sz + n)))) ∨
    ∃ m', sysSbrk L n k = (some k.p.sz, ⟨{ k.p with sz := k.p.sz + n }, m'⟩) ∧
      Space L S F ⟨{ k.p with sz := k.p.sz + n }, m'⟩ (Vm.resized V k.p.sz (k.p.sz + n)) K := by
  have hint : int32 n = n := int32_eq (by omega) (by omega)
  have hsz : k.p.sz < 2 ^ 31 := h.size
  have hsum : Vm.addInt k.p.sz n = k.p.sz + n := by
    have hadd : (Vm.addInt k.p.sz n : Int) = k.p.sz + n := Vm.addInt_eq (by omega) (by omega)
    omega
  have hwp : wp (fun _ => False) (Vm.growproc L k.p n) (fun r m' =>
      r = (false, k.p) ∧ Space L S F ⟨k.p, m'⟩ V K ∧ (k.p.sz + n < Vm.KERNBASE → Vm.Full L S F (Vm.pages (k.p.sz + n))) ∨
      r = (true, { k.p with sz := k.p.sz + n }) ∧
        Space L S F ⟨{ k.p with sz := k.p.sz + n }, m'⟩ (Vm.resized V k.p.sz (k.p.sz + n)) K) k.m := by
    refine Vm.growproc_grows h.rep h.size h.pages (by omega) (by omega) (fun m' sz hnew hlt h' => .inr ?_)
      fun m' hfull h' => .inl ⟨rfl, ⟨h', h.size, h.pages⟩, fun hlt => ?_⟩
    · have heq : sz = k.p.sz + n := by omega
      subst heq
      exact ⟨rfl, h', hlt, exactly_resized h.pages⟩
    · rw [← hsum]
      refine hfull ?_
      exact_mod_cast hlt
  obtain ⟨r, m', hrun, hr⟩ := wp_total hwp
  rw [← hint] at hrun
  rcases hr with ⟨rfl, hspace, hfull⟩ | ⟨rfl, hspace⟩
  · exact .inl ⟨m', sysSbrk_eq hrun, hspace, hfull⟩
  · exact .inr ⟨m', sysSbrk_eq hrun, hspace⟩

/-- **growproc keeps the promise that the heap rests on** -/
theorem machine_grows (L : Vm.Link) (base : ℕ) : Grows (machine L base) (memTop L) := by
  refine ⟨fun k => ?_, fun k a ha => ?_, fun k k' n htop hn hn' hcall => ?_, fun k k' n a htop hn hn' hcall => ?_⟩
  · by_cases hgood : Good L k
    · have hsz := hgood.size
      rw [memTop_good hgood]
      simp only [Vm.KERNBASE] at hsz
      omega
    · rw [memTop, if_neg hgood]
      decide
  · have hgood : Good L k := good_of_top (by omega)
    rw [memTop_good hgood] at ha
    have hfirst := present_below hgood (show a < k.p.sz by omega)
    have hlast := present_below hgood (show a + 7 < k.p.sz by omega)
    simp only [machine, hfirst, hlast, Bool.and_self]
  · have hgood := good_of_top htop
    rcases sysSbrk_grows hgood.space hn hn' with ⟨m', hres, hspace, -⟩ | ⟨m', hres, -⟩
    · obtain rfl := (Prod.mk.inj (hcall.symm.trans hres)).2
      rw [memTop_good hgood, memTop_good hspace.good]
    · exact absurd (Prod.mk.inj (hcall.symm.trans hres)).1 (by simp)
  · have hgood := good_of_top htop
    rcases sysSbrk_grows hgood.space hn hn' with ⟨m', hres, -, -⟩ | ⟨m', hres, hspace⟩
    · exact absurd (Prod.mk.inj (hcall.symm.trans hres)).1 (by simp)
    · obtain ⟨ha, rfl⟩ := Prod.mk.inj (hcall.symm.trans hres)
      obtain rfl := Option.some.inj ha
      rw [memTop_good hgood, memTop_good hspace.good]
      exact ⟨le_refl _, le_refl _⟩

/-! ## The requests that are served -/

def Safe (L : Vm.Link) (nbytes : ℕ) : Prop :=
  ∀ (base : ℕ) (k : Kern), Good L k → 0 < base → base + 8 ≤ k.p.sz → ∀ (ptr size : ℕ → ℕ) (es : List Event),
    (∀ e ∈ es, e.bytes ≤ 2 ^ 31 - 16) → ∀ (fuel : ℕ), 2 * es.length + 3 ≤ fuel →
      ∀ w, run (machine L base) fuel (start ptr size k) es = .ok w →
        ∃ r st, malloc (logged (machine L base)) fuel nbytes w.st = .ok (r, st) ∧ (r = 0 ∨ r + nbytes ≤ st.kern.1.p.sz)

theorem nunits_small (h : nbytes ≤ 2 ^ 31 - 16) : 8 * nunits nbytes < 2 ^ 31 := by
  unfold nunits
  rw [uint32_eq (by omega)]
  omega

theorem safe_of_small (h : nbytes ≤ 2 ^ 31 - 16) : Safe L nbytes := by
  intro base k hgood hbase hlow ptr size es hes fuel hfuel w hrun
  have hg := machine_grows L base
  have hstart : Inv (machine L base) (memTop L) 0 (start ptr size k) := start_inv (by rw [memTop_good hgood]; exact hlow)
  have hrounds : 2 * (0 + es.length) + 3 ≤ fuel := by omega
  obtain ⟨w', hrun', hw⟩ := run_inv hg hbase hstart (fun e he => nunits_small (hes e he)) hrounds
  obtain rfl := Except.ok.inj (hrun.symm.trans hrun')
  rw [Nat.zero_add] at hw
  obtain ⟨r, st, hcall, N, hheap, -⟩ := wp_total (wp_malloc_inv hg hbase hw (nunits_small h) hfuel)
  refine ⟨r, st, hcall, ?_⟩
  by_cases hr : r = 0
  · exact .inl hr
  rw [if_neg hr] at hheap
  have habove : base + 8 ≤ r - 8 := live_above hheap mem_cons_self
  have hfit : nbytes + 8 ≤ 8 * nunits nbytes := nunits_fit (by omega)
  -- the last byte of the block
  have hin : In (blockOf (r, nbytes)) (r - 8 + 8 * nunits nbytes - 1) := by
    simp only [In, blockOf]
    omega
  have hlast := (hheap.range _ ((hheap.exact _).2 (.inr ⟨_, mem_cons_self, hin⟩))).2
  simp only at hlast
  have hgood' : Good L st.kern.1 := good_of_top (by omega)
  rw [memTop_good hgood'] at hlast
  refine .inr ?_
  omega

/-! ## The requests that are not -/

/-- sbrk of zero or of a negative number that leaves some memory: it returns the old size, where no page is -/
theorem sysSbrk_back (h : Good L k) (hz : 0 < k.p.sz) (hdvd : 4096 ∣ k.p.sz) (hn : int32 n ≤ 0) (hn' : -2 ^ 31 ≤ int32 n)
    (hne : (k.p.sz : Int) + int32 n ≠ 0) : ∃ k', sysSbrk L n k = (some k.p.sz, k') ∧ k'.present k.p.sz = false := by
  have hsz : k.p.sz < 2 ^ 31 := h.size
  have hpage : k.p.sz / 4096 < Vm.UPAGES := by
    simp only [Vm.UPAGES]
    omega
  have hpages : Vm.pages k.p.sz = k.p.sz / 4096 := by
    unfold Vm.pages
    omega
  have hnone : Vm.view k.m.page k.p.pgdir (k.p.sz / 4096) = none := by
    cases hview : Vm.view k.m.page k.p.pgdir (k.p.sz / 4096) with
    | none => rfl
    | some x =>
      have hlt := (h.pages _ hpage).1 (by rw [hview]; rfl)
      omega
  rcases hn.lt_or_eq with hneg | hzero
  · -- growproc takes pages away, or the sum wraps around
    have hnew : Vm.addInt k.p.sz (int32 n) ≠ 0 := by
      unfold Vm.addInt
      omega
    have hmin : min k.p.sz (Vm.addInt k.p.sz (int32 n)) ≠ 0 := by omega
    have hwp : wp (fun _ => False) (Vm.growproc L k.p (int32 n)) (fun r m' =>
        r.1 = true ∧ r.2.pgdir = k.p.pgdir ∧ Vm.view m'.page k.p.pgdir (k.p.sz / 4096) = none) k.m := by
      refine Vm.growproc_shrinks h.sound.rep h.size hneg fun m' h' => ?_
      rw [if_neg hmin]
      refine ⟨rfl, rfl, (h'.view _ rfl _ hpage).trans ?_⟩
      unfold Vm.cut
      split_ifs
      · rfl
      · exact hnone
    obtain ⟨⟨ok, p'⟩, m', hrun, hok, hdir, hview⟩ := wp_total hwp
    simp only at hok hdir
    subst hok
    refine ⟨⟨p', m'⟩, sysSbrk_eq hrun, ?_⟩
    rw [Kern.present, hdir, hview]
    rfl
  · have hrun : Vm.growproc L k.p (int32 n) k.m = .ok ((true, k.p), k.m) := by
      rw [Vm.growproc, hzero, if_neg (lt_irrefl _), if_neg (lt_irrefl _)]
      rfl
    refine ⟨⟨k.p, k.m⟩, sysSbrk_eq hrun, ?_⟩
    rw [Kern.present, hnone]
    rfl

variable {κ : Type} {T : Sys κ} {s : St κ} {fuel nu : ℕ} {E : Fault → Prop} {top : κ → ℕ}

/-- morecore's write to a block that is not there -/
theorem wp_morecore_fault {Q : Option ℕ → St κ → Prop} {k' : κ} (hcall : T.sbrk (uint32 (atLeast nu * 8)) s.kern = (some a, k'))
    (hvalid : T.valid k' a = false) (hE : E (.page a)) : wp E (morecore T fuel nu) Q s := by
  unfold morecore sbrk
  simp only [wp_bind, wp_get, wp_set, wp_pure]
  rw [← atLeast, hcall]
  unfold setSize touch
  simp only [wp_bind, wp_get, wp_ite, wp_throw]
  refine ⟨fun hv => ?_, fun _ => hE⟩
  rw [hvalid] at hv
  cases hv

/-- malloc with an empty list, when sbrk returns memory that is not there -/
theorem wp_malloc_fault {Q : ℕ → St κ → Prop} {k' : κ} (hg : Grows T top) (hf : FreeList T top s [(T.base, 0)])
    (hcall : T.sbrk (uint32 (atLeast (nunits nbytes) * 8)) s.kern = (some a, k')) (hvalid : T.valid k' a = false) (hfuel : 0 < fuel)
    (hE : E (.page a)) : wp E (malloc T fuel nbytes) Q s := by
  have hstart : s.freep = T.base := mem_singleton.1 hf.start
  have hbase := hf.base
  have hnext : s.ptr T.base = T.base := ring_next (A := []) (B := []) hf.ring
  have hmapped := freeList_mapped hg hf _ mem_cons_self
  unfold malloc prepare
  refine wp_bind.2 (wp_bind.2 (wp_get.2 ?_))
  rw [if_neg (by omega)]
  refine wp_pure.2 (wp_bind.2 (wp_get.2 (wp_bind.2 (wp_getPtr (by rwa [hstart]) (wp_bind.2 ?_)))))
  refine wp_walk (l := []) hg hf (nunits_pos nbytes) hf.start ?_ (fun x hx => absurd hx not_mem_nil) not_mem_nil hfuel
    (fun h s' N' _ ht => ?_) fun _ m _ => wp_morecore_fault hcall hvalid hE
  · rw [hstart]
    exact linked_cons.2 ⟨hnext, isChain_singleton _⟩
  · -- base has no units to take
    have hpos := nunits_pos nbytes
    obtain ⟨hx, hx'⟩ := covers_singleton.1 ((ht.covers h).2 (.inr ⟨le_refl _, by simp only; omega⟩))
    simp only at hx hx'
    omega

theorem malloc_first_fault {k k' : κ} (hg : Grows T top) (hbase : 0 < T.base) (hlow : T.base + 8 ≤ top k)
    (hcall : T.sbrk (uint32 (atLeast (nunits nbytes) * 8)) k = (some a, k')) (hvalid : T.valid k' a = false) (hfuel : 0 < fuel)
    (ptr size : ℕ → ℕ) : ∀ r st, malloc (logged T) fuel nbytes (start ptr size k).st ≠ .ok (r, st) := by
  have hg' := grows_logged hg
  have hlist : FreeList (logged T) (fun k => top k.1) ⟨update ptr T.base T.base, update size T.base 0, T.base, k, []⟩
      [(T.base, 0)] := freeList_base (s := (start ptr size k).st) hbase hlow
  have hcall' := logged_call (k := (k, [])) hcall
  have hwp : wp (fun _ => True) (malloc (logged T) fuel nbytes) (fun _ _ => False) (start ptr size k).st :=
    wp_malloc_first hg' rfl hbase hlow (wp_malloc_fault hg' hlist hcall' hvalid hfuel trivial)
  intro r st hrun
  exact wp_ok hwp hrun

/-- the units and bytes of a request above 2^31 - 16 that does not wrap around -/
theorem huge_units (hlow : 2 ^ 31 - 16 < nbytes) (hhigh : nbytes ≤ 2 ^ 32 - 8) :
    int32 (uint32 (atLeast (nunits nbytes) * 8)) = 8 * (nunits nbytes : Int) - 2 ^ 32 ∧
      2 ^ 31 ≤ 8 * nunits nbytes ∧ 8 * nunits nbytes ≤ 2 ^ 32 := by
  have hunits : nunits nbytes = (nbytes + 7) / 8 + 1 := by
    unfold nunits
    rw [uint32_eq (by omega)]
  have hask : atLeast (nunits nbytes) = nunits nbytes := by
    unfold atLeast
    rw [if_neg (by omega)]
  refine ⟨?_, by omega, by omega⟩
  rw [hask]
  by_cases hwrap : nunits nbytes * 8 < 2 ^ 32
  · rw [uint32_eq hwrap]
    rw [int32_high (by omega) (by omega)]
    omega
  · have hzero : uint32 (nunits nbytes * 8) = 0 := by
      unfold uint32
      omega
    rw [hzero, Nat.cast_zero, int32_eq (by omega) (by omega)]
    omega

/-- **a request above 2^31 - 16 bytes faults** in the first call of a process whose size is in whole pages -/
theorem malloc_faults (h : Good L k) (hbase : 0 < base) (hlow : base + 8 ≤ k.p.sz) (hdvd : 4096 ∣ k.p.sz) (hmin : 2 ^ 31 - 16 < nbytes)
    (hmax : nbytes ≤ 2 ^ 32 - 8) (hne : k.p.sz + 8 * nunits nbytes ≠ 2 ^ 32) (ptr size : ℕ → ℕ) (hfuel : 3 ≤ fuel) :
    ∀ r st, malloc (logged (machine L base)) fuel nbytes (start ptr size k).st ≠ .ok (r, st) := by
  obtain ⟨hint, hge, hle⟩ := huge_units hmin hmax
  obtain ⟨k', hcall, habsent⟩ := sysSbrk_back (n := uint32 (atLeast (nunits nbytes) * 8)) h (by omega) hdvd (by omega) (by omega)
    (by omega)
  have hvalid : (machine L base).valid k' k.p.sz = false := by
    simp only [machine, habsent, Bool.false_and]
  exact malloc_first_fault (machine_grows L base) hbase (by rwa [memTop_good h]) hcall hvalid (by omega) ptr size

/-- the first call, when sbrk does not fail -/
theorem malloc_first_returns {k : κ} (hg : Grows T top) (hbase : 0 < T.base) (hlow : T.base + 8 ≤ top k)
    (hsmall : 8 * nunits nbytes < 2 ^ 31) (hcall : ∀ k', T.sbrk (8 * atLeast (nunits nbytes)) k ≠ (none, k')) (hfuel : 3 ≤ fuel)
    (ptr size : ℕ → ℕ) :
    ∃ r st, malloc (logged T) fuel nbytes (start ptr size k).st = .ok (r, st) ∧ r ≠ 0 ∧ 0 < top st.kern.1 := by
  have hg' := grows_logged hg
  have hlist : FreeList (logged T) (fun k => top k.1) ⟨update ptr T.base T.base, update size T.base 0, T.base, k, []⟩
      [(T.base, 0)] := freeList_base (s := (start ptr size k).st) hbase hlow
  refine wp_total (wp_malloc_first hg' rfl hbase hlow
    (wp_malloc_ready hg' hlist hsmall hfuel (fun k' hk => ?_) fun h s' N' got hs => ?_))
  · obtain ⟨r, hr⟩ : ∃ r, r = T.sbrk (8 * atLeast (nunits nbytes)) k := ⟨_, rfl⟩
    obtain ⟨r, k1⟩ := r
    cases r with
    | none => exact absurd hr.symm (hcall k1)
    | some a =>
      have hsome := logged_call (k := (k, [])) hr.symm
      exact absurd (Prod.mk.inj (hk.symm.trans hsome)).1 (by simp)
  · exact ⟨Nat.succ_ne_zero _, (Nat.succ_pos _).trans_le ((Nat.le_add_left ..).trans hs.free.low)⟩

/-! ## A process with room to grow -/

abbrev Roomy (k : Kern) (V : Vm.View) (K : ℕ → Option ℕ) : Prop :=
  Space Vm.smallLink (fun p => p ∈ Vm.manyFree.freelist) Vm.manyFree.page k V K

theorem roomy_grows (h : Roomy k V K) (hn : 0 < n) (hsum : k.p.sz + n < 2 ^ 22) :
    ∃ m', sysSbrk Vm.smallLink n k = (some k.p.sz, ⟨{ k.p with sz := k.p.sz + n }, m'⟩) ∧
      Roomy ⟨{ k.p with sz := k.p.sz + n }, m'⟩ (Vm.resized V k.p.sz (k.p.sz + n)) K := by
  rcases sysSbrk_grows h hn (by omega) with ⟨m', -, -, hfull⟩ | hok
  · refine absurd (hfull ?_) (Vm.manyFree_enough ?_)
    · simp only [Vm.KERNBASE]
      omega
    · unfold Vm.pages
      omega
  · exact hok

theorem exists_roomy (hsz : 0 < sz) (hsz' : sz < 2 ^ 22) : ∃ k V K, Roomy k V K ∧ k.p.sz = sz := by
  have hset : wp (fun _ => False) (Vm.setupkvm Vm.smallLink) (fun r m' => ∃ d, r = some d ∧
      Vm.Rep Vm.smallLink (fun p => p ∈ Vm.manyFree.freelist) Vm.manyFree.page m' (some d) [] (fun _ => none)
        (Vm.kernelMap Vm.smallLink)) Vm.manyFree :=
    Vm.wp_setupkvm Vm.manyFree_rep (fun d m' h' => ⟨d, rfl, h'⟩) fun _ _ _ hfull => absurd hfull (Vm.manyFree_enough (by decide))
  obtain ⟨_, m, -, d, -, hrep⟩ := wp_total hset
  have hempty : Roomy ⟨⟨d, 0, 0, 0, 0, [], 0, 0⟩, m⟩ (fun _ => none) (Vm.kernelMap Vm.smallLink) := by
    have hlt : 0 < Vm.KERNBASE := by decide
    refine ⟨hrep, hlt, fun v _ => ?_⟩
    have hzero : Vm.pages 0 = 0 := rfl
    simp only [hzero]
    exact iff_of_false (by simp) (Nat.not_lt_zero v)
  obtain ⟨m', -, hroomy⟩ := roomy_grows hempty hsz (by simp only; omega)
  exact ⟨_, _, _, hroomy, Nat.zero_add sz⟩

/-- **from 2^32 - 7 bytes on the first call returns a block without any bytes** -/
theorem malloc_too_small (h : Roomy k V K) (hbase : 0 < base) (hlow : base + 8 ≤ k.p.sz) (hsz : k.p.sz < 2 ^ 20)
    (hmin : 2 ^ 32 - 7 ≤ nbytes) (hmax : nbytes < 2 ^ 32) (hfuel : 3 ≤ fuel) (ptr size : ℕ → ℕ) :
    ∃ r st, malloc (logged (machine Vm.smallLink base)) fuel nbytes (start ptr size k).st = .ok (r, st) ∧ r ≠ 0 ∧
      st.kern.1.p.sz < nbytes := by
  have hunits : nunits nbytes = 1 := by
    unfold nunits uint32
    omega
  have hask : atLeast 1 = 4096 := rfl
  obtain ⟨m', hgrow, -⟩ := roomy_grows (n := 32768) h (by decide) (by omega)
  have hcall : ∀ k', (machine Vm.smallLink base).sbrk (8 * atLeast (nunits nbytes)) k ≠ (none, k') := by
    intro k' hk
    rw [hunits, hask] at hk
    exact absurd (Prod.mk.inj (hk.symm.trans hgrow)).1 (by simp)
  have hsmall : 8 * nunits nbytes < 2 ^ 31 := by
    rw [hunits]
    decide
  obtain ⟨r, st, hrun, hr, htop⟩ := malloc_first_returns (machine_grows Vm.smallLink base) hbase (by rwa [memTop_good h.good])
    hsmall hcall hfuel ptr size
  have hsz' := (good_of_top htop).size
  simp only [Vm.KERNBASE] at hsz'
  exact ⟨r, st, hrun, hr, by omega⟩

/-! ## All requests -/

/-- **malloc is safe exactly for requests of at most 2^31 - 16 bytes** -/
theorem malloc_safe_iff (hn : nbytes < 2 ^ 32) : (∀ L, Safe L nbytes) ↔ nbytes ≤ 2 ^ 31 - 16 := by
  refine ⟨fun hsafe => ?_, fun hsmall L => safe_of_small hsmall⟩
  by_contra hlarge
  -- one page of memory, or two if the request is for minus one page
  obtain ⟨sz, hsz, hdvd, hne⟩ : ∃ sz, (sz = 4096 ∨ sz = 8192) ∧ 4096 ∣ sz ∧ sz + 8 * nunits nbytes ≠ 2 ^ 32 := by
    by_cases heq : 4096 + 8 * nunits nbytes = 2 ^ 32
    · exact ⟨8192, .inr rfl, by decide, by omega⟩
    · exact ⟨4096, .inl rfl, by decide, heq⟩
  have hroom : ∃ k V K, Roomy k V K ∧ k.p.sz = sz := exists_roomy (by omega) (by omega)
  obtain ⟨k, V, K, hroomy, rfl⟩ := hroom
  obtain ⟨r, st, hrun, hres⟩ := hsafe Vm.smallLink 16 k hroomy.good (by decide) (by omega) (fun _ => 0) (fun _ => 0) []
    (fun e he => absurd he not_mem_nil) 3 (by decide) _ rfl
  by_cases hwrap : nbytes ≤ 2 ^ 32 - 8
  · exact malloc_faults hroomy.good (by decide) (by omega) hdvd (by omega) hwrap hne _ _ (le_refl 3) r st hrun
  · have hsmall : 0 < 16 → ∃ r st, malloc (logged (machine Vm.smallLink 16)) 3 nbytes (start (fun _ => 0) (fun _ => 0) k).st =
        .ok (r, st) ∧ r ≠ 0 ∧ st.kern.1.p.sz < nbytes := fun hpos =>
      malloc_too_small hroomy hpos (by omega) (by omega) (by omega) hn (le_refl 3) (fun _ => 0) fun _ => 0
    obtain ⟨r', st', hrun', hr', hsz'⟩ := hsmall (by decide)
    obtain ⟨rfl, rfl⟩ := Prod.mk.inj (Except.ok.inj (hrun.symm.trans hrun'))
    rcases hres with hzero | hbelow
    · exact hr' hzero
    · omega

/-- A request of a hundred bytes. -/
theorem malloc_safe_iff_hundred : 100 < 2 ^ 32 ∧ ∀ L, Safe L 100 := ⟨by decide, (malloc_safe_iff (by decide)).2 (by decide)⟩

/-- A first request of 2 GByte kills the process, and one of 4 GByte less one byte returns a pointer. -/
theorem malloc_unsafe : ∃ k, Good Vm.smallLink k ∧ k.p.sz = 4096 ∧
    (∀ r st, malloc (logged (machine Vm.smallLink 16)) 3 (2 ^ 31) (start (fun _ => 0) (fun _ => 0) k).st ≠ .ok (r, st)) ∧
    ∃ r st, malloc (logged (machine Vm.smallLink 16)) 3 (2 ^ 32 - 1) (start (fun _ => 0) (fun _ => 0) k).st = .ok (r, st) ∧ r ≠ 0 ∧
      st.kern.1.p.sz < 2 ^ 32 - 1 := by
  have hroom : ∃ k V K, Roomy k V K ∧ k.p.sz = 4096 := exists_roomy (by decide) (by decide)
  obtain ⟨k, V, K, hroomy, hsz⟩ := hroom
  refine ⟨k, hroomy.good, hsz, ?_, ?_⟩
  · exact malloc_faults hroomy.good (by decide) (by omega) (by rw [hsz]) (by decide) (by decide)
      (by rw [hsz, nunits, uint32_eq (by decide)]; decide) _ _ (le_refl 3)
  · exact malloc_too_small hroomy (by decide) (by omega) (by omega) (by decide) (by decide) (le_refl 3) _ _

end Xv6.Umalloc
