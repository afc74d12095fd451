/-
malloc's search (umalloc.c) over the free list.

- `Grows S top`: what the system promises of sbrk, for less than 2 GByte: it fails, or returns a range above all memory that the
  process had; top is the end of that memory, and headers below it are mapped.
- `FreeList S top s N`: the ring N, with freep in it, in that memory.
- `Served S top s s' N N' h nu got`: the block of nu units at h has left the list, which has first grown by got.

Results:
- `wp_take`: nu units of a block of the list;
- `wp_morecore`: the list grows by a block that is large enough;
- `wp_mallocLoop`: **malloc's loop ends: it returns a block, or 0 and the list is as before**.
-/
import Xv6.Umalloc.Ring

namespace Xv6.Umalloc

open Fallible Function List

structure Grows {κ : Type} (S : Sys κ) (top : κ → ℕ) : Prop where
  limit : ∀ k, top k < 2 ^ 32
  mapped : ∀ k a, a + 8 ≤ top k → S.valid k a = true
  fail : ∀ k k' n, 0 < top k → 0 < n → n < 2 ^ 31 → S.sbrk n k = (none, k') → top k ≤ top k'
  grow : ∀ k k' n a, 0 < top k → 0 < n → n < 2 ^ 31 → S.sbrk n k = (some a, k') → top k ≤ a ∧ a + n ≤ top k'

variable {κ : Type} {S : Sys κ} {top : κ → ℕ} {s s' : St κ} {N N' A B : List Block} {E : Fault → Prop} {Q : ℕ → St κ → Prop}
  {h k n nu p prevp x : ℕ}

structure FreeList (S : Sys κ) (top : κ → ℕ) (s : St κ) (N : List Block) : Prop where
  ring : Ring S s N
  start : s.freep ∈ N.map Prod.fst
  base : 0 < S.base
  low : S.base + 8 ≤ top s.kern
  tops : ∀ b ∈ N, b.1 + 8 * b.2 ≤ top s.kern

theorem freeList_mapped (hg : Grows S top) (h : FreeList S top s N) : Mapped S s N := by
  intro b hb
  obtain ⟨L, hL⟩ := ring_base h.ring
  have htop := h.tops b hb
  have hlow := h.low
  have hpos := h.ring.pos
  rw [hL] at hb hpos
  refine hg.mapped _ _ ?_
  rcases mem_cons.1 hb with rfl | hb
  · exact hlow
  · have hb0 := hpos b hb
    omega

/-! ## Taking units of a block -/

/-- the block behind prevp, when it is not base -/
theorem ring_succ (h : Ring S s N) (hprev : prevp ∈ N.map Prod.fst) (hn : 0 < s.size (s.ptr prevp)) :
    ∃ A k B, N = A ++ (prevp, k) :: (s.ptr prevp, s.size (s.ptr prevp)) :: B := by
  obtain ⟨A, k, C, rfl⟩ := mem_nodes hprev
  have hnext := ring_next h
  cases C with
  | nil =>
    have hbase := h.sizes _ (base_mem h)
    rw [hnext, nextOf, hbase] at hn
    exact absurd hn (lt_irrefl _)
  | cons c B =>
    have hsize := h.sizes c (mem_append_right A (mem_cons_of_mem _ mem_cons_self))
    refine ⟨A, k, B, ?_⟩
    rw [hnext, nextOf, hsize]

/-- nu units have left the list -/
structure Taken (s s' : St κ) (N N' : List Block) (h nu : ℕ) : Prop where
  kern : s'.kern = s.kern
  size : s'.size h = nu
  length : N'.length ≤ N.length
  covers : ∀ x, Covers N x ↔ Covers N' x ∨ In (h, nu) x
  apart : ∀ x, In (h, nu) x → ¬ Covers N' x
  sizes : ∀ y, ¬ Covers N y → s'.size y = s.size y

/-- no other block of the list has a byte of this one -/
theorem ring_apart (h : Ring S s (A ++ (p, n) :: B)) (hx : In (p, n) x) : ¬ Covers A x ∧ ¬ Covers B x := by
  obtain ⟨hA, hB, -, -, -⟩ := ring_order h
  obtain ⟨hx1, hx2⟩ := hx
  simp only at hx1 hx2
  constructor
  · intro hc
    obtain ⟨b, hb, -, hbx⟩ := hc
    have hbp := hA b hb
    omega
  · intro hc
    obtain ⟨b, hb, hbx, -⟩ := hc
    have hpb := hB b hb
    omega

theorem covers_nil : ¬ Covers [] x := by
  intro hc
  obtain ⟨b, hb, -⟩ := hc
  cases hb

theorem covers_singleton {b : Block} : Covers [b] x ↔ In b x := by
  rw [covers_cons]
  exact or_iff_left covers_nil

/-- the block leaves the list -/
theorem wp_take_all (hg : Grows S top) (hf : FreeList S top s (A ++ (prevp, k) :: (p, nu) :: B))
    (hQ : ∀ s' N', FreeList S top s' N' → Taken s s' (A ++ (prevp, k) :: (p, nu) :: B) N' p nu → Q p s') :
    wp E (take S nu prevp p nu) Q s := by
  have hmap := freeList_mapped hg hf
  have hpm : (p, nu) ∈ A ++ (prevp, k) :: (p, nu) :: B := mem_append_right A (mem_cons_of_mem _ mem_cons_self)
  have hpv := hmap _ hpm
  have hprev := hmap (prevp, k) (mem_append_right A mem_cons_self)
  obtain ⟨hA, hB, -, hgaps, -⟩ := ring_order hf.ring
  obtain ⟨hlower, hupper⟩ := ring_links hf.ring
  obtain ⟨-, hpB⟩ := linked_cons.1 hupper
  have hrest : ∀ b ∈ A ++ (prevp, k) :: B, b ∈ A ++ (prevp, k) :: (p, nu) :: B := by
    intro b hb
    rcases mem_append.1 hb with hb | hb
    · exact mem_append_left _ hb
    · rcases mem_cons.1 hb with rfl | hb
      · exact mem_append_right A mem_cons_self
      · exact mem_append_right A (mem_cons_of_mem _ (mem_cons_of_mem _ hb))
  have hAne : ∀ y ∈ A.map Prod.fst, y ≠ prevp := by
    intro y hy
    obtain ⟨b, hb, rfl⟩ := mem_map.1 hy
    have hlt := hA b hb
    omega
  have hBne : ∀ b ∈ B, b.1 ≠ prevp := by
    intro b hb
    have hlt := hB b (mem_cons_of_mem _ hb)
    omega
  unfold take setFreep
  rw [if_pos rfl]
  refine wp_bind.2 (wp_getPtr hpv (wp_bind.2 (wp_setPtr hprev (wp_bind.2 (wp_modify.2 (wp_pure.2 ?_))))))
  refine hQ _ (A ++ (prevp, k) :: B) ⟨?_, ?_, hf.base, hf.low, fun b hb => hf.tops b (hrest b hb)⟩
    ⟨rfl, hf.ring.sizes _ hpm, ?_, fun x => ?_, fun x hx => ?_, fun _ _ => rfl⟩
  · refine ring_replace hf.ring ?_ ?_ (fun b hb => hf.ring.sizes b (hrest b hb)) (pairwise_cons.1 hgaps).2
      (fun c hc => hB c (mem_cons_of_mem _ hc)) (fun c hc => ring_pos hf.ring (mem_cons_of_mem _ hc)) (.inl rfl)
    · exact linked_congr hlower fun y hy => update_of_ne (hAne y hy) _ _
    · exact relink hpB (fun b hb => update_of_ne (hBne b hb) _ _) (update_self ..)
  · rw [map_append, map_cons]
    exact mem_append_right _ mem_cons_self
  · simp only [length_append, length_cons]
    omega
  · rw [covers_append, covers_append, covers_cons, covers_cons, covers_cons]
    tauto
  · have hring := hf.ring
    rw [← singleton_append, ← append_assoc] at hring
    obtain ⟨hnA, hnB⟩ := ring_apart hring hx
    rw [covers_append, covers_singleton] at hnA
    rw [covers_append, covers_cons]
    tauto

/-- the upper part of the block leaves the list -/
theorem wp_take_part (hg : Grows S top) (hf : FreeList S top s (A ++ (p, n) :: B)) (hp : p ≠ S.base)
    (hprev : prevp ∈ (A ++ (p, n) :: B).map Prod.fst) (hnu : 0 < nu) (hlt : nu < n)
    (hQ : ∀ s' N', FreeList S top s' N' → Taken s s' (A ++ (p, n) :: B) N' (p + 8 * (n - nu)) nu → Q (p + 8 * (n - nu)) s') :
    wp E (take S nu prevp p n) Q s := by
  have hmap := freeList_mapped hg hf
  have hpm : (p, n) ∈ A ++ (p, n) :: B := mem_append_right A mem_cons_self
  have hlim := hg.limit s.kern
  have htop := hf.tops _ hpm
  obtain ⟨hA, hB, -, hgaps, -⟩ := ring_order hf.ring
  obtain ⟨hlower, hupper⟩ := ring_links hf.ring
  simp only at htop
  have hleft : uint32 (n + (2 ^ 32 - nu)) = n - nu := by
    unfold uint32
    omega
  have hh : addUnits p (n - nu) = p + 8 * (n - nu) := by
    unfold addUnits
    exact uint32_eq (by omega)
  have hin : In (p, n) (p + 8 * (n - nu)) := by
    simp only [In]
    omega
  obtain ⟨hnA, hnB⟩ := ring_apart hf.ring hin
  have hAsize : ∀ b ∈ A, b.1 ≠ p + 8 * (n - nu) ∧ b.1 ≠ p := by
    intro b hb
    have hbp := hA b hb
    omega
  have hBsize : ∀ b ∈ B, b.1 ≠ p + 8 * (n - nu) ∧ b.1 ≠ p := by
    intro b hb
    have hpb := hB b hb
    omega
  unfold take setFreep
  rw [if_neg hlt.ne', hleft, hh]
  refine wp_bind.2 (wp_setSize (hmap _ hpm) (wp_bind.2 (wp_setSize (hg.mapped _ _ (by simp only; omega))
    (wp_bind.2 (wp_modify.2 (wp_pure.2 ?_))))))
  refine hQ _ (A ++ (p, n - nu) :: B) ⟨?_, ?_, hf.base, hf.low, fun b hb => ?_⟩
    ⟨rfl, update_self .., ?_, fun x => ?_, fun x hx => ?_, fun y hy => ?_⟩
  · refine ring_replace hf.ring hlower hupper (fun b hb => ?_) hgaps (fun c hc => ?_) (fun c hc => ring_pos hf.ring hc)
      (.inr ⟨hp, by omega⟩)
    · simp only
      rcases mem_append.1 hb with hb' | hb'
      · rw [update_of_ne (hAsize b hb').1, update_of_ne (hAsize b hb').2]
        exact hf.ring.sizes b (mem_append_left _ hb')
      · rcases mem_cons.1 hb' with rfl | hb'
        · rw [update_of_ne (by simp only; omega), update_self]
        · rw [update_of_ne (hBsize b hb').1, update_of_ne (hBsize b hb').2]
          exact hf.ring.sizes b (mem_append_right A (mem_cons_of_mem _ hb'))
    · have hpc := hB c hc
      omega
  · rw [map_append, map_cons] at hprev ⊢
    exact hprev
  · rcases mem_append.1 hb with hb' | hb'
    · exact hf.tops b (mem_append_left _ hb')
    · rcases mem_cons.1 hb' with rfl | hb'
      · simp only
        omega
      · exact hf.tops b (mem_append_right A (mem_cons_of_mem _ hb'))
  · simp only [length_append, length_cons, le_refl]
  · have hsplit : In (p, n) x ↔ In (p, n - nu) x ∨ In (p + 8 * (n - nu), nu) x := by
      simp only [In]
      omega
    rw [covers_append, covers_append, covers_cons, covers_cons, hsplit]
    tauto
  · have hpart : In (p, n) x ∧ ¬ In (p, n - nu) x := by
      simp only [In] at hx ⊢
      omega
    obtain ⟨hxA, hxB⟩ := ring_apart hf.ring hpart.1
    rw [covers_append, covers_cons]
    tauto
  · rw [covers_append, covers_cons] at hy
    simp only [In] at hy hin
    simp only
    rw [update_of_ne (by omega), update_of_ne (by omega)]

theorem wp_take (hg : Grows S top) (hf : FreeList S top s N) (hprev : prevp ∈ N.map Prod.fst) (hnu : 0 < nu)
    (hle : nu ≤ s.size (s.ptr prevp))
    (hQ : ∀ h s' N', FreeList S top s' N' → Taken s s' N N' h nu → Q h s') :
    wp E (take S nu prevp (s.ptr prevp) (s.size (s.ptr prevp))) Q s := by
  obtain ⟨A, k, B, hN⟩ := ring_succ hf.ring hprev (by omega)
  subst hN
  by_cases hall : s.size (s.ptr prevp) = nu
  · rw [hall] at hf hQ ⊢
    exact wp_take_all hg hf (hQ _)
  · have hne : s.ptr prevp ≠ S.base := by
      intro heq
      have hbase := hf.ring.sizes _ (base_mem hf.ring)
      simp only [← heq] at hbase
      omega
    have happ : A ++ (prevp, k) :: (s.ptr prevp, s.size (s.ptr prevp)) :: B =
        (A ++ [(prevp, k)]) ++ (s.ptr prevp, s.size (s.ptr prevp)) :: B := by
      rw [append_assoc, singleton_append]
    rw [happ] at hf hQ hprev
    exact wp_take_part hg hf hne hprev hnu (by omega) (hQ _)

/-! ## morecore -/

/-- the units that morecore asks for -/
def atLeast (nu : ℕ) : ℕ := if nu < 4096 then 4096 else nu

theorem le_atLeast (nu : ℕ) : nu ≤ atLeast nu := by
  unfold atLeast
  split_ifs <;> omega

theorem atLeast_lt (h : 8 * nu < 2 ^ 31) : 8 * atLeast nu < 2 ^ 31 := by
  unfold atLeast
  split_ifs <;> omega

/-- the list has grown by a block above all memory so far -/
structure Grown (S : Sys κ) (top : κ → ℕ) (s s' : St κ) (N N' : List Block) (a n : ℕ) : Prop where
  free : FreeList S top s' N'
  asked : S.sbrk (8 * n) s.kern = (some a, s'.kern)
  above : top s.kern ≤ a
  below : a + 8 * n ≤ top s'.kern
  length : N'.length ≤ N.length + 1
  large : ∃ b ∈ N', n ≤ b.2
  covers : ∀ x, Covers N' x ↔ Covers N x ∨ In (a, n) x
  sizes : ∀ y, y ≠ a → y ∉ N.map Prod.fst → s'.size y = s.size y

/-- a block that is freed below the top: the last byte of every block is one that the list had or one of the block -/
theorem Freed.freeList {bp bn : ℕ} (h : Freed S s s' N N' bp bn) (hf : FreeList S top s N) (hbp : bp + 8 * bn ≤ top s.kern) :
    FreeList S top s' N' := by
  refine ⟨h.ring, h.start, hf.base, ?_, fun b hb => ?_⟩ <;> rw [h.kern]
  · exact hf.low
  by_cases hb0 : b.2 = 0
  · rcases h.nodes b hb with hba | hbn
    · omega
    · obtain ⟨c, hc, hcb⟩ := mem_map.1 hbn
      have htop := hf.tops c hc
      omega
  · have hlast : Covers N' (b.1 + 8 * b.2 - 1) := ⟨b, hb, by omega, by omega⟩
    rcases (h.covers _).1 hlast with ⟨c, hc, -, hcx⟩ | ⟨-, hax⟩
    · have htop := hf.tops c hc
      omega
    · simp only at hax
      omega

theorem wp_morecore {Q : Option ℕ → St κ → Prop} {fuel : ℕ} (hg : Grows S top) (hf : FreeList S top s N) (hfuel : N.length ≤ fuel)
    (hnu : 8 * nu < 2 ^ 31)
    (hno : ∀ k', S.sbrk (8 * atLeast nu) s.kern = (none, k') → Q none { s with kern := k' })
    (hyes : ∀ a s' N', Grown S top s s' N N' a (atLeast nu) → Q (some s'.freep) s') :
    wp E (morecore S fuel nu) Q s := by
  have hbytes := atLeast_lt hnu
  have hpos : 0 < atLeast nu := by
    unfold atLeast
    split_ifs <;> omega
  have hword : uint32 (atLeast nu * 8) = 8 * atLeast nu := by
    rw [Nat.mul_comm]
    exact uint32_eq (by omega)
  have hlim := hg.limit s.kern
  have htop : 0 < top s.kern := (Nat.succ_pos _).trans_le ((Nat.le_add_left ..).trans hf.low)
  obtain ⟨r, hr⟩ : ∃ r, r = S.sbrk (8 * atLeast nu) s.kern := ⟨_, rfl⟩
  obtain ⟨r, k'⟩ := r
  unfold morecore sbrk
  simp only [wp_bind, wp_get, wp_set, wp_pure]
  rw [← atLeast, hword, ← hr]
  cases r with
  | none => exact wp_pure.2 (hno k' hr.symm)
  | some a =>
    obtain ⟨habove, hbelow⟩ := hg.grow _ _ _ _ htop (by omega) hbytes hr.symm
    have hlim' := hg.limit k'
    have hlow := hf.low
    have hmono : top s.kern ≤ top k' := by omega
    have hanode : ∀ b ∈ N, b.1 ≠ a := by
      intro b hb
      have htop := hf.tops b hb
      obtain ⟨L, hL⟩ := ring_base hf.ring
      have hbpos := hf.ring.pos
      rw [hL] at hb hbpos
      rcases mem_cons.1 hb with rfl | hb
      · simp only
        omega
      · have hb0 := hbpos b hb
        omega
    have hring : Ring S { s with kern := k', size := update s.size a (atLeast nu) } N :=
      ⟨hf.ring.links, fun b hb => (update_of_ne (hanode b hb) _ _).trans (hf.ring.sizes b hb), hf.ring.gaps, hf.ring.first,
        hf.ring.pos⟩
    have hfree : FreeList S top { s with kern := k', size := update s.size a (atLeast nu) } N :=
      ⟨hring, hf.start, hf.base, hlow.trans hmono, fun b hb => (hf.tops b hb).trans hmono⟩
    have hvalid : S.valid k' a = true := hg.mapped _ _ (by omega)
    refine wp_bind.2 (wp_setSize hvalid (wp_bind.2 (wp_freeBlock hring (freeList_mapped hg hfree) hf.start hfuel hvalid hf.base
      (by omega) (update_self ..) hpos (by omega) (fun b hb => ?_) (fun x hx hc => ?_) fun s' N' hfreed => ?_)))
    · have htop := hf.tops b hb
      omega
    · obtain ⟨b, hb, -, hbx⟩ := hc
      have htop := hf.tops b hb
      obtain ⟨hax, -⟩ := hx
      simp only at hax
      omega
    · refine wp_bind.2 (wp_get.2 (wp_pure.2 (hyes a s' N' ⟨hfreed.freeList hfree (by simp only; omega), ?_, habove, ?_, hfreed.length,
        hfreed.large, hfreed.covers, fun y hy hyn => ?_⟩)))
      · rw [hfreed.kern]
        exact hr.symm
      · rw [hfreed.kern]
        simp only
        omega
      · exact (hfreed.sizes y hy hyn).trans (update_of_ne hy _ _)

/-! ## The loop -/

/-- malloc's loop up to freep: it takes a block, or no block on the way is large enough -/
theorem wp_walk {Q : Option ℕ → St κ → Prop} {l : List ℕ} {f : ℕ} (hg : Grows S top) (hf : FreeList S top s N) (hnu : 0 < nu)
    (hprev : prevp ∈ N.map Prod.fst) (hl : Linked s (prevp :: (l ++ [s.freep]))) (hnodes : ∀ x ∈ l, x ∈ N.map Prod.fst)
    (hnot : s.freep ∉ l) (hfuel : l.length < f)
    (htake : ∀ h s' N', FreeList S top s' N' → Taken s s' N N' h nu → Q (some h) s')
    (hend : (∀ x ∈ l ++ [s.freep], s.size x < nu) → ∀ m, f = m + l.length + 1 →
      wp E (morecore S m nu) (fun r t => (r = none → Q none t) ∧
        ∀ p, r = some p → wp E (getPtr S p >>= fun q => mallocLoop S nu m p q) Q t) s) :
    wp E (mallocLoop S nu f prevp (s.ptr prevp)) Q s := by
  have hmap := freeList_mapped hg hf
  have hvalid : ∀ x ∈ N.map Prod.fst, S.valid s.kern x = true := by
    intro x hx
    obtain ⟨b, hb, rfl⟩ := mem_map.1 hx
    exact hmap b hb
  induction l generalizing prevp f with
  | nil =>
    obtain ⟨hp, -⟩ := linked_cons.1 hl
    cases f with
    | zero => exact absurd hfuel (Nat.not_lt_zero _)
    | succ f =>
      rw [mallocLoop, hp]
      refine wp_bind.2 (wp_getSize (hvalid _ hf.start) ?_)
      rw [wp_ite]
      refine ⟨fun hlarge => ?_, fun hsmall => ?_⟩
      · rw [← hp] at hlarge ⊢
        exact wp_bind.2 (wp_take hg hf hprev hnu hlarge fun h s' N' hf' ht => wp_pure.2 (htake h s' N' hf' ht))
      · refine wp_bind.2 (wp_get.2 ?_)
        rw [if_pos rfl]
        refine wp_bind.2 (wp_mono (hend (fun x hx => ?_) f rfl) fun r t hr => ?_)
        · rw [nil_append, mem_singleton] at hx
          subst hx
          exact Nat.lt_of_not_le hsmall
        · cases r with
          | none => exact wp_pure.2 (hr.1 rfl)
          | some p => exact hr.2 p rfl
  | cons y l ih =>
    obtain ⟨hp, hl'⟩ := linked_cons.1 hl
    have hy := hnodes y mem_cons_self
    have hny : s.freep ≠ y := fun heq => hnot (heq ▸ mem_cons_self)
    have hnl : s.freep ∉ l := fun hmem => hnot (mem_cons_of_mem _ hmem)
    cases f with
    | zero => exact absurd hfuel (Nat.not_lt_zero _)
    | succ f =>
      rw [mallocLoop, hp]
      refine wp_bind.2 (wp_getSize (hvalid _ hy) ?_)
      rw [wp_ite]
      refine ⟨fun hlarge => ?_, fun hsmall => ?_⟩
      · rw [← hp] at hlarge ⊢
        exact wp_bind.2 (wp_take hg hf hprev hnu hlarge fun h s' N' hf' ht => wp_pure.2 (htake h s' N' hf' ht))
      · refine wp_bind.2 (wp_get.2 ?_)
        rw [if_neg (Ne.symm hny)]
        refine wp_bind.2 (wp_getPtr (hvalid _ hy) ?_)
        refine ih hy hl' (fun x hx => hnodes x (mem_cons_of_mem _ hx)) hnl (Nat.lt_of_succ_lt_succ hfuel)
          fun hall m hm => hend (fun x hx => ?_) m ?_
        · rcases mem_cons.1 hx with rfl | hx
          · exact Nat.lt_of_not_le hsmall
          · exact hall x hx
        · rw [hm, length_cons]
          omega

structure Served (S : Sys κ) (top : κ → ℕ) (s s' : St κ) (N N' : List Block) (h nu : ℕ) (got : List Block) : Prop where
  free : FreeList S top s' N'
  asked : got = [] ∧ s'.kern = s.kern ∨ ∃ a, got = [(a, atLeast nu)] ∧ S.sbrk (8 * atLeast nu) s.kern = (some a, s'.kern)
  mono : top s.kern ≤ top s'.kern
  fresh : ∀ x, Covers got x → top s.kern ≤ x ∧ x < top s'.kern
  size : s'.size h = nu
  length : N'.length ≤ N.length + 1
  covers : ∀ x, Covers N x ∨ Covers got x ↔ Covers N' x ∨ In (h, nu) x
  apart : ∀ x, In (h, nu) x → ¬ Covers N' x
  sizes : ∀ y, y ∉ N.map Prod.fst → ¬ Covers N y → ¬ Covers got y → s'.size y = s.size y

/-- once around the list from freep -/
theorem freeList_walk (hf : FreeList S top s N) : ∃ l, Linked s (s.freep :: (l ++ [s.freep])) ∧ (∀ x ∈ l, x ∈ N.map Prod.fst) ∧
    s.freep ∉ l ∧ l.length + 1 = N.length ∧ ∀ x ∈ N.map Prod.fst, x ∈ l ++ [s.freep] := by
  obtain ⟨F, G, hN⟩ := append_of_mem hf.start
  have hnodup := ring_nodup hf.ring
  have hcount := congrArg List.length hN
  rw [hN] at hnodup
  obtain ⟨-, hG, hFG⟩ := nodup_append.1 hnodup
  simp only [length_map, length_append, length_cons] at hcount
  refine ⟨G ++ F, ring_walk hf.ring hN, fun x hx => ?_, fun hmem => ?_, ?_, fun x hx => ?_⟩
  · rw [hN]
    rcases mem_append.1 hx with hx | hx
    · exact mem_append_right F (mem_cons_of_mem _ hx)
    · exact mem_append_left _ hx
  · rcases mem_append.1 hmem with hmem | hmem
    · exact (nodup_cons.1 hG).1 hmem
    · exact hFG _ hmem _ mem_cons_self rfl
  · rw [length_append]
    omega
  · rw [hN] at hx
    simp only [mem_append, mem_cons, not_mem_nil, or_false] at hx ⊢
    tauto

/-- **malloc's loop returns a block, or 0 when sbrk fails** -/
theorem wp_mallocLoop {Q : Option ℕ → St κ → Prop} {f : ℕ} (hg : Grows S top) (hf : FreeList S top s N) (hnu : 0 < nu)
    (hsmall : 8 * nu < 2 ^ 31) (hfuel : 2 * N.length + 1 ≤ f)
    (hno : ∀ k', S.sbrk (8 * atLeast nu) s.kern = (none, k') → Q none { s with kern := k' })
    (hyes : ∀ h s' N' got, Served S top s s' N N' h nu got → Q (some h) s') :
    wp E (mallocLoop S nu f s.freep (s.ptr s.freep)) Q s := by
  obtain ⟨l, hl, hnodes, hnot, hlen, -⟩ := freeList_walk hf
  refine wp_walk hg hf hnu hf.start hl hnodes hnot (by omega) (fun h s' N' hf' ht => ?_) fun _ m hm => ?_
  · refine hyes h s' N' [] ⟨hf', .inl ⟨rfl, ht.kern⟩, ?_, fun x hx => absurd hx covers_nil,
      ht.size, ht.length.trans (Nat.le_succ _), fun x => ?_, ht.apart,
      fun y _ hy _ => ht.sizes y hy⟩
    · rw [ht.kern]
    · rw [← ht.covers x]
      exact or_iff_left covers_nil
  · refine wp_morecore hg hf (by omega) hsmall (fun k' hk => ⟨fun _ => hno k' hk, fun p hp => absurd hp (by simp)⟩)
      fun a t M hgrown => ⟨fun hnone => absurd hnone (by simp), fun p hp => ?_⟩
    obtain rfl := Option.some.inj hp
    have hlen' := hgrown.length
    -- the second time around a block is large enough
    obtain ⟨l', hl', hnodes', hnot', hcount', hall'⟩ := freeList_walk hgrown.free
    have hvalid : S.valid t.kern t.freep = true := by
      obtain ⟨b, hb, hbf⟩ := mem_map.1 hgrown.free.start
      exact hbf ▸ freeList_mapped hg hgrown.free b hb
    refine wp_bind.2 (wp_getPtr hvalid ?_)
    refine wp_walk hg hgrown.free hnu hgrown.free.start hl' hnodes' hnot' (by omega) (fun h s' N' hf' ht => ?_)
      fun hall => ?_
    · refine hyes h s' N' [(a, atLeast nu)] ⟨hf', .inr ⟨a, rfl, ?_⟩, ?_,
        fun x hx => ?_, ht.size, ht.length.trans hlen', fun x => ?_, ht.apart,
        fun y hyn hy hya => ?_⟩
      · rw [ht.kern]
        exact hgrown.asked
      · rw [ht.kern]
        exact hgrown.above.trans ((Nat.le_add_right ..).trans hgrown.below)
      · obtain ⟨hax, hxa⟩ := covers_singleton.1 hx
        have habove := hgrown.above
        have hbelow := hgrown.below
        rw [ht.kern]
        simp only at hax hxa
        omega
      · rw [← ht.covers x, hgrown.covers x, covers_singleton]
      · rw [covers_singleton] at hya
        have hyM : ¬ Covers M y := by
          rw [hgrown.covers]
          tauto
        refine (ht.sizes y hyM).trans (hgrown.sizes y (fun hy' => hya ?_) hyn)
        have hpos := (le_atLeast nu).trans_lt' hnu
        subst hy'
        simp only [In]
        omega
    · obtain ⟨b, hb, hbn⟩ := hgrown.large
      have hbs := hall b.1 (hall' _ (mem_map_of_mem hb))
      rw [hgrown.free.ring.sizes b hb] at hbs
      have hle := le_atLeast nu
      omega

/-! ## malloc -/

theorem nunits_pos (nbytes : ℕ) : 0 < nunits nbytes := by
  unfold nunits
  omega

/-- the list that malloc's first call starts with -/
theorem freeList_base (hbase : 0 < S.base) (hlow : S.base + 8 ≤ top s.kern) :
    FreeList S top ⟨update s.ptr S.base S.base, update s.size S.base 0, S.base, s.kern⟩ [(S.base, 0)] := by
  refine ⟨⟨?_, ?_, pairwise_singleton .., rfl, fun b hb => absurd hb not_mem_nil⟩, mem_cons_self, hbase, hlow, ?_⟩
  · exact linked_cons.2 ⟨update_self .., isChain_singleton _⟩
  · intro b hb
    obtain rfl := mem_singleton.1 hb
    exact update_self ..
  · intro b hb
    obtain rfl := mem_singleton.1 hb
    simp only
    omega

/-- the end of the block is below the end of the memory -/
theorem served_below {got : List Block} (hf : FreeList S top s N) (hs : Served S top s s' N N' h nu got) (hnu : 0 < nu) :
    h + 8 * nu ≤ top s'.kern := by
  have hlast : Covers N (h + 8 * nu - 1) ∨ Covers got (h + 8 * nu - 1) := by
    refine (hs.covers _).2 (.inr ⟨?_, ?_⟩)
    · simp only
      omega
    · simp only
      omega
  have hmono := hs.mono
  rcases hlast with hold | hnew
  · obtain ⟨b, hb, -, hbx⟩ := hold
    have htop := hf.tops b hb
    omega
  · have hfresh := hs.fresh _ hnew
    omega

/-- a call of malloc when the list is there -/
theorem wp_malloc_ready {fuel nbytes : ℕ} (hg : Grows S top) (hf : FreeList S top s N)
    (hsmall : 8 * nunits nbytes < 2 ^ 31) (hfuel : 2 * N.length + 1 ≤ fuel)
    (hno : ∀ k', S.sbrk (8 * atLeast (nunits nbytes)) s.kern = (none, k') → Q 0 { s with kern := k' })
    (hyes : ∀ h s' N' got, Served S top s s' N N' h (nunits nbytes) got → Q (h + 8) s') :
    wp E (malloc S fuel nbytes) Q s := by
  have hne : s.freep ≠ 0 := by
    obtain ⟨b, hb, hbf⟩ := mem_map.1 hf.start
    have hle := base_le hf.ring hb
    have hbase := hf.base
    omega
  have hvalid : S.valid s.kern s.freep = true := by
    obtain ⟨b, hb, hbf⟩ := mem_map.1 hf.start
    exact hbf ▸ freeList_mapped hg hf b hb
  unfold malloc prepare
  refine wp_bind.2 (wp_bind.2 (wp_get.2 ?_))
  rw [if_neg hne]
  refine wp_pure.2 (wp_bind.2 (wp_get.2 (wp_bind.2 (wp_getPtr hvalid (wp_bind.2 ?_)))))
  refine wp_mallocLoop hg hf (nunits_pos nbytes) hsmall hfuel (fun k' hk => wp_pure.2 (hno k' hk)) fun h s' N' got hs => ?_
  have hbelow := served_below hf hs (nunits_pos nbytes)
  have hlim := hg.limit s'.kern
  have hpos := nunits_pos nbytes
  have hptr : addUnits h 1 = h + 8 := by
    unfold addUnits
    exact uint32_eq (by omega)
  refine wp_pure.2 ?_
  rw [hptr]
  exact hyes h s' N' got hs

/-- the first call of malloc sets up the list -/
theorem wp_malloc_first {fuel nbytes : ℕ} (hg : Grows S top) (hfirst : s.freep = 0) (hbase : 0 < S.base)
    (hlow : S.base + 8 ≤ top s.kern)
    (hQ : wp E (malloc S fuel nbytes) Q ⟨update s.ptr S.base S.base, update s.size S.base 0, S.base, s.kern⟩) :
    wp E (malloc S fuel nbytes) Q s := by
  have hvalid := hg.mapped _ _ hlow
  unfold malloc prepare at hQ ⊢
  refine wp_bind.2 (wp_bind.2 (wp_get.2 ?_))
  have hQ' := wp_get.1 (wp_bind.1 (wp_bind.1 hQ))
  rw [if_neg hbase.ne', wp_pure] at hQ'
  rw [if_pos hfirst]
  unfold setFreep
  exact wp_bind.2 (wp_setPtr hvalid (wp_bind.2 (wp_modify.2 (wp_setSize hvalid hQ'))))

end Xv6.Umalloc
