/-
The free list of the allocator (umalloc.c): what free and malloc's search do to it.

- `Block`: an address and a number of units. `In b x`: byte x is in the block.
- `Ring S s N`: the blocks N are linked in this order, and the last one to the first one, which is base; they are in increasing
  order, not adjacent, with their sizes in their headers; freep is one of them.
- `Freed S s s' N N' bp bn`: the list N' is N with the block of bn units at bp.

Results:
- `wp_search`: free's loop ends at the last block below the one that is freed;
- `wp_joinUpper`, `wp_joinLower`: the block is joined with its neighbours;
- `wp_freeBlock`: **free puts a block into the list and coalesces it on both sides**.
-/
import Xv6.Umalloc.Code

namespace Xv6.Umalloc

open Fallible Function List

abbrev Block := ℕ × ℕ

/-- byte x is in the block -/
def In (b : Block) (x : ℕ) : Prop := b.1 ≤ x ∧ x < b.1 + 8 * b.2

variable {κ : Type} {S : Sys κ} {s s' : St κ} {N A B : List Block} {E : Fault → Prop} {a bp m n p q x : ℕ} {b : Block}

/-! ## Links -/

/-- each address of the list is linked to the next one -/
def Linked (s : St κ) (l : List ℕ) : Prop := l.IsChain fun a b => s.ptr a = b

theorem linked_split {l l' : List ℕ} : Linked s (l ++ a :: l') ↔ Linked s (l ++ [a]) ∧ Linked s (a :: l') := isChain_split

variable {l : List ℕ}

theorem linked_cons : Linked s (a :: q :: l) ↔ s.ptr a = q ∧ Linked s (q :: l) := isChain_cons_cons

/-- only the links that lead on count -/
theorem linked_congr (h : Linked s (l ++ [a])) (hs : ∀ x ∈ l, s'.ptr x = s.ptr x) : Linked s' (l ++ [a]) := by
  induction l with
  | nil => exact isChain_singleton a
  | cons b l ih =>
    have htail : Linked s' (l ++ [a]) := ih (List.IsChain.tail h) fun x hx => hs x (mem_cons_of_mem _ hx)
    cases l with
    | nil =>
      rw [singleton_append] at h ⊢
      obtain ⟨hb, -⟩ := linked_cons.1 h
      exact linked_cons.2 ⟨(hs b mem_cons_self).trans hb, htail⟩
    | cons c l =>
      obtain ⟨hb, -⟩ := linked_cons.1 h
      exact linked_cons.2 ⟨(hs b mem_cons_self).trans hb, htail⟩

/-- another block in front of a part of the list -/
theorem relink {base : ℕ} (h : Linked s (q :: (B.map Prod.fst ++ [base]))) (hs : ∀ b ∈ B, s'.ptr b.1 = s.ptr b.1)
    (ha : s'.ptr a = s.ptr q) : Linked s' (a :: (B.map Prod.fst ++ [base])) := by
  have htail : Linked s' (B.map Prod.fst ++ [base]) := by
    refine linked_congr (List.IsChain.tail h) fun x hx => ?_
    obtain ⟨b, hb, rfl⟩ := mem_map.1 hx
    exact hs b hb
  cases B with
  | nil | cons b B => exact linked_cons.2 ⟨ha.trans (linked_cons.1 h).1, htail⟩

structure Ring (S : Sys κ) (s : St κ) (N : List Block) : Prop where
  links : Linked s (N.map Prod.fst ++ [S.base])
  sizes : ∀ b ∈ N, s.size b.1 = b.2
  gaps : N.Pairwise fun b c => b.1 + 8 * b.2 < c.1
  first : N.head? = some (S.base, 0)
  pos : ∀ b ∈ N.tail, 0 < b.2

/-- the headers of the list are mapped -/
def Mapped (S : Sys κ) (s : St κ) (N : List Block) : Prop := ∀ b ∈ N, S.valid s.kern b.1 = true

/-- the address behind a part of the list -/
def nextOf (base : ℕ) : List Block → ℕ
  | [] => base
  | b :: _ => b.1

theorem map_next (base : ℕ) (B : List Block) : ∃ l, B.map Prod.fst ++ [base] = nextOf base B :: l := by
  cases B with
  | nil => exact ⟨[], rfl⟩
  | cons b B => exact ⟨_, rfl⟩

theorem ring_links (h : Ring S s (A ++ (p, n) :: B)) :
    Linked s (A.map Prod.fst ++ [p]) ∧ Linked s (p :: (B.map Prod.fst ++ [S.base])) := by
  have hlinks := h.links
  rw [map_append, map_cons, append_assoc, cons_append] at hlinks
  exact linked_split.1 hlinks

theorem ring_next (h : Ring S s (A ++ (p, n) :: B)) : s.ptr p = nextOf S.base B := by
  obtain ⟨-, hlinks⟩ := ring_links h
  obtain ⟨l, hl⟩ := map_next S.base B
  rw [hl] at hlinks
  exact (linked_cons.1 hlinks).1

/-- base comes first -/
theorem ring_base (h : Ring S s N) : ∃ L, N = (S.base, 0) :: L := head?_eq_some_iff.1 h.first

theorem base_mem (h : Ring S s N) : (S.base, 0) ∈ N := mem_of_mem_head? h.first

theorem base_le (h : Ring S s N) (hb : b ∈ N) : S.base ≤ b.1 := by
  obtain ⟨L, rfl⟩ := ring_base h
  rcases mem_cons.1 hb with rfl | hb
  · exact le_refl _
  · have hlt := (pairwise_cons.1 h.gaps).1 b hb
    simp only at hlt
    omega

/-- the order of the blocks around one of them -/
theorem ring_order (h : Ring S s (A ++ (p, n) :: B)) :
    (∀ b ∈ A, b.1 + 8 * b.2 < p) ∧ (∀ b ∈ B, p + 8 * n < b.1) ∧ A.Pairwise (fun b c => b.1 + 8 * b.2 < c.1) ∧
      B.Pairwise (fun b c => b.1 + 8 * b.2 < c.1) ∧ ∀ b ∈ A, ∀ c ∈ B, b.1 + 8 * b.2 < c.1 := by
  obtain ⟨hA, hpB, hAB⟩ := pairwise_append.1 h.gaps
  obtain ⟨hp, hB⟩ := pairwise_cons.1 hpB
  exact ⟨fun b hb => hAB b hb _ mem_cons_self, hp, hA, hB, fun b hb c hc => hAB b hb c (mem_cons_of_mem _ hc)⟩

/-- what is behind a block of the list is not empty -/
theorem ring_pos (h : Ring S s (A ++ (p, n) :: B)) (hb : b ∈ B) : 0 < b.2 := by
  refine h.pos b ?_
  cases A with
  | nil => exact hb
  | cons d A => exact mem_append_right A (mem_cons_of_mem _ hb)

theorem ring_nodup (h : Ring S s N) : (N.map Prod.fst).Nodup := by
  rw [nodup_iff_pairwise_ne, pairwise_map]
  refine h.gaps.imp fun {b c} hlt he => ?_
  omega

/-- once around the list, from one of its blocks back to it -/
theorem ring_walk {f : ℕ} {F G : List ℕ} (h : Ring S s N) (hN : N.map Prod.fst = F ++ f :: G) :
    Linked s (f :: (G ++ F ++ [f])) := by
  have hlinks := h.links
  rw [hN, append_assoc, cons_append] at hlinks
  obtain ⟨hto, hfrom⟩ := linked_split.1 hlinks
  obtain ⟨L, rfl⟩ := ring_base h
  cases F with
  | nil =>
    obtain ⟨rfl, -⟩ := cons_eq_cons.1 hN
    rwa [append_nil]
  | cons c F =>
    obtain ⟨rfl, -⟩ := cons_eq_cons.1 hN
    have happ : f :: (G ++ S.base :: F ++ [f]) = (f :: G) ++ S.base :: (F ++ [f]) := by
      simp only [append_assoc, cons_append]
    rw [happ]
    exact linked_split.2 ⟨hfrom, hto⟩

/-! ## Memory accesses -/

theorem wp_getPtr {Q : ℕ → St κ → Prop} (hv : S.valid s.kern a = true) (hQ : Q (s.ptr a) s) : wp E (getPtr S a) Q s := by
  unfold getPtr touch
  simp only [wp_bind, wp_get, wp_ite, wp_pure, wp_throw]
  exact ⟨fun _ => hQ, fun hno => absurd hv hno⟩

theorem wp_getSize {Q : ℕ → St κ → Prop} (hv : S.valid s.kern a = true) (hQ : Q (s.size a) s) : wp E (getSize S a) Q s := by
  unfold getSize touch
  simp only [wp_bind, wp_get, wp_ite, wp_pure, wp_throw]
  exact ⟨fun _ => hQ, fun hno => absurd hv hno⟩

variable {Q : Unit → St κ → Prop}

theorem wp_setPtr {v : ℕ} (hv : S.valid s.kern a = true)
    (hQ : Q () { s with ptr := update s.ptr a v }) : wp E (setPtr S a v) Q s := by
  unfold setPtr touch
  simp only [wp_bind, wp_get, wp_ite, wp_pure, wp_throw, wp_modify]
  exact ⟨fun _ => hQ, fun hno => absurd hv hno⟩

theorem wp_setSize {v : ℕ} (hv : S.valid s.kern a = true)
    (hQ : Q () { s with size := update s.size a v }) : wp E (setSize S a v) Q s := by
  unfold setSize touch
  simp only [wp_bind, wp_get, wp_ite, wp_pure, wp_throw, wp_modify]
  exact ⟨fun _ => hQ, fun hno => absurd hv hno⟩

/-! ## The place for a block -/

/-- p is the last block below bp -/
def Before (N : List Block) (bp p : ℕ) : Prop := p < bp ∧ ∀ b ∈ N, p < b.1 → bp < b.1

theorem exists_before (hbp : ∃ b ∈ N, b.1 < bp) (hne : ∀ b ∈ N, b.1 ≠ bp) : ∃ c ∈ N, Before N bp c.1 := by
  induction N with
  | nil => simp at hbp
  | cons d N ih =>
    have hd := hne d mem_cons_self
    have hN : ∀ b ∈ N, b.1 ≠ bp := fun b hb => hne b (mem_cons_of_mem _ hb)
    by_cases hrest : ∃ b ∈ N, b.1 < bp
    · obtain ⟨c, hc, hlt, hall⟩ := ih hrest hN
      by_cases hcd : d.1 < bp ∧ c.1 < d.1
      · refine ⟨d, mem_cons_self, hcd.1, fun b hb hdb => ?_⟩
        rcases mem_cons.1 hb with rfl | hb
        · exact absurd hdb (lt_irrefl _)
        · exact hall b hb (lt_trans hcd.2 hdb)
      · refine ⟨c, mem_cons_of_mem _ hc, hlt, fun b hb hcb => ?_⟩
        rcases mem_cons.1 hb with rfl | hb
        · omega
        · exact hall b hb hcb
    · obtain ⟨b, hb, hlt⟩ := hbp
      rcases mem_cons.1 hb with rfl | hb
      · refine ⟨b, mem_cons_self, hlt, fun c hc hbc => ?_⟩
        rcases mem_cons.1 hc with rfl | hc
        · exact absurd hbc (lt_irrefl _)
        · have hle : ¬ c.1 < bp := fun hcb => hrest ⟨c, hc, hcb⟩
          have hcne := hN c hc
          omega
      · exact absurd ⟨b, hb, hlt⟩ hrest

theorem mem_nodes (h : p ∈ N.map Prod.fst) : ∃ A n B, N = A ++ (p, n) :: B := by
  obtain ⟨b, hb, rfl⟩ := mem_map.1 h
  obtain ⟨A, B, hN⟩ := append_of_mem hb
  exact ⟨A, b.2, B, hN⟩

/-- the test of free's loop -/
theorem test_before (h : Ring S s N) (hp : p ∈ N.map Prod.fst) (hbp : S.base < bp) :
    (p < bp ∧ bp < s.ptr p ∨ s.ptr p ≤ p ∧ (p < bp ∨ bp < s.ptr p)) ↔ Before N bp p := by
  obtain ⟨A, n, B, rfl⟩ := mem_nodes hp
  obtain ⟨hA, hB, -, hpB, -⟩ := ring_order h
  have hbase := base_le h (mem_append_right A mem_cons_self)
  have hafter : ∀ b ∈ A ++ (p, n) :: B, p < b.1 → b ∈ B := by
    intro b hb hlt
    rcases mem_append.1 hb with hb | hb
    · have hba := hA b hb
      omega
    · rcases mem_cons.1 hb with rfl | hb
      · exact absurd hlt (lt_irrefl _)
      · exact hb
  rw [ring_next h]
  simp only at hbase
  cases B with
  | nil =>
    rw [nextOf]
    constructor
    · intro htest
      exact ⟨by omega, fun b hb hlt => absurd (hafter b hb hlt) not_mem_nil⟩
    · intro hbefore
      exact .inr ⟨hbase, .inl hbefore.1⟩
  | cons c B =>
    have hc := hB c mem_cons_self
    rw [nextOf]
    constructor
    · intro htest
      refine ⟨by omega, fun b hb hlt => ?_⟩
      rcases mem_cons.1 (hafter b hb hlt) with rfl | hb'
      · omega
      · have hcb := (pairwise_cons.1 hpB).1 b hb'
        omega
    · intro hbefore
      refine .inl ⟨hbefore.1, hbefore.2 c (mem_append_right A (mem_cons_of_mem _ mem_cons_self)) (by omega)⟩

theorem wp_search {Q : ℕ → St κ → Prop} (h : Ring S s N) (hv : Mapped S s N) (hbp : S.base < bp) (hn : l.length < n)
    (hl : Linked s (p :: l)) (hnodes : ∀ x ∈ p :: l, x ∈ N.map Prod.fst) (hex : ∃ x ∈ p :: l, Before N bp x)
    (hQ : ∀ x ∈ N.map Prod.fst, Before N bp x → Q x s) : wp E (search S bp n p) Q s := by
  induction n generalizing p l with
  | zero => exact absurd hn (Nat.not_lt_zero _)
  | succ n ih =>
    have hp := hnodes p mem_cons_self
    have htest := test_before h hp hbp
    obtain ⟨b, hb, rfl⟩ := mem_map.1 hp
    rw [search]
    refine wp_bind.2 (wp_getPtr (hv b hb) ?_)
    rw [wp_ite, wp_ite]
    refine ⟨fun h1 => wp_pure.2 (hQ _ hp (htest.1 (.inl h1))), fun h1 => ⟨fun h2 => wp_pure.2 (hQ _ hp (htest.1 (.inr h2))),
      fun h2 => ?_⟩⟩
    -- the block that we look for is further on
    have hno : ¬ Before N bp b.1 := fun hb => (htest.2 hb).elim h1 h2
    obtain ⟨x, hx, hxb⟩ := hex
    rcases mem_cons.1 hx with rfl | hx
    · exact absurd hxb hno
    cases l with
    | nil => cases hx
    | cons q l =>
      obtain ⟨hq, hl'⟩ := linked_cons.1 hl
      rw [hq]
      exact ih (Nat.lt_of_succ_lt_succ hn) hl' (fun y hy => hnodes y (mem_cons_of_mem _ hy)) ⟨x, hx, hxb⟩

/-! ## free -/

theorem addUnits_eq (ha : a + 8 * n ≤ 2 ^ 32) (hq : 0 < q) (hq' : q < 2 ^ 32) : addUnits a n = q ↔ a + 8 * n = q := by
  unfold addUnits uint32
  omega

def Covers (N : List Block) (x : ℕ) : Prop := ∃ b ∈ N, In b x

theorem covers_cons : Covers (b :: N) x ↔ In b x ∨ Covers N x := by
  unfold Covers
  simp only [mem_cons, exists_eq_or_imp]

theorem covers_append : Covers (A ++ B) x ↔ Covers A x ∨ Covers B x := by
  unfold Covers
  simp only [mem_append, or_and_right, exists_or]

/-- a header of the list is base, or in the free memory -/
theorem node_covers (h : Ring S s N) (hp : p ∈ N.map Prod.fst) : p = S.base ∨ Covers N p := by
  obtain ⟨b, hb, rfl⟩ := mem_map.1 hp
  obtain ⟨L, rfl⟩ := ring_base h
  rcases mem_cons.1 hb with rfl | hb'
  · exact .inl rfl
  · have hpos := h.pos b hb'
    exact .inr ⟨b, hb, le_refl _, by omega⟩

/-- the block bp between p and the blocks behind it: it is linked to them, but p is not linked to it yet -/
structure Half (S : Sys κ) (s : St κ) (A : List Block) (p n bp bn : ℕ) (B : List Block) : Prop where
  lower : Linked s (A.map Prod.fst ++ [p])
  upper : Linked s (bp :: (B.map Prod.fst ++ [S.base]))
  size : s.size bp = bn
  sizes : ∀ b ∈ A ++ (p, n) :: B, s.size b.1 = b.2
  gap : ∀ b ∈ B, bp + 8 * bn < b.1

/-- what is known of the block that is freed, and of its place in the list -/
structure Place (S : Sys κ) (s : St κ) (A : List Block) (p n bp bn : ℕ) (B : List Block) : Prop where
  ring : Ring S s (A ++ (p, n) :: B)
  mapped : Mapped S s (A ++ (p, n) :: B)
  valid : S.valid s.kern bp = true
  base : 0 < S.base
  low : S.base < bp
  size : s.size bp = bn
  pos : 0 < bn
  limit : bp + 8 * bn ≤ 2 ^ 32
  tops : ∀ b ∈ A ++ (p, n) :: B, b.1 + 8 * b.2 ≤ 2 ^ 32
  under : p + 8 * n ≤ bp
  lt : p < bp
  above : ∀ b ∈ B, bp + 8 * bn ≤ b.1

variable {bn : ℕ}

theorem place_ne (h : Place S s A p n bp bn B) (hb : b ∈ A ++ (p, n) :: B) : b.1 ≠ bp := by
  obtain ⟨hA, hB, -, -, -⟩ := ring_order h.ring
  have hlt := h.lt
  rcases mem_append.1 hb with hb | hb
  · have hbp := hA b hb
    omega
  · rcases mem_cons.1 hb with rfl | hb
    · exact hlt.ne
    · have hover := h.above b hb
      have hpos := h.pos
      omega

theorem wp_joinUpper (h : Place S s A p n bp bn B)
    (hQ : ∀ s' bn' B', Half S s' A p n bp bn' B' → s'.kern = s.kern → s'.freep = s.freep → bn ≤ bn' → bp + 8 * bn' ≤ 2 ^ 32 →
      B' <:+ B → (∀ x, In (bp, bn') x ∨ Covers B' x ↔ In (bp, bn) x ∨ Covers B x) → (∀ y, y ≠ bp → s'.size y = s.size y) →
      (∀ y, y ≠ bp → s'.ptr y = s.ptr y) → Q () s') :
    wp E (joinUpper S p bp) Q s := by
  obtain ⟨hA, hB, -, hpB, -⟩ := ring_order h.ring
  obtain ⟨hlower, hupper⟩ := ring_links h.ring
  have hpm : (p, n) ∈ A ++ (p, n) :: B := mem_append_right A mem_cons_self
  have hpv : S.valid s.kern p = true := h.mapped _ hpm
  have hkeep : ∀ y ∈ A.map Prod.fst, y ≠ bp := by
    intro y hy
    obtain ⟨b, hb, rfl⟩ := mem_map.1 hy
    exact place_ne h (mem_append_left _ hb)
  have hpos := h.pos
  have hlim := h.limit
  have hlow := h.low
  have hbase := h.base
  unfold joinUpper
  refine wp_bind.2 (wp_getPtr hpv (wp_bind.2 (wp_getSize h.valid ?_)))
  rw [h.size, ring_next h.ring, wp_ite]
  refine ⟨fun htouch => ?_, fun hapart => ?_⟩
  · -- the next block starts where bp ends
    cases B with
    | nil =>
      rw [nextOf, addUnits_eq hlim hbase (by omega)] at htouch
      omega
    | cons c B =>
      obtain ⟨q, m⟩ := c
      have hcm : (q, m) ∈ A ++ (p, n) :: (q, m) :: B := mem_append_right A (mem_cons_of_mem _ mem_cons_self)
      have hover := h.above _ mem_cons_self
      have htop := h.tops _ hcm
      have hmpos : 0 < m := ring_pos h.ring (b := (q, m)) mem_cons_self
      simp only at hover htop
      rw [nextOf, addUnits_eq hlim (by omega) (by omega)] at htouch
      simp only at htouch
      have hsum : uint32 (bn + m) = bn + m := uint32_eq (by omega)
      obtain ⟨-, hcB⟩ := linked_cons.1 hupper
      rw [nextOf]
      refine wp_bind.2 (wp_getSize (h.mapped _ hcm) (wp_bind.2 (wp_setSize h.valid (wp_bind.2 (wp_getPtr (h.mapped _ hcm)
        (wp_setPtr h.valid ?_))))))
      simp only
      rw [h.ring.sizes _ hcm, hsum]
      have hBne : ∀ b ∈ B, b.1 ≠ bp := fun b hb =>
        place_ne h (mem_append_right A (mem_cons_of_mem _ (mem_cons_of_mem _ hb)))
      have hgap := (pairwise_cons.1 hpB).1
      have hsub : ∀ b ∈ A ++ (p, n) :: B, b ∈ A ++ (p, n) :: (q, m) :: B := by
        intro b hb
        rcases mem_append.1 hb with hb | hb
        · exact mem_append_left _ hb
        · rcases mem_cons.1 hb with rfl | hb
          · exact hpm
          · exact mem_append_right A (mem_cons_of_mem _ (mem_cons_of_mem _ hb))
      refine hQ _ (bn + m) B ⟨?_, ?_, update_self .., fun b hb => ?_, fun b hb => ?_⟩ rfl rfl (Nat.le_add_right ..)
        (by omega) (suffix_cons _ _) (fun x => ?_) (fun y hy => update_of_ne hy _ _)
        fun y hy => update_of_ne hy _ _
      · exact linked_congr hlower fun y hy => update_of_ne (hkeep y hy) _ _
      · exact relink hcB (fun b hb => update_of_ne (hBne b hb) _ _) (update_self ..)
      · exact (update_of_ne (place_ne h (hsub b hb)) _ _).trans (h.ring.sizes b (hsub b hb))
      · have hb' := hgap b hb
        simp only at hb'
        omega
      · rw [covers_cons, ← or_assoc]
        refine or_congr_left ?_
        simp only [In]
        omega
  · -- it does not
    have hgap : ∀ b ∈ B, bp + 8 * bn < b.1 := by
      intro b hb
      cases B with
      | nil => cases hb
      | cons c B =>
        have hover := h.above c mem_cons_self
        have hctop := h.tops c (mem_append_right A (mem_cons_of_mem _ mem_cons_self))
        have hcpos := ring_pos h.ring (b := c) mem_cons_self
        rw [nextOf, addUnits_eq hlim (by omega) (by omega)] at hapart
        rcases mem_cons.1 hb with rfl | hb
        · omega
        · have hcb := (pairwise_cons.1 hpB).1 b hb
          omega
    refine wp_setPtr h.valid (hQ _ bn B ⟨?_, ?_, h.size, h.ring.sizes, hgap⟩ rfl rfl (le_refl _) hlim (suffix_refl B)
      (fun x => Iff.rfl) (fun _ _ => rfl) fun y hy => update_of_ne hy _ _)
    · exact linked_congr hlower fun y hy => update_of_ne (hkeep y hy) _ _
    · refine relink hupper (fun b hb => update_of_ne ?_ _ _) ?_
      · exact place_ne h (mem_append_right A (mem_cons_of_mem _ hb))
      · simp only
        rw [update_self, ring_next h.ring]

/-- one block and what stands behind it replaced -/
theorem ring_replace {C : List Block} (h : Ring S s (A ++ (p, n) :: B)) (hlower : Linked s' (A.map Prod.fst ++ [p]))
    (hupper : Linked s' (p :: (C.map Prod.fst ++ [S.base]))) (hsizes : ∀ b ∈ A ++ (p, m) :: C, s'.size b.1 = b.2)
    (hC : C.Pairwise fun b c => b.1 + 8 * b.2 < c.1) (hgap : ∀ c ∈ C, p + 8 * m < c.1) (hpos : ∀ c ∈ C, 0 < c.2)
    (hm : m = n ∨ p ≠ S.base ∧ 0 < m) : Ring S s' (A ++ (p, m) :: C) := by
  obtain ⟨hA, -, hpA, -, -⟩ := ring_order h
  have hfirst := h.first
  have hold := h.pos
  refine ⟨?_, hsizes, pairwise_append.2 ⟨hpA, pairwise_cons.2 ⟨hgap, hC⟩, fun b hb c hc => ?_⟩, ?_, ?_⟩
  · rw [map_append, map_cons, append_assoc, cons_append]
    exact linked_split.2 ⟨hlower, hupper⟩
  · have hbp := hA b hb
    rcases mem_cons.1 hc with rfl | hc
    · exact hbp
    · have hpc := hgap c hc
      omega
  · cases A with
    | nil =>
      simp only [nil_append, head?_cons, Option.some.injEq, Prod.mk.injEq] at hfirst ⊢
      rcases hm with rfl | ⟨hne, -⟩
      · exact hfirst
      · exact absurd hfirst.1 hne
    | cons d A => exact hfirst
  · cases A with
    | nil => exact hpos
    | cons d A =>
      intro b hb
      rcases mem_append.1 hb with hb | hb
      · exact hold b (mem_append_left _ hb)
      · rcases mem_cons.1 hb with rfl | hb
        · have hn : 0 < n := hold (p, n) (mem_append_right A mem_cons_self)
          simp only
          omega
        · exact hpos b hb

variable {bn' : ℕ} {B' N' : List Block}

theorem wp_joinLower (h : Place S s A p n bp bn B) (hh : Half S s' A p n bp bn' B') (hk : s'.kern = s.kern)
    (hle : bn ≤ bn') (hlim : bp + 8 * bn' ≤ 2 ^ 32) (hB' : B' <:+ B)
    (hQ : ∀ t N', Ring S t N' → t.kern = s'.kern → N'.length ≤ (A ++ (p, n) :: B).length + 1 →
      (∀ b ∈ N', b.1 = bp ∨ b.1 ∈ (A ++ (p, n) :: B).map Prod.fst) → p ∈ N'.map Prod.fst → (∃ b ∈ N', bn' ≤ b.2) →
      (∀ x, Covers N' x ↔ Covers A x ∨ In (p, n) x ∨ In (bp, bn') x ∨ Covers B' x) → (∀ y, y ≠ p → t.size y = s'.size y) →
      Q () t) :
    wp E (joinLower S p bp) Q s' := by
  obtain ⟨hA, hB, -, hpB, -⟩ := ring_order h.ring
  have hpm : (p, n) ∈ A ++ (p, n) :: B := mem_append_right A mem_cons_self
  have hpv : S.valid s'.kern p = true := hk ▸ h.mapped _ hpm
  have hbv : S.valid s'.kern bp = true := hk ▸ h.valid
  have hpn : s'.size p = n := hh.sizes _ (mem_append_right A mem_cons_self)
  have hAne : ∀ b ∈ A, b.1 ≠ p := by
    intro b hb
    have hbp := hA b hb
    omega
  have hBne : ∀ b ∈ B', b.1 ≠ p := by
    intro b hb
    have hbp := hB b (hB'.subset hb)
    omega
  have hBpos : ∀ b ∈ B', 0 < b.2 := fun b hb => ring_pos h.ring (hB'.subset hb)
  have hBgaps : B'.Pairwise fun b c => b.1 + 8 * b.2 < c.1 := hpB.sublist hB'.sublist
  have hlen := hB'.length_le
  have hkeep : ∀ y ∈ A.map Prod.fst, y ≠ p := by
    intro y hy
    obtain ⟨b, hb, rfl⟩ := mem_map.1 hy
    exact hAne b hb
  have hlt := h.lt
  have hpos := h.pos
  have hunder := h.under
  unfold joinLower
  refine wp_bind.2 (wp_getSize hpv ?_)
  rw [hpn, wp_ite, addUnits_eq (by omega) (by omega) (by omega)]
  refine ⟨fun htouch => ?_, fun hapart => ?_⟩
  · -- p ends where bp starts, so p is not base
    have hn : 0 < n := by omega
    have hne : p ≠ S.base := by
      intro hp
      obtain ⟨L, hL⟩ := ring_base h.ring
      rw [hL] at hpm
      rcases mem_cons.1 hpm with heq | hmem
      · obtain ⟨-, rfl⟩ := Prod.mk.inj heq
        exact absurd hn (lt_irrefl _)
      · have hgaps := h.ring.gaps
        rw [hL] at hgaps
        have hlt' := (pairwise_cons.1 hgaps).1 _ hmem
        simp only at hlt'
        omega
    have hsum : uint32 (n + bn') = n + bn' := uint32_eq (by omega)
    refine wp_bind.2 (wp_getSize hbv (wp_bind.2 (wp_setSize hpv (wp_bind.2 (wp_getPtr hbv (wp_setPtr hpv ?_))))))
    simp only
    rw [hh.size, hsum]
    refine hQ _ (A ++ (p, n + bn') :: B') (ring_replace h.ring ?_ ?_ (fun b hb => ?_) hBgaps (fun c hc => ?_) hBpos
      (.inr ⟨hne, by omega⟩)) rfl ?_ (fun b hb => .inr ?_) ?_ ⟨(p, n + bn'), mem_append_right A mem_cons_self,
      Nat.le_add_left ..⟩ (fun x => ?_) fun y hy => update_of_ne hy _ _
    · exact linked_congr hh.lower fun y hy => update_of_ne (hkeep y hy) _ _
    · exact relink hh.upper (fun b hb => update_of_ne (hBne b hb) _ _) (update_self ..)
    · rcases mem_append.1 hb with hb | hb
      · exact (update_of_ne (hAne b hb) _ _).trans (hh.sizes b (mem_append_left _ hb))
      · rcases mem_cons.1 hb with rfl | hb
        · exact update_self ..
        · exact (update_of_ne (hBne b hb) _ _).trans
            (hh.sizes b (mem_append_right A (mem_cons_of_mem _ hb)))
    · have hc' := hh.gap c hc
      omega
    · simp only [length_append, length_cons]
      omega
    · rw [map_append, map_cons]
      rcases mem_append.1 hb with hb | hb
      · exact mem_append_left _ (mem_map_of_mem hb)
      · rcases mem_cons.1 hb with rfl | hb
        · exact mem_append_right _ mem_cons_self
        · exact mem_append_right _ (mem_cons_of_mem _ (mem_map_of_mem (hB'.subset hb)))
    · rw [map_append, map_cons]
      exact mem_append_right _ mem_cons_self
    · rw [covers_append, covers_cons, ← or_assoc (a := In (p, n) x)]
      refine or_congr_right (or_congr_left ?_)
      simp only [In]
      omega
  · refine wp_setPtr hpv (hQ _ (A ++ (p, n) :: (bp, bn') :: B') (ring_replace h.ring ?_ ?_ (fun b hb => ?_)
      (pairwise_cons.2 ⟨hh.gap, hBgaps⟩) (fun c hc => ?_) (fun c hc => ?_) (.inl rfl)) rfl ?_ (fun b hb => ?_) ?_
      ⟨(bp, bn'), mem_append_right A (mem_cons_of_mem _ mem_cons_self), le_refl _⟩ (fun x => ?_) fun _ _ => rfl)
    · exact linked_congr hh.lower fun y hy => update_of_ne (hkeep y hy) _ _
    · refine linked_cons.2 ⟨update_self .., ?_⟩
      exact relink hh.upper (fun b hb => update_of_ne (hBne b hb) _ _) (update_of_ne hlt.ne' _ _)
    · rcases mem_append.1 hb with hb | hb
      · exact hh.sizes b (mem_append_left _ hb)
      · rcases mem_cons.1 hb with rfl | hb
        · exact hpn
        · rcases mem_cons.1 hb with rfl | hb
          · exact hh.size
          · exact hh.sizes b (mem_append_right A (mem_cons_of_mem _ hb))
    · rcases mem_cons.1 hc with rfl | hc
      · simp only
        omega
      · have hc' := hh.gap c hc
        omega
    · rcases mem_cons.1 hc with rfl | hc
      · simp only
        omega
      · exact hBpos c hc
    · simp only [length_append, length_cons]
      omega
    · rw [map_append, map_cons]
      rcases mem_append.1 hb with hb | hb
      · exact .inr (mem_append_left _ (mem_map_of_mem hb))
      · rcases mem_cons.1 hb with rfl | hb
        · exact .inr (mem_append_right _ mem_cons_self)
        · rcases mem_cons.1 hb with rfl | hb
          · exact .inl rfl
          · exact .inr (mem_append_right _ (mem_cons_of_mem _ (mem_map_of_mem (hB'.subset hb))))
    · rw [map_append, map_cons]
      exact mem_append_right _ mem_cons_self
    · rw [covers_append, covers_cons, covers_cons]

/-- the effect of free on the list -/
structure Freed (S : Sys κ) (s s' : St κ) (N N' : List Block) (bp bn : ℕ) : Prop where
  ring : Ring S s' N'
  start : s'.freep ∈ N'.map Prod.fst
  kern : s'.kern = s.kern
  length : N'.length ≤ N.length + 1
  nodes : ∀ b ∈ N', b.1 = bp ∨ b.1 ∈ N.map Prod.fst
  large : ∃ b ∈ N', bn ≤ b.2
  covers : ∀ x, Covers N' x ↔ Covers N x ∨ In (bp, bn) x
  sizes : ∀ y, y ≠ bp → y ∉ N.map Prod.fst → s'.size y = s.size y

/-- the place that free's loop finds -/
theorem place_of_before (h : Ring S s (A ++ (p, n) :: B)) (hv : Mapped S s (A ++ (p, n) :: B)) (hbv : S.valid s.kern bp = true)
    (hbase : 0 < S.base) (hlow : S.base < bp) (hsize : s.size bp = bn) (hpos : 0 < bn) (hlim : bp + 8 * bn ≤ 2 ^ 32)
    (htops : ∀ b ∈ A ++ (p, n) :: B, b.1 + 8 * b.2 ≤ 2 ^ 32) (hfree : ∀ x, In (bp, bn) x → ¬ Covers (A ++ (p, n) :: B) x)
    (hbefore : Before (A ++ (p, n) :: B) bp p) : Place S s A p n bp bn B := by
  obtain ⟨hlt, hall⟩ := hbefore
  obtain ⟨-, hB, -, -, -⟩ := ring_order h
  refine ⟨h, hv, hbv, hbase, hlow, hsize, hpos, hlim, htops, ?_, hlt, fun b hb => ?_⟩
  · by_contra hinside
    refine hfree bp ⟨le_refl _, by simp only; omega⟩ ⟨(p, n), mem_append_right A mem_cons_self, ?_, ?_⟩
    · exact hlt.le
    · simp only
      omega
  · have hbm : b ∈ A ++ (p, n) :: B := mem_append_right A (mem_cons_of_mem _ hb)
    have hpb := hB b hb
    have habove := hall b hbm (by omega)
    have hbpos := ring_pos h hb
    by_contra hinside
    refine hfree b.1 ⟨habove.le, ?_⟩ ⟨b, hbm, le_refl _, by omega⟩
    simp only
    omega

/-- **free puts a block into the list, and joins it with both neighbours** -/
theorem wp_freeBlock {fuel : ℕ} (h : Ring S s N) (hv : Mapped S s N) (hstart : s.freep ∈ N.map Prod.fst)
    (hfuel : N.length ≤ fuel) (hbv : S.valid s.kern bp = true) (hbase : 0 < S.base) (hlow : S.base < bp) (hsize : s.size bp = bn)
    (hpos : 0 < bn) (hlim : bp + 8 * bn ≤ 2 ^ 32) (htops : ∀ b ∈ N, b.1 + 8 * b.2 ≤ 2 ^ 32)
    (hfree : ∀ x, In (bp, bn) x → ¬ Covers N x) (hQ : ∀ s' N', Freed S s s' N N' bp bn → Q () s') :
    wp E (freeBlock S fuel bp) Q s := by
  have hne : ∀ b ∈ N, b.1 ≠ bp := by
    intro b hb heq
    rcases node_covers h (mem_map_of_mem hb) with hbase' | hcov
    · omega
    · rw [heq] at hcov
      exact hfree bp ⟨le_refl _, by simp only; omega⟩ hcov
  obtain ⟨c, hc, hcb⟩ := exists_before ⟨_, base_mem h, hlow⟩ hne
  obtain ⟨F, G, hN⟩ := append_of_mem hstart
  have hwalk := ring_walk h hN
  rw [← cons_append] at hwalk
  have hwalk' : Linked s (s.freep :: (G ++ F)) := (isChain_append.1 hwalk).1
  have hmem : ∀ x, x ∈ s.freep :: (G ++ F) ↔ x ∈ N.map Prod.fst := by
    intro x
    rw [hN]
    simp only [mem_cons, mem_append]
    tauto
  have hlen : (G ++ F).length < fuel := by
    have hcount := congrArg List.length hN
    simp only [length_map, length_append, length_cons] at hcount ⊢
    omega
  unfold freeBlock
  refine wp_bind.2 (wp_get.2 (wp_bind.2 (wp_search h hv hlow hlen hwalk' (fun x hx => (hmem x).1 hx)
    ⟨c.1, (hmem _).2 (mem_map_of_mem hc), hcb⟩ fun p hp hbefore => ?_)))
  obtain ⟨A, n, B, rfl⟩ := mem_nodes hp
  have hplace := place_of_before h hv hbv hbase hlow hsize hpos hlim htops hfree hbefore
  refine wp_bind.2 (wp_joinUpper hplace fun s' bn' B' hhalf hk _ hle hlim' hB' hcov hs' _ => ?_)
  refine wp_bind.2 (wp_joinLower hplace hhalf hk hle hlim' hB' fun t N' hring hk' hlen' hnodes hpn hbig hcov' ht => ?_)
  unfold setFreep
  refine wp_modify.2 (hQ _ N' ⟨⟨hring.links, hring.sizes, hring.gaps, hring.first, hring.pos⟩, hpn, hk'.trans hk, hlen', hnodes, ?_,
    fun x => ?_, fun y hy hyn => ?_⟩)
  · obtain ⟨b, hb, hbn⟩ := hbig
    exact ⟨b, hb, hle.trans hbn⟩
  · rw [hcov' x, hcov x, covers_append, covers_cons]
    tauto
  · have hyp : y ≠ p := fun heq => hyn (heq ▸ hp)
    exact (ht y hyp).trans (hs' y hy)

end Xv6.Umalloc
