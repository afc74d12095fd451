/-
The loader of exec: what is in memory before the arguments are pushed.

- `pageOf b v`, `imageOf n b`: the bytes b as pages, and n such pages as an address space.
- `loadedView g b`: the bytes b below the guard page g, the guard page, the stack page, and nothing above.

Results:
- `wp_loaduvm`: **loaduvm is overlay**; none of its panics is reached, whatever the file says;
- `wp_loadSegs`: the loop over the headers;
- `wp_load`: a loaded image with the bytes of all segments, or pages that freevm gives back.
-/
import Xv6.Vm.Exec

namespace Xv6.Vm

open Bytes Owners Fallible Function

variable {L : Link} {S : ℕ → Prop} {F : Ram} {m m' : Mem} {V V' : View} {K : ℕ → Option ℕ} {b : ℕ → UInt8}
  {d g j k n sz v w oldsz newsz off : ℕ} {c elf : List UInt8} {ph : Proghdr} {E : Fault → Prop}

/-! ## Images -/

def pageOf (b : ℕ → UInt8) (v : ℕ) : Page := fun o => b (v * 4096 + o)

def imageOf (n : ℕ) (b : ℕ → UInt8) : View := fun v => if v < n then some (7, pageOf b v) else none

theorem pageOf_zero (h : ∀ a, v * 4096 ≤ a → b a = 0) : pageOf b v = zeroPage := by
  funext o
  exact h _ (Nat.le_add_right ..)

/-- more zero pages behind an image that is zero there -/
theorem grow_image (hz : ∀ a, n * 4096 ≤ a → b a = 0) (h : n ≤ k) : grow (imageOf n b) n k = imageOf k b := by
  funext v
  unfold grow imageOf
  by_cases hn : v < n
  · rw [if_neg fun hb => absurd hn (not_lt.2 hb.1), if_pos hn, if_pos (lt_of_lt_of_le hn h)]
  · by_cases hk : v < k
    · rw [if_pos ⟨not_lt.1 hn, hk⟩, if_pos hk, pageOf_zero fun a ha => hz a (le_trans (Nat.mul_le_mul_right 4096 (not_lt.1 hn)) ha)]
    · rw [if_neg fun hb => hk hb.2, if_neg hn, if_neg hk]

/-- allocuvm on an image, with any sizes -/
theorem wp_allocImage {Q : ℕ → Mem → Prop} (h : Rep L S F m (some d) [] (imageOf (pages oldsz) b) K)
    (hz : ∀ a, pages oldsz * 4096 ≤ a → b a = 0)
    (hyes : ∀ m', newsz < KERNBASE → Rep L S F m' (some d) [] (imageOf (pages (max oldsz newsz)) b) K → Q (max oldsz newsz) m')
    (hno : ∀ m' V', (newsz < KERNBASE → Full L S F (pages newsz)) → Rep L S F m' (some d) [] V' K → Q 0 m') :
    wp E (allocuvm L d oldsz newsz) Q m := by
  by_cases hbig : KERNBASE ≤ newsz
  · unfold allocuvm
    rw [wp_ite]
    exact ⟨fun _ => wp_pure.2 (hno m _ (fun hlt => absurd hbig (not_le.2 hlt)) h), fun hlt => absurd hbig hlt⟩
  · have hlt := not_le.1 hbig
    by_cases hsmall : newsz < oldsz
    · rw [max_eq_left (le_of_lt hsmall)] at hyes
      unfold allocuvm
      rw [wp_ite, wp_ite]
      exact ⟨fun hb => absurd hb hbig, fun _ => ⟨fun _ => wp_pure.2 (hyes m hlt h), fun hge => absurd hsmall hge⟩⟩
    · have hle := not_lt.1 hsmall
      rw [max_eq_right hle] at hyes
      refine wp_allocuvm h hle hlt (fun u hu _ => if_neg (not_lt.2 hu)) (fun m' h' => hyes m' hlt ?_) fun m' hfull h' =>
        hno m' _ (fun _ => hfull) h'
      rwa [grow_image hz (by unfold pages; omega)] at h'

/-! ## loaduvm -/

/-- the first k bytes of a segment -/
def overlayTo (c : List UInt8) (b : ℕ → UInt8) (vaddr off k : ℕ) : ℕ → UInt8 :=
  fun a => if vaddr ≤ a ∧ a < vaddr + k then c.getD (off + (a - vaddr)) 0 else b a

theorem readi_some {bs : List UInt8} (h : readi c off n = some bs) : off ≤ c.length ∧ bs = (c.drop off).take n := by
  unfold readi at h
  split_ifs at h with hbad
  rw [not_or] at hbad
  exact ⟨not_lt.1 hbad.1, (Option.some.inj h).symm⟩

/-- one page of a segment -/
theorem patch_overlay {bs : List UInt8} {addr offset s : ℕ} (hbs : bs = (c.drop (offset + j * 4096)).take n) (hlen : bs.length = n)
    (hn : n = min 4096 (s - j * 4096)) (hj : j * 4096 < s) :
    patch (pageOf (overlayTo c b (addr * 4096) offset (j * 4096)) (addr + j)) 0 bs =
      pageOf (overlayTo c b (addr * 4096) offset (min s ((j + 1) * 4096))) (addr + j) := by
  funext o
  have ho := o.isLt
  have hget : ∀ t, t < n → bs.getD t 0 = c.getD (offset + j * 4096 + t) 0 := by
    intro t ht
    rw [hbs, List.getD_eq_getElem?_getD, List.getElem?_take_of_lt ht, List.getElem?_drop, List.getD_eq_getElem?_getD]
  simp only [patch, pageOf, overlayTo, Nat.zero_le, true_and, Nat.zero_add, Nat.sub_zero, hlen]
  by_cases hin : o.val < n
  · have e : (addr + j) * 4096 + o.val - addr * 4096 = j * 4096 + o.val := by omega
    rw [if_pos hin, if_pos (by omega), hget _ hin, e, Nat.add_assoc]
  · rw [if_neg hin, if_neg (by omega), if_neg (by omega)]

/-- the other pages are those from before -/
theorem pageOf_overlay {addr offset s u : ℕ} (hu : u ≠ addr + j) (hj : j * 4096 < s) :
    pageOf (overlayTo c b (addr * 4096) offset (j * 4096)) u =
      pageOf (overlayTo c b (addr * 4096) offset (min s ((j + 1) * 4096))) u := by
  funext o
  have ho := o.isLt
  simp only [pageOf, overlayTo]
  by_cases hin : addr * 4096 ≤ u * 4096 + o.val ∧ u * 4096 + o.val < addr * 4096 + j * 4096
  · rw [if_pos hin, if_pos (by omega)]
  · rw [if_neg hin, if_neg (by omega)]

/-- a full page was read: the next one begins inside the file -/
theorem read_on {x s l : ℕ} (hmore : x + 4096 < s) (hend : off + x + min 4096 (s - x) ≤ l) : off + (x + 4096) ≤ l := by
  omega

theorem wp_loadLoop {Q : Bool → Mem → Prop} {addr offset s N : ℕ} (n : ℕ) (hc : c.length < 2 ^ 32) (hoff : offset < 2 ^ 32)
    (hfit : addr * 4096 + s ≤ N * 4096) (hN : N ≤ UPAGES) (hj : j ≤ pages s) (hread : j = 0 ∨ offset + j * 4096 ≤ c.length)
    (hn : pages s - j < n)
    (h : Rep L S F m (some d) [] (imageOf N (overlayTo c b (addr * 4096) offset (min s (j * 4096)))) K)
    (hyes : ∀ m', Rep L S F m' (some d) [] (imageOf N (overlayTo c b (addr * 4096) offset s)) K → Q true m')
    (hno : ∀ m' V', Rep L S F m' (some d) [] V' K → Q false m') :
    wp E (loadLoop c d (addr * 4096) offset s n (j * 4096)) Q m := by
  induction n generalizing m j with
  | zero => exact absurd hn (Nat.not_lt_zero _)
  | succ n ih =>
    rw [loadLoop, wp_ite]
    refine ⟨fun hlt => ?_, fun hge => ?_⟩
    swap
    · rw [min_eq_left (not_lt.1 hge)] at h
      exact wp_pure.2 (hyes m h)
    rw [min_eq_right (le_of_lt hlt)] at h
    have hpage : addr + j < N := by omega
    have hu : addr + j < UPAGES := lt_of_lt_of_le hpage hN
    have hu' : addr + j < 2 ^ 19 := hu
    have hva : uint32 (addr * 4096 + j * 4096) = (addr + j) * 4096 := by unfold uint32; omega
    have hva' : (addr + j) * 4096 < 2 ^ 32 := lt_of_lt_of_le (Nat.mul_lt_mul_of_pos_right hu' (by decide)) (by decide)
    have hjs : j < pages s := lt_pages.2 hlt
    have hdiv : (addr + j) * 4096 / 4096 = addr + j := Nat.mul_div_cancel _ (by decide)
    have hoffset : uint32 (offset + j * 4096) = offset + j * 4096 := by
      refine uint32_eq ?_
      rcases hread with rfl | hread
      · omega
      · omega
    -- the page is there
    obtain ⟨w, t, hw, hP, ht, htw, hx⟩ := rep_table h hu (if_pos hpage)
    have hword : m.word t ((addr + j) % 1024) = w := htw
    have hsize : (if s - j * 4096 < PGSIZE then s - j * 4096 else PGSIZE) = min 4096 (s - j * 4096) := by
      simp only [PGSIZE]
      split_ifs <;> omega
    rw [hva]
    refine wp_bind.2 (wp_walk hva' ?_)
    rw [hdiv, ht]
    simp only [Option.map_some, wp_bind, wp_get, hword, hsize, hoffset]
    cases hr : readi c (offset + j * 4096) (min 4096 (s - j * 4096)) with
    | none => exact wp_pure.2 (hno m _ h)
    | some bs =>
      obtain ⟨hle, hbs⟩ := readi_some hr
      have hcontent : m.page (pteFrame w) = pageOf (overlayTo c b (addr * 4096) offset (j * 4096)) (addr + j) :=
        (Prod.mk.inj hx).2.symm
      have hflags : pteFlags w = 7 := (Prod.mk.inj hx).1.symm
      have h1 := rep_write h hu hw hP (patch (m.page (pteFrame w)) 0 bs)
      simp only [wp_bind, wp_modify, wp_ite, wp_pure]
      refine ⟨fun _ => hno _ _ h1, fun hfull => ?_⟩
      have hlen : bs.length = min 4096 (s - j * 4096) := not_not.1 hfull
      rw [next_page (lt_of_le_of_lt (Nat.le_add_left j addr) hu)]
      have hend : offset + j * 4096 + min 4096 (s - j * 4096) ≤ c.length := by
        rw [hbs, List.length_take, List.length_drop] at hlen
        omega
      have hstep : Rep L S F (m.setPage (pteFrame w) (patch (m.page (pteFrame w)) 0 bs)) (some d) []
          (imageOf N (overlayTo c b (addr * 4096) offset (min s ((j + 1) * 4096)))) K := by
        refine rep_view h1 fun u hu => ?_
        unfold imageOf
        by_cases huj : u = addr + j
        · rw [huj, update_self, if_pos hpage, hflags, hcontent, patch_overlay hbs hlen rfl hlt]
        · rw [update_of_ne huj, pageOf_overlay huj hlt]
      by_cases hmore : (j + 1) * 4096 < s
      · refine ih (lt_pages.2 hmore).le (.inr ?_) (by omega) hstep
        rw [Nat.succ_mul] at hmore ⊢
        exact read_on hmore hend
      · -- the last page: the loop ends in the next round
        cases n with
        | zero => exact absurd hn (by omega)
        | succ n =>
          rw [loadLoop, wp_ite]
          rw [min_eq_left (not_lt.1 hmore)] at hstep
          exact ⟨fun hlt => absurd hlt hmore, fun _ => wp_pure.2 (hyes _ hstep)⟩

/-- **loaduvm copies the bytes of the segment to its address, or fails.** -/
theorem wp_loaduvm {Q : Bool → Mem → Prop} {N vaddr offset s : ℕ} (hc : c.length < 2 ^ 32) (hoff : offset < 2 ^ 32)
    (haddr : vaddr % PGSIZE = 0) (hfit : vaddr + s ≤ N * 4096) (hN : N ≤ UPAGES)
    (h : Rep L S F m (some d) [] (imageOf N b) K)
    (hyes : ∀ m', Rep L S F m' (some d) [] (imageOf N (overlayTo c b vaddr offset s)) K → Q true m')
    (hno : ∀ m' V', Rep L S F m' (some d) [] V' K → Q false m') : wp E (loaduvm c d vaddr offset s) Q m := by
  obtain ⟨addr, rfl⟩ : ∃ addr, vaddr = addr * 4096 := ⟨vaddr / 4096, by simp only [PGSIZE] at haddr; omega⟩
  have hnone : overlayTo c b (addr * 4096) offset (min s (0 * 4096)) = b := by
    funext a
    refine if_neg fun hb => ?_
    omega
  have hp : pages s ≤ UPAGES := by
    simp only [UPAGES] at hN ⊢
    unfold pages
    omega
  unfold loaduvm
  rw [wp_ite]
  refine ⟨fun hbad => absurd haddr hbad, fun _ => ?_⟩
  refine wp_loadLoop (j := 0) (NPAGES + 1) hc hoff hfit hN (Nat.zero_le _) (.inl rfl) ?_ ?_ hyes hno
  · simp only [NPAGES, UPAGES] at hp ⊢
    omega
  · rwa [hnone]

/-! ## The segments -/

theorem field_lt (bs : List UInt8) (off : ℕ) : field bs off 4 < 2 ^ 32 := by
  unfold field
  have hlen : ((bs.drop off).take 4).length ≤ 4 := List.length_take_le ..
  exact lt_of_lt_of_le (le_lt _) (Nat.pow_le_pow_right (by decide) hlen)

/-- the numbers in a program header are 32-bit words -/
theorem readPh_lt (h : readPh c off = some ph) : ph.vaddr < 2 ^ 32 ∧ ph.memsz < 2 ^ 32 ∧ ph.off < 2 ^ 32 := by
  unfold readPh at h
  cases hr : readi c off 32 with
  | none =>
    rw [hr] at h
    cases h
  | some bs =>
    rw [hr] at h
    simp only at h
    split_ifs at h
    cases h
    exact ⟨field_lt .., field_lt .., field_lt ..⟩

theorem overlay_zero {N : ℕ} (hz : ∀ a, N * 4096 ≤ a → b a = 0) (hfit : ph.vaddr + ph.filesz ≤ N * 4096) :
    ∀ a, N * 4096 ≤ a → overlay c b ph a = 0 := by
  intro a ha
  unfold overlay
  rw [if_neg (by omega), hz a ha]

theorem le_pages (sz : ℕ) : sz ≤ pages sz * 4096 := by
  unfold pages
  omega

variable {Q : Option ℕ → Mem → Prop}

/-- one segment, after the tests of its header -/
theorem wp_segment {f : ℕ → M (Option ℕ)} (hc : c.length < 2 ^ 32)
    (h : Rep L S F m (some d) [] (imageOf (pages sz) b) K) (hz : ∀ a, pages sz * 4096 ≤ a → b a = 0) (hsz : sz < KERNBASE)
    (hv : ph.vaddr < 2 ^ 32) (hm : ph.memsz < 2 ^ 32) (ho : ph.off < 2 ^ 32) (hsize : ¬ ph.memsz < ph.filesz)
    (hwrap : ¬ uint32 (ph.vaddr + ph.memsz) < ph.vaddr)
    (hnext : ∀ m' sz', sz' < KERNBASE → (∀ a, pages sz' * 4096 ≤ a → overlay c b ph a = 0) →
      Rep L S F m' (some d) [] (imageOf (pages sz') (overlay c b ph)) K → wp E (f sz') Q m')
    (hno : ∀ m' V', Rep L S F m' (some d) [] V' K → Q none m') :
    wp E (do
      let sz ← allocuvm L d sz (uint32 (ph.vaddr + ph.memsz))
      if sz = 0 then return none
      else if ph.vaddr % PGSIZE ≠ 0 then return none
      else if ← loaduvm c d ph.vaddr ph.off ph.filesz then f sz
      else return none) Q m := by
  rw [uint32_add hv hm (not_lt.1 hwrap)]
  refine wp_bind.2 (wp_allocImage h hz (fun m1 hlt h1 => ?_) fun m1 V1 _ h1 => ?_)
  swap
  · rw [if_pos rfl]
    exact wp_pure.2 (hno m1 V1 h1)
  have hmax : max sz (ph.vaddr + ph.memsz) < KERNBASE := max_lt hsz hlt
  have hfit : ph.vaddr + ph.filesz ≤ pages (max sz (ph.vaddr + ph.memsz)) * 4096 := by
    refine le_trans ?_ (le_pages _)
    exact le_trans (Nat.add_le_add_left (not_lt.1 hsize) _) (le_max_right ..)
  have hz1 : ∀ a, pages (max sz (ph.vaddr + ph.memsz)) * 4096 ≤ a → b a = 0 := by
    intro a ha
    exact hz a (le_trans (Nat.mul_le_mul_right 4096 (pages_mono (le_max_left ..))) ha)
  rw [wp_ite, wp_ite]
  refine ⟨fun _ => wp_pure.2 (hno m1 _ h1), fun _ => ⟨fun _ => wp_pure.2 (hno m1 _ h1), fun haddr => ?_⟩⟩
  refine wp_bind.2 (wp_loaduvm hc ho (not_not.1 haddr) hfit (pages_le (le_of_lt hmax)) h1 (fun m2 h2 => ?_) fun m2 V2 h2 => ?_)
  · rw [if_pos rfl]
    exact hnext m2 _ hmax (overlay_zero hz1 hfit) h2
  · rw [if_neg (by decide)]
    exact wp_pure.2 (hno m2 V2 h2)

/-- the loop over k headers -/
theorem wp_loadSegs (k : ℕ) (hc : c.length < 2 ^ 32)
    (h : Rep L S F m (some d) [] (imageOf (pages sz) b) K) (hz : ∀ a, pages sz * 4096 ≤ a → b a = 0) (hsz : sz < KERNBASE)
    (hyes : ∀ m' sz', (k = 0 → sz' = sz) → sz' < KERNBASE →
      (∀ a, pages sz' * 4096 ≤ a → (loadable c k off).foldl (overlay c) b a = 0) →
      Rep L S F m' (some d) [] (imageOf (pages sz') ((loadable c k off).foldl (overlay c) b)) K → Q (some sz') m')
    (hno : ∀ m' V', k ≠ 0 → Rep L S F m' (some d) [] V' K → Q none m') : wp E (loadSegs L c d k off sz) Q m := by
  induction k generalizing m off sz b with
  | zero => exact wp_pure.2 (hyes m sz (fun _ => rfl) hsz hz h)
  | succ k ih =>
    rw [loadSegs]
    unfold loadable at hyes
    replace hyes := fun m' sz' => hyes m' sz' fun h0 => absurd h0 (Nat.succ_ne_zero k)
    replace hno := fun m' V' => hno m' V' (Nat.succ_ne_zero k)
    cases hph : readPh c off with
    | none => exact wp_pure.2 (hno m _ h)
    | some ph =>
      obtain ⟨hv, hm, ho⟩ := readPh_lt hph
      rw [hph] at hyes
      simp only at hyes ⊢
      by_cases htype : ph.type ≠ ELF_PROG_LOAD
      · rw [if_pos htype] at hyes ⊢
        exact ih h hz hsz (fun m' sz' _ => hyes m' sz') fun m' V' _ => hno m' V'
      · rw [if_neg htype] at hyes ⊢
        rw [wp_ite, wp_ite]
        refine ⟨fun _ => wp_pure.2 (hno m _ h), fun hsize => ⟨fun _ => wp_pure.2 (hno m _ h), fun hwrap => ?_⟩⟩
        refine wp_segment hc h hz hsz hv hm ho hsize hwrap (fun m1 sz1 hlt hz1 h1 => ?_) hno
        exact ih h1 hz1 hlt (fun m' sz' _ => hyes m' sz') fun m' V' _ => hno m' V'

/-! ## The stack -/

theorem wp_clearpteu {Q : Unit → Mem → Prop} {x : ℕ × Page} (h : Rep L S F m (some d) [] V K) (hv : v < UPAGES)
    (hV : V v = some x)
    (hQ : ∀ m', Rep L S F m' (some d) [] (update V v (some (clearUser x.1, x.2))) K → Q () m') :
    wp E (clearpteu d (v * 4096)) Q m := by
  have hlt : v < 2 ^ 19 := hv
  have hdiv : v * 4096 / 4096 = v := Nat.mul_div_cancel v (by decide)
  obtain ⟨w, t, hw, hP, ht, htw, rfl⟩ := rep_table h hv hV
  have hword : m.word t (v % 1024) = w := htw
  unfold clearpteu
  refine wp_bind.2 (wp_walk (by omega) ?_)
  rw [hdiv, ht]
  simp only [Option.map_some, wp_modify, hword]
  have h1 := rep_remap h hv ht hw hP (lt_of_le_of_lt (clearUser_le w) (walk_lt hw)) ((clearUser_present w).2 hP)
    (clearUser_frame w)
  rw [clearUser_flags] at h1
  exact hQ _ h1

/-- an image with its guard page g and its stack -/
def loadedView (g : ℕ) (b : ℕ → UInt8) (stack : Page) : View := fun v =>
  if v < g then some (7, pageOf b v) else if v = g then some (3, zeroPage) else if v = g + 1 then some (7, stack) else none

theorem loadedView_guard (hz : ∀ a, g * 4096 ≤ a → b a = 0) :
    update (imageOf (g + 2) b) g (some (3, zeroPage)) = loadedView g b zeroPage := by
  funext v
  unfold loadedView imageOf
  by_cases hv : v = g
  · rw [hv, update_self, if_neg (lt_irrefl g), if_pos rfl]
  · rw [update_of_ne hv, if_neg hv]
    by_cases hlt : v < g
    · rw [if_pos hlt, if_pos (by omega)]
    · by_cases hs : v = g + 1
      · rw [if_neg hlt, if_pos hs, if_pos (by omega), pageOf_zero fun a ha => hz a (le_trans ?_ ha)]
        exact Nat.mul_le_mul_right 4096 (by omega)
      · rw [if_neg hlt, if_neg hs, if_neg (by omega)]

/-- **The program is in memory, or exec fails.** Without program headers it fails for want of a page only. -/
theorem wp_load (hc : c.length < 2 ^ 32) (h : Rep L S F m (some d) [] (fun _ => none) K)
    (hyes : ∀ m' g, (field elf 44 2 = 0 → g = 0) → g + 2 < UPAGES →
      Rep L S F m' (some d) [] (loadedView g (segByte c (loadable c (field elf 44 2) (field elf 28 4))) zeroPage) K →
      Q (some ((g + 2) * 4096)) m')
    (hno : ∀ m' V', (field elf 44 2 = 0 → Full L S F 2) → Rep L S F m' (some d) [] V' K → Q none m') :
    wp E (load L c elf d) Q m := by
  have h0 : Rep L S F m (some d) [] (imageOf (pages 0) fun _ => 0) K :=
    rep_view h fun v _ => (if_neg (Nat.not_lt_zero v)).symm
  unfold load
  refine wp_bind.2 (wp_loadSegs _ hc h0 (fun _ _ => rfl) (by decide) (fun m1 sz hsz0 hsz hz h1 => ?_) fun m1 V1 hk h1 =>
    wp_pure.2 (hno m1 V1 (fun h0 => absurd h0 hk) h1))
  -- the segments end in page g
  obtain ⟨g, hg⟩ : ∃ g, pages sz = g := ⟨_, rfl⟩
  rw [hg] at h1 hz
  have hup : PGROUNDUP sz = g * 4096 := by rw [PGROUNDUP_eq (le_of_lt hsz), hg]
  have hgle : g ≤ 2 ^ 19 := hg ▸ pages_le (le_of_lt hsz)
  have hg0 : field elf 44 2 = 0 → g = 0 := by
    intro h0
    rw [← hg, hsz0 h0]
    rfl
  have hnew : uint32 (g * 4096 + 2 * PGSIZE) = (g + 2) * 4096 := by
    unfold uint32 PGSIZE
    omega
  have hpg : pages (g * 4096) = g := by unfold pages; omega
  have hpg2 : pages ((g + 2) * 4096) = g + 2 := by unfold pages; omega
  have hmax : max (g * 4096) ((g + 2) * 4096) = (g + 2) * 4096 := max_eq_right (Nat.mul_le_mul_right 4096 (by omega))
  simp only [hup, hnew]
  rw [← hpg] at h1
  refine wp_bind.2 (wp_allocImage h1 (by rwa [hpg]) (fun m2 hlt h2 => ?_) fun m2 V2 hfull h2 => ?_)
  swap
  · rw [if_pos rfl]
    refine wp_pure.2 (hno m2 V2 (fun h0 => ?_) h2)
    rw [hpg2] at hfull
    obtain rfl := hg0 h0
    exact hfull (by decide)
  rw [hmax, hpg2] at h2
  rw [hmax, if_neg (by omega)]
  have hgu : g + 2 < 2 ^ 19 := by
    simp only [KERNBASE] at hlt
    omega
  have hguard : uint32 ((g + 2) * 4096 + (2 ^ 32 - 2 * PGSIZE)) = g * 4096 := by
    unfold uint32 PGSIZE
    omega
  rw [hguard]
  have hVg : imageOf (g + 2) ((loadable c (field elf 44 2) (field elf 28 4)).foldl (overlay c) fun _ => 0) g =
      some (7, zeroPage) := by
    unfold imageOf
    rw [if_pos (by omega), pageOf_zero hz]
  refine wp_bind.2 (wp_clearpteu h2 (by simp only [UPAGES]; omega) hVg fun m3 h3 => wp_pure.2 (hyes m3 g hg0 hgu ?_))
  have hclear : clearUser 7 = 3 := by decide
  rw [hclear, loadedView_guard hz] at h3
  exact h3

end Xv6.Vm
