/-
Path lookup changes nothing, and finds what the directories say.

- `walk v parent n names`: the inode that the path with the elements names reaches from inode n, in the image v; with
  parent, the directory of the last element.
- `At R v s`: the counts are R and the disk is v. R has the references that were there before a call and those that the
  call holds.
- `Linked v n`: an iput of the last reference does not free the inode.
- `Rooted R v s`: an inode that a directory names, or the root, has a link or a reference, or it is free.

Results:
- `iget_at`, `ilock_at`, `iput_at`, `dirlookup_at`: the calls that a lookup is made of;
- `namex_at`: **a lookup leaves the disk as it is and finds what walk does**.
-/
import Xv6.Fs.Coherence
import Xv6.Fs.Refs
import Xv6.Fs.Slots

namespace Xv6.Fs

open Fallible Holders Function

attribute [local semireducible] wp

variable {sb : Super} {dev : Devsw} {s s' : Icache} {v : Image} {R R' : Ino → ℕ} {e ip dp : Ino} {i : Inode}
  {name : Name} {n : ℕ} {α : Type}

/-! ## Paths in an image -/

def walk (sb : Super) (v : Image) (parent : Bool) : ℕ → List Name → Option (ℕ × Name)
  | n, [] => if parent then none else some (n, [])
  | n, name :: rest =>
    if (v.inode n).type ≠ T_DIR then none
    else if parent ∧ rest = [] then some (n, name)
    else (lookup sb v n name).bind fun p => walk sb v parent p.1 rest

def Linked (sb : Super) (v : Image) (n : ℕ) : Prop := allocated sb v n → (v.inode n).nlink ≠ 0

/-- an inode that no lookup frees -/
def Anchored (sb : Super) (R : Ino → ℕ) (v : Image) (s : Icache) (n : ℕ) : Prop :=
  Linked sb v n ∨ ∃ e, 0 < R e ∧ (s.inode e).inum = n

structure Rooted (sb : Super) (R : Ino → ℕ) (v : Image) (s : Icache) : Prop where
  root : Anchored sb R v s ROOTINO
  slots : ∀ d t n nm, allocated sb v d → (v.inode d).type = T_DIR → slot sb v d t = some (n, nm) → Anchored sb R v s n

/-! ## In the middle of a call -/

structure At (sb : Super) (R : Ino → ℕ) (v : Image) (s : Icache) : Prop where
  ok : s.Ok sb
  image : imageOf sb s.disk = v
  refs : s.refs = R

/-- the entry stands for the same inode, and it has not become invalid -/
def Inode.Stays (i i' : Inode) : Prop := i'.inum = i.inum ∧ (i.valid = true → i'.valid = true)

def Still (s s' : Icache) : Prop := ∀ a, (s.inode a).Stays (s'.inode a)

/-- the entries with a reference in R -/
def Same (R : Ino → ℕ) (s s' : Icache) : Prop := ∀ a, 0 < R a → (s.inode a).Stays (s'.inode a)

theorem stays_trans {i i' i'' : Inode} (h : i.Stays i') (h' : i'.Stays i'') : i.Stays i'' :=
  ⟨h'.1.trans h.1, fun hv => h'.2 (h.2 hv)⟩

theorem still_trans {s'' : Icache} (h : Still s s') (h' : Still s' s'') : Still s s'' := fun a => stays_trans (h a) (h' a)

theorem Still.same (h : Still s s') : Same R s s' := fun a _ => h a

theorem same_refl : Same R s s := fun _ _ => ⟨rfl, id⟩

theorem same_trans {s'' : Icache} (h : Same R s s') (h' : Same R s' s'') : Same R s s'' :=
  fun a ha => stays_trans (h a ha) (h' a ha)

/-- fewer references -/
theorem same_less (h : Same (R + R') s s') : Same R s s' := fun a ha => h a (Nat.lt_add_right _ ha)

theorem at_start (h : s.Ok sb) : At sb s.refs (imageOf sb s.disk) s := ⟨h, rfl, rfl⟩

theorem rooted_same (h : Rooted sb R v s) (hs : Same R s s') : Rooted sb R v s' := by
  have hkeep : ∀ n, Anchored sb R v s n → Anchored sb R v s' n := by
    rintro n (hl | ⟨e, he, hn⟩)
    · exact .inl hl
    · exact .inr ⟨e, he, (hs e he).1.trans hn⟩
  exact ⟨hkeep _ h.root, fun d t n nm hd ht hslot => hkeep n (h.slots d t n nm hd ht hslot)⟩

theorem rooted_more (h : Rooted sb R v s) : Rooted sb (R + R') v s := by
  have hkeep : ∀ n, Anchored sb R v s n → Anchored sb (R + R') v s n := by
    rintro n (hl | ⟨e, he, hn⟩)
    · exact .inl hl
    · exact .inr ⟨e, Nat.lt_add_right _ he, hn⟩
  exact ⟨hkeep _ h.root, fun d t n nm hd ht hslot => hkeep n (h.slots d t n nm hd ht hslot)⟩

/-- the copy in memory of a locked inode -/
theorem At.din (h : At sb R v s) (hl : s.locks e = true) :
    (s.inode e).din = v.inode (s.inode e).inum ∧ allocated sb v (s.inode e).inum := by
  obtain ⟨h0, hv⟩ := h.ok.lock e hl
  obtain ⟨hdin, ht⟩ := h.ok.copy e h0 hv
  have hi := h.ok.inum e h0
  have himg : v.inode (s.inode e).inum = inodeOf sb s.disk (s.inode e).inum := by rw [← h.image, imageOf_inode hi]
  rw [hdin] at ht
  exact ⟨hdin.trans himg.symm, hi, by rw [himg]; exact ht⟩

theorem At.sound (h : At sb R v s) (hl : s.locks e = true) : Sound sb (s.file e) ∧ (s.file e).image sb = v := by
  obtain ⟨h0, hv⟩ := h.ok.lock e hl
  have hs := sound_valid h.ok h0 hv
  exact ⟨hs, hs.synced.symm.trans h.image⟩

/-- a changed entry that keeps its inode -/
theorem still_setInode (h : (s.inode e).Stays i) : Still s (s.setInode e i) := by
  intro a
  by_cases ha : a = e
  · rw [ha, setInode_same]
    exact h
  · rw [setInode_other' ha]
    exact ⟨rfl, id⟩

/-! ## References and locks -/

theorem fine_anyhow (stop : Stop) : fine stop → anyhow stop := fun _ => trivial

/-- the entries that iget leaves alone -/
theorem iget_same : wp anyhow (iget n) (fun e s' => s'.disk = s.disk ∧ (s'.inode e).inum = n ∧ Same s.refs s s') s := by
  refine wp_iget (fun e _ hc => ?_) (fun _ e h0 => ?_) fun _ => trivial
  · exact ⟨rfl, by rw [setInode_same]; exact hc, Still.same (still_setInode ⟨rfl, id⟩)⟩
  · refine ⟨rfl, by rw [setInode_same], fun a hpos => ?_⟩
    have hae : a ≠ e := by
      rintro rfl
      rw [Icache.refs, h0] at hpos
      exact absurd hpos (lt_irrefl 0)
    rw [setInode_other' hae]
    exact ⟨rfl, id⟩

theorem iget_at (h : At sb R v s) (hn : n < sb.ninodes) (hanch : Anchored sb R v s n) : wp anyhow (iget n) (fun e s' =>
    At sb (R + one (some e)) v s' ∧ s'.locks = s.locks ∧ (s'.inode e).inum = n ∧ Same R s s' ∧ (R e = 0 → Linked sb v n)) s := by
  have hspec := wp_and (wp_allow (iget_ok h.ok hn) fine_anyhow) (iget_refs h.refs)
  refine wp_mono (wp_and hspec iget_same) ?_
  rintro e s' ⟨⟨⟨hok, hl⟩, href⟩, hdisk, hnum, hsame⟩
  rw [h.refs] at hsame
  refine ⟨⟨hok, hdisk ▸ h.image, href⟩, hl, hnum, hsame, fun hz => ?_⟩
  rcases hanch with hlink | ⟨b, hb, hbn⟩
  · exact hlink
  · -- the entry that already stands for the inode is the one that iget returns
    have hpos : ∀ a, 0 < R a → 0 < s'.refs a := fun a ha => by
      rw [href]
      exact Nat.lt_add_right _ ha
    have hpos' : 0 < s'.refs e := by
      rw [href, Pi.add_apply, one_self]
      omega
    have hbe : b = e := hok.once b e (hpos b hb) hpos' (((hsame b hb).1.trans hbn).trans hnum.symm)
    rw [hbe, hz] at hb
    exact absurd hb (lt_irrefl 0)

theorem idup_at (h : At sb R v s) (he : 0 < R e) : wp anyhow (idup e) (fun _ s' =>
    At sb (R + one (some e)) v s' ∧ s'.locks = s.locks ∧ Still s s') s := by
  have hpos : 0 < (s.inode e).ref := by
    rw [← h.refs] at he
    exact he
  have hok : (s.setInode e { s.inode e with ref := (s.inode e).ref + 1 }).Ok sb :=
    ok_setInode_same h.ok rfl rfl (fun _ => hpos) id fun hl => ⟨Nat.succ_pos _, (h.ok.lock e hl).2⟩
  exact ⟨⟨hok, h.image, by rw [refs_up rfl, h.refs]⟩, locks_setInode_same rfl, still_setInode ⟨rfl, id⟩⟩

/-- **ilock** reads the inode that the entry stands for. -/
theorem ilock_at (h : At sb R v s) : wp anyhow (ilock sb e) (fun _ s' => At sb R v s' ∧ s.locks e = false ∧
    s'.locks = update s.locks e true ∧ Still s s') s := by
  have hspec := wp_and (wp_allow (ilock_ok (e := e) h.ok) fine_anyhow) (ilock_refs h.refs)
  refine wp_mono (wp_and hspec (F := anyhow) (R := fun _ s' => s'.disk = s.disk ∧ Still s s') ?_) ?_
  · simp only [ilock, wp_bind, wp_get, wp_ite, wp_throw, wp_modifyInode]
    exact ⟨fun _ => trivial, fun _ => ⟨fun _ => trivial, fun _ => ⟨fun _ => ⟨rfl, still_setInode ⟨rfl, id⟩⟩,
      fun _ => ⟨fun _ => trivial,
      fun _ => ⟨rfl, still_setInode ⟨rfl, fun _ => rfl⟩⟩⟩⟩⟩⟩
  · rintro - s' ⟨⟨⟨hok, hfree, hl⟩, href⟩, hdisk, hstill⟩
    exact ⟨⟨hok, hdisk ▸ h.image, href⟩, hfree, hl, hstill⟩

theorem iunlock_at (h : At sb R v s) : wp anyhow (iunlock e) (fun _ s' => At sb R v s' ∧
    s'.locks = update s.locks e false ∧ Still s s') s := by
  have hspec := wp_and (wp_allow (iunlock_ok (e := e) h.ok) fine_anyhow) (iunlock_refs (e := e) h.refs)
  refine wp_mono (wp_and hspec (F := anyhow) (R := fun _ s' => s'.disk = s.disk ∧ Still s s') ?_) ?_
  · simp only [iunlock, wp_bind, wp_get, wp_ite, wp_throw, wp_modifyInode]
    exact ⟨fun _ => trivial, fun _ => ⟨rfl, still_setInode ⟨rfl, id⟩⟩⟩
  · rintro - s' ⟨⟨⟨hok, hl⟩, href⟩, hdisk, hstill⟩
    exact ⟨⟨hok, hdisk ▸ h.image, href⟩, hl, hstill⟩

/-- it is not the last reference, or the inode has a link -/
theorem At.kept (h : At sb (R + one (some e)) v s) (hsafe : R e = 0 → Linked sb v (s.inode e).inum) :
    ¬ ((s.inode e).valid = true ∧ (s.inode e).din.nlink = 0 ∧ (s.inode e).ref = 1) := by
  rintro ⟨hv, hnl, hlast⟩
  have hone : (s.inode e).ref = R e + 1 := by
    have := congrFun h.refs e
    simpa [Icache.refs] using this
  have hpos : 0 < (s.inode e).ref := by omega
  obtain ⟨hdin, ht⟩ := h.ok.copy e hpos hv
  have hi := h.ok.inum e hpos
  have himg : v.inode (s.inode e).inum = (s.inode e).din := by rw [← h.image, imageOf_inode hi, hdin]
  refine absurd hnl ?_
  rw [← himg]
  exact hsafe (by omega) ⟨hi, by rw [himg]; exact ht⟩

/-- iput frees nothing if there is another reference or a link -/
theorem iput_at (h : At sb (R + one (some e)) v s) (hsafe : R e = 0 → Linked sb v (s.inode e).inum) :
    wp anyhow (iput sb e) (fun _ s' => At sb R v s' ∧ s'.locks = s.locks ∧ Still s s') s := by
  have hfree : wp anyhow (iputFree sb e) (fun _ s' => s' = s ∧ s.locks e = false) s := by
    simp only [iputFree, wp_bind, wp_get, wp_ite, wp_throw, wp_pure]
    refine ⟨fun _ => trivial, fun hl => ⟨fun hc => absurd hc (h.kept hsafe), fun _ => ⟨trivial, ?_⟩⟩⟩
    simpa [Icache.locks] using hl
  refine wp_seq hfree ?_
  rintro - s1 ⟨rfl, hl⟩
  have hdrop := iputDrop_ok h.ok (e := e) fun hlock => by rw [hl] at hlock; cases hlock
  simp only [iputDrop, wp_modifyInode] at hdrop ⊢
  exact ⟨⟨hdrop.1, h.image, refs_down h.refs rfl⟩, hdrop.2, still_setInode ⟨rfl, id⟩⟩

theorem iunlockput_at (h : At sb (R + one (some e)) v s) (hsafe : R e = 0 → Linked sb v (s.inode e).inum) :
    wp anyhow (iunlockput sb e) (fun _ s' => At sb R v s' ∧ s'.locks = update s.locks e false ∧ Still s s') s := by
  refine wp_seq (iunlock_at h) ?_
  rintro - s1 ⟨h1, hl1, hs1⟩
  refine wp_mono (iput_at h1 (by rw [(hs1 e).1]; exact hsafe)) ?_
  rintro - s2 ⟨h2, hl2, hs2⟩
  exact ⟨h2, hl2.trans hl1, still_trans hs1 hs2⟩

/-! ## Directories -/

theorem lookupEntry_at (h : At sb R v s) (hl : s.locks dp = true) : wp anyhow (onInode dp (lookupEntry sb dev name)) (fun r s' =>
    s' = s ∧ (v.inode (s.inode dp).inum).type = T_DIR ∧
      r = (lookup sb v (s.inode dp).inum name).map fun p => (p.1, DESIZE * p.2)) s := by
  obtain ⟨hsound, himg⟩ := h.sound hl
  refine wp_onInode (D := fun _ => True) (fun _ _ => trivial) (wp_mono (lookupEntry_finds hsound.ok hsound.full trivial trivial) ?_)
  rintro r g ⟨rfl, ht, hrg⟩
  rw [himg] at hrg
  rw [← (h.din hl).1]
  exact ⟨setFile_file, ht, hrg⟩

/-- **dirlookup** returns the inode that the directory names. -/
theorem dirlookup_at (h : At sb R v s) (hl : s.locks dp = true) (hr : Rooted sb R v s) :
    wp anyhow (dirlookup sb dev dp name) (fun r s' => At sb (R + one (r.map Prod.fst)) v s' ∧ s'.locks = s.locks ∧
      Same R s s' ∧ (∀ p, r = some p → R p.1 = 0 → Linked sb v (s'.inode p.1).inum) ∧
      (v.inode (s.inode dp).inum).type = T_DIR ∧
      (r.map fun p => ((s'.inode p.1).inum, p.2)) =
        (lookup sb v (s.inode dp).inum name).map fun p => (p.1, DESIZE * p.2)) s := by
  obtain ⟨-, hal⟩ := h.din hl
  refine wp_seq (lookupEntry_at h hl) ?_
  rintro r s1 ⟨rfl, ht, hrg⟩
  cases hlook : lookup sb v (s1.inode dp).inum name with
  | none =>
    rw [hlook] at hrg
    subst hrg
    exact ⟨h, rfl, same_refl, (by intros; contradiction), ht, rfl⟩
  | some p =>
    obtain ⟨n, t⟩ := p
    rw [hlook] at hrg
    subst hrg
    have hslot := lookup_some hlook
    have hn : n < sb.ninodes := by
      have hdir := h.ok.disk.dirs _ (h.image ▸ hal) (h.image ▸ ht)
      rw [h.image] at hdir
      rw [(slot_inum hslot).1]
      exact hdir t (slot_inside (by rw [hslot]; simp))
    refine wp_seq (iget_at h hn (hr.slots _ t n _ hal ht hslot)) ?_
    rintro e s2 ⟨h2, hl2, hnum, hs2, hlink⟩
    refine ⟨h2, hl2, hs2, ?_, ht, ?_⟩
    · rintro _ ⟨⟩ hz
      rw [hnum]
      exact hlink hz
    · simp [hnum]

/-! ## Paths -/

theorem namexLoop_at {parent : Bool} {names : List Name} (hr : Rooted sb R v s) (h : At sb (R + one (some ip)) v s)
    (hsafe : R ip = 0 → Linked sb v (s.inode ip).inum) :
    wp anyhow (namexLoop sb dev parent ip names) (fun r s' => At sb (R + one (r.map Prod.fst)) v s' ∧ s'.locks = s.locks ∧
      Same R s s' ∧ (∀ p, r = some p → R p.1 = 0 → Linked sb v (s'.inode p.1).inum) ∧
      (r.map fun p => ((s'.inode p.1).inum, p.2)) = walk sb v parent (s.inode ip).inum names) s := by
  induction names generalizing ip s with
  | nil =>
    simp only [namexLoop, wp_ite, wp_bind, wp_pure, walk]
    refine ⟨fun hp => ?_, fun hp => ⟨h, trivial, same_refl, ?_, ?_⟩⟩
    · refine wp_mono (iput_at h hsafe) ?_
      rintro - s1 ⟨h1, hl1, hs1⟩
      exact ⟨h1, hl1, hs1.same, (by intros; contradiction), by rw [if_pos hp]; rfl⟩
    · rintro _ ⟨⟩
      exact hsafe
    · rw [if_neg hp]
      rfl
  | cons name names ih =>
    refine wp_seq (ilock_at h) ?_
    rintro - s1 ⟨h1, hfree, hl1, hs1⟩
    have hlock : s1.locks ip = true := by rw [hl1, update_self]
    have hback : ∀ {s2 s3 : Icache}, s2.locks = s1.locks → s3.locks = update s2.locks ip false → s3.locks = s.locks := by
      intro s2 s3 h2 h3
      rw [h3, h2, hl1, update_idem, ← hfree, update_eq_self]
    have hip := (hs1 ip).1
    have htype := (h1.din hlock).1
    rw [hip] at htype
    rw [← hip] at hsafe
    simp only [wp_bind, wp_get, wp_ite, wp_pure, walk, htype]
    refine ⟨fun hd => ?_, fun hd => ⟨fun hend => ?_, fun hend => ?_⟩⟩
    · refine wp_mono (iunlockput_at h1 hsafe) ?_
      rintro - s2 ⟨h2, hl2, hs2⟩
      exact ⟨h2, hback rfl hl2, same_trans hs1.same hs2.same, (by intros; contradiction), by rw [if_pos hd]; rfl⟩
    · refine wp_mono (iunlock_at h1) ?_
      rintro - s2 ⟨h2, hl2, hs2⟩
      refine ⟨h2, hback rfl hl2, same_trans hs1.same hs2.same, ?_, ?_⟩
      · rintro _ ⟨⟩
        rw [(hs2 ip).1]
        exact hsafe
      · rw [if_neg hd, if_pos hend, Option.map_some, (hs2 ip).1, hip]
    · refine wp_mono (dirlookup_at h1 hlock (rooted_more (rooted_same hr hs1.same))) ?_
      rintro r s2 ⟨h2, hl2, hs2, hlink, -, hres⟩
      rw [hip] at hres
      have hs12 := same_less hs2
      have hsafe2 : R ip = 0 → Linked sb v (s2.inode ip).inum := by
        rw [(hs2 ip (by simp)).1]
        exact hsafe
      rw [if_neg hd, if_neg hend]
      cases r with
      | none =>
        have hnone : lookup sb v (s.inode ip).inum name = none := by simpa using hres.symm
        refine wp_seq (iunlockput_at h2 hsafe2) ?_
        rintro - s3 ⟨h3, hl3, hs3⟩
        exact ⟨h3, hback hl2 hl3, same_trans (same_trans hs1.same hs12) hs3.same, (by intros; contradiction), by rw [hnone]; rfl⟩
      | some p =>
        obtain ⟨next, off⟩ := p
        obtain ⟨q, hq, hqe⟩ := Option.map_eq_some_iff.1 hres.symm
        simp only [Prod.mk.injEq] at hqe
        rw [Option.map_some, add_right_comm] at h2
        refine wp_seq (iunlockput_at h2 fun hz => hsafe2 (Nat.eq_zero_of_add_eq_zero_right hz)) ?_
        rintro - s3 ⟨h3, hl3, hs3⟩
        have hs03 : Same R s s3 := same_trans (same_trans hs1.same hs12) hs3.same
        refine wp_mono (ih (rooted_same hr hs03) h3 fun hz => ?_) ?_
        · rw [(hs3 next).1]
          by_cases hne : next = ip
          · rw [hne] at hz ⊢
            exact hsafe2 hz
          · refine hlink _ rfl ?_
            simp [one_some, Ne.symm hne, hz]
        · rintro r s4 ⟨h4, hl4, hs4, hlink4, hres4⟩
          refine ⟨h4, hl4.trans (hback hl2 hl3), same_trans hs03 hs4, hlink4, ?_⟩
          rw [hq, Option.bind_some, hqe.1, ← (hs3 next).1]
          exact hres4

/-- where a lookup starts, in the image -/
def startAt (cwd : ℕ) (path : Path) : ℕ := if path.head? = some slash then ROOTINO else cwd

/-- **A lookup leaves the disk as it is and finds what walk does.** -/
theorem namex_at {c : Ino} {path : Path} {parent : Bool} (hsb : sb.Ok) (hr : Rooted sb R v s) (h : At sb R v s)
    (hc : 0 < R c) : wp anyhow (namex sb dev c path parent) (fun r s' => At sb (R + one (r.map Prod.fst)) v s' ∧
      s'.locks = s.locks ∧ Same R s s' ∧ (∀ p, r = some p → R p.1 = 0 → Linked sb v (s'.inode p.1).inum) ∧
      (r.map fun p => ((s'.inode p.1).inum, p.2)) = walk sb v parent (startAt (s.inode c).inum path) (elems path)) s := by
  refine wp_bind.2 ?_
  simp only [namexStart, wp_ite, wp_bind, wp_pure, startAt]
  refine ⟨fun hslash => ?_, fun hslash => ?_⟩
  · rw [if_pos hslash]
    refine wp_mono (iget_at h hsb.root hr.root) ?_
    rintro ip s1 ⟨h1, hl1, hnum, hs1, hlink⟩
    refine wp_mono (namexLoop_at (rooted_same hr hs1) h1 (by rw [hnum]; exact hlink)) ?_
    rintro r s2 ⟨h2, hl2, hs2, hlink2, hres⟩
    rw [hnum] at hres
    exact ⟨h2, hl2.trans hl1, same_trans hs1 hs2, hlink2, hres⟩
  · rw [if_neg hslash]
    refine wp_mono (idup_at h hc) ?_
    rintro - s1 ⟨h1, hl1, hs1⟩
    refine wp_mono (namexLoop_at (rooted_same hr hs1.same) h1 fun hz => absurd hc (by omega)) ?_
    rintro r s2 ⟨h2, hl2, hs2, hlink2, hres⟩
    rw [(hs1 c).1] at hres
    exact ⟨h2, hl2.trans hl1, same_trans hs1.same hs2, hlink2, hres⟩

end Xv6.Fs
