/-
Directories as slots.

- `slot v i t`: the number and the name in entry t of directory i; none if the entry is empty or behind the end.
- `lookup v i name`: the first slot that has the name.

Results:
- `lookupEntry_finds`: dirlookup finds what lookup does;
- `isdirempty_slots`: isdirempty looks at every slot from the third one on;
- `addEntry_slots`, `clear_slots`: an entry is added to an empty slot, or cleared; every other slot, and the rest of the inode
  but its size and its blocks, stay as they are.
-/
import Mathlib.Data.List.TakeWhile
import Xv6.Fs.Entries

namespace Xv6.Fs

open Bytes Fallible List

attribute [local semireducible] wp

variable {sb : Super} {dev : Devsw} {v w : Image} {f g : File} {i j t off n k inum : ℕ} {de : Dirent}
  {name nm : Name} {E : String → Prop} {msg : String}

/-! ## Slots -/

def direntAt (sb : Super) (v : Image) (i t : ℕ) : Dirent := direntOf (fileBytes sb v i (DESIZE * t) DESIZE)

/-- what an entry says -/
def Dirent.link (de : Dirent) : Option (ℕ × Name) := if de.inum = 0 then none else some (de.inum, de.name.cut)

def slot (sb : Super) (v : Image) (i t : ℕ) : Option (ℕ × Name) :=
  if DESIZE * t + DESIZE ≤ (v.inode i).size then (direntAt sb v i t).link else none

/-- the number and the place, if the slot has the name -/
def hit (sb : Super) (v : Image) (i : ℕ) (name : Name) (t : ℕ) : Option (ℕ × ℕ) :=
  match slot sb v i t with
  | some (n, nm) => if name.cut = nm then some (n, t) else none
  | none => none

def lookup (sb : Super) (v : Image) (i : ℕ) (name : Name) : Option (ℕ × ℕ) :=
  (List.range' 0 ((v.inode i).size / DESIZE)).findSome? (hit sb v i name)

theorem slot_inside (h : slot sb v i t ≠ none) : DESIZE * t + DESIZE ≤ (v.inode i).size := by
  rw [slot] at h
  split_ifs at h with hle
  · exact hle
  · exact absurd rfl h

theorem slot_inum (h : slot sb v i t = some (n, nm)) : n = entryInum sb v i t ∧ n ≠ 0 := by
  have hle : DESIZE * t + DESIZE ≤ (v.inode i).size := slot_inside (by rw [h]; simp)
  rw [slot, if_pos hle, Dirent.link] at h
  split_ifs at h with h0
  simp only [Option.some.injEq, Prod.mk.injEq] at h
  rw [← h.1]
  exact ⟨direntOf_inum _, h0⟩

theorem hit_eq_some : hit sb v i name t = some (n, k) ↔ k = t ∧ slot sb v i t = some (n, name.cut) := by
  rw [hit]
  cases hs : slot sb v i t with
  | none => simp
  | some p =>
    simp only [Option.some.injEq]
    constructor
    · intro h
      split_ifs at h with hc
      cases h
      exact ⟨rfl, by rw [hc]⟩
    · rintro ⟨rfl, rfl⟩
      rw [if_pos rfl]

theorem lookup_some (h : lookup sb v i name = some (n, t)) : slot sb v i t = some (n, name.cut) := by
  obtain ⟨t', -, ht'⟩ := exists_of_findSome?_eq_some h
  obtain ⟨rfl, hs⟩ := hit_eq_some.1 ht'
  exact hs

theorem lookup_none (h : lookup sb v i name = none) (t n : ℕ) : slot sb v i t ≠ some (n, name.cut) := by
  intro hs
  have hD := DESIZE_eq
  have hle : DESIZE * t + DESIZE ≤ (v.inode i).size := slot_inside (by rw [hs]; simp)
  have hmem : t ∈ List.range' 0 ((v.inode i).size / DESIZE) := by
    rw [mem_range'_1, hD]
    rw [hD] at hle
    omega
  have hhit := findSome?_eq_none_iff.1 h t hmem
  rw [hit_eq_some.2 ⟨rfl, hs⟩] at hhit
  cases hhit

/-- the slots of another inode -/
theorem apart_slot (h : Apart sb i v w) (hj : j ≠ i) : slot sb w j t = slot sb v j t := by
  rw [slot, slot, h.inode j hj, direntAt, direntAt, fileBytes, fileBytes]
  simp only [apart_fileByte h hj]

/-! ## Looking through a directory -/

section Read

variable (hf : FileOk sb f) (hfull : Full sb (f.image sb) f.inum) (ht : f.ip.type ≠ T_DEV)
include hf hfull ht

/-- reading an entry that is there -/
theorem readDirent_at (hE : E msg) : wp E (readDirent sb dev msg (DESIZE * t)) (fun de g =>
    g = f ∧ DESIZE * t + DESIZE ≤ f.ip.size ∧ slot sb (f.image sb) f.inum t = de.link ∧
      de = direntAt sb (f.image sb) f.inum t) f := by
  refine wp_mono (readDirent_spec hf hfull hE ht _) ?_
  rintro de g ⟨rfl, hle, rfl⟩
  refine ⟨rfl, hle, ?_, rfl⟩
  rw [slot, image_inode, if_pos hle]
  rfl

theorem findEntry_finds (hE : E "dirlookup read") (hk : f.ip.size / DESIZE < t + k) :
    wp E (findEntry sb dev name k (DESIZE * t)) (fun r g => g = f ∧
      r = ((List.range' t (f.ip.size / DESIZE - t)).findSome? (hit sb (f.image sb) f.inum name)).map
        fun p => (p.1, DESIZE * p.2)) f := by
  have hD := DESIZE_eq
  induction k generalizing t with
  | zero =>
    rw [show f.ip.size / DESIZE - t = 0 by omega]
    exact ⟨rfl, rfl⟩
  | succ k ih =>
    simp only [findEntry, wp_bind, wp_get, wp_ite, wp_pure]
    refine ⟨fun hend => ⟨trivial, ?_⟩, fun _ => wp_mono (readDirent_at hf hfull ht hE) ?_⟩
    · rw [show f.ip.size / DESIZE - t = 0 by rw [hD] at hend ⊢; omega]
      rfl
    · rintro de g ⟨rfl, hle, hslot, -⟩
      have hlen : g.ip.size / DESIZE - t = (g.ip.size / DESIZE - (t + 1)) + 1 := by
        rw [hD] at hle ⊢
        omega
      have hhit : hit sb (g.image sb) g.inum name t =
          if de.inum ≠ 0 ∧ namecmp name de.name = true then some (de.inum, t) else none := by
        rw [hit, hslot, Dirent.link]
        by_cases h0 : de.inum = 0
        · simp [h0]
        · simp [h0, namecmp]
      rw [hlen, List.range'_succ, findSome?_cons, hhit]
      refine ⟨fun hc => ⟨rfl, ?_⟩, fun hc => ?_⟩
      · rw [if_pos hc]
        rfl
      · rw [if_neg hc]
        exact ih (t := t + 1) (by omega)

theorem emptyEntry_finds (hE : E "dirlink read") (hk : f.ip.size / DESIZE < t + k) (hle : DESIZE * t ≤ f.ip.size) :
    wp E (emptyEntry sb dev k (DESIZE * t)) (fun o g => g = f ∧ ∃ t', o = DESIZE * t' ∧ o ≤ f.ip.size ∧
      slot sb (f.image sb) f.inum t' = none) f := by
  have hD := DESIZE_eq
  induction k generalizing t with
  | zero =>
    rw [hD] at hk hle
    omega
  | succ k ih =>
    simp only [emptyEntry, wp_bind, wp_get, wp_ite, wp_pure]
    refine ⟨fun hend => ⟨trivial, t, rfl, hle, ?_⟩, fun _ => wp_mono (readDirent_at hf hfull ht hE) ?_⟩
    · rw [slot, image_inode, if_neg (by omega)]
    · rintro de g ⟨rfl, hin, hslot, -⟩
      refine ⟨fun h0 => ⟨rfl, t, rfl, hle, ?_⟩, fun _ => ih (t := t + 1) (by omega) hin⟩
      rw [hslot, Dirent.link, if_pos h0]

theorem emptyFrom_slots (hE : E "isdirempty: readi") (hk : f.ip.size / DESIZE < t + k) :
    wp E (emptyFrom sb dev k (DESIZE * t))
      (fun r g => g = f ∧ (r = true ↔ ∀ t', t ≤ t' → slot sb (f.image sb) f.inum t' = none)) f := by
  have hD := DESIZE_eq
  induction k generalizing t with
  | zero =>
    refine ⟨rfl, fun _ t' ht' => ?_, fun _ => rfl⟩
    rw [slot, image_inode, if_neg (by rw [hD] at hk ⊢; omega)]
  | succ k ih =>
    simp only [emptyFrom, wp_bind, wp_get, wp_ite, wp_pure]
    refine ⟨fun hend => ⟨trivial, fun _ t' ht' => ?_, fun _ => trivial⟩, fun _ => wp_mono (readDirent_at hf hfull ht hE) ?_⟩
    · rw [slot, image_inode, if_neg (by rw [hD] at hend ⊢; omega)]
    · rintro de g ⟨rfl, hin, hslot, -⟩
      refine ⟨fun hne => ⟨rfl, (by intros; contradiction), fun hall => ?_⟩, fun h0 => wp_mono (ih (t := t + 1) (by omega)) ?_⟩
      · have hnone := hall t le_rfl
        rw [hslot, Dirent.link, if_neg hne] at hnone
        cases hnone
      · rintro r g' ⟨rfl, hr⟩
        refine ⟨rfl, fun htrue t' ht' => ?_, fun hall => hr.2 fun t' ht' => hall t' (by omega)⟩
        rcases Nat.eq_or_lt_of_le ht' with rfl | hlt
        · rw [hslot, Dirent.link, if_pos (not_not.1 h0)]
        · exact hr.1 htrue t' hlt

end Read

section Dir

variable (hf : FileOk sb f) (hfull : Full sb (f.image sb) f.inum)
include hf hfull

/-- **dirlookup finds the first slot that has the name.** -/
theorem lookupEntry_finds (hE : E "dirlookup read") (hE' : E "dirlookup not DIR") :
    wp E (lookupEntry sb dev name) (fun r g => g = f ∧ f.ip.type = T_DIR ∧
      r = (lookup sb (f.image sb) f.inum name).map fun p => (p.1, DESIZE * p.2)) f := by
  simp only [lookupEntry, wp_bind, wp_get, wp_ite, wp_throw]
  refine ⟨fun _ => hE', fun hdir => ?_⟩
  rw [not_not] at hdir
  refine wp_mono (findEntry_finds (t := 0) hf hfull (by rw [hdir]; decide) hE ?_) ?_
  · rw [entryCount]
    omega
  · rintro r g ⟨rfl, hr⟩
    refine ⟨rfl, hdir, ?_⟩
    rw [lookup, image_inode]
    exact hr

theorem isdirempty_slots (hE : E "isdirempty: readi") (ht : f.ip.type ≠ T_DEV) : wp E (isdirempty sb dev) (fun r g => g = f ∧
    (r = true ↔ ∀ t, 2 ≤ t → slot sb (f.image sb) f.inum t = none)) f := by
  simp only [isdirempty, wp_bind, wp_get]
  rw [show 2 * DESIZE = DESIZE * 2 from rfl]
  refine emptyFrom_slots hf hfull ht hE ?_
  rw [entryCount]
  omega

end Dir

/-! ## Writing an entry -/

/-- writei of a file that is no device returns -1 only if it has changed nothing -/
theorem writei_file (hsb : sb.Ok) (hf : FileOk sb f) (hfull : Full sb (f.image sb) f.inum) (ht : f.ip.type ≠ T_DEV)
    (src : List UInt8) :
    wp notFreed (writei sb dev src off) (fun r g => r = none ∨ off ≤ f.ip.size ∧ Written sb f g off src) f := by
  refine wp_mono (writei_plain hsb hf hfull ht dev src off) fun r g hr => ?_
  rcases hr with ⟨hr, -⟩ | ⟨-, hoff, -, -, hw⟩
  · exact .inl hr
  · exact .inr ⟨hoff, hw⟩

/-- the bytes of an entry say what it is -/
theorem direntOf_bytes (h : de.inum < 2 ^ 16) : direntOf de.bytes = de := by
  have hlen : (leBytes 2 de.inum).length = 2 := leBytes_length ..
  rw [direntOf, Dirent.bytes, take_left' hlen, drop_left' hlen, le_leBytes, Nat.mod_eq_of_lt (by simpa using h)]

/-- padding does not change a name -/
theorem cut_pad (m : ℕ) : Name.cut (name.cut ++ List.replicate m 0) = name.cut := by
  have hlen : name.cut.length ≤ DIRSIZ := ( takeWhile_prefix _).length_le.trans (length_take_le ..)
  have hall : ∀ c ∈ name.cut, c ≠ 0 := fun c hc => by simpa using mem_takeWhile_imp hc
  rw [Name.cut, take_append, take_of_length_le hlen, take_replicate]
  rw [takeWhile_append_of_pos fun c hc => by simpa using hall c hc]
  cases min (DIRSIZ - name.cut.length) m with
  | zero => simp
  | succ m => simp [replicate_succ]

theorem dirent_link (h0 : inum ≠ 0) (h : inum < 2 ^ 16) : (dirent name inum).link = some (inum, name.cut) := by
  have hmod : inum % 2 ^ 16 = inum := Nat.mod_eq_of_lt h
  simp only [Dirent.link, dirent, hmod, if_neg h0, cut_pad]

/-- the slots after entry t has been written -/
theorem slot_written (hw : Written sb f g (DESIZE * t) de.bytes) (hle : DESIZE * t ≤ f.ip.size)
    (hlen : de.bytes.length = DESIZE) (hword : de.inum < 2 ^ 16) (t' : ℕ) :
    slot sb (g.image sb) f.inum t' = if t' = t then de.link else slot sb (f.image sb) f.inum t' := by
  have hD := DESIZE_eq
  have hsize : ((g.image sb).inode f.inum).size = max f.ip.size (DESIZE * t + DESIZE) := by
    rw [← hw.inum, image_inode, hw.fields, if_neg (ne_nil_of_length_pos (by omega)), hlen]
  have hbytes : ∀ o, fileByte sb (g.image sb) f.inum o = written (fileByte sb (f.image sb) f.inum) (DESIZE * t) de.bytes o :=
    fun o => congrFun hw.bytes o
  rw [slot, hsize]
  split_ifs with hin heq heq
  · -- the new entry
    subst heq
    have hnew : fileBytes sb (g.image sb) f.inum (DESIZE * t') DESIZE = de.bytes := by
      refine ext_getElem (by rw [fileBytes_length, hlen]) fun o h1 h2 => ?_
      rw [fileBytes_length] at h1
      simp only [fileBytes, getElem_map, getElem_range, hbytes, written]
      rw [if_pos (by omega), Nat.add_sub_cancel_left, getD_eq_getElem _ _ h2]
    rw [direntAt, hnew, direntOf_bytes hword]
  · -- another one, inside the old directory
    have hold : DESIZE * t' + DESIZE ≤ f.ip.size := by
      rw [hD] at hin hle ⊢
      omega
    have hsame : direntAt sb (g.image sb) f.inum t' = direntAt sb (f.image sb) f.inum t' := by
      rw [direntAt, direntAt, fileBytes, fileBytes]
      congr 1
      refine map_congr_left fun o ho => ?_
      have ho := mem_range.1 ho
      rw [hbytes, written, if_neg (by rw [hlen, hD] at *; omega)]
    rw [hsame, slot, image_inode, if_pos hold]
  · rw [heq] at hin
    exact absurd (le_max_right ..) hin
  · rw [slot, image_inode, if_neg (by omega)]

/-- what an entry that is written changes -/
structure SlotSet (sb : Super) (f g : File) (t : ℕ) (x : Option (ℕ × Name)) : Prop where
  kept : Kept sb f g
  inside : DESIZE * t ≤ f.ip.size
  fields : g.ip = { f.ip with addrs := g.ip.addrs, size := max f.ip.size (DESIZE * t + DESIZE) }
  slots : ∀ t', slot sb (g.image sb) f.inum t' = if t' = t then x else slot sb (f.image sb) f.inum t'

theorem writeDirent_slots (hsb : sb.Ok) (hE : notFreed msg) (hf : Sound sb f) (ht : f.ip.type ≠ T_DEV)
    (hlen : de.bytes.length = DESIZE) (hde : de.inum < sb.ninodes) (hword : de.inum < 2 ^ 16) :
    wp notFreed (writeDirent sb dev msg (DESIZE * t) de) (fun _ g => SlotSet sb f g t de.link) f := by
  have hkept : wp notFreed (writeDirent sb dev msg (DESIZE * t) de) (fun _ g => Kept sb f g) f :=
    writeDirent_kept hsb hE hf (Nat.mul_mod_right ..) hlen hde hword
  have hwrite : wp notFreed (writeDirent sb dev msg (DESIZE * t) de) (fun _ g => DESIZE * t ≤ f.ip.size ∧
      Written sb f g (DESIZE * t) de.bytes) f := by
    refine wp_seq (writei_file hsb hf.ok hf.full ht de.bytes) fun r g hg => ?_
    simp only [wp_ite, wp_throw, wp_pure]
    refine ⟨fun _ => hE, fun hr => hg.resolve_left fun hnone => hr ?_⟩
    rw [hnone]
    simp
  refine wp_mono (wp_and hkept hwrite) fun _ g hg => ⟨hg.1, hg.2.1, ?_, slot_written hg.2.2 hg.2.1 hlen hword⟩
  have hD := DESIZE_eq
  have hfields := hg.2.2.fields
  rw [if_neg (ne_nil_of_length_pos (by omega)), hlen] at hfields
  exact hfields

/-- **dirlink fills an empty slot.** -/
theorem addEntry_slots (hsb : sb.Ok) (hf : Sound sb f) (ht : f.ip.type = T_DIR) (h0 : inum ≠ 0) (hinum : inum < sb.ninodes)
    (hword : inum < 2 ^ 16) : wp notFreed (addEntry sb dev name inum) (fun _ g => ∃ t, slot sb (f.image sb) f.inum t = none ∧
      SlotSet sb f g t (some (inum, name.cut))) f := by
  have htd : f.ip.type ≠ T_DEV := by rw [ht]; decide
  simp only [addEntry, wp_bind, wp_get]
  refine wp_mono (emptyEntry_finds (t := 0) hf.ok hf.full htd (by simp [notFreed]) (by rw [entryCount]; omega) (by simp)) ?_
  rintro _ g ⟨rfl, t, rfl, -, hempty⟩
  have hmod : (dirent name inum).inum = inum := Nat.mod_eq_of_lt hword
  refine wp_mono (writeDirent_slots hsb (by simp [notFreed]) hf htd (dirent_length name inum) (by rw [hmod]; exact hinum)
    (by rw [hmod]; exact hword)) fun _ g' hg => ⟨t, hempty, ?_⟩
  rw [dirent_link h0 hword] at hg
  exact hg

/-- an entry is cleared -/
theorem clear_slots (hsb : sb.Ok) (hf : Sound sb f) (ht : f.ip.type ≠ T_DEV) :
    wp notFreed (writeDirent sb dev "unlink: writei" (DESIZE * t) emptyDirent) (fun _ g => SlotSet sb f g t none) f :=
  writeDirent_slots hsb (by simp [notFreed]) hf ht rfl (Nat.zero_lt_of_lt hsb.root) (by norm_num [emptyDirent])

end Xv6.Fs
