/-
The configuration table of a multiprocessor (mp.c): what mpconfig accepts, and the loop of mpinit over its entries.

- A table is a byte for each offset from conf; mpinit reads it and does not write it. `header` is the size of struct mpconf.
- `accepted T`: mpconfig's tests of the signature, the version and the checksum.
- `step`, `entryLoop`, `mpinit`: one turn of the loop, the loop with a bound on its turns, and what follows it.
- `LaidOut T e p ts`: from p to the end e, the table is the entries ts.

Results:
- `step_unknown`: an entry of another type clears ismp and is read again, as `break` leaves the switch and not the loop;
- `mpinit_settles_iff`: **mpinit ends exactly for the tables that are sequences of entries of the five known types**.
-/
import Mathlib.Tactic

namespace Xv6.Mp

abbrev Table := ℕ → UInt8

def NCPU : ℕ := 8

/-- `sizeof(struct mpconf)` -/
def header : ℕ := 44

/-! ## mpconfig -/

/-- `sum`, which returns a uchar -/
def sum (T : Table) : ℕ → UInt8
  | 0 => 0
  | n + 1 => sum T n + T n

/-- `conf->length` -/
def tableLength (T : Table) : ℕ := (T 4).toNat + 256 * (T 5).toNat

/-- the tests of mpconfig: "PCMP", version 1 or 4, and the bytes add up to 0 -/
def accepted (T : Table) : Bool :=
  ([T 0, T 1, T 2, T 3] == [80, 67, 77, 80]) && (T 6 == 1 || T 6 == 4) && (sum T (tableLength T) == 0)

/-! ## mpinit -/

inductive EntryType where
  | proc | bus | ioapic | iointr | lintr
  deriving DecidableEq, Repr

namespace EntryType

def code : EntryType → UInt8
  | proc => 0 | bus => 1 | ioapic => 2 | iointr => 3 | lintr => 4

def size : EntryType → ℕ
  | proc => 20
  | bus | ioapic | iointr | lintr => 8

/-- the case of the switch -/
def ofByte? (b : UInt8) : Option EntryType := [proc, bus, ioapic, iointr, lintr].find? fun t => t.code == b

theorem ofByte?_code (t : EntryType) : ofByte? t.code = some t := by
  cases t <;> rfl

theorem code_of_ofByte? {b : UInt8} {t : EntryType} (h : ofByte? b = some t) : b = t.code := by
  have hfound := List.find?_some h
  exact (beq_iff_eq.1 hfound).symm

end EntryType

structure Machine where
  p : ℕ
  ismp : Bool
  /-- `cpus[0..ncpu).apicid` -/
  apicids : List UInt8
  ioapicid : UInt8
  deriving DecidableEq, Repr

inductive Panic where
  | notSMP  -- "Expect to run on an SMP"
  | notSuitable  -- "Didn't find a suitable machine"
  deriving DecidableEq, Repr

/-- the body of the loop -/
def step (T : Table) (m : Machine) : Machine :=
  match EntryType.ofByte? (T m.p) with
  | some .proc =>
    let m := if m.apicids.length < NCPU then { m with apicids := m.apicids ++ [T (m.p + 1)] } else m
    { m with p := m.p + 20 }
  | some .ioapic => { m with ioapicid := T (m.p + 1), p := m.p + 8 }
  | some .bus | some .iointr | some .lintr => { m with p := m.p + 8 }
  | none => { m with ismp := false }

/-- the loop, for at most fuel turns -/
def entryLoop (T : Table) (e : ℕ) : ℕ → Machine → Option Machine
  | 0, _ => none
  | fuel + 1, m => if m.p < e then entryLoop T e fuel (step T m) else some m

/-- none: still in the loop when the fuel is used up -/
def mpinit (fuel : ℕ) (T : Table) (ioapicid : UInt8) : Option (Except Panic Machine) :=
  if accepted T then
    (entryLoop T (tableLength T) fuel ⟨header, true, [], ioapicid⟩).map fun m => if m.ismp then .ok m else .error .notSuitable
  else some (.error .notSMP)

/-! ## Tables -/

variable {T : Table} {e fuel : ℕ} {m m' : Machine}

/-- from p to e the table is the entries ts, the last of which may be longer than the table -/
def LaidOut (T : Table) (e : ℕ) : ℕ → List EntryType → Prop
  | p, [] => e ≤ p
  | p, t :: ts => p < e ∧ T p = t.code ∧ LaidOut T e (p + t.size) ts

theorem step_known {t : EntryType} (h : T m.p = t.code) : (step T m).p = m.p + t.size ∧ (step T m).ismp = m.ismp := by
  rw [step, h, EntryType.ofByte?_code]
  cases t with
  | proc =>
    dsimp only
    split_ifs <;> exact ⟨rfl, rfl⟩
  | _ => exact ⟨rfl, rfl⟩

theorem step_unknown (h : EntryType.ofByte? (T m.p) = none) : step T m = { m with ismp := false } := by
  rw [step, h]

/-- a loop that ends has gone over entries -/
theorem laidOut_of_entryLoop (h : entryLoop T e fuel m = some m') : ∃ ts, LaidOut T e m.p ts := by
  induction fuel generalizing m with
  | zero => cases h
  | succ fuel ih =>
    rw [entryLoop] at h
    split_ifs at h with hp
    · obtain ⟨ts, hts⟩ := ih h
      cases hk : EntryType.ofByte? (T m.p) with
      | some t =>
        have hcode := EntryType.code_of_ofByte? hk
        rw [(step_known hcode).1] at hts
        exact ⟨t :: ts, hp, hcode, hts⟩
      | none =>
        -- the next turn finds the same entry
        rw [step_unknown hk] at hts
        exact ⟨ts, hts⟩
    · exact ⟨[], Nat.le_of_not_lt hp⟩

/-- over entries, the loop ends behind the last with ismp as it was -/
theorem entryLoop_of_laidOut {ts : List EntryType} (h : LaidOut T e m.p ts) :
    ∃ fuel m', entryLoop T e fuel m = some m' ∧ e ≤ m'.p ∧ m'.ismp = m.ismp := by
  induction ts generalizing m with
  | nil => exact ⟨1, m, if_neg (Nat.not_lt.2 h), h, rfl⟩
  | cons t ts ih =>
    obtain ⟨hp, hcode, hrest⟩ := h
    obtain ⟨hnext, hismp⟩ := step_known (m := m) hcode
    rw [← hnext] at hrest
    obtain ⟨fuel, m', hloop, hend, hflag⟩ := ih hrest
    exact ⟨fuel + 1, m', (if_pos hp).trans hloop, hend, hflag.trans hismp⟩

/-- the loop over the entries ends, with the table consumed or with the panic -/
def Settles (T : Table) (ioapicid : UInt8) : Prop :=
  ∃ fuel, (∃ m, mpinit fuel T ioapicid = some (.ok m) ∧ tableLength T ≤ m.p) ∨ mpinit fuel T ioapicid = some (.error .notSuitable)

/-- **mpinit ends exactly for the tables that are sequences of entries of the known types.** -/
theorem mpinit_settles_iff (T : Table) (ioapicid : UInt8) (h : accepted T = true) :
    Settles T ioapicid ↔ ∃ ts, LaidOut T (tableLength T) header ts := by
  constructor
  · intro ⟨fuel, hends⟩
    have hloop : ∃ r, mpinit fuel T ioapicid = some r := by
      rcases hends with ⟨m, hm, -⟩ | hm
      exacts [⟨_, hm⟩, ⟨_, hm⟩]
    obtain ⟨r, hr⟩ := hloop
    rw [mpinit, if_pos h] at hr
    obtain ⟨m, hm, -⟩ := Option.map_eq_some_iff.1 hr
    exact laidOut_of_entryLoop hm
  · intro ⟨ts, hts⟩
    obtain ⟨fuel, m, hm, hend, hismp⟩ := entryLoop_of_laidOut (m := ⟨header, true, [], ioapicid⟩) hts
    refine ⟨fuel, .inl ⟨m, ?_, hend⟩⟩
    rw [mpinit, if_pos h, hm, Option.map_some, if_pos hismp]

/-- a table of one processor -/
def oneCpu (p : ℕ) : UInt8 := [80, 67, 77, 80, 64, 0, 1, 143].getD p 0

theorem mpinit_settles_iff_oneCpu : Settles oneCpu 0 :=
  (mpinit_settles_iff oneCpu 0 (by decide +kernel)).2 ⟨[.proc], by decide, rfl, show 64 ≤ 64 by decide⟩

/-- a table of one entry, of type 5 -/
def unknownEntry (p : ℕ) : UInt8 := if p = header then 5 else [80, 67, 77, 80, 45, 0, 1, 157].getD p 0

/-- The table with the unknown entry is accepted, and mpinit never leaves the loop: there is no panic. -/
theorem mpinit_spins : accepted unknownEntry = true ∧ ∀ fuel, mpinit fuel unknownEntry 0 = none := by
  have hacc : accepted unknownEntry = true := by decide +kernel
  refine ⟨hacc, ?_⟩
  intro fuel
  rw [mpinit, if_pos hacc, Option.map_eq_none_iff, Option.eq_none_iff_forall_ne_some]
  intro m hm
  obtain ⟨ts, hts⟩ := laidOut_of_entryLoop hm
  cases ts with
  | nil => exact absurd (show 45 ≤ 44 from hts) (by decide)
  | cons t ts =>
    have hcode : (5 : UInt8) = t.code := hts.2.1
    cases t <;> exact absurd hcode (by decide)

end Xv6.Mp
