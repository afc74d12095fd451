/-
Runs of a machine, and label sequences of an abstract system that it refines. States, operations and labels are
arbitrary.

- `Along step C s as`: in the run of `as` from s, every step meets the condition C on its state and operation.
- `Throughout step P s as`: P holds in every state that the run visits.
- `System`: labelled changes of a state, with what must hold before each (`can`) and the change (`apply`).
- `Trace R s ls u`: steps of the relation R with the labels ls.
- `Takes M Q t u`: M goes from t to u by labels of a kind Q, each possible where it is taken.

Results:
- `along_inv`: what every step meeting C keeps, a run along C keeps. `along_of_inv` derives one condition from another
  with an invariant. `along_append` cuts a run in two.
- `trace_sim`: a simulation of every step is one of every run.
- `takes_inv`: what every label of the kind keeps, a sequence keeps; `takes_rel` relates its ends.
-/
import Mathlib.Logic.Relation
import Mathlib.Tactic

namespace Xv6.Runs

open List

/-! ## Runs with a condition on every step -/

section Along

variable {S A : Type} {step : S → A → S} {C D : S → A → Prop} {P : S → Prop} {s : S} {as bs : List A}

def Along (step : S → A → S) (C : S → A → Prop) : S → List A → Prop
  | _, [] => True
  | s, a :: as => C s a ∧ Along step C (step s a) as

@[simp] theorem along_nil : Along step C s [] := trivial

@[simp] theorem along_cons {a : A} : Along step C s (a :: as) ↔ C s a ∧ Along step C (step s a) as := Iff.rfl

instance decidableAlong [∀ s a, Decidable (C s a)] : ∀ (s : S) (as : List A), Decidable (Along step C s as)
  | _, [] => .isTrue trivial
  | s, a :: as =>
    haveI : Decidable (Along step C (step s a) as) := decidableAlong _ as
    inferInstanceAs (Decidable (C s a ∧ Along step C (step s a) as))

theorem along_append : Along step C s (as ++ bs) ↔ Along step C s as ∧ Along step C (as.foldl step s) bs := by
  induction as generalizing s with
  | nil => simp
  | cons a as ih => simp only [cons_append, along_cons, ih, foldl_cons, and_assoc]

theorem along_of_mem (h : ∀ a ∈ as, ∀ s, C s a) (s : S) : Along step C s as := by
  induction as generalizing s with
  | nil => trivial
  | cons a as ih => exact ⟨h a mem_cons_self s, ih (fun b hb => h b (mem_cons_of_mem a hb)) _⟩

theorem along_and : Along step (fun s a => C s a ∧ D s a) s as ↔ Along step C s as ∧ Along step D s as := by
  induction as generalizing s with
  | nil => simp
  | cons a as ih => simp only [along_cons, ih, and_and_and_comm]

theorem along_mono (h : ∀ s a, C s a → D s a) (ha : Along step C s as) : Along step D s as := by
  induction as generalizing s with
  | nil => trivial
  | cons a as ih => exact ⟨h s a ha.1, ih ha.2⟩

/-- **Invariant rule.** -/
theorem along_inv (hP : ∀ s a, C s a → P s → P (step s a)) (ha : Along step C s as) (hs : P s) :
    P (as.foldl step s) := by
  induction as generalizing s with
  | nil => exact hs
  | cons a as ih => exact ih ha.2 (hP s a ha.1 hs)

/-- a condition that an invariant gives -/
theorem along_of_inv (hP : ∀ s a, D s a → P s → C s a ∧ P (step s a)) (ha : Along step D s as) (hs : P s) :
    Along step C s as := by
  induction as generalizing s with
  | nil => trivial
  | cons a as ih => exact ⟨(hP s a ha.1 hs).1, ih ha.2 (hP s a ha.1 hs).2⟩

/-- P holds in every state that the run visits, the first and the last included -/
def Throughout (step : S → A → S) (P : S → Prop) : S → List A → Prop
  | s, [] => P s
  | s, a :: as => P s ∧ Throughout step P (step s a) as

@[simp] theorem throughout_nil : Throughout step P s [] ↔ P s := Iff.rfl

@[simp] theorem throughout_cons {a : A} :
    Throughout step P s (a :: as) ↔ P s ∧ Throughout step P (step s a) as := Iff.rfl

instance decidableThroughout [DecidablePred P] : ∀ (s : S) (as : List A), Decidable (Throughout step P s as)
  | s, [] => inferInstanceAs (Decidable (P s))
  | s, a :: as =>
    haveI : Decidable (Throughout step P (step s a) as) := decidableThroughout _ as
    inferInstanceAs (Decidable (P s ∧ Throughout step P (step s a) as))

theorem throughout_head (h : Throughout step P s as) : P s := by
  cases as with
  | nil => exact h
  | cons a as => exact h.1

theorem throughout_last (h : Throughout step P s as) : P (as.foldl step s) := by
  induction as generalizing s with
  | nil => exact h
  | cons a as ih => exact ih h.2

theorem throughout_append : Throughout step P s (as ++ bs) ↔
    Throughout step P s as ∧ Throughout step P (as.foldl step s) bs := by
  induction as generalizing s with
  | nil =>
    simp only [nil_append, throughout_nil, foldl_nil]
    exact ⟨fun h => ⟨throughout_head h, h⟩, fun h => h.2⟩
  | cons a as ih => simp only [cons_append, throughout_cons, ih, foldl_cons, and_assoc]

end Along

/-! ## Runs of a relation -/

inductive Trace {S Λ : Type} (R : S → Λ → S → Prop) : S → List Λ → S → Prop where
  | nil (s : S) : Trace R s [] s
  | cons {s s' u : S} {l : Λ} {ls : List Λ} (h : R s l s') (ht : Trace R s' ls u) : Trace R s (l :: ls) u

/-- **Simulation rule.** -/
theorem trace_sim {S T Λ : Type} {R : S → Λ → S → Prop} {R' : T → Λ → T → Prop} {Q : S → T → Prop} {s u : S} {t : T}
    {ls : List Λ} (hsim : ∀ s l s' t, R s l s' → Q s t → ∃ t', R' t l t' ∧ Q s' t') (h : Trace R s ls u) (hst : Q s t) :
    ∃ t', Trace R' t ls t' ∧ Q u t' := by
  induction h generalizing t with
  | nil s => exact ⟨t, .nil t, hst⟩
  | cons h _ ih =>
    obtain ⟨t1, h1, hs1⟩ := hsim _ _ _ t h hst
    obtain ⟨t2, h2, hs2⟩ := ih hs1
    exact ⟨t2, .cons h1 h2, hs2⟩

/-! ## Labelled systems -/

structure System (S Λ : Type) where
  can : S → Λ → Prop
  apply : S → Λ → S

section Takes

variable {S Λ : Type} {M : System S Λ} {Q R : S → Λ → Prop} {t u v : S}

/-- t becomes u by labels of the kind Q -/
def Takes (M : System S Λ) (Q : S → Λ → Prop) : S → S → Prop :=
  Relation.ReflTransGen fun t u => ∃ l, Q t l ∧ M.can t l ∧ u = M.apply t l

theorem takes_refl (t : S) : Takes M Q t t := Relation.ReflTransGen.refl

theorem takes_one {l : Λ} (h : M.can t l) (hQ : Q t l) : Takes M Q t (M.apply t l) :=
  Relation.ReflTransGen.single ⟨l, hQ, h, rfl⟩

theorem takes_trans (h1 : Takes M Q t u) (h2 : Takes M Q u v) : Takes M Q t v := Relation.ReflTransGen.trans h1 h2

theorem takes_mono (hQR : ∀ t l, Q t l → R t l) (h : Takes M Q t u) : Takes M R t u :=
  Relation.ReflTransGen.mono (by rintro a b ⟨l, hQ, hl, e⟩; exact ⟨l, hQR a l hQ, hl, e⟩) t u h

/-- **Invariant rule for label sequences.** -/
theorem takes_inv {P : S → Prop} (hP : ∀ t l, Q t l → M.can t l → P t → P (M.apply t l)) (h : Takes M Q t u)
    (ht : P t) : P u := by
  induction h with
  | refl => exact ht
  | tail _ hl ih =>
    obtain ⟨l, hQ, hl, rfl⟩ := hl
    exact hP _ l hQ hl ih

/-- a reflexive and transitive relation that every label keeps relates the ends of the sequence; P is an invariant that
the labels may use -/
theorem takes_rel {P : S → Prop} {r : S → S → Prop} (hr : ∀ t, r t t) (ht : ∀ a b c, r a b → r b c → r a c)
    (hl : ∀ t l, Q t l → M.can t l → P t → P (M.apply t l) ∧ r t (M.apply t l)) (h : Takes M Q t u) (hP : P t) :
    r t u := by
  suffices P u ∧ r t u from this.2
  induction h with
  | refl => exact ⟨hP, hr t⟩
  | tail _ hs ih =>
    obtain ⟨l, hQ, hc, rfl⟩ := hs
    obtain ⟨p, q⟩ := hl _ l hQ hc ih.1
    exact ⟨p, ht _ _ _ ih.2 q⟩

end Takes

end Xv6.Runs
