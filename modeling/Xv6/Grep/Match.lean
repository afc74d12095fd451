/-
grep's matcher (grep.c) and the meaning of a pattern.

- A C string is the list of its bytes; reading behind the last one gives the NUL.
- `matchhere`, `matchstar`, `regexMatch`: the three functions; the recursion ends because re, or else text, gets shorter.
- `parse re`: the items of a pattern, and if it ends in `$`. A `*` is looked for first, so `$*` is a starred item.
- `Item.language`, `language`: the words of an item and of a sequence of items, as Mathlib's languages.

Results:
- `matchstar_iff`: what `c*` takes are bytes that c stands for;
- `matchhere_iff`: matchhere finds a word of the language at the front of the text;
- `regexMatch_iff`: **match finds exactly the texts that have a word of the pattern in them, at the ends that `^` and `$` name**.
-/
import Mathlib.Computability.Language

namespace Xv6.Grep

open List

abbrev CStr := List UInt8

/-- the byte that p points at -/
def at0 (p : CStr) : UInt8 := p.headD 0

def star : UInt8 := 42
def dollar : UInt8 := 36
def dot : UInt8 := 46
def caret : UInt8 := 94

theorem length_tail_lt {p : CStr} (h : at0 p ≠ 0) : p.tail.length < p.length := by
  cases p with
  | nil => exact absurd rfl h
  | cons c p => exact Nat.lt_succ_self _

/-! ## The source -/

mutual

/-- search for re at beginning of text -/
def matchhere (re text : CStr) : Bool :=
  if _h0 : at0 re = 0 then true
  else if at0 re.tail = star then matchstar (at0 re) re.tail.tail text
  else if at0 re = dollar ∧ at0 re.tail = 0 then decide (at0 text = 0)
  else if at0 text ≠ 0 ∧ (at0 re = dot ∨ at0 re = at0 text) then matchhere re.tail text.tail
  else false
termination_by (re.length, text.length, 0)
decreasing_by
  · have hlt := length_tail_lt _h0
    have htail : re.tail.tail.length ≤ re.tail.length := by simp
    exact Prod.Lex.left _ _ (by omega)
  · exact Prod.Lex.left _ _ (length_tail_lt _h0)

/-- search for c*re at beginning of text -/
def matchstar (c : UInt8) (re text : CStr) : Bool :=
  if matchhere re text then true
  else if _h : at0 text ≠ 0 ∧ (at0 text = c ∨ c = dot) then matchstar c re text.tail
  else false
termination_by (re.length, text.length, 1)
decreasing_by
  · exact Prod.Lex.right _ (Prod.Lex.right _ (by decide))
  · exact Prod.Lex.right _ (Prod.Lex.left _ _ (length_tail_lt _h.1))

end

/-- the loop of match over the rests of text -/
def matchAnywhere (re text : CStr) : Bool :=
  if matchhere re text then true
  else if _h : at0 text ≠ 0 then matchAnywhere re text.tail
  else false
termination_by text.length
decreasing_by exact length_tail_lt _h

/-- `match` -/
def regexMatch (re text : CStr) : Bool := if at0 re = caret then matchhere re.tail text else matchAnywhere re text

/-! ## The meaning of a pattern -/

/-- a character, or one that is repeated -/
structure Item where
  char : UInt8
  starred : Bool

/-- the items of a pattern, and if it ends in an anchor -/
def parse : CStr → List Item × Bool
  | [] => ([], false)
  | [c] => if c = dollar then ([], true) else ([⟨c, false⟩], false)
  | c :: d :: re =>
    if d = star then ((⟨c, true⟩ :: (parse re).1), (parse re).2) else ((⟨c, false⟩ :: (parse (d :: re)).1), (parse (d :: re)).2)

/-- x is a byte that c stands for -/
def StandsFor (c x : UInt8) : Prop := c = dot ∨ c = x

/-- the words of one byte that c stands for -/
def single (c : UInt8) : Language UInt8 := {w | ∃ x, StandsFor c x ∧ w = [x]}

open scoped Computability in
def Item.language (i : Item) : Language UInt8 := if i.starred then (single i.char)∗ else single i.char

def language (items : List Item) : Language UInt8 := (items.map Item.language).prod

/-- a word of the pattern, at the front of the text and at its end if the pattern ends in an anchor -/
def Fronts (r : List Item × Bool) (text : CStr) : Prop := ∃ w post, text = w ++ post ∧ w ∈ language r.1 ∧ (r.2 = true → post = [])

variable {c x : UInt8} {w re text : CStr} {items : List Item} {anchored : Bool}

theorem mem_single : w ∈ single c ↔ ∃ x, StandsFor c x ∧ w = [x] := Iff.rfl

theorem mem_single_star : w ∈ KStar.kstar (single c) ↔ ∀ x ∈ w, StandsFor c x := by
  rw [Language.mem_kstar]
  constructor
  · intro ⟨L, hw, hL⟩ x hx
    rw [hw, mem_flatten] at hx
    obtain ⟨y, hy, hxy⟩ := hx
    obtain ⟨z, hz, rfl⟩ := mem_single.1 (hL y hy)
    rw [mem_singleton.1 hxy]
    exact hz
  · intro h
    refine ⟨w.map fun x => [x], ?_, ?_⟩
    · rw [← flatMap_def, flatMap_singleton']
    · intro y hy
      obtain ⟨x, hx, rfl⟩ := mem_map.1 hy
      exact mem_single.2 ⟨x, h x hx, rfl⟩

theorem fronts_nil (text : CStr) : Fronts ([], false) text := ⟨[], text, rfl, rfl, fun h => absurd h Bool.false_ne_true⟩

theorem fronts_end : Fronts ([], true) text ↔ text = [] := by
  constructor
  · intro ⟨w, post, htext, hw, hpost⟩
    rw [htext, hpost rfl, show w = [] from hw, append_nil]
  · intro h
    exact ⟨[], [], h, rfl, fun _ => rfl⟩

/-- the words of an item come first -/
theorem fronts_cons {i : Item} :
    Fronts (i :: items, anchored) text ↔ ∃ u rest, text = u ++ rest ∧ u ∈ i.language ∧ Fronts (items, anchored) rest := by
  constructor
  · intro ⟨w, post, htext, hw, hpost⟩
    rw [language, map_cons, prod_cons, Language.mem_mul] at hw
    obtain ⟨u, hu, v, hv, rfl⟩ := hw
    exact ⟨u, v ++ post, by rw [htext, append_assoc], hu, v, post, rfl, hv, hpost⟩
  · intro ⟨u, rest, htext, hu, v, post, hrest, hv, hpost⟩
    refine ⟨u ++ v, post, by rw [htext, hrest, append_assoc], ?_, hpost⟩
    rw [language, map_cons, prod_cons]
    exact Language.mem_mul.2 ⟨u, hu, v, hv, rfl⟩

/-- one byte, then the rest -/
theorem fronts_char : Fronts (⟨c, false⟩ :: items, anchored) text ↔
    ∃ x rest, text = x :: rest ∧ StandsFor c x ∧ Fronts (items, anchored) rest := by
  rw [fronts_cons]
  constructor
  · intro ⟨u, rest, htext, hu, hrest⟩
    obtain ⟨x, hx, rfl⟩ := mem_single.1 hu
    exact ⟨x, rest, htext, hx, hrest⟩
  · intro ⟨x, rest, htext, hx, hrest⟩
    exact ⟨[x], rest, htext, mem_single.2 ⟨x, hx, rfl⟩, hrest⟩

/-! ## The matcher -/

/-- `c*` takes any number of bytes that c stands for -/
theorem matchstar_iff (htext : 0 ∉ text) :
    matchstar c re text = true ↔ ∃ u rest, text = u ++ rest ∧ (∀ x ∈ u, StandsFor c x) ∧ matchhere re rest = true := by
  induction text with
  | nil =>
    rw [matchstar, dif_neg (fun h => h.1 rfl)]
    constructor
    · intro h
      split_ifs at h with hhere
      exact ⟨[], [], rfl, by simp, hhere⟩
    · intro ⟨u, rest, hnil, _, h⟩
      rw [(append_eq_nil_iff.1 hnil.symm).2] at h
      exact if_pos h
  | cons y text ih =>
    have hy : y ≠ 0 := fun h => htext (h ▸ mem_cons_self)
    have ih := ih fun h => htext (mem_cons_of_mem _ h)
    rw [matchstar]
    constructor
    · intro h
      split_ifs at h with hhere hgo
      · exact ⟨[], y :: text, rfl, by simp, hhere⟩
      · obtain ⟨u, rest, heq, hu, hrest⟩ := ih.1 h
        refine ⟨y :: u, rest, congrArg (y :: ·) heq, ?_, hrest⟩
        intro x hx
        rcases mem_cons.1 hx with rfl | hx
        · exact hgo.2.symm.imp id Eq.symm
        · exact hu x hx
    · intro ⟨u, rest, heq, hu, hrest⟩
      cases u with
      | nil => rw [if_pos (by rw [heq]; exact hrest)]
      | cons z u =>
        obtain ⟨rfl, htail⟩ := List.cons.inj heq
        have hstands : StandsFor c y := hu y mem_cons_self
        have hgo : at0 (y :: text) ≠ 0 ∧ (at0 (y :: text) = c ∨ c = dot) := ⟨hy, hstands.symm.imp Eq.symm id⟩
        have hrec := ih.2 ⟨u, rest, htail, fun x hx => hu x (mem_cons_of_mem _ hx), hrest⟩
        split_ifs
        exacts [rfl, hrec]

/-- matchhere where the pattern's first item is a single byte -/
theorem matchhere_char (hc : c ≠ 0) (hstar : at0 re ≠ star) (hdollar : ¬(c = dollar ∧ at0 re = 0)) (htext : 0 ∉ text) :
    matchhere (c :: re) text = true ↔ ∃ x rest, text = x :: rest ∧ StandsFor c x ∧ matchhere re rest = true := by
  rw [matchhere, dif_neg (show at0 (c :: re) ≠ 0 from hc), if_neg (show at0 (c :: re).tail ≠ star from hstar),
    if_neg (show ¬(at0 (c :: re) = dollar ∧ at0 (c :: re).tail = 0) from hdollar)]
  cases text with
  | nil => simp [at0]
  | cons y text =>
    have hy : y ≠ 0 := fun h => htext (h ▸ mem_cons_self)
    simp only [at0, headD_cons, tail_cons, ne_eq, hy, not_false_eq_true, true_and, Bool.if_false_right,
      Bool.and_eq_true, decide_eq_true_eq, List.cons.injEq]
    constructor
    · intro ⟨hstands, h⟩
      exact ⟨y, text, ⟨rfl, rfl⟩, hstands, h⟩
    · intro ⟨_, _, ⟨rfl, rfl⟩, hstands, h⟩
      exact ⟨hstands, h⟩

theorem matchhere_iff (hre : 0 ∉ re) (htext : 0 ∉ text) : matchhere re text = true ↔ Fronts (parse re) text := by
  induction re using parse.induct generalizing text with
  | case1 =>
    rw [matchhere]
    exact ⟨fun _ => fronts_nil text, fun _ => rfl⟩
  | case2 =>
    rw [parse, if_pos rfl, fronts_end, matchhere, dif_neg (by decide), if_neg (by decide), if_pos ⟨rfl, rfl⟩]
    cases text with
    | nil => simp [at0]
    | cons y text =>
      have hy : y ≠ 0 := fun h => htext (h ▸ mem_cons_self)
      simp [at0, hy]
  | case3 c h =>
    have hc : c ≠ 0 := fun h => hre (h ▸ mem_cons_self)
    rw [parse, if_neg h, fronts_char, matchhere_char hc (by decide) (fun h' => h h'.1) htext]
    constructor
    · intro ⟨x, rest, heq, hx, _⟩
      exact ⟨x, rest, heq, hx, fronts_nil rest⟩
    · intro ⟨x, rest, heq, hx, _⟩
      exact ⟨x, rest, heq, hx, by rw [matchhere]; rfl⟩
  | case4 c re ih =>
    have hc : c ≠ 0 := fun h => hre (h ▸ mem_cons_self)
    have hre' : 0 ∉ re := fun h => hre (mem_cons_of_mem _ (mem_cons_of_mem _ h))
    rw [parse, if_pos rfl, fronts_cons, matchhere, dif_neg (show at0 (c :: star :: re) ≠ 0 from hc),
      if_pos (show at0 (c :: star :: re).tail = star from rfl)]
    refine (matchstar_iff htext).trans ⟨?_, ?_⟩
    · intro ⟨u, rest, heq, hu, h⟩
      refine ⟨u, rest, heq, mem_single_star.2 hu, (ih hre' ?_).1 h⟩
      exact fun h0 => htext (heq ▸ mem_append_right u h0)
    · intro ⟨u, rest, heq, hu, h⟩
      refine ⟨u, rest, heq, mem_single_star.1 hu, (ih hre' ?_).2 h⟩
      exact fun h0 => htext (heq ▸ mem_append_right u h0)
  | case5 c d re hd ih =>
    have hc : c ≠ 0 := fun h => hre (h ▸ mem_cons_self)
    have hd0 : d ≠ 0 := fun h => hre (h ▸ mem_cons_of_mem _ mem_cons_self)
    have hre' : 0 ∉ d :: re := fun h => hre (mem_cons_of_mem _ h)
    rw [parse, if_neg hd, fronts_char, matchhere_char hc (show at0 (d :: re) ≠ star from hd) (fun h => hd0 h.2) htext]
    constructor
    · intro ⟨x, rest, heq, hx, h⟩
      exact ⟨x, rest, heq, hx, (ih hre' fun h0 => htext (heq ▸ mem_cons_of_mem _ h0)).1 h⟩
    · intro ⟨x, rest, heq, hx, h⟩
      exact ⟨x, rest, heq, hx, (ih hre' fun h0 => htext (heq ▸ mem_cons_of_mem _ h0)).2 h⟩

theorem matchAnywhere_iff (htext : 0 ∉ text) :
    matchAnywhere re text = true ↔ ∃ pre rest, text = pre ++ rest ∧ matchhere re rest = true := by
  induction text with
  | nil =>
    rw [matchAnywhere]
    simp [at0]
  | cons y text ih =>
    have hy : at0 (y :: text) ≠ 0 := fun h => htext ((show y = 0 from h) ▸ mem_cons_self)
    have ih := ih fun h => htext (mem_cons_of_mem _ h)
    rw [matchAnywhere, dif_pos hy]
    constructor
    · intro h
      split_ifs at h with hhere
      · exact ⟨[], y :: text, rfl, hhere⟩
      · obtain ⟨pre, rest, heq, hrest⟩ := ih.1 h
        exact ⟨y :: pre, rest, congrArg (y :: ·) heq, hrest⟩
    · intro ⟨pre, rest, heq, hrest⟩
      split_ifs with hhere
      · rfl
      · cases pre with
        | nil => exact absurd (heq ▸ hrest) hhere
        | cons z pre => exact ih.2 ⟨pre, rest, (List.cons.inj heq).2, hrest⟩

/-! ## The pattern as a whole -/

/-- the pattern is to be found at the front only -/
def startsAnchored (re : CStr) : Bool := re.head? = some caret

/-- what comes after the first anchor -/
def body (re : CStr) : CStr := if startsAnchored re then re.tail else re

/-- **grep's matcher is the meaning of the pattern**: a word of its items, anywhere in the text, at its front or at its end. -/
theorem regexMatch_iff (re text : CStr) (hre : 0 ∉ re) (htext : 0 ∉ text) :
    regexMatch re text = true ↔ ∃ pre w post, text = pre ++ w ++ post ∧ w ∈ language (parse (body re)).1 ∧
      (startsAnchored re = true → pre = []) ∧ ((parse (body re)).2 = true → post = []) := by
  have hbody : 0 ∉ body re := by
    rw [body]
    split_ifs
    exacts [fun h => hre (mem_of_mem_tail h), hre]
  have hcaret : at0 re = caret ↔ startsAnchored re = true := by
    cases re with
    | nil => decide
    | cons c re => simp [at0, startsAnchored]
  rw [regexMatch]
  by_cases h : startsAnchored re = true
  · rw [if_pos (hcaret.2 h), show re.tail = body re by rw [body, if_pos h], matchhere_iff hbody htext]
    constructor
    · intro ⟨w, post, heq, hw, hpost⟩
      exact ⟨[], w, post, heq, hw, fun _ => rfl, hpost⟩
    · intro ⟨pre, w, post, heq, hw, hpre, hpost⟩
      rw [hpre h] at heq
      exact ⟨w, post, heq, hw, hpost⟩
  · have hre' : body re = re := by rw [body, if_neg h]
    rw [if_neg (fun h' => h (hcaret.1 h')), matchAnywhere_iff htext, hre']
    constructor
    · intro ⟨pre, rest, heq, hrest⟩
      have hfront := (matchhere_iff hre fun h0 => htext (heq ▸ mem_append_right pre h0)).1 hrest
      obtain ⟨w, post, hw, hmem, hpost⟩ := hfront
      exact ⟨pre, w, post, by rw [heq, hw, append_assoc], hmem, fun h' => absurd h' h, hpost⟩
    · intro ⟨pre, w, post, heq, hw, _, hpost⟩
      rw [append_assoc] at heq
      have hrest : 0 ∉ w ++ post := fun h0 => htext (heq ▸ mem_append_right pre h0)
      exact ⟨pre, w ++ post, heq, (matchhere_iff hre hrest).2 ⟨w, post, rfl, hw, hpost⟩⟩

/-- `$*a$` in `b$$a`: the first dollar is repeated, the second an anchor -/
theorem regexMatch_iff_dollars : regexMatch [dollar, star, 97, dollar] [98, dollar, dollar, 97] = true :=
  (regexMatch_iff _ _ (by decide) (by decide)).2 ⟨[98], [dollar, dollar, 97], [], rfl,
    Language.mem_mul.2 ⟨[dollar, dollar], mem_single_star.2 (by simp [StandsFor]), [97],
      Language.mem_mul.2 ⟨[97], mem_single.2 ⟨97, .inr rfl, rfl⟩, [], rfl, rfl⟩, rfl⟩, fun h => absurd h (by decide), fun _ => rfl⟩

end Xv6.Grep
