import Graft.Decimal.Numeral
import Mathlib.Computability.RegularExpressions

/-! # The grammar of numerals

The numerals are given by a regular expression (`Grammar.numeral`), said without the
scanner.  A text that the expression matches is a numeral that is well formed, part by
part (`Grammar.mem_numeral`), and what the scanner makes of such a numeral is known
whatever stands after it: it goes on with the digits, the point and the exponent that
the rest of the text adds (`Numeral.scan?_append`).  Hence it stops nowhere short of the
longest numeral (`Numeral.scan?_longest`), and it reads back every numeral that stands
alone (`Numeral.scan?_text`).

The scanner does not go back: it has decided on the sign and the digits when it comes to the
exponent, and an `e` without digits is left in the text.  That this is the longest match is not
clear from the scanner itself, and `Numeral.extend` is there for it.  It says what a rest of a text
adds to a numeral before it, by the last part that the numeral has; whatever numeral stands at the
front of a text, the scanner finds one that extends it.
-/

namespace Graft.Decimal

/-! ### The grammar -/

namespace Grammar

/-- One of some characters. -/
def anyOf (cs : List Char) : RegularExpression Char :=
  cs.foldr (fun c r => RegularExpression.char c + r) 0

def maybe (r : RegularExpression Char) : RegularExpression Char := 1 + r

def sign : RegularExpression Char := maybe (anyOf ['+', '-'])

def digit : RegularExpression Char :=
  anyOf ['0', '1', '2', '3', '4', '5', '6', '7', '8', '9']

def digits : RegularExpression Char := digit * digit.star

def point : RegularExpression Char := RegularExpression.char '.'

/-- Digits with at most one point among them, at the ends too. -/
def mantissa : RegularExpression Char :=
  digits + digits * point * digit.star + digit.star * point * digits

def exponent : RegularExpression Char := anyOf ['e', 'E'] * sign * digits

/-- A numeral: a sign or none, a mantissa, an exponent or none. -/
def numeral : RegularExpression Char := sign * mantissa * maybe exponent

end Grammar

/-! ### Numerals that are well formed -/

def IsSign (sign : Option Char) : Prop := ∀ c ∈ sign, c = '+' ∨ c = '-'

def AllDigits (ds : List Char) : Prop := ∀ c ∈ ds, isDigit c = true

structure Exponent.WellFormed (e : Exponent) : Prop where
  mark : e.mark = 'e' ∨ e.mark = 'E'
  sign : IsSign e.sign
  digits : AllDigits e.digits
  nonempty : e.digits ≠ []

/-- Every part of the numeral is made of the characters it should be made of, and there
is a digit before the exponent. -/
structure Numeral.WellFormed (n : Numeral) : Prop where
  sign : IsSign n.sign
  whole : AllDigits n.whole
  fraction : ∀ ds ∈ n.fraction, AllDigits ds
  nonempty : n.whole ≠ [] ∨ n.fraction.getD [] ≠ []
  exponent : ∀ e ∈ n.exponent, e.WellFormed

theorem allDigits_append {ds es : List Char} :
    AllDigits (ds ++ es) ↔ AllDigits ds ∧ AllDigits es := by
  simp [AllDigits, or_imp, forall_and]

theorem allDigits_takeWhile (s : List Char) : AllDigits (s.takeWhile isDigit) :=
  List.all_eq_true.1 List.all_takeWhile

theorem toNat_of_isDigit {c : Char} (h : isDigit c = true) : 48 ≤ c.toNat ∧ c.toNat ≤ 57 := by
  simpa [isDigit, Char.le_def, UInt32.le_iff_toNat_le] using h

theorem isDigit_iff_mem {c : Char} :
    isDigit c = true ↔ c ∈ ['0', '1', '2', '3', '4', '5', '6', '7', '8', '9'] := by
  constructor
  · intro h
    have hc := toNat_of_isDigit h
    have hlist : ∀ k < 58, 48 ≤ k →
        Char.ofNat k ∈ ['0', '1', '2', '3', '4', '5', '6', '7', '8', '9'] := by
      decide
    have hmem := hlist c.toNat (by omega) hc.1
    rwa [Char.ofNat_toNat] at hmem
  · revert c
    simp only [List.forall_mem_cons, List.not_mem_nil, false_imp_iff, implies_true, and_true]
    decide

namespace Grammar

theorem mem_anyOf {cs p : List Char} : p ∈ (anyOf cs).matches' ↔ ∃ c ∈ cs, p = [c] := by
  induction cs with
  | nil => simp [anyOf, RegularExpression.matches'_zero, Language.notMem_zero]
  | cons c cs ih =>
    have hcons : (anyOf (c :: cs)).matches' = {[c]} + (anyOf cs).matches' := rfl
    rw [hcons, Language.mem_add, ih]
    simp only [List.exists_mem_cons_iff]
    exact Iff.rfl

theorem mem_maybe {r : RegularExpression Char} {p : List Char} :
    p ∈ (maybe r).matches' ↔ p = [] ∨ p ∈ r.matches' := by
  rw [maybe, RegularExpression.matches'_add, Language.mem_add, RegularExpression.matches'_epsilon,
    Language.mem_one]

theorem mem_mul {r r' : RegularExpression Char} {p : List Char} :
    p ∈ (r * r').matches' ↔ ∃ a ∈ r.matches', ∃ b ∈ r'.matches', a ++ b = p := by
  rw [RegularExpression.matches'_mul, Language.mem_mul]

theorem mem_point {p : List Char} : p ∈ point.matches' ↔ p = ['.'] := Iff.rfl

theorem mem_sign {p : List Char} :
    p ∈ sign.matches' ↔ ∃ sg : Option Char, IsSign sg ∧ sg.toList = p := by
  rw [sign, mem_maybe, mem_anyOf]
  constructor
  · rintro (rfl | ⟨c, hc, rfl⟩)
    · exact ⟨none, by simp [IsSign], rfl⟩
    · exact ⟨some c, by simpa [IsSign] using hc, rfl⟩
  · rintro ⟨sg, hsg, rfl⟩
    cases sg with
    | none => exact .inl rfl
    | some c => exact .inr ⟨c, by simpa [IsSign] using hsg, rfl⟩

theorem mem_digit {p : List Char} : p ∈ digit.matches' ↔ ∃ c, isDigit c = true ∧ p = [c] := by
  rw [digit, mem_anyOf]
  simp only [isDigit_iff_mem]

theorem mem_star_digit {p : List Char} : p ∈ digit.star.matches' ↔ AllDigits p := by
  rw [RegularExpression.matches'_star, Language.mem_kstar]
  constructor
  · rintro ⟨pieces, rfl, hpieces⟩ c hc
    obtain ⟨piece, hpiece, hc⟩ := List.mem_flatten.1 hc
    obtain ⟨d, hd, rfl⟩ := mem_digit.1 (hpieces piece hpiece)
    rwa [List.mem_singleton.1 hc]
  · intro h
    refine ⟨p.map fun c => [c], by simp [← List.flatMap_def], ?_⟩
    intro piece hpiece
    obtain ⟨c, hc, rfl⟩ := List.mem_map.1 hpiece
    exact mem_digit.2 ⟨c, h c hc, rfl⟩

theorem mem_digits {p : List Char} : p ∈ digits.matches' ↔ AllDigits p ∧ p ≠ [] := by
  rw [digits, mem_mul]
  constructor
  · rintro ⟨a, ha, b, hb, rfl⟩
    obtain ⟨c, hc, rfl⟩ := mem_digit.1 ha
    exact ⟨allDigits_append.2 ⟨by simpa [AllDigits] using hc, mem_star_digit.1 hb⟩, by simp⟩
  · rintro ⟨hall, hne⟩
    obtain ⟨c, p, rfl⟩ := List.exists_cons_of_ne_nil hne
    exact ⟨[c], mem_digit.2 ⟨c, hall c List.mem_cons_self, rfl⟩, p,
      mem_star_digit.2 fun d hd => hall d (List.mem_cons_of_mem c hd), rfl⟩

theorem mem_mantissa {p : List Char} :
    p ∈ mantissa.matches' ↔ ∃ (whole : List Char) (fraction : Option (List Char)),
      AllDigits whole ∧ (∀ ds ∈ fraction, AllDigits ds) ∧
      (whole ≠ [] ∨ fraction.getD [] ≠ []) ∧ whole ++ fraction.elim [] ('.' :: ·) = p := by
  rw [mantissa, RegularExpression.matches'_add, Language.mem_add,
    RegularExpression.matches'_add, Language.mem_add]
  simp only [mem_mul, mem_digits, mem_star_digit, mem_point]
  constructor
  · rintro ((⟨hall, hne⟩ | ⟨_, ⟨whole, hwhole, _, rfl, rfl⟩, ds, hds, rfl⟩) |
      ⟨_, ⟨whole, hwhole, _, rfl, rfl⟩, ds, hds, rfl⟩)
    · exact ⟨p, none, hall, by simp, .inl hne, by simp⟩
    · exact ⟨whole, some ds, hwhole.1, by simpa using hds, .inl hwhole.2, by simp⟩
    · exact ⟨whole, some ds, hwhole, by simpa using hds.1, .inr hds.2, by simp⟩
  · rintro ⟨whole, fraction, hwhole, hfraction, hne, rfl⟩
    cases fraction with
    | none => exact .inl (.inl ⟨by simpa using hwhole, by simpa using hne⟩)
    | some ds =>
      have hds : AllDigits ds := hfraction ds rfl
      rcases hne with hne | hne
      · exact .inl (.inr ⟨_, ⟨whole, ⟨hwhole, hne⟩, _, rfl, rfl⟩, ds, hds, by simp⟩)
      · exact .inr ⟨_, ⟨whole, hwhole, _, rfl, rfl⟩, ds, ⟨hds, hne⟩, by simp⟩

theorem mem_exponent {p : List Char} :
    p ∈ exponent.matches' ↔ ∃ e : Exponent, e.WellFormed ∧ e.text = p := by
  simp only [exponent, mem_mul, mem_anyOf, mem_sign, mem_digits]
  constructor
  · rintro ⟨_, ⟨_, ⟨c, hc, rfl⟩, _, ⟨sg, hsg, rfl⟩, rfl⟩, ds, hds, rfl⟩
    exact ⟨⟨c, sg, ds⟩, ⟨by simpa using hc, hsg, hds.1, hds.2⟩, by simp [Exponent.text]⟩
  · rintro ⟨e, he, rfl⟩
    exact ⟨_, ⟨_, ⟨e.mark, by simpa using he.mark, rfl⟩, _, ⟨e.sign, he.sign, rfl⟩, rfl⟩,
      e.digits, ⟨he.digits, he.nonempty⟩, by simp [Exponent.text]⟩

/-- The expression matches the texts of the numerals that are well formed. -/
theorem mem_numeral {p : List Char} :
    p ∈ numeral.matches' ↔ ∃ n : Numeral, n.WellFormed ∧ n.text = p := by
  simp only [numeral, mem_mul, mem_sign, mem_mantissa, mem_maybe, mem_exponent]
  constructor
  · rintro ⟨_, ⟨_, ⟨sg, hsg, rfl⟩, _, ⟨whole, fraction, hwhole, hfraction, hne, rfl⟩, rfl⟩, q,
      rfl | ⟨e, he, rfl⟩, rfl⟩
    · exact ⟨⟨sg, whole, fraction, none⟩, ⟨hsg, hwhole, hfraction, hne, by simp⟩,
        by simp [Numeral.text]⟩
    · exact ⟨⟨sg, whole, fraction, some e⟩, ⟨hsg, hwhole, hfraction, hne, by simpa using he⟩,
        by simp [Numeral.text]⟩
  · rintro ⟨n, hn, rfl⟩
    refine ⟨_, ⟨_, ⟨n.sign, hn.sign, rfl⟩, _,
      ⟨n.whole, n.fraction, hn.whole, hn.fraction, hn.nonempty, rfl⟩, rfl⟩,
      n.exponent.elim [] Exponent.text, ?_, by simp [Numeral.text]⟩
    cases h : n.exponent with
    | none => exact .inl rfl
    | some e => exact .inr ⟨e, hn.exponent e h, rfl⟩

end Grammar

/-! ### What the scanner reads -/

theorem scanSign_spec (s : List Char) :
    IsSign (scanSign s).1 ∧ (scanSign s).1.toList ++ (scanSign s).2 = s := by
  fun_cases scanSign s <;> simp [IsSign]

theorem scanDigits_spec (s : List Char) :
    AllDigits (scanDigits s).1 ∧ (scanDigits s).1 ++ (scanDigits s).2 = s :=
  ⟨allDigits_takeWhile s, List.takeWhile_append_dropWhile⟩

theorem scanFraction_spec (s : List Char) :
    (∀ ds ∈ (scanFraction s).1, AllDigits ds) ∧
      (scanFraction s).1.elim [] ('.' :: ·) ++ (scanFraction s).2 = s := by
  fun_cases scanFraction s with
  | case1 s => simpa using scanDigits_spec s
  | case2 => simp

theorem scanExponent?_spec {s : List Char} {e : Exponent} (h : scanExponent? s = some e) :
    e.WellFormed ∧ e.text <+: s := by
  cases s with
  | nil => simp [scanExponent?] at h
  | cons c s =>
    obtain ⟨hsign, hs⟩ := scanSign_spec s
    obtain ⟨hdigits, hs₁⟩ := scanDigits_spec (scanSign s).2
    simp only [scanExponent?, Option.ite_none_right_eq_some, Option.ite_none_left_eq_some] at h
    obtain ⟨hmark, hsome, h⟩ := h
    obtain rfl := Option.some.inj h
    refine ⟨⟨by simpa using hmark, hsign, hdigits, by simpa using hsome⟩, ?_⟩
    refine ⟨(scanDigits (scanSign s).2).2, ?_⟩
    simp [Exponent.text, hs, hs₁]

namespace Numeral

/-- What is read is a numeral that is well formed, and it stands at the front. -/
theorem scan?_spec {t : List Char} {n : Numeral} (h : scan? t = some n) :
    n.WellFormed ∧ n.text <+: t := by
  obtain ⟨hsign, ht⟩ := scanSign_spec t
  obtain ⟨hwhole, hs₁⟩ := scanDigits_spec (scanSign t).2
  obtain ⟨hfraction, hs₂⟩ := scanFraction_spec (scanDigits (scanSign t).2).2
  rcases h₁ : scanSign t with ⟨sign, s₁⟩
  rcases h₂ : scanDigits s₁ with ⟨whole, s₂⟩
  rcases h₃ : scanFraction s₂ with ⟨fraction, s₃⟩
  simp only [scan?, h₁, h₂, h₃, Option.ite_none_left_eq_some] at h hsign ht hwhole hs₁ hfraction hs₂
  obtain ⟨hne, h⟩ := h
  obtain rfl := Option.some.inj h
  have hdigit : whole ≠ [] ∨ fraction.getD [] ≠ [] := by
    simpa [Decidable.imp_iff_not_or] using hne
  have hrest : (scanExponent? s₃).elim [] Exponent.text <+: s₃ := by
    cases he : scanExponent? s₃ with
    | none => exact ⟨_, rfl⟩
    | some e => exact (scanExponent?_spec he).2
  refine ⟨⟨hsign, hwhole, hfraction, hdigit, fun e he => (scanExponent?_spec he).1⟩, ?_⟩
  rw [← ht, ← hs₁, ← hs₂]
  simpa [text] using hrest

end Numeral

/-! ### What the scanner makes of a numeral before the rest of a text -/

theorem scanSign_append {sign : Option Char} (hsign : IsSign sign) {s : List Char}
    (hs : ∀ c ∈ s.head?, c ≠ '+' ∧ c ≠ '-') : scanSign (sign.toList ++ s) = (sign, s) := by
  cases sign with
  | none =>
    show scanSign s = (none, s)
    fun_cases scanSign s <;> simp_all
  | some c => rcases hsign c rfl with rfl | rfl <;> rfl

theorem scanDigits_append {ds : List Char} (hds : AllDigits ds) (s : List Char) :
    scanDigits (ds ++ s) = (ds ++ (scanDigits s).1, (scanDigits s).2) := by
  rw [scanDigits, List.takeWhile_append_of_pos hds, List.dropWhile_append_of_pos hds, scanDigits]

/-- Digits end at a character that is none. -/
theorem scanDigits_append_cons {ds : List Char} (hds : AllDigits ds) {c : Char}
    (hc : isDigit c = false) (s : List Char) : scanDigits (ds ++ c :: s) = (ds, c :: s) := by
  rw [scanDigits_append hds]
  simp [scanDigits, hc]

theorem scanFraction_cons {c : Char} (hc : c ≠ '.') (s : List Char) :
    scanFraction (c :: s) = (none, c :: s) := by
  simp [scanFraction, hc]

theorem scanExponent?_append {e : Exponent} (he : e.WellFormed) (rest : List Char) :
    scanExponent? (e.text ++ rest) =
      some { e with digits := e.digits ++ (scanDigits rest).1 } := by
  obtain ⟨d, ds, hds⟩ := List.exists_cons_of_ne_nil he.nonempty
  have hd : isDigit d = true := he.digits d (by simp [hds])
  have hsign : scanSign (e.sign.toList ++ (e.digits ++ rest)) = (e.sign, e.digits ++ rest) := by
    refine scanSign_append he.sign fun c hc => ?_
    obtain rfl : d = c := by simpa [hds] using hc
    constructor <;> rintro rfl <;> simp [isDigit] at hd
  have hmark : (e.mark = 'e' || e.mark = 'E') = true := by simpa using he.mark
  simp [Exponent.text, scanExponent?, hmark, hsign, scanDigits_append he.digits, he.nonempty]

namespace Numeral

/-- The numeral with what the text after it adds: digits to its last part, and the parts
that may follow that one. -/
def extend (n : Numeral) (rest : List Char) : Numeral :=
  let (more, rest) := scanDigits rest
  match n.exponent, n.fraction with
  | some e, _ => { n with exponent := some { e with digits := e.digits ++ more } }
  | none, some ds =>
    { n with fraction := some (ds ++ more), exponent := scanExponent? rest }
  | none, none =>
    { n with whole := n.whole ++ more, fraction := (scanFraction rest).1,
             exponent := scanExponent? (scanFraction rest).2 }

theorem scan?_eq_some {t s₁ s₂ s₃ whole : List Char} {sign : Option Char}
    {fraction : Option (List Char)} (h₁ : scanSign t = (sign, s₁))
    (h₂ : scanDigits s₁ = (whole, s₂)) (h₃ : scanFraction s₂ = (fraction, s₃))
    (hne : whole ≠ [] ∨ fraction.getD [] ≠ []) :
    scan? t = some ⟨sign, whole, fraction, scanExponent? s₃⟩ := by
  have hsome : (whole.isEmpty && (fraction.getD []).isEmpty) = false := by
    rcases hne with h | h <;> simp [h]
  simp [scan?, h₁, h₂, h₃, hsome]

/-- After its sign a numeral goes on with a digit or a point. -/
theorem WellFormed.scanSign_text {n : Numeral} (hn : n.WellFormed) (rest : List Char) :
    scanSign (n.text ++ rest) = (n.sign, n.whole ++ (n.fraction.elim [] ('.' :: ·) ++
      (n.exponent.elim [] Exponent.text ++ rest))) := by
  simp only [text, List.append_assoc]
  refine scanSign_append hn.sign fun c hc => ?_
  have hhead : isDigit c = true ∨ c = '.' := by
    cases hw : n.whole with
    | cons d ds =>
      obtain rfl : d = c := by simpa [hw] using hc
      exact .inl (hn.whole d (by simp [hw]))
    | nil =>
      obtain ⟨ds, hf⟩ : ∃ ds, n.fraction = some ds := by
        cases hf : n.fraction with
        | some ds => exact ⟨ds, rfl⟩
        | none => simpa [hw, hf] using hn.nonempty
      obtain rfl : '.' = c := by simpa [hw, hf] using hc
      exact .inr rfl
  constructor <;> rintro rfl <;> simp [isDigit] at hhead

/-- Before any text at all, a numeral is read with what that text adds to it.

Part by part: what has been read of a part is added to by digits only if nothing of the numeral
comes after it, and by other parts only if the numeral has none of them. -/
theorem scan?_append {n : Numeral} (hn : n.WellFormed) (rest : List Char) :
    scan? (n.text ++ rest) = some (n.extend rest) := by
  have hsign := hn.scanSign_text rest
  have hwhole := hn.whole
  have hne := hn.nonempty
  obtain ⟨sign, whole, fraction, exponent⟩ := n
  -- a part is read as it stands if the next begins with no digit
  cases exponent with
  | some e =>
    have he : e.WellFormed := hn.exponent e rfl
    have hmark : isDigit e.mark = false ∧ e.mark ≠ '.' := by
      rcases he.mark with h | h <;> rw [h] <;> decide
    cases fraction with
    | none =>
      have hfraction : scanFraction (e.text ++ rest) = (none, e.text ++ rest) :=
        scanFraction_cons hmark.2 _
      rw [scan?_eq_some hsign (scanDigits_append_cons hwhole hmark.1 _) hfraction hne,
        scanExponent?_append he]
      rfl
    | some ds =>
      have hds : scanDigits (ds ++ (e.text ++ rest)) = (ds, e.text ++ rest) :=
        scanDigits_append_cons (hn.fraction ds rfl) hmark.1 _
      have hfraction : scanFraction ('.' :: (ds ++ (e.text ++ rest))) = (some ds, e.text ++ rest) := by
        rw [scanFraction, hds]
      rw [scan?_eq_some hsign (scanDigits_append_cons hwhole (by decide) _) hfraction hne,
        scanExponent?_append he]
      rfl
  | none =>
    cases fraction with
    | none =>
      have hmore : whole ++ (scanDigits rest).1 ≠ [] :=
        List.append_ne_nil_of_left_ne_nil (by simpa using hne) _
      exact scan?_eq_some hsign (scanDigits_append hwhole rest) rfl (.inl hmore)
    | some ds =>
      have hfraction : scanFraction ('.' :: (ds ++ rest)) =
          (some (ds ++ (scanDigits rest).1), (scanDigits rest).2) := by
        rw [scanFraction, scanDigits_append (hn.fraction ds rfl)]
      have hmore : whole ≠ [] ∨ ds ++ (scanDigits rest).1 ≠ [] :=
        hne.imp_right fun h => List.append_ne_nil_of_left_ne_nil h _
      exact scan?_eq_some hsign (scanDigits_append_cons hwhole (by decide) _) hfraction hmore

theorem extend_nil (n : Numeral) : n.extend [] = n := by
  obtain ⟨sign, whole, fraction, exponent⟩ := n
  cases exponent <;> cases fraction <;>
    simp [extend, scanDigits, scanFraction, scanExponent?]

theorem text_prefix_extend (n : Numeral) (rest : List Char) : n.text <+: (n.extend rest).text := by
  obtain ⟨sign, whole, fraction, exponent⟩ := n
  cases exponent <;> cases fraction <;> simp [extend, text, Exponent.text]

end Numeral

/-! ### The longest prefix -/

/-- Of the prefixes of `t` in a language, `p` is the longest: the others are prefixes
of it. -/
structure LongestPrefix (L : Language Char) (t p : List Char) : Prop where
  front : p <+: t
  mem : p ∈ L
  longest : ∀ q, q <+: t → q ∈ L → q <+: p

/-- The double that a text denotes, if all of it is a numeral. -/
def parse? (p : List Char) : Option Float :=
  (Numeral.scan? p).bind fun n => if n.text = p then some n.value else none

namespace Numeral

theorem scan?_text {n : Numeral} (hn : n.WellFormed) : scan? n.text = some n := by
  simpa [extend_nil] using scan?_append hn []

/-- A numeral at the front is not longer than the one that is read. -/
theorem exists_scan?_of_front {t q : List Char} (hq : q <+: t)
    (hmem : q ∈ Grammar.numeral.matches') : ∃ n, scan? t = some n ∧ q <+: n.text := by
  obtain ⟨rest, rfl⟩ := hq
  obtain ⟨n, hn, rfl⟩ := Grammar.mem_numeral.1 hmem
  exact ⟨n.extend rest, scan?_append hn rest, text_prefix_extend n rest⟩

theorem scan?_longest {t : List Char} {n : Numeral} (h : scan? t = some n) :
    LongestPrefix Grammar.numeral.matches' t n.text := by
  obtain ⟨hn, hfront⟩ := scan?_spec h
  refine ⟨hfront, Grammar.mem_numeral.2 ⟨n, hn, rfl⟩, fun q hq hmem => ?_⟩
  obtain ⟨n', h', hlonger⟩ := exists_scan?_of_front hq hmem
  obtain rfl : n' = n := Option.some.inj (h'.symm.trans h)
  exact hlonger

theorem scan?_eq_none_iff {t : List Char} :
    scan? t = none ↔ ∀ q, q <+: t → q ∉ Grammar.numeral.matches' := by
  constructor
  · intro h q hq hmem
    obtain ⟨n, hn, -⟩ := exists_scan?_of_front hq hmem
    simp [h] at hn
  · intro h
    cases hn : scan? t with
    | none => rfl
    | some n =>
      have hlongest := scan?_longest hn
      exact absurd hlongest.mem (h _ hlongest.front)

end Numeral

theorem parse?_text {n : Numeral} (hn : n.WellFormed) : parse? n.text = some n.value := by
  simp [parse?, Numeral.scan?_text hn]

/-- The numerals, and nothing else, denote a double. -/
theorem parse?_isSome_iff {p : List Char} :
    (parse? p).isSome ↔ p ∈ Grammar.numeral.matches' := by
  constructor
  · intro h
    obtain ⟨x, hx⟩ := Option.isSome_iff_exists.1 h
    obtain ⟨n, hn, hp⟩ := Option.bind_eq_some_iff.1 hx
    obtain ⟨rfl, -⟩ := (Option.ite_none_right_eq_some.1 hp)
    exact (Numeral.scan?_longest hn).mem
  · intro h
    obtain ⟨n, hn, rfl⟩ := Grammar.mem_numeral.1 h
    rw [parse?_text hn]
    rfl

end Graft.Decimal
