import Graft.Scalar
import Graft.Proofs.NumeralGrammar

/-! # The longest numeral at the front of a text

The scanner of numerals runs over characters.  `numeralEnd` is the same scan over the
bytes of the text's UTF-8 form, by positions.  Only ASCII characters are read, each of
them one byte, and the bytes of all others lie above those (`utf8EncodeChar_cases`); so
the two scans keep the same pace (`StandsAt`), and the one over bytes ends where the
last character of the numeral ends (`numeralEnd_encode`), never between the bytes of a
character.

A byte that continues a character may be any above 127, but the scan never gets to one: it stops at
the first byte of a character that is not ASCII, which is no digit, sign, point or letter.

With the grammar this makes a specification of how a text is read: there is a longest numeral at the
front, the scan cuts it off, and its value is read; or there is none, and zero is read.
-/

namespace Graft.Decimal

/-! ### The scan over bytes -/

/-- The UTF-8 form of a text. -/
def encode (s : List Char) : List UInt8 := s.flatMap String.utf8EncodeChar

/-- Does the byte at a position stand for one of some characters? -/
def hasAt (bytes : List UInt8) (i : Nat) (cs : List Char) : Bool :=
  bytes[i]?.any fun b => cs.any fun c => c.toUInt8 == b

def isDigitByte (b : UInt8) : Bool := '0'.toUInt8 ≤ b && b ≤ '9'.toUInt8

/-- The first position from `i` on that holds no digit. -/
def digitsEnd (bytes : List UInt8) (i : Nat) : Nat :=
  if h : i < bytes.length then
    if isDigitByte bytes[i] then digitsEnd bytes (i + 1) else i
  else i
termination_by bytes.length - i

def signEnd (bytes : List UInt8) (i : Nat) : Nat :=
  if hasAt bytes i ['+', '-'] then i + 1 else i

def fractionEnd (bytes : List UInt8) (i : Nat) : Nat :=
  if hasAt bytes i ['.'] then digitsEnd bytes (i + 1) else i

/-- The end of an exponent at `i`; without digits after its mark it does not count. -/
def exponentEnd (bytes : List UInt8) (i : Nat) : Nat :=
  if hasAt bytes i ['e', 'E'] then
    let start := signEnd bytes (i + 1)
    let stop := digitsEnd bytes start
    if start < stop then stop else i
  else i

/-- The position where the numeral at the front ends, unless all there is before an
exponent is a sign or a point. -/
def numeralEnd (bytes : List UInt8) : Option Nat :=
  let start := signEnd bytes 0
  let stop := fractionEnd bytes (digitsEnd bytes start)
  if stop = start || (stop = start + 1 && hasAt bytes start ['.']) then none
  else some (exponentEnd bytes stop)

theorem encode_append (s t : List Char) : encode (s ++ t) = encode s ++ encode t :=
  List.flatMap_append

theorem encode_cons (c : Char) (s : List Char) :
    encode (c :: s) = String.utf8EncodeChar c ++ encode s := List.flatMap_cons

/-- An ASCII character is one byte, its code; the first byte of any other is above
those codes. -/
theorem utf8EncodeChar_cases (c : Char) :
    (c.toNat < 128 ∧ String.utf8EncodeChar c = [c.toUInt8]) ∨
    (128 ≤ c.toNat ∧ ∃ b bs, String.utf8EncodeChar c = b :: bs ∧ 128 ≤ b.toNat) := by
  have hv : c.val.toNat = c.toNat := rfl
  simp only [String.utf8EncodeChar, hv]
  split
  · exact .inl ⟨by omega, rfl⟩
  · refine .inr ⟨by omega, ?_⟩
    split
    · exact ⟨_, _, rfl, by simp; omega⟩
    · split
      · exact ⟨_, _, rfl, by simp; omega⟩
      · exact ⟨_, _, rfl, by simp; omega⟩

def Ascii (s : List Char) : Prop := ∀ c ∈ s, c.toNat < 128

theorem ascii_append {s t : List Char} : Ascii (s ++ t) ↔ Ascii s ∧ Ascii t := by
  simp [Ascii, or_imp, forall_and]

theorem toNat_toUInt8 {c : Char} (hc : c.toNat < 128) : c.toUInt8.toNat = c.toNat := by
  show c.toNat % 256 = c.toNat
  omega

theorem isDigitByte_toUInt8 {c : Char} (hc : c.toNat < 128) :
    isDigitByte c.toUInt8 = isDigit c := by
  have h := toNat_toUInt8 hc
  have h₀ : '0'.toUInt8.toNat = 48 := rfl
  have h₉ : '9'.toUInt8.toNat = 57 := rfl
  simp [isDigitByte, isDigit, Char.le_def, UInt8.le_iff_toNat_le, UInt32.le_iff_toNat_le, h, h₀, h₉]

theorem toUInt8_eq_iff {c d : Char} (hc : c.toNat < 128) (hd : d.toNat < 128) :
    c.toUInt8 = d.toUInt8 ↔ c = d := by
  rw [← UInt8.toNat_inj, toNat_toUInt8 hc, toNat_toUInt8 hd, Char.toNat_inj]

/-- The first byte of a character tells whether it is a digit. -/
theorem exists_utf8EncodeChar (c : Char) :
    ∃ b bs, String.utf8EncodeChar c = b :: bs ∧ isDigitByte b = isDigit c := by
  obtain ⟨hc, hbytes⟩ | ⟨hc, b, bs, hbytes, hb⟩ := utf8EncodeChar_cases c
  · exact ⟨_, _, hbytes, isDigitByte_toUInt8 hc⟩
  · have h₉ : '9'.toUInt8.toNat = 57 := rfl
    have hbyte : isDigitByte b = false := by
      simp [isDigitByte, UInt8.le_iff_toNat_le, h₉]
      omega
    have hchar : isDigit c = false := by
      by_contra hdigit
      have hle := (toNat_of_isDigit (by simpa using hdigit)).2
      omega
    exact ⟨b, bs, hbytes, hbyte.trans hchar.symm⟩

theorem encode_length {p : List Char} (hp : Ascii p) : (encode p).length = p.length := by
  induction p with
  | nil => rfl
  | cons c p ih =>
    obtain ⟨-, hc⟩ | ⟨hc, -⟩ := utf8EncodeChar_cases c
    · rw [encode_cons, hc, List.length_append, ih fun d hd => hp d (List.mem_cons_of_mem c hd)]
      simp [Nat.add_comm]
    · have := hp c List.mem_cons_self
      omega

theorem AllDigits.ascii {ds : List Char} (h : AllDigits ds) : Ascii ds := by
  intro c hc
  have hle := (toNat_of_isDigit (h c hc)).2
  omega

theorem IsSign.ascii {sign : Option Char} (h : IsSign sign) : Ascii sign.toList := by
  intro c hc
  rcases h c (by simpa using hc) with rfl | rfl <;> decide

/-- The position `i` of the bytes is where the text `s` begins. -/
def StandsAt (bytes : List UInt8) (i : Nat) (s : List Char) : Prop := bytes.drop i = encode s

namespace StandsAt

variable {bytes : List UInt8} {i : Nat} {s : List Char}

theorem advance {p : List Char} (hp : Ascii p) (h : StandsAt bytes i (p ++ s)) :
    StandsAt bytes (i + p.length) s := by
  show bytes.drop (i + p.length) = encode s
  rw [← List.drop_drop, show bytes.drop i = _ from h, encode_append, ← encode_length hp,
    List.drop_left]

/-- At the front of `s` stands one of the characters `cs`. -/
theorem hasAt_eq (h : StandsAt bytes i s) {cs : List Char} (hcs : Ascii cs) :
    hasAt bytes i cs = s.head?.any (cs.contains ·) := by
  have hget : bytes[i]? = (encode s).head? := by rw [← show bytes.drop i = _ from h, List.head?_drop]
  rw [hasAt, hget]
  cases s with
  | nil => rfl
  | cons c s =>
    rw [Bool.eq_iff_iff]
    obtain ⟨hc, hbytes⟩ | ⟨hc, b, bs, hbytes, hb⟩ := utf8EncodeChar_cases c
    · have hiff : (∃ d ∈ cs, d.toUInt8 = c.toUInt8) ↔ c ∈ cs := by
        constructor
        · rintro ⟨d, hd, heq⟩
          rwa [← (toUInt8_eq_iff (hcs d hd) hc).1 heq]
        · exact fun hmem => ⟨c, hmem, rfl⟩
      simpa [encode_cons, hbytes] using hiff
    · -- the first byte of such a character is no code of an ASCII one
      have hbyte : ∀ d ∈ cs, d.toUInt8 ≠ b := by
        rintro d hd rfl
        have := toNat_toUInt8 (hcs d hd)
        have := hcs d hd
        omega
      have hmem : c ∉ cs := fun hmem => by
        have := hcs c hmem
        omega
      simpa [encode_cons, hbytes, hmem] using hbyte

theorem digitsEnd_eq (h : StandsAt bytes i s) :
    digitsEnd bytes i = i + (scanDigits s).1.length := by
  -- by induction on the text, not on the bytes: a character that is no digit ends the scan at
  -- its first byte, and one that is has no other
  induction s generalizing i with
  | nil =>
    have hi : ¬ i < bytes.length := by
      simpa [StandsAt, encode] using h
    rw [digitsEnd, dif_neg hi]
    rfl
  | cons c s ih =>
    obtain ⟨b, bs, hbytes, hdigit⟩ := exists_utf8EncodeChar c
    have hdrop : bytes.drop i = b :: (bs ++ encode s) := by
      rw [show bytes.drop i = _ from h, encode_cons, hbytes, List.cons_append]
    have hi : i < bytes.length := by
      by_contra hge
      simp [List.drop_eq_nil_of_le (Nat.le_of_not_lt hge)] at hdrop
    have hget : bytes[i] = b := by
      rw [List.drop_eq_getElem_cons hi] at hdrop
      exact (List.cons.inj hdrop).1
    rw [digitsEnd, dif_pos hi, hget, hdigit]
    by_cases hc : isDigit c = true
    · have hs : StandsAt bytes (i + 1) s :=
        advance (p := [c]) (AllDigits.ascii (by simpa [AllDigits] using hc)) h
      rw [if_pos hc, ih hs]
      simp [scanDigits, hc]
      omega
    · simp [scanDigits, hc]

theorem signEnd_eq (h : StandsAt bytes i s) :
    signEnd bytes i = i + (scanSign s).1.toList.length := by
  rw [signEnd, h.hasAt_eq (by simp [Ascii])]
  fun_cases scanSign s with
  | case1 => rfl
  | case2 => rfl
  | case3 =>
    cases s <;> simp_all

theorem fractionEnd_eq (h : StandsAt bytes i s) :
    fractionEnd bytes i = i + ((scanFraction s).1.elim [] ('.' :: ·)).length := by
  rw [fractionEnd, h.hasAt_eq (by simp [Ascii])]
  fun_cases scanFraction s with
  | case1 s =>
    have hs : StandsAt bytes (i + 1) s := advance (p := ['.']) (by simp [Ascii]) h
    simp [hs.digitsEnd_eq]
    omega
  | case2 =>
    cases s <;> simp_all

theorem exponentEnd_eq (h : StandsAt bytes i s) :
    exponentEnd bytes i = i + ((scanExponent? s).elim [] Exponent.text).length := by
  rw [exponentEnd, h.hasAt_eq (by simp [Ascii])]
  cases s with
  | nil => simp [scanExponent?]
  | cons c s =>
    by_cases hmark : c = 'e' ∨ c = 'E'
    · have hs : StandsAt bytes (i + 1) s :=
        advance (p := [c]) (by rcases hmark with rfl | rfl <;> simp [Ascii]) h
      obtain ⟨hsign, happend⟩ := scanSign_spec s
      have hs₁ : StandsAt bytes (i + 1 + (scanSign s).1.toList.length) (scanSign s).2 :=
        advance hsign.ascii (by rwa [happend])
      simp only [hs.signEnd_eq, hs₁.digitsEnd_eq]
      cases hdigits : (scanDigits (scanSign s).2).1 with
      | nil => simp [scanExponent?, hmark, hdigits]
      | cons d ds =>
        simp [scanExponent?, hmark, hdigits, Exponent.text]
        omega
    · simp [scanExponent?, hmark]

end StandsAt

theorem ascii_fraction {fraction : Option (List Char)} (h : ∀ ds ∈ fraction, AllDigits ds) :
    Ascii (fraction.elim [] ('.' :: ·)) := by
  cases fraction with
  | none => simp [Ascii]
  | some ds => simpa [Ascii] using (h ds rfl).ascii

/-- A mantissa has no digit if it is empty or a point alone. -/
theorem no_digit_iff {whole : List Char} (hwhole : AllDigits whole)
    (fraction : Option (List Char)) (s : List Char) (start : Nat) :
    (start + whole.length + (fraction.elim [] ('.' :: ·)).length = start ||
      (start + whole.length + (fraction.elim [] ('.' :: ·)).length = start + 1 &&
        (whole ++ (fraction.elim [] ('.' :: ·) ++ s)).head?.any (['.'].contains ·))) =
    (whole.isEmpty && (fraction.getD []).isEmpty) := by
  cases whole with
  | nil =>
    cases fraction with
    | none => simp
    | some ds => cases ds <;> simp
  | cons d ds =>
    have hd : d ≠ '.' := by
      rintro rfl
      simpa [isDigit] using hwhole '.' List.mem_cons_self
    simp [hd]
    omega

/-- The scan over bytes ends at the last character of the numeral that is read. -/
theorem numeralEnd_encode (t : List Char) :
    numeralEnd (encode t) = (Numeral.scan? t).map (·.text.length) := by
  obtain ⟨hsign, ht⟩ := scanSign_spec t
  obtain ⟨hwhole, hs₁⟩ := scanDigits_spec (scanSign t).2
  obtain ⟨hfraction, hs₂⟩ := scanFraction_spec (scanDigits (scanSign t).2).2
  rcases h₁ : scanSign t with ⟨sign, s₁⟩
  rcases h₂ : scanDigits s₁ with ⟨whole, s₂⟩
  rcases h₃ : scanFraction s₂ with ⟨fraction, s₃⟩
  simp only [h₁, h₂, h₃] at hsign ht hwhole hs₁ hfraction hs₂
  -- what is left after the sign, the digits and the fraction, and where it stands
  have p₀ : StandsAt (encode t) 0 t := rfl
  have p₁ : StandsAt (encode t) sign.toList.length s₁ := by
    simpa using StandsAt.advance (i := 0) hsign.ascii (ht.symm ▸ p₀)
  have p₂ : StandsAt (encode t) (sign.toList.length + whole.length) s₂ :=
    StandsAt.advance hwhole.ascii (hs₁.symm ▸ p₁)
  have p₃ := StandsAt.advance (ascii_fraction hfraction) (hs₂.symm ▸ p₂)
  have hstart : signEnd (encode t) 0 = sign.toList.length := by
    rw [p₀.signEnd_eq, h₁, Nat.zero_add]
  have hpoint : hasAt (encode t) sign.toList.length ['.'] = s₁.head?.any (['.'].contains ·) :=
    p₁.hasAt_eq (by simp [Ascii])
  simp only [numeralEnd, hstart, p₁.digitsEnd_eq, h₂, p₂.fractionEnd_eq, h₃, p₃.exponentEnd_eq,
    hpoint, Numeral.scan?, h₁]
  rw [← hs₁, ← hs₂, no_digit_iff hwhole]
  split
  · rfl
  · simp [Numeral.text, Nat.add_assoc]

theorem Exponent.WellFormed.ascii {e : Exponent} (he : e.WellFormed) : Ascii e.text := by
  have hmark : Ascii [e.mark] := by
    rcases he.mark with h | h <;> simp [Ascii, h]
  exact ascii_append.2 ⟨ascii_append (s := [e.mark]).2 ⟨hmark, he.sign.ascii⟩, he.digits.ascii⟩

theorem Numeral.WellFormed.ascii {n : Numeral} (hn : n.WellFormed) : Ascii n.text := by
  have hexponent : Ascii (n.exponent.elim [] Exponent.text) := by
    cases he : n.exponent with
    | none => simp [Ascii]
    | some e => exact (hn.exponent e he).ascii
  exact ascii_append.2 ⟨ascii_append.2 ⟨ascii_append.2 ⟨hn.sign.ascii, hn.whole.ascii⟩,
    ascii_fraction hn.fraction⟩, hexponent⟩

/-- What stands before that end is the whole of the numeral's bytes. -/
theorem take_encode {p t : List Char} (hp : Ascii p) (h : p <+: t) :
    (encode t).take p.length = encode p := by
  obtain ⟨rest, rfl⟩ := h
  rw [encode_append, ← encode_length hp, List.take_left]

end Graft.Decimal

namespace Graft.Scalar

open Graft.Decimal

/-- **A text is read as the longest numeral it begins with, blanks before it apart.**
If it begins with one, the scan over its bytes cuts off the longest, at the end of a
character, and that piece denotes the double that is read; only numerals denote one.
If it begins with none, the scan finds no end and zero is read.

The scan over bytes is that over characters.  A numeral at the front of the text is extended by the
scan, so what the scan cuts off is a numeral and no other one at the front is longer. -/
theorem textNum_eq_longest {s : String} {t : List Char} (ht : Text.trimStart s.toList = t) :
    (∀ p, (parse? p).isSome ↔ p ∈ Grammar.numeral.matches') ∧
    ((∃ p, p <+: t ∧ p ∈ Grammar.numeral.matches') →
      ∃ p stop x, LongestPrefix Grammar.numeral.matches' t p ∧ numeralEnd (encode t) = some stop ∧
        (encode t).take stop = encode p ∧ parse? p = some x ∧ textNum s = x) ∧
    ((∀ p, p <+: t → p ∉ Grammar.numeral.matches') →
      numeralEnd (encode t) = none ∧ textNum s = 0.0) := by
  refine ⟨fun p => parse?_isSome_iff, ?_, ?_⟩
  · rintro ⟨q, hq, hmem⟩
    obtain ⟨n, hscan, -⟩ := Numeral.exists_scan?_of_front hq hmem
    obtain ⟨hn, hfront⟩ := Numeral.scan?_spec hscan
    refine ⟨n.text, n.text.length, n.value, Numeral.scan?_longest hscan, ?_,
      take_encode hn.ascii hfront, parse?_text hn, ?_⟩
    · rw [numeralEnd_encode, hscan, Option.map_some]
    · rw [textNum, ht, hscan]
  · intro hnone
    have hscan : Numeral.scan? t = none := Numeral.scan?_eq_none_iff.2 hnone
    exact ⟨by rw [numeralEnd_encode, hscan, Option.map_none], by rw [textNum, ht, hscan]⟩

/-- A mark and a sign with no digit after them are no exponent, whatever else follows; a sign and
a point are no numeral. -/
theorem textNum_eq_longest_mark :
    Text.trimStart "  -1.5e+é".toList = ['-', '1', '.', '5', 'e', '+', 'é'] ∧
    (∃ p, p <+: ['-', '1', '.', '5', 'e', '+', 'é'] ∧ p ∈ Grammar.numeral.matches') ∧
    (∃ p stop x,
      LongestPrefix Grammar.numeral.matches' ['-', '1', '.', '5', 'e', '+', 'é'] p ∧
      numeralEnd (encode ['-', '1', '.', '5', 'e', '+', 'é']) = some stop ∧
      (encode ['-', '1', '.', '5', 'e', '+', 'é']).take stop = encode p ∧
      parse? p = some x ∧ textNum "  -1.5e+é" = x) ∧
    Text.trimStart " -.e5".toList = ['-', '.', 'e', '5'] ∧
    (∀ p, p <+: ['-', '.', 'e', '5'] → p ∉ Grammar.numeral.matches') ∧
    textNum " -.e5" = 0.0 := by
  have htrim : Text.trimStart "  -1.5e+é".toList = ['-', '1', '.', '5', 'e', '+', 'é'] := by decide
  have hsome : ∃ p, p <+: ['-', '1', '.', '5', 'e', '+', 'é'] ∧ p ∈ Grammar.numeral.matches' :=
    ⟨['-', '1'], by decide, parse?_isSome_iff.1 (by decide)⟩
  have htrim' : Text.trimStart " -.e5".toList = ['-', '.', 'e', '5'] := by decide
  have hnone : ∀ p, p <+: ['-', '.', 'e', '5'] → p ∉ Grammar.numeral.matches' :=
    Numeral.scan?_eq_none_iff.1 (by decide)
  exact ⟨htrim, hsome, (textNum_eq_longest htrim).2.1 hsome, htrim', hnone,
    ((textNum_eq_longest htrim').2.2 hnone).2⟩

end Graft.Scalar
