import NormalTower.Json.Byte
import NormalTower.Proofs.Computation
import NormalTower.Proofs.Text.Numeral

/-!
# What counts as a byte in JSON text

`readByte` scans a number as far as it goes and only then asks whether it is a byte. So the number
that it reads is not merely a numeral at the start of the text: the characters behind it must not
belong to the number (`EndsNumber`).

Each scanner is described by what it leaves. A maximal scanner splits the text where its condition
first fails (`span_eq_iff`); the parts of a number follow one after the other
(`readWhole_eq_ok_iff`, `readFraction_eq_none_iff`, `readExponent_eq_none_iff`).

* `readByte_eq_ok_iff`: a byte is read if and only if the text is blanks, the decimal numeral of the
  byte, and a rest that does not go on with the number.
-/

namespace NormalTower.Json

/-- A run of blanks. -/
def Blanks (w : List Char) : Prop := ∀ c ∈ w, c ∈ [' ', '\t', '\r', '\n']

/-- A number ends before `rest`: there is no digit, point or exponent to go on with. -/
def EndsNumber (rest : List Char) : Prop :=
  ∀ c ∈ rest.head?, c.isDigit = false ∧ c ≠ '.' ∧ c ≠ 'e' ∧ c ≠ 'E'

/-! ## Blanks -/

theorem isBlank_iff {c : Char} : isBlank c ↔ c ∈ [' ', '\t', '\r', '\n'] := by
  simp only [isBlank, Bool.or_eq_true, beq_iff_eq, List.mem_cons, List.not_mem_nil, or_false]
  tauto

theorem blanks_iff {w : List Char} : Blanks w ↔ ∀ c ∈ w, isBlank c :=
  forall₂_congr fun _ _ => isBlank_iff.symm

/-- A blank does not go on with a number. -/
theorem Blanks.endsNumber {w : List Char} (h : Blanks w) : EndsNumber w := by
  intro c hc
  have hmem := h c (List.mem_of_head? hc)
  simp only [List.mem_cons, List.not_mem_nil, or_false] at hmem
  rcases hmem with rfl | rfl | rfl | rfl <;> decide

/-! ## Maximal scanners -/

theorem readDigits_eq_ok_iff {cs ds rest : List Char} :
    readDigits cs = .ok (ds, rest) ↔
      cs = ds ++ rest ∧ ds ≠ [] ∧ (∀ c ∈ ds, c.isDigit) ∧ ∀ c ∈ rest.head?, c.isDigit = false := by
  constructor
  · intro h
    cases cs with
    | nil => cases h
    | cons c cs =>
      by_cases hc : c.isDigit
      · simp only [readDigits, if_pos hc, Except.ok.injEq, Prod.mk.injEq] at h
        obtain ⟨hsplit, hds, hrest⟩ := span_eq_iff.mp h
        refine ⟨hsplit, ?_, hds, hrest⟩
        rintro rfl
        rw [List.takeWhile_cons_of_pos hc] at h
        cases h.1
      · simp only [readDigits, if_neg hc] at h
        cases h
  · rintro ⟨hsplit, hne, hds, hrest⟩
    obtain ⟨htake, hdrop⟩ := span_eq_iff.mpr ⟨hsplit, hds, hrest⟩
    cases ds with
    | nil => exact absurd rfl hne
    | cons c ds =>
      subst hsplit
      simp only [List.cons_append] at htake hdrop ⊢
      simp only [readDigits, if_pos (hds c List.mem_cons_self), htake, hdrop]

/-! ## The parts of a number -/

theorem readWhole_zero {cs rest : List Char} {ds : List Char} :
    readWhole ('0' :: cs) = .ok (ds, rest) ↔
      ds = ['0'] ∧ rest = cs ∧ ∀ c ∈ cs.head?, c.isDigit = false := by
  have hany : cs.head?.any Char.isDigit = false ↔ ∀ c ∈ cs.head?, c.isDigit = false := by
    cases cs.head? <;> simp
  rw [← hany]
  simp only [readWhole]
  cases cs.head?.any Char.isDigit with
  | true => simp
  | false => simp [eq_comm]

theorem readWhole_of_head?_ne {cs : List Char} (h : cs.head? ≠ some '0') :
    readWhole cs = readDigits cs := by
  unfold readWhole
  split
  · exact absurd rfl h
  · rfl

theorem readWhole_eq_ok_iff {cs ds rest : List Char} :
    readWhole cs = .ok (ds, rest) ↔
      cs = ds ++ rest ∧ IsNumeral ds (digitsValue ds) ∧ ∀ c ∈ rest.head?, c.isDigit = false := by
  by_cases hcs : cs.head? = some '0'
  · obtain ⟨cs, rfl⟩ := List.head?_eq_some_iff.mp hcs
    rw [readWhole_zero]
    constructor
    · rintro ⟨rfl, rfl, hrest⟩
      exact ⟨rfl, isNumeral_iff.mpr rfl, hrest⟩
    · rintro ⟨hsplit, hds, hrest⟩
      have hzero : ds = ['0'] := by
        apply hds.leading
        rw [← List.head?_append_of_ne_nil _ hds.ne_nil, ← hsplit]
        rfl
      subst hzero
      cases hsplit
      exact ⟨rfl, rfl, hrest⟩
  · rw [readWhole_of_head?_ne hcs, readDigits_eq_ok_iff]
    constructor
    · rintro ⟨rfl, hne, hds, hrest⟩
      refine ⟨rfl, ⟨hne, hds, fun h => ?_, rfl⟩, hrest⟩
      rw [List.head?_append_of_ne_nil _ hne] at hcs
      exact absurd h hcs
    · rintro ⟨hsplit, hds, hrest⟩
      exact ⟨hsplit, hds.ne_nil, hds.isDigit, hrest⟩

theorem readFraction_eq_none_iff {cs rest : List Char} :
    readFraction cs = .ok (none, rest) ↔ cs = rest ∧ ∀ c ∈ rest.head?, c ≠ '.' := by
  unfold readFraction
  split
  · rename_i tail
    constructor
    · intro h
      obtain ⟨x, -, h⟩ := bind_eq_ok_iff.mp h
      cases h
    · rintro ⟨rfl, h⟩
      exact absurd rfl (h '.' rfl)
  · rename_i hcs
    constructor
    · intro h
      cases h
      refine ⟨rfl, ?_⟩
      rintro c hc rfl
      obtain ⟨tail, rfl⟩ := List.head?_eq_some_iff.mp hc
      exact hcs tail rfl
    · rintro ⟨rfl, -⟩
      rfl

theorem readExponent_eq_none_iff {cs rest : List Char} :
    readExponent cs = .ok (none, rest) ↔ cs = rest ∧ ∀ c ∈ rest.head?, c ≠ 'e' ∧ c ≠ 'E' := by
  cases cs with
  | nil =>
    constructor
    · intro h
      cases h
      exact ⟨rfl, fun c hc => by cases hc⟩
    · rintro ⟨rfl, -⟩
      rfl
  | cons c cs =>
    by_cases hc : c = 'e' ∨ c = 'E'
    · simp only [readExponent, if_pos hc]
      constructor
      · intro h
        obtain ⟨x, -, h⟩ := bind_eq_ok_iff.mp h
        cases h
      · rintro ⟨rfl, h⟩
        obtain ⟨he, hE⟩ := h c rfl
        exact absurd hc (not_or.mpr ⟨he, hE⟩)
    · simp only [readExponent, if_neg hc]
      constructor
      · intro h
        cases h
        refine ⟨rfl, fun d hd => ?_⟩
        cases hd
        exact not_or.mp hc
      · rintro ⟨rfl, -⟩
        rfl

/-! ## Numbers -/

theorem readUnsigned_eq_ok_iff {negative negative' : Bool} {cs whole rest : List Char} :
    readUnsigned negative cs = .ok (⟨negative', whole, none, none⟩, rest) ↔
      negative' = negative ∧ cs = whole ++ rest ∧ IsNumeral whole (digitsValue whole) ∧
        EndsNumber rest := by
  constructor
  · intro h
    obtain ⟨⟨ds, cs₁⟩, hwhole, h⟩ := bind_eq_ok_iff.mp h
    obtain ⟨⟨f, cs₂⟩, hfraction, h⟩ := bind_eq_ok_iff.mp h
    obtain ⟨⟨k, cs₃⟩, hexponent, h⟩ := bind_eq_ok_iff.mp h
    cases h
    obtain ⟨rfl, hE⟩ := readExponent_eq_none_iff.mp hexponent
    obtain ⟨rfl, hpoint⟩ := readFraction_eq_none_iff.mp hfraction
    obtain ⟨hsplit, hnumeral, hdigit⟩ := readWhole_eq_ok_iff.mp hwhole
    exact ⟨rfl, hsplit, hnumeral, fun c hc => ⟨hdigit c hc, hpoint c hc, hE c hc⟩⟩
  · rintro ⟨rfl, hsplit, hnumeral, hends⟩
    have hwhole := readWhole_eq_ok_iff.mpr ⟨hsplit, hnumeral, fun c hc => (hends c hc).1⟩
    have hfraction := readFraction_eq_none_iff.mpr ⟨rfl, fun c hc => (hends c hc).2.1⟩
    have hexponent := readExponent_eq_none_iff.mpr ⟨rfl, fun c hc => (hends c hc).2.2⟩
    simp only [readUnsigned, hwhole, hfraction, hexponent, bind, Except.bind]
    rfl

theorem readDecimal_eq_ok_iff {cs whole rest : List Char} :
    readDecimal cs = .ok (⟨false, whole, none, none⟩, rest) ↔
      cs = whole ++ rest ∧ IsNumeral whole (digitsValue whole) ∧ EndsNumber rest := by
  unfold readDecimal
  split
  · -- a minus sign stands before the number, and no numeral starts with one
    rw [readUnsigned_eq_ok_iff]
    constructor
    · rintro ⟨h, -⟩
      cases h
    · rintro ⟨hsplit, hnumeral, -⟩
      obtain ⟨c, ds, rfl, hc⟩ := hnumeral.exists_cons
      cases hsplit
      cases hc
  · rw [readUnsigned_eq_ok_iff]
    exact and_iff_right rfl

theorem Decimal.byte?_eq_some_iff {d : Decimal} {b : UInt8} :
    d.byte? = some b ↔
      d.negative = false ∧ d.fraction = none ∧ d.exponent = none ∧
        digitsValue d.whole = b.toNat := by
  obtain ⟨negative, whole, fraction, exponent⟩ := d
  have hvalue : (if digitsValue whole < 256 then some (UInt8.ofNat (digitsValue whole)) else none) =
      some b ↔ digitsValue whole = b.toNat := by
    split
    · rename_i h
      rw [Option.some.injEq, ← UInt8.toNat_inj, UInt8.toNat_ofNat_of_lt' h]
    · rename_i h
      have hb := b.toNat_lt
      constructor
      · intro h'
        cases h'
      · intro h'
        omega
  unfold Decimal.byte?
  cases negative <;> cases fraction <;> cases exponent <;> simp [hvalue]

/-! ## Bytes -/

theorem readNumber_eq_ok_iff {cs rest : List Char} {b : UInt8} :
    readNumber cs = .ok (b, rest) ↔
      cs = Base.decimal.digits b.toNat ++ rest ∧ EndsNumber rest := by
  constructor
  · intro h
    obtain ⟨⟨d, rest'⟩, hd, h⟩ := bind_eq_ok_iff.mp h
    cases hbyte : d.byte? with
    | none =>
      simp only [hbyte] at h
      cases h
    | some b' =>
      simp only [hbyte] at h
      cases h
      obtain ⟨hneg, hfraction, hexponent, hvalue⟩ := Decimal.byte?_eq_some_iff.mp hbyte
      obtain ⟨negative, whole, fraction, exponent⟩ := d
      subst hneg hfraction hexponent
      obtain ⟨hsplit, hnumeral, hends⟩ := readDecimal_eq_ok_iff.mp hd
      rw [hvalue] at hnumeral
      rw [← isNumeral_iff.mp hnumeral]
      exact ⟨hsplit, hends⟩
  · rintro ⟨hsplit, hends⟩
    have hnumeral := isNumeral_digits b.toNat
    have hvalue : digitsValue (Base.decimal.digits b.toNat) = b.toNat := hnumeral.value
    have hd := readDecimal_eq_ok_iff.mpr ⟨hsplit, hvalue.symm ▸ hnumeral, hends⟩
    have hbyte : (Decimal.mk false (Base.decimal.digits b.toNat) none none).byte? = some b :=
      Decimal.byte?_eq_some_iff.mpr ⟨rfl, rfl, rfl, hvalue⟩
    simp only [readNumber, hd, bind, Except.bind, hbyte]

/-- **A byte in JSON text** stands behind blanks as its decimal numeral, and the text does not go on
with the number. -/
theorem readByte_eq_ok_iff {text rest : List Char} {b : UInt8} :
    readByte text = .ok (b, rest) ↔
      ∃ w, Blanks w ∧ text = w ++ Base.decimal.digits b.toNat ++ rest ∧ EndsNumber rest := by
  unfold readByte
  constructor
  · intro h
    obtain ⟨htext, hblank, -⟩ := span_eq_iff.mp
      (⟨rfl, rfl⟩ : text.takeWhile isBlank = _ ∧ text.dropWhile isBlank = _)
    simp only at h
    split at h
    · obtain ⟨hsplit, hends⟩ := readNumber_eq_ok_iff.mp h
      refine ⟨text.takeWhile isBlank, blanks_iff.mpr hblank, ?_, hends⟩
      rw [List.append_assoc, ← hsplit]
      exact htext
    · cases h
  · rintro ⟨w, hw, rfl, hends⟩
    obtain ⟨c, ds, hdigits, hc⟩ := (isNumeral_digits b.toNat).exists_cons
    -- the numeral starts with a digit, so the blanks end before it
    have hblank : ∀ d ∈ (Base.decimal.digits b.toNat ++ rest).head?, isBlank d = false := by
      rw [hdigits]
      rintro d hd
      cases hd
      by_contra h
      have hblanks : Blanks [c] := blanks_iff.mpr (by simpa using h)
      rw [(hblanks.endsNumber c rfl).1] at hc
      cases hc
    rw [List.append_assoc]
    obtain ⟨-, hdrop⟩ := span_eq_iff.mpr ⟨rfl, blanks_iff.mp hw, hblank⟩
    have hstarts : (Base.decimal.digits b.toNat ++ rest).head?.any startsNumber := by
      rw [hdigits]
      simp [startsNumber, hc]
    simp only [hdrop, hstarts, if_true]
    exact readNumber_eq_ok_iff.mpr ⟨rfl, hends⟩

end NormalTower.Json
