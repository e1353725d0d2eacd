import Mathlib
import NormalTower.Text.Numeral

/-!
# Canonical numerals

The digits of a number spell it in its base with nothing superfluous in front
(`Base.spells_digits`). They are built from the left, one digit behind the others
(`Base.digits_induction`), so they are read back by the same rule (`Base.value_digits`), and zeros
in front do not change what is read (`Base.value_zeros`).

Nothing else spells the number (`Base.spells_iff`): take the last digit away, and what is left is
the numeral of the quotient. A decimal numeral is what spells its value in base ten
(`isNumeral_iff_spells`).

* `span_eq_iff`: a maximal run of characters is what splits a text where a condition first fails.
* `byteText_eq`: the text of a byte has two hexadecimal digits.
-/

namespace NormalTower

/-- `d` is the decimal numeral of `v`: one digit or more, and no zero in front of others. -/
structure IsNumeral (d : List Char) (v : Nat) : Prop where
  ne_nil : d ≠ []
  isDigit : ∀ c ∈ d, c.isDigit
  leading : d.head? = some '0' → d = ['0']
  value : Nat.ofDigitChars 10 d 0 = v

/-! ## Runs of characters -/

theorem span_eq_iff {α : Type} {p : α → Bool} {cs ds rest : List α} :
    cs.takeWhile p = ds ∧ cs.dropWhile p = rest ↔
      cs = ds ++ rest ∧ (∀ c ∈ ds, p c) ∧ ∀ c ∈ rest.head?, p c = false := by
  constructor
  · rintro ⟨rfl, rfl⟩
    refine ⟨List.takeWhile_append_dropWhile.symm, fun c hc => List.mem_takeWhile_imp hc,
      fun c hc => ?_⟩
    have h := List.head?_dropWhile_not p cs
    rw [Option.mem_def.mp hc] at h
    exact h
  · rintro ⟨rfl, hds, hrest⟩
    rw [List.takeWhile_append_of_pos hds, List.dropWhile_append_of_pos hds]
    cases rest with
    | nil => exact ⟨List.append_nil ds, rfl⟩
    | cons c rest =>
      have hc := hrest c rfl
      rw [List.takeWhile_cons_of_neg (by simp [hc]), List.dropWhile_cons_of_neg (by simp [hc])]
      exact ⟨List.append_nil ds, rfl⟩

/-! ## Digits -/

theorem toNat_of_isDigit {c : Char} (h : c.isDigit) : 48 ≤ c.toNat ∧ c.toNat ≤ 57 := by
  simp only [Char.isDigit, Bool.and_eq_true, decide_eq_true_eq] at h
  exact h

theorem digitChar_of_isDigit {c : Char} (h : c.isDigit) : Nat.digitChar (c.toNat - 48) = c := by
  have hc := toNat_of_isDigit h
  apply Char.toNat_inj.mp
  rw [Nat.toNat_digitChar_of_lt_ten (by omega)]
  omega

/-! ## Digits of every base -/

namespace Base

/-- The digits of the base in the order of their values. -/
def alphabet : Base → List Char
  | .decimal => "0123456789".toList
  | .lowerHex => "0123456789abcdef".toList
  | .upperHex => "0123456789ABCDEF".toList

/-- How many digits the base has. -/
def radix : Base → Nat
  | .decimal => 10
  | .lowerHex => 16
  | .upperHex => 16

/-- The digit of a value below the radix. -/
def digit (b : Base) (i : Nat) : Char := b.alphabet.getD i '0'

/-- The letter of a digit, which is a small one unless the base says otherwise. -/
def letter : Base → Char → Char
  | .decimal => id
  | .lowerHex => id
  | .upperHex => Char.toUpper

/-- The number that a list of digits stands for. -/
def value (b : Base) (ds : List Char) : Nat :=
  ds.foldl (fun v c => b.radix * v + b.alphabet.idxOf c) 0

variable {b : Base}

theorem one_lt_radix (b : Base) : 1 < b.radix := by
  cases b <;> decide

theorem digit_mem (b : Base) : ∀ i < b.radix, b.digit i ∈ b.alphabet := by
  cases b <;> decide

theorem idxOf_digit (b : Base) : ∀ i < b.radix, b.alphabet.idxOf (b.digit i) = i := by
  cases b <;> decide

theorem idxOf_lt_radix {c : Char} (h : c ∈ b.alphabet) : b.alphabet.idxOf c < b.radix := by
  have hlength : b.alphabet.length = b.radix := by cases b <;> rfl
  exact hlength ▸ List.idxOf_lt_length_of_mem h

theorem digit_idxOf {c : Char} (h : c ∈ b.alphabet) : b.digit (b.alphabet.idxOf c) = c := by
  rw [digit, List.getD_eq_getElem _ _ (List.idxOf_lt_length_of_mem h), List.getElem_idxOf]

theorem digit_ne_zero (b : Base) : ∀ i < b.radix, 0 < i → b.digit i ≠ '0' := by
  cases b <;> decide

theorem zero_mem (b : Base) : '0' ∈ b.alphabet := by
  cases b <;> decide

theorem digits_eq_map (b : Base) (k : Nat) :
    b.digits k = (Nat.toDigits b.radix k).map b.letter := by
  cases b with
  | decimal => exact (List.map_id _).symm
  | lowerHex => exact (List.map_id _).symm
  | upperHex => rfl

theorem letter_digitChar (b : Base) :
    ∀ i < b.radix, b.letter (Nat.digitChar i) = b.digit i := by
  cases b <;> decide

theorem digits_of_lt {k : Nat} (h : k < b.radix) : b.digits k = [b.digit k] := by
  rw [digits_eq_map, Nat.toDigits_of_lt_base h, List.map_singleton, letter_digitChar b k h]

theorem digits_of_le {k : Nat} (h : b.radix ≤ k) :
    b.digits k = b.digits (k / b.radix) ++ [b.digit (k % b.radix)] := by
  have hmod : k % b.radix < b.radix := Nat.mod_lt k (Nat.zero_lt_of_lt b.one_lt_radix)
  rw [digits_eq_map, digits_eq_map, Nat.toDigits_of_base_le b.one_lt_radix h, List.map_append,
    List.map_singleton, letter_digitChar b _ hmod]

/-- A digit behind the digits of a positive number. -/
theorem digits_concat {k i : Nat} (hk : 0 < k) (hi : i < b.radix) :
    b.digits (b.radix * k + i) = b.digits k ++ [b.digit i] := by
  have hpos : 0 < b.radix := Nat.zero_lt_of_lt b.one_lt_radix
  have hle : b.radix ≤ b.radix * k + i := Nat.le_add_right_of_le (Nat.le_mul_of_pos_right _ hk)
  rw [digits_of_le hle, Nat.mul_add_div hpos, Nat.div_eq_of_lt hi, Nat.add_zero, Nat.mul_add_mod,
    Nat.mod_eq_of_lt hi]

/-- The digits of a number, built from the left: one digit, or one more behind the others. -/
theorem digits_induction {motive : Nat → List Char → Prop}
    (one : ∀ k < b.radix, motive k [b.digit k])
    (more : ∀ k ds, 0 < k → motive k ds →
      ∀ i < b.radix, motive (b.radix * k + i) (ds ++ [b.digit i])) (k : Nat) :
    motive k (b.digits k) := by
  induction k using Nat.strong_induction_on with
  | _ k ih =>
    by_cases h : k < b.radix
    · rw [digits_of_lt h]
      exact one k h
    · have hle : b.radix ≤ k := Nat.not_lt.mp h
      have hpos : 0 < b.radix := Nat.zero_lt_of_lt b.one_lt_radix
      have hdiv : k / b.radix < k := Nat.div_lt_self (Nat.lt_of_lt_of_le hpos hle) b.one_lt_radix
      have hmod : k % b.radix < b.radix := Nat.mod_lt k hpos
      have hmore := more (k / b.radix) _ (Nat.div_pos hle hpos) (ih _ hdiv) _ hmod
      rwa [Nat.div_add_mod, ← digits_of_le hle] at hmore

theorem value_concat (b : Base) (ds : List Char) (c : Char) :
    b.value (ds ++ [c]) = b.radix * b.value ds + b.alphabet.idxOf c := by
  unfold value
  rw [List.foldl_append]
  rfl

theorem value_digits (b : Base) (k : Nat) : b.value (b.digits k) = k := by
  refine digits_induction (motive := fun k ds => b.value ds = k) ?_ ?_ k
  · intro k hk
    rw [← List.nil_append [b.digit k], value_concat, idxOf_digit b k hk]
    exact Nat.zero_add k
  · intro k ds _ hds i hi
    rw [value_concat, hds, idxOf_digit b i hi]

theorem value_zeros (b : Base) (k : Nat) (ds : List Char) :
    b.value (List.replicate k '0' ++ ds) = b.value ds := by
  induction k with
  | zero => rfl
  | succ k ih =>
    have hzero : b.radix * 0 + b.alphabet.idxOf '0' = 0 := by cases b <;> decide
    rw [List.replicate_succ, List.cons_append, value, List.foldl_cons, hzero]
    exact ih

theorem mem_alphabet_of_mem_digits {c : Char} {k : Nat} (h : c ∈ b.digits k) : c ∈ b.alphabet := by
  revert c
  refine digits_induction (motive := fun _ ds => ∀ {c}, c ∈ ds → c ∈ b.alphabet) ?_ ?_ k
  · intro k hk c hc
    rw [List.mem_singleton.mp hc]
    exact digit_mem b k hk
  · intro k ds _ hds i hi c hc
    rcases List.mem_append.mp hc with hc | hc
    · exact hds hc
    · rw [List.mem_singleton.mp hc]
      exact digit_mem b i hi

theorem digits_ne_nil (b : Base) (k : Nat) : b.digits k ≠ [] := by
  refine digits_induction (motive := fun _ ds => ds ≠ []) ?_ ?_ k
  · exact fun k _ => List.cons_ne_nil _ _
  · exact fun k ds _ _ i _ => List.concat_ne_nil _ _

theorem head?_digits_ne_zero {k : Nat} (hk : 0 < k) : (b.digits k).head? ≠ some '0' := by
  refine (digits_induction
    (motive := fun k ds => 0 < k → ds ≠ [] ∧ ds.head? ≠ some '0') ?_ ?_ k hk).2
  · intro k hk hpos
    refine ⟨List.cons_ne_nil _ _, ?_⟩
    rw [List.head?_cons, ne_eq, Option.some.injEq]
    exact digit_ne_zero b k hk hpos
  · intro k ds hk hds i _ _
    refine ⟨List.concat_ne_nil _ _, ?_⟩
    rw [List.head?_append_of_ne_nil _ (hds hk).1]
    exact (hds hk).2

/-- `ds` is the shortest way to write `v`: one digit or more, and no zero in front of others. -/
structure Spells (b : Base) (ds : List Char) (v : Nat) : Prop where
  ne_nil : ds ≠ []
  mem_alphabet : ∀ c ∈ ds, c ∈ b.alphabet
  leading : ds.head? = some '0' → ds = ['0']
  value_eq : b.value ds = v

theorem spells_digits (b : Base) (k : Nat) : b.Spells (b.digits k) k where
  ne_nil := b.digits_ne_nil k
  mem_alphabet _ := mem_alphabet_of_mem_digits
  leading h := by
    rcases Nat.eq_zero_or_pos k with rfl | hk
    · cases b <;> rfl
    · exact absurd h (head?_digits_ne_zero hk)
  value_eq := b.value_digits k

theorem Spells.eq_digits {ds : List Char} {v : Nat} (h : b.Spells ds v) : ds = b.digits v := by
  -- from the last digit on: those in front of it are a numeral as well, and not of zero
  induction ds using List.reverseRecOn generalizing v with
  | nil => exact absurd rfl h.ne_nil
  | append_singleton ds c ih =>
    have hc : c ∈ b.alphabet := h.mem_alphabet c (by simp)
    have hval := h.value_eq
    rw [value_concat] at hval
    by_cases hds : ds = []
    · subst hds
      have hv : b.alphabet.idxOf c = v := (Nat.zero_add _).symm.trans hval
      rw [List.nil_append, ← hv, digits_of_lt (idxOf_lt_radix hc), digit_idxOf hc]
    · have hhead : ds.head? ≠ some '0' := by
        intro h0
        have hsingle := h.leading (by rw [List.head?_append_of_ne_nil _ hds, h0])
        have hone := congrArg List.length hsingle
        rw [List.length_append] at hone
        exact hds (List.eq_nil_of_length_eq_zero (Nat.succ.inj hone))
      have hspells : b.Spells ds (b.value ds) :=
        ⟨hds, fun d hd => h.mem_alphabet d (List.mem_append_left _ hd), fun h0 => absurd h0 hhead,
          rfl⟩
      have hdigits := ih hspells
      have hpos : 0 < b.value ds := by
        refine Nat.pos_of_ne_zero fun h0 => hhead ?_
        rw [hdigits, h0]
        cases b <;> rfl
      rw [← hval, digits_concat hpos (idxOf_lt_radix hc), ← hdigits, digit_idxOf hc]

/-- **The digits of a number are its only numeral** in every base. -/
theorem spells_iff {ds : List Char} {v : Nat} : b.Spells ds v ↔ ds = b.digits v := by
  constructor
  · exact Spells.eq_digits
  · rintro rfl
    exact b.spells_digits v

end Base

/-! ## The decimal numeral -/

theorem digit_of_isDigit {c : Char} (h : c.isDigit) : Base.decimal.digit (c.toNat - 48) = c := by
  have hc := toNat_of_isDigit h
  have hlt : c.toNat - 48 < Base.decimal.radix := by
    show c.toNat - 48 < 10
    omega
  rw [← Base.letter_digitChar _ _ hlt]
  exact digitChar_of_isDigit h

theorem mem_decimal_iff {c : Char} : c ∈ Base.decimal.alphabet ↔ c.isDigit := by
  have hall : Base.decimal.alphabet.all Char.isDigit = true := by decide
  constructor
  · exact List.all_eq_true.mp hall c
  · intro h
    have hc := toNat_of_isDigit h
    rw [← digit_of_isDigit h]
    exact Base.digit_mem _ _ (by show c.toNat - 48 < 10; omega)

theorem value_decimal {d : List Char} (h : ∀ c ∈ d, c.isDigit) :
    Base.decimal.value d = Nat.ofDigitChars 10 d 0 := by
  refine List.foldl_ext _ _ _ fun v c hc => ?_
  have hd := toNat_of_isDigit (h c hc)
  have hidx := Base.idxOf_digit .decimal (c.toNat - 48) (by show c.toNat - 48 < 10; omega)
  rw [digit_of_isDigit (h c hc)] at hidx
  rw [hidx]
  rfl

/-- A decimal numeral is what spells its value in base ten. -/
theorem isNumeral_iff_spells {d : List Char} {v : Nat} :
    IsNumeral d v ↔ Base.decimal.Spells d v := by
  constructor
  · rintro ⟨hne, hdigit, hlead, hval⟩
    refine ⟨hne, fun c hc => mem_decimal_iff.mpr (hdigit c hc), hlead, ?_⟩
    rw [value_decimal hdigit, hval]
  · rintro ⟨hne, hmem, hlead, hval⟩
    have hdigit : ∀ c ∈ d, c.isDigit := fun c hc => mem_decimal_iff.mp (hmem c hc)
    refine ⟨hne, hdigit, hlead, ?_⟩
    rw [← value_decimal hdigit, hval]

theorem isNumeral_iff {d : List Char} {v : Nat} : IsNumeral d v ↔ d = Base.decimal.digits v :=
  isNumeral_iff_spells.trans Base.spells_iff

theorem isNumeral_digits (v : Nat) : IsNumeral (Base.decimal.digits v) v :=
  isNumeral_iff.mpr rfl

theorem IsNumeral.exists_cons {d : List Char} {v : Nat} (h : IsNumeral d v) :
    ∃ c ds, d = c :: ds ∧ c.isDigit := by
  cases d with
  | nil => exact absurd rfl h.ne_nil
  | cons c ds => exact ⟨c, ds, rfl, h.isDigit c List.mem_cons_self⟩

/-! ## The text of a byte -/

theorem byteText_eq (b : UInt8) :
    byteText b = ['0', 'x', Nat.digitChar (b.toNat / 16), Nat.digitChar (b.toNat % 16)] := by
  have hb := b.toNat_lt
  unfold byteText
  by_cases h : b.toNat < 16
  · have hdigits : Nat.toDigits 16 b.toNat = [Nat.digitChar b.toNat] := Nat.toDigits_of_lt_base h
    have hdiv : b.toNat / 16 = 0 := by omega
    have hmod : b.toNat % 16 = b.toNat := by omega
    simp [Style.numeral, Style.gap, Style.core, Style.lead, Base.mark, Base.digits, hdigits, hdiv,
      hmod]
  · have hdigits : Nat.toDigits 16 b.toNat =
        [Nat.digitChar (b.toNat / 16), Nat.digitChar (b.toNat % 16)] := by
      rw [Nat.toDigits_of_base_le (by decide) (by omega), Nat.toDigits_of_lt_base (by omega)]
      rfl
    simp [Style.numeral, Style.gap, Style.core, Style.lead, Base.mark, Base.digits, hdigits]

end NormalTower
