import NormalTower.Proofs.Text.Numeral
import NormalTower.Text.Directive

/-!
# Padded numerals can be read back

A number in a field is its lead and its digits with some filling. `Style.Fills` says which texts are
meant by a style, and `Style.fills_numeral` that the written number is one of them.

The number can be read back from its text. With zeros between lead and digits, the value of the
digits is the same as without them. With another filling, the text without the fill character is the
number without filling, as long as the fill character cannot be taken for a part of a number
(`Style.Legible`). Of the fill characters in `Directive.table` none can.

* `Style.numeral_injective`: in a field of a given width, different numbers have different texts.
* `Directive.eq_ofFlags`: the table says of a directive what its characters say.
-/

namespace NormalTower

/-! ## What stands around a number -/

/-- How many fill characters may stand before a text and behind it. -/
def Align.Allows : Align → Nat → Nat → Prop
  | .left, before, _ => before = 0
  | .centre, before, behind => before = (before + behind) / 2
  | .right, _, behind => behind = 0

/-- `text` is the number with the given lead and digits, in a field of `width` characters. -/
structure Style.Fills (s : Style) (width : Nat) (lead digits text : List Char) : Prop where
  length_eq : text.length = max width (lead ++ digits).length
  zeros : s.zeros = true → ∃ k, text = lead ++ List.replicate k '0' ++ digits
  around : s.zeros = false → ∃ before behind, s.align.Allows before behind ∧
    text = List.replicate before s.fill ++ (lead ++ digits) ++ List.replicate behind s.fill

theorem Align.exists_pad_eq (a : Align) (fill : Char) (gap : Nat) (text : List Char) :
    ∃ before behind, a.Allows before behind ∧
      a.pad fill gap text = List.replicate before fill ++ text ++ List.replicate behind fill := by
  cases a with
  | left => exact ⟨0, gap, rfl, rfl⟩
  | centre =>
    refine ⟨gap / 2, gap - gap / 2, ?_, rfl⟩
    show gap / 2 = (gap / 2 + (gap - gap / 2)) / 2
    rw [Nat.add_sub_cancel' (Nat.div_le_self gap 2)]
  | right => exact ⟨gap, 0, rfl, (List.append_nil _).symm⟩

namespace Style

variable {s : Style} {b : Base}

theorem numeral_of_zeros (h : s.zeros = true) (width : Nat) (b : Base) (k : Nat) :
    s.numeral width b k = s.lead b ++ List.replicate (s.gap width b k) '0' ++ b.digits k :=
  if_pos h

theorem numeral_of_not_zeros (h : s.zeros = false) (width : Nat) (b : Base) (k : Nat) :
    s.numeral width b k = s.align.pad s.fill (s.gap width b k) (s.core b k) :=
  if_neg (by rw [h]; exact Bool.false_ne_true)

/-- With zeros, the fill character and the alignment do not count. -/
theorem numeral_with_eq (h : s.zeros = true) (fill : Char) (align : Align) (width : Nat) (b : Base)
    (k : Nat) :
    numeral { s with fill := fill, align := align } width b k = s.numeral width b k :=
  (numeral_of_zeros (s := { s with fill := fill, align := align }) h width b k).trans
    (numeral_of_zeros h width b k).symm

/-- **The written number is as the style says.** -/
theorem fills_numeral (s : Style) (width : Nat) (b : Base) (k : Nat) :
    s.Fills (if s.wide then width else 0) (s.lead b) (b.digits k) (s.numeral width b k) where
  length_eq := s.length_numeral width b k
  zeros h := ⟨_, numeral_of_zeros h width b k⟩
  around h := by
    rw [numeral_of_not_zeros h]
    exact s.align.exists_pad_eq s.fill _ _

/-! ## Reading a number back -/

/-- The characters of numbers without filling. -/
def symbols (b : Base) : List Char := '+' :: 'x' :: b.alphabet

/-- The fill character cannot be taken for a part of a number. -/
def Legible (s : Style) (b : Base) : Prop := s.zeros = true ∨ s.fill ∉ symbols b

instance : Decidable (s.Legible b) := inferInstanceAs (Decidable (_ ∨ _))

theorem lead_subset (s : Style) (b : Base) : s.lead b ⊆ symbols b := by
  unfold lead
  cases b <;> cases s.plus <;> cases s.alternate <;> decide

theorem digits_subset (b : Base) (k : Nat) : b.digits k ⊆ symbols b := fun _ h =>
  List.mem_cons_of_mem _ (List.mem_cons_of_mem _ (Base.mem_alphabet_of_mem_digits h))

theorem core_subset (s : Style) (b : Base) (k : Nat) : s.core b k ⊆ symbols b :=
  List.append_subset.mpr ⟨s.lead_subset b, digits_subset b k⟩

theorem numeral_subset (s : Style) (width : Nat) (b : Base) (k : Nat) :
    s.numeral width b k ⊆ s.fill :: symbols b := by
  have hfill : ∀ n, List.replicate n s.fill ⊆ s.fill :: symbols b := fun n =>
    List.replicate_subset.mpr (Or.inr List.mem_cons_self)
  cases hz : s.zeros with
  | true =>
    have hzero : '0' ∈ symbols b := List.mem_cons_of_mem _ (List.mem_cons_of_mem _ b.zero_mem)
    rw [numeral_of_zeros hz]
    refine List.subset_cons_of_subset _ (List.append_subset.mpr ⟨List.append_subset.mpr
      ⟨s.lead_subset b, List.replicate_subset.mpr (Or.inr hzero)⟩, digits_subset b k⟩)
  | false =>
    obtain ⟨before, behind, -, htext⟩ := (s.fills_numeral width b k).around hz
    rw [htext]
    exact List.append_subset.mpr ⟨List.append_subset.mpr
      ⟨hfill _, List.subset_cons_of_subset _ (s.core_subset b k)⟩, hfill _⟩

theorem core_injective {k k' : Nat} (h : s.core b k = s.core b k') : k = k' := by
  have hdigits : b.digits k = b.digits k' := List.append_cancel_left h
  rw [← b.value_digits k, hdigits, b.value_digits]

/-- The number without filling, if the fill character is no part of it. -/
theorem filter_numeral (hz : s.zeros = false) (hf : s.fill ∉ symbols b) (width k : Nat) :
    (s.numeral width b k).filter (· ≠ s.fill) = s.core b k := by
  have hfill : ∀ n, (List.replicate n s.fill).filter (· ≠ s.fill) = [] := fun n => by
    rw [List.filter_replicate, if_neg (by simp)]
  have hcore : (s.core b k).filter (· ≠ s.fill) = s.core b k := by
    refine List.filter_eq_self.mpr fun c hc => decide_eq_true ?_
    rintro rfl
    exact hf (s.core_subset b k hc)
  obtain ⟨before, behind, -, htext⟩ := (s.fills_numeral width b k).around hz
  rw [htext, List.filter_append, List.filter_append, hfill, hfill, List.nil_append,
    List.append_nil]
  exact hcore

/-- **In a field of a given width, different numbers have different texts.** -/
theorem numeral_injective (hs : s.Legible b) {width k k' : Nat}
    (h : s.numeral width b k = s.numeral width b k') : k = k' := by
  cases hz : s.zeros with
  | true =>
    rw [numeral_of_zeros hz, numeral_of_zeros hz, List.append_assoc, List.append_assoc] at h
    have hvalue := congrArg b.value (List.append_cancel_left h)
    rwa [b.value_zeros, b.value_zeros, b.value_digits, b.value_digits] at hvalue
  | false =>
    have hf : s.fill ∉ symbols b := by
      rcases hs with hs | hs
      · rw [hz] at hs
        exact absurd hs Bool.false_ne_true
      · exact hs
    have hcore := congrArg (List.filter (· ≠ s.fill)) h
    rw [filter_numeral hz hf, filter_numeral hz hf] at hcore
    exact core_injective hcore

/-! ## Directives -/

/-- The style that the characters of a directive ask for. A fill character stands behind the colon,
right before an alignment. -/
def ofFlags (text : List Char) : Style where
  plus := text.contains '+'
  alternate := text.contains '#'
  zeros := text.contains '0'
  fill :=
    match text with
    | _ :: _ :: c :: a :: _ => if a ∈ ['<', '^', '>'] then c else ' '
    | _ => ' '
  align := if text.contains '<' then .left else if text.contains '^' then .centre else .right
  wide := text.contains '$'

end Style

namespace Directive

/-- The directive that its characters ask for: a question mark asks for a debug text, and an `x`
without one for a numeral. -/
def ofFlags (text : List Char) : Directive :=
  if '?' ∈ text then
    .debug (if 'x' ∈ text then .lowerHex else if 'X' ∈ text then .upperHex else .decimal)
      (Style.ofFlags text)
  else if 'x' ∈ text then .lowerHex (Style.ofFlags text)
  else .display

theorem exists_mem_table {text : String} {d : Directive} (h : ofText? text = some d) :
    ∃ e ∈ table, e.2 = d ∧ text.toList = '\x7b' :: e.1.toList ++ ['\x7d'] := by
  unfold ofText? at h
  obtain ⟨body, hbody, hlookup⟩ := Option.bind_eq_some_iff.mp h
  obtain ⟨before, behind, htable, -⟩ := List.lookup_eq_some_iff.mp hlookup
  refine ⟨(String.ofList body, d), ?_, rfl, ?_⟩
  · rw [htable]
    exact List.mem_append_right _ List.mem_cons_self
  · rw [String.toList_ofList]
    unfold body? at hbody
    split at hbody
    · rename_i cs htext
      split at hbody
      · rename_i hlast
        cases hbody
        rw [htext, List.cons_append, List.dropLast_append_getLast? _ hlast]
      · cases hbody
    · cases hbody

theorem ofFlags_of_mem_table :
    ∀ e ∈ table, ofFlags ('\x7b' :: e.1.toList ++ ['\x7d']) = e.2 := by
  decide

/-- **The table says what the characters of a directive say.** -/
theorem eq_ofFlags {text : String} {d : Directive} (h : ofText? text = some d) :
    d = ofFlags text.toList := by
  obtain ⟨e, he, rfl, htext⟩ := exists_mem_table h
  rw [htext, ofFlags_of_mem_table e he]

/-- The numbers in the text can be told apart and read back. Where there are several of them, a
comma ends the first. -/
def Legible : Directive → Prop
  | .display => True
  | .lowerHex s => s.Legible .lowerHex
  | .debug b s => s.Legible b ∧ s.fill ≠ ','

instance : DecidablePred Legible
  | .display => inferInstanceAs (Decidable True)
  | .lowerHex s => inferInstanceAs (Decidable (s.Legible .lowerHex))
  | .debug b s => inferInstanceAs (Decidable (s.Legible b ∧ s.fill ≠ ','))

theorem legible_of_mem_table : ∀ e ∈ table, e.2.Legible := by
  decide

theorem legible {text : String} {d : Directive} (h : ofText? text = some d) : d.Legible := by
  obtain ⟨e, he, rfl, -⟩ := exists_mem_table h
  exact legible_of_mem_table e he

end Directive

end NormalTower
