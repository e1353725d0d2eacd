import NormalTower.Element.Text
import NormalTower.Proofs.Text.Padding

/-!
# Texts tell values apart

An element has a numeral and an error has two, and each numeral is filled up on its own. So two
values have the same text only if they are the same, for every directive that is understood and
every width.

For an element this is `Style.numeral_injective`. In the text of an error the numerals follow one
another, and the first of them may have any length. It ends at the first comma, because there is no
comma in a numeral or its filling (`Layout.record_inj`); the plain message gives the value first,
with two digits whatever it is.

* `Element.lowerHex_text`: the numeral of an element, part by part.
* `OutOfRange.text_determines`: the text of an error determines the error.
-/

namespace NormalTower

/-! ## Elements -/

namespace Element

variable {l : Level}

theorem display_eq (x : Element l) :
    x.display = ['0', 'x', Base.lowerHex.digit (x.val.toNat / 16),
      Base.lowerHex.digit (x.val.toNat % 16)] := by
  have hx := x.val.toNat_lt
  have hdiv : x.val.toNat / 16 < Base.lowerHex.radix := Nat.div_lt_of_lt_mul hx
  have hmod : x.val.toNat % 16 < Base.lowerHex.radix := Nat.mod_lt _ (by decide)
  rw [display, byteText_eq, ← Base.letter_digitChar _ _ hdiv, ← Base.letter_digitChar _ _ hmod]
  rfl

theorem lowerHex_inj {style : Style} (hs : style.Legible .lowerHex) {x y : Element l}
    {width : Nat} : x.lowerHex style width = y.lowerHex style width ↔ x = y := by
  constructor
  · intro h
    exact Element.ext (UInt8.toNat_inj.mp (Style.numeral_injective hs h))
  · rintro rfl
    rfl

/-- **The numeral of an element.** The style is what the characters of the directive ask for. The
text is made of the sign, the mark of the base and the shortest digits, filled up to the width as
the style says; with zeros it does not depend on the fill character and the alignment. Different
elements have different texts. The plain text is always the mark and two digits. -/
theorem lowerHex_text {spec : String} {style : Style}
    (h : Directive.ofText? spec = some (.lowerHex style)) (x y : Element l) (width : Nat) :
    style = Style.ofFlags spec.toList ∧
    (∃ digits, Base.lowerHex.Spells digits x.val.toNat ∧
      style.Fills (if style.wide then width else 0)
        ((if style.plus then ['+'] else []) ++ if style.alternate then ['0', 'x'] else []) digits
        (x.format width (.lowerHex style)).toList) ∧
    (style.zeros = true → ∀ fill align,
      x.format width (.lowerHex { style with fill := fill, align := align }) =
        x.format width (.lowerHex style)) ∧
    (x.format width (.lowerHex style) = y.format width (.lowerHex style) ↔ x = y) ∧
    ∀ spec' d, Directive.ofText? spec' = some d → '?' ∉ spec'.toList → 'x' ∉ spec'.toList →
      ∀ width', x.format width' d = String.ofList ['0', 'x',
        Base.lowerHex.digit (x.val.toNat / 16), Base.lowerHex.digit (x.val.toNat % 16)] := by
  refine ⟨?_, ⟨_, Base.spells_digits _ _, ?_⟩, ?_, ?_, ?_⟩
  · have hflags := Directive.eq_ofFlags h
    unfold Directive.ofFlags at hflags
    split at hflags
    · cases hflags
    · split at hflags
      · cases hflags
        rfl
      · cases hflags
  · have hfills := style.fills_numeral width .lowerHex x.val.toNat
    rwa [← String.toList_ofList (l := style.numeral width .lowerHex x.val.toNat)] at hfills
  · intro hz fill align
    exact congrArg String.ofList (Style.numeral_with_eq hz fill align width .lowerHex x.val.toNat)
  · have hs : style.Legible .lowerHex := Directive.legible h
    exact String.ofList_inj.trans (lowerHex_inj hs)
  · intro spec' d hd hdebug hhex width'
    have hdisplay : d = .display := by
      rw [Directive.eq_ofFlags hd, Directive.ofFlags, if_neg hdebug, if_neg hhex]
    subst hdisplay
    exact congrArg String.ofList x.display_eq

/-- A small element in the middle of a wide field, behind zeros, and as plain text. -/
theorem lowerHex_text_of_ten :
    let x : Gf256 := ofMasked .gf256 0x0a
    let y : Gf256 := ofMasked .gf256 0xa0
    let stars : Style :=
      { wide := true, plus := true, alternate := true, align := .centre, fill := '*' }
    let zeros : Style := { wide := true, zeros := true, align := .left, fill := '-' }
    Directive.ofText? "\x7b:*^+#w$x\x7d" = some (.lowerHex stars) ∧
    Directive.ofText? "\x7b:-<0w$x\x7d" = some (.lowerHex zeros) ∧
    x.format 9 (.lowerHex stars) = "**+0xa***" ∧
    (∃ digits, Base.lowerHex.Spells digits 10 ∧
      stars.Fills 9 ['+', '0', 'x'] digits "**+0xa***".toList) ∧
    x.format 9 (.lowerHex stars) ≠ y.format 9 (.lowerHex stars) ∧
    x.format 4 (.lowerHex { zeros with fill := ' ', align := .right }) =
      x.format 4 (.lowerHex zeros) ∧
    x.format 9 .display = "0x0a" := by
  intro x y stars zeros
  have hstars : Directive.ofText? "\x7b:*^+#w$x\x7d" = some (.lowerHex stars) := by decide
  have hzeros : Directive.ofText? "\x7b:-<0w$x\x7d" = some (.lowerHex zeros) := by decide
  have htext : x.format 9 (.lowerHex stars) = "**+0xa***" := by decide
  obtain ⟨-, hfills, -, hinj, hdisplay⟩ := lowerHex_text hstars x y 9
  obtain ⟨-, -, hwith, -, -⟩ := lowerHex_text hzeros x y 4
  rw [htext] at hfills
  refine ⟨hstars, hzeros, htext, hfills, fun h => absurd (hinj.mp h) (by decide),
    hwith rfl ' ' .right, ?_⟩
  exact (hdisplay "\x7b:#0w$\x7d" .display (by decide) (by decide) (by decide) 9).trans (by decide)

end Element

/-! ## Errors -/

namespace Layout

/-- Only the text of the parts varies in a record, and a comma ends the first part. -/
theorem exists_record_pair_eq (spread : Bool) (name a b : String) :
    ∃ front middle back : List Char, ∀ p q, record spread name [(a, p), (b, q)] =
      front ++ (p ++ ',' :: (middle ++ (q ++ back))) := by
  cases spread with
  | true =>
    refine ⟨name.toList ++ (" \x7b\n    ".toList ++ (a.toList ++ ": ".toList)),
      "\n    ".toList ++ (b.toList ++ ": ".toList), ",\n\x7d".toList, fun p q => ?_⟩
    simp [record, spreadLines, labelled]
  | false =>
    refine ⟨name.toList ++ (" \x7b ".toList ++ (a.toList ++ ": ".toList)),
      " ".toList ++ (b.toList ++ ": ".toList), " \x7d".toList, fun p q => ?_⟩
    simp [record, labelled]

theorem append_comma_inj {p p' r r' : List Char} (hp : ',' ∉ p) (hp' : ',' ∉ p')
    (h : p ++ ',' :: r = p' ++ ',' :: r') : p = p' ∧ r = r' := by
  have hspan : ∀ {cs q s : List Char}, ',' ∉ q → cs = q ++ ',' :: s →
      cs.takeWhile (· ≠ ',') = q ∧ cs.dropWhile (· ≠ ',') = ',' :: s := by
    intro cs q s hq hcs
    refine span_eq_iff.mpr ⟨hcs, fun c hc => decide_eq_true ?_, fun c hc => ?_⟩
    · rintro rfl
      exact hq hc
    · cases hc
      rfl
  obtain ⟨htake, hdrop⟩ := hspan hp rfl
  obtain ⟨htake', hdrop'⟩ := hspan hp' h
  exact ⟨htake.symm.trans htake', List.tail_eq_of_cons_eq (hdrop.symm.trans hdrop')⟩

theorem record_inj {spread : Bool} {name a b : String} {p p' q q' : List Char} (hp : ',' ∉ p)
    (hp' : ',' ∉ p')
    (h : record spread name [(a, p), (b, q)] = record spread name [(a, p'), (b, q')]) :
    p = p' ∧ q = q' := by
  obtain ⟨front, middle, back, hrecord⟩ := exists_record_pair_eq spread name a b
  rw [hrecord, hrecord] at h
  obtain ⟨hpp, hrest⟩ := append_comma_inj hp hp' (List.append_cancel_left h)
  exact ⟨hpp, List.append_cancel_right (List.append_cancel_left hrest)⟩

end Layout

theorem byteText_injective {v v' : UInt8} (h : byteText v = byteText v') : v = v' :=
  UInt8.toNat_inj.mp (Style.numeral_injective (Or.inl rfl) h)

namespace OutOfRange

variable {e e' : OutOfRange}

theorem eq_of_toNat_eq (hbits : e.bits.toNat = e'.bits.toNat)
    (hvalue : e.value.toNat = e'.value.toNat) : e = e' := by
  cases e
  cases e'
  cases UInt32.toNat_inj.mp hbits
  cases UInt8.toNat_inj.mp hvalue
  rfl

theorem message_injective (h : e.message = e'.message) : e = e' := by
  have hparts :
      byteText e.value ++ (" does not fit in a ".toList ++ Base.decimal.digits e.bits.toNat) =
        byteText e'.value ++
          (" does not fit in a ".toList ++ Base.decimal.digits e'.bits.toNat) := by
    have h := List.append_cancel_right h
    simp only [List.append_assoc] at h
    exact List.append_cancel_left h
  have hlength : (byteText e.value).length = (byteText e'.value).length := by
    rw [byteText_eq, byteText_eq]
    rfl
  obtain ⟨hvalue, hrest⟩ := List.append_inj hparts hlength
  have hdigits := congrArg Base.decimal.value (List.append_cancel_left hrest)
  rw [Base.value_digits, Base.value_digits] at hdigits
  exact eq_of_toNat_eq hdigits (congrArg UInt8.toNat (byteText_injective hvalue))

theorem debug_injective {b : Base} {s : Style} (hs : s.Legible b) (hcomma : s.fill ≠ ',')
    {width : Nat} (h : e.debug b s width = e'.debug b s width) : e = e' := by
  have hnumeral : ∀ k, ',' ∉ s.numeral width b k := by
    intro k hk
    rcases List.mem_cons.mp (s.numeral_subset width b k hk) with hfill | hsymbol
    · exact hcomma hfill.symm
    · revert hsymbol
      cases b <;> decide
  obtain ⟨hbits, hvalue⟩ := Layout.record_inj (hnumeral _) (hnumeral _) h
  exact eq_of_toNat_eq (Style.numeral_injective hs hbits) (Style.numeral_injective hs hvalue)

/-- **The text of an error determines the error.** For every directive that an error has a text
for, and every width, there is a text, and two errors have the same text only if they have the same
width and the same value. -/
theorem text_determines {spec : String} {d : Directive} (h : Directive.ofText? spec = some d)
    (hd : ∀ style, d ≠ .lowerHex style) (width : Nat) (e e' : OutOfRange) :
    (∃ text, e.format? width d = some text) ∧
    (e.format? width d = e'.format? width d ↔ e = e') := by
  have hlegible := Directive.legible h
  cases d with
  | display =>
    refine ⟨⟨_, rfl⟩, fun htext => ?_, fun he => he ▸ rfl⟩
    exact message_injective (String.ofList_injective (Option.some.inj htext))
  | lowerHex style => exact absurd rfl (hd style)
  | debug base style =>
    refine ⟨⟨_, rfl⟩, fun htext => ?_, fun he => he ▸ rfl⟩
    exact debug_injective hlegible.1 hlegible.2 (String.ofList_injective (Option.some.inj htext))

/-- Two errors on several lines, with zeros before the digits of both numbers. -/
theorem text_determines_of_spread :
    let d : Directive := .debug .upperHex { wide := true, alternate := true, zeros := true }
    Directive.ofText? "\x7b:#0w$X?\x7d" = some d ∧ (∀ style, d ≠ .lowerHex style) ∧
    format? ⟨2, 0x1f⟩ 4 d = some "OutOfRange \x7b\n    bits: 0x02,\n    value: 0x1F,\n\x7d" ∧
    format? ⟨2, 0x1f⟩ 4 d ≠ format? ⟨0x1f, 2⟩ 4 d := by
  intro d
  have hd : Directive.ofText? "\x7b:#0w$X?\x7d" = some d := by decide
  have hne : ∀ style, d ≠ .lowerHex style := by simp [d]
  refine ⟨hd, hne, by decide, fun h => ?_⟩
  exact absurd ((text_determines hd hne 4 ⟨2, 0x1f⟩ ⟨0x1f, 2⟩).2.mp h) (by decide)

end OutOfRange

end NormalTower
