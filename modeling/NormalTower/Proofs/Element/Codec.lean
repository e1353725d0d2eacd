import NormalTower.Element.Codec
import NormalTower.Proofs.Json.Byte
import NormalTower.Proofs.Packed.Width

/-!
# Reading accepts what writing gives

An element is written as the decimal numeral of its byte, or as that byte itself. Reading accepts
exactly these forms, with blanks around a numeral and anything behind a byte. What else it reads as
a byte is out of range, and the error names the width and the value.

The range is checked before the rest of a text is looked at. So a text with a byte that is too wide
is out of range whatever follows, as long as it does not go on with the number.

* `ofJson_eq_ok_iff`, `ofJson_eq_outOfRange_iff`: the same for JSON text, by what `Json.readByte`
  reads.
* `decoding_inverts_encoding`: all together.
-/

namespace NormalTower.Element

variable {l : Level}

/-! ## The range of a byte -/

theorem ofByte_eq_error_iff {v : UInt8} {e : OutOfRange} :
    ofByte l v = .error e ↔ 2 ^ l.bits ≤ v.toNat ∧ e = ⟨UInt32.ofNat l.bits, v⟩ := by
  have hsize : 2 ^ l.bits = l.size := l.size_eq.symm
  rw [hsize]
  unfold ofByte
  by_cases h : v.toNat < l.size
  · rw [dif_pos h]
    constructor
    · intro h'
      cases h'
    · rintro ⟨hle, -⟩
      omega
  · rw [dif_neg h]
    constructor
    · intro h'
      cases h'
      exact ⟨Nat.not_lt.mp h, rfl⟩
    · rintro ⟨-, rfl⟩
      rfl

/-- The message of an element that does not fit. -/
theorem message_outOfRange (l : Level) (v : UInt8) :
    OutOfRange.message ⟨UInt32.ofNat l.bits, v⟩ =
      "value 0x".toList ++ [Nat.digitChar (v.toNat / 16), Nat.digitChar (v.toNat % 16)] ++
        " does not fit in a ".toList ++ Nat.toDigits 10 l.bits ++ "-bit field element".toList := by
  have hbits : (UInt32.ofNat l.bits).toNat = l.bits := by
    cases l <;> rfl
  unfold OutOfRange.message
  rw [byteText_eq, hbits]
  rfl

/-! ## JSON text -/

theorem toList_toJson (x : Element l) : x.toJson.toList = Base.decimal.digits x.val.toNat :=
  String.toList_ofList

theorem ofJson_eq_ok_iff {text : String} {x : Element l} :
    ofJson l text = .ok x ↔
      ∃ rest, Json.readByte text.toList = .ok (x.val, rest) ∧ ∀ c ∈ rest, Json.isBlank c := by
  unfold ofJson
  constructor
  · intro h
    obtain ⟨⟨b, rest⟩, hb, h⟩ := bind_eq_ok_iff.mp h
    obtain ⟨y, hy, h⟩ := bind_eq_ok_iff.mp h
    rw [mapError_eq_ok_iff] at hb hy
    split at h
    · rename_i hblank
      cases h
      rw [ofByte_eq_ok_iff.mp hy] at hb
      exact ⟨rest, hb, List.all_eq_true.mp hblank⟩
    · cases h
  · rintro ⟨rest, hb, hblank⟩
    refine bind_eq_ok_iff.mpr ⟨(x.val, rest), mapError_eq_ok_iff.mpr hb, ?_⟩
    refine bind_eq_ok_iff.mpr ⟨x, mapError_eq_ok_iff.mpr (ofByte_eq_ok_iff.mpr rfl), ?_⟩
    rw [if_pos (List.all_eq_true.mpr hblank)]

theorem ofJson_eq_outOfRange_iff {text : String} {e : OutOfRange} :
    ofJson l text = .error (.outOfRange e) ↔
      ∃ v rest, Json.readByte text.toList = .ok (v, rest) ∧ 2 ^ l.bits ≤ v.toNat ∧
        e = ⟨UInt32.ofNat l.bits, v⟩ := by
  unfold ofJson
  constructor
  · intro h
    rcases bind_eq_error_iff.mp h with h | ⟨⟨v, rest⟩, hv, h⟩
    · obtain ⟨_, -, h⟩ := mapError_eq_error_iff.mp h
      cases h
    rcases bind_eq_error_iff.mp h with h | ⟨x, -, h⟩
    · obtain ⟨e', he', h⟩ := mapError_eq_error_iff.mp h
      cases h
      exact ⟨v, rest, mapError_eq_ok_iff.mp hv, ofByte_eq_error_iff.mp he'⟩
    · split at h
      · cases h
      · cases h
  · rintro ⟨v, rest, hv, he⟩
    refine bind_eq_error_iff.mpr (Or.inr ⟨(v, rest), mapError_eq_ok_iff.mpr hv, ?_⟩)
    refine bind_eq_error_iff.mpr (Or.inl ?_)
    exact mapError_eq_error_iff.mpr ⟨e, ofByte_eq_error_iff.mpr he, rfl⟩

-- the range is checked before what follows
example : ofJson .gf16 "16 x" = .error (.outOfRange ⟨4, 16⟩) ∧
    ofJson .gf256 "16 x" = .error (.refused .malformed) := ⟨rfl, rfl⟩

/-! ## Bytes -/

theorem ofBytes_eq_ok_iff {bs : List UInt8} {x : Element l} :
    ofBytes l bs = .ok x ↔ ∃ b rest, x.toBytes = [b] ∧ bs = b :: rest := by
  cases bs with
  | nil =>
    constructor
    · intro h
      cases h
    · rintro ⟨b, rest, -, h⟩
      cases h
  | cons b bs =>
    show (ofByte l b).mapError _ = _ ↔ _
    rw [mapError_eq_ok_iff, ofByte_eq_ok_iff]
    constructor
    · rintro rfl
      exact ⟨x.val, bs, rfl, rfl⟩
    · rintro ⟨b', rest, hx, h⟩
      cases h
      cases hx
      rfl

theorem exists_ofBytes_eq_error_iff {bs : List UInt8} :
    (∃ e, ofBytes l bs = .error e) ↔ bs = [] ∨ ∃ b rest, bs = b :: rest ∧ 2 ^ l.bits ≤ b.toNat := by
  cases bs with
  | nil => exact iff_of_true ⟨.empty, rfl⟩ (Or.inl rfl)
  | cons b bs =>
    constructor
    · rintro ⟨e, he⟩
      obtain ⟨e', he', -⟩ := mapError_eq_error_iff.mp he
      exact Or.inr ⟨b, bs, rfl, (ofByte_eq_error_iff.mp he').1⟩
    · rintro (h | ⟨b', rest, h, hb⟩)
      · cases h
      · cases h
        exact ⟨_, mapError_eq_error_iff.mpr ⟨_, ofByte_eq_error_iff.mpr ⟨hb, rfl⟩, rfl⟩⟩

/-! ## Both forms -/

/-- **Reading accepts exactly what writing gives.** A JSON text stands for an element if and only if
it is the element's numeral between blanks, and there is no other numeral of its byte. A text is out
of range if and only if it has, behind blanks, the numeral of a byte that is too wide, and does not
go on with the number; the error then has the width and the byte, and says so in its message. A byte
string stands for the element of its first byte, and fails only if there is none or it is too
wide. -/
theorem decoding_inverts_encoding (l : Level) :
    (∀ (t : String) (x : Element l), ofJson l t = .ok x ↔
      ∃ w₁ w₂, Json.Blanks w₁ ∧ Json.Blanks w₂ ∧ t.toList = w₁ ++ x.toJson.toList ++ w₂) ∧
    (∀ (d : List Char) (x : Element l), IsNumeral d x.val.toNat ↔ d = x.toJson.toList) ∧
    (∀ (t : String) (e : OutOfRange), ofJson l t = .error (.outOfRange e) ↔
      ∃ v w₁ d rest, 2 ^ l.bits ≤ v ∧ v ≤ 255 ∧ e = ⟨UInt32.ofNat l.bits, UInt8.ofNat v⟩ ∧
        Json.Blanks w₁ ∧ IsNumeral d v ∧ Json.EndsNumber rest ∧ t.toList = w₁ ++ d ++ rest) ∧
    (∀ v : UInt8, OutOfRange.message ⟨UInt32.ofNat l.bits, v⟩ =
      "value 0x".toList ++ [Nat.digitChar (v.toNat / 16), Nat.digitChar (v.toNat % 16)] ++
        " does not fit in a ".toList ++ Nat.toDigits 10 l.bits ++ "-bit field element".toList) ∧
    (∀ (bs : List UInt8) (x : Element l),
      ofBytes l bs = .ok x ↔ ∃ b rest, x.toBytes = [b] ∧ bs = b :: rest) ∧
    ∀ bs : List UInt8, (∃ e, ofBytes l bs = .error e) ↔
      bs = [] ∨ ∃ b rest, bs = b :: rest ∧ 2 ^ l.bits ≤ b.toNat := by
  refine ⟨fun t x => ?_, fun d x => ?_, fun t e => ?_, message_outOfRange l,
    fun bs x => ofBytes_eq_ok_iff, fun bs => exists_ofBytes_eq_error_iff⟩
  · rw [ofJson_eq_ok_iff, toList_toJson]
    constructor
    · rintro ⟨w₂, hread, hw₂⟩
      obtain ⟨w₁, hw₁, ht, -⟩ := Json.readByte_eq_ok_iff.mp hread
      exact ⟨w₁, w₂, hw₁, Json.blanks_iff.mpr hw₂, ht⟩
    · rintro ⟨w₁, w₂, hw₁, hw₂, ht⟩
      exact ⟨w₂, Json.readByte_eq_ok_iff.mpr ⟨w₁, hw₁, ht, hw₂.endsNumber⟩,
        Json.blanks_iff.mp hw₂⟩
  · rw [toList_toJson]
    exact isNumeral_iff
  · rw [ofJson_eq_outOfRange_iff]
    constructor
    · rintro ⟨v, rest, hread, hv, rfl⟩
      obtain ⟨w₁, hw₁, ht, hends⟩ := Json.readByte_eq_ok_iff.mp hread
      have hlt := v.toNat_lt
      refine ⟨v.toNat, w₁, _, rest, hv, by omega, ?_, hw₁, isNumeral_digits v.toNat, hends, ht⟩
      rw [UInt8.ofNat_toNat]
    · rintro ⟨v, w₁, d, rest, hv, hle, rfl, hw₁, hd, hends, ht⟩
      have hval : (UInt8.ofNat v).toNat = v := UInt8.toNat_ofNat_of_lt' (Nat.lt_succ_of_le hle)
      rw [isNumeral_iff.mp hd, ← hval] at ht
      rw [← hval] at hv
      exact ⟨UInt8.ofNat v, rest, Json.readByte_eq_ok_iff.mpr ⟨w₁, hw₁, ht, hends⟩, hv, rfl⟩

end NormalTower.Element
