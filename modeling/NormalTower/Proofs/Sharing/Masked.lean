import NormalTower.Sharing.Arith
import NormalTower.Proofs.Packed.Width
import NormalTower.Proofs.Sharing.And

/-!
# Masked operations

`Masked w d op value` collects what is to be known about a masked operation `op`: on every operand
`a` it reads `d` bytes of the tape, gives a sharing of `value a` with shares of `w` bits, and can be
moved, by one change of the tape for all operands, to every such sharing of the same secret.

The masked AND is such an operation, and a quadratic step takes the products of one level to those
of the next (`Masked.product`, `Masked.inverse`). So the tower operations are all of this kind:

* `masked_mul4`, `masked_mul16`, `masked_inv16`, `masked_inv256`; `TowerOp.masked` for all at once.
-/

namespace NormalTower.Sharing

variable {n w d d' : Nat} {ι : Type}

/-! ## Sharings of a width -/

/-- Every share is a `w`-bit number. -/
def Fits (x : Sharing n) (w : Nat) : Prop := ∀ i : Fin n, (x.get i).toNat < 2 ^ w

instance (x : Sharing n) (w : Nat) : Decidable (x.Fits w) :=
  inferInstanceAs (Decidable (∀ i : Fin n, (x.get i).toNat < 2 ^ w))

theorem fits_eight (x : Sharing n) : x.Fits 8 := fun i => (x.get i).toNat_lt

theorem Fits.mono {x : Sharing n} (h : x.Fits w) {w' : Nat} (hw : w ≤ w') : x.Fits w' :=
  fun i => Nat.lt_of_lt_of_le (h i) (Nat.pow_le_pow_right Nat.two_pos hw)

theorem fits_join (l : Level) (hi lo : Sharing n) : (join l hi lo).Fits l.bits := fun i => by
  rw [get_eq_getElem, getElem_join]
  exact (Packed.toNat_join_lt l _ _).trans_eq l.size_eq

theorem fits_split_hi (l : Level) (x : Sharing n) : (x.split l).hi.Fits (l.bits / 2) := fun i => by
  rw [get_eq_getElem, getElem_split_hi]
  exact (Packed.toNat_split_hi_lt l _).trans_eq l.halfSize_eq

theorem fits_split_lo (l : Level) (x : Sharing n) : (x.split l).lo.Fits (l.bits / 2) := fun i => by
  rw [get_eq_getElem, getElem_split_lo]
  exact (Packed.toNat_split_lo_lt l _).trans_eq l.halfSize_eq

theorem join_split {l : Level} {x : Sharing n} (h : x.Fits l.bits) :
    join l (x.split l).hi (x.split l).lo = x := by
  refine Sharing.ext fun i hi => ?_
  rw [getElem_join, getElem_split_hi, getElem_split_lo]
  exact Packed.join_split_of_lt ((h ⟨i, hi⟩).trans_eq l.size_eq.symm)

theorem join_xor (l : Level) (a a' b b' : Sharing n) :
    join l (a ^^^ a') (b ^^^ b') = join l a b ^^^ join l a' b' := by
  refine Sharing.ext fun i hi => ?_
  simp only [getElem_join, getElem_xor, Packed.join_linear l _ _ _ _]

theorem xor_right_comm (a b c : Sharing n) : (a ^^^ b) ^^^ c = (a ^^^ c) ^^^ b := by
  refine Sharing.ext fun i hi => ?_
  simp only [getElem_xor]
  rw [UInt8.xor_assoc, UInt8.xor_comm b[i], ← UInt8.xor_assoc]

/-! ## Masked operations -/

/-- `op` is a masked computation of `value` on `w` bits that draws `d` bytes. -/
structure Masked (w d : Nat) (op : ι → Draw (Sharing n)) (value : ι → UInt8) : Prop where
  reads : ∀ a, (op a).Reads d
  recombine : ∀ a t, ((op a).out t).recombine = value a
  fits : ∀ a t, ((op a).out t).Fits w
  shift : ∀ δ : Sharing n, δ.Fits w → δ.recombine = 0 →
    ∃ s : Tape, ∀ a t, (op a).out (t ^^^ s) = (op a).out t ^^^ δ

theorem Masked.recombine_runAt {op : ι → Draw (Sharing n)} {value : ι → UInt8}
    (h : Masked w d op value) (a : ι) (t : Tape) (pos : Nat) :
    ((op a).runAt t pos).1.recombine = value a := by
  rw [(h.reads a).runAt_eq]
  exact h.recombine a _

theorem Masked.comp {κ : Type} {op : ι → Draw (Sharing n)} {value : ι → UInt8}
    (h : Masked w d op value) (g : κ → ι) :
    Masked w d (fun k => op (g k)) fun k => value (g k) where
  reads k := h.reads (g k)
  recombine k := h.recombine (g k)
  fits k := h.fits (g k)
  shift δ hδ h0 := by
    obtain ⟨s, hs⟩ := h.shift δ hδ h0
    exact ⟨s, fun k => hs (g k)⟩

theorem masked_and : Masked 8 (n * (n - 1) / 2) (fun p : Sharing n × Sharing n => p.1.and p.2)
    (fun p => p.1.recombine &&& p.2.recombine) where
  reads p := reads_and p.1 p.2
  recombine p t := recombine_out_and p.1 p.2 t
  fits p t := fits_eight _
  shift δ _ h0 := by
    obtain ⟨s, hs⟩ := out_and_shift δ h0
    exact ⟨s, fun p t => hs p.1 p.2 t⟩

section Step

variable {l : Level} {times : Sharing n → Sharing n → Draw (Sharing n)}
  {mul : UInt8 → UInt8 → UInt8}

theorem reads_product (ht : ∀ x y, (times x y).Reads d) (scale : UInt8 → UInt8)
    (x y : Sharing n) : (product l times scale x y).Reads (3 * d) :=
  ((ht _ _).bind fun _ => (ht _ _).bind fun _ => (ht _ _).bind fun _ => .pure _).cast (by omega)

/-- The three products of a masked product read three windows in turn. -/
theorem out_product (ht : ∀ x y, (times x y).Reads d) (scale : UInt8 → UInt8) (x y : Sharing n)
    (t : Tape) :
    (product l times scale x y).out t =
      let e := ((times ((x.split l).hi ^^^ (x.split l).lo)
        ((y.split l).hi ^^^ (y.split l).lo)).out t).map scale
      join l ((times (x.split l).hi (y.split l).hi).out (t.drop d) ^^^ e)
        ((times (x.split l).lo (y.split l).lo).out ((t.drop d).drop d) ^^^ e) := by
  unfold product
  rw [(ht _ _).out_bind fun _ => (ht _ _).bind fun _ => (ht _ _).bind fun _ => .pure _,
    (ht _ _).out_bind fun _ => (ht _ _).bind fun _ => .pure _,
    (ht _ _).out_bind fun _ => .pure _]
  rfl

theorem Masked.product
    (ht : Masked w d (fun p : Sharing n × Sharing n => times p.1 p.2)
      fun p => mul p.1.recombine p.2.recombine)
    (hw : l.bits / 2 ≤ w) {scale : UInt8 → UInt8} (hs : XorLinear scale) :
    Masked l.bits (3 * d) (fun p : Sharing n × Sharing n => product l times scale p.1 p.2)
      fun p => Packed.product l mul scale p.1.recombine p.2.recombine where
  reads p := reads_product (fun x y => ht.reads (x, y)) scale p.1 p.2
  recombine p t := by
    have hm : ∀ x y t, ((times x y).out t).recombine = mul x.recombine y.recombine :=
      fun x y t => ht.recombine (x, y) t
    rw [out_product fun x y => ht.reads (x, y)]
    simp only [recombine_join, recombine_xor, recombine_map hs, hm, recombine_split_hi,
      recombine_split_lo]
    rfl
  fits p t := by
    rw [out_product fun x y => ht.reads (x, y)]
    exact fits_join l _ _
  shift δ hδ h0 := by
    -- the first window keeps its bytes, the other two move one coordinate each
    obtain ⟨s, hs⟩ := ht.shift (δ.split l).hi ((fits_split_hi l δ).mono hw)
      (by rw [recombine_split_hi, h0, (Packed.split_hi_linear l).map_zero])
    obtain ⟨s', hs'⟩ := ht.shift (δ.split l).lo ((fits_split_lo l δ).mono hw)
      (by rw [recombine_split_lo, h0, (Packed.split_lo_linear l).map_zero])
    refine ⟨Tape.append d (fun _ => 0) (Tape.append d s s'), fun p t => ?_⟩
    rw [out_product fun x y => ht.reads (x, y), out_product fun x y => ht.reads (x, y)]
    have hc := (ht.reads ((p.1.split l).hi ^^^ (p.1.split l).lo,
      (p.2.split l).hi ^^^ (p.2.split l).lo)).out_xor_append_zero t (Tape.append d s s')
    have hp := (ht.reads ((p.1.split l).hi, (p.2.split l).hi)).out_xor_append (t.drop d) s s'
    have hq := hs' ((p.1.split l).lo, (p.2.split l).lo) ((t.drop d).drop d)
    rw [hs] at hp
    simp only [Tape.drop_xor, Tape.drop_append] at hc hp hq ⊢
    rw [hc, hp, hq, xor_right_comm _ (δ.split l).hi, xor_right_comm _ (δ.split l).lo, join_xor,
      join_split hδ]

theorem reads_inverse (ht : ∀ x y, (times x y).Reads d) {invert : Sharing n → Draw (Sharing n)}
    (hi : ∀ x, (invert x).Reads d') (scaledSquare : UInt8 → UInt8) (x : Sharing n) :
    (inverse l times scaledSquare invert x).Reads (3 * d + d') :=
  ((ht _ _).bind fun _ => (hi _).bind fun _ => (ht _ _).bind fun _ => (ht _ _).bind fun _ =>
    .pure _).cast (by omega)

/-- The products of a masked inverse read their windows before and behind the inverse below. -/
theorem out_inverse (ht : ∀ x y, (times x y).Reads d) {invert : Sharing n → Draw (Sharing n)}
    (hi : ∀ x, (invert x).Reads d') (scaledSquare : UInt8 → UInt8) (x : Sharing n) (t : Tape) :
    (inverse l times scaledSquare invert x).out t =
      let c := ((x.split l).hi ^^^ (x.split l).lo).map scaledSquare ^^^
        (times (x.split l).hi (x.split l).lo).out t
      let e := (invert c).out (t.drop d)
      join l ((times e (x.split l).lo).out ((t.drop d).drop d'))
        ((times e (x.split l).hi).out (((t.drop d).drop d').drop d)) := by
  unfold inverse
  rw [(ht _ _).out_bind fun _ => (hi _).bind fun _ => (ht _ _).bind fun _ =>
      (ht _ _).bind fun _ => .pure _,
    (hi _).out_bind fun _ => (ht _ _).bind fun _ => (ht _ _).bind fun _ => .pure _,
    (ht _ _).out_bind fun _ => (ht _ _).bind fun _ => .pure _,
    (ht _ _).out_bind fun _ => .pure _]
  rfl

theorem Masked.inverse
    (ht : Masked w d (fun p : Sharing n × Sharing n => times p.1 p.2)
      fun p => mul p.1.recombine p.2.recombine)
    (hw : l.bits / 2 ≤ w) {scaledSquare : UInt8 → UInt8} (hs : XorLinear scaledSquare)
    (invert : Sharing n → Draw (Sharing n)) {inv : UInt8 → UInt8}
    (hi : ∀ x, (invert x).Reads d')
    (hv : ∀ x t, ((invert x).out t).recombine = inv x.recombine) :
    Masked l.bits (3 * d + d') (inverse l times scaledSquare invert)
      fun x : Sharing n => Packed.inverse l mul scaledSquare inv x.recombine where
  reads x := reads_inverse (fun x y => ht.reads (x, y)) hi scaledSquare x
  recombine x t := by
    have hm : ∀ x y t, ((times x y).out t).recombine = mul x.recombine y.recombine :=
      fun x y t => ht.recombine (x, y) t
    rw [out_inverse (fun x y => ht.reads (x, y)) hi]
    simp only [recombine_join, recombine_xor, recombine_map hs, hm, hv, recombine_split_hi,
      recombine_split_lo]
    rfl
  fits x t := by
    rw [out_inverse (fun x y => ht.reads (x, y)) hi]
    exact fits_join l _ _
  shift δ hδ h0 := by
    -- the operand of the last two products depends on the tape, but not on their two windows
    obtain ⟨s, hs⟩ := ht.shift (δ.split l).hi ((fits_split_hi l δ).mono hw)
      (by rw [recombine_split_hi, h0, (Packed.split_hi_linear l).map_zero])
    obtain ⟨s', hs'⟩ := ht.shift (δ.split l).lo ((fits_split_lo l δ).mono hw)
      (by rw [recombine_split_lo, h0, (Packed.split_lo_linear l).map_zero])
    refine ⟨Tape.append d (fun _ => 0) (Tape.append d' (fun _ => 0) (Tape.append d s s')),
      fun x t => ?_⟩
    rw [out_inverse (fun x y => ht.reads (x, y)) hi, out_inverse (fun x y => ht.reads (x, y)) hi]
    have hc := (ht.reads ((x.split l).hi, (x.split l).lo)).out_xor_append_zero t
      (Tape.append d' (fun _ => 0) (Tape.append d s s'))
    simp only [Tape.drop_xor, Tape.drop_append] at hc ⊢
    rw [hc, (hi _).out_xor_append_zero]
    generalize (invert _).out (t.drop d) = e
    have hp := (ht.reads (e, (x.split l).lo)).out_xor_append ((t.drop d).drop d') s s'
    have hq := hs' (e, (x.split l).hi) (((t.drop d).drop d').drop d)
    rw [hs] at hp
    simp only at hp hq
    rw [hp, hq, join_xor, join_split hδ]

end Step

/-! ## The tower operations -/

theorem masked_mul4 : Masked 2 (3 * (n * (n - 1) / 2))
    (fun p : Sharing n × Sharing n => p.1.mul4 p.2)
    fun p => Packed.mul4 p.1.recombine p.2.recombine :=
  masked_and.product (l := .gf4) (by decide) XorLinear.id

theorem masked_mul16 : Masked 4 (9 * (n * (n - 1) / 2))
    (fun p : Sharing n × Sharing n => p.1.mul16 p.2)
    fun p => Packed.mul16 p.1.recombine p.2.recombine := by
  have h := (masked_mul4 (n := n)).product (l := .gf16) (by decide) Packed.scaleN_linear
  rwa [← Nat.mul_assoc] at h

theorem recombine_scaledSquare16 (x : Sharing n) :
    x.scaledSquare16.recombine = Packed.scaledSquare16 x.recombine :=
  recombine_map Packed.scaledSquare16_linear x

theorem masked_inv16 : Masked 4 (9 * (n * (n - 1) / 2)) (inv16 (n := n))
    fun x => Packed.inv16 x.recombine := by
  have h := (masked_mul4 (n := n)).inverse (l := .gf16) (by decide)
    (Packed.scaleN_linear.comp Packed.square4_linear)
    (fun t => pure (t.map Packed.square4)) (fun _ => Draw.Reads.pure _)
    (fun x _ => recombine_map Packed.square4_linear x)
  rwa [← Nat.mul_assoc] at h

theorem masked_inv256 : Masked 8 (36 * (n * (n - 1) / 2)) (inv256 (n := n))
    fun x => Packed.inv256 x.recombine := by
  have h := (masked_mul16 (n := n)).inverse (l := .gf256) (by decide)
    Packed.scaledSquare16_linear inv16 masked_inv16.reads masked_inv16.recombine
  rwa [← Nat.mul_assoc, ← Nat.add_mul] at h

/-! ## The operations as data -/

/-- A masked operation of the tower with its operands. -/
inductive TowerOp (n : Nat) where
  | mul4 (x y : Sharing n)
  | mul16 (x y : Sharing n)
  | inv16 (x : Sharing n)
  | inv256 (x : Sharing n)

namespace TowerOp

/-- The masked computation. -/
def run : TowerOp n → Draw (Sharing n)
  | .mul4 x y => x.mul4 y
  | .mul16 x y => x.mul16 y
  | .inv16 x => x.inv16
  | .inv256 x => x.inv256

/-- The field it computes in. -/
def level : TowerOp n → Level
  | .mul4 _ _ => .gf4
  | .mul16 _ _ => .gf16
  | .inv16 _ => .gf16
  | .inv256 _ => .gf256

/-- The number of bytes it draws. -/
def draws : TowerOp n → Nat
  | .mul4 _ _ => 3 * (n * (n - 1) / 2)
  | .mul16 _ _ => 9 * (n * (n - 1) / 2)
  | .inv16 _ => 9 * (n * (n - 1) / 2)
  | .inv256 _ => 36 * (n * (n - 1) / 2)

/-- The result on the secrets of the operands. -/
def result : TowerOp n → UInt8
  | .mul4 x y => Packed.mul4 x.recombine y.recombine
  | .mul16 x y => Packed.mul16 x.recombine y.recombine
  | .inv16 x => Packed.inv16 x.recombine
  | .inv256 x => Packed.inv256 x.recombine

theorem masked (op : TowerOp n) :
    Masked op.level.bits op.draws (fun _ : Unit => op.run) fun _ => op.result := by
  cases op with
  | mul4 x y => exact masked_mul4.comp fun _ => (x, y)
  | mul16 x y => exact masked_mul16.comp fun _ => (x, y)
  | inv16 x => exact masked_inv16.comp fun _ => x
  | inv256 x => exact masked_inv256.comp fun _ => x

end TowerOp

end NormalTower.Sharing
