import NormalTower.Proofs.Packed.Stray
import NormalTower.Proofs.Sharing.Masked

/-!
# Which bits a masked operation depends on

The masked AND works on whole bytes, and on the field of 4 its operands are single bits: of every
random byte it draws, seven bits are garbage that travels through the sums and is cut off where the
coordinates are joined. So neither these bits nor the stray bits of the operands leave a trace.

The proof runs an operation twice, on tapes that agree on the bits of `m`, and relates the results
(`Draw.Related`). The relation goes through the steps of a computation (`Related.bind`,
`Related.foldlM`). The masked AND keeps bits apart, so it takes agreement on `m` to agreement on `m`
(`related_and`); taking operands apart and joining results turns agreement into equality
(`related_product`, `related_inverse`), and from there on it is equality level by level.

* `TowerOp.runAt_eq_of_agree`: the same shares for all operands that agree within the width and all
  tapes that agree in the lowest bit; and the shares fit the width.
-/

namespace NormalTower

/-! ## Bytes and tapes that agree on some bits -/

/-- `a` and `b` have the same bits at the places of `m`. -/
def AgreeOn (m a b : UInt8) : Prop := a &&& m = b &&& m

instance (m a b : UInt8) : Decidable (AgreeOn m a b) :=
  inferInstanceAs (Decidable (a &&& m = b &&& m))

namespace AgreeOn

variable {m a a' b b' : UInt8}

theorem of_eq (h : a = b) : AgreeOn m a b := congrArg (· &&& m) h

theorem xor (ha : AgreeOn m a a') (hb : AgreeOn m b b') : AgreeOn m (a ^^^ b) (a' ^^^ b') := by
  show (a ^^^ b) &&& m = (a' ^^^ b') &&& m
  rw [and_xor_left, and_xor_left, ha, hb]

theorem and (ha : AgreeOn m a a') (hb : AgreeOn m b b') : AgreeOn m (a &&& b) (a' &&& b') := by
  have hmask : ∀ c d : UInt8, c &&& d &&& m = (c &&& m) &&& (d &&& m) := by
    intro c d
    rw [UInt8.and_assoc, UInt8.and_assoc, UInt8.and_comm m (d &&& m), UInt8.and_assoc d,
      UInt8.and_self]
  show a &&& b &&& m = a' &&& b' &&& m
  rw [hmask, hmask, ha, hb]

/-- A map that looks at the bits of `m` only gives the same on bytes that agree there. -/
theorem map_eq {f : UInt8 → UInt8} (hf : ∀ c, f (c &&& m) = f c) (h : AgreeOn m a b) :
    f a = f b := by
  rw [← hf a, h, hf b]

end AgreeOn

/-- The bytes of two tapes have the same bits at the places of `m`, position by position. -/
def Tape.AgreeOn (m : UInt8) (t t' : Tape) : Prop := ∀ k, NormalTower.AgreeOn m (t k) (t' k)

/-! ## Running twice -/

namespace Draw

variable {α β γ δ : Type} {m : UInt8} {R : α → β → Prop} {S : γ → δ → Prop}

/-- On tapes that agree on the bits of `m`, the two computations stop at the same place, with
results in relation `R`. -/
def Related (m : UInt8) (R : α → β → Prop) (D : Draw α) (D' : Draw β) : Prop :=
  ∀ t t' : Tape, t.AgreeOn m t' → ∀ pos,
    R (D.runAt t pos).1 (D'.runAt t' pos).1 ∧ (D.runAt t pos).2 = (D'.runAt t' pos).2

namespace Related

protected theorem pure {a : α} {b : β} (h : R a b) : Related m R (pure a) (pure b) :=
  fun _ _ _ _ => ⟨h, rfl⟩

protected theorem byte : Related m (AgreeOn m) byte byte :=
  fun _ _ ht pos => ⟨ht pos, rfl⟩

theorem bind {D : Draw α} {D' : Draw β} {f : α → Draw γ} {f' : β → Draw δ}
    (hD : Related m R D D') (hf : ∀ a b, R a b → Related m S (f a) (f' b)) :
    Related m S (D >>= f) (D' >>= f') := by
  intro t t' ht pos
  obtain ⟨hR, hpos⟩ := hD t t' ht pos
  rw [runAt_bind, runAt_bind, ← hpos]
  exact hf _ _ hR t t' ht _

theorem mono {R' : α → β → Prop} {D : Draw α} {D' : Draw β} (hD : Related m R D D')
    (hR : ∀ a b, R a b → R' a b) : Related m R' D D' := by
  intro t t' ht pos
  obtain ⟨h, hpos⟩ := hD t t' ht pos
  exact ⟨hR _ _ h, hpos⟩

theorem foldlM {σ : Type} {g : α → σ → Draw α} {g' : β → σ → Draw β}
    (hg : ∀ s a b, R a b → Related m R (g a s) (g' b s)) (L : List σ) {a : α} {b : β}
    (h : R a b) : Related m R (L.foldlM g a) (L.foldlM g' b) := by
  induction L generalizing a b with
  | nil => exact .pure h
  | cons s L ih =>
    rw [List.foldlM_cons, List.foldlM_cons]
    exact (hg s a b h).bind fun _ _ h' => ih h'

theorem runAt_eq {D D' : Draw α} (h : Related m Eq D D') {t t' : Tape} (ht : t.AgreeOn m t')
    (pos : Nat) : D.runAt t pos = D'.runAt t' pos := by
  obtain ⟨hres, hpos⟩ := h t t' ht pos
  exact Prod.ext hres hpos

end Related

end Draw

namespace Sharing

variable {n : Nat} {m : UInt8} {x x' y y' : Sharing n}

/-! ## Sharings that agree on some bits -/

/-- The shares have the same bits at the places of `m`. -/
def AgreeOn (m : UInt8) (x x' : Sharing n) : Prop :=
  ∀ i : Fin n, NormalTower.AgreeOn m (x.get i) (x'.get i)

instance (m : UInt8) (x x' : Sharing n) : Decidable (x.AgreeOn m x') :=
  inferInstanceAs (Decidable (∀ i : Fin n, NormalTower.AgreeOn m (x.get i) (x'.get i)))

namespace AgreeOn

theorem of_eq (h : x = x') : AgreeOn m x x' := fun _ => .of_eq (by rw [h])

theorem xor (hx : AgreeOn m x x') (hy : AgreeOn m y y') : AgreeOn m (x ^^^ y) (x' ^^^ y') := by
  intro i
  rw [get_eq_getElem, get_eq_getElem, getElem_xor, getElem_xor]
  exact (hx i).xor (hy i)

theorem addAt (hx : AgreeOn m x x') (i : Fin n) {b b' : UInt8} (hb : NormalTower.AgreeOn m b b') :
    AgreeOn m (x.addAt i b) (x'.addAt i b') := by
  intro k
  rw [get_eq_getElem, get_eq_getElem, getElem_addAt, getElem_addAt]
  by_cases h : (i : Nat) = k
  · rw [if_pos h, if_pos h]
    exact (hx k).xor hb
  · rw [if_neg h, if_neg h]
    exact hx k

theorem map {f : UInt8 → UInt8}
    (hf : ∀ a b, NormalTower.AgreeOn m a b → NormalTower.AgreeOn m (f a) (f b))
    (hx : AgreeOn m x x') : AgreeOn m (x.map f) (x'.map f) := by
  intro i
  rw [get_eq_getElem, get_eq_getElem, getElem_map, getElem_map]
  exact hf _ _ (hx i)

theorem map_eq {f : UInt8 → UInt8} (hf : ∀ c, f (c &&& m) = f c) (hx : AgreeOn m x x') :
    x.map f = x'.map f := by
  refine Sharing.ext fun i hi => ?_
  rw [getElem_map, getElem_map]
  exact (hx ⟨i, hi⟩).map_eq hf

theorem split_eq {l : Level} (hx : AgreeOn l.mask x x') : x.split l = x'.split l :=
  congrArg₂ Halves.mk (hx.map_eq fun c => congrArg Halves.hi (Packed.split_and_mask l c))
    (hx.map_eq fun c => congrArg Halves.lo (Packed.split_and_mask l c))

theorem join_eq {l : Level} (hx : AgreeOn l.halfMask x x') (hy : AgreeOn l.halfMask y y') :
    join l x y = join l x' y' := by
  refine Sharing.ext fun i hi => ?_
  rw [getElem_join, getElem_join]
  exact Packed.join_congr (hx ⟨i, hi⟩) (hy ⟨i, hi⟩)

end AgreeOn

/-! ## The masked AND keeps bits apart -/

theorem AndStep.related_run (hx : AgreeOn m x x') (hy : AgreeOn m y y') (s : AndStep n)
    (acc acc' : Sharing n) (h : AgreeOn m acc acc') :
    Draw.Related m (AgreeOn m) (s.run x y acc) (s.run x' y' acc') := by
  cases s with
  | own i => exact .pure (h.addAt i ((hx i).and (hy i)))
  | cross i j =>
    refine Draw.Related.byte.bind fun r r' hr => .pure ?_
    exact (h.addAt i (((hx i).and (hy j)).xor hr)).addAt j (((hx j).and (hy i)).xor hr)

theorem related_and (hx : AgreeOn m x x') (hy : AgreeOn m y y') :
    Draw.Related m (AgreeOn m) (x.and y) (x'.and y') :=
  Draw.Related.foldlM (AndStep.related_run hx hy) (andSteps n) (.of_eq rfl)

/-! ## One quadratic step -/

section Step

variable {l : Level} {times : Sharing n → Sharing n → Draw (Sharing n)}

/-- The products of coordinates need to agree on the bits that the join keeps, and no more. -/
theorem related_product
    (ht : ∀ a b, Draw.Related m (AgreeOn l.halfMask) (times a b) (times a b))
    {scale : UInt8 → UInt8} (hs : ∀ a b, NormalTower.AgreeOn l.halfMask a b →
      NormalTower.AgreeOn l.halfMask (scale a) (scale b))
    (hx : AgreeOn l.mask x x') (hy : AgreeOn l.mask y y') :
    Draw.Related m Eq (product l times scale x y) (product l times scale x' y') := by
  unfold product
  rw [hx.split_eq, hy.split_eq]
  refine (ht _ _).bind fun c c' hc => (ht _ _).bind fun p p' hp => (ht _ _).bind fun q q' hq => ?_
  have he : AgreeOn l.halfMask (c.map scale) (c'.map scale) := hc.map hs
  exact .pure (AgreeOn.join_eq (hp.xor he) (hq.xor he))

theorem related_inverse
    (ht : ∀ a b, Draw.Related m (AgreeOn l.halfMask) (times a b) (times a b))
    {scaledSquare : UInt8 → UInt8} {invert : Sharing n → Draw (Sharing n)}
    (hi : ∀ c c', AgreeOn l.halfMask c c' → Draw.Related m Eq (invert c) (invert c'))
    (hx : AgreeOn l.mask x x') :
    Draw.Related m Eq (inverse l times scaledSquare invert x)
      (inverse l times scaledSquare invert x') := by
  unfold inverse
  rw [hx.split_eq]
  refine (ht _ _).bind fun d d' hd => (hi _ _ (.xor (.of_eq rfl) hd)).bind fun e e' he => ?_
  subst he
  exact (ht _ _).bind fun p p' hp => (ht _ _).bind fun q q' hq => .pure (hp.join_eq hq)

end Step

/-! ## The tower operations -/

theorem related_mul4 (hx : AgreeOn 0x3 x x') (hy : AgreeOn 0x3 y y') :
    Draw.Related 0x1 Eq (x.mul4 y) (x'.mul4 y') :=
  related_product (l := .gf4) (fun _ _ => related_and (.of_eq rfl) (.of_eq rfl))
    (fun _ _ h => h) hx hy

theorem related_mul4_self (x y : Sharing n) :
    Draw.Related 0x1 (AgreeOn 0x3) (x.mul4 y) (x.mul4 y) :=
  (related_mul4 (.of_eq rfl) (.of_eq rfl)).mono fun _ _ => .of_eq

theorem related_mul16 (hx : AgreeOn 0xf x x') (hy : AgreeOn 0xf y y') :
    Draw.Related 0x1 Eq (x.mul16 y) (x'.mul16 y') :=
  related_product (l := .gf16) related_mul4_self
    (fun _ _ h => .of_eq (h.map_eq Packed.scaleN_and_mask)) hx hy

theorem related_inv16 (hx : AgreeOn 0xf x x') : Draw.Related 0x1 Eq x.inv16 x'.inv16 :=
  related_inverse (l := .gf16) related_mul4_self
    (fun _ _ h => .pure (h.map_eq Packed.square4_and_mask)) hx

theorem related_inv256 (x : Sharing n) : Draw.Related 0x1 Eq x.inv256 x.inv256 :=
  related_inverse (l := .gf256)
    (fun _ _ => (related_mul16 (.of_eq rfl) (.of_eq rfl)).mono fun _ _ => .of_eq)
    (fun _ _ h => related_inv16 h) (.of_eq rfl)

namespace TowerOp

/-- One operation on operands that agree within the width of its field. -/
inductive Agree : TowerOp n → TowerOp n → Prop where
  | mul4 {x x' y y' : Sharing n} (hx : x.AgreeOn 0x3 x') (hy : y.AgreeOn 0x3 y') :
    Agree (.mul4 x y) (.mul4 x' y')
  | mul16 {x x' y y' : Sharing n} (hx : x.AgreeOn 0xf x') (hy : y.AgreeOn 0xf y') :
    Agree (.mul16 x y) (.mul16 x' y')
  | inv16 {x x' : Sharing n} (hx : x.AgreeOn 0xf x') : Agree (.inv16 x) (.inv16 x')
  | inv256 (x : Sharing n) : Agree (.inv256 x) (.inv256 x)

theorem Agree.related {op op' : TowerOp n} (h : op.Agree op') :
    Draw.Related 0x1 Eq op.run op'.run := by
  cases h with
  | mul4 hx hy => exact related_mul4 hx hy
  | mul16 hx hy => exact related_mul16 hx hy
  | inv16 hx => exact related_inv16 hx
  | inv256 x => exact related_inv256 x

theorem toNat_get_run_lt (op : TowerOp n) (t : Tape) (pos : Nat) (i : Fin n) :
    ((op.run.runAt t pos).1.get i).toNat < op.level.size := by
  rw [(op.masked.reads ()).runAt_eq, op.level.size_eq]
  exact op.masked.fits () _ i

/-- **Bits that do not count leave no trace.** Products and inverses of the tower give the same shares
on operands that agree within the width of the field and on tapes that agree in the lowest bit of
every byte, and the shares fit the width. So does the scaled square of the field of 16, which reads
no tape. -/
theorem runAt_eq_of_agree :
    (∀ {op op' : TowerOp n} {t t' : Tape}, op.Agree op' → t.AgreeOn 0x1 t' → ∀ pos,
      op.run.runAt t pos = op'.run.runAt t' pos) ∧
    (∀ {x x' : Sharing n}, x.AgreeOn 0xf x' → x.scaledSquare16 = x'.scaledSquare16) ∧
    (∀ (op : TowerOp n) (t : Tape) (pos : Nat) (i : Fin n),
      ((op.run.runAt t pos).1.get i).toNat < op.level.size) ∧
    ∀ (x : Sharing n) (i : Fin n), (x.scaledSquare16.get i).toNat < Level.size .gf16 := by
  refine ⟨fun h ht pos => h.related.runAt_eq ht pos,
    fun h => h.map_eq Packed.scaledSquare16_and_mask, toNat_get_run_lt, fun x i => ?_⟩
  rw [get_eq_getElem, scaledSquare16, getElem_map]
  exact Packed.toNat_join_lt .gf16 _ _

/-- The masked inverse in the field of 16, with stray bits set in the shares and on the tape. -/
theorem runAt_inv16_of_dirty_shares :
    (⟨#v[0xa5, 0x3c]⟩ : Sharing 2).AgreeOn 0xf ⟨#v[0x05, 0xfc]⟩ ∧
    Tape.AgreeOn 0x1 (fun k => if k = 2 then 0xff else 0x10) (fun k => if k = 2 then 1 else 0) ∧
    (Sharing.inv16 (⟨#v[0xa5, 0x3c]⟩ : Sharing 2)).runAt (fun k => if k = 2 then 0xff else 0x10) 0 =
      (Sharing.inv16 (⟨#v[0x05, 0xfc]⟩ : Sharing 2)).runAt (fun k => if k = 2 then 1 else 0) 0 := by
  have hx : (⟨#v[0xa5, 0x3c]⟩ : Sharing 2).AgreeOn 0xf ⟨#v[0x05, 0xfc]⟩ := by decide
  have ht : Tape.AgreeOn 0x1 (fun k => if k = 2 then 0xff else 0x10)
      (fun k => if k = 2 then 1 else 0) := by
    intro k
    by_cases h : k = 2
    · simp only [if_pos h]
      decide
    · simp only [if_neg h]
      decide
  exact ⟨hx, ht, runAt_eq_of_agree.1 (.inv16 hx) ht 0⟩

end TowerOp

end Sharing

end NormalTower
