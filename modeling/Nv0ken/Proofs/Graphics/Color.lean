/-
Blending, channel by channel.

A pixel is four channels of eight bits.  What `color_blend` makes of a pixel below depends,
in each channel, on the same channel of that pixel, and grows with it.  So in the order in
which a pixel is below another when it is so in each channel, blending is monotone, and
what a row of blends makes of any pixel lies between what it makes of the least and of the
greatest one.
-/
import Nv0ken.Graphics.Draw.Color

namespace Nv0ken.Graphics

variable {c d p : Pixel} {k : Nat}

/-- The byte `k` of a pixel, 3 being its opacity. -/
def channel (k : Nat) (c : Pixel) : Nat := c.toNat / 2 ^ (8 * k) % 256

theorem channel_lt (k : Nat) (c : Pixel) : channel k c < 256 := Nat.mod_lt _ (by decide)

theorem colorA_toNat (c : Pixel) : (colorA c).toNat = channel 3 c := by
  unfold colorA channel
  simp [Nat.shiftRight_eq_div_pow, Nat.and_two_pow_sub_one_eq_mod _ 8]

theorem colorR_toNat (c : Pixel) : (colorR c).toNat = channel 2 c := by
  unfold colorR channel
  simp [Nat.shiftRight_eq_div_pow, Nat.and_two_pow_sub_one_eq_mod _ 8]

theorem colorG_toNat (c : Pixel) : (colorG c).toNat = channel 1 c := by
  unfold colorG channel
  simp [Nat.shiftRight_eq_div_pow, Nat.and_two_pow_sub_one_eq_mod _ 8]

theorem colorB_toNat (c : Pixel) : (colorB c).toNat = channel 0 c := by
  unfold colorB channel
  simp [Nat.and_two_pow_sub_one_eq_mod _ 8]

theorem colorARGB_toNat (a r g b : UInt8) :
    (colorARGB a r g b).toNat =
      a.toNat * 2 ^ 24 + r.toNat * 2 ^ 16 + g.toNat * 2 ^ 8 + b.toNat := by
  have ha := a.toNat_lt
  have hr := r.toNat_lt
  have hg := g.toNat_lt
  have hb := b.toNat_lt
  unfold colorARGB
  simp only [UInt32.toNat_or, UInt32.toNat_shiftLeft, UInt8.toNat_toUInt32]
  -- the bytes do not overlap, so joining them is adding them
  have hgb : (g.toNat <<< 8) ||| b.toNat = g.toNat * 2 ^ 8 + b.toNat := by
    rw [← Nat.shiftLeft_add_eq_or_of_lt (by omega), Nat.shiftLeft_eq]
  have hrgb : (r.toNat <<< 16) ||| (g.toNat * 2 ^ 8 + b.toNat) =
      r.toNat * 2 ^ 16 + (g.toNat * 2 ^ 8 + b.toNat) := by
    rw [← Nat.shiftLeft_add_eq_or_of_lt (by omega), Nat.shiftLeft_eq]
  have hargb : (a.toNat <<< 24) ||| (r.toNat * 2 ^ 16 + (g.toNat * 2 ^ 8 + b.toNat)) =
      a.toNat * 2 ^ 24 + (r.toNat * 2 ^ 16 + (g.toNat * 2 ^ 8 + b.toNat)) := by
    rw [← Nat.shiftLeft_add_eq_or_of_lt (by omega), Nat.shiftLeft_eq]
  have hshift (n k : Nat) (hn : n * 2 ^ k < 2 ^ 32) : n <<< k % 2 ^ 32 = n <<< k := by
    rw [Nat.mod_eq_of_lt]
    rwa [Nat.shiftLeft_eq]
  have hk : (24 : UInt32).toNat % 32 = 24 ∧ (16 : UInt32).toNat % 32 = 16 ∧
      (8 : UInt32).toNat % 32 = 8 := by decide
  rw [hk.1, hk.2.1, hk.2.2, hshift _ 24 (by omega), hshift _ 16 (by omega), hshift _ 8 (by omega),
    Nat.or_assoc, Nat.or_assoc, hgb, hrgb, hargb]
  omega

theorem channel_colorARGB (a r g b : UInt8) :
    channel 3 (colorARGB a r g b) = a.toNat ∧ channel 2 (colorARGB a r g b) = r.toNat ∧
      channel 1 (colorARGB a r g b) = g.toNat ∧ channel 0 (colorARGB a r g b) = b.toNat := by
  have ha := a.toNat_lt
  have hr := r.toNat_lt
  have hg := g.toNat_lt
  have hb := b.toNat_lt
  unfold channel
  rw [colorARGB_toNat]
  omega

/-- A pixel is its four channels. -/
theorem pixel_ext (h : ∀ k < 4, channel k c = channel k d) : c = d := by
  have h0 := h 0 (by decide)
  have h1 := h 1 (by decide)
  have h2 := h 2 (by decide)
  have h3 := h 3 (by decide)
  have hc := c.toNat_lt
  have hd := d.toNat_lt
  unfold channel at h0 h1 h2 h3
  apply UInt32.toNat_inj.mp
  omega

/-! ### The order of pixels -/

/-- Below in each channel. -/
def Below (c d : Pixel) : Prop := ∀ k < 4, channel k c ≤ channel k d

theorem Below.antisymm (h : Below c d) (h' : Below d c) : c = d :=
  pixel_ext fun k hk => le_antisymm (h k hk) (h' k hk)

theorem below_refl (c : Pixel) : Below c c := fun _ _ => le_refl _

theorem zero_below (c : Pixel) : Below 0 c := by
  intro k _
  simp [channel]

theorem below_white (c : Pixel) : Below c 0xFFFFFFFF := by
  intro k hk
  have hwhite : channel k 0xFFFFFFFF = 255 := by
    revert k
    decide
  rw [hwhite]
  exact Nat.le_of_lt_succ (channel_lt k c)

/-! ### Blending -/

theorem sub_toNat {s : UInt32} (hs : s.toNat ≤ 255) : (255 - s).toNat = 255 - s.toNat := by
  rw [UInt32.toNat_sub_of_le]
  · rfl
  · exact UInt32.le_iff_toNat_le.mpr hs

/-- One of the colours of a blend. -/
theorem mix_toNat {s d sa : UInt32} (hs : s.toNat ≤ 255) (hd : d.toNat ≤ 255)
    (hsa : sa.toNat ≤ 255) :
    ((s * sa + d * (255 - sa)) / 255).toUInt8.toNat =
      (s.toNat * sa.toNat + d.toNat * (255 - sa.toNat)) / 255 := by
  -- the weights add up to 255, so the quotient is a byte again
  have hsum : s.toNat * sa.toNat + d.toNat * (255 - sa.toNat) ≤ 255 * 255 := by
    calc s.toNat * sa.toNat + d.toNat * (255 - sa.toNat)
        ≤ 255 * sa.toNat + 255 * (255 - sa.toNat) :=
          Nat.add_le_add (Nat.mul_le_mul_right _ hs) (Nat.mul_le_mul_right _ hd)
      _ = 255 * 255 := by rw [← Nat.mul_add, Nat.add_sub_cancel' hsa]
  rw [UInt32.toNat_toUInt8, UInt32.toNat_div, UInt32.toNat_add, UInt32.toNat_mul, UInt32.toNat_mul,
    sub_toNat hsa, Nat.mod_eq_of_lt (a := s.toNat * sa.toNat) (by omega),
    Nat.mod_eq_of_lt (a := d.toNat * (255 - sa.toNat)) (by omega)]
  have h255 : (255 : UInt32).toNat = 255 := rfl
  rw [h255, Nat.mod_eq_of_lt (a := s.toNat * sa.toNat + _) (by omega)]
  exact Nat.mod_eq_of_lt (by omega)

/-- The opacity of a blend. -/
theorem mix_alpha_toNat {d sa : UInt32} (hd : d.toNat ≤ 255) (hsa : sa.toNat ≤ 255) :
    (sa + d * (255 - sa) / 255).toUInt8.toNat = sa.toNat + d.toNat * (255 - sa.toNat) / 255 := by
  have hdiv : d.toNat * (255 - sa.toNat) / 255 ≤ 255 - sa.toNat :=
    Nat.div_le_of_le_mul (Nat.mul_le_mul_right _ hd)
  rw [UInt32.toNat_toUInt8, UInt32.toNat_add, UInt32.toNat_div, UInt32.toNat_mul, sub_toNat hsa,
    Nat.mod_eq_of_lt (a := d.toNat * (255 - sa.toNat)) (by omega)]
  have h255 : (255 : UInt32).toNat = 255 := rfl
  rw [h255, Nat.mod_eq_of_lt (a := sa.toNat + _) (by omega)]
  exact Nat.mod_eq_of_lt (by omega)

/-- The channels of a blend. -/
theorem channel_blend (hk : k < 4) (h0 : channel 3 p ≠ 0) (h255 : channel 3 p ≠ 255) :
    channel k (colorBlend d p) =
      if k = 3 then channel 3 p + channel 3 d * (255 - channel 3 p) / 255
      else (channel k p * channel 3 p + channel k d * (255 - channel 3 p)) / 255 := by
  have hle (k : Nat) (c : Pixel) : channel k c ≤ 255 := Nat.le_of_lt_succ (channel_lt k c)
  have hne0 : colorA p ≠ 0 := fun h => h0 (by rw [← colorA_toNat, h]; rfl)
  have hne255 : colorA p ≠ 255 := fun h => h255 (by rw [← colorA_toNat, h]; rfl)
  have hmix (c c' : UInt32) (hc : c.toNat ≤ 255) (hc' : c'.toNat ≤ 255) :=
    mix_toNat hc hc' ((colorA_toNat p).trans_le (hle 3 p))
  have halpha := mix_alpha_toNat ((colorA_toNat d).trans_le (hle 3 d))
    ((colorA_toNat p).trans_le (hle 3 p))
  unfold colorBlend
  rw [if_neg hne0, if_neg hne255]
  obtain ⟨h3, h2, h1, h0⟩ := channel_colorARGB
    (colorA p + colorA d * (255 - colorA p) / 255).toUInt8
    ((colorR p * colorA p + colorR d * (255 - colorA p)) / 255).toUInt8
    ((colorG p * colorA p + colorG d * (255 - colorA p)) / 255).toUInt8
    ((colorB p * colorA p + colorB d * (255 - colorA p)) / 255).toUInt8
  match k, hk with
  | 0, _ =>
    rw [h0, hmix _ _ ((colorB_toNat p).trans_le (hle 0 p)) ((colorB_toNat d).trans_le (hle 0 d)),
      colorB_toNat, colorB_toNat, colorA_toNat, if_neg (by decide)]
  | 1, _ =>
    rw [h1, hmix _ _ ((colorG_toNat p).trans_le (hle 1 p)) ((colorG_toNat d).trans_le (hle 1 d)),
      colorG_toNat, colorG_toNat, colorA_toNat, if_neg (by decide)]
  | 2, _ =>
    rw [h2, hmix _ _ ((colorR_toNat p).trans_le (hle 2 p)) ((colorR_toNat d).trans_le (hle 2 d)),
      colorR_toNat, colorR_toNat, colorA_toNat, if_neg (by decide)]
  | 3, _ => rw [h3, halpha, colorA_toNat, colorA_toNat, if_pos rfl]

/-- **Blending is monotone** in the pixel below. -/
theorem colorBlend_mono (h : Below c d) : Below (colorBlend c p) (colorBlend d p) := by
  by_cases h0 : channel 3 p = 0
  · have hzero : colorA p = 0 := UInt32.toNat_inj.mp ((colorA_toNat p).trans h0)
    unfold colorBlend
    rw [if_pos hzero, if_pos hzero]
    exact h
  by_cases h255 : channel 3 p = 255
  · have hfull : colorA p = 255 := UInt32.toNat_inj.mp ((colorA_toNat p).trans h255)
    unfold colorBlend
    rw [hfull, if_neg (by decide), if_pos rfl]
    exact below_refl p
  intro k hk
  have hck := h k hk
  have hc3 := h 3 (by decide)
  rw [channel_blend hk h0 h255, channel_blend hk h0 h255]
  split
  · exact Nat.add_le_add_left (Nat.div_le_div_right (Nat.mul_le_mul_right _ hc3)) _
  · exact Nat.div_le_div_right (Nat.add_le_add_left (Nat.mul_le_mul_right _ hck) _)

/-- A monotone function on pixels is constant exactly if it is the same at both ends. -/
theorem constant_iff {f : Pixel → Pixel} (hf : ∀ c d, Below c d → Below (f c) (f d)) :
    (∀ c d, f c = f d) ↔ f 0 = f 0xFFFFFFFF := by
  refine ⟨fun h => h 0 0xFFFFFFFF, fun h => ?_⟩
  have hsame (c : Pixel) : f c = f 0 := by
    refine Below.antisymm ?_ (hf 0 c (zero_below c))
    rw [h]
    exact hf c _ (below_white c)
  exact fun c d => (hsame c).trans (hsame d).symm

end Nv0ken.Graphics
