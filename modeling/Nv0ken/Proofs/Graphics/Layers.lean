/-
The layers of the compositor.

A layer is drawn over another because its surfaces have the greater z orders.  But a layer
is turned into a z order only when a surface is made; raising adds to it without a bound,
lowering takes away from it, and after a hundred of either a surface stands among those of
the next layer.  `layers_kept` is about the runs in which this does not happen:
`KeepsLayers` asks of each step that the z order it gives a surface does not meet those of
another layer.
-/
import Nv0ken.Proofs.Graphics.Surfaces

namespace Nv0ken.Graphics

open Run Word StableSort List Option

variable {c c' : Compositor} {id x y w h : Int} {layer : SurfaceLayer}
  {pre post l : List CompSurface} {a b : CompSurface}

/-- The layers from the bottom up. -/
def layerRank : SurfaceLayer → Nat
  | .wallpaper => 0
  | .normal => 1
  | .overlay => 2
  | .notification => 3
  | .cursor => 4

/-- `a` may be drawn before `b`. -/
def Beneath (a b : CompSurface) : Prop := layerRank a.layer ≤ layerRank b.layer

/-- No surface is drawn after one of a higher layer. -/
def Layered (c : Compositor) : Prop := c.surfaces.Pairwise Beneath

/-- The surface raised comes after all others of its layer. -/
def RaisedLast (c : Compositor) (id : Int) : Prop :=
  ∀ pre a post, SurfaceAt c id pre a post →
    ∃ z before after, (compositorRaiseSurface c id).surfaces =
      before ++ { a with zOrder := z } :: after ∧
      (before ++ after).Perm (pre ++ post) ∧ ∀ b ∈ after, b.layer ≠ a.layer

/-- The z orders of the layers do not meet. -/
def KeepsLayers (c : Compositor) : CompOp → Prop
  | .create _ _ w h layer => Makes c w h → ∀ b ∈ c.surfaces,
      (layerRank layer < layerRank b.layer → layerBase layer < b.zOrder) ∧
      (layerRank b.layer < layerRank layer → b.zOrder ≤ layerBase layer)
  | .raise id => ∀ a, compositorGetSurface c id = some a →
      maxZ c.surfaces a.layer + 1 < 2 ^ 31 ∧ ∀ b ∈ c.surfaces,
        layerRank a.layer < layerRank b.layer → maxZ c.surfaces a.layer < b.zOrder
  | .lower id => ∀ a, compositorGetSurface c id = some a → 0 < a.zOrder → ∀ b ∈ c.surfaces,
      layerRank b.layer < layerRank a.layer → b.zOrder < a.zOrder
  | _ => True

structure LayerInv (c : Compositor) : Prop where
  sorted : Sorted CompSurface.zOrder c.surfaces
  layered : Layered c

theorem layerInv_of_ranks (hinv : LayerInv c) (h : ranks c' = ranks c) : LayerInv c' := by
  have hsorted {c : Compositor} : Sorted CompSurface.zOrder c.surfaces ↔
      (ranks c).Pairwise fun p q => p.2.1 ≤ q.2.1 := by
    unfold ranks
    rw [pairwise_map]
    exact Iff.rfl
  have hlayered {c : Compositor} : Layered c ↔
      (ranks c).Pairwise fun p q => layerRank p.2.2 ≤ layerRank q.2.2 := by
    unfold ranks
    rw [pairwise_map]
    exact Iff.rfl
  refine ⟨?_, ?_⟩
  · rw [hsorted, h, ← hsorted]
    exact hinv.sorted
  · rw [hlayered, h, ← hlayered]
    exact hinv.layered

/-! ### Sorting by z order -/

theorem beneath_of_lt (hsorted : Sorted CompSurface.zOrder l) (hlayered : l.Pairwise Beneath)
    (ha : a ∈ l) (hb : b ∈ l) (hlt : a.zOrder < b.zOrder) : Beneath a b := by
  have hboth := hsorted.and hlayered
  have hne : a ≠ b := fun heq => absurd (heq ▸ hlt) (lt_irrefl _)
  -- the other order of the two would have the smaller z order last
  rcases pairwise_iff_getElem.mp hboth, getElem_of_mem ha, getElem_of_mem hb with
    ⟨hget, ⟨i, hi, rfl⟩, ⟨j, hj, rfl⟩⟩
  rcases Nat.lt_trichotomy i j with hij | rfl | hij
  · exact (hget i j hi hj hij).2
  · exact absurd rfl hne
  · exact absurd (hget j i hj hi hij).1 (not_le.mpr hlt)

/-- Sorting brings the layers in order when smaller z orders belong to layers further down
and equal ones are in order already. -/
theorem layered_sortBy (hl : l.Pairwise fun a b => a.zOrder = b.zOrder → Beneath a b)
    (hlt : ∀ a ∈ l, ∀ b ∈ l, a.zOrder < b.zOrder → Beneath a b) :
    (sortBy CompSurface.zOrder l).Pairwise Beneath := by
  have hmem {s : CompSurface} : s ∈ sortBy CompSurface.zOrder l ↔ s ∈ l := (sortBy_perm l).mem_iff
  refine (sortBy_pairwise hl).imp_of_mem fun ha hb hstable => ?_
  rcases hstable with hlt' | ⟨heq, hbeneath⟩
  · exact hlt _ (hmem.mp ha) _ (hmem.mp hb) hlt'
  · exact hbeneath heq

/-! ### The steps -/

section

variable (hinv : LayerInv c)
include hinv

/-- One surface with another z order. -/
theorem layerInv_change {z : Int} (hsurfaces : c.surfaces = pre ++ a :: post)
    (hbelow : ∀ b ∈ pre ++ post, b.zOrder < z → Beneath b a)
    (habove : ∀ b ∈ pre ++ post, z < b.zOrder → Beneath a b) :
    LayerInv (c.resorted (pre ++ { a with zOrder := z } :: post)) := by
  refine ⟨sortBy_sorted _, layered_sortBy ?_ ?_⟩
  · have hlayered := hinv.layered
    unfold Layered at hlayered
    rw [hsurfaces, pairwise_append, pairwise_cons] at hlayered
    obtain ⟨hpre, ⟨hpost, hrest⟩, hcross⟩ := hlayered
    have hall : (pre ++ { a with zOrder := z } :: post).Pairwise Beneath := by
      rw [pairwise_append, pairwise_cons]
      refine ⟨hpre, ⟨hpost, hrest⟩, fun b hb d hd => ?_⟩
      rcases mem_cons.mp hd with rfl | hd
      · exact hcross b hb a (by simp)
      · exact hcross b hb d (by simp [hd])
    exact hall.imp fun hbeneath => fun _ => hbeneath
  · have hcases {s : CompSurface} (hs : s ∈ pre ++ { a with zOrder := z } :: post) :
        s = { a with zOrder := z } ∨ s ∈ pre ++ post := by
      simp only [mem_append, mem_cons] at hs ⊢
      tauto
    have hmem {s : CompSurface} (hs : s ∈ pre ++ post) : s ∈ c.surfaces := by
      rw [hsurfaces]
      simp only [mem_append, mem_cons] at hs ⊢
      tauto
    intro s hs t ht hlt
    rcases hcases hs with rfl | hs'
    · rcases hcases ht with rfl | ht'
      · exact le_refl _
      · exact habove t ht' hlt
    · rcases hcases ht with rfl | ht'
      · exact hbelow s hs' hlt
      · exact beneath_of_lt hinv.sorted hinv.layered (hmem hs') (hmem ht') hlt

theorem layerInv_damageSlot {idx : Nat} : LayerInv (damageSlot c idx) :=
  layerInv_of_ranks hinv ranks_damageSlot

/-- A surface of a lower layer has at most the z order of one that is drawn later. -/
theorem zOrder_le_of_rank_lt (ha : a ∈ c.surfaces) (hb : b ∈ c.surfaces)
    (hlt : layerRank b.layer < layerRank a.layer) : b.zOrder ≤ a.zOrder := by
  by_contra hgt
  exact absurd (beneath_of_lt hinv.sorted hinv.layered ha hb (not_le.mp hgt)) (Nat.not_le.mpr hlt)

theorem layerInv_raise (hat : SurfaceAt c id pre a post)
    (hkeeps : KeepsLayers c (.raise id)) : LayerInv (compositorRaiseSurface c id) := by
  obtain ⟨hroom, habove⟩ := hkeeps a (getSurface_at hat)
  have hmem := hat.rest_sublist.subset
  have ha := le_maxZ hat.mem
  have hz := int32_maxZ_succ hroom
  rw [raise_eq hat]
  refine layerInv_damageSlot (layerInv_change hinv hat.surfaces ?_ ?_)
  · intro b hb hlt
    refine not_lt.mp fun hrank => ?_
    have hb' := habove b (hmem hb) hrank
    omega
  · intro b hb hlt
    refine not_lt.mp fun hrank => ?_
    have hb' := zOrder_le_of_rank_lt hinv hat.mem (hmem hb) hrank
    omega

theorem layerInv_lower (hat : SurfaceAt c id pre a post)
    (hkeeps : KeepsLayers c (.lower id)) : LayerInv (compositorLowerSurface c id) := by
  by_cases hz : 0 < a.zOrder
  · have hbelow := hkeeps a (getSurface_at hat) hz
    have hmem := hat.rest_sublist.subset
    rw [lower_eq hat hz]
    refine layerInv_damageSlot (layerInv_change hinv hat.surfaces ?_ ?_)
    · intro b hb hlt
      refine not_lt.mp fun hrank => ?_
      have hb' := zOrder_le_of_rank_lt hinv (hmem hb) hat.mem hrank
      omega
    · intro b hb hlt
      refine not_lt.mp fun hrank => ?_
      have hb' := hbelow b (hmem hb) hrank
      omega
  · rw [lower_zero hat hz]
    exact hinv

theorem layerInv_create (hkeeps : KeepsLayers c (.create x y w h layer)) :
    LayerInv (compositorCreateSurface c x y w h layer).1 := by
  by_cases hmakes : Makes c w h
  · rw [create_eq hmakes]
    have habove (b : CompSurface) (hb : b ∈ c.surfaces) (hle : b.zOrder ≤ layerBase layer) :
        layerRank b.layer ≤ layerRank layer :=
      not_lt.mp fun hrank => absurd ((hkeeps hmakes b hb).1 hrank) (not_lt.mpr hle)
    have hbelow (b : CompSurface) (hb : b ∈ c.surfaces) (hlt : layerBase layer < b.zOrder) :
        layerRank layer ≤ layerRank b.layer :=
      not_lt.mp fun hrank => absurd ((hkeeps hmakes b hb).2 hrank) (not_le.mpr hlt)
    refine ⟨sortBy_sorted _, layered_sortBy ?_ ?_⟩
    · refine pairwise_append.mpr ⟨hinv.layered.imp fun hbeneath => fun _ => hbeneath, by simp, ?_⟩
      intro b hb s hs heq
      obtain rfl := mem_singleton.mp hs
      exact habove b hb heq.le
    · intro s hs t ht hlt
      rcases mem_append.mp hs with hs | hs
      · rcases mem_append.mp ht with ht | ht
        · exact beneath_of_lt hinv.sorted hinv.layered hs ht hlt
        · obtain rfl := mem_singleton.mp ht
          exact habove s hs hlt.le
      · obtain rfl := mem_singleton.mp hs
        rcases mem_append.mp ht with ht | ht
        · exact hbelow t ht hlt
        · obtain rfl := mem_singleton.mp ht
          exact le_refl _
  · obtain ⟨memory, hnone⟩ := create_none hmakes
    rw [hnone]
    exact ⟨hinv.sorted, hinv.layered⟩

theorem layerInv_destroy (hat : SurfaceAt c id pre a post) :
    LayerInv (compositorDestroySurface c id) := by
  have hsub := hat.rest_sublist
  rw [destroy_eq hat]
  exact ⟨hinv.sorted.sublist hsub, hinv.layered.sublist hsub⟩

end

theorem layerInv_step (c : Compositor) (op : CompOp) (c' : Compositor) (hinv : LayerInv c)
    (hkeeps : KeepsLayers c op) (hstep : compStep c op = some c') : LayerInv c' := by
  rcases target_cases c op with hsame | hfound
  · exact some.inj (hsame.symm.trans hstep) ▸ hinv
  cases op <;> obtain rfl := some.inj hstep
  case create x y w h layer => exact layerInv_create hinv hkeeps
  case destroy id =>
    obtain ⟨pre, a, post, hat⟩ := hfound id rfl
    exact layerInv_destroy hinv hat
  case raise id =>
    obtain ⟨pre, a, post, hat⟩ := hfound id rfl
    exact layerInv_raise hinv hat hkeeps
  case lower id =>
    obtain ⟨pre, a, post, hat⟩ := hfound id rfl
    exact layerInv_lower hinv hat hkeeps
  -- the others leave the order as it is
  case move id x y => exact layerInv_of_ranks hinv ranks_move
  case resize id w h => exact layerInv_of_ranks hinv ranks_resize
  case setAlpha id alpha => exact layerInv_of_ranks hinv ranks_setAlpha
  case «show» id => exact layerInv_of_ranks hinv ranks_show
  case hide id => exact layerInv_of_ranks hinv ranks_hide
  case damage x y w h => exact layerInv_of_ranks hinv (by simp [ranks])
  case damageSurface id => exact layerInv_of_ranks hinv ranks_damageSurface
  case composite => exact layerInv_of_ranks hinv ranks_composite

/-- The surface raised is greater than all others of its layer. -/
theorem raisedLast (hinv : LayerInv c) (hkeeps : KeepsLayers c (.raise id)) : RaisedLast c id := by
  intro pre a post hat
  obtain ⟨hroom, -⟩ := hkeeps a (getSurface_at hat)
  rw [raise_eq hat, damageSlot_surfaces]
  refine ⟨_, _, _, raise_sorted hinv.sorted hat hroom, ?_, ?_⟩
  · rw [append_assoc, takeWhile_append_dropWhile]
  · intro b hb hlayer
    have hle := le_maxZ (l := c.surfaces) (a := b) (by
      rw [hat.surfaces]
      simp [(dropWhile_sublist _).subset hb])
    rw [hlayer] at hle
    have hge := raise_rest hinv.sorted hat hb
    omega

/-! ### Whole runs -/

/-- **The layers are drawn in their order** in every state of a run whose steps keep the z
orders of the layers apart, and each surface raised comes to be the last of its layer. -/
theorem layers_kept {framebuffer : Int → Int → Pixel} {fbW fbH : Int} {memory : List Bool}
    (hnew : compositorNew framebuffer fbW fbH memory = some c) (ops : List CompOp)
    (hkeeps : Along compStep KeepsLayers c ops) :
    Throughout compStep Layered c ops ∧
      Along compStep (fun c op => ∀ id, op = .raise id → RaisedLast c id) c ops := by
  have hstart : LayerInv c := by
    obtain ⟨hempty, -⟩ := compositorNew_eq hnew
    exact ⟨by simp [hempty, Sorted], by simp [hempty, Layered]⟩
  have hinv : Throughout compStep LayerInv c ops := along_throughout layerInv_step hstart hkeeps
  refine ⟨hinv.mono fun c h => h.layered, ?_⟩
  have hboth := (hinv.along (P := fun c _ => LayerInv c) fun c _ h => h).and hkeeps
  refine hboth.mono fun c op h => ?_
  rintro id rfl
  exact raisedLast h.1 h.2

/-- A wallpaper and a window over it; the wallpaper is raised. -/
theorem layers_kept_raise :
    Throughout compStep Layered smallScreen
      [.create 0 0 4 4 .wallpaper, .create 1 1 2 2 .normal, .raise 1] := by
  have hkeeps : Along compStep KeepsLayers smallScreen
      [.create 0 0 4 4 .wallpaper, .create 1 1 2 2 .normal, .raise 1] := by
    refine ⟨fun _ => by decide, fun c hc => ?_⟩
    obtain rfl := some.inj hc
    refine ⟨fun _ => by decide, fun c hc => ?_⟩
    obtain rfl := some.inj hc
    refine ⟨fun a ha => ?_, fun _ _ => trivial⟩
    obtain rfl := some.inj ha
    decide
  have hnew : compositorNew (fun _ _ => 0) 4 4 [] = some smallScreen := rfl
  exact (layers_kept hnew _ hkeeps).1

/-- A window raised often enough is drawn over an overlay. -/
theorem raised_past_layer :
    ¬ Throughout compStep Layered smallScreen
      ([.create 0 0 1 1 .normal, .create 0 0 1 1 .overlay] ++ List.replicate 101 (.raise 1)) := by
  intro hall
  have hend : ((run compStep smallScreen
      ([.create 0 0 1 1 .normal, .create 0 0 1 1 .overlay] ++ replicate 101 (.raise 1))).map
        fun c => c.surfaces.map CompSurface.layer) = some [.overlay, .normal] := by
    decide +kernel
  obtain ⟨c, hrun, hlayers⟩ := map_eq_some_iff.mp hend
  have hlayered : (c.surfaces.map CompSurface.layer).Pairwise fun a b =>
      layerRank a ≤ layerRank b :=
    pairwise_map.mpr (hall.last hrun)
  rw [hlayers] at hlayered
  exact absurd hlayered (by decide)

end Nv0ken.Graphics
