/-
The operations of the compositor that act on one surface.

Where no id occurs twice, each of them changes the surface with an id and possibly the order of
the array: `Acts`.  What is known of a surface (`Has`) is then kept by the operations on the
others, and it changes with the surface.
-/
import Nv0ken.Proofs.Graphics.Surfaces

namespace Nv0ken.Graphics

open Word StableSort Keyed List

variable {c c' : Compositor} {id i x y w h : Int} {f : CompSurface → CompSurface}
  {P P' : CompSurface → Prop} {idx : Nat}

/-- No id occurs twice and no memory will be refused. -/
structure CompOk (c : Compositor) : Prop where
  distinct : (c.surfaces.map CompSurface.id).Nodup
  memory : ∀ answer ∈ c.memory, answer = true

/-- The surface with the id is changed, and nothing else but the order. -/
structure Acts (c c' : Compositor) (id : Int) (f : CompSurface → CompSurface) : Prop where
  surfaces : c'.surfaces.Perm (update CompSurface.id id f c.surfaces)
  keeps : ∀ s, (f s).id = s.id
  memory : ∀ answer ∈ c'.memory, answer ∈ c.memory

/-- There is a surface with the id, and this holds of it. -/
def Has (c : Compositor) (id : Int) (P : CompSurface → Prop) : Prop :=
  ∃ s ∈ c.surfaces, s.id = id ∧ P s

theorem Acts.ok (h : Acts c c' id f) (hok : CompOk c) : CompOk c' := by
  refine ⟨?_, fun answer ha => hok.memory answer (h.memory answer ha)⟩
  rw [(h.surfaces.map CompSurface.id).nodup_iff, map_key_update h.keeps]
  exact hok.distinct

theorem Acts.has (h : Acts c c' id f) (hP : ∀ s, P s → P' (f s)) (hhas : Has c id P) :
    Has c' id P' := by
  obtain ⟨s, hs, hid, hp⟩ := hhas
  refine ⟨f s, h.surfaces.mem_iff.mpr (mem_map.mpr ⟨s, hs, if_pos hid⟩), ?_, hP s hp⟩
  exact (h.keeps s).trans hid

theorem Acts.has_other (h : Acts c c' i f) (hne : i ≠ id) (hhas : Has c id P) : Has c' id P := by
  obtain ⟨s, hs, hid, hp⟩ := hhas
  have hsi : s.id ≠ i := fun hsi => hne (hsi.symm.trans hid)
  exact ⟨s, h.surfaces.mem_iff.mpr (mem_map.mpr ⟨s, hs, if_neg hsi⟩), hid, hp⟩

/-! ### The operations -/

@[simp] theorem damageSlot_memory : (damageSlot c idx).memory = c.memory := by
  unfold damageSlot compositorDamage
  split
  · rfl
  · split
    · rfl
    · split <;> rfl

section

variable (hok : CompOk c)
include hok

/-- An operation that looks for its surface and, if it is there, changes its slot. -/
theorem acts_of_find {g : Nat → Compositor} (hf : ∀ s, (f s).id = s.id)
    (hc : c' = match findSurface c id with
      | none => c
      | some idx => g idx)
    (hsome : ∀ pre a post, SurfaceAt c id pre a post →
      c'.surfaces.Perm (pre ++ f a :: post) ∧ ∀ answer ∈ c'.memory, answer ∈ c.memory) :
    Acts c c' id f := by
  rcases find_cases c id with ⟨hfind, hne⟩ | ⟨pre, a, post, hat⟩
  · rw [hfind] at hc
    refine hc ▸ ⟨?_, hf, fun answer ha => ha⟩
    rw [update_of_forall_ne hne]
  · obtain ⟨hperm, hmemory⟩ := hsome pre a post hat
    refine ⟨?_, hf, hmemory⟩
    rw [← hat.keyed.modify_eq hok.distinct, hat.modify]
    exact hperm

theorem acts_move :
    Acts c (compositorMoveSurface c id x y) id fun s =>
      { s with x := x, y := y, dirty := true } := by
  refine acts_of_find hok (fun _ => rfl) rfl fun pre a post hat => ?_
  rw [move_eq hat]
  simp [Compositor.holding]

theorem acts_damage :
    Acts c (compositorDamageSurface c id) id fun s => { s with dirty := true } := by
  refine acts_of_find hok (fun _ => rfl) rfl fun pre a post hat => ?_
  rw [damageSurface_eq hat]
  simp [Compositor.holding]

theorem acts_show :
    Acts c (compositorShowSurface c id) id fun s =>
      if s.visible then s else { s with visible := true, dirty := true } := by
  refine acts_of_find hok (fun s => by split <;> rfl) rfl fun pre a post hat => ?_
  rw [show_eq hat]
  split
  · simp [hat.surfaces]
  · simp [Compositor.holding]

theorem acts_hide :
    Acts c (compositorHideSurface c id) id fun s =>
      if s.visible then { s with visible := false } else s := by
  refine acts_of_find hok (fun s => by split <;> rfl) rfl fun pre a post hat => ?_
  rw [hide_eq hat]
  split
  · simp [Compositor.holding]
  · simp [hat.surfaces]

theorem acts_raise :
    ∃ f, Acts c (compositorRaiseSurface c id) id f ∧ ∀ s, ∃ z, f s = { s with zOrder := z } := by
  refine ⟨fun s => { s with zOrder := int32 (maxZ c.surfaces s.layer + 1) }, ?_, fun s => ⟨_, rfl⟩⟩
  refine acts_of_find hok (fun _ => rfl) rfl fun pre a post hat => ?_
  rw [raise_eq hat]
  simp only [damageSlot_surfaces, damageSlot_memory, Compositor.resorted]
  exact ⟨sortBy_perm _, fun answer ha => ha⟩

theorem granted_of_ok : c.granted = true := by
  unfold Compositor.granted
  cases hmemory : c.memory with
  | nil => rfl
  | cons answer rest => exact hok.memory answer (by rw [hmemory]; exact mem_cons_self)

theorem acts_resize (hw : 0 < w) (hh : 0 < h) :
    Acts c (compositorResizeSurface c id w h) id fun s =>
      { s with buffer := surfaceNew w h true, w := w, h := h, dirty := true } := by
  refine acts_of_find hok (fun _ => rfl) (if_neg (by omega)) fun pre a post hat => ?_
  rw [resize_eq hat hw hh (granted_of_ok hok)]
  simp only [damageSlot_surfaces, damageSlot_memory, Compositor.holding]
  exact ⟨Perm.refl _, fun answer ha => mem_of_mem_tail ha⟩

/-- A surface is not made smaller than a pixel. -/
theorem acts_resize_any : ∃ f, Acts c (compositorResizeSurface c id w h) id f := by
  by_cases hsize : w ≤ 0 ∨ h ≤ 0
  · refine ⟨fun s => s, ?_⟩
    have hsame : compositorResizeSurface c id w h = c := by
      unfold compositorResizeSurface
      rw [if_pos hsize]
    rw [hsame]
    exact ⟨by simp [update], fun _ => rfl, fun answer ha => ha⟩
  · exact ⟨_, acts_resize hok (by omega) (by omega)⟩

theorem destroy_ok : CompOk (compositorDestroySurface c id) := by
  rcases find_cases c id with ⟨hnone, -⟩ | ⟨pre, a, post, hat⟩
  · unfold compositorDestroySurface
    rw [hnone]
    exact hok
  · rw [destroy_eq hat]
    refine ⟨?_, ?_⟩
    · exact hok.distinct.sublist (hat.rest_sublist.map CompSurface.id)
    · simpa using hok.memory

end

end Nv0ken.Graphics
