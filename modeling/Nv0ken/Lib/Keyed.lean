/-
Lists whose elements are found by a key.

An array that is searched from its start for the first element with a key is a list; `At`
names the element found, with what stands before and behind it.  Where no key occurs twice,
changing the element found is the same as changing whatever has the key (`At.modify_eq`), and
then the order of the list does not matter.
-/
import Mathlib.Data.List.Nodup

namespace Nv0ken.Keyed

open List

variable {α κ : Type*} {key : α → κ} {l pre post : List α} {a b : α} {k : κ} {f : α → α}

/-- The first element with the key, between those before and behind it. -/
structure At (key : α → κ) (l : List α) (k : κ) (pre : List α) (a : α) (post : List α) : Prop where
  split : l = pre ++ a :: post
  named : key a = k
  first : ∀ b ∈ pre, key b ≠ k

section

variable (hat : At key l k pre a post)
include hat

theorem At.mem : a ∈ l := by
  rw [hat.split]
  simp

theorem At.slot : l[pre.length]? = some a := by
  rw [hat.split]
  simp

theorem At.modify (f : α → α) : l.modify pre.length f = pre ++ f a :: post := by
  rw [hat.split]
  clear hat
  induction pre with
  | nil => rfl
  | cons b pre ih => simp [ih]

theorem At.eraseIdx : l.eraseIdx pre.length = pre ++ post := by
  rw [hat.split]
  simp [eraseIdx_append_of_length_le]

theorem At.map (hf : ∀ b, key (f b) = key b) :
    At key (l.map f) k (pre.map f) (f a) (post.map f) := by
  refine ⟨by rw [hat.split, map_append, map_cons], (hf a).trans hat.named, ?_⟩
  intro b hb
  obtain ⟨b', hb', rfl⟩ := mem_map.mp hb
  rw [hf]
  exact hat.first b' hb'

end

/-- A change that keeps the keys. -/
theorem map_key_map (hf : ∀ b, key (f b) = key b) : (l.map f).map key = l.map key := by
  rw [map_map]
  exact map_congr_left fun b _ => hf b

theorem At.rest_ne (hat : At key l k pre a post) (hkeys : (l.map key).Nodup) :
    ∀ b ∈ post, key b ≠ k := by
  rw [hat.split, map_append] at hkeys
  intro b hb hk
  have hnot := (nodup_cons.mp (nodup_append.mp hkeys).2.1).1
  rw [hat.named, ← hk] at hnot
  exact hnot (mem_map_of_mem hb)

variable [DecidableEq κ]

theorem At.findIdx (hat : At key l k pre a post) :
    l.findIdx? (fun b => key b = k) = some pre.length := by
  have hpre : pre.findIdx? (fun b => key b = k) = none := by
    rw [findIdx?_eq_none_iff]
    intro b hb
    simpa using hat.first b hb
  rw [hat.split]
  simp [hpre, hat.named, findIdx?_cons]

/-- The search fails, or it finds an element. -/
theorem findIdx_cases (key : α → κ) (l : List α) (k : κ) :
    (l.findIdx? (fun b => key b = k) = none ∧ ∀ b ∈ l, key b ≠ k) ∨
      ∃ pre a post, At key l k pre a post := by
  cases hfind : l.findIdx? (fun b => key b = k) with
  | none =>
    refine Or.inl ⟨rfl, fun b hb => ?_⟩
    simpa using findIdx?_eq_none_iff.mp hfind b hb
  | some i =>
    obtain ⟨hlt, hkey, hfirst⟩ := findIdx?_eq_some_iff_getElem.mp hfind
    refine Or.inr ⟨l.take i, l[i], l.drop (i + 1), ?_, by simpa using hkey, ?_⟩
    · rw [← drop_eq_getElem_cons hlt, take_append_drop]
    · intro b hb
      obtain ⟨j, hj, rfl⟩ := getElem_of_mem hb
      have hji : j < i := by
        rw [length_take] at hj
        omega
      simpa using hfirst j hji

/-! ### Keys that do not repeat -/

/-- Whatever has the key is changed. -/
def update (key : α → κ) (k : κ) (f : α → α) (l : List α) : List α :=
  l.map fun b => if key b = k then f b else b

theorem update_of_forall_ne (hne : ∀ b ∈ l, key b ≠ k) : update key k f l = l := by
  unfold update
  rw [map_congr_left (g := id), map_id]
  intro b hb
  rw [if_neg (hne b hb), id]

theorem map_key_update (hf : ∀ b, key (f b) = key b) : (update key k f l).map key = l.map key := by
  refine map_key_map fun b => ?_
  split
  · exact hf b
  · rfl

theorem At.modify_eq (hat : At key l k pre a post) (hkeys : (l.map key).Nodup) (f : α → α) :
    l.modify pre.length f = update key k f l := by
  have hupdate : update key k f l = update key k f pre ++ f a :: update key k f post := by
    rw [hat.split]
    unfold update
    rw [map_append, map_cons, if_pos hat.named]
  rw [hat.modify, hupdate, update_of_forall_ne hat.first, update_of_forall_ne (hat.rest_ne hkeys)]

/-- An element is the one found by its key. -/
theorem exists_at (ha : a ∈ l) (hkeys : (l.map key).Nodup) :
    ∃ pre post, At key l (key a) pre a post := by
  rcases findIdx_cases key l (key a) with ⟨-, hne⟩ | ⟨pre, b, post, hat⟩
  · exact absurd rfl (hne a ha)
  · obtain rfl := inj_on_of_nodup_map hkeys hat.mem ha hat.named
    exact ⟨pre, post, hat⟩

/-! ### Dropping elements -/

omit [DecidableEq κ] in
/-- **An element stays in its place exactly when everything before it does.**  Where no key
occurs twice it cannot be taken for another one that has come to its place. -/
theorem place_kept_iff {p : α → Bool} (hkeys : (l.map key).Nodup) (hl : l = pre ++ a :: post)
    (ha : p a = true) :
    ((l.filter p).map key)[pre.length]? = some (key a) ↔ ∀ b ∈ pre, p b = true := by
  have hfound : ((l.filter p).map key)[(pre.filter p).length]? = some (key a) := by
    rw [hl, filter_append, filter_cons_of_pos ha]
    simp
  constructor
  · intro hplace
    have hnodup : ((l.filter p).map key).Nodup := hkeys.sublist (filter_sublist.map key)
    have hlt := (List.getElem?_eq_some_iff.mp hfound).1
    exact length_filter_eq_length_iff.mp ((getElem?_inj hlt hnodup).mp (hfound.trans hplace.symm))
  · intro hkept
    rwa [length_filter_eq_length_iff.mpr hkept] at hfound

end Nv0ken.Keyed
