/-
What `setenv` does to the environment.

It leaves the work to `putenv`, which replaces the entry of the name where there is one
and otherwise reports success without storing anything.  So a value can be read back
exactly if the name had one before (`setenv_sets_iff`).

The lookups of other names are not disturbed because an entry has one name only: the part
before its first `=`.
-/
import Nv0ken.Userland.Libc.Environ

namespace Nv0ken.Libc

open List

variable {name other value entry : List UInt8} {entries : List (List UInt8)}

/-- After a successful call the name has the value, and every other name the one it had. -/
def Sets (env : Environ) (name value : List UInt8) : Prop :=
  (setenv env name value true true).2 = 0 →
    getenv (setenv env name value true true).1 name = some value ∧
      ∀ other, other ≠ name → equals ∉ other →
        getenv (setenv env name value true true).1 other = getenv env other

theorem takeWhile_name (hname : equals ∉ name) (value : List UInt8) :
    (name ++ equals :: value).takeWhile (· ≠ equals) = name := by
  induction name with
  | nil => simp
  | cons b name ih =>
    have hb : b ≠ equals := fun h => hname (by simp [h])
    simpa [hb] using ih fun h => hname (by simp [h])

theorem isEntry_iff : isEntry name entry = true ↔ ∃ value, entry = name ++ equals :: value := by
  unfold isEntry
  simp only [decide_eq_true_eq]
  constructor
  · rintro ⟨htake, hbyte⟩
    refine ⟨entry.drop (name.length + 1), ?_⟩
    obtain ⟨hlt, hget⟩ := List.getElem?_eq_some_iff.mp hbyte
    conv_lhs => rw [← take_append_drop name.length entry, htake, drop_eq_getElem_cons hlt, hget]
  · rintro ⟨value, rfl⟩
    simp

/-- An entry has one name. -/
theorem name_unique (hname : isEntry name entry = true) (hother : isEntry other entry = true)
    (hplain : equals ∉ name) (hplain' : equals ∉ other) : other = name := by
  obtain ⟨value, rfl⟩ := isEntry_iff.mp hname
  obtain ⟨value', heq⟩ := isEntry_iff.mp hother
  rw [← takeWhile_name hplain' value', ← heq, takeWhile_name hplain]

theorem find_replaced (name value : List UInt8) (entries : List (List UInt8)) :
    (replaceEntry name (name ++ equals :: value) entries).find? (isEntry name) =
      (entries.find? (isEntry name)).map fun _ => name ++ equals :: value := by
  have hself : isEntry name (name ++ equals :: value) = true := isEntry_iff.mpr ⟨value, rfl⟩
  induction entries with
  | nil => rfl
  | cons entry entries ih =>
    rw [replaceEntry]
    by_cases hentry : isEntry name entry = true
    · simp [hentry, hself]
    · simpa [hentry] using ih

theorem find_other (hne : other ≠ name) (hname : equals ∉ name) (hother : equals ∉ other) :
    (replaceEntry name (name ++ equals :: value) entries).find? (isEntry other) =
      entries.find? (isEntry other) := by
  have hfree (e : List UInt8) (he : isEntry name e = true) : isEntry other e = false :=
    Bool.eq_false_iff.mpr fun h => hne (name_unique he h hname hother)
  induction entries with
  | nil => rfl
  | cons entry entries ih =>
    rw [replaceEntry]
    by_cases hentry : isEntry name entry = true
    · simp [hentry, hfree entry hentry, hfree _ (isEntry_iff.mpr ⟨value, rfl⟩)]
    · simp [hentry, find?_cons, ih]

/-- **What can be read back after `setenv`.**  With memory for the entry, a call for a
non-empty name without `=` gives that name the value and leaves all other names alone,
exactly if the environment had an entry for the name before. -/
theorem setenv_sets_iff (env : Environ) (name value : List UInt8) (hne : name ≠ [])
    (hname : equals ∉ name) : Sets env name value ↔ (getenv env name).isSome := by
  have hset : setenv env name value true true =
      (env.map (replaceEntry name (name ++ equals :: value)), 0) := by
    unfold setenv putenv
    rw [takeWhile_name hname]
    simp [hne, hname]
  unfold Sets
  rw [hset]
  cases env with
  | none => simp [getenv]
  | some entries =>
    simp only [getenv, Option.map_some, Option.getD_some, Option.isSome_map, forall_const,
      find_replaced]
    constructor
    · rintro ⟨hread, -⟩
      cases hfound : entries.find? (isEntry name) with
      | none => simp [hfound] at hread
      | some entry => rfl
    · intro hfound
      obtain ⟨entry, hentry⟩ := Option.isSome_iff_exists.mp hfound
      exact ⟨by simp [hentry], fun other hother hplain => by rw [find_other hother hname hplain]⟩

theorem setenv_sets_again :
    [65] ≠ [] ∧ equals ∉ [65] ∧ Sets (some [[66, 61], [65, 61, 49]]) [65] [50] :=
  ⟨by decide, by decide,
    (setenv_sets_iff (some [[66, 61], [65, 61, 49]]) [65] [50] (by decide) (by decide)).mpr rfl⟩

/-- A new name: the call reports success, and the name has no value. -/
theorem new_name_lost : (setenv (some []) [65] [49] true true).2 = 0 ∧
    getenv (setenv (some []) [65] [49] true true).1 [65] = none ∧ ¬ Sets (some []) [65] [49] :=
  ⟨rfl, rfl, fun h => by cases (h rfl).1⟩

end Nv0ken.Libc
