/-
The table of hardware addresses.

The valid entries stand in front of the free ones and no address occurs in two of them, so
the table is a list of pairs.  Learning puts the pair in the place of the one with the same
address, or behind the last, or, where there is no room, in the place of the first.  What
was learned last is therefore there, what is there was learned last, and nothing is pushed
out before a thirty-third address comes (`arp_finds_latest`).
-/
import Nv0ken.Kernel.Net.Stack
import Nv0ken.Lib.Keyed
import Nv0ken.Lib.LastWrite

namespace Nv0ken.Net

open Keyed LastWrite List

variable {known learned pre post : List (UInt32 × Mac)} {table before behind : List ArpEntry}
  {ip : UInt32} {mac : Mac} {e : ArpEntry}

/-- What was learned last for an address. -/
def latest (learned : List (UInt32 × Mac)) (ip : UInt32) : Option Mac :=
  lastWrite (fun q => if q.1 = ip then some (some q.2) else none) none learned

/-- The table after some calls of `arp_learn`. -/
def arpTable (learned : List (UInt32 × Mac)) : List ArpEntry :=
  learned.foldl (fun table q => arpLearn table q.1 q.2) arpInit

def heldEntry (q : UInt32 × Mac) : ArpEntry := { ipv4 := q.1, mac := q.2, valid := true }

def freeEntry : ArpEntry := { ipv4 := 0, mac := noMac, valid := false }

/-- The table that holds these pairs. -/
def tableOf (known : List (UInt32 × Mac)) : List ArpEntry :=
  known.map heldEntry ++ replicate (arpTableSize - known.length) freeEntry

/-- The scan stops at the entry. -/
def stopsAt (ip : UInt32) (e : ArpEntry) : Bool := !e.valid || e.ipv4 == ip

theorem stopsAt_held {q : UInt32 × Mac} : stopsAt ip (heldEntry q) = true ↔ q.1 = ip := by
  simp [stopsAt, heldEntry]

/-- The entry the scan stops at is overwritten. -/
theorem arpLearn_at (hat : At (stopsAt ip) table true before e behind) :
    arpLearn table ip mac = before ++ heldEntry (ip, mac) :: behind := by
  have hstop : table.findIdx? (stopsAt ip) = some before.length := by simpa using hat.findIdx
  have hfind : table.findIdx? (fun e => !e.valid || e.ipv4 == ip) = some before.length := hstop
  unfold arpLearn
  rw [hfind, hat.split]
  simp [heldEntry]

/-- Where the scan stops nowhere, the first entry is overwritten. -/
theorem arpLearn_full (hnone : ∀ e ∈ table, stopsAt ip e = false) :
    arpLearn table ip mac = table.set 0 (heldEntry (ip, mac)) := by
  have hfind : table.findIdx? (fun e => !e.valid || e.ipv4 == ip) = none :=
    findIdx?_eq_none_iff.mpr hnone
  unfold arpLearn
  rw [hfind]
  rfl

/-- What the table holds after `learned`. -/
structure Holds (learned known : List (UInt32 × Mac)) : Prop where
  keys : (known.map Prod.fst).Nodup
  room : known.length ≤ arpTableSize
  latest : ∀ q ∈ known, Net.latest learned q.1 = some q.2
  all : known.length < arpTableSize → ∀ q ∈ learned, ∃ p ∈ known, p.1 = q.1

/-- **One call**: the pair takes the place of at most one other, and that has the same
address if there is a free entry. -/
theorem arpLearn_tableOf (hkeys : (known.map Prod.fst).Nodup) (hroom : known.length ≤ arpTableSize)
    (ip : UInt32) (mac : Mac) : ∃ pre gone post, known = pre ++ gone ++ post ∧ gone.length ≤ 1 ∧
      (∀ q ∈ pre ++ post, q.1 ≠ ip) ∧ (known.length < arpTableSize → ∀ q ∈ gone, q.1 = ip) ∧
      (pre ++ (ip, mac) :: post).length ≤ arpTableSize ∧
      arpLearn (tableOf known) ip mac = tableOf (pre ++ (ip, mac) :: post) := by
  have hstop (q : UInt32 × Mac) (hq : q.1 ≠ ip) : stopsAt ip (heldEntry q) ≠ true :=
    fun h => hq (stopsAt_held.mp h)
  by_cases hmem : ip ∈ known.map Prod.fst
  · -- the address has an entry
    obtain ⟨q, hq, rfl⟩ := mem_map.mp hmem
    obtain ⟨pre, post, hat⟩ := exists_at hq hkeys
    have hlen : (pre ++ (q.1, mac) :: post).length = known.length := by
      rw [hat.split]
      simp
    refine ⟨pre, [q], post, by simp [hat.split], by simp, fun p hp => ?_, by simp, by omega, ?_⟩
    · rcases mem_append.mp hp with hp | hp
      · exact hat.first p hp
      · exact hat.rest_ne hkeys p hp
    · have hat' : At (stopsAt q.1) (tableOf known) true (pre.map heldEntry) (heldEntry q)
          (post.map heldEntry ++ replicate (arpTableSize - known.length) freeEntry) := by
        refine ⟨by simp [tableOf, hat.split], stopsAt_held.mpr rfl, fun b hb => ?_⟩
        obtain ⟨p, hp, rfl⟩ := mem_map.mp hb
        exact hstop p (hat.first p hp)
      rw [arpLearn_at hat', tableOf, hlen]
      simp
  have hne (q : UInt32 × Mac) (hq : q ∈ known) : q.1 ≠ ip := fun h => hmem (h ▸ mem_map_of_mem hq)
  by_cases hfree : known.length < arpTableSize
  · -- the first free entry is behind the last pair
    obtain ⟨n, hn⟩ := Nat.exists_eq_add_of_lt hfree
    refine ⟨known, [], [], by simp, by simp, by simpa using hne, by simp, by simp; omega, ?_⟩
    have hat : At (stopsAt ip) (tableOf known) true (known.map heldEntry) freeEntry
        (replicate n freeEntry) := by
      refine ⟨?_, rfl, fun b hb => ?_⟩
      · rw [tableOf, show arpTableSize - known.length = n + 1 by omega, replicate_succ]
      · obtain ⟨p, hp, rfl⟩ := mem_map.mp hb
        exact hstop p (hne p hp)
    rw [arpLearn_at hat, tableOf, length_append, length_singleton,
      show arpTableSize - (known.length + 1) = n by omega]
    simp
  · -- the table is full
    have hfull : arpTableSize - known.length = 0 := by omega
    rcases known with _ | ⟨q, post⟩
    · exact absurd (by decide) hfree
    refine ⟨[], [q], post, rfl, by simp, fun p hp => hne p (by simp_all), fun h => absurd h hfree,
      hroom, ?_⟩
    rw [arpLearn_full fun b hb => ?_]
    · rw [tableOf, tableOf, hfull, length_append, length_cons, length_nil]
      rw [length_cons] at hfull
      simp [hfull]
    · rw [tableOf, hfull, replicate_zero, append_nil] at hb
      obtain ⟨p, hp, rfl⟩ := mem_map.mp hb
      exact Bool.eq_false_iff.mpr (hstop p (hne p hp))

theorem latest_snoc (learned : List (UInt32 × Mac)) (q : UInt32 × Mac) (ip : UInt32) :
    latest (learned ++ [q]) ip = if q.1 = ip then some q.2 else latest learned ip := by
  unfold latest lastWrite
  by_cases hq : q.1 = ip <;> simp [hq]

/-- Learning keeps what the table holds the latest. -/
theorem holds_learn (h : Holds learned known) (ip : UInt32) (mac : Mac) :
    ∃ known', arpLearn (tableOf known) ip mac = tableOf known' ∧
      Holds (learned ++ [(ip, mac)]) known' ∧ (ip, mac) ∈ known' := by
  obtain ⟨pre, gone, post, rfl, hgone, hne, hsame, hroom, htable⟩ :=
    arpLearn_tableOf h.keys h.room ip mac
  refine ⟨_, htable, ⟨?_, hroom, fun q hq => ?_, fun hfree q hq => ?_⟩, by simp⟩
  · have hrest : ((pre ++ post).map Prod.fst).Nodup := by
      refine h.keys.sublist (List.Sublist.map _ ?_)
      exact (sublist_append_left pre gone).append_right post
    rw [map_append, map_cons, perm_middle.nodup_iff, nodup_cons, ← map_append]
    refine ⟨fun hip => ?_, hrest⟩
    obtain ⟨q, hq, heq⟩ := mem_map.mp hip
    exact hne q hq heq
  · rw [latest_snoc]
    rcases (by simpa using hq : q ∈ pre ∨ q = (ip, mac) ∨ q ∈ post) with hq | rfl | hq
    · rw [if_neg (hne q (by simp [hq])).symm]
      exact h.latest q (by simp [hq])
    · rw [if_pos rfl]
    · rw [if_neg (hne q (by simp [hq])).symm]
      exact h.latest q (by simp [hq])
  · have hroom' : (pre ++ gone ++ post).length < arpTableSize := by
      simp only [length_append, length_cons] at hfree ⊢
      omega
    rcases mem_append.mp hq with hq | hq
    · obtain ⟨p, hp, heq⟩ := h.all hroom' q hq
      rcases (by simpa [or_assoc] using hp : p ∈ pre ∨ p ∈ gone ∨ p ∈ post) with hp | hp | hp
      · exact ⟨p, by simp [hp], heq⟩
      · exact ⟨(ip, mac), by simp, (hsame hroom' p hp).symm.trans heq⟩
      · exact ⟨p, by simp [hp], heq⟩
    · exact ⟨(ip, mac), by simp, by rw [mem_singleton.mp hq]⟩

/-- The table is that of the pairs it holds. -/
theorem exists_holds (learned : List (UInt32 × Mac)) :
    ∃ known, arpTable learned = tableOf known ∧ Holds learned known ∧
      ∀ q, learned.getLast? = some q → q ∈ known := by
  induction learned using reverseRecOn with
  | nil => exact ⟨[], rfl, ⟨nodup_nil, by decide, by simp, by simp⟩, by simp⟩
  | append_singleton learned q ih =>
    obtain ⟨known, htable, hholds, -⟩ := ih
    obtain ⟨known', hlearn, hholds', hmem⟩ := holds_learn hholds q.1 q.2
    refine ⟨known', ?_, hholds', fun p hp => ?_⟩
    · rw [← hlearn, ← htable, arpTable, foldl_append]
      rfl
    · rw [getLast?_concat] at hp
      exact Option.some.inj hp ▸ hmem

/-- A lookup finds the pair with the address. -/
theorem arpLookup_tableOf (hkeys : (known.map Prod.fst).Nodup) :
    arpLookup (tableOf known) ip = some mac ↔ (ip, mac) ∈ known := by
  have hfind : (tableOf known).find? (fun e => e.valid && e.ipv4 == ip) =
      (known.find? fun q => q.1 == ip).map heldEntry := by
    have hfree (n : Nat) : (replicate n freeEntry).find? (fun e => e.valid && e.ipv4 == ip) =
        none := by
      refine find?_eq_none.mpr fun e he => ?_
      rw [eq_of_mem_replicate he]
      simp [freeEntry]
    unfold tableOf
    rw [find?_append, hfree]
    simp [Function.comp_def, heldEntry]
  unfold arpLookup
  rw [hfind, Option.map_map]
  constructor
  · intro h
    obtain ⟨q, hq, rfl⟩ := Option.map_eq_some_iff.mp h
    have hip : q.1 = ip := by simpa using find?_some hq
    exact hip ▸ mem_of_find?_eq_some hq
  · intro h
    cases hq : known.find? (fun q => q.1 == ip) with
    | none => simpa using find?_eq_none.mp hq _ h
    | some q =>
      have hip : q.1 = ip := by simpa using find?_some hq
      obtain rfl := inj_on_of_nodup_map hkeys (mem_of_find?_eq_some hq) h hip
      rfl

theorem mem_of_latest (h : latest learned ip = some mac) : ∃ q ∈ learned, q.1 = ip := by
  rcases lastWrite_eq_iff.mp h with ⟨hnone, -⟩ | ⟨pre, q, post, rfl, hq, -⟩
  · cases hnone
  · exact ⟨q, by simp, (Option.ite_none_right_eq_some.mp hq).1⟩

/-- **What a lookup finds.**  It fails or it finds what was learned last for the address; it
finds the address learned last of all; and it finds every address that was learned as long
as there were at most 32. -/
theorem arp_finds_latest (learned : List (UInt32 × Mac)) :
    (∀ ip mac, arpLookup (arpTable learned) ip = some mac → latest learned ip = some mac) ∧
      (∀ q, learned.getLast? = some q → arpLookup (arpTable learned) q.1 = some q.2) ∧
      ((learned.map Prod.fst).toFinset.card ≤ 32 →
        ∀ q ∈ learned, (arpLookup (arpTable learned) q.1).isSome) := by
  obtain ⟨known, htable, h, hlast⟩ := exists_holds learned
  rw [htable]
  refine ⟨fun ip mac hfound => ?_, fun q hq => ?_, fun hfew q hq => ?_⟩
  · exact h.latest _ ((arpLookup_tableOf h.keys).mp hfound)
  · exact (arpLookup_tableOf h.keys).mpr (hlast q hq)
  · -- a full table holds as many addresses as were learned
    have hheld : ∃ p ∈ known, p.1 = q.1 := by
      by_cases hfree : known.length < arpTableSize
      · exact h.all hfree q hq
      have hsubset : (known.map Prod.fst).toFinset ⊆ (learned.map Prod.fst).toFinset := by
        intro ip hip
        obtain ⟨p, hp, rfl⟩ := mem_map.mp (mem_toFinset.mp hip)
        obtain ⟨q, hq, heq⟩ := mem_of_latest (h.latest p hp)
        exact mem_toFinset.mpr (heq ▸ mem_map_of_mem hq)
      have hcard : (known.map Prod.fst).toFinset.card = arpTableSize := by
        rw [toFinset_card_of_nodup h.keys, length_map]
        exact Nat.le_antisymm h.room (Nat.not_lt.mp hfree)
      have heq := Finset.eq_of_subset_of_card_le hsubset (by rw [hcard]; exact hfew)
      have hmem : q.1 ∈ (known.map Prod.fst).toFinset := by
        rw [heq]
        exact mem_toFinset.mpr (mem_map_of_mem hq)
      exact mem_map.mp (mem_toFinset.mp hmem)
    obtain ⟨p, hp, heq⟩ := hheld
    rw [(arpLookup_tableOf h.keys).mpr (show (q.1, p.2) ∈ known from heq ▸ hp)]
    rfl

end Nv0ken.Net
