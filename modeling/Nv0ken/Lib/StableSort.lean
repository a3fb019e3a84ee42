/-
Insertion sort in an array, by an integer key.

Each element is taken out and moved towards the front past all that are greater, so
elements of one key keep their order.  Everything said about the result follows from
`sortBy_pairwise`: of two elements the first has the smaller key, or the same key and it
came first before.  The two other results say what becomes of a sorted list in which one
element got a greater or a smaller key.
-/
import Mathlib.Data.List.DropRight
import Mathlib.Data.Int.Order.Basic

namespace Nv0ken.StableSort

open List

variable {α : Type*} {key : α → Int} {R : α → α → Prop} {l x y : List α} {a b : α}

/-- The element goes in front of the greater ones at the end of the list. -/
def insertLast (key : α → Int) (l : List α) (a : α) : List α :=
  l.rdropWhile (fun b => key a < key b) ++ a :: l.rtakeWhile (fun b => key a < key b)

def sortBy (key : α → Int) (l : List α) : List α := l.foldl (insertLast key) []

/-- The keys grow. -/
def Sorted (key : α → Int) (l : List α) : Prop := l.Pairwise fun a b => key a ≤ key b

theorem sorted_iff_map : Sorted key l ↔ (l.map key).Pairwise (· ≤ ·) := List.pairwise_map.symm

/-- The order of the result, when `R` is the order of before. -/
def Stable (key : α → Int) (R : α → α → Prop) (a b : α) : Prop :=
  key a < key b ∨ key a = key b ∧ R a b

theorem Stable.le (h : Stable key R a b) : key a ≤ key b := by
  rcases h with h | ⟨h, -⟩ <;> exact h.le

theorem rdropWhile_append_rtakeWhile (p : α → Bool) (l : List α) :
    l.rdropWhile p ++ l.rtakeWhile p = l := by
  unfold rdropWhile rtakeWhile
  rw [← reverse_append, takeWhile_append_dropWhile, reverse_reverse]

theorem insertLast_perm (l : List α) (a : α) : (insertLast key l a).Perm (a :: l) := by
  refine perm_middle.trans (Perm.cons a (Perm.of_eq ?_))
  exact rdropWhile_append_rtakeWhile _ l

theorem insertLast_of_forall_le (h : ∀ b ∈ l, key b ≤ key a) : insertLast key l a = l ++ [a] := by
  have hnone : l.rtakeWhile (fun b => key a < key b) = [] := by
    rw [rtakeWhile_eq_nil_iff]
    intro hl
    simpa using h _ (getLast_mem hl)
  have hsplit := rdropWhile_append_rtakeWhile (fun b => decide (key a < key b)) l
  rw [hnone, append_nil] at hsplit
  unfold insertLast
  rw [hnone, hsplit]

/-- The first element without the property has only such behind it, if no element has it after one
that does not. -/
theorem not_of_mem_dropWhile {p : α → Bool} (h : l.Pairwise fun a b => p b → p a)
    (hb : b ∈ l.dropWhile p) : ¬ p b := by
  induction l with
  | nil => simp at hb
  | cons a l ih =>
    obtain ⟨hal, hl⟩ := pairwise_cons.mp h
    by_cases ha : p a
    · rw [dropWhile_cons_of_pos ha] at hb
      exact ih hl hb
    · rw [dropWhile_cons_of_neg ha] at hb
      rcases mem_cons.mp hb with rfl | hb
      · exact ha
      · exact fun hpb => ha (hal b hb hpb)

/-- What stays in front is not greater. -/
theorem le_of_mem_rdropWhile (hl : Sorted key l)
    (hb : b ∈ l.rdropWhile fun b => key a < key b) : key b ≤ key a := by
  have hback : l.reverse.Pairwise fun b c => key a < key c → key a < key b :=
    pairwise_reverse.mpr (hl.imp fun hle hlt => hlt.trans_le hle)
  simpa using not_of_mem_dropWhile (by simpa using hback) (mem_reverse.mp hb)

theorem lt_of_mem_rtakeWhile (hb : b ∈ l.rtakeWhile fun b => key a < key b) : key a < key b := by
  simpa using mem_rtakeWhile_imp hb

/-- One element more. -/
theorem insertLast_pairwise (hl : l.Pairwise (Stable key R)) (ha : ∀ b ∈ l, R b a) :
    (insertLast key l a).Pairwise (Stable key R) := by
  have hsorted : Sorted key l := hl.imp Stable.le
  have hsplit := rdropWhile_append_rtakeWhile (fun b => decide (key a < key b)) l
  have hparts := hl
  rw [← hsplit, pairwise_append] at hparts
  obtain ⟨hfront, hback, hcross⟩ := hparts
  unfold insertLast
  rw [pairwise_append, pairwise_cons]
  refine ⟨hfront, ⟨fun c hc => Or.inl (lt_of_mem_rtakeWhile hc), hback⟩, fun b hb c hc => ?_⟩
  rcases mem_cons.mp hc with rfl | hc
  · rcases (le_of_mem_rdropWhile hsorted hb).lt_or_eq with hlt | heq
    · exact Or.inl hlt
    · exact Or.inr ⟨heq, ha b (( rdropWhile_prefix _ l).subset hb)⟩
  · exact hcross b hb c hc

theorem foldl_insertLast_perm (l x : List α) : (l.foldl (insertLast key) x).Perm (x ++ l) := by
  induction l generalizing x with
  | nil => simp
  | cons a l ih =>
    refine (ih _).trans ?_
    exact ((insertLast_perm x a).append_right l).trans (by simpa using perm_middle.symm)

theorem sortBy_perm (l : List α) : (sortBy key l).Perm l := foldl_insertLast_perm l []

theorem foldl_insertLast_pairwise (hx : x.Pairwise (Stable key R)) (hl : l.Pairwise R)
    (hxl : ∀ b ∈ x, ∀ a ∈ l, R b a) : (l.foldl (insertLast key) x).Pairwise (Stable key R) := by
  -- the part in front is sorted, and all of it stood in front of the rest
  induction l generalizing x with
  | nil => exact hx
  | cons a l ih =>
    rw [pairwise_cons] at hl
    refine ih (insertLast_pairwise hx fun b hb => hxl b hb a (by simp)) hl.2 fun b hb c hc => ?_
    rcases mem_cons.mp ((insertLast_perm x a).mem_iff.mp hb) with rfl | hb
    · exact hl.1 c hc
    · exact hxl b hb c (by simp [hc])

/-- **The sort is stable**: of two elements in the result the first has the smaller key, or
they have the same key and their old order. -/
theorem sortBy_pairwise (hl : l.Pairwise R) : (sortBy key l).Pairwise (Stable key R) :=
  foldl_insertLast_pairwise Pairwise.nil hl (by simp)

theorem sortBy_sorted (l : List α) : Sorted key (sortBy key l) :=
  (sortBy_pairwise (pairwise_of_forall fun _ _ => trivial) (R := fun _ _ => True)).imp
    Stable.le

theorem foldl_insertLast_sorted (h : Sorted key (x ++ l)) :
    l.foldl (insertLast key) x = x ++ l := by
  induction l generalizing x with
  | nil => simp
  | cons a l ih =>
    have hle : ∀ b ∈ x, key b ≤ key a := fun b hb => (pairwise_append.mp h).2.2 b hb a (by simp)
    rw [foldl_cons, insertLast_of_forall_le hle, ih]
    · simp
    · simpa using h

theorem sortBy_of_sorted (h : Sorted key l) : sortBy key l = l := foldl_insertLast_sorted h

/-- An element added behind the others stays there if none is greater. -/
theorem sortBy_concat_last (h : ∀ b ∈ l, key b ≤ key a) :
    (sortBy key (l ++ [a]))[l.length]? = some a := by
  have hperm : (sortBy key l).Perm l := sortBy_perm l
  have hall : ∀ b ∈ sortBy key l, key b ≤ key a := fun b hb => h b (hperm.mem_iff.mp hb)
  have hconcat : sortBy key (l ++ [a]) = sortBy key l ++ [a] := by
    rw [← insertLast_of_forall_le hall]
    unfold sortBy
    rw [foldl_append]
    rfl
  rw [hconcat, ← hperm.length_eq, getElem?_concat_length]

/-- What stands there is the greatest. -/
theorem le_of_sortBy_last (h : (sortBy key (l ++ [a]))[l.length]? = some b) :
    ∀ c ∈ l ++ [a], key c ≤ key b := by
  intro c hc
  have hperm : (sortBy key (l ++ [a])).Perm (l ++ [a]) := sortBy_perm _
  have hlength : (sortBy key (l ++ [a])).length = l.length + 1 := by
    rw [hperm.length_eq, length_append, length_singleton]
  have hsorted : Sorted key (sortBy key (l ++ [a])) := sortBy_sorted _
  obtain ⟨hlt, rfl⟩ := List.getElem?_eq_some_iff.mp h
  obtain ⟨j, hj, rfl⟩ := getElem_of_mem (hperm.mem_iff.mpr hc)
  rcases Nat.lt_or_ge j l.length with hjl | hjl
  · exact pairwise_iff_getElem.mp hsorted j l.length hj hlt hjl
  · obtain rfl : j = l.length := by omega
    exact le_refl _

theorem sortBy_append_cons (hx : Sorted key x) :
    sortBy key (x ++ a :: y) = y.foldl (insertLast key) (insertLast key x a) := by
  unfold sortBy
  rw [foldl_append]
  exact congrArg (fun z => y.foldl (insertLast key) (insertLast key z a)) (sortBy_of_sorted hx)

theorem insertLast_sorted (hx : Sorted key x) : Sorted key (insertLast key x a) := by
  have hstable : x.Pairwise (Stable key fun _ _ => True) :=
    hx.imp fun hle => hle.lt_or_eq.imp_right fun heq => ⟨heq, trivial⟩
  exact (insertLast_pairwise hstable fun _ _ => trivial).imp Stable.le

/-- **An element that got a smaller key** moves in front of the greater ones before it. -/
theorem sortBy_lower (h : Sorted key (x ++ y)) (ha : ∀ b ∈ y, key a ≤ key b) :
    sortBy key (x ++ a :: y) = insertLast key x a ++ y := by
  obtain ⟨hx, hy, hxy⟩ := pairwise_append.mp h
  rw [sortBy_append_cons hx, foldl_insertLast_sorted]
  refine pairwise_append.mpr ⟨insertLast_sorted hx, hy, fun b hb c hc => ?_⟩
  rcases mem_cons.mp ((insertLast_perm x a).mem_iff.mp hb) with rfl | hb
  · exact ha c hc
  · exact hxy b hb c hc

theorem insertLast_concat (hb : key b < key a) :
    insertLast key (x ++ [a]) b = insertLast key x b ++ [a] := by
  unfold insertLast
  rw [rdropWhile_concat_pos _ _ _ (by simpa using hb),
    rtakeWhile_concat_pos _ _ _ (by simpa using hb)]
  simp

/-- **An element that got a greater key** moves behind the smaller ones after it. -/
theorem sortBy_raise (h : Sorted key (x ++ y)) (ha : ∀ b ∈ x, key b ≤ key a) :
    sortBy key (x ++ a :: y) =
      x ++ (y.takeWhile (fun b => key b < key a) ++ a :: y.dropWhile fun b => key b < key a) := by
  rw [sortBy_append_cons (pairwise_append.mp h).1, insertLast_of_forall_le ha]
  -- each smaller element goes in front of the one that was raised
  induction y generalizing x with
  | nil => simp
  | cons b y ih =>
    obtain ⟨hx, hy, hxy⟩ := pairwise_append.mp h
    by_cases hb : key b < key a
    · rw [foldl_cons, insertLast_concat hb,
        insertLast_of_forall_le fun c hc => hxy c hc b (by simp), ih (by simpa using h)]
      · simp [hb]
      · intro c hc
        rcases mem_append.mp hc with hc | hc
        · exact ha c hc
        · exact mem_singleton.mp hc ▸ hb.le
    · have hab : ∀ c ∈ b :: y, key a ≤ key c := by
        intro c hc
        rcases mem_cons.mp hc with rfl | hc
        · exact not_lt.mp hb
        · exact (not_lt.mp hb).trans ((pairwise_cons.mp hy).1 c hc)
      rw [foldl_insertLast_sorted]
      · simp [hb]
      · rw [append_assoc]
        refine pairwise_append.mpr ⟨hx, pairwise_cons.mpr ⟨hab, hy⟩, fun c hc d hd => ?_⟩
        rcases mem_cons.mp hd with rfl | hd
        · exact ha c hc
        · exact hxy c hc d hd

theorem lt_of_mem_dropWhile {m : Int} (h : Sorted key l)
    (hb : b ∈ l.dropWhile fun b => key b ≤ m) : m < key b := by
  have hfront : l.Pairwise fun b c => key c ≤ m → key b ≤ m := h.imp fun hle hm => hle.trans hm
  simpa using not_of_mem_dropWhile (by simpa using hfront) hb

end Nv0ken.StableSort
