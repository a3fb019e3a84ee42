/-
What `decode_chunked` copies.

The size of a chunk is compared with the end of the body only after the position has been added to
it, in 64 bits.  A size close to the largest number passes the comparison, and `memcpy` leaves the
body.  A body that was encoded in chunks has no such size and is decoded.
-/
import Nv0ken.Apps.Browser.HttpClient

namespace Nv0ken.Browser

open List Option Word

variable {body out rest : List UInt8} {pos : Nat}

/-- A body in memory: the positions in it, and the two behind it, have 64-bit numbers. -/
def Body : Type := { body : List UInt8 // body.length + 2 < 2 ^ 64 }

/-- The loop, from a position on, comes to a line where the sum of the position and the size
wraps. -/
@[mk_iff] inductive Wraps (body : List UInt8) : Nat → Prop
  | here {pos line : Nat} : strstr crlf (body.drop pos) = some line →
      2 ^ 64 ≤ pos + line + 2 + chunkSize body pos → Wraps body pos
  | next {pos line : Nat} : strstr crlf (body.drop pos) = some line → chunkSize body pos ≠ 0 →
      pos + line + 2 + chunkSize body pos ≤ body.length →
      Wraps body (pos + line + 2 + chunkSize body pos + 2) → Wraps body pos

theorem not_wraps (h : strstr crlf (body.drop pos) = none) : ¬ Wraps body pos := by
  rw [wraps_iff]
  simp [h]

theorem wraps_iff_of_line {line : Nat} (h : strstr crlf (body.drop pos) = some line) :
    Wraps body pos ↔
    2 ^ 64 ≤ pos + line + 2 + chunkSize body pos ∨ chunkSize body pos ≠ 0 ∧
      pos + line + 2 + chunkSize body pos ≤ body.length ∧
        Wraps body (pos + line + 2 + chunkSize body pos + 2) := by
  rw [wraps_iff]
  simp [h]

theorem strstr_le {needle s : List UInt8} {n : Nat} (h : strstr needle s = some n) :
    n + needle.length ≤ s.length := by
  induction s generalizing n with
  | nil => cases h
  | cons c s ih =>
    rw [strstr] at h
    split_ifs at h with hnul hhere
    · obtain rfl := some.inj h
      simpa using hhere.length_le
    · obtain ⟨k, hk, rfl⟩ := map_eq_some_iff.mp h
      have := ih hk
      rw [length_cons]
      omega

/-- What has been written is not longer than what has been read. -/
theorem decodeLoop_safe_iff (hbody : body.length < 2 ^ 64) (hpos : out.length ≤ pos)
    (hout : out.length ≤ body.length) :
    (∃ r, decodeLoop body pos out = some r ∧ r.length ≤ body.length) ↔ ¬ Wraps body pos := by
  fun_induction decodeLoop body pos out with
  | case1 pos out hlt hnone => exact iff_of_true ⟨out, rfl, hout⟩ (not_wraps hnone)
  | case2 pos out hlt line hline hstop =>
    have hstart := strstr_le hline
    have hsize : chunkSize body pos < 2 ^ 64 := BitVec.isLt _
    rw [length_drop] at hstart
    change line + 2 ≤ _ at hstart
    unfold u64 at hstop
    rw [wraps_iff_of_line hline]
    exact iff_of_true ⟨out, rfl, hout⟩ (by omega)
  | case3 pos out hlt line hline hgo hroom ih =>
    rw [ih (by simp; omega) (by simp; omega), wraps_iff_of_line hline]
    have : ¬ 2 ^ 64 ≤ pos + line + 2 + chunkSize body pos := by omega
    simp_all
  | case4 pos out hlt line hline hgo hfull =>
    unfold u64 at hgo
    rw [wraps_iff_of_line hline]
    refine iff_of_false nofun fun h => ?_
    omega
  | case5 pos out hend =>
    refine iff_of_true ⟨out, rfl, hout⟩ (not_wraps ?_)
    rw [drop_of_length_le (Nat.not_lt.mp hend)]
    rfl

/-- **`decode_chunked` ends, copies only from inside the body and writes no more bytes than it has,
exactly when it comes to no size that makes its sum with the position wrap.** -/
theorem decodeChunked_safe_iff (memory : Bool) (body : Body) :
    (∃ r, decodeChunked memory body.val = some r ∧ ∀ out ∈ r, out.length ≤ body.val.length) ↔
      (memory = true → ¬ Wraps body.val 0) := by
  have hbody := body.property
  have hloop := @decodeLoop_safe_iff body.val [] 0 (by omega) (Nat.le_refl 0) (Nat.zero_le _)
  unfold decodeChunked
  cases memory with
  | false => simp
  | true => simp [← hloop]

/-- The body `-1` and a line end: all of memory is copied. -/
theorem minus_one_leaves : decodeChunked true [45, 49, 13, 10] = none := by
  rw [decodeChunked, decodeLoop]
  rfl

/-! ### Bodies that were encoded -/

/-- A hexadecimal digit, with a capital or a small letter. -/
def hexChar (d : Fin 16 × Bool) : UInt8 :=
  .ofNat (if d.1.val < 10 then 48 + d.1.val else if d.2 then 55 + d.1.val else 87 + d.1.val)

def hexValue (n : Nat) (ds : List (Fin 16 × Bool)) : Nat := ds.foldl (fun n d => n * 16 + d.1.val) n

/-- A chunk with the digits of its size and its extensions, which begin with a semicolon or a
blank. -/
structure Chunk where
  data : List UInt8
  size : List (Fin 16 × Bool)
  ext : List UInt8
  size_ne : size ≠ []
  size_eq : hexValue 0 size = data.length
  ext_head : ∀ c ∈ ext.head?, c ∈ [9, 32, 59]
  nul : 0 ∉ size.map hexChar ++ ext
  lineEnd : ¬ crlf <:+: size.map hexChar ++ ext

def Chunk.line (c : Chunk) : List UInt8 := c.size.map hexChar ++ c.ext

/-- The chunks, and what follows them. -/
def encoded (rest : List UInt8) : List Chunk → List UInt8
  | [] => rest
  | c :: chunks => c.line ++ (crlf ++ (c.data ++ (crlf ++ encoded rest chunks)))

theorem strstr_line (c : Chunk) : strstr crlf (c.line ++ (crlf ++ rest)) = some c.line.length := by
  have hnul : 0 ∉ c.line := c.nul
  have hend : ¬ crlf <:+: c.line := c.lineEnd
  generalize c.line = l at *
  induction l with
  | nil => rfl
  | cons c l ih =>
    rw [mem_cons, not_or] at hnul
    rw [infix_cons_iff, not_or] at hend
    have hhere : ¬ crlf <+: c :: (l ++ (crlf ++ rest)) := by
      cases l with
      | nil => simp [crlf, cons_prefix_cons]
      | cons b l => simpa [crlf, cons_prefix_cons] using hend.1
    rw [cons_append, strstr, if_neg (Ne.symm hnul.1), if_neg hhere, ih hnul.2 hend.2]
    rfl

theorem digit_hexChar (d : Fin 16 × Bool) : digit (hexChar d) = some d.1.val := by
  have hall : ∀ a : Fin 16, ∀ b : Bool, digit (hexChar (a, b)) = some a.val := by decide
  exact hall d.1 d.2

theorem digitsLoop_hex (hrest : ∀ c ∈ rest.head?, digit c = none) (ds : List (Fin 16 × Bool))
    (n : Nat) :
    digitsLoop 16 (BitVec.ofNat 64 n) (ds.map hexChar ++ rest) =
      BitVec.ofNat 64 (hexValue n ds) := by
  induction ds generalizing n with
  | nil =>
    cases rest with
    | nil => rfl
    | cons c rest =>
      rw [map_nil, nil_append, digitsLoop, hrest c rfl]
      rfl
  | cons d ds ih =>
    rw [map_cons, cons_append, digitsLoop, digit_hexChar]
    simpa [BitVec.ofNat_add, BitVec.ofNat_mul, hexValue] using ih (n * 16 + d.1.val)

theorem chunkSize_line (c : Chunk) (hsize : c.data.length < 2 ^ 64)
    (h : body.drop pos = c.line ++ (crlf ++ rest)) : chunkSize body pos = c.data.length := by
  have hrest : ∀ b ∈ (c.ext ++ (crlf ++ rest)).head?, digit b = none := by
    have hall : ∀ b ∈ [9, 32, 59], digit b = none := by simp [digit]
    cases hext : c.ext with
    | nil => simp [crlf, digit]
    | cons a l => simpa using hall a (c.ext_head a (by rw [hext]; rfl))
  obtain ⟨d, ds, hds⟩ := exists_cons_of_ne_nil c.size_ne
  have hloop := digitsLoop_hex hrest c.size 0
  rw [c.size_eq, hds] at hloop
  have hfirst (b : UInt8) (hb : digit b = none) : hexChar d ≠ b := by
    rintro rfl
    cases hb.symm.trans (digit_hexChar d)
  -- the digits do not begin with `0x`
  have hnext : ∀ b ∈ (ds.map hexChar ++ (c.ext ++ (crlf ++ rest))).head?, digit b ≠ some 33 := by
    cases ds with
    | nil => exact fun b hb => by simp [hrest b hb]
    | cons d ds =>
      simp [digit_hexChar]
      omega
  have hbase : ∀ b, digit b = some 33 →
      (ds.map hexChar ++ (c.ext ++ (crlf ++ rest)))[0]? ≠ some b :=
    fun b hb h => hnext b (head?_eq_getElem? ▸ h) hb
  rw [chunkSize, h, Chunk.line, append_assoc, hds, strtoul, strtol, map_cons, cons_append,
    dropWhile_cons_of_neg (by simp [hfirst 32 (by decide), hfirst 9 (by decide)])]
  simp only [head?_cons, some.injEq, hfirst 43 (by decide), hfirst 45 (by decide), false_or,
    if_false, strtolBase,
    getElem?_cons_succ, hbase 120 (by decide), hbase 88 (by decide), and_false, Nat.reduceEqDiff]
  exact (congrArg BitVec.toNat hloop).trans (Nat.mod_eq_of_lt hsize)

theorem decodeLoop_encoded {last : Chunk} (hlast : last.data = []) (hbody : body.length < 2 ^ 64)
    {chunks : List Chunk} (hchunks : ∀ c ∈ chunks, c.data ≠ [])
    (h : body.drop pos = encoded (last.line ++ (crlf ++ rest)) chunks) (hout : out.length ≤ pos) :
    decodeLoop body pos out = some (out ++ chunks.flatMap Chunk.data) := by
  induction chunks generalizing pos out with
  | nil =>
    have hlen := congrArg length h
    simp only [encoded, length_append, length_drop, crlf, length_cons] at hlen
    have hsize : chunkSize body pos = 0 :=
      (chunkSize_line last (by simp [hlast]) h).trans (by simp [hlast])
    rw [decodeLoop, if_pos (by omega), h, encoded, strstr_line last]
    simp [hsize]
  | cons c chunks ih =>
    have hdata : body.drop (pos + c.line.length + 2) =
        c.data ++ (crlf ++ encoded (last.line ++ (crlf ++ rest)) chunks) := by
      rw [← drop_drop, ← drop_drop, h, encoded, drop_left]
      rfl
    have hnext : body.drop (pos + c.line.length + 2 + c.data.length + 2) =
        encoded (last.line ++ (crlf ++ rest)) chunks := by
      rw [← drop_drop, ← drop_drop, hdata, drop_left]
      rfl
    have hlen := congrArg length hdata
    rw [length_drop, length_append] at hlen
    have hpos := length_pos_iff.mpr (hchunks c mem_cons_self)
    have hsize : chunkSize body pos = c.data.length := chunkSize_line c (by omega) h
    have hfits : pos + c.line.length + 2 + c.data.length ≤ body.length := by omega
    rw [decodeLoop, if_pos (by omega), h, encoded, strstr_line c]
    change (if _ ∨ u64 (pos + c.line.length + 2 + _) > _ then _ else _) = _
    rw [hsize, if_neg, if_pos ⟨hfits, by omega⟩, hdata, take_left,
      ih (fun c hc => hchunks c (mem_cons_of_mem _ hc)) hnext, append_assoc]
    · rfl
    · rw [length_append]
      omega
    · unfold u64
      omega

/-- **What was encoded in chunks is decoded.**  Behind the line of the last chunk there may be
anything. -/
theorem decodeChunked_encoded (chunks : List Chunk) (hchunks : ∀ c ∈ chunks, c.data ≠ [])
    (last : Chunk) (hlast : last.data = []) (rest : List UInt8)
    (hbody : (encoded (last.line ++ (crlf ++ rest)) chunks).length < 2 ^ 64) :
    decodeChunked true (encoded (last.line ++ (crlf ++ rest)) chunks) =
      some (some (chunks.flatMap Chunk.data)) := by
  have hloop := @decodeLoop_encoded _ [] rest 0 last hlast hbody chunks hchunks rfl (Nat.le_refl 0)
  rw [decodeChunked, if_pos rfl, hloop]
  rfl

/-- The three bytes CR, LF and NUL in the chunk `3;x`, and the last chunk `0`. -/
theorem decodeChunked_encoded_three :
    decodeChunked true [51, 59, 120, 13, 10, 13, 10, 0, 13, 10, 48, 13, 10, 13, 10] =
      some (some [13, 10, 0]) :=
  decodeChunked_encoded [⟨[13, 10, 0], [(3, true)],
    [59, 120], by decide, by decide, by simp, by decide, by decide⟩]
    (by decide) ⟨[], [(0, true)], [], by decide, by decide, by simp, by decide, by decide⟩ rfl
    [13, 10] (by decide)

end Nv0ken.Browser
