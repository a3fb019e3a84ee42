/-
The archive format of the ramdisk, and how the loader reads it.

`Encodes entries image` says that the image is an archive of these entries: for each a header block
and the data of the file, filled up to a whole number of blocks, and at the end a block of zeros,
whatever comes behind it.  Of a header only the fields are fixed that say what the entry is; the
others may hold anything.  `loadLoop_eq` says that on such an image the loop over the bytes is the
loop over the entries.
-/
import Nv0ken.Kernel.Fs.Initrd

namespace Nv0ken.Fs

open Buffer Word List

variable {heap : Heap} {s : Vfs} {image header field digits a : List UInt8} {n offset : Nat}
  {entries : List Entry}

/-! ### Archives -/

/-- What an entry stands for.  A file may have the type of older archives, a zero byte. -/
inductive Content
  | directory
  | file (old : Bool) (data : List UInt8)
  deriving DecidableEq

structure Entry where
  name : List UInt8
  directory : List UInt8
  content : Content
  deriving DecidableEq

def Content.data : Content → List UInt8
  | .directory => []
  | .file _ data => data

def Content.flag : Content → UInt8
  | .directory => 53
  | .file true _ => 0
  | .file false _ => 48

/-- The archived path. -/
def Entry.path (e : Entry) : List UInt8 := joinName e.directory e.name

/-- The value of octal digits. -/
def octalValue (digits : List UInt8) : Nat := digits.foldl (fun v d => v * 8 + (d.toNat - 48)) 0

/-- A number in octal digits; blanks may stand before it, and blanks and zeros behind it. -/
structure OctalField (field : List UInt8) (n : Nat) : Prop where
  split : ∃ lead digits trail, field = lead ++ digits ++ trail ∧ (∀ b ∈ lead, b = 32) ∧
    (∀ d ∈ digits, 48 ≤ d ∧ d ≤ 55) ∧ (∀ b ∈ trail, b = 0 ∨ b = 32) ∧ octalValue digits = n

/-- The header block of an entry.  A text ends with its field or with a zero byte. -/
structure HeaderOf (header : List UInt8) (e : Entry) : Prop where
  length_eq : header.length = tarBlockSize
  named : e.name ≠ []
  name_eq : (headerName header).takeWhile (· ≠ 0) = e.name
  directory_eq : (headerPrefix header).takeWhile (· ≠ 0) = e.directory
  size : OctalField (headerSize header) e.content.data.length
  type_eq : headerType header = e.content.flag

inductive Encodes : List Entry → List UInt8 → Prop
  | done (rest : List UInt8) : Encodes [] (List.replicate tarBlockSize 0 ++ rest)
  | entry {e : Entry} {entries : List Entry} {header padding rest : List UInt8}
    (hheader : HeaderOf header e)
      (hpadding : padding.length < tarBlockSize)
      (hblocks : tarBlockSize ∣ e.content.data.length + padding.length) (h : Encodes entries rest) :
      Encodes (e :: entries) (header ++ e.content.data ++ padding ++ rest)

/-! ### Headers -/

theorem octalLoop_skip {lead : List UInt8} (h : ∀ b ∈ lead, b = 0 ∨ b = 32) (parsed : Nat)
    (text : List UInt8) : octalLoop parsed (lead ++ text) = octalLoop parsed text := by
  induction lead with
  | nil => rfl
  | cons b lead ih =>
    rw [forall_mem_cons] at h
    rw [cons_append, octalLoop, if_pos h.1, ih h.2]

/-- Twelve digits do not overflow: the number stays far below the limit. -/
theorem octalLoop_digits (hdigits : ∀ d ∈ digits, 48 ≤ d ∧ d ≤ 55) (parsed : Nat)
    (text : List UInt8) (hroom : (parsed + 1) * 8 ^ digits.length ≤ 2 ^ 60) :
    octalLoop parsed (digits ++ text)
      = octalLoop (digits.foldl (fun v d => v * 8 + (d.toNat - 48)) parsed) text := by
  induction digits generalizing parsed with
  | nil => rfl
  | cons d digits ih =>
    rw [forall_mem_cons] at hdigits
    have hd : 48 ≤ d.toNat ∧ d.toNat ≤ 55 := hdigits.1
    have hzero : ¬ (d = 0 ∨ d = 32) := by
      rintro (rfl | rfl) <;> exact absurd hd.1 (by decide)
    have hpow : 1 ≤ 8 ^ digits.length := Nat.one_le_pow _ _ (by decide)
    rw [length_cons, Nat.pow_succ, Nat.mul_comm (8 ^ digits.length), ← Nat.mul_assoc] at hroom
    have hparsed : (parsed + 1) * 8 ≤ 2 ^ 60 := Nat.le_trans (Nat.le_mul_of_pos_right _ hpow) hroom
    have hdigit : ¬ (d < 48 ∨ 55 < d ∨ (2 ^ 64 - 1) / 8 < parsed) := by
      rintro (hlow | hhigh | hbig)
      · have : d.toNat < 48 := hlow
        omega
      · have : 55 < d.toNat := hhigh
        omega
      · omega
    rw [cons_append, octalLoop, if_neg hzero, if_neg hdigit, ih hdigits.2 _ ?_]
    · rfl
    · have hnext : (parsed * 8 + (d.toNat - 48) + 1) * 8 ^ digits.length
          ≤ ((parsed + 1) * 8) * 8 ^ digits.length := Nat.mul_le_mul_right _ (by omega)
      exact Nat.le_trans hnext hroom

theorem parseOctal_eq (h : OctalField field n) (hlen : field.length = 12) :
    parseOctal field = some n := by
  obtain ⟨lead, digits, trail, rfl, hlead, hdigits, htrail, hvalue⟩ := h.split
  have hcount : digits.length ≤ 12 := by
    simp only [length_append] at hlen
    omega
  have hroom : (0 + 1) * 8 ^ digits.length ≤ 2 ^ 60 := by
    calc (0 + 1) * 8 ^ digits.length = 8 ^ digits.length := Nat.one_mul _
      _ ≤ 8 ^ 12 := Nat.pow_le_pow_right (by decide) hcount
      _ ≤ 2 ^ 60 := by decide
  have hend : octalLoop n trail = some n := by
    have hskip := octalLoop_skip htrail n []
    rwa [append_nil] at hskip
  unfold parseOctal
  rw [append_assoc, octalLoop_skip (fun b hb => Or.inr (hlead b hb)),
    octalLoop_digits hdigits 0 trail hroom]
  show octalLoop (octalValue digits) trail = some n
  rw [hvalue, hend]

theorem length_slice_le (buf : List UInt8) (off n : Nat) : (slice buf off n).length ≤ n := by
  unfold slice
  rw [length_take]
  omega

theorem copyField_eq {outputSize : Nat} (h : field.length < outputSize) :
    copyField outputSize field = field.takeWhile (· ≠ 0) := by
  have hlen := (takeWhile_sublist (l := field) (· ≠ 0)).length_le
  exact if_neg (by omega)

theorem tarPath_eq {e : Entry} (h : HeaderOf header e) :
    tarPath header pathMax = if e.path.length < pathMax then some e.path else none := by
  have hname := length_slice_le header 0 100
  have hdirectory := length_slice_le header 345 155
  unfold tarPath
  rw [copyField_eq (show (headerName header).length < 101 by unfold headerName; omega),
    copyField_eq (show (headerPrefix header).length < 156 by unfold headerPrefix; omega),
    h.name_eq, h.directory_eq]
  rw [if_neg h.named]
  show (if e.path.length + 1 > pathMax then none else some e.path) = _
  split_ifs with hlong hfits hfits
  · omega
  · rfl
  · rfl
  · omega

/-- A header is no block of zeros: it holds a name. -/
theorem not_isZeroBlock {e : Entry} (h : HeaderOf header e) : ¬ isZeroBlock header = true := by
  intro hzero
  apply h.named
  rw [← h.name_eq]
  have hall : ∀ b ∈ header, b = 0 := by simpa [isZeroBlock] using hzero
  cases hfield : headerName header with
  | nil => rfl
  | cons b rest =>
    have hb : b = 0 := by
      apply hall b
      apply mem_of_mem_drop (i := 0)
      apply mem_of_mem_take (i := 100)
      have : slice header 0 100 = b :: rest := hfield
      unfold slice at this
      rw [this]
      exact mem_cons_self ..
    rw [takeWhile_cons_of_neg (by simpa using hb)]

/-! ### The loop -/

/-- The loop over the entries of an archive. -/
def loadAll (heap : Heap) (loaded : Nat) : List Entry → Vfs → Option (Vfs × Int)
  | [], s => some (s, loaded)
  | e :: entries, s =>
    if e.path.length < pathMax then
      match loadEntry heap loaded s e.content.flag e.path e.content.data with
      | none => none
      | some (s, false) => some (s, -1)
      | some (s, true) => if loaded + 1 < 2 ^ 31 then loadAll heap (loaded + 1) entries s else none
    else some (s, -1)

/-- The mask clears the last nine bits of a number of 32 bits. -/
theorem mask_eq {n : Nat} (h : n < 2 ^ 32) : n &&& 0xFFFFFE00 = n / 512 * 512 := by
  have hmask : 0xFFFFFE00 = (2 ^ 23 - 1) * 2 ^ 9 := by decide
  have hpow : 512 = 2 ^ 9 := by decide
  apply Nat.eq_of_testBit_eq
  intro i
  rw [Nat.testBit_and, hmask, hpow, Nat.testBit_mul_two_pow, Nat.testBit_mul_two_pow,
    Nat.testBit_two_pow_sub_one, Nat.testBit_div_two_pow]
  by_cases hlow : 9 ≤ i
  · rw [Nat.sub_add_cancel hlow]
    by_cases hhigh : i < 32
    · simp [hlow, show i - 9 < 23 by omega]
    · have hzero : n.testBit i = false :=
        Nat.testBit_lt_two_pow (Nat.lt_of_lt_of_le h (Nat.pow_le_pow_right (by decide) (by omega)))
      simp [hzero]
  · simp [hlow]

theorem paddedSize_eq {fileSize padding : Nat} (hsize : fileSize < 2 ^ 31)
    (hpadding : padding < tarBlockSize)
    (hblocks : tarBlockSize ∣ fileSize + padding) : paddedSize fileSize = fileSize + padding := by
  unfold tarBlockSize at *
  unfold paddedSize
  rw [u64_of_lt (by omega), mask_eq (by omega)]
  omega

section

variable {b : List UInt8} (h : image.drop offset = a ++ b)
include h

theorem drop_eq_of_append : image.drop (offset + a.length) = b := by
  rw [← drop_drop, h, drop_left]

theorem slice_eq_of_append : slice image offset a.length = a := by
  unfold slice
  rw [h, take_left]

end

theorem length_of_drop (h : image.drop offset = a) (hpos : 0 < a.length) :
    image.length = offset + a.length := by
  have hlen := congrArg length h
  rw [length_drop] at hlen
  omega

theorem isZeroBlock_replicate (n : Nat) : isZeroBlock (List.replicate n 0) = true := by
  unfold isZeroBlock
  simp

/-- **On an archive, the loop over the image is the loop over the entries.** -/
theorem loadLoop_eq {bytes : List UInt8} (h : Encodes entries bytes)
    (hsizes : ∀ e ∈ entries, e.content.data.length < 2 ^ 31) (fuel offset loaded : Nat) (s : Vfs)
    (himage : image.drop offset = bytes) (hfuel : entries.length < fuel) :
    loadLoop heap image fuel offset loaded s = loadAll heap loaded entries s := by
  induction h generalizing fuel offset loaded s with
  | done rest =>
    obtain ⟨fuel, rfl⟩ : ∃ k, fuel = k + 1 := ⟨fuel - 1, by simp at hfuel; omega⟩
    have hpos : 0 < tarBlockSize := Nat.zero_lt_succ _
    have hlen := length_of_drop himage (by rw [length_append, length_replicate]; omega)
    have hslice := slice_eq_of_append himage
    rw [length_append, length_replicate] at hlen
    rw [length_replicate] at hslice
    have hzero := isZeroBlock_replicate tarBlockSize
    rw [loadLoop, if_neg (by omega), hslice]
    rw [if_pos hzero]
    rfl
  | @entry e entries header padding rest hheader hpadding hblocks henc ih =>
    obtain ⟨fuel, rfl⟩ : ∃ k, fuel = k + 1 := ⟨fuel - 1, by simp at hfuel; omega⟩
    rw [forall_mem_cons] at hsizes
    rw [append_assoc, append_assoc] at himage
    have hblock : header.length = tarBlockSize := hheader.length_eq
    have hlen := length_of_drop himage (by rw [length_append]; omega)
    have hslice := slice_eq_of_append himage
    have hdata := drop_eq_of_append himage
    rw [hblock] at hslice hdata
    have hbytes := slice_eq_of_append hdata
    have hpad := drop_eq_of_append hdata
    have hrest := drop_eq_of_append hpad
    have hpadded := paddedSize_eq hsizes.1 hpadding hblocks
    have hsize : parseOctal (headerSize header) = some e.content.data.length := by
      refine parseOctal_eq hheader.size ?_
      unfold headerSize slice
      rw [length_take, length_drop, hblock]
      rfl
    simp only [length_append, hblock] at hlen
    rw [loadLoop, if_neg (by omega), hslice]
    rw [if_neg (not_isZeroBlock hheader), hsize, tarPath_eq hheader, loadAll]
    by_cases hfits : e.path.length < pathMax
    · rw [if_pos hfits, if_pos hfits]
      dsimp only
      rw [hpadded, if_neg (by omega), hbytes, hheader.type_eq]
      cases loadEntry heap loaded s e.content.flag e.path e.content.data with
      | none => rfl
      | some r =>
        obtain ⟨s', ok⟩ := r
        cases ok with
        | false => rfl
        | true =>
          dsimp only
          rw [ih hsizes.2 fuel _ (loaded + 1) s' (by rw [← Nat.add_assoc]; exact hrest)
            (by simp at hfuel; omega)]
    · rw [if_neg hfits, if_neg hfits]

theorem length_of_encodes (h : Encodes entries image) :
    512 * (entries.length + 1) ≤ image.length := by
  induction h with
  | done rest =>
    have hblock : tarBlockSize = 512 := rfl
    simp only [length_append, length_replicate, length_nil]
    omega
  | @entry e entries header padding rest hheader hpadding hblocks henc ih =>
    have hblock : header.length = 512 := hheader.length_eq
    rw [length_append, length_append, length_append, length_cons]
    omega

theorem initrdLoad_eq (h : Encodes entries image)
    (hsizes : ∀ e ∈ entries, e.content.data.length < 2 ^ 31) (hroot : s.rootNode = some 0) :
    initrdLoad heap s image 0 = loadAll heap 0 entries s := by
  have hlen := length_of_encodes h
  have hblock : tarBlockSize = 512 := rfl
  have hstart : ¬ (some 0 ≠ s.rootNode ∨ image.length < tarBlockSize) := by
    rintro (hne | hshort)
    · exact hne hroot.symm
    · omega
  unfold initrdLoad
  rw [if_neg hstart]
  exact loadLoop_eq h hsizes image.length 0 0 s rfl (by omega)

end Nv0ken.Fs
