/-
Clients of the heap.

A session is a heap together with the pointers its clients hold.  Clients allocate,
free and resize in any order, and write into the payloads they hold; `Legal` is what
they promise, that they pass only such pointers and stay inside such payloads.

The allocator keeps its own promises only as long as it stays inside the blocks it
hands out itself.  `kcalloc` clears, and a moving `krealloc` copies, as many bytes as
were asked for or held before, into a block whose size went through the 32-bit mask of
`alignSize`: past `2 ^ 32 - 16` that block is too short and the bytes land on the
headers behind it.  `Contained` is the condition that this does not happen, and
`heap_wellFormed` says that it is the only one needed.  `krealloc_overruns` is a run
of two calls that breaks the block list.
-/
import Nv0ken.Lib.Run
import Nv0ken.Proofs.Mm.Heap

namespace Nv0ken.Heap

open BlockList Word Run List Option

/-- A heap and the pointers its clients hold. -/
structure Session where
  heap : State
  live : List Nat

/-- What a client can do. -/
inductive Call
  | malloc (size : Nat)
  | calloc (count size : Nat)
  | realloc (ptr size : Nat)
  | free (ptr : Nat)
  | write (ptr offset : Nat) (bytes : List UInt8)

/-- The pointers held once a call has returned `q`. -/
def hold (live : List Nat) (q : Nat) : List Nat := if q = 0 then live else q :: live

/-- The pointers held once `p` is given up. -/
def drop (live : List Nat) (p : Nat) : List Nat := live.filter (· ≠ p)

/-- One call.  A `krealloc` that returns a null pointer for a non-zero size leaves the
old block to its holder. -/
def perform (s : Session) : Call → Option Session
  | .malloc size => (kmalloc s.heap size).map fun r => ⟨r.1, hold s.live r.2⟩
  | .calloc count size => (kcalloc s.heap count size).map fun r => ⟨r.1, hold s.live r.2⟩
  | .realloc ptr size =>
    (krealloc s.heap ptr size).map fun r =>
      ⟨r.1, if r.2 = 0 ∧ size ≠ 0 then s.live else hold (drop s.live ptr) r.2⟩
  | .free ptr => (kfree s.heap ptr).map fun h => ⟨h, drop s.live ptr⟩
  | .write ptr offset bytes =>
    some ⟨{ s.heap with mem := s.heap.mem.writeBytes (ptr + offset) bytes }, s.live⟩

/-- What the clients promise: sizes are 64-bit numbers, only held pointers are freed,
resized or written through, and writes stay inside the payload. -/
def Legal (s : Session) : Call → Prop
  | .malloc size => size < 2 ^ 64
  | .calloc count size => count < 2 ^ 64 ∧ size < 2 ^ 64
  | .realloc ptr size => size < 2 ^ 64 ∧ (ptr = 0 ∨ ptr ∈ s.live)
  | .free ptr => ptr = 0 ∨ ptr ∈ s.live
  | .write ptr offset bytes =>
    ptr ∈ s.live ∧ offset + bytes.length ≤ blockSize s.heap.mem (ptr - headerSize)

/-- No block is handed out for a request of this size. -/
def Unserved (h : State) (size : Nat) : Prop :=
  size = 0 ∨ 2 ^ 64 - 16 < size ∨ findFit h.mem (alignSize size) addressSpace h.head = some 0

/-- The call does not make the allocator itself write past the block it hands out: what
`kcalloc` clears is within the width of the mask, what `krealloc` copies is no more than the
rounded request, or there is nothing to clear or copy. -/
def Contained (s : Session) : Call → Prop
  | .calloc count size =>
    count * size ≤ 2 ^ 32 - 16 ∨ 2 ^ 64 ≤ count * size ∨ Unserved s.heap (count * size)
  | .realloc ptr size =>
    ptr = 0 ∨ size ≤ blockSize s.heap.mem (ptr - headerSize) ∨
      blockSize s.heap.mem (ptr - headerSize) ≤ alignSize size ∨ Unserved s.heap size
  | _ => True

/-- Every link can be followed back. -/
def LinksInverse (m : Mem) (xs : List Block) : Prop :=
  ∀ x ∈ xs,
    (blockNext m x.addr ≠ 0 → blockPrev m (blockNext m x.addr) = x.addr) ∧
      (blockPrev m x.addr ≠ 0 → blockNext m (blockPrev m x.addr) = x.addr)

/-- The payload behind a pointer. -/
def payload (m : Mem) (ptr : Nat) : Set Nat :=
  {i | ptr ≤ i ∧ i < ptr + blockSize m (ptr - headerSize)}

/-- What a heap should be: the list of blocks read out of the memory tiles the region,
its links are mutually inverse, no two neighbours are free, the counter is the sum of
the payloads in use, and the payloads held do not overlap. -/
def WellFormed (lo hi : Nat) (s : Session) : Prop :=
  ∃ xs : List Block,
    (s.heap.head = firstAddr xs 0 ∧ Seg s.heap.mem 0 xs 0) ∧
    Tiles headerSize lo xs hi ∧
    LinksInverse s.heap.mem xs ∧
    NoFreePair xs ∧
    s.heap.usedSize = used xs ∧
    (∀ p ∈ s.live, ∃ x ∈ xs, x.free = false ∧ p = x.addr + headerSize) ∧
    ∀ p ∈ s.live, ∀ q ∈ s.live, p ≠ q →
      ∀ i ∈ payload s.heap.mem p, i ∉ payload s.heap.mem q

/-- The region a heap is made of: none when it is too small for one header. -/
def region (base size : Nat) : Nat × Nat :=
  if base = 0 ∨ size ≤ headerSize then (0, 0) else (base, base + size)

/-- A fresh heap, with no pointer held. -/
def start (m : Mem) (base size : Nat) : Session := ⟨heapInit m base size, []⟩

/-! ### The pointers held are the blocks in use -/

variable {s : Session} {h : State} {lo hi p n q ptr : Nat} {xs ys : List Block} {x y : Block}
  {live : List Nat} {m : Mem}

/-- The pointers held are exactly those of the blocks in use. -/
def LiveOf (live : List Nat) (xs : List Block) : Prop :=
  ∀ p, p ∈ live ↔ ∃ x ∈ xs, x.free = false ∧ p = x.addr + headerSize

section

variable (hlive : LiveOf live xs)
include hlive

theorem LiveOf.add (hrep : Replaces xs ys none (some y))
    (hy : y.free = false) : LiveOf (hold live (y.addr + headerSize)) ys := by
  intro p
  unfold hold
  rw [if_neg (by unfold headerSize; omega), mem_cons, hlive p]
  constructor
  · rintro (hp | ⟨x, hx, hxfree, hp⟩)
    · exact ⟨y, (hrep y hy).mpr (Or.inr rfl), hy, hp⟩
    · exact ⟨x, (hrep x hxfree).mpr (Or.inl ⟨hx, by simp⟩), hxfree, hp⟩
  · rintro ⟨d, hd, hdfree, hp⟩
    rcases (hrep d hdfree).mp hd with ⟨hmem, -⟩ | hnew
    · exact Or.inr ⟨d, hmem, hdfree, hp⟩
    · obtain rfl : d = y := some.inj hnew
      exact Or.inl hp

section

variable (htiles : Tiles headerSize lo xs hi) (hx : x ∈ xs)
include htiles hx

theorem LiveOf.drop (hrep : Replaces xs ys (some x) none) :
    LiveOf (drop live (x.addr + headerSize)) ys := by
  intro p
  unfold Heap.drop
  rw [mem_filter, hlive p]
  constructor
  · rintro ⟨⟨d, hd, hdfree, hp⟩, hne⟩
    have hdx : d ≠ x := by
      rintro rfl
      simp [hp] at hne
    exact ⟨d, (hrep d hdfree).mpr (Or.inl ⟨hd, by simpa using hdx⟩), hdfree, hp⟩
  · rintro ⟨d, hd, hdfree, hp⟩
    obtain ⟨hmem, hne⟩ : d ∈ xs ∧ d ≠ x := by simpa using (hrep d hdfree).mp hd
    refine ⟨⟨d, hmem, hdfree, hp⟩, ?_⟩
    simp only [ne_eq, decide_not, Bool.not_eq_true', decide_eq_false_iff_not]
    intro heq
    exact hne (htiles.eq_of_addr (by decide) hmem hx (by omega))

/-- One block is dropped, then the other added. -/
theorem LiveOf.swap (hrep : Replaces xs ys (some x) (some y)) (hy : y.free = false) :
    LiveOf (hold (Heap.drop live (x.addr + headerSize)) (y.addr + headerSize)) ys := by
  have hdropped : Replaces xs (xs.filter (· ≠ x)) (some x) none := by
    intro d _
    simp
  have hadded : Replaces (xs.filter (· ≠ x)) ys none (some y) := by
    intro d hd
    rw [hrep d hd]
    simp
  exact (hlive.drop htiles hx hdropped).add hadded hy

end

end

theorem old_replaces (hx : x ∈ xs) : Replaces xs xs (some x) (some x) := by
  intro d _
  by_cases hdx : d = x
  · simp [hdx, hx]
  · simp [hdx]

/-! ### One call -/

/-- Below the width of the mask the old payload fits the rounded request. -/
theorem contained_of_small (hn : n ≤ 2 ^ 32 - 16) : Contained s (.realloc ptr n) := by
  have := le_alignSize hn
  rw [Contained]
  omega

/-- The invariant of a session. -/
def SessionInv (lo hi : Nat) (s : Session) : Prop :=
  ∃ xs, HeapInv s.heap lo hi xs ∧ LiveOf s.live xs

theorem refused_iff_unserved (inv : HeapInv h lo hi xs) (size : Nat) :
    Refused xs size ↔ Unserved h size := by
  unfold Refused Unserved
  rw [findFit_eq inv]
  cases hfind : xs.find? (fits (alignSize size)) with
  | none => simp
  | some x => simp [inv.addr_ne_zero (mem_of_find?_eq_some hfind)]

theorem zero_not_live (hlive : LiveOf live xs) : 0 ∉ live := by
  intro h0
  obtain ⟨x, -, -, hx⟩ := (hlive 0).mp h0
  unfold headerSize at hx
  omega

theorem drop_zero (hlive : LiveOf live xs) : drop live 0 = live := by
  unfold drop
  rw [filter_eq_self]
  intro p hp
  have : p ≠ 0 := fun h0 => zero_not_live hlive (h0 ▸ hp)
  simpa using this

/-- A pointer returned by a call is that of a block in use, found in the memory left. -/
structure Returned (h : State) (lo hi : Nat) (live : List Nat) (q : Nat) (y : Block)
    (ys : List Block) : Prop where
  ptr : q = y.addr + headerSize
  mem : y ∈ ys
  inUse : y.free = false
  inv : HeapInv h lo hi ys
  live : LiveOf live ys

theorem Returned.size (hr : Returned h lo hi live q y ys) :
    blockSize h.mem (q - headerSize) = y.size := by
  rw [hr.ptr]
  exact (hr.inv.header_at hr.mem).1

theorem Returned.session (hr : Returned h lo hi live q y ys) :
    SessionInv lo hi ⟨h, live⟩ := ⟨ys, hr.inv, hr.live⟩

/-- A request either leaves everything as it was, or hands out a block that holds the
request exactly when the mask does not cut it. -/
theorem kmalloc_session (inv : HeapInv h lo hi xs) (hlive : LiveOf live xs) (size : Nat) :
    (Unserved h size ∧ kmalloc h size = some (h, 0)) ∨
      ∃ h' q y ys, ¬ Unserved h size ∧ kmalloc h size = some (h', q) ∧ q ≠ 0 ∧
        Returned h' lo hi (hold live q) q y ys ∧ (size ≤ y.size ↔ size ≤ 2 ^ 32 - 16) := by
  by_cases hun : Unserved h size
  · exact Or.inl ⟨hun, kmalloc_refused inv ((refused_iff_unserved inv size).mpr hun)⟩
  rcases kmalloc_cases inv size with ⟨href, -⟩ |
    ⟨pre, x, post, h', rfl, hfree, -, -, hfit, hrun, inv', -⟩
  · exact absurd ((refused_iff_unserved inv size).mp href) hun
  · have hlive' := hlive.add (allocated_replaces hfree) (y := grantedBlock x size) rfl
    exact Or.inr ⟨h', _, grantedBlock x size, _, hun, hrun, by unfold headerSize; omega,
      ⟨rfl, grantedBlock_mem, rfl, inv', hlive'⟩, granted_iff hfit⟩

theorem kcalloc_of_overflow {count size : Nat} (hover : 2 ^ 64 ≤ count * size) :
    kcalloc h count size = some (h, 0) := by
  have hc : count ≠ 0 := by
    intro h0
    rw [h0] at hover
    omega
  unfold kcalloc
  rw [if_pos]
  refine ⟨hc, (Nat.div_lt_iff_lt_mul (Nat.pos_of_ne_zero hc)).mpr ?_⟩
  rw [Nat.mul_comm]
  omega

theorem kcalloc_of_lt {count size : Nat} (hlt : count * size < 2 ^ 64) :
    kcalloc h count size = (kmalloc h (count * size)).map fun r =>
      if r.2 = 0 then r else ({ r.1 with mem := r.1.mem.memset r.2 0 (count * size) }, r.2) := by
  unfold kcalloc
  rw [if_neg]
  · simp only [u64_of_lt hlt]
  · intro hguard
    have hpos := Nat.pos_of_ne_zero hguard.1
    have := (Nat.div_lt_iff_lt_mul hpos).mp hguard.2
    rw [Nat.mul_comm] at this
    omega

/-- Clearing the block handed out keeps it what it is, as long as the bytes cleared
lie inside it. -/
theorem kcalloc_session (inv : HeapInv h lo hi xs) (hlive : LiveOf live xs) (count size : Nat)
    (hcont : count * size ≤ 2 ^ 32 - 16 ∨ 2 ^ 64 ≤ count * size ∨ Unserved h (count * size)) :
    kcalloc h count size = some (h, 0) ∨
      ∃ h' q y ys, kcalloc h count size = some (h', q) ∧ q ≠ 0 ∧
        Returned h' lo hi (hold live q) q y ys ∧ count * size ≤ y.size := by
  by_cases hover : 2 ^ 64 ≤ count * size
  · exact Or.inl (kcalloc_of_overflow hover)
  rw [kcalloc_of_lt (Nat.not_le.mp hover)]
  rcases kmalloc_session inv hlive (count * size) with ⟨-, hrun⟩ |
    ⟨h', q, y, ys, hserved, hrun, hq, hret, hgrant⟩
  · rw [hrun]
    exact Or.inl rfl
  · have hfits : count * size ≤ y.size := by
      rcases hcont with hsmall | hlarge | hun
      · exact hgrant.mpr hsmall
      · exact absurd hlarge hover
      · exact absurd hun hserved
    refine Or.inr ⟨_, q, y, ys, by rw [hrun, map_some, if_neg hq], hq, ?_, hfits⟩
    have hptr := hret.ptr
    refine { hret with inv := hret.inv.of_payload_frame hret.mem (Mem.memset_frame fun i hi => ?_) }
    exact ⟨by omega, by omega⟩

/-- The pointers held after `krealloc(ptr, size)` returned `q`. -/
def resized (live : List Nat) (ptr size q : Nat) : List Nat :=
  if q = 0 ∧ size ≠ 0 then live else hold (drop live ptr) q

/-- `krealloc` of a held pointer frees it, leaves everything as it was, or returns a
block that starts with what the old one held; it holds the request exactly when the mask
does not cut it or the old block did. -/
theorem krealloc_session (inv : HeapInv h lo hi xs) (hlive : LiveOf live xs) (hx : x ∈ xs)
    (hxfree : x.free = false) (size : Nat)
    (hcont : size ≤ x.size ∨ x.size ≤ alignSize size ∨ Unserved h size) :
    ∃ h' q, krealloc h (x.addr + headerSize) size = some (h', q) ∧
      SessionInv lo hi ⟨h', resized live (x.addr + headerSize) size q⟩ ∧
      (q = 0 → Unserved h size) ∧
      (q ≠ 0 → ∃ y ys, Returned h' lo hi (resized live (x.addr + headerSize) size q) q y ys ∧
        (size ≤ y.size ↔ size ≤ 2 ^ 32 - 16 ∨ size ≤ x.size ∨ Unserved h size) ∧
        ∀ i, i < min x.size size → h'.mem (q + i) = h.mem (x.addr + headerSize + i)) := by
  have hptr : x.addr + headerSize ≠ 0 := by unfold headerSize; omega
  by_cases h0 : size = 0
  · obtain ⟨rpre, post, h', rfl, hrun, inv', -⟩ := kfree_spec inv hx hxfree
    rw [krealloc, if_pos h0, hrun]
    refine ⟨h', 0, rfl, ⟨_, inv', ?_⟩, fun _ => Or.inl h0, fun hq => absurd rfl hq⟩
    simpa [resized, h0, hold] using hlive.drop inv.tiles hx (freed_replaces inv)
  by_cases hroom : size ≤ x.size
  · have hlive' : LiveOf (resized live (x.addr + headerSize) size (x.addr + headerSize)) xs := by
      exact hlive.swap inv.tiles hx (old_replaces hx) hxfree
    rw [krealloc_held inv hx hxfree h0, if_pos hroom]
    exact ⟨h, _, rfl, ⟨xs, inv, hlive'⟩, fun hq => absurd hq hptr, fun _ =>
      ⟨x, xs, ⟨rfl, hx, hxfree, inv, hlive'⟩, iff_of_true hroom (Or.inr (Or.inl hroom)),
        fun _ _ => rfl⟩⟩
  by_cases hun : Unserved h size
  · rw [krealloc_held inv hx hxfree h0, if_neg hroom,
      kmalloc_refused inv ((refused_iff_unserved inv size).mpr hun)]
    refine ⟨h, 0, rfl, ⟨xs, inv, ?_⟩, fun _ => hun, fun hq => absurd rfl hq⟩
    simpa [resized, h0] using hlive
  · have hfits : x.size ≤ alignSize size := (hcont.resolve_left hroom).resolve_right hun
    obtain ⟨h', y, ys, hrun, inv', hrep, hyfree, hy, hysize, hcopy⟩ := krealloc_moves inv hx hxfree
      (Nat.not_le.mp hroom) hfits fun href => hun ((refused_iff_unserved inv size).mp href)
    have hy0 : y.addr + headerSize ≠ 0 := by unfold headerSize; omega
    have hlive' : LiveOf (resized live (x.addr + headerSize) size (y.addr + headerSize)) ys := by
      exact hlive.swap inv.tiles hx hrep hyfree
    refine ⟨h', _, hrun, ⟨ys, inv', hlive'⟩, fun hq => absurd hq hy0, fun _ =>
      ⟨y, ys, ⟨rfl, hy, hyfree, inv', hlive'⟩, ?_, fun i hi => hcopy i (by omega)⟩⟩
    rw [hysize, or_iff_left fun h => h.elim hroom hun]

/-- **Every call keeps the session well formed**, and returns. -/
theorem perform_inv (hs : SessionInv lo hi s) (c : Call) (hlegal : Legal s c)
    (hcont : Contained s c) : ∃ s', perform s c = some s' ∧ SessionInv lo hi s' := by
  obtain ⟨xs, inv, hlive⟩ := hs
  have hkeep : SessionInv lo hi ⟨s.heap, hold s.live 0⟩ := ⟨xs, inv, by simpa [hold] using hlive⟩
  cases c with
  | malloc size =>
    rcases kmalloc_session inv hlive size with ⟨-, hrun⟩ | ⟨h', q, y, ys, -, hrun, -, hret, -⟩
    · exact ⟨_, by rw [perform, hrun]; rfl, hkeep⟩
    · exact ⟨_, by rw [perform, hrun]; rfl, hret.session⟩
  | calloc count size =>
    rcases kcalloc_session inv hlive count size hcont with hrun | ⟨h', q, y, ys, hrun, -, hret, -⟩
    · exact ⟨_, by rw [perform, hrun]; rfl, hkeep⟩
    · exact ⟨_, by rw [perform, hrun]; rfl, hret.session⟩
  | realloc ptr size =>
    by_cases hptr : ptr = 0
    · subst hptr
      rcases kmalloc_session inv hlive size with ⟨-, hrun⟩ | ⟨h', q, y, ys, -, hrun, hq, hret, -⟩
      · refine ⟨⟨s.heap, resized s.live 0 size 0⟩,
          by rw [perform, krealloc, hrun]; rfl, xs, inv, ?_⟩
        simpa [resized, drop_zero hlive, hold] using hlive
      · refine ⟨_, by rw [perform, krealloc, if_pos rfl, hrun]; rfl, ?_⟩
        simpa only [hq, false_and, if_false, drop_zero hlive] using hret.session
    · obtain ⟨x, hx, hxfree, rfl⟩ := (hlive ptr).mp (hlegal.2.resolve_left hptr)
      have hcont' := hcont.resolve_left hptr
      rw [Nat.add_sub_cancel, (inv.header_at hx).1] at hcont'
      obtain ⟨h', q, hrun, hs', -, -⟩ := krealloc_session inv hlive hx hxfree size hcont'
      exact ⟨_, by rw [perform, hrun]; rfl, hs'⟩
  | free ptr =>
    by_cases hptr : ptr = 0
    · refine ⟨⟨s.heap, drop s.live ptr⟩, by rw [perform, kfree, if_pos hptr]; rfl, xs, inv, ?_⟩
      rw [hptr, drop_zero hlive]
      exact hlive
    · obtain ⟨x, hx, hxfree, rfl⟩ := (hlive ptr).mp (hlegal.resolve_left hptr)
      obtain ⟨rpre, post, h', hsplit, hrun, inv', -⟩ := kfree_spec inv hx hxfree
      refine ⟨_, by rw [perform, hrun]; rfl, _, inv', ?_⟩
      rw [hsplit] at inv hlive hx
      exact hlive.drop inv.tiles hx (freed_replaces inv)
  | write ptr offset bytes =>
    obtain ⟨x, hx, hxfree, rfl⟩ := (hlive ptr).mp hlegal.1
    have hin := hlegal.2
    rw [Nat.add_sub_cancel, (inv.header_at hx).1] at hin
    refine ⟨_, rfl, xs, inv.of_payload_frame hx (Mem.writeBytes_frame fun i hi => ?_), hlive⟩
    exact ⟨by omega, by omega⟩

/-! ### What the invariant says of the memory -/

/-- Two neighbours of the list point at each other. -/
theorem Seg.neighbours {pre post : List Block} (hseg : Seg m 0 (pre ++ x :: y :: post) 0) :
    blockNext m x.addr = y.addr ∧ blockPrev m y.addr = x.addr := by
  have hx := hseg.at
  rw [append_cons] at hseg
  have hy := hseg.at
  refine ⟨by rw [← header_next, hx]; rfl, ?_⟩
  rw [← header_prev, hy, lastAddr_append]
  rfl

theorem Seg.linksInverse (hseg : Seg m 0 xs 0) : LinksInverse m xs := by
  intro x hx
  obtain ⟨pre, post, rfl⟩ := append_of_mem hx
  have hhere := hseg.at
  constructor
  · intro hnext
    rw [← header_next, hhere] at hnext
    obtain ⟨y, rest, rfl, -⟩ := firstAddr_ne_zero hnext
    rw [hseg.neighbours.1, hseg.neighbours.2]
  · intro hprev
    rcases eq_nil_or_concat pre with rfl | ⟨rest, w, rfl⟩
    · rw [← header_prev, hhere] at hprev
      exact absurd rfl hprev
    · rw [concat_eq_append, append_assoc, singleton_append] at hseg
      rw [hseg.neighbours.2, hseg.neighbours.1]

theorem SessionInv.wellFormed (hs : SessionInv lo hi s) : WellFormed lo hi s := by
  obtain ⟨xs, inv, hlive⟩ := hs
  refine ⟨xs, ⟨inv.head, inv.seg⟩, inv.tiles, inv.seg.linksInverse, inv.noPair, inv.used,
    fun p hp => (hlive p).mp hp, fun p hp q hq hne => ?_⟩
  obtain ⟨x, hx, -, rfl⟩ := (hlive p).mp hp
  obtain ⟨y, hy, -, rfl⟩ := (hlive q).mp hq
  rintro i ⟨hxlow, hxhigh⟩ ⟨hylow, hyhigh⟩
  rw [Nat.add_sub_cancel, (inv.header_at hx).1] at hxhigh
  rw [Nat.add_sub_cancel, (inv.header_at hy).1] at hyhigh
  rcases inv.tiles.apart hx hy with rfl | hlt | hlt
  · exact hne rfl
  · omega
  · omega

theorem start_inv {base size : Nat} (hsize : base + size < 2 ^ 64) :
    SessionInv (region base size).1 (region base size).2 (start m base size) := by
  have hinit := heapInit_inv (m := m) hsize
  unfold region
  by_cases hsmall : base = 0 ∨ size ≤ headerSize
  · rw [if_pos hsmall] at hinit ⊢
    exact ⟨[], hinit, fun p => by simp [start]⟩
  · rw [if_neg hsmall] at hinit ⊢
    exact ⟨_, hinit, fun p => by simp [start]⟩

/-! ### Runs -/

theorem perform_step (s : Session) (c : Call) (s' : Session) (hs : SessionInv lo hi s)
    (hc : Legal s c ∧ Contained s c) (hrun : perform s c = some s') : SessionInv lo hi s' := by
  obtain ⟨t, ht, hinv⟩ := perform_inv hs c hc.1 hc.2
  rw [hrun] at ht
  exact some.inj ht ▸ hinv

/-- **The heap stays well formed.**  From a fresh heap on, whatever its clients do, the
blocks tile the region, the links are mutually inverse, no two free blocks touch, the
counter is right and the payloads held are disjoint, in every state passed through; and
no call runs forever. -/
theorem heap_wellFormed (m : Mem) (base size : Nat) (calls : List Call)
    (hsize : base + size < 2 ^ 64) (hlegal : Along perform Legal (start m base size) calls)
    (hcont : Along perform Contained (start m base size) calls) :
    Throughout perform (WellFormed (region base size).1 (region base size).2)
        (start m base size) calls ∧
      (run perform (start m base size) calls).isSome := by
  have hboth := hlegal.and hcont
  have hstart : SessionInv _ _ (start m base size) := start_inv hsize
  refine ⟨(along_throughout perform_step hstart hboth).mono fun s hs => hs.wellFormed, ?_⟩
  refine run_isSome perform_step (fun s c hs hc => ?_) hstart hboth
  obtain ⟨t, ht, -⟩ := perform_inv hs c hc.1 hc.2
  rw [ht]
  rfl

/-- A small heap over cleared memory, to run calls on. -/
def small : Session := start (fun _ => 0) 4096 4096

theorem small_malloc {s : Session} (hs : perform small (.malloc 16) = some s) :
    s.live = [4128] := by
  have hrun : (perform small (.malloc 16)).map Session.live = some [4128] := by decide +kernel
  rw [hs] at hrun
  exact some.inj hrun

theorem heap_wellFormed_small :
    (WellFormed 4096 8192 small ∧ ∀ s, perform small (.malloc 16) = some s →
      WellFormed 4096 8192 s ∧ ∀ t, perform s (.realloc 4128 600) = some t →
        WellFormed 4096 8192 t) ∧
      (run perform small [.malloc 16, .realloc 4128 600]).isSome := by
  refine heap_wellFormed (fun _ => 0) 4096 4096 [.malloc 16, .realloc 4128 600] (by decide) ?_ ?_
  · refine ⟨show 16 < 2 ^ 64 by decide, fun s hs => ⟨⟨by decide, Or.inr ?_⟩, fun _ _ => trivial⟩⟩
    rw [small_malloc hs]
    exact mem_singleton_self _
  · exact ⟨trivial, fun s _ => ⟨contained_of_small (by decide), fun _ _ => trivial⟩⟩

/-- The first block of a list read out of memory, and where the rest of it starts. -/
theorem Seg.uncons {a : Nat} (hseg : Seg m p xs 0) (hfirst : firstAddr xs 0 = a)
    (ha : a ≠ 0) : ∃ x rest, xs = x :: rest ∧ x.addr = a ∧ x.size = blockSize m a ∧
      firstAddr rest 0 = blockNext m a ∧ Seg m a rest 0 := by
  obtain ⟨x, rest, rfl, hx⟩ := firstAddr_ne_zero (hfirst.trans_ne ha)
  obtain rfl : x.addr = a := hx.symm.trans hfirst
  obtain ⟨hheader, hrest⟩ := hseg
  exact ⟨x, rest, rfl, rfl, by rw [← header_size, hheader], by rw [← header_next, hheader], hrest⟩

/-- **Two calls break the list.**  The second asks for `2 ^ 32 - 1` bytes; the mask makes
that a block of none, and the sixteen bytes copied into it land on the header behind. -/
theorem krealloc_overruns :
    Along perform Legal small [.malloc 16, .realloc 4128 (2 ^ 32 - 1)] ∧
      ¬ Throughout perform (WellFormed 4096 8192) small
        [.malloc 16, .realloc 4128 (2 ^ 32 - 1)] := by
  constructor
  · refine ⟨show 16 < 2 ^ 64 by decide, fun s hs => ⟨⟨by decide, Or.inr ?_⟩, fun _ _ => trivial⟩⟩
    rw [small_malloc hs]
    exact mem_singleton_self _
  · intro hall
    have hrun : (run perform small [.malloc 16, .realloc 4128 (2 ^ 32 - 1)]).map (fun s =>
        (s.heap.head, blockNext s.heap.mem 4096, blockNext s.heap.mem 4144,
          blockNext s.heap.mem 4176, blockSize s.heap.mem 4176)) =
        some (4096, 4144, 4176, 0, 0) := by decide +kernel
    obtain ⟨s, hs, hfields⟩ := map_eq_some_iff.mp hrun
    simp only [Prod.mk.injEq] at hfields
    obtain ⟨hhead, hnext, hnext', hend, hsize⟩ := hfields
    obtain ⟨xs, ⟨hfirst, hseg⟩, htiles, -⟩ := hall.last hs
    obtain ⟨x, xs, rfl, -, -, hx, hseg⟩ := hseg.uncons (hfirst.symm.trans hhead) (by decide)
    obtain ⟨y, ys, rfl, -, -, hy, hseg⟩ := hseg.uncons (hx.trans hnext) (by decide)
    obtain ⟨z, zs, rfl, hzaddr, hzsize, hz, -⟩ := hseg.uncons (hy.trans hnext') (by decide)
    -- the list ends behind the third block, at 4208, well before the region does
    obtain ⟨-, -, -, hrest⟩ := htiles
    have hfin : z.fin headerSize = 4208 := by
      unfold Block.fin
      rw [hzaddr, hzsize, hsize]
      rfl
    rcases zs with _ | ⟨w, ws⟩
    · have : z.fin headerSize = 8192 := hrest
      omega
    · have hw : w.addr = z.fin headerSize := hrest.1
      have : w.addr = 0 := hz.trans hend
      omega

/-! ### Whether a block holds what was asked for -/

/-- If the call returned a pointer, the block behind it holds `n` bytes. -/
def Serves (n : Nat) (r : Option (State × Nat)) : Prop :=
  ∀ h' q, r = some (h', q) → q ≠ 0 → n ≤ blockSize h'.mem (q - headerSize)

/-- If the call returned a pointer, it starts with the first `n` bytes of `ptr`'s block,
or with all of them when there are fewer. -/
def Keeps (h : State) (ptr n : Nat) (r : Option (State × Nat)) : Prop :=
  ∀ h' q, r = some (h', q) → q ≠ 0 → ∀ i < min (blockSize h.mem (ptr - headerSize)) n,
    h'.mem (q + i) = h.mem (ptr + i)

theorem Serves.of_null : Serves n (some (h, 0)) := by
  intro h' q hret hq
  exact absurd (Prod.mk.inj (some.inj hret)).2.symm hq

theorem serves_iff {h' : State} (hq : q ≠ 0) :
    Serves n (some (h', q)) ↔ n ≤ blockSize h'.mem (q - headerSize) := by
  constructor
  · intro hall
    exact hall h' q rfl hq
  · rintro hle h'' q' hret -
    obtain ⟨rfl, rfl⟩ := Prod.mk.inj (some.inj hret)
    exact hle

theorem kmalloc_serves (inv : HeapInv h lo hi xs) (hlive : LiveOf live xs) (n : Nat) :
    Serves n (kmalloc h n) ↔ n ≤ 2 ^ 32 - 16 ∨ Unserved h n := by
  rcases kmalloc_session inv hlive n with ⟨hun, hrun⟩ |
    ⟨h', q, y, ys, hserved, hrun, hq, hret, hgrant⟩
  · rw [hrun]
    exact ⟨fun _ => Or.inr hun, fun _ => Serves.of_null⟩
  · rw [hrun, serves_iff hq, hret.size, hgrant, or_iff_left hserved]

/-- Clearing the payload does not reach the header in front of it. -/
theorem blockSize_memset (hq : headerSize ≤ q) :
    blockSize (m.memset q 0 n) (q - headerSize) = blockSize m (q - headerSize) := by
  refine (Mem.memset_frame (S := {i | q ≤ i}) fun i _ => Nat.le_add_right q i).load
    fun j hj hmem => ?_
  have hle : q ≤ q - headerSize + j := hmem
  unfold headerSize at *
  omega

theorem kcalloc_serves (inv : HeapInv h lo hi xs) (hlive : LiveOf live xs) (c n : Nat) :
    Serves (c * n) (kcalloc h c n) ↔
      c * n ≤ 2 ^ 32 - 16 ∨ 2 ^ 64 ≤ c * n ∨ Unserved h (c * n) := by
  by_cases hover : 2 ^ 64 ≤ c * n
  · rw [kcalloc_of_overflow hover]
    exact ⟨fun _ => Or.inr (Or.inl hover), fun _ => Serves.of_null⟩
  rw [kcalloc_of_lt (Nat.not_le.mp hover), or_iff_right hover, ← kmalloc_serves inv hlive]
  rcases kmalloc_session inv hlive (c * n) with ⟨-, hrun⟩ | ⟨h', q, y, ys, -, hrun, hq, hret, -⟩
  · rw [hrun]
    exact Iff.rfl
  · have hlow : headerSize ≤ q := by
      rw [hret.ptr]
      exact Nat.le_add_left _ _
    rw [hrun, map_some, if_neg hq, serves_iff hq, serves_iff hq, blockSize_memset hlow]

theorem krealloc_serves (inv : HeapInv s.heap lo hi xs) (hlive : LiveOf s.live xs)
    (hptr : ptr ∈ s.live) (n : Nat) (hcont : Contained s (.realloc ptr n)) :
    Keeps s.heap ptr n (krealloc s.heap ptr n) ∧
      (Serves n (krealloc s.heap ptr n) ↔
        n ≤ 2 ^ 32 - 16 ∨ n ≤ blockSize s.heap.mem (ptr - headerSize) ∨ Unserved s.heap n) := by
  have hne : ptr ≠ 0 := fun h0 => zero_not_live hlive (h0 ▸ hptr)
  obtain ⟨x, hx, hxfree, rfl⟩ := (hlive ptr).mp hptr
  have hxsize := (inv.header_at hx).1
  have hfits := hcont.resolve_left hne
  unfold Keeps
  rw [Nat.add_sub_cancel, hxsize] at hfits ⊢
  obtain ⟨h', q, hrun, -, hnull, hret⟩ := krealloc_session inv hlive hx hxfree n hfits
  rw [hrun]
  by_cases hq : q = 0
  · subst hq
    exact ⟨fun h'' q' hret' hq' => absurd (Prod.mk.inj (some.inj hret')).2.symm hq',
      iff_of_true Serves.of_null (Or.inr (Or.inr (hnull rfl)))⟩
  · obtain ⟨y, ys, hy, hsize, hcopy⟩ := hret hq
    rw [serves_iff hq, hy.size]
    refine ⟨fun h'' q' hret' _ => ?_, hsize⟩
    obtain ⟨rfl, rfl⟩ := Prod.mk.inj (some.inj hret')
    exact hcopy

/-- **A block holds what was asked for exactly below the width of the mask.**  In every
state a run reaches, and for every size: `kmalloc` and `kcalloc` return a block that is
large enough exactly when the request is at most `2 ^ 32 - 16` bytes, or none is returned
at all.  So does `krealloc`, or when the old block is large enough already, and the old
contents stand in front, as long as its own copy stays inside the new block; within the
bound it always does. -/
theorem request_served_iff (m : Mem) (base size : Nat) (calls : List Call) (s : Session)
    (hsize : base + size < 2 ^ 64) (hlegal : Along perform Legal (start m base size) calls)
    (hcont : Along perform Contained (start m base size) calls)
    (hrun : run perform (start m base size) calls = some s) :
    (∀ n, Serves n (kmalloc s.heap n) ↔ n ≤ 2 ^ 32 - 16 ∨ Unserved s.heap n) ∧
    (∀ c n, Serves (c * n) (kcalloc s.heap c n) ↔
      c * n ≤ 2 ^ 32 - 16 ∨ 2 ^ 64 ≤ c * n ∨ Unserved s.heap (c * n)) ∧
    (∀ n, Serves n (krealloc s.heap 0 n) ↔ n ≤ 2 ^ 32 - 16 ∨ Unserved s.heap n) ∧
    ∀ ptr ∈ s.live, ∀ n, (n ≤ 2 ^ 32 - 16 → Contained s (.realloc ptr n)) ∧
      (Contained s (.realloc ptr n) →
        Keeps s.heap ptr n (krealloc s.heap ptr n) ∧
          (Serves n (krealloc s.heap ptr n) ↔
            n ≤ 2 ^ 32 - 16 ∨ n ≤ blockSize s.heap.mem (ptr - headerSize) ∨
              Unserved s.heap n)) := by
  have hstart : SessionInv _ _ (start m base size) := start_inv hsize
  obtain ⟨xs, inv, hlive⟩ := (along_throughout perform_step hstart (hlegal.and hcont)).last hrun
  refine ⟨kmalloc_serves inv hlive, kcalloc_serves inv hlive, fun n => ?_,
    fun ptr hptr n => ⟨contained_of_small, krealloc_serves inv hlive hptr n⟩⟩
  exact kmalloc_serves inv hlive n

theorem request_served_small :
    ∃ s, run perform small [.malloc 16] = some s ∧ Serves 600 (kmalloc s.heap 600) ∧
      ¬ Serves (2 ^ 32 + 1) (kmalloc s.heap (2 ^ 32 + 1)) := by
  have hun : (run perform small [.malloc 16]).map (fun s =>
      findFit s.heap.mem (alignSize (2 ^ 32 + 1)) addressSpace s.heap.head) = some (some 4144) := by
    decide +kernel
  obtain ⟨s, hs, hfit⟩ := map_eq_some_iff.mp hun
  have hall := (request_served_iff (fun _ => 0) 4096 4096 [.malloc 16] s (by decide)
    ⟨show 16 < 2 ^ 64 by decide, fun _ _ => trivial⟩ ⟨trivial, fun _ _ => trivial⟩ hs).1
  refine ⟨s, hs, (hall 600).mpr (Or.inl (by decide)), fun hserves => ?_⟩
  rcases (hall _).mp hserves with hsmall | hzero | hlarge | hnone
  · exact absurd hsmall (by decide)
  · exact absurd hzero (by decide)
  · exact absurd hlarge (by decide)
  · rw [hfit] at hnone
    exact absurd hnone (by decide)

/-- A request for four gigabytes and a byte is served with a block of sixteen bytes. -/
theorem kmalloc_short : ∃ h' q, kmalloc small.heap (2 ^ 32 + 1) = some (h', q) ∧ q ≠ 0 ∧
    blockSize h'.mem (q - headerSize) = 16 := by
  have hrun : (kmalloc small.heap (2 ^ 32 + 1)).map
      (fun r => (r.2, blockSize r.1.mem (r.2 - headerSize))) = some (4128, 16) := by
    decide +kernel
  obtain ⟨⟨h', q⟩, hret, hfields⟩ := map_eq_some_iff.mp hrun
  obtain ⟨hq, hsize⟩ := Prod.mk.inj hfields
  exact ⟨h', q, hret, hq.trans_ne (by decide), hsize⟩

end Nv0ken.Heap
