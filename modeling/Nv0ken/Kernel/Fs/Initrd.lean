/-
Unpacking the initial ramdisk: `kernel/fs/initrd.c`.

The image is a list of bytes.  A header is a block of 512 of them, and a field of it is a slice of
the block.  The loop over the image is given as many rounds as the image has bytes, more than enough
since every round consumes a block.

`none` stands for a call that has no defined result: one in which a write does not end or leaves its
buffer, or in which the count of the entries, an `int`, overflows.
-/
import Nv0ken.Kernel.Fs.Vfs

namespace Nv0ken.Fs

open Buffer Word

/-- `TAR_BLOCK_SIZE`. -/
def tarBlockSize : Nat := 512

/-! ### Headers -/

def isZeroBlock (block : List UInt8) : Bool := block.all (· = 0)

/-- The loop of `parse_octal`, with the number so far. -/
def octalLoop (parsed : Nat) : List UInt8 → Option Nat
  | [] => some parsed
  | ch :: text =>
    if ch = 0 ∨ ch = 32 then octalLoop parsed text
    else if ch < 48 ∨ 55 < ch ∨ (2 ^ 64 - 1) / 8 < parsed then none
    else octalLoop (parsed * 8 + (ch.toNat - 48)) text

/-- The number, zero if the field has no digit, and `none` when the call returns `-1`. -/
def parseOctal (text : List UInt8) : Option Nat := octalLoop 0 text

/-- What is copied: the bytes before the first zero, and nothing if they do not fit. -/
def copyField (outputSize : Nat) (field : List UInt8) : List UInt8 :=
  let text := field.takeWhile (· ≠ 0)
  if text.length ≥ outputSize then [] else text

def headerName (header : List UInt8) : List UInt8 := slice header 0 100

def headerSize (header : List UInt8) : List UInt8 := slice header 124 12

def headerType (header : List UInt8) : UInt8 := byteAt header 156

def headerPrefix (header : List UInt8) : List UInt8 := slice header 345 155

/-- A name, with the directory in front of it if there is one. -/
def joinName (directory name : List UInt8) : List UInt8 :=
  slash :: ((if directory = [] then [] else directory ++ [slash]) ++ name)

/-- The path, `none` when the call returns `-1`. -/
def tarPath (header : List UInt8) (outputSize : Nat) : Option (List UInt8) :=
  let name := copyField 101 (headerName header)
  let directory := copyField 156 (headerPrefix header)
  if name = [] then none
  else
    let required := (joinName directory name).length + 1
    if required > outputSize then none else some (joinName directory name)

/-- `while (path_length > 1 && path[path_length - 1] == '/') ...`, on the reversed path. -/
def stripLoop : List UInt8 → List UInt8
  | c :: c' :: rest => if c = slash then stripLoop (c' :: rest) else c :: c' :: rest
  | path => path

def stripSlashes (path : List UInt8) : List UInt8 := (stripLoop path.reverse).reverse

/-! ### The tree -/

/-- The answers of the allocator: whether there is memory for the node of a number, and what the
write of an entry gets. -/
structure Heap where
  node : NodeId → Bool
  write : Nat → Reply

/-- A node that is not there yet is created; the second value is the node, `none` when that
fails. -/
def lookupOrCreate (heap : Heap) (s : Vfs) (path : List UInt8) (type : NodeType) :
    Vfs × Option NodeId :=
  match vfsLookup s path with
  | some node => (s, some node)
  | none => vfsCreate s path type (heap.node s.nodes.length)

/-- The loop of `ensure_directories`: `before` is what stands before the index. -/
def ensureLoop (heap : Heap) (s : Vfs) (before : List UInt8) : List UInt8 → Vfs × Bool
  | [] => (s, true)
  | c :: rest =>
    if c ≠ slash then ensureLoop heap s (before ++ [c]) rest
    else
      match lookupOrCreate heap s before .dir with
      | (s, some _) => ensureLoop heap s (before ++ [c]) rest
      | (s, none) => (s, false)

/-- Whether the call returned `0`. -/
def ensureDirectories (heap : Heap) (s : Vfs) (path : List UInt8) : Vfs × Bool :=
  if path.length ≥ pathMax then (s, false) else ensureLoop heap s (path.take 1) (path.drop 1)

/-- `vfs_write` of a whole file; it has to return the size. -/
def writeFile (s : Vfs) (reply : Reply) (id : NodeId) (bytes : List UInt8) : Option (Vfs × Bool) :=
  match s.get id with
  | none => some (s, false)
  | some node =>
    (vfsWrite node reply 0 (some bytes)).toOption.map fun r =>
      (s.modify id fun _ => r.1, decide (r.2 = toInt32 bytes.length))

/-- What is done with an entry once its directories are there; other types than directories and
files are skipped. -/
def placeEntry (heap : Heap) (index : Nat) (s : Vfs) (type : UInt8) (path bytes : List UInt8) :
    Option (Vfs × Bool) :=
  if type = 53 then
    let r := lookupOrCreate heap s path .dir
    some (r.1, r.2.isSome)
  else if type = 0 ∨ type = 48 then
    match lookupOrCreate heap s path .file with
    | (s, some id) => writeFile s (heap.write index) id bytes
    | (s, none) => some (s, false)
  else some (s, true)

def loadEntry (heap : Heap) (index : Nat) (s : Vfs) (type : UInt8) (path bytes : List UInt8) :
    Option (Vfs × Bool) :=
  match ensureDirectories heap s (stripSlashes path) with
  | (s, false) => some (s, false)
  | (s, true) => placeEntry heap index s type (stripSlashes path) bytes

/-! ### The image -/

/-- `(file_size + TAR_BLOCK_SIZE - 1) & ~(TAR_BLOCK_SIZE - 1)`; the mask is an `unsigned int`. -/
def paddedSize (fileSize : Nat) : Nat := u64 (fileSize + 511) &&& 0xFFFFFE00

/-- The loop of `initrd_load`. -/
def loadLoop (heap : Heap) (image : List UInt8) : Nat → Nat → Nat → Vfs → Option (Vfs × Int)
  | 0, _, _, s => some (s, -1)
  | fuel + 1, offset, loaded, s =>
    if image.length < offset + tarBlockSize then some (s, -1)
    else
      let header := slice image offset tarBlockSize
      if isZeroBlock header then some (s, loaded)
      else
        match parseOctal (headerSize header), tarPath header pathMax with
        | some fileSize, some path =>
          let dataOffset := offset + tarBlockSize
          if fileSize > image.length - dataOffset ∨
              paddedSize fileSize > image.length - dataOffset then
            some (s, -1)
          else
            match loadEntry heap loaded s (headerType header) path
              (slice image dataOffset fileSize) with
            | none => none
            | some (s, false) => some (s, -1)
            | some (s, true) =>
              if loaded + 1 < 2 ^ 31 then
                loadLoop heap image fuel (dataOffset + paddedSize fileSize) (loaded + 1) s
              else none
        | _, _ => some (s, -1)

/-- The tree and the value returned. -/
def initrdLoad (heap : Heap) (s : Vfs) (image : List UInt8) (mountpoint : NodeId) :
    Option (Vfs × Int) :=
  if some mountpoint ≠ s.rootNode ∨ image.length < tarBlockSize then some (s, -1)
  else loadLoop heap image image.length 0 0 s

end Nv0ken.Fs
