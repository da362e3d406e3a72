/-! The BLAKE3 hash of a list of bytes. The bytes are cut into chunks, the chunks into blocks, and
the chunks are joined by a binary tree whose left branches hold a power of two of them. -/
namespace GraphRules.Digest

abbrev Words := Array UInt32

def initial : Words :=
  #[0x6A09E667, 0xBB67AE85, 0x3C6EF372, 0xA54FF53A, 0x510E527F, 0x9B05688C, 0x1F83D9AB, 0x5BE0CD19]

def permutation : Array Nat := #[2, 6, 3, 10, 7, 0, 4, 13, 1, 11, 12, 5, 9, 14, 15, 8]

def chunkStart : UInt32 := 1

def chunkEnd : UInt32 := 2

def parent : UInt32 := 4

def root : UInt32 := 8

def rotateRight (x n : UInt32) : UInt32 := (x >>> n) ||| (x <<< (32 - n))

def mix (s : Words) (a b c d : Nat) (x y : UInt32) : Words :=
  let at' (i : Nat) : UInt32 := s.getD i 0
  let va := at' a + at' b + x
  let vd := rotateRight (at' d ^^^ va) 16
  let vc := at' c + vd
  let vb := rotateRight (at' b ^^^ vc) 12
  let va := va + vb + y
  let vd := rotateRight (vd ^^^ va) 8
  let vc := vc + vd
  let vb := rotateRight (vb ^^^ vc) 7
  (((s.setIfInBounds a va).setIfInBounds b vb).setIfInBounds c vc).setIfInBounds d vd

def positions : List (Nat × Nat × Nat × Nat) :=
  [(0, 4, 8, 12), (1, 5, 9, 13), (2, 6, 10, 14), (3, 7, 11, 15), (0, 5, 10, 15), (1, 6, 11, 12),
    (2, 7, 8, 13), (3, 4, 9, 14)]

def round (s block : Words) : Words :=
  positions.zipIdx.foldl
    (fun s p => mix s p.1.1 p.1.2.1 p.1.2.2.1 p.1.2.2.2 (block.getD (2 * p.2) 0)
      (block.getD (2 * p.2 + 1) 0)) s

def permute (block : Words) : Words := permutation.map fun i => block.getD i 0

def rounds : Nat → Words → Words → Words
  | 0, s, _ => s
  | n + 1, s, block => rounds n (round s block) (permute block)

structure Node where
  chaining : Words
  block : Words
  counter : Nat
  length : Nat
  flags : UInt32

def Node.compress (n : Node) (flags : UInt32) : Words :=
  let tail : Words :=
    #[UInt32.ofNat n.counter, UInt32.ofNat (n.counter >>> 32),
      UInt32.ofNat n.length, n.flags ||| flags]
  let s := rounds 7 (n.chaining ++ initial.extract 0 4 ++ tail) n.block
  (Array.range 8).map fun i => s.getD i 0 ^^^ s.getD (i + 8) 0

/-- Cuts a list into pieces of a length, the last one being what is left. At most `fuel` pieces. -/
def pieces (length : Nat) : Nat → List UInt8 → List (List UInt8)
  | 0, _ => []
  | fuel + 1, bytes =>
    if bytes.length ≤ length then [bytes]
    else bytes.take length :: pieces length fuel (bytes.drop length)

def word (bytes : List UInt8) : UInt32 :=
  bytes.foldr (fun b w => w * 256 + b.toUInt32) 0

def blockWords (bytes : List UInt8) : Words :=
  (Array.range 16).map fun i => word ((bytes.drop (4 * i)).take 4)

def chunkBlocks (counter : Nat) (flags : UInt32) : Words → List (List UInt8) → Node
  | chaining, [] => ⟨chaining, blockWords [], counter, 0, flags ||| chunkEnd⟩
  | chaining, [b] => ⟨chaining, blockWords b, counter, b.length, flags ||| chunkEnd⟩
  | chaining, b :: bs =>
    chunkBlocks counter 0 (Node.compress ⟨chaining, blockWords b, counter, b.length, flags⟩ 0) bs

def chunkNode (counter : Nat) (chunk : List UInt8) : Node :=
  chunkBlocks counter chunkStart initial (pieces 64 17 chunk)

/-- The last compression of a tree of chunks. The tree is less than `fuel` levels high. -/
def treeNode : Nat → Nat → List (List UInt8) → Node
  | 0, counter, _ => chunkNode counter []
  | _, counter, [] => chunkNode counter []
  | _, counter, [chunk] => chunkNode counter chunk
  | fuel + 1, counter, chunks =>
    let k := 1 <<< (chunks.length - 1).log2
    let left := (treeNode fuel counter (chunks.take k)).compress 0
    let right := (treeNode fuel (counter + k) (chunks.drop k)).compress 0
    ⟨initial, left ++ right, 0, 64, parent⟩

def hexPair (b : UInt8) : List Char :=
  [Nat.digitChar (b.toNat / 16), Nat.digitChar (b.toNat % 16)]

def wordBytes (w : UInt32) : List UInt8 :=
  [w.toUInt8, (w >>> 8).toUInt8, (w >>> 16).toUInt8, (w >>> 24).toUInt8]

def hash (bytes : List UInt8) : String :=
  let words := (treeNode 64 0 (pieces 1024 (bytes.length + 1) bytes)).compress root
  String.ofList ((words.toList.flatMap wordBytes).flatMap hexPair)

end GraphRules.Digest
