/-!
# The BLAKE3 digest

The hash mode of BLAKE3 with its standard output of 32 bytes. The input is cut into chunks of
1024 bytes, each chunk into blocks of 64 bytes that are compressed one after the other, and the
chunks are the leaves of a binary tree whose left subtrees are full. The digest is the compression
of the root, marked as such, and is written in hexadecimal.
-/

namespace KernelCall.Digest.Blake3

abbrev Word := UInt32

/-- What a compression hands on to the next. -/
abbrev Chain := Vector Word 8

/-- A message block, and also the state of a compression. -/
abbrev Block := Vector Word 16

/-- The first chaining value of every chunk and parent. -/
def iv : Chain :=
  #v[0x6a09e667, 0xbb67ae85, 0x3c6ef372, 0xa54ff53a, 0x510e527f, 0x9b05688c, 0x1f83d9ab, 0x5be0cd19]

/-! ## Compression -/

/-- The roles of a block, each a bit of the flags word. -/
def chunkStart : Word := 1

def chunkEnd : Word := 2

def parent : Word := 4

def root : Word := 8

def rotateRight (w : Word) (n : Word) : Word :=
  (w >>> n) ||| (w <<< (32 - n))

/-- The quarter-round on four words of the state, with two words of the message. -/
def mix (s : Block) (a b c d : Fin 16) (x y : Word) : Block :=
  let va := s[a] + s[b] + x
  let vd := rotateRight (s[d] ^^^ va) 16
  let vc := s[c] + vd
  let vb := rotateRight (s[b] ^^^ vc) 12
  let va := va + vb + y
  let vd := rotateRight (vd ^^^ va) 8
  let vc := vc + vd
  let vb := rotateRight (vb ^^^ vc) 7
  (((s.set a va).set b vb).set c vc).set d vd

/-- Mixes the columns of the state, then its diagonals. -/
def mixAll (s m : Block) : Block :=
  let s := mix s 0 4 8 12 m[0] m[1]
  let s := mix s 1 5 9 13 m[2] m[3]
  let s := mix s 2 6 10 14 m[4] m[5]
  let s := mix s 3 7 11 15 m[6] m[7]
  let s := mix s 0 5 10 15 m[8] m[9]
  let s := mix s 1 6 11 12 m[10] m[11]
  let s := mix s 2 7 8 13 m[12] m[13]
  mix s 3 4 9 14 m[14] m[15]

/-- The order in which the next round takes the words of the message. -/
def schedule : Vector (Fin 16) 16 :=
  #v[2, 6, 3, 10, 7, 0, 4, 13, 1, 11, 12, 5, 9, 14, 15, 8]

def reschedule (m : Block) : Block :=
  schedule.map fun i ↦ m[i]

/-- A number of rounds. -/
def rounds : Nat → Block → Block → Block
  | 0, s, _ => s
  | n + 1, s, m => rounds n (mixAll s m) (reschedule m)

/-- A block that is ready for compression. -/
structure Input where
  chain : Chain
  block : Block
  /-- The number of the chunk, and 0 for a parent. -/
  counter : UInt64
  /-- How many bytes of the block are message. -/
  length : Word
  flags : Word

namespace Input

def state (i : Input) : Block :=
  i.chain ++ (iv.take 4 ++
    #v[i.counter.toUInt32, (i.counter >>> 32).toUInt32, i.length, i.flags] : Chain)

/-- Seven rounds; the halves of the result are then combined into eight words. -/
def compress (i : Input) : Chain :=
  let s := rounds 7 i.state i.block
  Vector.zipWith (· ^^^ ·) (s.take 8 : Chain) (s.drop 8 : Chain)

end Input

/-! ## Chunks and the tree -/

/-- Four bytes, the lowest first. -/
def word (a b c d : UInt8) : Word :=
  a.toUInt32 ||| (b.toUInt32 <<< 8) ||| (c.toUInt32 <<< 16) ||| (d.toUInt32 <<< 24)

/-- A block of up to 64 bytes, filled up with zeros. -/
def block (bs : List UInt8) : Block :=
  let a := bs.toArray
  Vector.ofFn fun k : Fin 16 ↦
    word (a.getD (4 * k) 0) (a.getD (4 * k + 1) 0) (a.getD (4 * k + 2) 0) (a.getD (4 * k + 3) 0)

/-- The last block of a chunk, after the compression of those before it. -/
def chunk (counter : UInt64) (chain : Chain) (start : Word) (bs : List UInt8) : Input :=
  if bs.length ≤ 64 then
    { chain, block := block bs, counter, length := bs.length.toUInt32, flags := start ||| chunkEnd }
  else
    let head : Input :=
      { chain, block := block (bs.take 64), counter, length := 64, flags := start }
    chunk counter head.compress 0 (bs.drop 64)
termination_by bs.length
decreasing_by simp only [List.length_drop]; omega

/-- The bytes in the left subtree of a tree: the greatest power of two of chunks that leaves at
least one byte to the right. -/
def leftLength (n : Nat) : Nat :=
  1 <<< (n - 1).log2

theorem leftLength_pos (n : Nat) : 0 < leftLength n := by
  rw [leftLength, Nat.one_shiftLeft]
  exact Nat.two_pow_pos _

theorem leftLength_lt {n : Nat} (h : 1024 < n) : leftLength n < n := by
  have := Nat.log2_self_le (n := n - 1) (by omega)
  rw [leftLength, Nat.one_shiftLeft]
  omega

/-- The topmost block of the tree over some bytes, whose first chunk has a number. -/
def tree (counter : Nat) (bs : List UInt8) : Input :=
  if bs.length ≤ 1024 then chunk counter.toUInt64 iv chunkStart bs
  else
    let n := leftLength bs.length
    { chain := iv,
      block := (tree counter (bs.take n)).compress ++
        (tree (counter + n / 1024) (bs.drop n)).compress,
      counter := 0, length := 64, flags := parent }
termination_by bs.length
decreasing_by
  · have := leftLength_lt (n := bs.length) (by omega)
    simp only [List.length_take]; omega
  · have := leftLength_pos bs.length
    simp only [List.length_drop]; omega

/-- The digest, as eight words. -/
def digest (bs : List UInt8) : Chain :=
  let top := tree 0 bs
  { top with flags := top.flags ||| root }.compress

/-! ## Hexadecimal -/

def hexDigit (n : Nat) : Char :=
  if n < 10 then Char.ofNat (48 + n) else Char.ofNat (87 + n)

/-- The bytes of a word, the lowest first, in two digits each. -/
def hexWord (w : Word) : List Char :=
  (List.range 4).flatMap fun k ↦
    let b := (w.toNat >>> (8 * k)) % 256
    [hexDigit (b / 16), hexDigit (b % 16)]

/-- The digest of the bytes of a text, in 64 hexadecimal digits. -/
def hex (s : String) : String :=
  String.ofList ((digest s.toUTF8.toList).toList.flatMap hexWord)

end KernelCall.Digest.Blake3
