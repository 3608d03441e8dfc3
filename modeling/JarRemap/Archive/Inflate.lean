import JarRemap.Bytes

/-!
# Inflating

Reading data in the DEFLATE format: blocks of bytes that are stored as they are, or of symbols in a
prefix code, where a symbol is a byte, the end of the block, or the length of a piece to copy from
what has been read before.

Every symbol and every block takes at least one bit, so the number of bits bounds how many there
are.
-/

namespace JarRemap.Inflate

/-! ## Bits -/

/-- The bits that are left: those of the current byte, lowest first, and the bytes after it. -/
structure BitSource where
  current : UInt8
  left : Nat
  rest : Bytes

/-- A computation that takes bits and fails where the data is no DEFLATE data. -/
abbrev Step := StateT BitSource Option

/-- Takes a bit. -/
def bit : Step Bool := fun s =>
  match s.left with
  | left + 1 => some (s.current &&& 1 == 1, { s with current := s.current >>> 1, left })
  | 0 =>
    match s.rest with
    | [] => none
    | b :: rest => some (b &&& 1 == 1, ⟨b >>> 1, 7, rest⟩)

/-- Takes a number of this many bits, lowest first. -/
def bits : Nat → Step Nat
  | 0 => pure 0
  | n + 1 => do
    let low ← bit
    let high ← bits n
    return 2 * high + low.toNat

/-- Takes a byte that begins where a byte begins. -/
def wholeByte : Step UInt8 := fun s =>
  match s.rest with
  | [] => none
  | b :: rest => some (b, ⟨0, 0, rest⟩)

/-! ## Codes -/

/-- A code that no code word goes on from the end of another: its words as paths in a tree. -/
inductive CodeTree where
  | unused
  | symbol (n : Nat)
  | branch (zero one : CodeTree)

namespace CodeTree

/-- The tree with a word for a symbol added. -/
def insert (n : Nat) : List Bool → CodeTree → CodeTree
  | [], _ => .symbol n
  | false :: word, .branch zero one => .branch (insert n word zero) one
  | true :: word, .branch zero one => .branch zero (insert n word one)
  | false :: word, _ => .branch (insert n word .unused) .unused
  | true :: word, _ => .branch .unused (insert n word .unused)

/-- The bits of a number in a word of this length, highest first. -/
def word (length code : Nat) : List Bool :=
  ((List.range length).map code.testBit).reverse

/-- The code in which symbols have words of these lengths, given in the order of the symbols; a
length of zero means that the symbol has none. Shorter words come first, and words of one length
follow the order of the symbols. -/
def ofLengths (lengths : List Nat) : CodeTree :=
  let symbols := (List.range 15).flatMap fun l =>
    (lengths.zipIdx.filter fun (length, _) => length == l + 1)
  let add := fun (tree, code, previous) (length, n) =>
    let code := code <<< (length - previous)
    (insert n (word length code) tree, code + 1, length)
  (symbols.foldl add (.unused, 0, 0)).1

/-- Takes a symbol. -/
def take : CodeTree → Step Nat
  | .unused => fun _ => none
  | .symbol n => pure n
  | .branch zero one => do
    if ← bit then one.take else zero.take

end CodeTree

/-! ## Symbols -/

/-- The least length that each length symbol stands for, and how many more bits it takes. -/
def lengthTable : List (Nat × Nat) :=
  [(3, 0), (4, 0), (5, 0), (6, 0), (7, 0), (8, 0), (9, 0), (10, 0), (11, 1), (13, 1), (15, 1),
   (17, 1), (19, 2), (23, 2), (27, 2), (31, 2), (35, 3), (43, 3), (51, 3), (59, 3), (67, 4),
   (83, 4), (99, 4), (115, 4), (131, 5), (163, 5), (195, 5), (227, 5), (258, 0)]

/-- The least distance that each distance symbol stands for, and how many more bits it takes. -/
def distanceTable : List (Nat × Nat) :=
  [(1, 0), (2, 0), (3, 0), (4, 0), (5, 1), (7, 1), (9, 2), (13, 2), (17, 3), (25, 3), (33, 4),
   (49, 4), (65, 5), (97, 5), (129, 6), (193, 6), (257, 7), (385, 7), (513, 8), (769, 8), (1025, 9),
   (1537, 9), (2049, 10), (3073, 10), (4097, 11), (6145, 11), (8193, 12), (12289, 12), (16385, 13),
   (24577, 13)]

/-- Takes the number that a symbol of a table stands for. -/
def fromTable (table : List (Nat × Nat)) (symbol : Nat) : Step Nat := do
  match table[symbol]? with
  | none => fun _ => none
  | some (least, more) => return least + (← bits more)

/-- Copies a piece that begins this far back. It may overlap what it adds. -/
def copyBack (distance : Nat) : Nat → Array UInt8 → Option (Array UInt8)
  | 0, out => some out
  | n + 1, out =>
    if distance ≤ out.size then
      match out[out.size - distance]? with
      | some b => copyBack distance n (out.push b)
      | none => none
    else none

/-- The symbol that ends a block. -/
def endOfBlock : Nat := 256

/-- Takes at most this many symbols up to the end of the block. -/
def symbols (literals distances : CodeTree) : Nat → Array UInt8 → Step (Array UInt8)
  | 0, _ => fun _ => none
  | limit + 1, out => do
    let symbol ← literals.take
    if symbol < endOfBlock then symbols literals distances limit (out.push (UInt8.ofNat symbol))
    else if symbol = endOfBlock then return out
    else
      let length ← fromTable lengthTable (symbol - endOfBlock - 1)
      let distance ← fromTable distanceTable (← distances.take)
      match copyBack distance length out with
      | some out => symbols literals distances limit out
      | none => fun _ => none

/-! ## Blocks -/

/-- Takes bytes that are stored as they are. -/
def storedBytes : Nat → Array UInt8 → Step (Array UInt8)
  | 0, out => return out
  | n + 1, out => do storedBytes n (out.push (← wholeByte))

/-- Takes a block of stored bytes. Its length is followed by the same bits inverted. -/
def storedBlock (out : Array UInt8) : Step (Array UInt8) := do
  let low ← wholeByte
  let high ← wholeByte
  let _ ← wholeByte
  let _ ← wholeByte
  storedBytes (high.toNat * 256 + low.toNat) out

/-- The lengths of the literal words of the code that is not spelled out. -/
def fixedLengths : List Nat :=
  List.replicate 144 8 ++ List.replicate 112 9 ++ List.replicate 24 7 ++ List.replicate 8 8

/-- The order in which the lengths of the words for lengths are given. -/
def lengthOrder : List Nat :=
  [16, 17, 18, 0, 8, 7, 9, 6, 10, 5, 11, 4, 12, 3, 13, 2, 14, 1, 15]

/-- Takes word lengths until there are `count` of them. Those taken so far stand in reverse. -/
def wordLengths (code : CodeTree) (count : Nat) : Nat → List Nat → Step (List Nat)
  | 0, done => return done.reverse
  | limit + 1, done => do
    if count ≤ done.length then return done.reverse
    let symbol ← code.take
    let (length, times) ←
      if symbol < 16 then pure (symbol, 1)
      else if symbol = 16 then pure (done.headD 0, 3 + (← bits 2))
      else if symbol = 17 then pure (0, 3 + (← bits 3))
      else pure (0, 11 + (← bits 7))
    wordLengths code count limit (List.replicate times length ++ done)

/-- Takes the two codes of a block that spells them out. -/
def ownCodes : Step (CodeTree × CodeTree) := do
  let literals := 257 + (← bits 5)
  let distances := 1 + (← bits 5)
  let given := 4 + (← bits 4)
  let lengths ← (List.replicate given ()).mapM fun _ => bits 3
  let table := lengthOrder.zip lengths
  let code := CodeTree.ofLengths ((List.range 19).map fun n => (table.lookup n).getD 0)
  let all ← wordLengths code (literals + distances) (literals + distances) []
  return (.ofLengths (all.take literals), .ofLengths (all.drop literals))

/-- Takes at most this many blocks up to the last one. -/
def blocks (limit : Nat) : Nat → Array UInt8 → Step (Array UInt8)
  | 0, _ => fun _ => none
  | n + 1, out => do
    let isLast ← bit
    let kind ← bits 2
    let out ←
      if kind = 0 then storedBlock out
      else if kind = 1 then
        symbols (.ofLengths fixedLengths) (.ofLengths (List.replicate 30 5)) limit out
      else if kind = 2 then do
        let (literals, distances) ← ownCodes
        symbols literals distances limit out
      else fun _ => none
    if isLast then return out else blocks limit n out

/-- The bytes that DEFLATE data stands for. -/
def inflate? (data : Bytes) : Option Bytes :=
  let limit := 8 * data.length
  ((blocks limit limit #[]).run ⟨0, 0, data⟩).map fun (out, _) => out.toList

end JarRemap.Inflate
