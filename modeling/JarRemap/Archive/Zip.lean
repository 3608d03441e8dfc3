import JarRemap.Archive.Inflate
import JarRemap.Archive.Jar

/-!
# Jars in bytes

A zip file: a header and the data of each file, a directory that repeats the headers, and a trailer
that tells where the directory is. Numbers are little-endian. Writing stores data as it is; reading
also takes data in the DEFLATE format.
-/

namespace JarRemap.Zip

/-! ## Fields -/

/-- The two bytes of a number, least significant first. -/
def field16 (n : Nat) : Bytes :=
  (Bytes.ofUInt16 (UInt16.ofNat n)).reverse

/-- The four bytes of a number, least significant first. -/
def field32 (n : Nat) : Bytes :=
  (Bytes.ofUInt32 (UInt32.ofNat n)).reverse

/-- The number in the two bytes at an offset. -/
def read16 (data : Array UInt8) (offset : Nat) : Option Nat := do
  let low ← data[offset]?
  let high ← data[offset + 1]?
  return high.toNat * 256 + low.toNat

/-- The number in the four bytes at an offset. -/
def read32 (data : Array UInt8) (offset : Nat) : Option Nat := do
  let low ← read16 data offset
  let high ← read16 data (offset + 2)
  return high * 65536 + low

/-- The bytes at an offset. -/
def readBytes (data : Array UInt8) (offset length : Nat) : Option Bytes :=
  if offset + length ≤ data.size then some (data.extract offset (offset + length)).toList else none

/-! ## Checksums -/

/-- The checksum with one more bit divided out. -/
def checksumBit (sum : UInt32) : UInt32 :=
  if sum &&& 1 == 1 then (sum >>> 1) ^^^ 0xedb88320 else sum >>> 1

/-- The checksum of each byte alone. -/
def checksumTable : Array UInt32 :=
  ((List.range 256).map fun n => (List.range 8).foldl (fun sum _ => checksumBit sum)
    (UInt32.ofNat n)).toArray

/-- The cyclic redundancy check of some bytes. -/
def checksum (data : Bytes) : UInt32 :=
  let step := fun (sum : UInt32) (b : UInt8) =>
    (sum >>> 8) ^^^ checksumTable.getD ((sum ^^^ b.toUInt32) &&& 0xff).toNat 0
  ~~~data.foldl step 0xffffffff

/-! ## Times -/

/-- The year from which dates count. -/
def firstYear : Nat := 1980

/-- The field of a time of day. -/
def timeField (t : Timestamp) : Nat :=
  t.hour * 2048 + t.minute * 32 + t.step

/-- The field of a date. -/
def dateField (t : Timestamp) : Nat :=
  (t.year - firstYear) * 512 + t.month * 32 + t.day

/-- The time in two fields. -/
def timestamp (time date : Nat) : Timestamp :=
  { year := firstYear + date / 512, month := date / 32 % 16, day := date % 32,
    hour := time / 2048, minute := time / 32 % 64, step := time % 32 }

/-! ## Writing -/

/-- The fields that the header of a file and its row in the directory share. -/
def commonFields (f : JarFile) : Bytes :=
  let path := f.path.toUTF8.toList
  let utf8Flag := 0x0800
  field16 20 ++ field16 utf8Flag ++ field16 0 ++ field16 (timeField f.time) ++
    field16 (dateField f.time) ++ field32 (checksum f.data).toNat ++ field32 f.data.length ++
    field32 f.data.length ++ field16 path.length ++ field16 0

/-- The header and the data of a file. -/
def fileBytes (f : JarFile) : Bytes :=
  field32 0x04034b50 ++ commonFields f ++ f.path.toUTF8.toList ++ f.data

/-- The row of a file that begins at an offset. -/
def directoryRow (f : JarFile) (offset : Nat) : Bytes :=
  field32 0x02014b50 ++ field16 20 ++ commonFields f ++ field16 0 ++ field16 0 ++ field16 0 ++
    field32 0 ++ field32 offset ++ f.path.toUTF8.toList

/-- The trailer. -/
def trailer (count size offset : Nat) : Bytes :=
  field32 0x06054b50 ++ field16 0 ++ field16 0 ++ field16 count ++ field16 count ++ field32 size ++
    field32 offset ++ field16 0

/-- Writes files behind the parts in `bodies` and `rows`, which stand in reverse. -/
def encodeAfter (offset : Nat) (bodies rows : List Bytes) : Jar → Bytes
  | [] =>
    let directory := rows.reverse.flatten
    bodies.reverse.flatten ++ directory ++ trailer rows.length directory.length offset
  | f :: rest =>
    let body := fileBytes f
    encodeAfter (offset + body.length) (body :: bodies) (directoryRow f offset :: rows) rest

/-- The bytes of a jar. -/
def encode (jar : Jar) : Bytes :=
  encodeAfter 0 [] [] jar

/-! ## Reading -/

/-- The offset of the trailer, which is the last place that looks like one. Places from `offset`
down are tried. -/
def findTrailer (data : Array UInt8) : Nat → Option Nat
  | 0 => if read32 data 0 = some 0x06054b50 then some 0 else none
  | offset + 1 =>
    if read32 data (offset + 1) = some 0x06054b50 then some (offset + 1)
    else findTrailer data offset

/-- The data of a file whose header begins at an offset. -/
def readData (data : Array UInt8) (method size offset : Nat) : Option Bytes := do
  if (← read32 data offset) ≠ 0x04034b50 then none
  let skipped := (← read16 data (offset + 26)) + (← read16 data (offset + 28))
  let body ← readBytes data (offset + 30 + skipped) size
  match method with
  | 0 => some body
  | 8 => Inflate.inflate? body
  | _ => none

/-- Reads `count` rows of the directory from an offset on. -/
def readRows (data : Array UInt8) (shift : Nat) : (count offset : Nat) → Option Jar
  | 0, _ => some []
  | count + 1, offset => do
    if (← read32 data offset) ≠ 0x02014b50 then none
    let method ← read16 data (offset + 10)
    let time := timestamp (← read16 data (offset + 12)) (← read16 data (offset + 14))
    let sum ← read32 data (offset + 16)
    let size ← read32 data (offset + 20)
    let pathLength ← read16 data (offset + 28)
    let skipped := (← read16 data (offset + 30)) + (← read16 data (offset + 32))
    let header ← read32 data (offset + 42)
    let path ← readBytes data (offset + 46) pathLength
    let path ← String.fromUTF8? ⟨path.toArray⟩
    let content ← readData data method size (shift + header)
    if (checksum content).toNat ≠ sum then none
    let rest ← readRows data shift count (offset + 46 + pathLength + skipped)
    return { path, data := content, time } :: rest

/-- The jar in some bytes. Bytes that stand in front of it do not matter. -/
def decode? (bytes : Bytes) : Option Jar := do
  let data := bytes.toArray
  let last ← findTrailer data data.size
  let count ← read16 data (last + 10)
  let size ← read32 data (last + 12)
  let offset ← read32 data (last + 16)
  if last < offset + size then none
  readRows data (last - (offset + size)) count (last - size)

end JarRemap.Zip

namespace JarRemap

/-- Reads a jar from the bytes of a file. -/
def Jar.decode (bytes : Bytes) : Except ArchiveError Jar :=
  match Zip.decode? bytes with
  | some jar => .ok jar
  | none => .error .notJar

end JarRemap
