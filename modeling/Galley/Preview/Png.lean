import Galley.Preview.Image

/-!
# PNG files

An image is written as a PNG file of 8-bit RGBA pixels: the signature, a header chunk, one
data chunk holding the rows (each after a filter byte of zero) in a zlib stream of stored
blocks, and the end chunk. Each chunk ends with the CRC-32 of its type and data; the zlib
stream ends with the Adler-32 of the rows.
-/

namespace Galley.Preview

/-- The CRC-32 (reflected, polynomial `0xedb88320`) of bytes. -/
def crc32 (bytes : ByteArray) : UInt32 := Id.run do
  let mut c : UInt32 := 0xffffffff
  for b in bytes do
    c := c ^^^ b.toUInt32
    for _ in [0:8] do
      c := if c &&& 1 = 1 then (c >>> 1) ^^^ 0xedb88320 else c >>> 1
  return c ^^^ 0xffffffff

def adler32 (bytes : ByteArray) : UInt32 := Id.run do
  let mut a : Nat := 1
  let mut b : Nat := 0
  for x in bytes do
    a := (a + x.toNat) % 65521
    b := (b + a) % 65521
  return (b * 65536 + a).toUInt32

def pushWord (out : ByteArray) (w : UInt32) : ByteArray :=
  out.push (w >>> 24).toUInt8 |>.push (w >>> 16).toUInt8 |>.push (w >>> 8).toUInt8 |>.push w.toUInt8

/-- Appends a chunk: length, type, data and CRC. -/
def pushChunk (out : ByteArray) (kind : String) (data : ByteArray) : ByteArray :=
  let typed := kind.toUTF8 ++ data
  pushWord (pushWord out data.size.toUInt32 ++ typed) (crc32 typed)

/-- A zlib stream of stored blocks holding the bytes. -/
def zlibStored (raw : ByteArray) : ByteArray := Id.run do
  let mut out := ByteArray.empty.push 0x78 |>.push 0x01
  let n := raw.size
  let blocks := if n = 0 then 1 else (n + 65534) / 65535
  for i in [0:blocks] do
    let start := 65535 * i
    let len := min 65535 (n - start)
    let final : UInt8 := if i + 1 = blocks then 1 else 0
    out := out.push final |>.push len.toUInt8 |>.push (len / 256).toUInt8
      |>.push (0xffff - len).toUInt8 |>.push ((0xffff - len) / 256).toUInt8
    out := out ++ raw.extract start (start + len)
  return pushWord out (adler32 raw)

/-- The PNG file of an image. -/
def Image.png (img : Image) : ByteArray := Id.run do
  let mut rows := ByteArray.emptyWithCapacity ((4 * img.width + 1) * img.height)
  for y in [0:img.height] do
    rows := rows.push 0 ++ img.pixels.extract (4 * img.width * y) (4 * img.width * (y + 1))
  let header := pushWord (pushWord ByteArray.empty img.width.toUInt32) img.height.toUInt32
    |>.push 8 |>.push 6 |>.push 0 |>.push 0 |>.push 0
  let sig := ByteArray.mk #[0x89, 0x50, 0x4e, 0x47, 0x0d, 0x0a, 0x1a, 0x0a]
  let out := pushChunk sig "IHDR" header
  let out := pushChunk out "IDAT" (zlibStored rows)
  return pushChunk out "IEND" ByteArray.empty

end Galley.Preview
