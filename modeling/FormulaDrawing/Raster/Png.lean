import FormulaDrawing.Raster.Canvas

/-! The image file of an empty, transparent canvas: one bit for each pixel, stored without
compression. -/

namespace FormulaDrawing.Raster

def word (n : UInt32) : List UInt8 :=
  [(n >>> 24).toUInt8, (n >>> 16).toUInt8, (n >>> 8).toUInt8, n.toUInt8]

def half (n : Nat) : List UInt8 := [(n % 256).toUInt8, (n / 256 % 256).toUInt8]

def checkBits : Nat → UInt32 → UInt32
  | 0, c => c
  | n + 1, c => checkBits n (if c &&& 1 = 1 then (c >>> 1) ^^^ 0xEDB88320 else c >>> 1)

def check (bytes : List UInt8) : UInt32 :=
  bytes.foldl (fun c b => checkBits 8 (c ^^^ b.toUInt32)) 0xFFFFFFFF ^^^ 0xFFFFFFFF

def ascii (s : String) : List UInt8 := s.toList.map fun c => c.toNat.toUInt8

def chunk (kind : String) (content : List UInt8) : List UInt8 :=
  let body := ascii kind ++ content
  word content.length.toUInt32 ++ body ++ word (check body)

/-- Zero bytes in stored blocks, the last of which is marked. -/
def storedZeros (n : Nat) : List UInt8 :=
  let block := fun (last : UInt8) (k : Nat) =>
    last :: (half k ++ half (65535 - k)) ++ List.replicate k 0
  (List.replicate (n / 65535) (block 0 65535)).flatten ++ block 1 (n % 65535)

/-- The stream of `n` zero bytes, closed by its checksum. -/
def zeroStream (n : Nat) : List UInt8 :=
  0x78 :: 0x01 :: storedZeros n ++ word ((n % 65521 * 65536 + 1).toUInt32)

/-- The file of a canvas. Each row is led by the byte that says it is not filtered. -/
def Size.canvas (s : Size) : ByteArray :=
  let rows := s.height * (1 + (s.width + 7) / 8)
  ⟨(0x89 :: ascii "PNG\r\n" ++ [0x1A, 0x0A] ++
    chunk "IHDR" (word s.width.toUInt32 ++ word s.height.toUInt32 ++ [1, 0, 0, 0, 0]) ++
    chunk "tRNS" [0, 0] ++ chunk "IDAT" (zeroStream rows) ++ chunk "IEND" []).toArray⟩

/-- Gives a canvas of the drawing's own size; nothing is drawn on it. -/
def blank : Rasterizer := fun source => (imageSize 1 source).map Size.canvas

end FormulaDrawing.Raster
