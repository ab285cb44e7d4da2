import Conclave.Lib.Codec

/-! The frame that a renderer process sends to the browser process: the finished bitmap,
the text overlays, the hit regions and the state of the window, as one payload. Strings,
lists and paths are written after a count of 32 bits. -/

namespace Conclave.Browser.FrameCodec

open Lib Reader

inductive DecodeError where
  | truncated
  | invalidUtf8
  | outOfRange
  deriving DecidableEq, Repr

/-- The state of a decoder is the error that a buffer too short for it leads to. -/
abbrev Decoder (α : Type) := Reader DecodeError α

def failWith {α : Type} (e : DecodeError) : Decoder α := fun b _ => (none, b, e)

def Decoder.run {α : Type} (r : Decoder α) (b : Bytes) : Except DecodeError α :=
  match r b .truncated with
  | (some a, _, _) => .ok a
  | (none, _, e) => .error e

/-! ### Primitives -/

def writeU8 (v : UInt8) : Bytes := toLe 1 v.toNat

def writeU32 (v : UInt32) : Bytes := toLe 4 v.toNat

def writeU64 (v : UInt64) : Bytes := toLe 8 v.toNat

def writeI32 (v : Int32) : Bytes := toLe 4 v.toUInt32.toNat

def writeBool (v : Bool) : Bytes := writeU8 (if v then 1 else 0)

def writeStr (s : String) : Bytes := toLe 4 (utf8 s).length ++ utf8 s

def writeOption {α : Type} (write : α → Bytes) : Option α → Bytes
  | some a => writeBool true ++ write a
  | none => writeBool false

/-- The elements of a list after their count `as u32`. -/
def writeList {α : Type} (write : α → Bytes) (as : List α) : Bytes :=
  toLe 4 as.length ++ as.flatMap write

def readU8 : Decoder UInt8 := do return UInt8.ofNat (← uint 1)

def readU32 : Decoder UInt32 := do return UInt32.ofNat (← uint 4)

def readU64 : Decoder UInt64 := do return UInt64.ofNat (← uint 8)

def readI32 : Decoder Int32 := do return (← readU32).toInt32

def readBool : Decoder Bool := do return (← readU8) ≠ 0

def readStr : Decoder String := do
  let b ← bytes
  match fromUtf8 b with
  | some s => return s
  | none => failWith .invalidUtf8

def readOption {α : Type} (r : Decoder α) : Decoder (Option α) := do
  if ← readBool then return some (← r) else return none

def readList {α : Type} (r : Decoder α) : Decoder (List α) := do
  let n ← readU32
  times n.toNat r

/-! ### Text items -/

inductive TextAlign where
  | left
  | center
  | right
  deriving DecidableEq, Repr

/-- Floats stand as their bits. -/
structure TextGradientStop where
  r : UInt8
  g : UInt8
  b : UInt8
  a : UInt8
  posFrac : Option UInt32
  posPx : Option UInt32
  deriving DecidableEq, Repr

structure TextGradient where
  angleDeg : UInt32
  stops : List TextGradientStop
  repeating : Bool
  deriving DecidableEq, Repr

structure TextItem where
  x : Int32
  y : Int32
  w : Int32
  h : Int32
  fontSizePx : Int32
  bold : Bool
  /-- From 1 to 1000; 0 stands for the weight that `bold` gives. -/
  fontWeight : UInt16
  italic : Bool
  fontFamily : Option String
  colorRgb : UInt8 × UInt8 × UInt8
  colorAlpha : UInt8
  text : String
  align : TextAlign
  letterSpacingPx : Int32
  isChrome : Bool
  textGradient : Option TextGradient

def encodeTextAlign : TextAlign → Bytes
  | .left => writeU8 0
  | .center => writeU8 1
  | .right => writeU8 2

def decodeTextAlign : Decoder TextAlign := do
  match ← readU8 with
  | 0 => return .left
  | 1 => return .center
  | 2 => return .right
  | _ => failWith .outOfRange

def encodeRgb (c : UInt8 × UInt8 × UInt8) : Bytes := writeU8 c.1 ++ writeU8 c.2.1 ++ writeU8 c.2.2

def decodeRgb : Decoder (UInt8 × UInt8 × UInt8) := do
  let r ← readU8
  let g ← readU8
  let b ← readU8
  return (r, g, b)

/-- `clamp(0, 1000) as u16` -/
def clampWeight (v : Int32) : UInt16 := UInt16.ofNat (min (max v.toInt 0) 1000).toNat

/-- A gradient is not written. -/
def encodeTextItem (t : TextItem) : Bytes :=
  writeI32 t.x ++ writeI32 t.y ++ writeI32 t.w ++ writeI32 t.h ++ writeI32 t.fontSizePx ++
    writeBool t.bold ++ writeI32 t.fontWeight.toUInt32.toInt32 ++ writeBool t.italic ++
    writeOption writeStr t.fontFamily ++ encodeRgb t.colorRgb ++ writeU8 t.colorAlpha ++
    writeStr t.text ++ encodeTextAlign t.align ++ writeI32 t.letterSpacingPx ++
    writeBool t.isChrome

def decodeTextItem : Decoder TextItem := do
  let x ← readI32
  let y ← readI32
  let w ← readI32
  let h ← readI32
  let fontSizePx ← readI32
  let bold ← readBool
  let fontWeight ← readI32
  let italic ← readBool
  let fontFamily ← readOption readStr
  let colorRgb ← decodeRgb
  let colorAlpha ← readU8
  let text ← readStr
  let align ← decodeTextAlign
  let letterSpacingPx ← readI32
  let isChrome ← readBool
  return ⟨x, y, w, h, fontSizePx, bold, clampWeight fontWeight, italic, fontFamily, colorRgb,
    colorAlpha, text, align, letterSpacingPx, isChrome, none⟩

/-! ### Hit regions and tabs -/

structure HitRegion where
  x : Int32
  y : Int32
  w : Int32
  h : Int32
  href : Option String
  elementPath : Option (List ℕ)
  deriving DecidableEq

/-- A segment of an element path is written `as u32`. -/
def encodeHitRegion (hr : HitRegion) : Bytes :=
  writeI32 hr.x ++ writeI32 hr.y ++ writeI32 hr.w ++ writeI32 hr.h ++
    writeOption writeStr hr.href ++ writeOption (writeList (toLe 4)) hr.elementPath

def decodeHitRegion : Decoder HitRegion := do
  let x ← readI32
  let y ← readI32
  let w ← readI32
  let h ← readI32
  let href ← readOption readStr
  let elementPath ← readOption (readList do return (← readU32).toNat)
  return ⟨x, y, w, h, href, elementPath⟩

structure TabSummary where
  id : UInt64
  title : String
  url : String
  active : Bool
  deriving DecidableEq, Repr

def encodeTabSummary (t : TabSummary) : Bytes :=
  writeU64 t.id ++ writeStr t.title ++ writeStr t.url ++ writeBool t.active

def decodeTabSummary : Decoder TabSummary := do
  let id ← readU64
  let title ← readStr
  let url ← readStr
  let active ← readBool
  return ⟨id, title, url, active⟩

/-! ### Bitmaps -/

def MAX_FRAME_DIMENSION : UInt32 := 16384

def MAX_FRAME_BYTES : ℕ := 256 * 1024 * 1024

def frameBytesOk (width height : UInt32) (declaredPixels : ℕ) : Bool :=
  if width = 0 ∨ height = 0 then false
  else if width > MAX_FRAME_DIMENSION ∨ height > MAX_FRAME_DIMENSION then false
  else if width.toNat * height.toNat ≠ declaredPixels then false
  else width.toNat * height.toNat * 4 ≤ MAX_FRAME_BYTES

structure Bitmap where
  width : UInt32
  height : UInt32
  pixels : List UInt32
  deriving DecidableEq, Repr

def encodeBitmap (bmp : Bitmap) : Bytes :=
  writeU32 bmp.width ++ writeU32 bmp.height ++ writeList writeU32 bmp.pixels

def decodeBitmap : Decoder Bitmap := do
  let width ← readU32
  let height ← readU32
  let pixelCount ← readU32
  if frameBytesOk width height pixelCount.toNat then
    let pixels ← times (width.toNat * height.toNat) readU32
    return ⟨width, height, pixels⟩
  else failWith .outOfRange

/-! ### Frames -/

def FRAME_CODEC_VERSION : UInt32 := 2

structure ScrollbarTheme where
  widthMode : UInt8
  colors : Option ((UInt8 × UInt8 × UInt8) × UInt8 × UInt8 × UInt8)
  deriving DecidableEq, Repr

structure PaintData where
  bitmap : Bitmap
  texts : List TextItem
  hitRegions : List HitRegion
  title : String
  currentUrl : String
  chromeH : UInt32
  viewportH : UInt32
  caretRect : Option (Int32 × Int32 × Int32 × Int32)
  caretColor : Option (UInt8 × UInt8 × UInt8)
  contentOriginY : UInt32
  documentH : UInt32
  scrollbarTheme : ScrollbarTheme

structure CommittedFrame where
  paint : PaintData
  tabs : List TabSummary

def encodeRect (c : Int32 × Int32 × Int32 × Int32) : Bytes :=
  writeI32 c.1 ++ writeI32 c.2.1 ++ writeI32 c.2.2.1 ++ writeI32 c.2.2.2

def decodeRect : Decoder (Int32 × Int32 × Int32 × Int32) := do
  let x ← readI32
  let y ← readI32
  let w ← readI32
  let h ← readI32
  return (x, y, w, h)

def encodeColors (c : (UInt8 × UInt8 × UInt8) × UInt8 × UInt8 × UInt8) : Bytes :=
  encodeRgb c.1 ++ encodeRgb c.2

def decodeColors : Decoder ((UInt8 × UInt8 × UInt8) × UInt8 × UInt8 × UInt8) := do
  let thumb ← decodeRgb
  let track ← decodeRgb
  return (thumb, track)

def encodeFrame (paint : PaintData) (tabs : List TabSummary) : Bytes :=
  writeU32 FRAME_CODEC_VERSION ++ encodeBitmap paint.bitmap ++
    writeList encodeTextItem paint.texts ++ writeList encodeHitRegion paint.hitRegions ++
    writeStr paint.title ++ writeStr paint.currentUrl ++ writeU32 paint.chromeH ++
    writeU32 paint.viewportH ++ writeOption encodeRect paint.caretRect ++
    writeOption encodeRgb paint.caretColor ++ writeU8 paint.scrollbarTheme.widthMode ++
    writeOption encodeColors paint.scrollbarTheme.colors ++ writeList encodeTabSummary tabs

def readFrame : Decoder CommittedFrame := do
  let version ← readU32
  if version ≠ FRAME_CODEC_VERSION then failWith .outOfRange
  else
    let bitmap ← decodeBitmap
    let texts ← readList decodeTextItem
    let hitRegions ← readList decodeHitRegion
    let title ← readStr
    let currentUrl ← readStr
    let chromeH ← readU32
    let viewportH ← readU32
    let caretRect ← readOption decodeRect
    let caretColor ← readOption decodeRgb
    let widthMode ← readU8
    let colors ← readOption decodeColors
    let tabs ← readList decodeTabSummary
    return ⟨⟨bitmap, texts, hitRegions, title, currentUrl, chromeH, viewportH, caretRect,
      caretColor, 0, 0, ⟨widthMode, colors⟩⟩, tabs⟩

def decodeFrame (b : Bytes) : Except DecodeError CommittedFrame := readFrame.run b

end Conclave.Browser.FrameCodec
