import Conclave.Lib.Codec
import Conclave.Lib.Entries

/-! IndexedDB on disk: script values under tag bytes, databases and cache entries under a
magic number and a version. -/

namespace Conclave.Browser.IndexedDb

open Lib

/-- The values of the script engine. A callable is a function of any of its three kinds,
and `other` stands for what is never stored. A number is the bits of an `f64`. -/
inductive Value where
  | undefined
  | hole
  | null
  | bool (b : Bool)
  | number (bits : UInt64)
  | string (s : String)
  | array (items : List Value)
  | object (entries : List (String × Value))
  | callable
  | other
  deriving Repr

structure RowSnapshot where
  key : Value
  value : Value

structure StoreSnapshot where
  name : String
  keyPath : Option String
  autoIncrement : Bool
  autoKey : UInt64
  rows : List RowSnapshot

structure DbSnapshot where
  name : String
  version : UInt32
  stores : List StoreSnapshot

/-! ### Writing -/

def MAGIC : Bytes := [0x54, 0x42, 0x49, 0x44, 0x42]

def VALUE_BLOB_MAGIC : Bytes := [0x54, 0x42, 0x56, 0x41, 0x4c]

def CACHE_MAGIC : Bytes := [0x54, 0x42, 0x43, 0x41, 0x43]

def DISK_VERSION : ℕ := 1

def CACHE_VERSION : ℕ := 1

def TAG_UNDEFINED : UInt8 := 0
def TAG_NULL : UInt8 := 1
def TAG_BOOL : UInt8 := 2
def TAG_NUMBER : UInt8 := 3
def TAG_STRING : UInt8 := 4
def TAG_ARRAY : UInt8 := 5
def TAG_OBJECT : UInt8 := 6

def MAX_DEPTH : ℕ := 128

def isInternalKey (k : String) : Bool := k.toList.head? = some '\u0001'

/-- The low 32 bits of a count, as the cast to `u32` leaves them. -/
def wrU32 (n : ℕ) : Bytes := toLe 4 n

def wrStr (s : String) : Bytes := wrU32 (utf8 s).length ++ utf8 s

/-- The properties of an object that are written. -/
def isStored (e : String × Value) : Bool :=
  !isInternalKey e.1 &&
    match e.2 with
    | .callable | .undefined => false
    | _ => true

/-- `room` is what the depth leaves of `MAX_DEPTH`. -/
def encodeValue : ℕ → Value → Bytes
  | 0, _ => [TAG_NULL]
  | room + 1, v =>
    match v with
    | .undefined | .hole => [TAG_UNDEFINED]
    | .null => [TAG_NULL]
    | .bool b => [TAG_BOOL, if b then 1 else 0]
    | .number bits => TAG_NUMBER :: toLe 8 bits.toNat
    | .string s => TAG_STRING :: wrStr s
    | .array items => TAG_ARRAY :: (wrU32 items.length ++ items.flatMap (encodeValue room))
    | .object map =>
      let entries := map.filter isStored
      TAG_OBJECT :: (wrU32 entries.length ++
        entries.flatMap fun e => wrStr e.1 ++ encodeValue room e.2)
    | .callable | .other => [TAG_NULL]

def encodeValueBlob (v : Value) : Bytes :=
  VALUE_BLOB_MAGIC ++ wrU32 DISK_VERSION ++ encodeValue MAX_DEPTH v

def encodeKeyPath : Option String → Bytes
  | some kp => 1 :: wrStr kp
  | none => [0]

def encodeRow (row : RowSnapshot) : Bytes :=
  encodeValue MAX_DEPTH row.key ++ encodeValue MAX_DEPTH row.value

def encodeStore (s : StoreSnapshot) : Bytes :=
  wrStr s.name ++ encodeKeyPath s.keyPath ++ [if s.autoIncrement then 1 else 0] ++
    toLe 8 s.autoKey.toNat ++ wrU32 s.rows.length ++ s.rows.flatMap encodeRow

def DbSnapshot.toBytes (db : DbSnapshot) : Bytes :=
  MAGIC ++ wrU32 DISK_VERSION ++ wrStr db.name ++ wrU32 db.version.toNat ++
    wrU32 db.stores.length ++ db.stores.flatMap encodeStore

def encodeCacheEntry (e : String × Value) : Bytes :=
  wrStr e.1 ++ wrU32 (encodeValueBlob e.2).length ++ encodeValueBlob e.2

def encodeCache (entries : List (String × Value)) : Bytes :=
  CACHE_MAGIC ++ wrU32 CACHE_VERSION ++ wrU32 entries.length ++ entries.flatMap encodeCacheEntry

/-! ### Reading -/

/-- The state of a reader is whether an index was out of range, which ends the program. -/
abbrev DiskReader := Reader Bool

namespace DiskReader

open Reader

def outOfRange {α : Type} : DiskReader α := fun b _ => (none, b, true)

/-- The integer in the first bytes of a slice, each taken by its index. -/
def fromLeBytes (k : ℕ) (slice : Bytes) : DiskReader ℕ :=
  if k ≤ slice.length then return leNat (slice.take k) else outOfRange

def uint (k : ℕ) : DiskReader ℕ := do
  let slice ← take k
  fromLeBytes k slice

def str : DiskReader String := do
  let len ← uint 4
  let b ← take len
  match fromUtf8 b with
  | some s => return s
  | none => fail

/-- A magic number and a version, both as expected. -/
def header (magic : Bytes) (version : ℕ) : DiskReader Unit := do
  let m ← take magic.length
  if m ≠ magic then fail
  else do
    let v ← uint 4
    if v ≠ version then fail else return ()

/-- A count, which cannot be more than the bytes of the whole file. -/
def counted {α : Type} (total : ℕ) (item : DiskReader α) : DiskReader (List α) := do
  let n ← uint 4
  if total < n then fail else times n item

end DiskReader

open Reader DiskReader

/-- What follows a tag. `item` reads the values one level down. -/
def decodeTagged (total : ℕ) (item : DiskReader Value) : ℕ → DiskReader Value
  | 0 => return .undefined
  | 1 => return .null
  | 2 => do
    let b ← DiskReader.uint 1
    return .bool (b ≠ 0)
  | 3 => do
    let bits ← DiskReader.uint 8
    return .number (UInt64.ofNat bits)
  | 4 => do
    let s ← DiskReader.str
    return .string s
  | 5 => do
    let items ← counted total item
    return .array items
  | 6 => do
    let entries ← counted total (do
      let k ← DiskReader.str
      let val ← item
      return (k, val))
    return .object (entries.foldl (fun map e => Entries.put map e.1 e.2) [])
  | _ => fail

def decodeValue (total : ℕ) : ℕ → DiskReader Value
  | 0 => fail
  | room + 1 => do
    let tag ← DiskReader.uint 1
    decodeTagged total (decodeValue total room) tag

def readValueBlob (total : ℕ) : DiskReader Value := do
  header VALUE_BLOB_MAGIC DISK_VERSION
  decodeValue total MAX_DEPTH

def readKeyPath : DiskReader (Option String) := do
  let hasKp ← DiskReader.uint 1
  if hasKp = 0 then return none
  else if hasKp = 1 then do
    let kp ← DiskReader.str
    return some kp
  else fail

def readRow (total : ℕ) : DiskReader RowSnapshot := do
  let key ← decodeValue total MAX_DEPTH
  let value ← decodeValue total MAX_DEPTH
  return ⟨key, value⟩

def readStore (total : ℕ) : DiskReader StoreSnapshot := do
  let name ← DiskReader.str
  let keyPath ← readKeyPath
  let autoIncrement ← DiskReader.uint 1
  let autoKey ← DiskReader.uint 8
  let rows ← counted total (readRow total)
  return ⟨name, keyPath, autoIncrement ≠ 0, UInt64.ofNat autoKey, rows⟩

def readDb (total : ℕ) : DiskReader DbSnapshot := do
  header MAGIC DISK_VERSION
  let name ← DiskReader.str
  let version ← DiskReader.uint 4
  let stores ← counted total (readStore total)
  return ⟨name, UInt32.ofNat version, stores⟩

/-- What was read, and whether the program is still running. -/
def run {α : Type} (r : DiskReader α) (bytes : Bytes) : Option α × Bool :=
  ((r bytes false).1, !(r bytes false).2.2)

def fromBytes (bytes : Bytes) : Option DbSnapshot × Bool := run (readDb bytes.length) bytes

def decodeValueBlob (bytes : Bytes) : Option Value × Bool := run (readValueBlob bytes.length) bytes

def readCacheEntry : DiskReader (String × Value) := do
  let url ← DiskReader.str
  let blobLen ← DiskReader.uint 4
  let blob ← take blobLen
  let val ← nested (readValueBlob blob.length) blob
  return (url, val)

def readCache (total : ℕ) : DiskReader (List (String × Value)) := do
  header CACHE_MAGIC CACHE_VERSION
  counted total readCacheEntry

def decodeCache (bytes : Bytes) : List (String × Value) × Bool :=
  ((run (readCache bytes.length) bytes).1.getD [], (run (readCache bytes.length) bytes).2)

end Conclave.Browser.IndexedDb
