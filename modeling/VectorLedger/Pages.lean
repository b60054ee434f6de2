import VectorLedger.Wal.Payload

/-! Pages: the header, behind it the directory of the slots, and the rows, which grow from the end of the page. -/

namespace VectorLedger.Pages

open Wal

inductive PageError where
  | io (text : String)
  | checksumMismatch (pageId : UInt64) (expected actual : UInt32)
  | badMagic (pageId : UInt64)
  | pageFull (pageId : UInt64) (freeBytes needed : Nat)
  | slotNotFound (pageId : UInt64) (slotId : UInt16)
  | pageSealed (pageId : UInt64)
  | contentHashMismatch (pageId : UInt64)
  deriving DecidableEq, Repr

/-! ### Header -/

def pageMagic : UInt32 := 0x56475047

def pageVersion : UInt8 := 1

structure PageHeader where
  magic : UInt32
  version : UInt8
  flags : UInt8
  pageId : UInt64
  tableId : UInt32
  prevPageId : UInt64
  slotCount : UInt16
  freeBytes : UInt16
  contentHash : Hash
  crc32 : UInt32
  deriving DecidableEq, Repr

namespace PageHeader

def size : Nat := 66

def new (pageId : UInt64) (tableId : UInt32) (pageSize : Nat) : PageHeader where
  magic := pageMagic
  version := pageVersion
  flags := 0
  pageId := pageId
  tableId := tableId
  prevPageId := 0
  slotCount := 0
  freeBytes := .ofNat (pageSize - size)
  contentHash := zeroHash
  crc32 := 0

def validateMagic (h : PageHeader) : Bool := h.magic = pageMagic && h.version = pageVersion

def checkedBytes (h : PageHeader) : Bytes :=
  leBytes 4 h.magic.toNat ++ (leBytes 1 h.version.toNat ++ (leBytes 1 h.flags.toNat ++ (leBytes 8 h.pageId.toNat ++
    (leBytes 4 h.tableId.toNat ++ (leBytes 8 h.prevPageId.toNat ++ (leBytes 2 h.slotCount.toNat ++
      (leBytes 2 h.freeBytes.toNat ++ h.contentHash.toList)))))))

def toBytes (h : PageHeader) : Bytes := h.checkedBytes ++ leBytes 4 h.crc32.toNat

def ofBytes (bs : Bytes) : PageHeader :=
  let (magic, bs) := takeNat 4 bs
  let (version, bs) := takeNat 1 bs
  let (flags, bs) := takeNat 1 bs
  let (pageId, bs) := takeNat 8 bs
  let (tableId, bs) := takeNat 4 bs
  let (prevPageId, bs) := takeNat 8 bs
  let (slotCount, bs) := takeNat 2 bs
  let (freeBytes, bs) := takeNat 2 bs
  { magic := .ofNat magic
    version := .ofNat version
    flags := .ofNat flags
    pageId := .ofNat pageId
    tableId := .ofNat tableId
    prevPageId := .ofNat prevPageId
    slotCount := .ofNat slotCount
    freeBytes := .ofNat freeBytes
    contentHash := hashOf bs
    crc32 := .ofNat (takeNat 4 (bs.drop 32)).1 }

end PageHeader

/-! ### Slots -/

def slotDirEntrySize : Nat := 4

structure SlotEntry where
  offset : UInt16
  length : UInt16
  deriving DecidableEq, Repr

structure Page where
  buf : Bytes
  header : PageHeader
  isSealed : Bool
  pageSize : Nat
  deriving DecidableEq, Repr

def window (buf : Bytes) (start n : Nat) : Bytes := (buf.drop start).take n

def patch (buf : Bytes) (start : Nat) (data : Bytes) : Bytes := buf.take start ++ (data ++ buf.drop (start + data.length))

/-- `&buf[start..start + n]`, none where that panics. -/
def slice (buf : Bytes) (start n : Nat) : Option Bytes := if start + n ≤ buf.length then some (window buf start n) else none

/-- `buf[start..start + data.len()].copy_from_slice(data)`, none where that panics. -/
def copyInto (buf : Bytes) (start : Nat) (data : Bytes) : Option Bytes :=
  if start + data.length ≤ buf.length then some (patch buf start data) else none

namespace Page

open PageHeader (size)

variable (crc32 : Bytes → UInt32) (blake3 : Bytes → Hash)

def flushHeader (p : Page) : Page := { p with buf := p.header.toBytes ++ p.buf.drop size }

def computeCrc (p : Page) : UInt32 := crc32 (p.buf.take (size - 4) ++ p.buf.drop size)

def withSize (pageId : UInt64) (tableId : UInt32) (pageSize : Nat) : Option Page :=
  if size + 64 ≤ pageSize then
    some (flushHeader ⟨List.replicate pageSize 0, .new pageId tableId pageSize, false, pageSize⟩)
  else none

def fromBytes (bytes : Bytes) : Except PageError Page :=
  if bytes.length < size then .error (.io "page buffer too small")
  else
    let header := PageHeader.ofBytes bytes
    let page : Page := ⟨bytes, header, true, bytes.length⟩
    if header.validateMagic = false then .error (.badMagic header.pageId)
    else if page.computeCrc crc32 ≠ header.crc32 then
      .error (.checksumMismatch header.pageId header.crc32 (page.computeCrc crc32))
    else if blake3 (bytes.drop size) ≠ header.contentHash then .error (.contentHashMismatch header.pageId)
    else .ok page

/-- The entry of a slot, if there is one. None outside of that is a panic. -/
def readSlotEntry (p : Page) (index : Nat) : Option (Option SlotEntry) :=
  if p.header.slotCount.toNat ≤ index then some none
  else do
    let dirOffset := size + index * slotDirEntrySize
    let offset ← slice p.buf dirOffset 2
    let length ← slice p.buf (dirOffset + 2) 2
    some (some ⟨.ofNat (leNat offset), .ofNat (leNat length)⟩)

def readSlot (p : Page) (slotId : UInt16) : Option (Except PageError Bytes) := do
  match ← p.readSlotEntry slotId.toNat with
  | none => some (.error (.slotNotFound p.header.pageId slotId))
  | some entry =>
    .ok <$> slice p.buf (size + entry.offset.toNat) entry.length.toNat

def slotLengths (p : Page) : Nat → Option Nat
  | 0 => some 0
  | n + 1 => do
    let total ← p.slotLengths n
    let entry ← p.readSlotEntry n
    some (total + (entry.elim 0 (·.length.toNat)))

def writeSlot (p : Page) (data : Bytes) : Option (Except PageError UInt16 × Page) :=
  let slotCount := p.header.slotCount.toNat
  let needed := slotDirEntrySize + data.length
  if p.isSealed then some (.error (.pageSealed p.header.pageId), p)
  else if p.header.freeBytes.toNat < needed then
    some (.error (.pageFull p.header.pageId p.header.freeBytes.toNat needed), p)
  else do
    let used ← p.slotLengths slotCount
    guard (size + used + data.length ≤ p.pageSize)
    let dataStart := p.pageSize - used - data.length
    let buf ← copyInto p.buf dataStart data
    let dirOffset := size + slotCount * slotDirEntrySize
    let buf ← copyInto buf dirOffset (leBytes 2 (dataStart - size))
    let buf ← copyInto buf (dirOffset + 2) (leBytes 2 data.length)
    some (.ok (.ofNat slotCount), { p with
      buf := buf
      header.slotCount := p.header.slotCount + 1
      header.freeBytes := p.header.freeBytes - .ofNat needed })

/-- Rows written one after the other: the accepted ones with their slots, and the page after them. -/
def writeSlots (p : Page) : List Bytes → Option (List (UInt16 × Bytes) × Page)
  | [] => some ([], p)
  | row :: rows => do
    let (written, p) ← p.writeSlot row
    let (accepted, p) ← p.writeSlots rows
    some (match written with | .ok slotId => (slotId, row) :: accepted | .error _ => accepted, p)

def sealPage (p : Page) : Page :=
  let p := p.flushHeader
  let p := { p with header.contentHash := blake3 (p.buf.drop size), header.crc32 := 0 }.flushHeader
  let p := { p with header.crc32 := p.computeCrc crc32 }.flushHeader
  { p with isSealed := true }

end Page

end VectorLedger.Pages
