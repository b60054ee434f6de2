import Mathlib.Logic.Function.Basic
import VectorLedger.Wal.Writer

/-! The writer in group-commit mode and the background flusher. They share a flag that says whether there is something to
    flush; each step of the state below is one action on the flag, on a file or on the directory. -/

namespace VectorLedger.Wal

/-- The byte strings that an append writes one after the other: three for a record in plaintext, one for an encrypted
    one. -/
def WalWriter.pieces (c : Crypto) (w : WalWriter) (nonce : Nonce) (r : Record) : List Bytes :=
  match w.encryptionKey with
  | some key => [encryptRecord c (c.deriveSegmentKey key w.activeIndex) nonce r.toBytes w.activeIndex]
  | none => [r.header.toBytes, r.payload, leBytes 4 r.crc32.toNat]

inductive WriterPc where
  | idle
  | sealing (r : Record) (nonce : Nonce)
  | creating (r : Record) (nonce : Nonce)
  /-- Write what is left of the record, and then set the flag. -/
  | writing (pieces : List Bytes)
  /-- Fsync the active segment, in a call of sync that found the flag set. -/
  | syncing
  | clearing
  deriving DecidableEq

/-- What the flusher does next. At a shutdown it flushes for the last time and leaves the flag as it is. -/
inductive FlusherPc where
  | sleeping
  | listing (last : Bool)
  /-- Fsync the segment that was the last in the directory. -/
  | flushing (index : Nat) (last : Bool)
  | clearing
  | exited
  deriving DecidableEq

structure GroupCommit where
  writer : WalWriter
  /-- The active segment has been sealed, and the next one is not there yet. -/
  activeSealed : Bool
  dirty : Bool
  /-- How many bytes of each segment have been fsynced. -/
  synced : Nat → Nat
  writerPc : WriterPc
  flusherPc : FlusherPc

inductive FlushEvent where
  | append (a : Append)
  | sync
  | writer
  /-- It fails; a write has put down so many bytes. -/
  | writerFails (written : Nat)
  | wake
  | shutdown
  | flusher
  | flusherFails

namespace GroupCommit

/-- A writer is opened on a directory whose files are on disk. -/
def start (c : Crypto) (d : Dir) (segmentMaxSize : Nat) (masterKey : Option WalKey) : GroupCommit where
  writer := .openWithOptions c d segmentMaxSize masterKey
  activeSealed := false
  dirty := false
  synced i := ((d.find? (·.index == i)).map (·.bytes.length)).getD 0
  writerPc := .idle
  flusherPc := .sleeping

def fsyncActive (s : GroupCommit) : GroupCommit :=
  { s with synced := Function.update s.synced s.writer.activeIndex s.writer.active.length }

def fsyncFile (s : GroupCommit) (index : Nat) : GroupCommit :=
  match s.writer.dir.find? (·.index == index) with
  | some f => { s with synced := Function.update s.synced index f.bytes.length }
  | none => s

def append (c : Crypto) (s : GroupCommit) (a : Append) : GroupCommit :=
  let r := s.writer.recordFor c a
  let w := { s.writer with sequence := s.writer.sequence + 1 }
  if !s.activeSealed && w.hasSpace (w.frameFor c a.nonce r).length then
    { s with writer := w, writerPc := .writing (w.pieces c a.nonce r) }
  else { s with writer := w, writerPc := .sealing r a.rollNonce }

def writerStep (c : Crypto) (s : GroupCommit) : Option GroupCommit :=
  match s.writerPc with
  | .idle => none
  | .sealing r nonce => some { s.fsyncActive with activeSealed := true, writerPc := .creating r nonce }
  | .creating r nonce =>
    let w := s.writer.rollSegment
    some { s with
      writer := w
      activeSealed := false
      synced := Function.update s.synced w.activeIndex 0
      writerPc := .writing (w.pieces c nonce r) }
  | .writing (p :: ps) =>
    some { s with writer := { s.writer with active := s.writer.active ++ p }, writerPc := .writing ps }
  | .writing [] => some { s with dirty := true, writerPc := .idle }
  | .syncing => some { s.fsyncActive with writerPc := .clearing }
  | .clearing => some { s with dirty := false, writerPc := .idle }

def writerFails (s : GroupCommit) (written : Nat) : Option GroupCommit :=
  match s.writerPc with
  | .sealing _ _ | .creating _ _ | .syncing => some { s with writerPc := .idle }
  | .writing (p :: _) =>
    some { s with writer := { s.writer with active := s.writer.active ++ p.take written }, writerPc := .idle }
  | .idle | .writing [] | .clearing => none

def afterFlush (last : Bool) : FlusherPc := if last then .exited else .sleeping

def flusherStep (s : GroupCommit) : Option GroupCommit :=
  match s.flusherPc with
  | .listing last =>
    match s.writer.dir.getLast? with
    | some f => some { s with flusherPc := .flushing f.index last }
    | none => some { s with flusherPc := afterFlush last }
  | .flushing index last => some { s.fsyncFile index with flusherPc := if last then .exited else .clearing }
  | .clearing => some { s with dirty := false, flusherPc := .sleeping }
  | .sleeping | .exited => none

def flusherFails (s : GroupCommit) : Option GroupCommit :=
  match s.flusherPc with
  | .listing last | .flushing _ last => some { s with flusherPc := afterFlush last }
  | .sleeping | .clearing | .exited => none

def step (c : Crypto) (s : GroupCommit) : FlushEvent → Option GroupCommit
  | .append a => if s.writerPc = .idle then some (s.append c a) else none
  | .sync =>
    if s.writerPc = .idle then some { s with writerPc := if s.dirty then .syncing else .idle } else none
  | .writer => s.writerStep c
  | .writerFails written => s.writerFails written
  | .wake =>
    if s.flusherPc = .sleeping then some { s with flusherPc := if s.dirty then .listing false else .sleeping } else none
  | .shutdown =>
    if s.flusherPc = .sleeping then some { s with flusherPc := if s.dirty then .listing true else .exited } else none
  | .flusher => s.flusherStep
  | .flusherFails => s.flusherFails

end GroupCommit

end VectorLedger.Wal
