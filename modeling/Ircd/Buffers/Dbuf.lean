import Ircd.Library.Chain
import Ircd.Library.Loop
import Ircd.Text.Chattr
import Mathlib.Data.UInt
import Mathlib.Logic.Function.Basic

/-! `dbuf.c`: the receive buffer of a connection.

A buffer is a chain of blocks taken from a pool that all buffers share. Blocks live at
addresses of a heap; a `NULL` pointer is `none`, and a read through it, or a loop that
does not end, is a result of `none`. `DBufUsedCount` only feeds the statistics and is
left out.
-/

set_option autoImplicit false

namespace Ircd.Buffers
open Ircd.Library Ircd.Text

abbrev Addr := Nat

def DBUF_SIZE : Nat := 2048

/-- `struct DBufBuffer`; `bytes` is what stands in `data` before `end`. -/
structure Block where
  next : Option Addr := none
  start : Nat := 0
  bytes : List Char := []

structure Mem where
  heap : Addr → Block
  dbufFreeList : Option Addr
  DBufAllocCount : Nat

structure DBuf where
  length : UInt32 := 0
  head : Option Addr := none
  tail : Option Addr := none

def Mem.next (mem : Mem) (a : Addr) : Option Addr := (mem.heap a).next

def Mem.modify (mem : Mem) (a : Addr) (f : Block → Block) : Mem :=
  { mem with heap := Function.update mem.heap a (f (mem.heap a)) }

/-- `dbuf_alloc`; `pool` is the feature `BUFFERPOOL`. -/
def dbufAlloc (pool : Nat) (mem : Mem) : Option (Addr × Mem) :=
  match mem.dbufFreeList with
  | some db => some (db, { mem with dbufFreeList := mem.next db })
  | none =>
    if mem.DBufAllocCount * DBUF_SIZE < pool then
      some (mem.DBufAllocCount, { mem with DBufAllocCount := mem.DBufAllocCount + 1 })
    else none

def dbufFree (mem : Mem) (db : Addr) : Mem :=
  { mem.modify db fun b => { b with next := mem.dbufFreeList } with dbufFreeList := some db }

/-- One turn of the loop of `dbuf_malloc_error`. -/
def mallocErrorTurn : Mem × Option Addr → Option ((Mem × Option Addr) ⊕ Mem)
  | (mem, none) => some (.inr mem)
  | (mem, some db) => some (.inl (dbufFree mem db, mem.next db))

def dbufMallocError (mem : Mem) (dyn : DBuf) : Option (Mem × DBuf) :=
  (loop mallocErrorTurn (mem.DBufAllocCount + 1) (mem, dyn.head)).map fun mem => (mem, {})

/-- One turn of the loop of `dbuf_delete`: drop what the first block has, at most `length`. -/
def deleteTurn : Mem × DBuf × Nat → Option ((Mem × DBuf × Nat) ⊕ (Mem × DBuf))
  | (mem, dyn, length) =>
    if length = 0 then some (.inr (mem, dyn))
    else
      match dyn.head with
      | none => some (.inr (mem, dyn))
      | some db =>
        let b := mem.heap db
        let chunk := min (b.bytes.length - b.start) length
        let mem := mem.modify db fun b => { b with start := b.start + chunk }
        let dyn := { dyn with length := dyn.length - UInt32.ofNat chunk }
        if b.start + chunk = b.bytes.length then
          some (.inl (dbufFree mem db, { dyn with head := b.next }, length - chunk))
        else some (.inl (mem, dyn, length - chunk))

def dbufDelete (mem : Mem) (dyn : DBuf) (length : Nat) : Option (Mem × DBuf) :=
  let length := min length dyn.length.toNat
  (loop deleteTurn (length + 1) (mem, dyn, length)).map fun (mem, dyn) =>
    (mem, if dyn.head = none then { dyn with length := 0, tail := none } else dyn)

/-- What `flush_connections` does to the buffers when sending fails: `dead_link` clears the
receive buffer of every connection that breaks, so blocks of other buffers come free, and
`own` says whether the connection of this very buffer is among them. -/
structure Flush where
  freed : List Addr
  own : Bool

def flushConnections (flush : Flush) (mem : Mem) (dyn : DBuf) : Option (Mem × DBuf) :=
  let mem := flush.freed.foldl dbufFree mem
  if flush.own then dbufDelete mem dyn dyn.length.toNat else some (mem, dyn)

inductive Slot where
  | head
  | tail
  | next (db : Addr)
  deriving DecidableEq

def Slot.read (mem : Mem) (dyn : DBuf) : Slot → Option Addr
  | head => dyn.head
  | tail => dyn.tail
  | next db => mem.next db

def Slot.write (db : Addr) (mem : Mem) (dyn : DBuf) : Slot → Mem × DBuf
  | head => (mem, { dyn with head := some db })
  | tail => (mem, { dyn with tail := some db })
  | next a => (mem.modify a fun b => { b with next := some db }, dyn)

/-- What a `dbuf_put` reads beside its arguments: `BUFFERPOOL`, an `int`,
`HAS_FERGUSON_FLUSHER`, and what each flush it asks for would do. -/
structure PutEnv where
  pool : Nat
  pool_int : pool < 2 ^ 31
  flusher : Bool
  flushes : List Flush
  asked : flusher = false → flushes = []

/-- A block for `dbuf_put`, after a flush if need be; the inner `none` is failure. -/
def putAlloc (env : PutEnv) (mem : Mem) (dyn : DBuf) (flushes : List Flush) :
    Option (Mem × DBuf × List Flush × Option Addr) :=
  match dbufAlloc env.pool mem with
  | some (db, mem) => some (mem, dyn, flushes, some db)
  | none =>
    if !env.flusher then some (mem, dyn, flushes, none)
    else
      match flushConnections (flushes.headD ⟨[], false⟩) mem dyn with
      | none => none
      | some (mem, dyn) =>
        match dbufAlloc env.pool mem with
        | some (db, mem) => some (mem, dyn, flushes.tail, some db)
        | none => some (mem, dyn, flushes.tail, none)

def putLink (db : Addr) (mem : Mem) (dyn : DBuf) (h : Slot) : Mem × DBuf :=
  let (mem, dyn) := h.write db mem { dyn with tail := some db }
  (mem.modify db fun _ => {}, dyn)

def putCopy (db : Addr) (mem : Mem) (buf : List Char) : Mem × List Char :=
  let chunk := min (DBUF_SIZE - (mem.heap db).bytes.length) buf.length
  (mem.modify db fun b => { b with bytes := b.bytes ++ buf.take chunk }, buf.drop chunk)

structure Putting where
  mem : Mem
  dyn : DBuf
  h : Slot
  buf : List Char
  flushes : List Flush

/-- One turn of the loop of `dbuf_put`; the result says whether all bytes went in. -/
def putTurn (env : PutEnv) (s : Putting) : Option (Putting ⊕ (Bool × Mem × DBuf)) :=
  if s.buf = [] then some (.inr (true, s.mem, s.dyn))
  else
    match s.h.read s.mem s.dyn with
    | some db =>
      let (mem, buf) := putCopy db s.mem s.buf
      some (.inl { s with mem, h := .next db, buf })
    | none =>
      match putAlloc env s.mem s.dyn s.flushes with
      | none => none
      | some (mem, dyn, _, none) => some (.inr (false, mem, dyn))
      | some (mem, dyn, flushes, some db) =>
        let (mem, dyn) := putLink db mem dyn s.h
        let (mem, buf) := putCopy db mem s.buf
        some (.inl ⟨mem, dyn, .next db, buf, flushes⟩)

def dbufPut (env : PutEnv) (mem : Mem) (dyn : DBuf) (buf : List Char) : Option (Bool × Mem × DBuf) :=
  let h : Slot := if dyn.length = 0 then .head else .tail
  let dyn := { dyn with length := dyn.length + UInt32.ofNat buf.length }
  match loop (putTurn env) (buf.length + 2) ⟨mem, dyn, h, buf, env.flushes⟩ with
  | none => none
  | some (true, mem, dyn) => some (true, mem, dyn)
  | some (false, mem, dyn) => (dbufMallocError mem dyn).map fun (mem, dyn) => (false, mem, dyn)

/-- `dbuf_map`: the data of the first block; the inner `none` is the source's `NULL`. -/
def dbufMap (mem : Mem) (dyn : DBuf) : Option (Option (List Char)) :=
  if dyn.length = 0 then some none
  else dyn.head.map fun db => some ((mem.heap db).bytes.drop (mem.heap db).start)

/-- One turn of the loop of `dbuf_get`; `moved` is what has been copied. -/
def getTurn : Mem × DBuf × Nat × List Char → Option ((Mem × DBuf × Nat × List Char) ⊕ (Mem × DBuf × List Char))
  | (mem, dyn, length, moved) =>
    if length = 0 then some (.inr (mem, dyn, moved))
    else
      match dbufMap mem dyn with
      | none => none
      | some none => some (.inr (mem, dyn, moved))
      | some (some b) =>
        let chunk := b.take length
        (dbufDelete mem dyn chunk.length).map fun (mem, dyn) =>
          .inl (mem, dyn, length - chunk.length, moved ++ chunk)

def dbufGet (mem : Mem) (dyn : DBuf) (length : Nat) : Option (Mem × DBuf × List Char) :=
  loop getTurn (length + 1) (mem, dyn, length, [])

/-- One turn of the loop of `dbuf_flush`, at block `db`. -/
def flushTurn : Mem × DBuf × Addr → Option ((Mem × DBuf × Addr) ⊕ (Mem × DBuf))
  | (mem, dyn, db) =>
    let b := mem.heap db
    match b.bytes[b.start]? with
    | none => none
    | some c =>
      if isEol c then
        let mem := mem.modify db fun b => { b with start := b.start + 1 }
        if b.start + 1 = b.bytes.length then
          match b.next with
          | none => some (.inr (dbufFree mem db, { length := 0, head := none, tail := none }))
          | some db' =>
            some (.inl (dbufFree mem db, { dyn with head := some db', length := dyn.length - 1 }, db'))
        else some (.inl (mem, { dyn with length := dyn.length - 1 }, db))
      else some (.inr (mem, dyn))

/-- `dbuf_flush`, with the number it returns. -/
def dbufFlush (mem : Mem) (dyn : DBuf) : Option (Mem × DBuf × UInt32) :=
  match dyn.head with
  | none => some (mem, dyn, 0)
  | some db =>
    (loop flushTurn (dyn.length.toNat + 1) (mem, dyn, db)).map fun (mem, dyn) => (mem, dyn, dyn.length)

/-- One turn of the loop of `dbuf_getmsg`, at block `db`; `copied` is the line so far, and
`none` in the result means that no end of line was met. -/
def getmsgTurn (mem : Mem) : Addr × Nat × List Char → Option ((Addr × Nat × List Char) ⊕ Option (List Char))
  | (db, length, copied) =>
    if length = 0 then some (.inr none)
    else
      let b := mem.heap db
      let seen := (b.bytes.drop b.start).take length
      let line := seen.takeWhile fun c => !isEol c
      if line.length < seen.length then some (.inr (some (copied ++ line)))
      else
        match b.next with
        | none => some (.inr none)
        | some db' => some (.inl (db', length - line.length, copied ++ line))

/-- `dbuf_getmsg`; an empty line stands for its result of zero. -/
def dbufGetmsg (mem : Mem) (dyn : DBuf) (length : Nat) : Option (Mem × DBuf × List Char) :=
  match dbufFlush mem dyn with
  | none => none
  | some (mem, dyn, result) =>
    if result = 0 then some (mem, dyn, [])
    else
      match dyn.head with
      | none => none
      | some db =>
        let length := min length dyn.length.toNat
        match loop (getmsgTurn mem) (length + 1) (db, length, []) with
        | none => none
        | some none => some (mem, dyn, [])
        | some (some line) =>
          match dbufDelete mem dyn line.length with
          | none => none
          | some (mem, dyn) => (dbufFlush mem dyn).map fun (mem, dyn, _) => (mem, dyn, line)

end Ircd.Buffers
