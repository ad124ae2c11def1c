import Xv6.Log.Model
import Xv6.Fs.Contents

/-!
# Open files

`file.c`, with its `pread` and `pwrite`. What `piperead` and `pipewrite` return is an
argument of a call: they touch neither the files nor the inodes. `begin_op` and `end_op`
leave what `bread` returns.
-/

namespace Xv6.Fs

open Lib Log

def NFILE : Nat := 100

inductive FdType where
  | FD_NONE
  | FD_PIPE
  | FD_INODE
  deriving DecidableEq, Repr

structure File where
  type : FdType
  ref : Int
  readable : Bool
  writable : Bool
  pipe : Nat
  ip : Nat
  off : Nat
  deriving DecidableEq, Repr

structure Stat where
  type : Int
  dev : Nat
  ino : Nat
  nlink : Int
  size : Nat
  deriving DecidableEq, Repr

def ROOTDEV : Nat := 1

def State.stati (s : State) (ip : Nat) : Stat where
  dev := ROOTDEV
  ino := ip
  type := (s.icache ip).din.type
  nlink := (s.icache ip).din.nlink
  size := (s.icache ip).din.size

/-- The files of `ftable`, over the inode layer. -/
structure Ftable where
  fs : State
  file : Nat → File

/-- `max` in `filewrite` and `pwrite`. -/
def maxWrite : Int := (MAXOPBLOCKS - 1 - 1 - 2) / 2 * 512

namespace Ftable

variable (t : Ftable)

def setFile (f : Nat) (ff : File) : Ftable := { t with file := Function.update t.file f ff }

/-- `f->off += r`. -/
def addOff (f : Nat) (r : Int) : Ftable :=
  t.setFile f { t.file f with off := uint ((t.file f).off + r) }

def filealloc : Option (Nat × Ftable) :=
  ((List.range NFILE).find? fun f => (t.file f).ref = 0).map fun f =>
    (f, t.setFile f { t.file f with ref := 1 })

def filedup (f : Nat) : Except Fault Ftable :=
  if (t.file f).ref < 1 then .error (.panic "filedup")
  else .ok (t.setFile f { t.file f with ref := (t.file f).ref + 1 })

/-- What is left to do when the last reference to a file is gone. -/
inductive Evicted where
  | none
  | pipeclose (pipe : Nat) (writable : Bool)
  | iput (ip : Nat)
  deriving DecidableEq, Repr

/-- `fileclose` up to where it has released `ftable.lock`. -/
def fileclose (f : Nat) : Except Fault (Evicted × Ftable) :=
  let ff := t.file f
  if ff.ref < 1 then .error (.panic "fileclose")
  else if 0 < ff.ref - 1 then .ok (.none, t.setFile f { ff with ref := ff.ref - 1 })
  else
    .ok (match ff.type with
      | .FD_NONE => .none
      | .FD_PIPE => .pipeclose ff.pipe ff.writable
      | .FD_INODE => .iput ff.ip, t.setFile f { ff with ref := 0, type := .FD_NONE })

def filestat (p f : Nat) : Except Fault (Option Stat × Ftable) :=
  if (t.file f).type = .FD_INODE then do
    let s ← t.fs.ilock p (t.file f).ip
    let st := s.stati (t.file f).ip
    let s ← s.iunlock p (t.file f).ip
    return (some st, { t with fs := s })
  else .ok (none, t)

/-- `fileread`: the value returned and the bytes at `addr`. -/
def fileread (p f : Nat) (n : Int) (piperead : Int × List UInt8) :
    Except Fault ((Int × List UInt8) × Ftable) :=
  if (t.file f).readable = false then .ok ((-1, []), t)
  else match (t.file f).type with
  | .FD_PIPE => .ok (piperead, t)
  | .FD_INODE => do
    let s ← t.fs.ilock p (t.file f).ip
    let (r, s) ← s.readi p (t.file f).ip (t.file f).off (uint n)
    let t := if 0 < r.1 then t.addOff f r.1 else t
    let s ← s.iunlock p (t.file f).ip
    return (r, { t with fs := s })
  | .FD_NONE => .error (.panic "fileread")

/-- The loop of `filewrite` from `i` on, which runs `n` times at most. -/
def filewriteLoop (p f : Nat) (addr : Nat → UInt8) (n : Int) :
    Nat → Ftable → Int → Except Fault (Int × Ftable)
  | 0, t, i => .ok (i, t)
  | fuel + 1, t, i =>
    if i < n then do
      let n1 := if maxWrite < n - i then maxWrite else n - i
      let s ← t.fs.ilock p (t.file f).ip
      let (r, s) ← s.writei p (t.file f).ip (fun j => addr (i.toNat + j)) (t.file f).off (uint n1)
      let t := if 0 < r then t.addOff f r else t
      let s ← s.iunlock p (t.file f).ip
      let t := { t with fs := s }
      if r < 0 then return (i, t)
      else if r ≠ n1 then .error (.panic "short filewrite")
      else filewriteLoop p f addr n fuel t (i + r)
    else .ok (i, t)

def filewrite (p f : Nat) (addr : Nat → UInt8) (n : Int) (pipewrite : Int) :
    Except Fault (Int × Ftable) :=
  if (t.file f).writable = false then .ok (-1, t)
  else match (t.file f).type with
  | .FD_PIPE => .ok (pipewrite, t)
  | .FD_INODE => do
    let (i, t) ← filewriteLoop p f addr n n.toNat t 0
    return (if i = n then n else -1, t)
  | .FD_NONE => .error (.panic "filewrite")

/-- The loop of `pwrite` from `i` on, which runs `n` times at most. -/
def pwriteLoop (p f : Nat) (addr : Nat → UInt8) (n : Int) :
    Nat → Ftable → Int → Int → Except Fault (Int × Ftable)
  | 0, t, i, _ => .ok (i, t)
  | fuel + 1, t, i, offset =>
    if i < n then do
      let n1 := if maxWrite < n - i then maxWrite else n - i
      let s ← t.fs.ilock p (t.file f).ip
      let (r, s) ← s.writei p (t.file f).ip (fun j => addr (i.toNat + j)) (uint offset) (uint n1)
      let offset := if 0 < r then int (offset + r) else offset
      let s ← s.iunlock p (t.file f).ip
      let t := { t with fs := s }
      if r < 0 then return (i, t)
      else if r ≠ n1 then .error (.panic "short filewrite")
      else pwriteLoop p f addr n fuel t (i + r) offset
    else .ok (i, t)

def pwrite (p f : Nat) (addr : Nat → UInt8) (n offset : Int) (pipewrite : Int) :
    Except Fault (Int × Ftable) :=
  if (t.file f).writable = false then .ok (-1, t)
  else match (t.file f).type with
  | .FD_PIPE => .ok (pipewrite, t)
  | .FD_INODE => do
    let (i, t) ← pwriteLoop p f addr n n.toNat t 0 offset
    return (if i = n then n else -1, t)
  | .FD_NONE => .error (.panic "filewrite")

/-- `pread`: the value returned and the bytes at `addr`. Its first two `return`s behind
`ilock` are not behind an `iunlock`. -/
def pread (p f : Nat) (n offset : Int) (piperead : Int × List UInt8) :
    Except Fault ((Int × List UInt8) × Ftable) :=
  if (t.file f).readable = false then .ok ((-1, []), t)
  else match (t.file f).type with
  | .FD_PIPE => .ok (piperead, t)
  | .FD_INODE => do
    let s ← t.fs.ilock p (t.file f).ip
    let size := (s.icache (t.file f).ip).din.size
    if uint offset = size then return ((0, []), { t with fs := s })
    else if size < uint (offset + n) ∨ int (offset + n) < offset then
      return ((-1, []), { t with fs := s })
    else
      let (r, s) ← s.readi p (t.file f).ip (uint offset) (uint n)
      let s ← s.iunlock p (t.file f).ip
      return (if r.1 < 0 then (-1, r.2) else r, { t with fs := s })
  | .FD_NONE => .error (.panic "fileread")

end Ftable

end Xv6.Fs
