import Xv6.Fs.Model

/-!
# Directories and paths

The rest of `fs.c`, and the parts of `sys_unlink` and `create` behind the lookup of the
parent. A name is what a `char*` points to, as bytes by offset; a path is a C string
without its end.
-/

namespace Xv6.Fs

def DIRSIZ : Nat := 14

def ROOTINO : Nat := 1

/-- What a `char*` points to. -/
abbrev Name := Nat → UInt8

/-- A C string. -/
def str (l : List UInt8) : Name := fun j => l.getD j 0

def strncmp : Nat → Name → Name → Int
  | 0, _, _ => 0
  | n + 1, p, q =>
    if p 0 ≠ 0 ∧ p 0 = q 0 then strncmp n (fun j => p (j + 1)) (fun j => q (j + 1))
    else (p 0).toNat - (q 0).toNat

/-- The `n` bytes that `strncpy` writes. -/
def strncpy : Nat → Name → Name
  | 0, _ => fun _ => 0
  | n + 1, t => fun j =>
    if j = 0 then t 0 else if t 0 = 0 then 0 else strncpy n (fun j => t (j + 1)) (j - 1)

def namecmp (s t : Name) : Int := strncmp DIRSIZ s t

structure Dirent where
  inum : Nat
  name : Name

/-- A `struct dirent` that was read. -/
def Dirent.ofBytes (bytes : List UInt8) : Dirent where
  inum := (bytes.getD 0 0).toNat + 2 ^ 8 * (bytes.getD 1 0).toNat
  name j := bytes.getD (j + 2) 0

/-- The bytes of a `struct dirent`; `inum` is a `ushort`. -/
def Dirent.bytes (de : Dirent) : Nat → UInt8
  | 0 => UInt8.ofNat de.inum
  | 1 => UInt8.ofNat (de.inum / 2 ^ 8)
  | j + 2 => de.name j

/-- The offsets of `for(off = start; off < size; off += sizeof(de))`. -/
def slots (start size : Nat) : List Nat := List.range' start ((size - start + 15) / 16) 16

namespace State

variable (s : State)

/-- A loop over directory entries: the first that stops it, with its offset. -/
def scan (p ip : Nat) (msg : String) (stop : Dirent → Bool) :
    List Nat → State → Except Fault (Option (Nat × Dirent) × State)
  | [], s => .ok (none, s)
  | off :: offs, s => do
    let ((r, bytes), s) ← s.readi p ip off 16
    if r ≠ 16 then .error (.panic msg)
    else
      let de := Dirent.ofBytes bytes
      if stop de then return (some (off, de), s)
      else scan p ip msg stop offs s

/-- `dirlookup`: the inode found, and `*poff`. -/
def dirlookup (p dp : Nat) (name : Name) : Except Fault (Option (Nat × Nat) × State) :=
  if (s.icache dp).din.type ≠ T_DIR then .error (.panic "dirlookup not DIR")
  else do
    let (found, s) ← scan p dp "dirlookup read"
      (fun de => de.inum ≠ 0 ∧ namecmp name de.name = 0) (slots 0 (s.icache dp).din.size) s
    match found with
    | some (off, de) =>
      let s ← s.iget de.inum
      return (some (de.inum, off), s)
    | none => return (none, s)

def dirlink (p dp : Nat) (name : Name) (inum : Nat) : Except Fault (Int × State) := do
  let (found, s) ← s.dirlookup p dp name
  match found with
  | some (ip, _) =>
    let s ← s.iput p ip
    return (-1, s)
  | none =>
    let (empty, s) ← scan p dp "dirlink read" (fun de => de.inum = 0)
      (slots 0 (s.icache dp).din.size) s
    let off := match empty with
      | some (off, _) => off
      | none => 16 * (slots 0 (s.icache dp).din.size).length
    let (r, s) ← s.writei p dp (Dirent.bytes ⟨inum, strncpy DIRSIZ name⟩) off 16
    if r ≠ 16 then .error (.panic "dirlink") else return (0, s)

def isdirempty (p dp : Nat) : Except Fault (Bool × State) := do
  let (found, s) ← scan p dp "isdirempty: readi" (fun de => de.inum ≠ 0)
    (slots 32 (s.icache dp).din.size) s
  return (found.isNone, s)

/-- `ip->nlink += k; iupdate(ip)`. -/
def addNlink (ip : Nat) (k : Int) : State :=
  (s.setDin ip { (s.icache ip).din with nlink := short ((s.icache ip).din.nlink + k) }).iupdate ip

/-- `sys_unlink` from where `nameiparent` has returned `dp` and `name`, up to `end_op`. -/
def unlink (p dp : Nat) (name : Name) : Except Fault (Int × State) := do
  let s ← s.ilock p dp
  if namecmp name (str [46]) = 0 ∨ namecmp name (str [46, 46]) = 0 then
    let s ← s.iunlockput p dp
    return (-1, s)
  else
    let (found, s) ← s.dirlookup p dp name
    match found with
    | none =>
      let s ← s.iunlockput p dp
      return (-1, s)
    | some (ip, off) =>
      let s ← s.ilock p ip
      if (s.icache ip).din.nlink < 1 then .error (.panic "unlink: nlink < 1")
      else
        let (full, s) ← if (s.icache ip).din.type = T_DIR then do
            let (empty, s) ← s.isdirempty p ip
            .ok (!empty, s)
          else .ok (false, s)
        if full then
          let s ← s.iunlockput p ip
          let s ← s.iunlockput p dp
          return (-1, s)
        else
          let (r, s) ← s.writei p dp (fun _ => 0) off 16
          if r ≠ 16 then .error (.panic "unlink: writei")
          else
            let s := if (s.icache ip).din.type = T_DIR then s.addNlink dp (-1) else s
            let s ← s.iunlockput p dp
            let s := s.addNlink ip (-1)
            let s ← s.iunlockput p ip
            return (0, s)

/-- `create` from where `nameiparent` has returned `dp` and `name`: the inode, which is
locked, or `none`. -/
def create (p dp : Nat) (name : Name) (type major minor : Int) : Except Fault (Option Nat × State) := do
  let s ← s.ilock p dp
  let (found, s) ← s.dirlookup p dp name
  match found with
  | some (ip, _) =>
    let s ← s.iunlockput p dp
    let s ← s.ilock p ip
    if type = T_FILE ∧ (s.icache ip).din.type = T_FILE then return (some ip, s)
    else
      let s ← s.iunlockput p ip
      return (none, s)
  | none =>
    let (ip, s) ← s.ialloc type
    let s ← s.ilock p ip
    let s := (s.setDin ip { (s.icache ip).din with
      major := short major, minor := short minor, nlink := 1 }).iupdate ip
    let s ← if type = T_DIR then do
        let s := s.addNlink dp 1
        let (r, s) ← s.dirlink p ip (str [46]) ip
        if r < 0 then .error (.panic "create dots")
        else
          let (r, s) ← s.dirlink p ip (str [46, 46]) dp
          if r < 0 then .error (.panic "create dots") else .ok s
      else .ok s
    let (r, s) ← s.dirlink p dp name ip
    if r < 0 then .error (.panic "create: dirlink")
    else
      let s ← s.iunlockput p dp
      return (some ip, s)

end State

/-! ## Paths -/

def slash : UInt8 := 47

/-- `skipelem`: the path behind the element, and `name`. -/
def skipelem (path : List UInt8) (name : Name) : Option (List UInt8 × Name) :=
  let path := path.dropWhile (· = slash)
  if path = [] then none
  else
    let s := path.takeWhile (· ≠ slash)
    let path := path.dropWhile (· ≠ slash)
    let name := if DIRSIZ ≤ s.length then fun j => if j < DIRSIZ then s.getD j 0 else name j
      else fun j => if j < s.length then s.getD j 0 else if j = s.length then 0 else name j
    some (path.dropWhile (· = slash), name)

namespace State

/-- The loop of `namex`, which runs at most once for each byte of the path. -/
def namexLoop (p : Nat) (nameiparent : Bool) :
    Nat → List UInt8 → Name → Nat → State → Except Fault (Option Nat × Name × State)
  | 0, _, name, ip, s => .ok (some ip, name, s)
  | fuel + 1, path, name, ip, s =>
    match skipelem path name with
    | none =>
      if nameiparent then do
        let s ← s.iput p ip
        return (none, name, s)
      else .ok (some ip, name, s)
    | some (path, name) => do
      let s ← s.ilock p ip
      if (s.icache ip).din.type ≠ T_DIR then
        let s ← s.iunlockput p ip
        return (none, name, s)
      else if nameiparent ∧ path = [] then
        let s ← s.iunlock p ip
        return (some ip, name, s)
      else
        let (found, s) ← s.dirlookup p ip name
        match found with
        | none =>
          let s ← s.iunlockput p ip
          return (none, name, s)
        | some (next, _) =>
          let s ← s.iunlockput p ip
          namexLoop p nameiparent fuel path name next s

/-- The directory where `namex` starts; `cwd` is the one of the process. -/
def startDir (s : State) (cwd : Nat) (path : List UInt8) : Except Fault (Nat × State) :=
  if path.head? = some slash then do
    let s ← s.iget ROOTINO
    return (ROOTINO, s)
  else .ok (cwd, s.idup cwd)

/-- `namex`: the inode and `name`. -/
def namex (s : State) (p cwd : Nat) (path : List UInt8) (nameiparent : Bool) (name : Name) :
    Except Fault (Option Nat × Name × State) := do
  let (ip, s) ← s.startDir cwd path
  namexLoop p nameiparent (path.length + 1) path name ip s

end State

end Xv6.Fs
