import Mathlib
import Xv6.Lib.Run

/-!
# Virtual memory: page frames and page tables

`kalloc.c` and the functions of `vm.c` that make, copy, search and free the page
directories of processes. Physical memory is a set of numbered frames; a frame holds
data, or the entries of a page table or directory. `free` is `kmem.freelist`.
-/

namespace Xv6.Vm

open Lib

def PGSIZE : Nat := 4096
def KERNBASE : Nat := 0x80000000
def EXTMEM : Nat := 0x100000
def KERNLINK : Nat := KERNBASE + EXTMEM
def PHYSTOP : Nat := 0xE000000
def DEVSPACE : Nat := 0xFE000000
def NPDENTRIES : Nat := 1024

def PGROUNDUP (sz : Nat) : Nat := (sz + PGSIZE - 1) / PGSIZE * PGSIZE
def PGROUNDDOWN (a : Nat) : Nat := a / PGSIZE * PGSIZE
def PDX (va : Nat) : Nat := va / 2 ^ 22 % 1024
def PTX (va : Nat) : Nat := va / 2 ^ 12 % 1024

/-- The flags of an entry but `PTE_P`: `PTE_W` and `PTE_U`. -/
structure Perm where
  w : Bool
  u : Bool
  deriving DecidableEq, Repr

/-- An entry that is present. -/
structure Pte where
  page : Nat
  perm : Perm
  deriving DecidableEq, Repr

inductive Fault where
  | panic (msg : String)
  /-- a null page-table entry is followed -/
  | nullDeref
  deriving DecidableEq, Repr

structure Mem where
  /-- the first frame behind the kernel, where `end` is -/
  kend : Nat
  /-- `V2P(data)`: where the read-only part of the kernel ends -/
  kdata : Nat
  free : List Nat
  /-- frames as page tables and directories; `none` is an entry without `PTE_P` -/
  table : Nat → Nat → Option Pte
  /-- frames as bytes -/
  data : Nat → Nat → UInt8

namespace Mem

variable (m : Mem)

/-! ## Frames -/

def kalloc : Mem × Option Nat :=
  match m.free with
  | [] => (m, none)
  | p :: free => ({ m with free := free }, some p)

/-- The entry that the junk of `kfree` is. -/
def junk : Pte := ⟨0x1010, ⟨false, false⟩⟩

def kfree (p : Nat) : Except Fault Mem :=
  if p < m.kend ∨ PHYSTOP / PGSIZE ≤ p then .error (.panic "kfree")
  else .ok { m with
    free := p :: m.free
    table := Function.update m.table p fun _ => some junk
    data := Function.update m.data p fun _ => 1 }

/-- `memset(p, 0, PGSIZE)`. -/
def clear (p : Nat) : Mem :=
  { m with
    table := Function.update m.table p fun _ => none
    data := Function.update m.data p fun _ => 0 }

def setEntry (t i : Nat) (e : Option Pte) : Mem :=
  { m with table := Function.update m.table t (Function.update (m.table t) i e) }

/-! ## Page tables -/

/-- `walkpgdir`: the page table of `va`, whose entry `PTX(va)` is meant. -/
def walkpgdir (d va : Nat) (alloc : Bool) : Mem × Option Nat :=
  match m.table d (PDX va) with
  | some pde => (m, some pde.page)
  | none =>
    if alloc then
      match m.kalloc with
      | (m, none) => (m, none)
      | (m, some t) => ((m.clear t).setEntry d (PDX va) (some ⟨t, ⟨true, true⟩⟩), some t)
    else (m, none)

/-- The loop of `mappages` over `n` pages; `false` when memory runs out. -/
def mapLoop (d : Nat) (perm : Perm) : Nat → Mem → Nat → Nat → Except Fault (Mem × Bool)
  | 0, m, _, _ => .ok (m, true)
  | n + 1, m, va, pa =>
    match m.walkpgdir d va true with
    | (m, none) => .ok (m, false)
    | (m, some t) =>
      if (m.table t (PTX va)).isSome then .error (.panic "remap")
      else mapLoop d perm n (m.setEntry t (PTX va) (some ⟨pa / PGSIZE, perm⟩)) (va + PGSIZE)
        (pa + PGSIZE)

def mappages (d va size pa : Nat) (perm : Perm) : Except Fault (Mem × Bool) :=
  mapLoop d perm (((va + size - 1) % 2 ^ 32) / PGSIZE - va / PGSIZE + 1) m (PGROUNDDOWN va) pa

/-- The values of `a` in `for(a = lo; a < hi; a += PGSIZE)`. -/
def pages (lo hi : Nat) : List Nat := List.range' lo ((hi - lo + PGSIZE - 1) / PGSIZE) PGSIZE

/-- An iteration of the loop of `deallocuvm`, which skips the rest of a page table
that is not there. -/
def unmap (d a : Nat) : Except Fault Mem :=
  match m.walkpgdir d a false with
  | (m, none) => .ok m
  | (m, some t) =>
    match m.table t (PTX a) with
    | none => .ok m
    | some pte =>
      if pte.page = 0 then .error (.panic "kfree")
      else do
        let m ← m.kfree pte.page
        return m.setEntry t (PTX a) none

def deallocuvm (d oldsz newsz : Nat) : Except Fault (Mem × Nat) :=
  if oldsz ≤ newsz then .ok (m, oldsz)
  else do
    let m ← (pages (PGROUNDUP newsz) oldsz).foldlM (fun m a => m.unmap d a) m
    return (m, newsz)

def freevm (d : Nat) : Except Fault Mem :=
  if d = 0 then .error (.panic "freevm: no pgdir")
  else do
    let (m, _) ← m.deallocuvm d KERNBASE 0
    let m ← (List.range NPDENTRIES).foldlM
      (fun m i => match m.table d i with
        | some pde => m.kfree pde.page
        | none => .ok m) m
    m.kfree d

/-- A line of `kmap`. -/
structure Kmap where
  virt : Nat
  phys_start : Nat
  /-- `phys_end - phys_start`, an unsigned difference -/
  size : Nat
  perm : Perm

def kmap : List Kmap :=
  [⟨KERNBASE, 0, EXTMEM, ⟨true, false⟩⟩,
    ⟨KERNLINK, EXTMEM, m.kdata - EXTMEM, ⟨false, false⟩⟩,
    ⟨KERNBASE + m.kdata, m.kdata, PHYSTOP - m.kdata, ⟨true, false⟩⟩,
    ⟨DEVSPACE, DEVSPACE, 2 ^ 32 - DEVSPACE, ⟨true, false⟩⟩]

/-- The loop of `setupkvm`. -/
def mapKernel (d : Nat) : List Kmap → Mem → Except Fault (Mem × Option Nat)
  | [], m => .ok (m, some d)
  | k :: ks, m => do
    let (m, ok) ← m.mappages d k.virt k.size k.phys_start k.perm
    if ok then mapKernel d ks m
    else
      let m ← m.freevm d
      return (m, none)

def setupkvm : Except Fault (Mem × Option Nat) :=
  match m.kalloc with
  | (m, none) => .ok (m, none)
  | (m, some d) => mapKernel d m.kmap (m.clear d)

/-- The loop of `copyuvm` over the pages of the parent's directory `src`. -/
def copyLoop (src d : Nat) : List Nat → Mem → Except Fault (Mem × Option Nat)
  | [], m => .ok (m, some d)
  | a :: as, m =>
    match m.walkpgdir src a false with
    | (_, none) => .error (.panic "copyuvm: pte should exist")
    | (m, some t) =>
      match m.table t (PTX a) with
      | none => .error (.panic "copyuvm: page not present")
      | some pte =>
        match m.kalloc with
        | (m, none) => do
          let m ← m.freevm d
          return (m, none)
        | (m, some mem) => do
          let m := { m with data := Function.update m.data mem (m.data pte.page) }
          let (m, ok) ← m.mappages d a PGSIZE (mem * PGSIZE) pte.perm
          if ok then copyLoop src d as m
          else
            let m ← m.kfree mem
            let m ← m.freevm d
            return (m, none)

def copyuvm (src sz : Nat) : Except Fault (Mem × Option Nat) := do
  let (m, d) ← m.setupkvm
  match d with
  | none => return (m, none)
  | some d => copyLoop src d (pages 0 sz) m

/-! ## User memory -/

/-- `allocuvm`; the size 0 is also its error. -/
def allocLoop (d oldsz newsz : Nat) : List Nat → Mem → Except Fault (Mem × Nat)
  | [], m => .ok (m, newsz)
  | a :: as, m =>
    match m.kalloc with
    | (m, none) => do
      let (m, _) ← m.deallocuvm d newsz oldsz
      return (m, 0)
    | (m, some mem) => do
      let (m, ok) ← (m.clear mem).mappages d a PGSIZE (mem * PGSIZE) ⟨true, true⟩
      if ok then allocLoop d oldsz newsz as m
      else
        let (m, _) ← m.deallocuvm d newsz oldsz
        let m ← m.kfree mem
        return (m, 0)

def allocuvm (d oldsz newsz : Nat) : Except Fault (Mem × Nat) :=
  if KERNBASE ≤ newsz then .ok (m, 0)
  else if newsz < oldsz then .ok (m, oldsz)
  else allocLoop d oldsz newsz (pages (PGROUNDUP oldsz) newsz) m

def clearpteu (d uva : Nat) : Except Fault Mem :=
  match m.walkpgdir d uva false with
  | (_, none) => .error (.panic "clearpteu")
  | (m, some t) =>
    .ok (m.setEntry t (PTX uva) ((m.table t (PTX uva)).map fun e =>
      { e with perm := { e.perm with u := false } }))

/-- `growproc(n)` on a process with directory `d` and size `sz`: the new size, and
whether 0 is returned. -/
def growproc (d sz : Nat) (n : Int) : Except Fault (Mem × Nat × Bool) := do
  let newsz := ((sz + n) % 2 ^ 32).toNat
  if n > 0 then
    let (m, sz') ← m.allocuvm d sz newsz
    if sz' = 0 then return (m, sz, false) else return (m, sz', true)
  else if n < 0 then
    let (m, sz') ← m.deallocuvm d sz newsz
    if sz' = 0 then return (m, sz, false) else return (m, sz', true)
  else return (m, sz, true)

/-- `uva2ka`: the frame of a user page, or none. -/
def uva2ka (d uva : Nat) : Except Fault (Option Nat) :=
  match m.walkpgdir d uva false with
  | (_, none) => .error .nullDeref
  | (m, some t) =>
    match m.table t (PTX uva) with
    | none => .ok none
    | some pte => if pte.perm.u then .ok (some pte.page) else .ok none

/-- `memmove` of `buf` to offset `o` of frame `p`. -/
def write (p o : Nat) (buf : List UInt8) : Mem :=
  { m with data := Function.update m.data p fun j =>
      if o ≤ j ∧ j < o + buf.length then buf.getD (j - o) 0 else m.data p j }

/-- The loop of `copyout` with `look` for `uva2ka`; an iteration copies at least a byte. -/
def copyoutLoop (look : Mem → Nat → Except Fault (Option Nat)) :
    Nat → Mem → Nat → List UInt8 → Except Fault (Mem × Bool)
  | 0, m, _, _ => .ok (m, true)
  | k + 1, m, va, buf =>
    if buf.length = 0 then .ok (m, true)
    else do
      let va0 := PGROUNDDOWN va
      match ← look m va0 with
      | none => return (m, false)
      | some pa0 =>
        let n := min (PGSIZE - (va - va0)) buf.length
        copyoutLoop look k (m.write pa0 (va - va0) (buf.take n)) ((va0 + PGSIZE) % 2 ^ 32)
          (buf.drop n)

/-- `copyout`; `buf` are the `len` bytes at `p`. -/
def copyout (d va : Nat) (buf : List UInt8) : Except Fault (Mem × Bool) :=
  copyoutLoop (fun m va0 => m.uva2ka d va0) buf.length m va buf

end Mem

end Xv6.Vm
