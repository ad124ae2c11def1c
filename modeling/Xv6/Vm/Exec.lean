import Xv6.Vm.Copyout
import Xv6.Vm.Teardown
import Xv6.Fs.Refs
import Xv6.Fs.Calls

/-!
# `exec`

`exec` reads a program from a file into a new directory, and gives the directory to the
process. The file and its headers may hold anything; `argv` and the path are the
strings that the system call was given.
-/

namespace Xv6.Vm

open Lib

def MAXARG : Nat := 32
def ELF_MAGIC : Nat := 0x464C457F
def ELF_PROG_LOAD : Nat := 1

inductive Halt where
  | vm (f : Fault)
  | fs (f : Fs.Fault)
  deriving DecidableEq, Repr

/-- The fields of `struct elfhdr` that `exec` reads. -/
structure Elfhdr where
  magic : Nat
  entry : Nat
  phoff : Nat
  phnum : Nat

/-- The fields of `struct proghdr` that `exec` reads. -/
structure Proghdr where
  type : Nat
  off : Nat
  vaddr : Nat
  filesz : Nat
  memsz : Nat

def Elfhdr.ofBytes (bytes : List UInt8) : Elfhdr :=
  let b : Fs.Block := fun j => bytes.getD j 0
  ⟨b.word 0, b.word 6, b.word 7, b.half 22⟩

def Proghdr.ofBytes (bytes : List UInt8) : Proghdr :=
  let b : Fs.Block := fun j => bytes.getD j 0
  ⟨b.word 0, b.word 1, b.word 2, b.word 4, b.word 5⟩

/-- What `exec` uses of the kernel and of the process that calls it. -/
structure Machine where
  fs : Fs.State
  m : Mem
  /-- `log.outstanding` -/
  outstanding : Int
  pgdir : Nat
  sz : Nat
  /-- in the trap frame -/
  eip : Nat
  esp : Nat
  name : List UInt8

/-- How `copyout` looks a page up: `uva2ka`. -/
abbrev Look := Mem → Nat → Nat → Except Fault (Option Nat)

/-- `uva2ka` with a test of what `walkpgdir` returns. -/
def Mem.uva2kaTested : Look := fun m d uva =>
  match m.walkpgdir d uva false with
  | (_, none) => .ok none
  | (m, some t) =>
    match m.table t (PTX uva) with
    | none => .ok none
    | some pte => if pte.perm.u then .ok (some pte.page) else .ok none

/-! ## Loading -/

/-- The loop of `loaduvm` over the offsets `i`. -/
def loadPages (p ip d addr offset sz : Nat) :
    List Nat → Fs.State → Mem → Except Halt (Fs.State × Mem × Bool)
  | [], fs, m => .ok (fs, m, true)
  | i :: is, fs, m =>
    match m.walkpgdir d ((addr + i) % 2 ^ 32) false with
    | (_, none) => .error (.vm (.panic "loaduvm: address should exist"))
    | (m, some t) => do
      let pa := (m.table t (PTX ((addr + i) % 2 ^ 32))).elim 0 Pte.page
      let n := if sz - i < PGSIZE then sz - i else PGSIZE
      let ((r, bytes), fs) ← (fs.readi p ip ((offset + i) % 2 ^ 32) n).mapError .fs
      let m := m.write pa 0 bytes
      if r ≠ n then return (fs, m, false)
      else loadPages p ip d addr offset sz is fs m

def loaduvm (p ip d addr offset sz : Nat) (fs : Fs.State) (m : Mem) :
    Except Halt (Fs.State × Mem × Bool) :=
  if addr % PGSIZE ≠ 0 then .error (.vm (.panic "loaduvm: addr must be page aligned"))
  else loadPages p ip d addr offset sz (Mem.pages 0 sz) fs m

/-- The loop of `exec` over `n` program headers, the first of them at `off`: the size
that is reached, or none to `goto bad`. -/
def loadLoop (p ip d : Nat) :
    Nat → Nat → Nat → Fs.State → Mem → Except Halt (Fs.State × Mem × Option Nat)
  | 0, _, sz, fs, m => .ok (fs, m, some sz)
  | n + 1, off, sz, fs, m => do
    let ((r, bytes), fs) ← (fs.readi p ip off 32).mapError .fs
    if r ≠ 32 then return (fs, m, none)
    else
      let ph := Proghdr.ofBytes bytes
      let off := (off + 32) % 2 ^ 32
      if ph.type ≠ ELF_PROG_LOAD then loadLoop p ip d n off sz fs m
      else if ph.memsz < ph.filesz then return (fs, m, none)
      else if (ph.vaddr + ph.memsz) % 2 ^ 32 < ph.vaddr then return (fs, m, none)
      else
        let (m, sz) ← (m.allocuvm d sz ((ph.vaddr + ph.memsz) % 2 ^ 32)).mapError .vm
        if sz = 0 then return (fs, m, none)
        else if ph.vaddr % PGSIZE ≠ 0 then return (fs, m, none)
        else
          let (fs, m, ok) ← loaduvm p ip d ph.vaddr ph.off ph.filesz fs m
          if ok then loadLoop p ip d n off sz fs m else return (fs, m, none)

/-! ## The stack -/

/-- `copyout` with `look` for `uva2ka`. -/
def Mem.copyoutBy (look : Look) (m : Mem) (d va : Nat) (buf : List UInt8) :
    Except Fault (Mem × Bool) :=
  copyoutLoop (fun m va0 => look m d va0) buf.length m va buf

/-- The loop of `exec` over the arguments: `sp` and what is in `ustack` behind its first
three words, or none to `goto bad`. -/
def pushArgs (look : Look) (d : Nat) : List (List UInt8) → Nat → Nat → Mem → List Nat →
    Except Fault (Mem × Option (Nat × List Nat))
  | [], _, sp, m, args => .ok (m, some (sp, args))
  | s :: argv, argc, sp, m, args =>
    if MAXARG ≤ argc then .ok (m, none)
    else do
      let sp := Fs.uint (sp - (s.length + 1)) / 4 * 4
      let (m, ok) ← m.copyoutBy look d sp (s ++ [0])
      if ok then pushArgs look d argv (argc + 1) sp m (args ++ [sp]) else return (m, none)

/-- The bytes of a word. -/
def wordBytes (w : Nat) : List UInt8 :=
  [.ofNat w, .ofNat (w / 2 ^ 8), .ofNat (w / 2 ^ 16), .ofNat (w / 2 ^ 24)]

/-- `exec` from the two pages of the stack on: the size and `sp`, or none to `goto bad`. -/
def buildStack (look : Look) (d sz : Nat) (argv : List (List UInt8)) (m : Mem) :
    Except Fault (Mem × Option (Nat × Nat)) := do
  let (m, sz) ← m.allocuvm d (PGROUNDUP sz) (PGROUNDUP sz + 2 * PGSIZE)
  if sz = 0 then return (m, none)
  else
    let m ← m.clearpteu d (sz - 2 * PGSIZE)
    let (m, r) ← pushArgs look d argv 0 sz m []
    match r with
    | none => return (m, none)
    | some (sp, args) =>
      let argc := args.length
      -- the return PC, `argc` and `argv`
      let ustack := 0xffffffff :: argc :: Fs.uint (sp - (argc + 1) * 4) :: args ++ [0]
      let sp := Fs.uint (sp - (3 + argc + 1) * 4)
      let (m, ok) ← m.copyoutBy look d sp (ustack.flatMap wordBytes)
      if ok then return (m, some (sz, sp)) else return (m, none)

/-! ## `exec` -/

/-- The part of the path behind the last slash, as far as `name` holds it. -/
def lastName (path : List UInt8) : List UInt8 :=
  (path.reverse.takeWhile (· ≠ Fs.slash)).reverse.take 15

namespace Machine

variable (st : Machine)

def begin_op : Machine := { st with outstanding := st.outstanding + 1 }

def end_op : Machine := { st with outstanding := st.outstanding - 1 }

/-- The label `bad`. -/
def bad (p : Nat) (pgdir ip : Option Nat) : Except Halt (Machine × Int) := do
  let m ← pgdir.elim (.ok st.m) fun d => (st.m.freevm d).mapError .vm
  let st := { st with m }
  match ip with
  | some ip => do
    let fs ← (st.fs.iunlockput p ip).mapError .fs
    return ({ st with fs }.end_op, -1)
  | none => return (st, -1)

/-- `exec` from where the image is loaded. -/
def finish (look : Look) (p ip d sz entry : Nat) (path : List UInt8) (argv : List (List UInt8)) :
    Except Halt (Machine × Int) := do
  let fs ← (st.fs.iunlockput p ip).mapError .fs
  let st := { st with fs }.end_op
  let (m, r) ← (buildStack look d sz argv st.m).mapError .vm
  let st := { st with m }
  match r with
  | none => st.bad p (some d) none
  | some (sz, sp) =>
    let m ← (st.m.freevm st.pgdir).mapError .vm
    return ({ st with m, pgdir := d, sz, eip := entry, esp := sp, name := lastName path }, 0)

/-- `exec`, called by process `p` with directory `cwd`; `name` is what the buffer of
`namei` holds. -/
def exec (look : Look) (p cwd : Nat) (name : Fs.Name) (path : List UInt8)
    (argv : List (List UInt8)) : Except Halt (Machine × Int) := do
  let st := st.begin_op
  let (ip, _, fs) ← (st.fs.namex p cwd path false name).mapError .fs
  match ip with
  | none => return ({ st with fs }.end_op, -1)
  | some ip =>
    let fs ← (fs.ilock p ip).mapError .fs
    let ((r, bytes), fs) ← (fs.readi p ip 0 52).mapError .fs
    let elf := Elfhdr.ofBytes bytes
    let st := { st with fs }
    if r ≠ 52 ∨ elf.magic ≠ ELF_MAGIC then st.bad p none (some ip)
    else
      let (m, d) ← st.m.setupkvm.mapError .vm
      let st := { st with m }
      match d with
      | none => st.bad p none (some ip)
      | some d =>
        let (fs, m, sz) ← loadLoop p ip d elf.phnum elf.phoff 0 st.fs st.m
        let st := { st with fs, m }
        match sz with
        | none => st.bad p (some d) (some ip)
        | some sz => st.finish look p ip d sz elf.entry path argv

end Machine

/-! ## What a call ends in -/

section
variable {α β : Type}

/-- The call returns a value with `P`, or stops in the file system. -/
inductive Ends (P : α → Prop) : Except Halt α → Prop
  | ok {a : α} (h : P a) : Ends P (.ok a)
  | fs (f : Fs.Fault) : Ends P (.error (.fs f))

theorem Ends.bind {P : α → Prop} {Q : β → Prop} {x : Except Halt α} {f : α → Except Halt β}
    (h : Ends P x) (hf : ∀ a, P a → Ends Q (f a)) : Ends Q (x >>= f) := by
  cases h with
  | ok ha => exact hf _ ha
  | fs e => exact .fs e

theorem Ends.mono {P Q : α → Prop} {x : Except Halt α} (h : Ends P x) (hpq : ∀ a, P a → Q a) :
    Ends Q x := by
  cases h with
  | ok ha => exact .ok (hpq _ ha)
  | fs e => exact .fs e

theorem Ends.ofFs {P : α → Prop} {x : Except Fs.Fault α} (h : ∀ a, x = .ok a → P a) :
    Ends P (x.mapError .fs) := by
  cases x with
  | ok a => exact .ok (h a rfl)
  | error f => exact .fs f

theorem Ends.ofVm {P : α → Prop} {x : Except Fault α} {a : α} (h : x = .ok a) (hp : P a) :
    Ends P (x.mapError .vm) := by
  subst h
  exact .ok hp

end

section
variable {m m' m₀ : Mem} {use use₀ : Nat → Use} {d old : Nat} {fs : Fs.State} {p ip : Nat}

/-! ## The directory that is being built -/

/-- `d` is a directory, and only its frames and free ones differ from `m₀`. -/
def Making (d : Nat) (m₀ : Mem) (use₀ : Nat → Use) (m : Mem) : Prop :=
  ∃ use, Space m use d ∧ Idle use d ∧ Edit d m₀ use₀ m use

theorem pte_congr (ht : m'.table = m.table) (va : Nat) : m'.pte d va = m.pte d va := by
  unfold Mem.pte Mem.entry
  rw [ht]

theorem Sized.congr {sz : Nat} (h : Sized m d sz) (ht : m'.table = m.table) : Sized m' d sz :=
  fun va hva => by rw [pte_congr ht]; exact h va hva

/-- Bytes of the frames of `d` are written. -/
theorem Making.fill (hs : Space m use d) (hidle : Idle use d) (he : Edit d m₀ use₀ m use)
    (honly : m' = { m with data := m'.data })
    (hrest : ∀ q, (use q).tree ≠ some d → m'.data q = m.data q) : Making d m₀ use₀ m' := by
  refine ⟨use, ⟨hs.frames.congr (by rw [honly]) (by rw [honly]),
    hs.tree.congr (fun _ => .inl rfl) fun q _ => .inl (by rw [honly])⟩, hidle, he.trans ?_⟩
  refine .contents (by rw [honly]) (by rw [honly]) (fun q _ => by rw [honly]) fun q hq => hrest q ?_
  exact fun ht => hq (.inr (.inr ht))

theorem Making.within (h : Making d m₀ use₀ m) (hw : Within m m' d) : Making d m₀ use₀ m' := by
  obtain ⟨use, hs, hidle, he⟩ := h
  refine .fill hs hidle he hw.only fun q hq => hw.rest q fun a ha hu => hq ?_
  rw [hs.tree.user_use ha hu]
  rfl

/-- A directory that has grown as it should has the new size. -/
theorem Sized.grown {oldsz newsz : Nat} (h : Sized m d oldsz) (hle : oldsz ≤ newsz)
    (hp : ∀ va < 2 ^ 32, (Added oldsz newsz va → (m'.pte d va).isSome) ∧
      (¬ Added oldsz newsz va → m'.pte d va = m.pte d va)) : Sized m' d newsz := by
  intro va hva
  have hmono := PGROUNDUP_mono hle
  obtain ⟨h1, h2⟩ := hp va (by unfold KERNBASE at hva; omega)
  by_cases ha : Added oldsz newsz va
  · exact iff_of_true (h1 ha) ha.2
  · rw [h2 ha, h va hva]
    unfold Added at ha
    omega

/-- `allocuvm` on any new size. -/
theorem Making.allocuvm (h : Making d m₀ use₀ m) {sz : Nat} (hsz : sz ≤ KERNBASE)
    (hsized : Sized m d sz) (newsz : Nat) : ∃ m' r, m.allocuvm d sz newsz = .ok (m', r) ∧
      Making d m₀ use₀ m' ∧ (r ≠ 0 → newsz ≤ r ∧ r ≤ KERNBASE ∧ Sized m' d r) := by
  by_cases hbig : KERNBASE ≤ newsz
  · exact ⟨m, 0, if_pos hbig, h, fun h0 => absurd rfl h0⟩
  by_cases hlt : newsz < sz
  · refine ⟨m, sz, ?_, h, fun _ => ⟨by omega, hsz, hsized⟩⟩
    rw [Mem.allocuvm, if_neg hbig, if_pos hlt]
  obtain ⟨use, hs, hidle, he⟩ := h
  have hnone : ∀ va < KERNBASE, Added sz newsz va → m.pte d va = none := by
    intro va hva ha
    have hnot : ¬ (m.pte d va).isSome := fun hp => by
      have := (hsized va hva).mp hp
      unfold Added at ha
      omega
    simpa using hnot
  obtain ⟨m', use', r, hm, hs', hidle', hg, hgrown⟩ :=
    allocuvm_ok hs hidle (by omega : newsz < KERNBASE) (by omega : sz ≤ newsz) hnone
  refine ⟨m', r, hm, ⟨use', hs', hidle', he.trans hg.toEdit⟩, fun h0 => ?_⟩
  rcases hgrown with ⟨rfl, hp⟩ | ⟨rfl, -⟩
  · exact ⟨Nat.le_refl r, by omega, hsized.grown (by omega) hp⟩
  · exact absurd rfl h0

/-- The page table of an address that has a page. -/
theorem walkpgdir_present {va : Nat} {e : Pte} (h : m.pte d va = some e) : ∃ pde,
    m.table d (PDX va) = some pde ∧ m.walkpgdir d va false = (m, some pde.page) ∧
      m.table pde.page (PTX va) = some e := by
  obtain ⟨pde, hpde, he⟩ := Option.bind_eq_some_iff.mp h
  refine ⟨pde, hpde, ?_, he⟩
  unfold Mem.walkpgdir
  rw [hpde]

theorem Making.clearpteu (h : Making d m₀ use₀ m) {va : Nat} (hva : va < KERNBASE)
    (hp : (m.pte d va).isSome) : ∃ m', m.clearpteu d va = .ok m' ∧ Making d m₀ use₀ m' := by
  obtain ⟨use, hs, hidle, he⟩ := h
  obtain ⟨e, hpte⟩ := Option.isSome_iff_exists.mp hp
  obtain ⟨pde, hpde, hw, hte⟩ := walkpgdir_present hpte
  have hut : use pde.page = .table d (PDX va) := hs.tree.table_use (PDX_lt va) hpde
  have hdx : PDX va < 512 := PDX_user hva
  unfold Mem.clearpteu
  rw [hw]
  refine ⟨_, rfl, use, ⟨hs.frames.congr rfl rfl, ?_⟩, hidle, he.trans (.contents rfl rfl ?_ fun _ _ => rfl)⟩
  · refine hs.tree.setEntry hut (fun _ => Iff.rfl) (fun _ _ => Iff.rfl) (fun q i j => ?_) fun x hx => ?_
    · rw [hs.tree.page]
      split
      · next hij =>
        -- the entry keeps its frame
        obtain ⟨rfl, rfl⟩ := hij
        have hentry : m.entry d (PDX va) (PTX va) = some e := hpte
        rw [hentry, hte]
        rfl
      · rfl
    · omega
  · exact fun q hq => setEntry_table_of_ne (fun hqt => hq (.inr (.inr (by rw [hqt, hut]; rfl)))) _

/-! ## Loading -/

theorem loadPages_ends {addr offset sz size : Nat} (hend : addr + sz ≤ size) (hsize : size ≤ KERNBASE)
    (l : List Nat) : ∀ {fs : Fs.State} {m : Mem}, (∀ i ∈ l, i < sz) → Making d m₀ use₀ m →
      Sized m d size → Ends (fun r => r.1.refs = fs.refs ∧ Making d m₀ use₀ r.2.1 ∧ Sized r.2.1 d size)
        (loadPages p ip d addr offset sz l fs m) := by
  induction l with
  | nil => exact fun _ h hsized => .ok ⟨rfl, h, hsized⟩
  | cons i l ih =>
    intro fs m hl h hsized
    have hi : i < sz := hl i List.mem_cons_self
    have hmod : (addr + i) % 2 ^ 32 = addr + i := Nat.mod_eq_of_lt (by unfold KERNBASE at hsize; omega)
    have hround : size ≤ PGROUNDUP size := by unfold PGROUNDUP PGSIZE; omega
    obtain ⟨e, hpte⟩ := Option.isSome_iff_exists.mp
      ((hsized (addr + i) (by omega)).mpr (by omega))
    obtain ⟨pde, hpde, hw, hte⟩ := walkpgdir_present hpte
    rw [loadPages, hmod, hw]
    dsimp only
    rw [hte, Option.elim_some]
    generalize (if sz - i < PGSIZE then sz - i else PGSIZE) = n
    refine Ends.bind (P := fun x => x.2.refs = fs.refs) (.ofFs fun a ha => Fs.refs_readi ha) ?_
    rintro ⟨⟨r, bytes⟩, fs'⟩ hfs
    dsimp only at hfs ⊢
    have h' : Making d m₀ use₀ (m.write e.page 0 bytes) := by
      obtain ⟨use, hs, hidle, he⟩ := h
      refine .fill hs hidle he rfl fun q hq => Function.update_of_ne (fun hqe => hq ?_) _ _
      rw [hqe, hs.tree.pte_use (by omega) hpte]
      rfl
    have hsized' : Sized (m.write e.page 0 bytes) d size := hsized.congr rfl
    split
    · exact .ok ⟨hfs, h', hsized'⟩
    · exact (ih (fun j hj => hl j (List.mem_cons_of_mem i hj)) h' hsized').mono
        fun a ha => ⟨ha.1.trans hfs, ha.2⟩

theorem loaduvm_ends {addr offset sz size : Nat} (halign : addr % PGSIZE = 0)
    (hend : addr + sz ≤ size) (hsize : size ≤ KERNBASE) (h : Making d m₀ use₀ m)
    (hsized : Sized m d size) :
    Ends (fun r => r.1.refs = fs.refs ∧ Making d m₀ use₀ r.2.1 ∧ Sized r.2.1 d size)
      (loaduvm p ip d addr offset sz fs m) := by
  rw [loaduvm, if_neg (not_not_intro halign)]
  exact loadPages_ends hend hsize _ (fun i hi => (pages_lt rfl hi).2.1) h hsized

/-- The loop over the program headers, whatever the file holds. -/
theorem loadLoop_ends : ∀ (n : Nat) {off sz : Nat} {fs : Fs.State} {m : Mem}, sz ≤ KERNBASE →
    Making d m₀ use₀ m → Sized m d sz →
    Ends (fun r => r.1.refs = fs.refs ∧ Making d m₀ use₀ r.2.1 ∧
      ∀ sz', r.2.2 = some sz' → sz' ≤ KERNBASE ∧ Sized r.2.1 d sz')
      (loadLoop p ip d n off sz fs m) := by
  intro n
  induction n with
  | zero =>
    intro off sz fs m hsz h hsized
    refine .ok ⟨rfl, h, fun sz' he => ?_⟩
    cases he
    exact ⟨hsz, hsized⟩
  | succ n ih =>
    intro off sz fs m hsz h hsized
    rw [loadLoop]
    refine Ends.bind (P := fun x => x.2.refs = fs.refs) (.ofFs fun a ha => Fs.refs_readi ha) ?_
    rintro ⟨⟨r, bytes⟩, fs₁⟩ hfs
    dsimp only at hfs ⊢
    have hbad : ∀ m₁, Making d m₀ use₀ m₁ → Ends (fun r : Fs.State × Mem × Option Nat =>
        r.1.refs = fs.refs ∧ Making d m₀ use₀ r.2.1 ∧
          ∀ sz', r.2.2 = some sz' → sz' ≤ KERNBASE ∧ Sized r.2.1 d sz') (.ok (fs₁, m₁, none)) :=
      fun m₁ h₁ => .ok ⟨hfs, h₁, fun _ he => by cases he⟩
    have hwords : (Proghdr.ofBytes bytes).vaddr < 2 ^ 32 ∧ (Proghdr.ofBytes bytes).memsz < 2 ^ 32 :=
      ⟨Fs.Block.word_lt (fun j => bytes.getD j 0) 2, Fs.Block.word_lt (fun j => bytes.getD j 0) 5⟩
    generalize Proghdr.ofBytes bytes = ph at hwords
    split
    · exact hbad m h
    split
    · exact (ih hsz h hsized).mono fun a ha => ⟨ha.1.trans hfs, ha.2⟩
    split
    · exact hbad m h
    split
    · exact hbad m h
    next hlt hwrap =>
    obtain ⟨m₁, sz₁, hm₁, h₁, hr₁⟩ := h.allocuvm hsz hsized ((ph.vaddr + ph.memsz) % 2 ^ 32)
    refine Ends.bind (P := fun x => x = (m₁, sz₁)) (.ofVm hm₁ rfl) ?_
    rintro _ rfl
    dsimp only
    split
    · exact hbad m₁ h₁
    next h0 =>
    obtain ⟨hnew, hsz₁, hsized₁⟩ := hr₁ h0
    split
    · exact hbad m₁ h₁
    next halign =>
    -- the wrap check makes the segment end below the new size
    have hend : ph.vaddr + ph.filesz ≤ sz₁ := by omega
    refine (loaduvm_ends (not_not.mp halign) hend hsz₁ h₁ hsized₁).bind ?_
    rintro ⟨fs₂, m₂, ok⟩ ⟨hfs₂, h₂, hsized₂⟩
    dsimp only at hfs₂ h₂ hsized₂ ⊢
    split
    · exact (ih hsz₁ h₂ hsized₂).mono fun a ha => ⟨(ha.1.trans hfs₂).trans hfs, ha.2⟩
    · exact .ok ⟨hfs₂.trans hfs, h₂, fun _ he => by cases he⟩

/-! ## The stack -/

theorem uva2kaTested_eq (m : Mem) (d va : Nat) : m.uva2kaTested d va = .ok (m.user d va) := by
  unfold Mem.uva2kaTested Mem.walkpgdir Mem.user Mem.pte Mem.entry
  cases hd : m.table d (PDX va) with
  | none => rfl
  | some pde =>
    simp only [Option.bind_some]
    cases ht : m.table pde.page (PTX va) with
    | none => rfl
    | some e =>
      rw [Option.bind_some]
      dsimp only
      split <;> rfl

theorem copyoutLoop_within : ∀ (fuel : Nat) (m : Mem) (va : Nat) (buf : List UInt8), va < 2 ^ 32 →
    ∃ m' ok, Mem.copyoutLoop (fun m va0 => m.uva2kaTested d va0) fuel m va buf = .ok (m', ok) ∧
      Within m m' d := by
  intro fuel
  induction fuel with
  | zero => exact fun m va buf _ => ⟨m, true, rfl, .refl m d⟩
  | succ fuel ih =>
    intro m va buf hva
    rw [Mem.copyoutLoop]
    split
    · exact ⟨m, true, rfl, .refl m d⟩
    · dsimp only
      rw [uva2kaTested_eq, ok_bind]
      cases hu : m.user d (PGROUNDDOWN va) with
      | none => exact ⟨m, false, rfl, .refl m d⟩
      | some q =>
        dsimp only
        have hdown := PGROUNDDOWN_le va
        obtain ⟨m', ok, hm, hw⟩ := ih (m.write q (va - PGROUNDDOWN va)
          (buf.take (min (PGSIZE - (va - PGROUNDDOWN va)) buf.length)))
          ((PGROUNDDOWN va + PGSIZE) % 2 ^ 32) (buf.drop _) (Nat.mod_lt _ (by decide))
        exact ⟨m', ok, hm, (write_within q _ _ (by omega) hu).trans hw⟩

theorem uint_lt (x : Int) : Fs.uint x < 2 ^ 32 := by
  unfold Fs.uint
  omega

theorem Making.copyout (h : Making d m₀ use₀ m) {va : Nat} (hva : va < 2 ^ 32) (buf : List UInt8) :
    ∃ m' ok, m.copyoutBy Mem.uva2kaTested d va buf = .ok (m', ok) ∧ Making d m₀ use₀ m' := by
  obtain ⟨m', ok, hm, hw⟩ := copyoutLoop_within (d := d) buf.length m va buf hva
  exact ⟨m', ok, hm, h.within hw⟩

theorem pushArgs_ok : ∀ (argv : List (List UInt8)) (argc sp : Nat) (m : Mem) (args : List Nat),
    Making d m₀ use₀ m → ∃ m' r, pushArgs Mem.uva2kaTested d argv argc sp m args = .ok (m', r) ∧
      Making d m₀ use₀ m' := by
  intro argv
  induction argv with
  | nil => exact fun argc sp m args h => ⟨m, some (sp, args), rfl, h⟩
  | cons s argv ih =>
    intro argc sp m args h
    rw [pushArgs]
    split
    · exact ⟨m, none, rfl, h⟩
    · have hsp : Fs.uint (sp - (s.length + 1)) / 4 * 4 < 2 ^ 32 := by
        have := uint_lt (sp - (s.length + 1))
        omega
      obtain ⟨m₁, ok, hm₁, h₁⟩ := h.copyout hsp (s ++ [0])
      dsimp only
      rw [hm₁, ok_bind]
      cases ok with
      | true => exact ih (argc + 1) _ m₁ _ h₁
      | false => exact ⟨m₁, none, rfl, h₁⟩

theorem buildStack_ok (h : Making d m₀ use₀ m) {sz : Nat} (hsz : sz ≤ KERNBASE)
    (hsized : Sized m d sz) (argv : List (List UInt8)) :
    ∃ m' r, buildStack Mem.uva2kaTested d sz argv m = .ok (m', r) ∧ Making d m₀ use₀ m' := by
  have hround : PGROUNDUP sz ≤ KERNBASE ∧ PGROUNDUP (PGROUNDUP sz) = PGROUNDUP sz := by
    unfold KERNBASE at *
    unfold PGROUNDUP PGSIZE
    omega
  have hsized' : Sized m d (PGROUNDUP sz) := fun va hva => by rw [hround.2]; exact hsized va hva
  obtain ⟨m₁, sz₁, hm₁, h₁, hr₁⟩ := h.allocuvm hround.1 hsized' (PGROUNDUP sz + 2 * PGSIZE)
  unfold buildStack
  rw [hm₁, ok_bind]
  dsimp only
  split
  · exact ⟨m₁, none, rfl, h₁⟩
  next h0 =>
  obtain ⟨hnew, hsz₁, hsized₁⟩ := hr₁ h0
  have hguard : sz₁ - 2 * PGSIZE < KERNBASE ∧ sz₁ - 2 * PGSIZE < PGROUNDUP sz₁ := by
    unfold KERNBASE PGROUNDUP PGSIZE at *
    omega
  obtain ⟨m₂, hm₂, h₂⟩ := h₁.clearpteu hguard.1 ((hsized₁ _ hguard.1).mpr hguard.2)
  obtain ⟨m₃, r, hm₃, h₃⟩ := pushArgs_ok argv 0 sz₁ m₂ [] h₂
  rw [hm₂, ok_bind, hm₃, ok_bind]
  cases r with
  | none => exact ⟨m₃, none, rfl, h₃⟩
  | some x =>
    obtain ⟨sp, args⟩ := x
    dsimp only
    obtain ⟨m₄, ok, hm₄, h₄⟩ := h₃.copyout (uint_lt (sp - (3 + args.length + 1) * 4))
      ((0xffffffff :: args.length :: Fs.uint (sp - (args.length + 1) * 4) :: args ++ [0]).flatMap wordBytes)
    rw [hm₄, ok_bind]
    cases ok with
    | true => exact ⟨m₄, some _, rfl, h₄⟩
    | false => exact ⟨m₄, none, rfl, h₄⟩

/-! ## The old directory -/

/-- The memory a failed `exec` leaves, with directory `old` of the process. -/
structure Restored (old : Nat) (m m' : Mem) : Prop where
  built : Built m' old
  linked : Linked m'
  free : ∀ p, p ∈ m'.free ↔ p ∈ m.free
  pages : ∀ va < KERNBASE, SamePage m m' old va

theorem Linked.edit (h : Linked m) (he : Edit d m use m' use₀) : Linked m' :=
  ⟨he.kdata ▸ h.low, he.kdata ▸ h.high, he.kdata ▸ h.align⟩

theorem Edit.foreign {use' : Nat → Use} (he : Edit d m use m' use') (hs : Space m use old)
    (hidle : Idle use old) (hne : old ≠ d) (hF : Frames m' use') :
    Space m' use' old ∧ Idle use' old := by
  refine ⟨⟨hF, hs.tree.foreign he hne⟩, fun q hq => ?_⟩
  by_cases hm : (use q).Mine d
  · rcases (he.mine q).mpr hm with h | h | h <;> rw [hq] at h <;> cases h
    exact hne rfl
  · exact hidle q ((he.same q hm).symm.trans hq)

theorem Edit.samePage {use' : Nat → Use} (he : Edit d m use m' use') (hs : Space m use old)
    (hne : old ≠ d) {va : Nat} (hva : va < KERNBASE) : SamePage m m' old va := by
  have hforeign : ∀ q, (use q).tree = some old → ¬ (use q).Mine d := by
    rintro q hq (hm | hm | hm)
    · rw [hm] at hq; cases hq
    · rw [hm] at hq; cases hq
    · exact hne (Option.some.inj (hq.symm.trans hm))
  have hdir : m'.table old = m.table old :=
    he.table old (hforeign old (by rw [hs.tree.dir_use]; rfl))
  refine ⟨?_, fun e hpte => he.data _ (hforeign _ (by rw [hs.tree.pte_use hva hpte]; rfl))⟩
  unfold Mem.pte Mem.entry
  rw [hdir]
  cases hti : m.table old (PDX va) with
  | none => rfl
  | some pde =>
    rw [Option.bind_some, Option.bind_some,
      he.table pde.page (hforeign _ (by rw [hs.tree.table_use (PDX_lt va) hti]; rfl))]

theorem Restored.refl (hb : Built m old) (hl : Linked m) : Restored old m m :=
  ⟨hb, hl, fun _ => Iff.rfl, fun va _ => .refl m old va⟩

theorem Razed.restored {use' : Nat → Use} (hz : Razed d m use m' use') (hs : Space m use old)
    (hidle : Idle use old) (ho : OnlyDir use old) (hl : Linked m) (hne : d ≠ old) :
    Restored old m m' where
  built := ⟨use', hz.foreign hs hidle (Ne.symm hne) hz.frames⟩
  linked := hl.edit hz.toEdit
  free := hz.free_iff ho hne hs.frames
  pages _ hva := hz.samePage hs (Ne.symm hne) hva

/-! ## `exec` -/

namespace Machine

/-- What `exec` relies on, and leaves. -/
structure Ready (st : Machine) : Prop where
  built : Built st.m st.pgdir
  linked : Linked st.m
  counted : Fs.Counted st.fs

/-- A failed `exec` has no effect on the process, on the log's count of operations, on
the references to inodes, on the free frames and on the user pages. -/
structure Untouched (st st' : Machine) : Prop where
  pgdir : st'.pgdir = st.pgdir
  sz : st'.sz = st.sz
  eip : st'.eip = st.eip
  esp : st'.esp = st.esp
  name : st'.name = st.name
  outstanding : st'.outstanding = st.outstanding
  refs : st'.fs.refs = st.fs.refs
  free : ∀ p, p ∈ st'.m.free ↔ p ∈ st.m.free
  pages : ∀ va < KERNBASE, SamePage st.m st'.m st.pgdir va

/-- What a call of `exec` from `st` returns. -/
def Returns (st : Machine) (r : Machine × Int) : Prop :=
  Ready r.1 ∧ (r.2 = 0 ∨ r.2 = -1 ∧ Untouched st r.1)

variable {st st' : Machine}

/-- Only the file system, the memory and the count of operations have changed. -/
def Frame (st st' : Machine) : Prop :=
  st' = { st with fs := st'.fs, m := st'.m, outstanding := st'.outstanding }

theorem frame (st : Machine) (fs : Fs.State) (m : Mem) (n : Int) :
    Frame st { st with fs := fs, m := m, outstanding := n } := rfl

/-- The return of -1, everything being given back. -/
theorem Frame.returns (h : Frame st st') (hc : Fs.Counted st.fs) (ho : st'.outstanding = st.outstanding)
    (hr : st'.fs.refs = st.fs.refs) (hm : Restored st.pgdir st.m st'.m) : Returns st (st', -1) := by
  have hp : st'.pgdir = st.pgdir := by rw [h]
  refine ⟨⟨hp ▸ hm.built, hm.linked, hc.congr hr⟩, .inr ⟨rfl, hp, ?_, ?_, ?_, ?_, ho, hr, hm.free, hm.pages⟩⟩
  all_goals rw [h]

/-- `bad` inside the transaction, the directory being freed. -/
theorem Frame.bad_none (h : Frame st st') (hc : Fs.Counted st.fs)
    (ho : st'.outstanding = st.outstanding + 1) (hr : st'.fs.refs = Fs.oneMore st.fs.refs ip)
    (hm : Restored st.pgdir st.m st'.m) : Ends (Returns st) (st'.bad p none (some ip)) := by
  unfold bad
  rw [Option.elim_none, ok_bind]
  refine Ends.bind (P := fun fs => st'.fs.refs = Fs.oneMore fs.refs ip)
    (.ofFs fun a ha => Fs.refs_iunlockput ha) fun fs hfs => ?_
  have hframe : Frame st { st' with fs }.end_op := by
    unfold Frame end_op
    rw [h]
  refine .ok (hframe.returns hc ?_ (Fs.oneMore_inj (hfs.symm.trans hr)) hm)
  unfold end_op
  dsimp only
  omega

/-- `bad` with a directory frees it. -/
theorem bad_frees (st : Machine) {d : Nat} {use₀ : Nat → Use} {m₀ : Mem}
    (h : Making d m₀ use₀ st.m) {old : Nat}
    (hs : Space m₀ use₀ old) (hidle : Idle use₀ old) (ho : OnlyDir use₀ old) (hl : Linked m₀)
    (hne : d ≠ old) (p : Nat) (ip : Option Nat) : ∃ m', Restored old m₀ m' ∧
      st.bad p (some d) ip = { st with m := m' }.bad p none ip := by
  obtain ⟨use, hs', hidle', he⟩ := h
  obtain ⟨m', use', hm, hz⟩ := freevm_ok hs' hidle'
  refine ⟨m', (he.razed hz).restored hs hidle ho hl hne, ?_⟩
  unfold bad
  rw [Option.elim_some, hm]
  rfl

/-- `exec` from where the image is loaded. -/
theorem finish_ends {use₀ : Nat → Use} {d sz : Nat} (hst : Frame st st') (hc : Fs.Counted st.fs)
    (hout : st'.outstanding = st.outstanding + 1) (hr : st'.fs.refs = Fs.oneMore st.fs.refs ip)
    (hs : Space st.m use₀ st.pgdir) (hidle : Idle use₀ st.pgdir) (ho : OnlyDir use₀ st.pgdir)
    (hl : Linked st.m) (hne : d ≠ st.pgdir) (hm : Making d st.m use₀ st'.m) (hsz : sz ≤ KERNBASE)
    (hsized : Sized st'.m d sz) (entry : Nat) (path : List UInt8) (argv : List (List UInt8)) :
    Ends (Returns st) (st'.finish Mem.uva2kaTested p ip d sz entry path argv) := by
  obtain ⟨m₁, r, hm₁, h₁⟩ := buildStack_ok hm hsz hsized argv
  unfold finish
  refine Ends.bind (P := fun fs => st'.fs.refs = Fs.oneMore fs.refs ip)
    (.ofFs fun a ha => Fs.refs_iunlockput ha) fun fs hfs => ?_
  have hrefs : fs.refs = st.fs.refs := Fs.oneMore_inj (hfs.symm.trans hr)
  dsimp only [end_op]
  refine Ends.bind (P := fun x => x = (m₁, r)) (.ofVm hm₁ rfl) ?_
  rintro _ rfl
  have hp : st'.pgdir = st.pgdir := by rw [hst]
  cases r with
  | none =>
    obtain ⟨m₂, hm₂, heq⟩ := bad_frees
      { st' with fs := fs, m := m₁, outstanding := st'.outstanding - 1 } h₁ hs hidle ho hl hne p none
    have hframe : Frame st { st' with fs := fs, m := m₂, outstanding := st'.outstanding - 1 } := by
      unfold Frame
      rw [hst]
    dsimp only at heq ⊢
    rw [heq]
    refine .ok (hframe.returns hc ?_ hrefs hm₂)
    dsimp only
    omega
  | some x =>
    obtain ⟨sz', sp⟩ := x
    dsimp only
    rw [hp]
    obtain ⟨use₁, hs₁, hidle₁, he₁⟩ := h₁
    obtain ⟨hs₂, hidle₂⟩ := he₁.foreign hs hidle (Ne.symm hne) hs₁.frames
    obtain ⟨m₂, use₂, hm₂, hz⟩ := freevm_ok hs₂ hidle₂
    refine Ends.bind (P := fun x => x = m₂) (.ofVm hm₂ rfl) ?_
    rintro _ rfl
    -- the old directory is gone, and the new one is not affected
    exact .ok ⟨⟨⟨use₂, hz.foreign hs₁ hidle₁ hne hz.frames⟩, (hl.edit he₁).edit hz.toEdit,
      hc.congr hrefs⟩, .inl rfl⟩

theorem exec_ends (h : Ready st) (p cwd : Nat) (name : Fs.Name) (path : List UInt8)
    (argv : List (List UInt8)) :
    Ends (Returns st) (st.exec Mem.uva2kaTested p cwd name path argv) := by
  obtain ⟨use₀, hs, hidle, ho⟩ := h.built.only
  unfold exec
  refine Ends.bind (P := fun x => x.2.2.refs = x.1.elim st.fs.refs (Fs.oneMore st.fs.refs))
    (.ofFs fun a ha => Fs.refs_namei h.counted ha) ?_
  rintro ⟨ip, name', fs₁⟩ hfs₁
  cases ip with
  | none =>
    refine .ok ((st.frame fs₁ st.m (st.outstanding + 1 - 1)).returns h.counted ?_ hfs₁
      (.refl h.built h.linked))
    dsimp only
    omega
  | some ip =>
    rw [Option.elim_some] at hfs₁
    dsimp only at hfs₁ ⊢
    refine Ends.bind (P := fun fs => fs.refs = fs₁.refs) (.ofFs fun a ha => Fs.refs_ilock ha)
      fun fs₂ hfs₂ => ?_
    refine Ends.bind (P := fun x => x.2.refs = fs₂.refs) (.ofFs fun a ha => Fs.refs_readi ha) ?_
    rintro ⟨⟨r, bytes⟩, fs₃⟩ hfs₃
    have hrefs : fs₃.refs = Fs.oneMore st.fs.refs ip := (hfs₃.trans hfs₂).trans hfs₁
    generalize Elfhdr.ofBytes bytes = elf
    dsimp only at hrefs ⊢
    split
    · exact (st.frame fs₃ st.m (st.outstanding + 1)).bad_none h.counted rfl hrefs
        (.refl h.built h.linked)
    obtain ⟨m₁, d, hm₁, hcase⟩ := setupkvm_ok hs.frames ho hs.tree.dir_use h.linked
    refine Ends.bind (P := fun x => x = (m₁, d)) (.ofVm hm₁ rfl) ?_
    rintro _ rfl
    rcases hcase with ⟨d, use₁, rfl, hne, hs₁, hidle₁, he₁, hnone⟩ | ⟨rfl, hfree, hcase⟩
    · dsimp only
      have hsized : Sized m₁ d 0 := fun va hva => by
        rw [hnone va hva]
        exact iff_of_false (by simp) (by unfold PGROUNDUP PGSIZE; omega)
      refine (loadLoop_ends elf.phnum (Nat.zero_le _) ⟨use₁, hs₁, hidle₁, he₁⟩ hsized).bind ?_
      rintro ⟨fs₄, m₂, sz⟩ ⟨hfs₄, h₂, hsz⟩
      dsimp only at hfs₄ h₂ hsz ⊢
      cases sz with
      | none =>
        obtain ⟨m₃, hm₃, heq⟩ := bad_frees
          { st with fs := fs₄, m := m₂, outstanding := st.outstanding + 1 } h₂ hs hidle ho
          h.linked hne p (some ip)
        dsimp only [begin_op] at heq ⊢
        rw [heq]
        exact (st.frame fs₄ m₃ (st.outstanding + 1)).bad_none h.counted rfl (hfs₄.trans hrefs) hm₃
      | some sz =>
        obtain ⟨hsz, hsized⟩ := hsz sz rfl
        exact finish_ends (st.frame fs₄ m₂ (st.outstanding + 1)) h.counted rfl (hfs₄.trans hrefs) hs
          hidle ho h.linked hne h₂ hsz hsized _ _ _
    · refine (st.frame fs₃ m₁ (st.outstanding + 1)).bad_none h.counted rfl hrefs ?_
      rcases hcase with rfl | ⟨d, use', hne, hz⟩
      · exact .refl h.built h.linked
      · exact hz.restored hs hidle ho h.linked hne

/-- **`exec`**: on any file, path and arguments, and with any number of free frames, no
function of `vm.c` panics; a call that returns -1 has had no effect. -/
theorem exec_atomic {st : Machine} (h : Ready st) (p cwd : Nat) (name : Fs.Name) (path : List UInt8)
    (argv : List (List UInt8)) :
    (∃ f, st.exec Mem.uva2kaTested p cwd name path argv = .error (.fs f)) ∨
    ∃ st' r, st.exec Mem.uva2kaTested p cwd name path argv = .ok (st', r) ∧ Ready st' ∧
      (r = 0 ∨ r = -1 ∧ Untouched st st') := by
  have hends := exec_ends h p cwd name path argv
  generalize st.exec Mem.uva2kaTested p cwd name path argv = x at hends
  cases hends with
  | @ok a h => exact .inr ⟨a.1, a.2, rfl, h⟩
  | fs f => exact .inl ⟨f, rfl⟩

/-- A process of one page, in a file system of two inodes. -/
def small : Machine where
  fs := Fs.small fun _ => Fs.noInode
  m := { onePage with kdata := EXTMEM + PGSIZE }
  outstanding := 0
  pgdir := 2
  sz := 4096
  eip := 0
  esp := 4096
  name := []

theorem small_ready : Ready small := by
  obtain ⟨use, hs, hidle⟩ := onePage_built
  refine ⟨⟨use, ⟨hs.frames.congr rfl rfl, hs.tree.congr (fun _ => .inl rfl) fun _ _ => .inl rfl⟩, hidle⟩,
    ⟨by decide, by decide, by decide⟩, fun i => ?_⟩
  exact Int.le_refl 0

/-- The root directory is no program. -/
theorem exec_atomic_root :
    (small.exec Mem.uva2kaTested 0 1 (Fs.str []) [Fs.slash] []).toOption.map Prod.snd = some (-1) ∧
    ((∃ f, small.exec Mem.uva2kaTested 0 1 (Fs.str []) [Fs.slash] [] = .error (.fs f)) ∨
    ∃ st' r, small.exec Mem.uva2kaTested 0 1 (Fs.str []) [Fs.slash] [] = .ok (st', r) ∧ Ready st' ∧
      (r = 0 ∨ r = -1 ∧ Untouched small st')) :=
  ⟨by rfl, exec_atomic small_ready 0 1 (Fs.str []) [Fs.slash] []⟩

end Machine

end

end Xv6.Vm
