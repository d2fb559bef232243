import Xv6Ext2.Vm.Model
import Xv6Ext2.Vfs.Model

/-! `exec`. The file layer is what a path names and what reads give, by any calls that may fail; the transactions, references
and locks of the process are counted. A string is its bytes without the NUL. -/
namespace Xv6Ext2.Vm
open Lib Bio Function
open Vfs (Ref slash)

/-- What `readi` did: the bits of the `int` that it returned, and the bytes that it stored. -/
structure Read where
  result : UInt32
  count : Nat
  bytes : Nat → UInt8

structure Files (φ : Type) where
  namei : List UInt8 → Lib.Exec Fault φ (Option Ref)
  readi : Ref → UInt32 → UInt32 → Lib.Exec Fault φ Read

/-- What `exec` reads and writes of a `struct proc` and its trap frame. -/
structure Process where
  pgdir : UInt32
  sz : UInt32
  eip : UInt32
  esp : UInt32
  name : Nat → UInt8

/-- `ops` are the calls of `begin_op` without `end_op`, `refs` and `locked` those of the process. -/
structure Kernel (φ : Type) where
  vm : Machine
  files : φ
  ops : Nat
  refs : Ref → Nat
  locked : Ref → Bool
  proc : Process

abbrev X (φ : Type) := Lib.Exec Fault (Kernel φ)

section

variable {φ α : Type}

def onVm (x : M α) : X φ α := fun k =>
  match x k.vm with
  | .ok (a,s) => .ok (a,{k with vm := s})
  | .error e => .error e

def onFiles (x : Lib.Exec Fault φ α) : X φ α := fun k =>
  match x k.files with
  | .ok (a,s) => .ok (a,{k with files := s})
  | .error e => .error e

def beginOp : X φ Unit := fun k => .ok ((),{k with ops := k.ops + 1})

def endOp : X φ Unit := fun k => .ok ((),{k with ops := k.ops - 1})

def namei (F : Files φ) (path : List UInt8) : X φ (Option Ref) := do
  match ← onFiles (F.namei path) with
  | none => return none
  | some ip => fun k => .ok (some ip,{k with refs := update k.refs ip (k.refs ip + 1)})

def ilock (ip : Ref) : X φ Unit := fun k =>
  if k.locked ip then .error .deadlock else .ok ((),{k with locked := update k.locked ip true})

def iunlockput (ip : Ref) : X φ Unit := fun k =>
  .ok ((),{k with locked := update k.locked ip false, refs := update k.refs ip (k.refs ip - 1)})

def readi (F : Files φ) (ip : Ref) (off n : UInt32) : X φ Read := onFiles (F.readi ip off n)

/-- The loop of `loaduvm`. -/
def loadLoop (F : Files φ) (pgdir addr : UInt32) (ip : Ref) (offset sz : UInt32) : Nat → UInt32 → X φ Int
  | 0, _ => fault .diverges
  | fuel + 1, i =>
    if i < sz then do
      match ← onVm (walkpgdir pgdir (addr + i) false) with
      | none => fault (.panic "loaduvm: address should exist")
      | some pte =>
        let pa := pteAddr (← onVm (word pte.table pte.index))
        let n := if sz - i < pgSize then sz - i else pgSize
        let got ← readi F ip (offset + i) n
        onVm (store pa 0 (min got.count n.toNat) got.bytes)
        if got.result ≠ n then return -1 else loadLoop F pgdir addr ip offset sz fuel (i + pgSize)
    else return 0

def loaduvm (F : Files φ) (pgdir addr : UInt32) (ip : Ref) (offset sz : UInt32) : X φ Int :=
  if addr.toNat % 4096 ≠ 0 then fault (.panic "loaduvm: addr must be page aligned")
  else loadLoop F pgdir addr ip offset sz (sz.toNat / 4096 + 2) 0

/-- What `exec` uses of a `struct elfhdr`. -/
structure Elfhdr where
  magic : UInt32
  entry : UInt32
  phoff : UInt32
  phnum : UInt16
  deriving DecidableEq

def Elfhdr.ofBytes (b : Nat → UInt8) : Elfhdr := ⟨u32 b 0,u32 b 24,u32 b 28,u16 b 44⟩

def elfMagic : UInt32 := 0x464C457F

/-- What `exec` uses of a `struct proghdr`. -/
structure Proghdr where
  type : UInt32
  off : UInt32
  vaddr : UInt32
  filesz : UInt32
  memsz : UInt32
  deriving DecidableEq

def Proghdr.ofBytes (b : Nat → UInt8) : Proghdr := ⟨u32 b 0,u32 b 4,u32 b 8,u32 b 16,u32 b 20⟩

/-- `ELF_PROG_LOAD` -/
def elfProgLoad : UInt32 := 1

/-- The loop of `exec` over the program headers, with `rest` to go; `none` is `goto bad`. -/
def loadImage (k : Linked) (F : Files φ) (pgdir : UInt32) (ip : Ref) : Nat → UInt32 → UInt32 → X φ (Option UInt32)
  | 0, _, sz => return some sz
  | rest + 1, off, sz => do
    let got ← readi F ip off 32
    if got.result ≠ 32 then return none
    else
      let ph := Proghdr.ofBytes got.bytes
      if ph.type ≠ elfProgLoad then loadImage k F pgdir ip rest (off + 32) sz
      else if ph.memsz < ph.filesz then return none
      else if ph.vaddr + ph.memsz < ph.vaddr then return none
      else
        let sz ← onVm (allocuvm k pgdir sz (ph.vaddr + ph.memsz))
        if sz = 0 then return none
        else if ph.vaddr.toNat % 4096 ≠ 0 then return none
        else if (← loaduvm F pgdir ph.vaddr ip ph.off ph.filesz) < 0 then return none
        else loadImage k F pgdir ip rest (off + 32) sz

def maxArg : Nat := 32

/-- The loop of `exec` over `argv`, with the pointers that `ustack` has so far; `none` is `goto bad`. A `copyout` to a page whose
table is missing traps. -/
def pushArgs (pgdir : UInt32) : List (List UInt8) → UInt32 → List UInt32 → M (Option (UInt32 × List UInt32))
  | [], sp, ptrs => return some (sp,ptrs)
  | arg :: rest, sp, ptrs => do
    if ptrs.length ≥ maxArg then return none
    else
      let len := UInt32.ofNat (arg.length + 1)
      let sp := (sp - len) &&& ~~~3
      if (← copyout none pgdir sp (cstring arg) len) < 0 then return none
      else pushArgs pgdir rest sp (ptrs ++ [sp])

def ustack (sp : UInt32) (ptrs : List UInt32) : List UInt32 :=
  [0xFFFFFFFF,UInt32.ofNat ptrs.length,sp - UInt32.ofNat (ptrs.length + 1) * 4] ++ ptrs ++ [0]

def wordBytes (words : List UInt32) : Nat → UInt8 := fun i => leByte (words.getD (i / 4) 0).toNat (i % 4)

def pushStack (pgdir : UInt32) (argv : List (List UInt8)) (sz : UInt32) : M (Option UInt32) := do
  match ← pushArgs pgdir argv sz [] with
  | none => return none
  | some (sp,ptrs) =>
    let len := UInt32.ofNat (3 + ptrs.length + 1) * 4
    if (← copyout none pgdir (sp - len) (wordBytes (ustack sp ptrs)) len) < 0 then return none
    else return some (sp - len)

/-- `safestrcpy(s, t, n)` with `s` an address of `mem`. -/
def safestrcpy (mem : Nat → UInt8) (s : Nat) (t : Nat → UInt8) : Nat → Nat → UInt8
  | 0 => mem
  | 1 => update mem s 0
  | n + 2 =>
    let mem := update mem s (t 0)
    if t 0 = 0 then update mem (s + 1) 0 else safestrcpy mem (s + 1) (fun i => t (i + 1)) (n + 1)

def lastElem (path : List UInt8) : List UInt8 := (path.reverse.takeWhile (· ≠ slash)).reverse

/-- `bad:` of `exec`. -/
def bad (k : Linked) (pgdir : Option UInt32) (ip : Option Ref) : X φ Int := do
  match pgdir with
  | some pgdir => onVm (freevm k pgdir)
  | none => pure ()
  match ip with
  | some ip =>
    iunlockput ip
    endOp
  | none => pure ()
  return -1

def process : X φ Process := fun k => .ok (k.proc,k)

/-- The image is committed: `switchuvm` makes it the address space in use, and the old one is freed. -/
def commit (k : Linked) (path : List UInt8) (pgdir sz eip esp : UInt32) : X φ Int := do
  let p ← process
  (fun k => .ok ((),{k with proc := ⟨pgdir,sz,eip,esp,safestrcpy p.name 0 (cstring (lastElem path)) 16⟩}))
  onVm (freevm k p.pgdir)
  return 0

/-- What `exec` does from `sp = sz` on. -/
def enter (k : Linked) (path : List UInt8) (argv : List (List UInt8)) (pgdir sz eip : UInt32) : X φ Int := do
  match ← onVm (pushStack pgdir argv sz) with
  | none => bad k (some pgdir) none
  | some sp => commit k path pgdir sz eip sp

def exec (k : Linked) (F : Files φ) (path : List UInt8) (argv : List (List UInt8)) : X φ Int := do
  beginOp
  match ← namei F path with
  | none =>
    endOp
    return -1
  | some ip =>
    ilock ip
    let got ← readi F ip 0 52
    if got.result ≠ 52 then bad k none (some ip)
    else
      let elf := Elfhdr.ofBytes got.bytes
      if elf.magic ≠ elfMagic then bad k none (some ip)
      else
        match ← onVm (setupkvm k) with
        | none => bad k none (some ip)
        | some pgdir =>
          match ← loadImage k F pgdir ip elf.phnum.toNat elf.phoff 0 with
          | none => bad k (some pgdir) (some ip)
          | some sz =>
            iunlockput ip
            endOp
            let sz ← onVm (allocuvm k pgdir (pgRoundUp sz) (pgRoundUp sz + 2 * pgSize))
            if sz = 0 then bad k (some pgdir) none
            else
              onVm (clearpteu pgdir (sz - 2 * pgSize))
              enter k path argv pgdir sz elf.entry

end

end Xv6Ext2.Vm
