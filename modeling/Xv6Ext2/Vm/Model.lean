import Xv6Ext2.Bio

/-! The page allocator and the page tables. A page of memory is known by its physical address, so that `P2V` and `V2P` of
a pointer to a page are not written; `kmem.freelist` is the list of the pages on it. The code runs alone. -/
namespace Xv6Ext2.Vm
open Lib Bio Function

def pgSize : UInt32 := 4096

abbrev Page := Bytes 4096

structure Machine where
  mem : UInt32 → Page
  free : List UInt32

abbrev M := Exec Fault Machine

def extMem : UInt32 := 0x100000

/-- `PHYSTOP` -/
def physTop : UInt32 := 0xE000000

def devSpace : UInt32 := 0xFE000000

def kernBase : UInt32 := 0x80000000

def kernLink : UInt32 := 0x80100000

def p2v (a : UInt32) : UInt32 := a + kernBase

def v2p (a : UInt32) : UInt32 := a - kernBase

/-- The symbols of the kernel that its linker script defines: `data` begins a page behind the text, and `end` follows. -/
structure Linked where
  data : UInt32
  kend : UInt32
  aligned : data.toNat % 4096 = 0
  text : kernLink < data
  after : data ≤ kend
  inside : kend < p2v physTop

/-- The first words of a free page: `r->next`. -/
def link : List UInt32 → UInt32
  | [] => 0
  | f :: _ => p2v f

def kfree (k : Linked) (pa : UInt32) : M Unit := fun s =>
  if pa.toNat % 4096 ≠ 0 ∨ p2v pa < k.kend ∨ physTop ≤ pa then .error (.panic "kfree")
  else
    let junk : Page := fun _ => 1
    .ok ((),⟨update s.mem pa (junk.setU32 0 (link s.free)),pa :: s.free⟩)

/-- `kalloc`; `none` is the null pointer. -/
def kalloc : M (Option UInt32) := fun s =>
  match s.free with
  | [] => .ok (none,s)
  | f :: rest => .ok (some f,{s with free := rest})

/-- `memset(page, 0, PGSIZE)` -/
def clear (page : UInt32) : M Unit := fun s => .ok ((),{s with mem := update s.mem page (Bytes.zero 4096)})

def word (page : UInt32) (i : Nat) : M UInt32 := fun s => .ok (u32 (s.mem page).byte (4 * i),s)

def setWord (page : UInt32) (i : Nat) (w : UInt32) : M Unit := fun s =>
  .ok ((),{s with mem := update s.mem page ((s.mem page).setU32 (4 * i) w)})

/-- `memmove(page + off, src, n)` within a page. -/
def store (page : UInt32) (off n : Nat) (src : Nat → UInt8) : M Unit := fun s =>
  .ok ((),{s with mem := update s.mem page ((s.mem page).patch off n src)})

def pdx (va : UInt32) : UInt32 := (va >>> 22) &&& 0x3FF

def ptx (va : UInt32) : UInt32 := (va >>> 12) &&& 0x3FF

/-- `PGADDR(d, t, o)` -/
def pgAddr (d t o : UInt32) : UInt32 := d <<< 22 ||| t <<< 12 ||| o

def pgRoundUp (sz : UInt32) : UInt32 := (sz + pgSize - 1) &&& ~~~(pgSize - 1)

def pgRoundDown (a : UInt32) : UInt32 := a &&& ~~~(pgSize - 1)

def pteP : UInt32 := 1

def pteW : UInt32 := 2

def pteU : UInt32 := 4

def pteAddr (pte : UInt32) : UInt32 := pte &&& ~~~0xFFF

def pteFlags (pte : UInt32) : UInt32 := pte &&& 0xFFF

/-- `*pte & PTE_P` -/
def Present (w : UInt32) : Prop := w &&& pteP ≠ 0

instance (w : UInt32) : Decidable (Present w) := inferInstanceAs (Decidable (_ ≠ _))

/-- `*pte & PTE_U` -/
def User (w : UInt32) : Prop := w &&& pteU ≠ 0

instance (w : UInt32) : Decidable (User w) := inferInstanceAs (Decidable (_ ≠ _))

/-- A `pte_t *`. -/
structure Slot where
  table : UInt32
  index : Nat

/-- `walkpgdir`; `none` is the null pointer. -/
def walkpgdir (pgdir va : UInt32) (alloc : Bool) : M (Option Slot) := do
  let pde ← word pgdir (pdx va).toNat
  if Present pde then return some ⟨pteAddr pde,(ptx va).toNat⟩
  else if !alloc then return none
  else
    match ← kalloc with
    | none => return none
    | some pgtab =>
      clear pgtab
      setWord pgdir (pdx va).toNat (pgtab ||| pteP ||| pteW ||| pteU)
      return some ⟨pgtab,(ptx va).toNat⟩

/-- The loop of `mappages`, with `fuel` bounding its rounds. -/
def mapLoop (pgdir last perm : UInt32) : Nat → UInt32 → UInt32 → M Int
  | 0, _, _ => fault .diverges
  | fuel + 1, a, pa => do
    match ← walkpgdir pgdir a true with
    | none => return -1
    | some pte =>
      if Present (← word pte.table pte.index) then fault (.panic "remap")
      else
        setWord pte.table pte.index (pa ||| perm ||| pteP)
        if a = last then return 0 else mapLoop pgdir last perm fuel (a + pgSize) (pa + pgSize)

def mappages (pgdir va size pa perm : UInt32) : M Int :=
  let a := pgRoundDown va
  let last := pgRoundDown (va + size - 1)
  mapLoop pgdir last perm ((last - a).toNat / 4096 + 1) a pa

/-- The loop of `deallocuvm`. -/
def deallocLoop (k : Linked) (pgdir oldsz : UInt32) : Nat → UInt32 → M Unit
  | 0, _ => fault .diverges
  | fuel + 1, a =>
    if a < oldsz then do
      match ← walkpgdir pgdir a false with
      | none => deallocLoop k pgdir oldsz fuel (pgAddr (pdx a + 1) 0 0 - pgSize + pgSize)
      | some pte =>
        let w ← word pte.table pte.index
        if Present w then
          let pa := pteAddr w
          if pa = 0 then fault (.panic "kfree")
          else
            kfree k pa
            setWord pte.table pte.index 0
            deallocLoop k pgdir oldsz fuel (a + pgSize)
        else deallocLoop k pgdir oldsz fuel (a + pgSize)
    else return ()

def deallocuvm (k : Linked) (pgdir oldsz newsz : UInt32) : M UInt32 := do
  if newsz ≥ oldsz then return oldsz
  else
    deallocLoop k pgdir oldsz (oldsz.toNat / 4096 + 2) (pgRoundUp newsz)
    return newsz

/-- The loop of `allocuvm`. -/
def allocLoop (k : Linked) (pgdir oldsz newsz : UInt32) : Nat → UInt32 → M UInt32
  | 0, _ => fault .diverges
  | fuel + 1, a =>
    if a < newsz then do
      match ← kalloc with
      | none =>
        let _ ← deallocuvm k pgdir newsz oldsz
        return 0
      | some mem =>
        clear mem
        if (← mappages pgdir a pgSize mem (pteW ||| pteU)) < 0 then
          let _ ← deallocuvm k pgdir newsz oldsz
          kfree k mem
          return 0
        else allocLoop k pgdir oldsz newsz fuel (a + pgSize)
    else return newsz

def allocuvm (k : Linked) (pgdir oldsz newsz : UInt32) : M UInt32 := do
  if newsz ≥ kernBase then return 0
  else if newsz < oldsz then return oldsz
  else allocLoop k pgdir oldsz newsz (newsz.toNat / 4096 + 2) (pgRoundUp oldsz)

/-- The loop of `freevm` over the page directory, from entry `i` on with `rest` to go. -/
def freeTables (k : Linked) (pgdir : UInt32) : Nat → Nat → M Unit
  | 0, _ => return ()
  | rest + 1, i => do
    let pde ← word pgdir i
    if Present pde then
      kfree k (pteAddr pde)
      freeTables k pgdir rest (i + 1)
    else freeTables k pgdir rest (i + 1)

def npdEntries : Nat := 1024

def freevm (k : Linked) (pgdir : UInt32) : M Unit := do
  let _ ← deallocuvm k pgdir kernBase 0
  freeTables k pgdir npdEntries 0
  kfree k pgdir

/-- A `struct kmap`. -/
structure Kmap where
  virt : UInt32
  physStart : UInt32
  physEnd : UInt32
  perm : UInt32

def kmap (k : Linked) : List Kmap :=
  [⟨kernBase,0,extMem,pteW⟩,
    ⟨kernLink,v2p kernLink,v2p k.data,0⟩,
    ⟨k.data,v2p k.data,physTop,pteW⟩,
    ⟨devSpace,devSpace,0,pteW⟩]

/-- The loop of `setupkvm`. -/
def kmapLoop (k : Linked) (pgdir : UInt32) : List Kmap → M (Option UInt32)
  | [] => return some pgdir
  | e :: rest => do
    if (← mappages pgdir e.virt (e.physEnd - e.physStart) e.physStart e.perm) < 0 then
      freevm k pgdir
      return none
    else kmapLoop k pgdir rest

/-- `setupkvm`; `none` is the null pointer. -/
def setupkvm (k : Linked) : M (Option UInt32) := do
  match ← kalloc with
  | none => return none
  | some pgdir =>
    clear pgdir
    if p2v physTop > devSpace then fault (.panic "PHYSTOP too high") else kmapLoop k pgdir (kmap k)

/-- `inituvm`; a null pointer from `kalloc` is written through. -/
def inituvm (pgdir : UInt32) (init : Nat → UInt8) (sz : UInt32) : M Unit := do
  if sz ≥ pgSize then fault (.panic "inituvm: more than a page")
  else
    match ← kalloc with
    | none => fault .dangling
    | some mem =>
      clear mem
      let _ ← mappages pgdir 0 pgSize mem (pteW ||| pteU)
      store mem 0 sz.toNat init

def clearpteu (pgdir uva : UInt32) : M Unit := do
  match ← walkpgdir pgdir uva false with
  | none => fault (.panic "clearpteu")
  | some pte =>
    let w ← word pte.table pte.index
    setWord pte.table pte.index (w &&& ~~~pteU)

/-- `memmove(mem, src, PGSIZE)` between pages. -/
def copyPage (mem src : UInt32) : M Unit := fun s => .ok ((),{s with mem := update s.mem mem (s.mem src)})

/-- The loop of `copyuvm`. -/
def copyLoop (k : Linked) (pgdir d sz : UInt32) : Nat → UInt32 → M (Option UInt32)
  | 0, _ => fault .diverges
  | fuel + 1, i =>
    if i < sz then do
      match ← walkpgdir pgdir i false with
      | none => fault (.panic "copyuvm: pte should exist")
      | some pte =>
        let w ← word pte.table pte.index
        if ¬Present w then fault (.panic "copyuvm: page not present")
        else
          match ← kalloc with
          | none =>
            freevm k d
            return none
          | some mem =>
            copyPage mem (pteAddr w)
            if (← mappages d i pgSize mem (pteFlags w)) < 0 then
              kfree k mem
              freevm k d
              return none
            else copyLoop k pgdir d sz fuel (i + pgSize)
    else return some d

/-- `copyuvm`; `none` is the null pointer. -/
def copyuvm (k : Linked) (pgdir sz : UInt32) : M (Option UInt32) := do
  match ← setupkvm k with
  | none => return none
  | some d => copyLoop k pgdir d sz (sz.toNat / 4096 + 2) 0

/-- `uva2ka`; `none` is the null pointer. The entry is read without asking whether there is one: for a table that is
missing the word at address 0 is read instead, which is `null`, or the processor traps if nothing is mapped there. -/
def uva2ka (null : Option UInt32) (pgdir uva : UInt32) : M (Option UInt32) := do
  let pte ← walkpgdir pgdir uva false
  let w ← match pte with
    | some pte => word pte.table pte.index
    | none =>
      match null with
      | some w => pure w
      | none => fault .dangling
  if ¬Present w then return none
  else if ¬User w then return none
  else return some (pteAddr w)

/-- The loop of `copyout`. -/
def copyoutLoop (null : Option UInt32) (pgdir : UInt32) : Nat → UInt32 → (Nat → UInt8) → UInt32 → M Int
  | 0, _, _, _ => fault .diverges
  | fuel + 1, va, buf, len =>
    if len > 0 then do
      let va0 := pgRoundDown va
      match ← uva2ka null pgdir va0 with
      | none => return -1
      | some pa0 =>
        let n := pgSize - (va - va0)
        let n := if n > len then len else n
        store pa0 (va - va0).toNat n.toNat buf
        copyoutLoop null pgdir fuel (va0 + pgSize) (fun i => buf (n.toNat + i)) (len - n)
    else return 0

def copyout (null : Option UInt32) (pgdir va : UInt32) (p : Nat → UInt8) (len : UInt32) : M Int :=
  copyoutLoop null pgdir (len.toNat + 1) va p len

/-- What `growproc` reads and writes of a `struct proc`. -/
structure Proc where
  pgdir : UInt32
  sz : UInt32

/-- `growproc` of process `p`; `n` is the bits of the `int`. -/
def growproc (k : Linked) (p : Proc) (n : UInt32) : M (Int × Proc) := do
  if n ≠ 0 ∧ n < 0x80000000 then
    let sz ← allocuvm k p.pgdir p.sz (p.sz + n)
    if sz = 0 then return (-1,p) else return (0,{p with sz := sz})
  else if n ≠ 0 then
    let sz ← deallocuvm k p.pgdir p.sz (p.sz + n)
    if sz = 0 then return (-1,p) else return (0,{p with sz := sz})
  else return (0,p)

end Xv6Ext2.Vm
