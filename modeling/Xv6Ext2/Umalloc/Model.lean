import Xv6Ext2.Vm.Alloc

/-! The allocator of user programs. A process is its memory, the static pointer `freep` and its size; the static header `base`
is at an address that the linker chooses. A header is the pointer to the next free block and the size in units of a header. -/
namespace Xv6Ext2.Umalloc
open Lib Bio
open Vm (kernBase pages)

/-- A process. `grants` says for the next calls of `sbrk` whether there are pages, and `got` is what its size grew by in them. -/
structure Process where
  mem : Nat → UInt8
  freep : UInt32
  sz : UInt32
  grants : List Bool
  got : List (UInt32 × UInt32)

abbrev M := Exec Fault Process

def load (a : UInt32) : M UInt32 := fun h =>
  if a.toNat + 4 ≤ 4096 * pages h.sz then .ok (u32 h.mem a.toNat,h) else .error .dangling

def store (a w : UInt32) : M Unit := fun h =>
  if a.toNat + 4 ≤ 4096 * pages h.sz then .ok ((),{h with mem := poke h.mem a.toNat 4 (leByte w.toNat)}) else .error .dangling

/-- `p->s.ptr` -/
def ptr (p : UInt32) : M UInt32 := load p

def setPtr (p q : UInt32) : M Unit := store p q

/-- `p->s.size` -/
def size (p : UInt32) : M UInt32 := load (p + 4)

def setSize (p n : UInt32) : M Unit := store (p + 4) n

def freep : M UInt32 := fun h => .ok (h.freep,h)

def setFreep (p : UInt32) : M Unit := fun h => .ok ((),{h with freep := p})

/-- `sizeof(Header)` -/
def headerSize : UInt32 := 8

/-- `sys_sbrk` and `growproc` in sizes. A process that gives back all of its memory traps when it goes on. -/
def sbrk (n : UInt32) : M UInt32 := fun h =>
  if n ≠ 0 ∧ n < 0x80000000 then
    if h.sz + n ≥ kernBase then .ok (0xFFFFFFFF,h)
    else if h.sz + n < h.sz then .ok (h.sz,h)
    else
      match h.grants with
      | true :: grants => .ok (h.sz,{h with sz := h.sz + n, grants := grants, got := (h.sz,n) :: h.got})
      | _ => .ok (0xFFFFFFFF,{h with grants := h.grants.tail})
  else if n ≠ 0 then
    if h.sz + n ≥ h.sz then .ok (if h.sz = 0 then 0xFFFFFFFF else h.sz,h)
    else if h.sz + n = 0 then .error .dangling
    else .ok (h.sz,{h with sz := h.sz + n})
  else .ok (h.sz,h)

/-- The loop of `free`: the block behind which `bp` belongs. -/
def place (bp : UInt32) : Nat → UInt32 → M UInt32
  | 0, _ => fault .diverges
  | fuel + 1, p => do
    let q ← ptr p
    if bp > p ∧ bp < q then return p
    else if p ≥ q ∧ (bp > p ∨ bp < q) then return p
    else place bp fuel q

def joinUpper (bp p : UInt32) : M Unit := do
  let q ← ptr p
  if bp + headerSize * (← size bp) = q then
    setSize bp ((← size bp) + (← size q))
    setPtr bp (← ptr q)
  else setPtr bp q

def joinLower (bp p : UInt32) : M Unit := do
  if p + headerSize * (← size p) = bp then
    setSize p ((← size p) + (← size bp))
    setPtr p (← ptr bp)
  else setPtr p bp

/-- More rounds than there can be blocks. -/
def rounds : M Nat := fun h => .ok (h.sz.toNat + 4,h)

def free (ap : UInt32) : M Unit := do
  let bp := ap - headerSize
  let p ← place bp (← rounds) (← freep)
  joinUpper bp p
  joinLower bp p
  setFreep p

def morecore (nu : UInt32) : M UInt32 := do
  let nu := if nu < 4096 then 4096 else nu
  let p ← sbrk (nu * headerSize)
  if p = 0xFFFFFFFF then return 0
  else
    setSize p nu
    free (p + headerSize)
    freep

/-- `malloc` has found a block `p` of `units` units, behind `prevp`. -/
def take (nunits prevp p units : UInt32) : M UInt32 := do
  if units = nunits then
    setPtr prevp (← ptr p)
    setFreep prevp
    return p + headerSize
  else
    setSize p (units - nunits)
    let p := p + headerSize * (units - nunits)
    setSize p nunits
    setFreep prevp
    return p + headerSize

/-- The loop of `malloc`. -/
def search (nunits : UInt32) : Nat → UInt32 → UInt32 → M UInt32
  | 0, _, _ => fault .diverges
  | fuel + 1, prevp, p => do
    let units ← size p
    if units ≥ nunits then take nunits prevp p units
    else if p = (← freep) then
      let p ← morecore nunits
      if p = 0 then return 0 else search nunits fuel p (← ptr p)
    else search nunits fuel p (← ptr p)

/-- `if((prevp = freep) == 0)`: the list is made of `base` alone. -/
def start (base : UInt32) : M Unit := do
  if (← freep) = 0 then
    setPtr base base
    setFreep base
    setSize base 0
  else pure ()

def unitsFor (nbytes : UInt32) : UInt32 := (nbytes + headerSize - 1) / headerSize + 1

def malloc (base nbytes : UInt32) : M UInt32 := do
  let nunits := unitsFor nbytes
  start base
  let prevp ← freep
  search nunits (← rounds) prevp (← ptr prevp)

end Xv6Ext2.Umalloc
