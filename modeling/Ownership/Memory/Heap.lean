import Ownership.Size
import Ownership.Memory.Bytes

/-!
# Simulated memory

A heap is a set of blocks at fixed addresses. Blocks are handed out at
growing addresses from two arenas, one for allocations and one for stack
slots, with a gap behind each; they are never removed, only marked dead,
so that every use of a dead block is noticed. An access is judged by the
block that starts nearest at or below its address.
-/

namespace Ownership

/-- An address of simulated memory. -/
abbrev Address := Nat

/-- Whether a block was allocated or is a stack slot. -/
inductive Arena where
  | heap
  | stack
  deriving DecidableEq, Repr

structure Block where
  arena : Arena
  live : Bool
  bytes : Bytes

namespace Block

/-- Whether the block is allocated memory that was not freed. -/
def isHeapLive (b : Block) : Bool := b.arena = .heap && b.live

end Block

/-- What is wrong with a use of memory. -/
inductive HeapFault where
  | doubleFree (addr : Address)
  | invalidFree (addr : Address)
  | useAfterFree (addr : Address)
  | outOfBounds (addr : Address) (len : Nat)
  | nullDeref
  deriving DecidableEq, Repr

/-- An address as it appears in messages: lower-case hexadecimal. -/
def hexText (a : Nat) : String := "0x" ++ String.ofList (Nat.toDigits 16 a)

def HeapFault.message : HeapFault → String
  | .doubleFree a => "double free of block at " ++ hexText a
  | .invalidFree a => "free of " ++ hexText a ++ ", which does not start a heap block"
  | .useAfterFree a => "access to freed memory at " ++ hexText a
  | .outOfBounds a len =>
    "access of " ++ toString len ++ " bytes at " ++ hexText a ++ " is out of bounds"
  | .nullDeref => "null pointer dereference"

structure Heap where
  blocks : NatMap Block
  /-- Where the next allocation goes. -/
  nextHeap : Address
  /-- Where the next stack slot goes. -/
  nextStack : Address
  mallocs : Nat
  frees : Nat
  bytesAllocated : Nat
  /-- The freed addresses, the newest first. -/
  freed : List Address

namespace Heap

def heapBase : Address := 0x10000000

def stackBase : Address := 0x70000000

/-- Size of the gap behind every block. -/
def guardSize : Nat := 16

/-- Blocks start at multiples of this. -/
def granule : Nat := 16

/-- Memory before anything was allocated. -/
def initial : Heap where
  blocks := .empty
  nextHeap := heapBase
  nextStack := stackBase
  mallocs := 0
  frees := 0
  bytesAllocated := 0
  freed := []

instance : Inhabited Heap := ⟨initial⟩

/-! ## Creating blocks -/

/-- How far a block of `size` bytes moves the place of the next one: at
least one granule, and the gap. -/
def stride (size : Nat) : Nat := alignUp (max size 1) granule + guardSize

/-- The place after a block of `size` bytes at `next`. -/
def bump (next size : Nat) : Except Abort Nat := addSize next (stride size)

/-- A new block at an address; whatever was recorded there is replaced. -/
def place (h : Heap) (addr : Address) (arena : Arena) (size : Nat) : Except Abort Heap :=
  if size < capacityLimit then
    .ok { h with blocks := h.blocks.insert addr ⟨arena, true, .zeros size⟩ }
  else .error .capacity

/-- Allocates `size` zero bytes. -/
def malloc (h : Heap) (size : Nat) : Except Abort (Address × Heap) := do
  let next ← bump h.nextHeap size
  let bytesAllocated ← addSize h.bytesAllocated size
  let after ← h.place h.nextHeap .heap size
  return (h.nextHeap, { after with nextHeap := next, mallocs := h.mallocs + 1, bytesAllocated })

/-- A stack slot of `size` zero bytes. -/
def pushSlot (h : Heap) (size : Nat) : Except Abort (Address × Heap) := do
  let next ← bump h.nextStack size
  let after ← h.place h.nextStack .stack size
  return (h.nextStack, { after with nextStack := next })

/-! ## Ending blocks -/

/-- Marks the block at an address dead, if there is one. -/
def kill (h : Heap) (addr : Address) : Heap :=
  match h.blocks.get? addr with
  | some b => { h with blocks := h.blocks.insert addr { b with live := false } }
  | none => h

/-- Ends the stack slots of a frame. -/
def dropSlots (h : Heap) (slots : List Address) : Heap := slots.foldl kill h

/-- Frees an allocated block by its first address; null is left alone. -/
def free (h : Heap) (addr : Address) : Except HeapFault Heap :=
  if addr = 0 then .ok h
  else
    match h.blocks.get? addr with
    | none => .error (.invalidFree addr)
    | some b =>
      if b.arena ≠ .heap then .error (.invalidFree addr)
      else if b.live then
        .ok { h.kill addr with frees := h.frees + 1, freed := addr :: h.freed }
      else .error (.doubleFree addr)

/-! ## Reading and writing -/

/-- The live block that holds the `len` bytes at `addr`, with its first
address. The bounds are judged before the liveness. -/
def locate (h : Heap) (addr : Address) (len : Nat) : Except (Stop HeapFault) (Address × Block) :=
  if addr = 0 then .error (.error .nullDeref)
  else
    match h.blocks.floor? addr with
    | none => .error (.error (.outOfBounds addr len))
    | some (base, b) =>
      if sizeLimit ≤ addr + len then .error (.abort .overflow)
      else if base + b.bytes.size < addr + len then .error (.error (.outOfBounds addr len))
      else if b.live then .ok (base, b)
      else .error (.error (.useAfterFree addr))

def read (h : Heap) (addr : Address) (len : Nat) : Except (Stop HeapFault) (List UInt8) := do
  let (base, b) ← h.locate addr len
  match b.bytes.slice? (addr - base) len with
  | some data => .ok data
  | none => .error (.abort .bounds)

def write (h : Heap) (addr : Address) (data : List UInt8) : Except (Stop HeapFault) Heap := do
  let (base, b) ← h.locate addr data.length
  match b.bytes.write? (addr - base) data with
  | some bytes => .ok { h with blocks := h.blocks.insert base { b with bytes } }
  | none => .error (.abort .bounds)

/-! ## Queries -/

/-- The freed addresses, in order. -/
def freeLog (h : Heap) : List Address := h.freed.reverse

/-- Whether an allocated block that was not freed starts here. -/
def isLive (h : Heap) (addr : Address) : Bool :=
  match h.blocks.get? addr with
  | some b => b.isHeapLive
  | none => false

/-- Number of allocated blocks that were not freed. -/
def liveBlocks (h : Heap) : Nat := h.blocks.toList.countP fun entry => entry.2.isHeapLive

end Heap

end Ownership
