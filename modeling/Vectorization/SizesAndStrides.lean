/-
`sizes_and_strides`: up to five sizes and five strides inside the object, or a
pointer to an array of both that shares the object's first word.  Methods run on
a machine of objects and heap blocks; an access outside a buffer or through a
word that is no pointer is a fault.
-/
import Vectorization.Foundation.AtomicRun
import Vectorization.Foundation.BlockStore

namespace Vectorization.SizesAndStrides

open BlockStore AtomicRun

/-- `MAX_INLINE_SIZE`. -/
def maxInlineSize : Nat := 5

/-- A word of a buffer: an integer, or the bits of a pointer. -/
inductive Word
  | value (v : Int)
  | pointer (block : Option Nat)
deriving Repr, DecidableEq

/-- The length and the ten words of the union. -/
structure Object where
  size : Nat
  storage : Block Word

def Object.isInline (o : Object) : Bool := decide (o.size ≤ maxInlineSize)

structure Machine where
  blocks : Blocks Word
  objects : Nat → Option Object

def Machine.empty : Machine := ⟨Blocks.empty, fun _ => none⟩

/-- Why a method stops: undefined behaviour, or a check that failed. -/
inductive Stop
  | fault
  | outOfMemory
  | outOfMemoryResize
  | strideCount
deriving Repr, DecidableEq

def Stop.message : Stop → String
  | fault => "undefined behaviour"
  | outOfMemory => "Could not allocate memory for Tensor sizes_and_strides!"
  | outOfMemoryResize => "Could not allocate memory to change Tensor sizes_and_strides!"
  | strideCount => "strides.size() == size()"

abbrev Method := EStateM Stop Machine

section Access

/-- A checked access. -/
def access {β : Type} : Option β → Method β
  | some v => pure v
  | none => throw .fault

def getObject (id : Nat) : Method Object := do
  access ((← get).objects id)

def setObject (id : Nat) (o : Object) : Method Unit :=
  modify fun m => { m with objects := Function.update m.objects id (some o) }

def setSize (id n : Nat) : Method Unit := do
  let o ← getObject id
  setObject id { o with size := n }

def readInline (id first count : Nat) : Method (Nat → Word) := do
  let o ← getObject id
  access (o.storage.read first count)

def writeInline (id first count : Nat) (source : Nat → Word) : Method Unit := do
  let o ← getObject id
  let storage ← access (o.storage.write first count source)
  setObject id { o with storage := storage }

/-- `outOfLineStorage_`, when the union holds a pointer. -/
def outOfLineStorage (id : Nat) : Method (Option Nat) := do
  let o ← getObject id
  match o.storage.cell 0 with
  | .pointer p => return p
  | .value _ => throw .fault

def setOutOfLineStorage (id : Nat) (p : Option Nat) : Method Unit :=
  writeInline id 0 1 fun _ => .pointer p

/-- The block behind a pointer that is dereferenced. -/
def getBlock (p : Option Nat) : Method (Nat × Block Word) := do
  let b ← access p
  let content ← access ((← get).blocks.block b)
  return (b, content)

def readBlock (p : Option Nat) (first count : Nat) : Method (Nat → Word) := do
  let (_, content) ← getBlock p
  access (content.read first count)

def writeBlock (p : Option Nat) (first count : Nat) (source : Nat → Word) :
    Method Unit := do
  let (b, content) ← getBlock p
  let content ← access (content.write first count source)
  modify fun m => { m with blocks := m.blocks.set b content }

/-- `free`; the null pointer is ignored. -/
def freeBlock : Option Nat → Method Unit
  | none => pure ()
  | some b => do
      let _ ← getBlock (some b)
      modify fun m => { m with blocks := m.blocks.free b }

end Access

section Allocation

variable (supply : Supply Word)

def malloc (n : Nat) : Method (Option Nat) := do
  let m ← get
  let r := m.blocks.malloc supply n
  set { m with blocks := r.2 }
  return r.1

def realloc (p : Option Nat) (n : Nat) : Method (Option Nat) := do
  let (b, content) ← getBlock p
  let m ← get
  let r := m.blocks.realloc supply b content n
  set { m with blocks := r.2 }
  return r.1

/-- The words reached by a byte count `n * sizeof(int64_t)`, in 64 bits. -/
def wordCount (n : Nat) : Nat := n * 8 % 2 ^ 64 / 8

/-- `storageBytes`, counted in words. -/
def storageWords (size : Nat) : Nat := wordCount (size * 2)

def allocateOutOfLineStorage (id size : Nat) : Method Unit := do
  let p ← malloc supply (storageWords size)
  setOutOfLineStorage id p
  if p = none then throw .outOfMemory

def resizeOutOfLineStorage (id newSize : Nat) : Method Unit := do
  let p ← realloc supply (← outOfLineStorage id) (storageWords newSize)
  setOutOfLineStorage id p
  if p = none then throw .outOfMemory

/-- `memcpy` of the whole inline buffer. -/
def copyDataInline (id rhs : Nat) : Method Unit := do
  let words ← readInline rhs 0 (2 * maxInlineSize)
  writeInline id 0 (2 * maxInlineSize) words

def copyDataOutline (id rhs : Nat) : Method Unit := do
  let r ← getObject rhs
  let words ← readBlock (← outOfLineStorage rhs) 0 (storageWords r.size)
  writeBlock (← outOfLineStorage id) 0 (storageWords r.size) words

/-- A new object of the given length with a zeroed union. -/
def place (id size : Nat) : Method Unit := do
  let m ← get
  if (m.objects id).isSome then throw .fault
  setObject id ⟨size, ⟨2 * maxInlineSize, fun _ => .value 0⟩⟩

def zeros : Nat → Word := fun _ => .value 0

/-- `memset` to zero where there is anything to set. -/
def zeroBlock (p : Option Nat) (first count : Nat) : Method Unit :=
  if count = 0 then pure () else writeBlock p first count zeros

/-- The words of a list of integers. -/
def wordsOf (l : List Int) : Nat → Word := fun k => .value (l.getD k 0)

end Allocation

section Methods

variable (supply : Supply Word)

def defaultConstruct (id : Nat) : Method Unit := do
  place id 1
  writeInline id 0 1 fun _ => .value 0
  writeInline id maxInlineSize 1 fun _ => .value 1

def copyConstruct (id rhs : Nat) : Method Unit := do
  let r ← getObject rhs
  place id r.size
  if r.isInline then copyDataInline id rhs
  else
    allocateOutOfLineStorage supply id r.size
    copyDataOutline id rhs

def copyAssign (id rhs : Nat) : Method Unit := do
  if id = rhs then return
  let r ← getObject rhs
  let o ← getObject id
  if r.isInline then
    if ¬ o.isInline then freeBlock (← outOfLineStorage id)
    copyDataInline id rhs
  else
    if o.isInline then allocateOutOfLineStorage supply id r.size
    else resizeOutOfLineStorage supply id r.size
    copyDataOutline id rhs
  setSize id r.size

def moveConstruct (id rhs : Nat) : Method Unit := do
  let r ← getObject rhs
  place id r.size
  if r.isInline then copyDataInline id rhs
  else
    setOutOfLineStorage id (← outOfLineStorage rhs)
    setOutOfLineStorage rhs none
  setSize rhs 0

def moveAssign (id rhs : Nat) : Method Unit := do
  if id = rhs then return
  let r ← getObject rhs
  let o ← getObject id
  if ¬ o.isInline then freeBlock (← outOfLineStorage id)
  if r.isInline then copyDataInline id rhs
  else
    setOutOfLineStorage id (← outOfLineStorage rhs)
    setOutOfLineStorage rhs none
  setSize id r.size
  setSize rhs 0

def destroy (id : Nat) : Method Unit := do
  let o ← getObject id
  if ¬ o.isInline then freeBlock (← outOfLineStorage id)
  modify fun m => { m with objects := Function.update m.objects id none }

/-- `resizeSlowPath`. -/
def resizeSlowPath (id newSize oldSize : Nat) : Method Unit := do
  let o ← getObject id
  if newSize ≤ maxInlineSize then
    let temp ← outOfLineStorage id
    writeInline id 0 maxInlineSize (← readBlock temp 0 maxInlineSize)
    writeInline id maxInlineSize maxInlineSize (← readBlock temp oldSize maxInlineSize)
    freeBlock temp
  else if o.isInline then
    let temp ← malloc supply (storageWords newSize)
    if temp = none then throw .outOfMemoryResize
    let toCopy := wordCount oldSize
    let toZero := wordCount (newSize - oldSize)
    writeBlock temp 0 toCopy (← readInline id 0 toCopy)
    zeroBlock temp oldSize toZero
    writeBlock temp newSize toCopy (← readInline id maxInlineSize toCopy)
    zeroBlock temp (newSize + oldSize) toZero
    setOutOfLineStorage id temp
  else
    if oldSize < newSize then resizeOutOfLineStorage supply id newSize
    let count := wordCount (min oldSize newSize)
    -- `memmove`: all words are read before the first is written
    let strides ← readBlock (← outOfLineStorage id) oldSize count
    writeBlock (← outOfLineStorage id) newSize count strides
    if ¬ oldSize < newSize then resizeOutOfLineStorage supply id newSize
    else
      let toZero := wordCount (newSize - oldSize)
      writeBlock (← outOfLineStorage id) oldSize toZero zeros
      writeBlock (← outOfLineStorage id) (newSize + oldSize) toZero zeros
  setSize id newSize

def resize (id newSize : Nat) : Method Unit := do
  let o ← getObject id
  let oldSize := o.size
  if newSize = oldSize then return
  if newSize ≤ maxInlineSize ∧ o.isInline then
    if oldSize < newSize then
      writeInline id oldSize (newSize - oldSize) zeros
      writeInline id (maxInlineSize + oldSize) (newSize - oldSize) zeros
    setSize id newSize
  else resizeSlowPath supply id newSize oldSize

/-- Stores at `sizes_data()` or `strides_data()`, `k` words on. -/
def writeSizes (id k : Nat) (words : List Int) : Method Unit := do
  let o ← getObject id
  if o.isInline then writeInline id k words.length (wordsOf words)
  else writeBlock (← outOfLineStorage id) k words.length (wordsOf words)

def writeStrides (id k : Nat) (words : List Int) : Method Unit := do
  let o ← getObject id
  if o.isInline then writeInline id (maxInlineSize + k) words.length (wordsOf words)
  else writeBlock (← outOfLineStorage id) (o.size + k) words.length (wordsOf words)

def setSizes (id : Nat) (newSizes : List Int) : Method Unit := do
  resize supply id newSizes.length
  writeSizes id 0 newSizes

def setStrides (id : Nat) (strides : List Int) : Method Unit := do
  let o ← getObject id
  if strides.length ≠ o.size then throw .strideCount
  writeStrides id 0 strides

/-- The integers of `count` words. -/
def integers (count : Nat) (words : Nat → Word) : Method (List Int) :=
  (List.range count).mapM fun k =>
    match words k with
    | .value v => pure v
    | .pointer _ => throw .fault

/-- `sizes_arrayref`. -/
def sizesArrayref (id : Nat) : Method (List Int) := do
  let o ← getObject id
  if o.isInline then integers o.size (← readInline id 0 o.size)
  else integers o.size (← readBlock (← outOfLineStorage id) 0 o.size)

/-- `strides_arrayref`. -/
def stridesArrayref (id : Nat) : Method (List Int) := do
  let o ← getObject id
  if o.isInline then integers o.size (← readInline id maxInlineSize o.size)
  else integers o.size (← readBlock (← outOfLineStorage id) o.size o.size)

end Methods

/-- What a program does to its objects, named by numbers. -/
inductive Op
  | defaultConstruct (id : Nat)
  | copyConstruct (id rhs : Nat)
  | moveConstruct (id rhs : Nat)
  | copyAssign (id rhs : Nat)
  | moveAssign (id rhs : Nat)
  | resize (id n : Nat)
  | setSizes (id : Nat) (sizes : List Int)
  | setStrides (id : Nat) (strides : List Int)
  /-- `size_at(k) = v`. -/
  | writeSize (id k : Nat) (v : Int)
  /-- `stride_at(k) = v`. -/
  | writeStride (id k : Nat) (v : Int)
  | destroy (id : Nat)
deriving Repr, DecidableEq

def Op.perform (supply : Supply Word) : Op → Method Unit
  | defaultConstruct id => SizesAndStrides.defaultConstruct id
  | copyConstruct id rhs => SizesAndStrides.copyConstruct supply id rhs
  | moveConstruct id rhs => SizesAndStrides.moveConstruct id rhs
  | copyAssign id rhs => SizesAndStrides.copyAssign supply id rhs
  | moveAssign id rhs => SizesAndStrides.moveAssign id rhs
  | resize id n => SizesAndStrides.resize supply id n
  | setSizes id sizes => SizesAndStrides.setSizes supply id sizes
  | setStrides id strides => SizesAndStrides.setStrides id strides
  | writeSize id k v => writeSizes id k [v]
  | writeStride id k v => writeStrides id k [v]
  | destroy id => SizesAndStrides.destroy id

/-- An operation of a program that goes on after a refused `set_strides`. -/
def Op.attempt (supply : Supply Word) (op : Op) : Method Unit :=
  tryCatch (op.perform supply) fun
    | .strideCount => pure ()
    | stop => throw stop

def runOps (supply : Supply Word) : List Op → Method Unit
  | [] => pure ()
  | op :: ops => do
      op.attempt supply
      runOps supply ops

end Vectorization.SizesAndStrides
