/-! A store for texts in chunks. Texts go to the end of the last chunk as long as
it has room for them, and a larger chunk is made for one that it has no room for. -/
namespace Entailment

/-- A buffer with bytes in it. -/
structure Chunk where
  capacity : Nat
  bytes : ByteArray
  size_le : bytes.size ≤ capacity

namespace Chunk

/-- An empty buffer. -/
def create (capacity : Nat) : Chunk := ⟨capacity, .empty, Nat.zero_le capacity⟩

def room (c : Chunk) : Nat := c.capacity - c.bytes.size

/-- Capacity of a buffer with `more` bytes behind those of the chunk. Without room for
them it has to be another, larger one. -/
def capacityWith (c : Chunk) (more : Nat) : Nat :=
  if more ≤ c.room then c.capacity else max (2 * c.capacity) (c.bytes.size + more)

theorem add_le_capacityWith (c : Chunk) (more : Nat) :
    c.bytes.size + more ≤ c.capacityWith more := by
  have h := c.size_le
  unfold capacityWith room
  split <;> omega

/-- Appends bytes. If there is no room for them, all bytes move to a larger buffer. -/
def extend (c : Chunk) (bytes : ByteArray) : Chunk where
  capacity := c.capacityWith bytes.size
  bytes := c.bytes ++ bytes
  size_le := by
    rw [ByteArray.size_append]
    exact c.add_le_capacityWith bytes.size

end Chunk

/-- Chunks in the order of their creation. Only the last one is written to. -/
structure Pool where
  chunks : Array Chunk

/-- Where a text lies: a chunk, the first byte in it and the number of bytes. -/
structure Region where
  chunk : Nat
  start : Nat
  length : Nat
deriving DecidableEq, Repr

namespace Pool

/-- Capacity of the first chunk. -/
def firstCapacity : Nat := 4096

/-- Each chunk is twice as large as the one before it, up to this capacity. -/
def largestUsual : Nat := 2 * 1024 * 1024

def empty : Pool := ⟨#[]⟩

/-- Capacity of a new chunk that must hold `length` bytes. -/
def nextCapacity (p : Pool) (length : Nat) : Nat :=
  let usual := match p.chunks.back? with
    | some last => min last.capacity (largestUsual / 2) * 2
    | none => firstCapacity
  max length usual

def hasRoom (p : Pool) (length : Nat) : Bool :=
  p.chunks.back?.any (length ≤ ·.room)

/-- The pool with a last chunk that has room for `length` bytes. A new chunk may be
given some bytes more than it has to have. -/
def reserve (p : Pool) (length spare : Nat) : Pool :=
  if p.hasRoom length then p
  else ⟨p.chunks.push (.create (p.nextCapacity length + spare))⟩

/-- Appends bytes to the last chunk and tells where they lie. -/
def append (p : Pool) (bytes : ByteArray) : Region × Pool :=
  let i := p.chunks.size - 1
  (⟨i, (p.chunks[i]?.map (·.bytes.size)).getD 0, bytes.size⟩,
    ⟨p.chunks.modify i (·.extend bytes)⟩)

/-- Stores a text. The empty text needs no place. -/
def storeWith (spare : Nat) (p : Pool) (text : String) : Region × Pool :=
  let bytes := text.toUTF8
  if bytes.size = 0 then (⟨0, 0, 0⟩, p) else (p.reserve bytes.size spare).append bytes

/-- Stores a text, with new chunks exactly as large as they have to be. -/
def store (p : Pool) (text : String) : Region × Pool := p.storeWith 0 text

/-- The bytes of a region. -/
def read (p : Pool) (r : Region) : ByteArray :=
  match p.chunks[r.chunk]? with
  | some c => c.bytes.extract r.start (r.start + r.length)
  | none => .empty

/-- Number of bytes in all chunks. -/
def usedBytes (p : Pool) : Nat := p.chunks.foldl (fun n c => n + c.bytes.size) 0

end Pool

end Entailment
