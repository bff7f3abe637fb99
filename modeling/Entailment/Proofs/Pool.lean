import Mathlib.Algebra.GroupWithZero.Nat
import Mathlib.Data.List.Forall2
import Mathlib.Order.Basic
import Entailment.Pool

/-! Texts stay where they were stored. No chunk of a pool ever has to move to a larger
buffer, and the regions of different texts have no byte in common. -/
namespace Entailment

namespace Chunk

variable {c d : Chunk} {bytes : ByteArray}

/-- The same buffer at a later time: bytes may have been added behind the old ones. -/
def Continues (c d : Chunk) : Prop := d.capacity = c.capacity ∧ ∃ more, d.bytes = c.bytes ++ more

theorem continues_refl (c : Chunk) : c.Continues c := ⟨rfl, .empty, ByteArray.append_empty.symm⟩

theorem Continues.trans {e : Chunk} (h : c.Continues d) (h' : d.Continues e) : c.Continues e := by
  obtain ⟨hcapacity, more, hmore⟩ := h
  obtain ⟨hcapacity', more', hmore'⟩ := h'
  exact ⟨hcapacity'.trans hcapacity, more ++ more', by
    rw [hmore', hmore, ByteArray.append_assoc]⟩

theorem continues_extend (h : bytes.size ≤ c.room) : c.Continues (c.extend bytes) :=
  ⟨if_pos h, bytes, rfl⟩

theorem extract_of_continues (h : c.Continues d) {start length : Nat}
    (hle : start + length ≤ c.bytes.size) :
    d.bytes.extract start (start + length) = c.bytes.extract start (start + length) := by
  obtain ⟨-, more, hmore⟩ := h
  have hnone : more.extract (start - c.bytes.size) (start + length - c.bytes.size) = .empty :=
    ByteArray.extract_eq_empty_iff.mpr (by omega)
  rw [hmore, ByteArray.extract_append, hnone, ByteArray.append_empty]

end Chunk

namespace Region

/-- The byte belongs to the region. -/
def Has (r : Region) (chunk i : Nat) : Prop :=
  r.chunk = chunk ∧ r.start ≤ i ∧ i < r.start + r.length

def Disjoint (r s : Region) : Prop := ∀ chunk i, r.Has chunk i → ¬ s.Has chunk i

end Region

namespace Pool

variable {p q : Pool} {r s : Region} {bytes : ByteArray}

/-- A later pool has the chunks of an earlier one in the same buffers. -/
instance : Preorder Pool where
  le p q := ∀ (i : Nat) (c : Chunk), p.chunks[i]? = some c →
    ∃ d, q.chunks[i]? = some d ∧ c.Continues d
  le_refl _ := fun _ c h => ⟨c, h, c.continues_refl⟩
  le_trans _ _ _ h h' := fun i c hc => by
    obtain ⟨d, hd, hcd⟩ := h i c hc
    obtain ⟨e, he, hde⟩ := h' i d hd
    exact ⟨e, he, hcd.trans hde⟩

/-- The region lies within the bytes of the pool. -/
def Covers (p : Pool) (r : Region) : Prop :=
  r.length = 0 ∨ ∃ c, p.chunks[r.chunk]? = some c ∧ r.start + r.length ≤ c.bytes.size

/-- The region lies behind the bytes of the pool. -/
def Precedes (p : Pool) (r : Region) : Prop :=
  r.length = 0 ∨ ∀ c, p.chunks[r.chunk]? = some c → c.bytes.size ≤ r.start

theorem Precedes.anti (h : p ≤ q) (hr : q.Precedes r) : p.Precedes r := by
  refine hr.imp_right fun hr c hc => ?_
  obtain ⟨d, hd, -, more, hmore⟩ := h _ c hc
  have hle := hr d hd
  rw [hmore, ByteArray.size_append] at hle
  omega

theorem Covers.disjoint (hr : p.Covers r) (hs : p.Precedes s) : r.Disjoint s := by
  rintro chunk i ⟨rfl, hstart, hlt⟩ ⟨hchunk, hstart', hlt'⟩
  rcases hr with hr | ⟨c, hc, hle⟩
  · omega
  · rcases hs with hs | hs
    · omega
    · have hend := hs c (hchunk ▸ hc)
      omega

theorem read_of_le (h : p ≤ q) (hr : p.Covers r) : q.read r = p.read r := by
  rcases hr with hr | ⟨c, hc, hle⟩
  · have hnone (p : Pool) : p.read r = .empty := by
      unfold read
      rw [hr, Nat.add_zero]
      split
      · exact ByteArray.extract_same
      · rfl
    rw [hnone, hnone]
  · obtain ⟨d, hd, hcd⟩ := h _ c hc
    unfold read
    rw [hc, hd]
    exact Chunk.extract_of_continues hcd hle

theorem le_push (front : Array Chunk) (c : Chunk) : (⟨front⟩ : Pool) ≤ ⟨front.push c⟩ := by
  intro i d hd
  obtain ⟨hi, -⟩ := Array.getElem?_eq_some_iff.mp hd
  exact ⟨d, by rw [Array.getElem?_push, if_neg (Nat.ne_of_lt hi)]; exact hd, d.continues_refl⟩

theorem push_le_push (front : Array Chunk) {c d : Chunk} (h : c.Continues d) :
    (⟨front.push c⟩ : Pool) ≤ ⟨front.push d⟩ := by
  intro i e he
  rw [Array.getElem?_push] at he ⊢
  split
  · rename_i hi
    rw [if_pos hi] at he
    cases he
    exact ⟨d, rfl, h⟩
  · rename_i hi
    rw [if_neg hi] at he
    exact ⟨e, he, e.continues_refl⟩

theorem usedBytes_push (front : Array Chunk) (c : Chunk) :
    usedBytes ⟨front.push c⟩ = usedBytes ⟨front⟩ + c.bytes.size := by
  simp [usedBytes]

theorem append_push (front : Array Chunk) (c : Chunk) (bytes : ByteArray) :
    append ⟨front.push c⟩ bytes =
      (⟨front.size, c.bytes.size, bytes.size⟩, ⟨front.push (c.extend bytes)⟩) := by
  have hmodify : (front.push c).modify front.size (·.extend bytes) =
      front.push (c.extend bytes) := by
    refine Array.ext_getElem? fun i => ?_
    rw [Array.getElem?_modify, Array.getElem?_push, Array.getElem?_push]
    by_cases hi : i = front.size
    · simp [hi]
    · simp [hi, Ne.symm hi]
  simp [append, hmodify]

/-- The last chunk has room, or a chunk is made that has it. -/
theorem exists_reserve (p : Pool) (length spare : Nat) : ∃ front c, length ≤ c.room ∧
    p.reserve length spare = ⟨front.push c⟩ ∧
    (p = ⟨front.push c⟩ ∨ p = ⟨front⟩ ∧ c = .create (p.nextCapacity length + spare)) := by
  unfold reserve
  split
  · rename_i hroom
    obtain ⟨c, hc, hle⟩ := (Option.any_eq_true _ _).mp hroom
    obtain ⟨front, hfront⟩ := Array.back?_eq_some_iff.mp hc
    obtain ⟨chunks⟩ := p
    subst hfront
    exact ⟨front, c, by simpa using hle, rfl, .inl rfl⟩
  · refine ⟨p.chunks, _, ?_, rfl, .inr ⟨rfl, rfl⟩⟩
    simp only [Chunk.room, Chunk.create, nextCapacity, ByteArray.size_empty]
    omega

/-- What storing a text does. -/
theorem storeWith_cases (spare : Nat) (p : Pool) (text : String) :
    (text.toUTF8.size = 0 ∧ p.storeWith spare text = (⟨0, 0, 0⟩, p)) ∨
    ∃ front c, text.toUTF8.size ≤ c.room ∧
      (p = ⟨front.push c⟩ ∨
        p = ⟨front⟩ ∧ c = .create (p.nextCapacity text.toUTF8.size + spare)) ∧
      p.storeWith spare text =
        (⟨front.size, c.bytes.size, text.toUTF8.size⟩, ⟨front.push (c.extend text.toUTF8)⟩) := by
  by_cases hsize : text.toUTF8.size = 0
  · exact .inl ⟨hsize, if_pos hsize⟩
  · obtain ⟨front, c, hroom, hreserve, hp⟩ := p.exists_reserve text.toUTF8.size spare
    refine .inr ⟨front, c, hroom, hp, ?_⟩
    rw [storeWith, if_neg hsize, hreserve, append_push]

section Step

variable (spare : Nat) (p : Pool) (text : String)

theorem le_storeWith : p ≤ (p.storeWith spare text).2 := by
  rcases p.storeWith_cases spare text with ⟨-, heq⟩ | ⟨front, c, hroom, hp, heq⟩
  · rw [heq]
  · rw [heq]
    rcases hp with rfl | ⟨rfl, -⟩
    · exact push_le_push front (Chunk.continues_extend hroom)
    · exact le_push front _

theorem length_storeWith : (p.storeWith spare text).1.length = text.toUTF8.size := by
  rcases p.storeWith_cases spare text with ⟨hsize, heq⟩ | ⟨front, c, -, -, heq⟩
  · rw [heq, hsize]
  · rw [heq]

theorem covers_storeWith : (p.storeWith spare text).2.Covers (p.storeWith spare text).1 := by
  rcases p.storeWith_cases spare text with ⟨-, heq⟩ | ⟨front, c, -, -, heq⟩
  · rw [heq]
    exact .inl rfl
  · rw [heq]
    exact .inr ⟨_, Array.getElem?_push_size, Nat.le_of_eq ByteArray.size_append.symm⟩

theorem precedes_storeWith : p.Precedes (p.storeWith spare text).1 := by
  rcases p.storeWith_cases spare text with ⟨-, heq⟩ | ⟨front, c, -, hp, heq⟩
  · rw [heq]
    exact .inl rfl
  · rw [heq]
    refine .inr fun d hd => ?_
    rcases hp with rfl | ⟨rfl, -⟩
    · rw [Array.getElem?_push_size] at hd
      cases hd
      exact Nat.le_refl _
    · simp at hd

theorem read_storeWith :
    (p.storeWith spare text).2.read (p.storeWith spare text).1 = text.toUTF8 := by
  rcases p.storeWith_cases spare text with ⟨hsize, heq⟩ | ⟨front, c, -, -, heq⟩
  · rw [ByteArray.size_eq_zero_iff.mp hsize, heq]
    unfold read
    split
    · exact ByteArray.extract_same
    · rfl
  · rw [heq, read, Array.getElem?_push_size]
    exact ByteArray.extract_append_eq_right rfl rfl

theorem usedBytes_storeWith :
    (p.storeWith spare text).2.usedBytes = p.usedBytes + text.toUTF8.size := by
  rcases p.storeWith_cases spare text with ⟨hsize, heq⟩ | ⟨front, c, -, hp, heq⟩
  · rw [heq, hsize, Nat.add_zero]
  · have hc : p.usedBytes = usedBytes ⟨front⟩ + c.bytes.size := by
      rcases hp with rfl | ⟨rfl, rfl⟩
      · exact usedBytes_push front c
      · rfl
    rw [heq, usedBytes_push, hc, Nat.add_assoc, Chunk.extend, ByteArray.size_append]

/-- A chunk keeps its capacity, and a new one has that with which it was made. -/
theorem capacity_storeWith {i : Nat} {d : Chunk}
    (hd : (p.storeWith spare text).2.chunks[i]? = some d) :
    (∃ c, p.chunks[i]? = some c ∧ d.capacity = c.capacity) ∨
    (i = p.chunks.size ∧ d.capacity = p.nextCapacity text.toUTF8.size + spare) := by
  rcases p.storeWith_cases spare text with ⟨-, heq⟩ | ⟨front, c, hroom, hp, heq⟩
  · rw [heq] at hd
    exact .inl ⟨d, hd, rfl⟩
  · rw [heq, Array.getElem?_push] at hd
    have hcapacity := (Chunk.continues_extend hroom).1
    rcases hp with rfl | ⟨rfl, rfl⟩
    · rw [Array.getElem?_push]
      split at hd <;> rename_i hi
      · cases hd
        exact .inl ⟨c, if_pos hi, hcapacity⟩
      · exact .inl ⟨d, (if_neg hi).trans hd, rfl⟩
    · split at hd <;> rename_i hi
      · cases hd
        exact .inr ⟨hi, hcapacity⟩
      · exact .inl ⟨d, hd, rfl⟩

end Step

/-- A text to store, and how many bytes a chunk that is made for it gets beyond those that
were asked for. -/
structure Request where
  text : String
  spare : Nat

/-- Stores texts one after the other. -/
def storeAll (p : Pool) : List Request → List Region × Pool
  | [] => ([], p)
  | r :: rs =>
    let (region, p) := p.storeWith r.spare r.text
    let (regions, p) := p.storeAll rs
    (region :: regions, p)

theorem le_storeAll (rs : List Request) (p : Pool) : p ≤ (p.storeAll rs).2 := by
  induction rs generalizing p with
  | nil => exact le_refl p
  | cons r rs ih => exact le_trans (p.le_storeWith r.spare r.text) (ih _)

theorem precedes_storeAll {rs : List Request} {p : Pool} :
    ∀ r ∈ (p.storeAll rs).1, p.Precedes r := by
  induction rs generalizing p with
  | nil => simp [storeAll]
  | cons r rs ih =>
    rw [storeAll, List.forall_mem_cons]
    exact ⟨p.precedes_storeWith r.spare r.text,
      fun s hs => (ih s hs).anti (p.le_storeWith r.spare r.text)⟩

theorem pairwise_storeAll (rs : List Request) (p : Pool) :
    (p.storeAll rs).1.Pairwise Region.Disjoint := by
  induction rs generalizing p with
  | nil => exact .nil
  | cons r rs ih =>
    rw [storeAll, List.pairwise_cons]
    exact ⟨fun s hs => (p.covers_storeWith r.spare r.text).disjoint (precedes_storeAll s hs), ih _⟩

theorem read_storeAll (rs : List Request) (p : Pool) :
    List.Forall₂ (fun r region => region.length = r.text.utf8ByteSize ∧
      (p.storeAll rs).2.read region = r.text.toUTF8) rs (p.storeAll rs).1 := by
  induction rs generalizing p with
  | nil => exact .nil
  | cons r rs ih =>
    refine .cons ⟨p.length_storeWith r.spare r.text, ?_⟩ (ih _)
    exact (read_of_le (le_storeAll rs _) (p.covers_storeWith r.spare r.text)).trans
      (p.read_storeWith r.spare r.text)

theorem usedBytes_storeAll (rs : List Request) (p : Pool) :
    (p.storeAll rs).2.usedBytes = p.usedBytes + (rs.map (·.text.utf8ByteSize)).sum := by
  induction rs generalizing p with
  | nil => rfl
  | cons r rs ih =>
    rw [storeAll, List.map_cons, List.sum_cons, ← Nat.add_assoc]
    exact (ih _).trans (congrArg (· + _) (p.usedBytes_storeWith r.spare r.text))

theorem capacity_storeAll {rs : List Request} {p : Pool} {i : Nat} {d : Chunk}
    (hd : (p.storeAll rs).2.chunks[i]? = some d) :
    (∃ c, p.chunks[i]? = some c ∧ d.capacity = c.capacity) ∨
    ∃ before r after, rs = before ++ r :: after ∧ (p.storeAll before).2.chunks.size = i ∧
      d.capacity = (p.storeAll before).2.nextCapacity r.text.utf8ByteSize + r.spare := by
  induction rs generalizing p with
  | nil => exact .inl ⟨d, hd, rfl⟩
  | cons r rs ih =>
    rcases ih hd with ⟨c, hc, hcapacity⟩ | ⟨before, s, after, rfl, hi, hcapacity⟩
    · rcases p.capacity_storeWith r.spare r.text hc with ⟨b, hb, hkept⟩ | ⟨hi, hmade⟩
      · exact .inl ⟨b, hb, hcapacity.trans hkept⟩
      · exact .inr ⟨[], r, rs, rfl, hi.symm, hcapacity.trans hmade⟩
    · exact .inr ⟨r :: before, s, after, rfl, hi, hcapacity⟩

/-- Whatever texts are stored, each chunk still has the capacity with which it was made for one of
them and no more bytes than that, each region holds its text, no byte belongs to two regions, and
the bytes of all texts are all that is used. -/
theorem storeAll_stays (rs : List Request) :
    (∀ (i : Nat) (c : Chunk), (empty.storeAll rs).2.chunks[i]? = some c →
      c.bytes.size ≤ c.capacity ∧
      ∃ before r after, rs = before ++ r :: after ∧ (empty.storeAll before).2.chunks.size = i ∧
        c.capacity = (empty.storeAll before).2.nextCapacity r.text.utf8ByteSize + r.spare) ∧
    List.Forall₂ (fun r region => region.length = r.text.utf8ByteSize ∧
      (empty.storeAll rs).2.read region = r.text.toUTF8) rs (empty.storeAll rs).1 ∧
    (empty.storeAll rs).1.Pairwise Region.Disjoint ∧
    (empty.storeAll rs).2.usedBytes = (rs.map (·.text.utf8ByteSize)).sum := by
  refine ⟨fun i c hc => ⟨c.size_le, ?_⟩, read_storeAll rs empty, pairwise_storeAll rs empty, ?_⟩
  · rcases capacity_storeAll hc with ⟨b, hb, -⟩ | hmade
    · simp [empty] at hb
    · exact hmade
  · rw [usedBytes_storeAll]
    exact Nat.zero_add _

end Pool

end Entailment
