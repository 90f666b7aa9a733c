import Mathlib.Data.List.Basic
import Mathlib.Tactic.Ring
import Mathlib.Tactic.Linarith

/-! Byte-addressed memories with little-endian fields. Loads, stores and the frame
rules between them hold for every memory and every address. -/
namespace Foundation

/-- The number stored in a little-endian byte string. -/
def littleEndian : List UInt8 → ℕ
  | [] => 0
  | b :: bs => b.toNat + 256 * littleEndian bs

/-- The `n` little-endian bytes of `x`; higher digits are cut off. -/
def toLittleEndian : ℕ → ℕ → List UInt8
  | 0, _ => []
  | n + 1, x => UInt8.ofNat (x % 256) :: toLittleEndian n (x / 256)

@[simp] theorem length_toLittleEndian (n x : ℕ) : (toLittleEndian n x).length = n := by
  induction n generalizing x with
  | zero => rfl
  | succ n ih => simp [toLittleEndian, ih]

theorem littleEndian_toLittleEndian (n x : ℕ) (h : x < 256 ^ n) :
    littleEndian (toLittleEndian n x) = x := by
  induction n generalizing x with
  | zero =>
    have hx : x = 0 := by simpa using h
    simp [toLittleEndian, littleEndian, hx]
  | succ n ih =>
    have hdiv : x / 256 < 256 ^ n := by
      apply (Nat.div_lt_iff_lt_mul (by decide)).mpr
      simpa only [Nat.pow_succ] using h
    simp only [toLittleEndian, littleEndian, ih _ hdiv, UInt8.toNat_ofNat']
    omega

/-- A memory gives every address a byte; the bounds of an object live with its user. -/
abbrev Memory := ℕ → UInt8

instance : Zero Memory := ⟨fun _ => 0⟩

/-- The `n` bytes from address `p` on. -/
def Memory.load (m : Memory) (p n : ℕ) : List UInt8 := (List.range n).map fun i => m (p + i)

/-- Write the bytes `bs` from address `p` on. -/
def Memory.store (m : Memory) (p : ℕ) (bs : List UInt8) : Memory := fun a =>
  if p ≤ a then (bs[a - p]?).getD (m a) else m a

@[simp] theorem Memory.length_load (m : Memory) (p n : ℕ) : (m.load p n).length = n := by
  simp [Memory.load]

theorem Memory.getElem?_load (m : Memory) {p n i : ℕ} (h : i < n) :
    (m.load p n)[i]? = some (m (p + i)) := by
  simp [Memory.load, h]

/-- Two loads agree when the memories agree on the bytes read. -/
theorem Memory.load_congr {m m' : Memory} {p p' n : ℕ}
    (h : ∀ i < n, m (p + i) = m' (p' + i)) : m.load p n = m'.load p' n := by
  apply List.map_congr_left
  intro i hi
  exact h i (List.mem_range.mp hi)

theorem Memory.store_of_lt (m : Memory) {p a : ℕ} (bs : List UInt8) (h : a < p) :
    m.store p bs a = m a := by
  have hn : ¬ p ≤ a := by omega
  simp [Memory.store, hn]

theorem Memory.store_of_ge (m : Memory) {p a : ℕ} (bs : List UInt8) (h : p + bs.length ≤ a) :
    m.store p bs a = m a := by
  have hl : bs.length ≤ a - p := by omega
  simp [Memory.store, List.getElem?_eq_none hl]

theorem Memory.store_of_mem (m : Memory) {p i : ℕ} (bs : List UInt8) (h : i < bs.length) :
    m.store p bs (p + i) = bs[i] := by
  simp [Memory.store, h]

/-- A store leaves every range it does not meet unchanged. -/
theorem Memory.load_store_disjoint (m : Memory) {p q n : ℕ} (bs : List UInt8)
    (h : p + bs.length ≤ q ∨ q + n ≤ p) : (m.store p bs).load q n = m.load q n := by
  apply Memory.load_congr
  intro i hi
  rcases h with h | h
  · exact m.store_of_ge bs (by omega)
  · exact m.store_of_lt bs (by omega)

/-- Overwrite part of a byte string in place. -/
def overwrite (xs : List UInt8) (off : ℕ) (bs : List UInt8) : List UInt8 :=
  xs.take off ++ bs ++ xs.drop (off + bs.length)

@[simp] theorem length_overwrite {xs bs : List UInt8} {off : ℕ}
    (h : off + bs.length ≤ xs.length) : (overwrite xs off bs).length = xs.length := by
  simp only [overwrite, List.length_append, List.length_take, List.length_drop]
  omega

/-- Write into a file at an offset; what lies between its end and the offset reads as zeros. -/
def writeAt (file : List UInt8) (offset : ℕ) (bs : List UInt8) : List UInt8 :=
  overwrite (file ++ List.replicate (offset - file.length) 0) offset bs

theorem writeAt_nil (offset : ℕ) (bs : List UInt8) :
    writeAt [] offset bs = List.replicate offset 0 ++ bs := by
  simp [writeAt, overwrite]

/-- Reading a range after a store inside it gives the range with that part overwritten. -/
theorem Memory.load_store_within (m : Memory) {p off n : ℕ} (bs : List UInt8)
    (h : off + bs.length ≤ n) :
    (m.store (p + off) bs).load p n = overwrite (m.load p n) off bs := by
  apply List.ext_getElem?
  intro i
  by_cases hi : i < n
  · rw [Memory.getElem?_load _ hi]
    simp only [overwrite, List.append_assoc]
    rcases Nat.lt_or_ge i off with hlt | hge
    · rw [List.getElem?_append_left (by simp; omega), List.getElem?_take_of_lt hlt,
        Memory.getElem?_load _ hi, m.store_of_lt bs (by omega)]
    · rw [List.getElem?_append_right (by simp; omega)]
      have hoff : i - (List.take off (m.load p n)).length = i - off := by
        simp only [List.length_take, Memory.length_load]
        omega
      rw [hoff]
      rcases Nat.lt_or_ge (i - off) bs.length with hin | hout
      · rw [List.getElem?_append_left hin, List.getElem?_eq_getElem hin]
        have haddr : p + i = p + off + (i - off) := by omega
        rw [haddr, m.store_of_mem bs hin]
      · rw [List.getElem?_append_right hout, List.getElem?_drop]
        have hidx : off + bs.length + (i - off - bs.length) = i := by omega
        rw [hidx, Memory.getElem?_load _ hi, m.store_of_ge bs (by omega)]
  · rw [List.getElem?_eq_none (by simp; omega), List.getElem?_eq_none (by
      rw [length_overwrite (by simpa using h)]
      simp
      omega)]

/-- A store is read back. -/
theorem Memory.load_store_same (m : Memory) (p : ℕ) (bs : List UInt8) :
    (m.store p bs).load p bs.length = bs := by
  have hle : 0 + bs.length ≤ bs.length := by omega
  have h := m.load_store_within (p := p) bs hle
  simp only [Nat.add_zero] at h
  rw [h]
  simp [overwrite]

theorem Memory.load_add (m : Memory) (p n k : ℕ) :
    m.load p (n + k) = m.load p n ++ m.load (p + n) k := by
  simp only [Memory.load, List.range_add, List.map_append, List.map_map]
  congr 1
  apply List.map_congr_left
  intro i _
  rw [Function.comp_apply, Nat.add_assoc]

theorem Memory.load_succ (m : Memory) (p n : ℕ) : m.load p (n + 1) = m p :: m.load (p + 1) n := by
  rw [Nat.add_comm n 1, Memory.load_add]
  rfl

/-- The bytes behind a prefix of a range. -/
theorem Memory.load_of_append (m : Memory) {p n : ℕ} {bs rest : List UInt8}
    (h : m.load p n = bs ++ rest) : m.load (p + bs.length) (n - bs.length) = rest := by
  have hle : bs.length ≤ n := by
    have hlength := congrArg List.length h
    rw [Memory.length_load, List.length_append] at hlength
    omega
  have hsplit := m.load_add p bs.length (n - bs.length)
  rw [Nat.add_sub_cancel' hle, h] at hsplit
  exact (List.append_inj hsplit (m.length_load p bs.length).symm).2.symm

theorem Memory.store_nil (m : Memory) (p : ℕ) : m.store p [] = m := by
  funext a
  simp [Memory.store]

/-- Bytes stored one after the other are stored at once. -/
theorem Memory.store_cons (m : Memory) (p : ℕ) (b : UInt8) (bs : List UInt8) :
    (m.store p [b]).store (p + 1) bs = m.store p (b :: bs) := by
  funext a
  rcases Nat.lt_trichotomy a p with hlt | rfl | hgt
  · rw [Memory.store_of_lt _ _ (by omega), Memory.store_of_lt _ _ hlt, Memory.store_of_lt _ _ hlt]
  · rw [Memory.store_of_lt _ _ (Nat.lt_succ_self a)]
    simp [Memory.store]
  · have hrest : a - p = a - (p + 1) + 1 := by omega
    have hafter : p + 1 ≤ a := hgt
    simp [Memory.store, hafter, hgt.le, hrest]

theorem Memory.store_store (m : Memory) (p : ℕ) (b b' : UInt8) :
    (m.store p [b]).store p [b'] = m.store p [b'] := by
  funext a
  rcases Nat.lt_trichotomy a p with hlt | rfl | hgt
  · rw [Memory.store_of_lt _ _ hlt, Memory.store_of_lt _ _ hlt, Memory.store_of_lt _ _ hlt]
  · simp [Memory.store]
  · rw [Memory.store_of_ge _ _ hgt, Memory.store_of_ge _ _ hgt, Memory.store_of_ge _ _ hgt]

/-- A store behind the first `p` bytes appends to them. -/
theorem Memory.load_store_append (m : Memory) (p : ℕ) (bs : List UInt8) :
    (m.store p bs).load 0 (p + bs.length) = m.load 0 p ++ bs := by
  rw [Memory.load_add, Nat.zero_add, Memory.load_store_same,
    Memory.load_store_disjoint m bs (.inr (by omega))]

end Foundation
