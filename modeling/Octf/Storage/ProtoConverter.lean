import Octf.Foundation.Varint

/-! The length prefix of a stored message. -/
namespace Octf.Storage
open Foundation

/-- The `int` with the given 32 bits. -/
def toInt32 (u : ℕ) : ℤ := if u % 2 ^ 32 < 2 ^ 31 then (u % 2 ^ 32 : ℕ) else
    (u % 2 ^ 32 : ℕ) - 2 ^ 32

/-- The 32 bits of an `int`. -/
def toUInt32 (value : ℤ) : ℕ := (value % 2 ^ 32).toNat

namespace ProtoConverter

def MAX_VARINT32_BYTES : ℕ := 5

/-- The loop of `encodeVarint32`: the bytes it writes, and whether the buffer sufficed. -/
def encodeLoop : (size : ℕ) → (uValue : ℕ) → List UInt8 × Bool
  | 0, _ => ([], false)
  | size + 1, uValue =>
    let byte := UInt8.ofNat (uValue &&& 0x7F)
    let uValue := uValue >>> 7
    if uValue = 0 then ([byte], true)
    else
      let (bytes, done) := encodeLoop size uValue
      ((byte ||| 0x80) :: bytes, done)

/-- The bytes written into a buffer of the given size, and the number returned. -/
def encodeVarint32 (size : ℕ) (value : ℤ) : List UInt8 × ℕ :=
  let uValue := toUInt32 value
  if uValue < 0x80 then
    if size = 0 then ([], 0) else ([UInt8.ofNat uValue], 1)
  else
    let (bytes, done) := encodeLoop size uValue
    (bytes, if done then bytes.length else 0)

/-- The loop of `decodeVarint32` in round `i`, with the rounds left. -/
def decodeLoop : (rounds : ℕ) → (i : ℕ) → (uValue : ℕ) → (buffer : List UInt8) → ℕ × Option ℤ
  | 0, _, _, _ => (0, none)
  | _ + 1, _, _, [] => (0, none)
  | rounds + 1, i, uValue, byte :: buffer =>
    let byteNoMSB := byte.toNat &&& 0x7F
    let uValue := uValue ||| ((byteNoMSB <<< (i * 7)) % 2 ^ 32)
    if byte < 0x80 then (i + 1, some (toInt32 uValue))
    else decodeLoop rounds (i + 1) uValue buffer

/-- The number of bytes read from the buffer, and the value if it is set. -/
def decodeVarint32 (buffer : List UInt8) : ℕ × Option ℤ :=
  match buffer with
  | [] => (0, none)
  | byte :: _ =>
    if byte < 0x80 then (1, some (byte.toNat : ℤ)) else decodeLoop MAX_VARINT32_BYTES 0 0 buffer

section Digits

variable {n : ℕ}

theorem toNat_digit (h : n < 128) : (UInt8.ofNat n).toNat = n := by
  rw [UInt8.toNat_ofNat']
  omega

theorem digit_lt (h : n < 128) : UInt8.ofNat n < 0x80 := by
  rw [UInt8.lt_iff_toNat_lt, toNat_digit h]
  exact h

theorem toNat_marked (n : ℕ) : (UInt8.ofNat (n % 128 + 128)).toNat = n % 128 + 128 := by
  rw [UInt8.toNat_ofNat']
  omega

theorem not_marked_lt (n : ℕ) : ¬ UInt8.ofNat (n % 128 + 128) < 0x80 := by
  rw [UInt8.lt_iff_toNat_lt, toNat_marked]
  exact Nat.not_lt.mpr (Nat.le_add_left 128 _)

theorem or_mark (n : ℕ) : UInt8.ofNat (n % 128) ||| 0x80 = UInt8.ofNat (n % 128 + 128) := by
  apply UInt8.toNat_inj.mp
  have h128 : (0x80 : UInt8).toNat = 2 ^ 7 * 1 := rfl
  have hlt : n % 128 < 2 ^ 7 := Nat.mod_lt n (by decide)
  rw [UInt8.toNat_or, toNat_digit hlt, h128, Nat.or_comm, ← Nat.two_pow_add_eq_or_of_lt hlt,
    toNat_marked, Nat.mul_one, Nat.add_comm]

theorem low_bits (n : ℕ) : n &&& 0x7F = n % 128 := Nat.and_two_pow_sub_one_eq_mod n 7

end Digits

/-- The loop writes the digits that the buffer has room for. -/
theorem encodeLoop_eq (size n : ℕ) :
    encodeLoop size n = ((varint n).take size, decide ((varint n).length ≤ size)) := by
  induction size generalizing n with
  | zero =>
    have hlong : ¬ (varint n).length ≤ 0 := Nat.not_le.mpr (length_varint_pos n)
    rw [encodeLoop, List.take_zero, decide_eq_false hlong]
  | succ size ih =>
    have hshift : n >>> 7 = n / 128 := Nat.shiftRight_eq_div_pow n 7
    unfold encodeLoop
    simp only [low_bits, hshift]
    rcases Nat.lt_or_ge n 128 with hn | hn
    · have hone : [UInt8.ofNat n].length ≤ size + 1 := Nat.succ_le_succ (Nat.zero_le size)
      rw [if_pos (Nat.div_eq_of_lt hn), varint_of_lt hn, Nat.mod_eq_of_lt hn, List.take_succ_cons,
        List.take_nil, decide_eq_true hone]
    · rw [if_neg (by omega), varint_of_ge hn, ih, or_mark, List.take_succ_cons, List.length_cons]
      simp only [Nat.succ_le_succ_iff]

/-- All digits are written, or those that fit and the call returns zero. -/
theorem encodeVarint32_take (size : ℕ) (value : ℤ) : encodeVarint32 size value =
    ((varint (toUInt32 value)).take size,
      if (varint (toUInt32 value)).length ≤ size then (varint (toUInt32 value)).length else 0) := by
  unfold encodeVarint32
  rcases Nat.lt_or_ge (toUInt32 value) 128 with hn | hn
  · simp only [if_pos hn, varint_of_lt hn, List.length_singleton]
    cases size with
    | zero => rfl
    | succ size => simp
  · simp only [if_neg (Nat.not_lt.mpr hn), encodeLoop_eq, decide_eq_true_eq]
    split_ifs with hfits
    · rw [List.take_of_length_le hfits]
    · rfl

theorem length_varint_le_max {n : ℕ} (h : n < 2 ^ 31) :
    (varint n).length ≤ MAX_VARINT32_BYTES :=
  length_varint_le (by decide) (by simp only [MAX_VARINT32_BYTES]; omega)

theorem encodeVarint32_eq {n : ℕ} (h : n < 2 ^ 31) :
    encodeVarint32 MAX_VARINT32_BYTES n = (varint n, (varint n).length) := by
  have hbits : toUInt32 (n : ℤ) = n := by
    unfold toUInt32
    omega
  have hlength := length_varint_le_max h
  rw [encodeVarint32_take, hbits, if_pos hlength, List.take_of_length_le hlength]

/-- Nothing is decoded while all bytes are marked. -/
theorem decodeLoop_of_marked {rounds i u : ℕ} {buffer : List UInt8}
    (h : ∀ b ∈ buffer, 128 ≤ b.toNat) : decodeLoop rounds i u buffer = (0, none) := by
  induction rounds generalizing i u buffer with
  | zero => rfl
  | succ rounds ih =>
    cases buffer with
    | nil => rfl
    | cons byte buffer =>
      have hmarked : ¬ byte < 0x80 := UInt8.not_lt.mpr (h byte List.mem_cons_self)
      unfold decodeLoop
      simp only [if_neg hmarked]
      exact ih fun b hb => h b (List.mem_cons_of_mem byte hb)

theorem decodeVarint32_of_marked {buffer : List UInt8} (h : ∀ b ∈ buffer, 128 ≤ b.toNat) :
    decodeVarint32 buffer = (0, none) := by
  cases buffer with
  | nil => rfl
  | cons byte buffer =>
    have hmarked : ¬ byte < 0x80 := UInt8.not_lt.mpr (h byte List.mem_cons_self)
    unfold decodeVarint32
    simp only [if_neg hmarked]
    exact decodeLoop_of_marked h

/-- The loop reads one number and no byte behind it. -/
theorem decodeLoop_eq {rounds i u n : ℕ} (rest : List UInt8) (hrounds : 0 < rounds)
    (hn : n < 128 ^ rounds) (hu : u < 2 ^ (i * 7)) (h : u + n * 2 ^ (i * 7) < 2 ^ 32) :
    decodeLoop rounds i u (varint n ++ rest) =
      (i + (varint n).length, some (toInt32 (u + n * 2 ^ (i * 7)))) := by
  induction rounds generalizing i u n with
  | zero => exact absurd hrounds (Nat.lt_irrefl 0)
  | succ rounds ih =>
    have hpow : 0 < 2 ^ (i * 7) := Nat.two_pow_pos _
    have hor : ∀ {d : ℕ}, d < 128 → d * 2 ^ (i * 7) < 2 ^ 32 →
        u ||| ((d <<< (i * 7)) % 2 ^ 32) = u + d * 2 ^ (i * 7) := by
      intro d _ hd
      rw [Nat.shiftLeft_eq, Nat.mod_eq_of_lt (by omega), Nat.or_comm, Nat.mul_comm d,
        ← Nat.two_pow_add_eq_or_of_lt hu, Nat.add_comm]
    rcases Nat.lt_or_ge n 128 with hlt | hge
    · rw [varint_of_lt hlt, List.singleton_append, decodeLoop]
      simp only [toNat_digit hlt, low_bits, Nat.mod_eq_of_lt hlt, if_pos (digit_lt hlt),
        hor hlt (by omega), List.length_singleton]
    · have hdigit : n % 128 < 128 := Nat.mod_lt n (by decide)
      have hlow : (n % 128 + 128) % 128 = n % 128 := by omega
      have hexp : 2 ^ ((i + 1) * 7) = 128 * 2 ^ (i * 7) := by
        rw [Nat.add_mul, Nat.pow_add, Nat.mul_comm]
      have hsplit : n % 128 * 2 ^ (i * 7) + n / 128 * 2 ^ ((i + 1) * 7) = n * 2 ^ (i * 7) := by
        calc n % 128 * 2 ^ (i * 7) + n / 128 * 2 ^ ((i + 1) * 7)
            = (n % 128 + 128 * (n / 128)) * 2 ^ (i * 7) := by rw [hexp]; ring
          _ = n * 2 ^ (i * 7) := by rw [Nat.mod_add_div]
      have hdiv : n / 128 < 128 ^ rounds := (Nat.div_lt_iff_lt_mul (by decide)).mpr hn
      have hpos : 0 < rounds := by
        rcases Nat.eq_zero_or_pos rounds with rfl | hpos
        · rw [Nat.zero_add, Nat.pow_one] at hn
          omega
        · exact hpos
      have hu' : u + n % 128 * 2 ^ (i * 7) < 2 ^ ((i + 1) * 7) := by
        have hle : n % 128 * 2 ^ (i * 7) ≤ 127 * 2 ^ (i * 7) :=
          Nat.mul_le_mul_right _ (by omega)
        omega
      rw [varint_of_ge hge, List.cons_append, decodeLoop]
      simp only [toNat_marked, low_bits, hlow, if_neg (not_marked_lt n), hor hdigit (by omega),
        List.length_cons]
      have hvalue : u + n % 128 * 2 ^ (i * 7) + n / 128 * 2 ^ ((i + 1) * 7) =
          u + n * 2 ^ (i * 7) := by
        rw [Nat.add_assoc, hsplit]
      have hcount : i + 1 + (varint (n / 128)).length = i + ((varint (n / 128)).length + 1) := by
        omega
      rw [ih hpos hdiv hu' (by omega), hvalue, hcount]

theorem toInt32_of_lt {n : ℕ} (h : n < 2 ^ 31) : toInt32 n = n := by
  rw [toInt32, Nat.mod_eq_of_lt (by omega), if_pos h]

theorem decodeVarint32_varint {n : ℕ} (rest : List UInt8) (h : n < 2 ^ 32) :
    decodeVarint32 (varint n ++ rest) = ((varint n).length, some (toInt32 n)) := by
  rcases Nat.lt_or_ge n 128 with hlt | hge
  · simp only [varint_of_lt hlt, List.singleton_append, decodeVarint32, if_pos (digit_lt hlt),
      toNat_digit hlt, List.length_singleton, toInt32_of_lt (show n < 2 ^ 31 by omega)]
  · have hloop := decodeLoop_eq (i := 0) (u := 0) (n := n) rest
      (show 0 < MAX_VARINT32_BYTES by decide) (by simp only [MAX_VARINT32_BYTES]; omega)
      (by decide) (by omega)
    rw [varint_of_ge hge, List.cons_append] at hloop ⊢
    simp only [decodeVarint32, if_neg (not_marked_lt n)]
    rw [hloop]
    simp

theorem decodeVarint32_eq {n : ℕ} (rest : List UInt8) (h : n < 2 ^ 31) :
    decodeVarint32 (varint n ++ rest) = ((varint n).length, some (n : ℤ)) := by
  rw [decodeVarint32_varint rest (by omega), toInt32_of_lt h]

end ProtoConverter

end Octf.Storage
