import Octf.Foundation.ByteMemory
import Octf.Storage.ProtoConverter

/-! Numbers encoded one after the other into one buffer, and decoded from it. The calls work on a
memory here, and tell the addresses that they access. -/
namespace Octf.Storage.ProtoConverter
open Foundation

/-- What a call of `encodeVarint32` leaves and returns. -/
structure EncodeCall where
  memory : Memory
  returned : ℕ
  touched : List ℕ

/-- What a call of `decodeVarint32` returns, and the value if it sets one. -/
structure DecodeCall where
  returned : ℕ
  value : Option ℤ
  touched : List ℕ

/-- The loop of `encodeVarint32`. -/
def encodeLoopAt : (size : ℕ) → (buffer uValue varIntSize : ℕ) → Memory → EncodeCall
  | 0, _, _, _, m => ⟨m, 0, []⟩
  | size + 1, buffer, uValue, varIntSize, m =>
    let byte := UInt8.ofNat (uValue &&& 0x7F)
    let m := m.store buffer [byte]
    let uValue := uValue >>> 7
    if uValue = 0 then ⟨m, varIntSize + 1, [buffer]⟩
    else
      let m := m.store buffer [m buffer ||| 0x80]
      let rest := encodeLoopAt size (buffer + 1) uValue (varIntSize + 1) m
      { rest with touched := buffer :: rest.touched }

def encodeAt (m : Memory) (buffer size : ℕ) (value : ℤ) : EncodeCall :=
  let uValue := toUInt32 value
  if uValue < 0x80 then
    if size = 0 then ⟨m, 0, []⟩ else ⟨m.store buffer [UInt8.ofNat uValue], 1, [buffer]⟩
  else encodeLoopAt size buffer uValue 0 m

/-- The loop of `decodeVarint32` in round `i`, with the rounds left. -/
def decodeLoopAt (m : Memory) : (rounds : ℕ) → (i buffer size uValue : ℕ) → DecodeCall
  | 0, _, _, _, _ => ⟨0, none, []⟩
  | _ + 1, _, _, 0, _ => ⟨0, none, []⟩
  | rounds + 1, i, buffer, size + 1, uValue =>
    let byte := m buffer
    let byteNoMSB := byte.toNat &&& 0x7F
    let uValue := uValue ||| ((byteNoMSB <<< (i * 7)) % 2 ^ 32)
    if byte < 0x80 then ⟨i + 1, some (toInt32 uValue), [buffer]⟩
    else
      let rest := decodeLoopAt m rounds (i + 1) (buffer + 1) size uValue
      { rest with touched := buffer :: rest.touched }

def decodeAt (m : Memory) (buffer size : ℕ) : DecodeCall :=
  if size = 0 then ⟨0, none, []⟩
  else if m buffer < 0x80 then ⟨1, some ((m buffer).toNat : ℤ), [buffer]⟩
  else
    let loop := decodeLoopAt m MAX_VARINT32_BYTES 0 buffer size 0
    { loop with touched := buffer :: loop.touched }

/-! ### One call -/

variable {m : Memory} {buffer size : ℕ}

/-- An address inside the length that a call is given. -/
def Inside (buffer size a : ℕ) : Prop := buffer ≤ a ∧ a < buffer + size

/-- The loop stores the bytes of the encoding, and no others. -/
theorem encodeLoopAt_eq (size buffer n k : ℕ) (m : Memory) :
    encodeLoopAt size buffer n k m =
      let loop := encodeLoop size n
      ⟨m.store buffer loop.1, if loop.2 then k + loop.1.length else 0,
        List.range' buffer loop.1.length⟩ := by
  induction size generalizing buffer n k m with
  | zero => simp [encodeLoopAt, encodeLoop, Memory.store_nil]
  | succ size ih =>
    have hself : ∀ b, (m.store buffer [b]) buffer = b := fun b => by simp [Memory.store]
    unfold encodeLoopAt encodeLoop
    by_cases hlast : n >>> 7 = 0
    · simp only [if_pos hlast]
      rfl
    · simp only [if_neg hlast, ih, Memory.store_store, Memory.store_cons, hself]
      cases (encodeLoop size (n >>> 7)).2 with
      | false => simp [List.range'_succ]
      | true => simp [List.range'_succ, Nat.add_assoc, Nat.add_comm 1]

theorem encodeAt_eq (m : Memory) (buffer size : ℕ) (value : ℤ) :
    encodeAt m buffer size value =
      let call := encodeVarint32 size value
      ⟨m.store buffer call.1, call.2, List.range' buffer call.1.length⟩ := by
  unfold encodeAt encodeVarint32
  by_cases hsmall : toUInt32 value < 0x80
  · simp only [if_pos hsmall]
    by_cases hzero : size = 0
    · simp [hzero, Memory.store_nil]
    · simp [hzero]
  · simp only [if_neg hsmall, encodeLoopAt_eq, Nat.zero_add]

/-- What is read in the loop is what the buffer holds, one byte after the other. -/
theorem decodeLoopAt_eq (m : Memory) (rounds i buffer size u : ℕ) :
    (decodeLoopAt m rounds i buffer size u).returned =
        (decodeLoop rounds i u (m.load buffer size)).1 ∧
      (decodeLoopAt m rounds i buffer size u).value =
        (decodeLoop rounds i u (m.load buffer size)).2 ∧
      ∀ a ∈ (decodeLoopAt m rounds i buffer size u).touched, Inside buffer size a := by
  induction rounds generalizing i buffer size u with
  | zero => exact ⟨rfl, rfl, fun a ha => nomatch ha⟩
  | succ rounds ih =>
    cases size with
    | zero => exact ⟨rfl, rfl, fun a ha => nomatch ha⟩
    | succ size =>
      have hfirst : Inside buffer (size + 1) buffer := ⟨le_rfl, by omega⟩
      rw [Memory.load_succ]
      unfold decodeLoopAt decodeLoop
      simp only
      split_ifs with hlast
      · exact ⟨rfl, rfl, fun a ha => List.mem_singleton.mp ha ▸ hfirst⟩
      · obtain ⟨hreturned, hvalue, htouched⟩ := ih (i + 1) (buffer + 1) size
          (u ||| (((m buffer).toNat &&& 0x7F) <<< (i * 7)) % 2 ^ 32)
        refine ⟨hreturned, hvalue, fun a ha => ?_⟩
        rcases List.mem_cons.mp ha with rfl | hrest
        · exact hfirst
        · have hinside := htouched a hrest
          exact ⟨by have := hinside.1; omega, by have := hinside.2; omega⟩

theorem decodeAt_eq (m : Memory) (buffer size : ℕ) :
    (decodeAt m buffer size).returned = (decodeVarint32 (m.load buffer size)).1 ∧
      (decodeAt m buffer size).value = (decodeVarint32 (m.load buffer size)).2 ∧
      ∀ a ∈ (decodeAt m buffer size).touched, Inside buffer size a := by
  cases size with
  | zero => exact ⟨rfl, rfl, fun a ha => nomatch ha⟩
  | succ size =>
    have hfirst : Inside buffer (size + 1) buffer := ⟨le_rfl, by omega⟩
    obtain ⟨hreturned, hvalue, htouched⟩ :=
      decodeLoopAt_eq m MAX_VARINT32_BYTES 0 buffer (size + 1) 0
    unfold decodeAt decodeVarint32
    rw [if_neg (Nat.succ_ne_zero size)]
    rw [Memory.load_succ] at hreturned hvalue ⊢
    simp only
    split_ifs with hsmall
    · exact ⟨rfl, rfl, fun a ha => List.mem_singleton.mp ha ▸ hfirst⟩
    · refine ⟨hreturned, hvalue, fun a ha => ?_⟩
      rcases List.mem_cons.mp ha with rfl | hrest
      · exact hfirst
      · exact htouched a hrest

theorem length_encodeVarint32 (size : ℕ) (value : ℤ) :
    (encodeVarint32 size value).1.length ≤ size := by
  rw [encodeVarint32_take]
  exact List.length_take_le ..

theorem touched_encodeAt (m : Memory) (buffer size : ℕ) (value : ℤ) :
    ∀ a ∈ (encodeAt m buffer size value).touched, Inside buffer size a := by
  rw [encodeAt_eq]
  intro a ha
  have hlength := length_encodeVarint32 size value
  obtain ⟨hfirst, hlast⟩ := List.mem_range'_1.mp ha
  exact ⟨hfirst, by omega⟩

theorem memory_encodeAt (m : Memory) (buffer size : ℕ) (value : ℤ) {a : ℕ}
    (ha : ¬ Inside buffer size a) : (encodeAt m buffer size value).memory a = m a := by
  rw [encodeAt_eq]
  have hlength := length_encodeVarint32 size value
  rcases Nat.lt_or_ge a buffer with hlt | hge
  · exact m.store_of_lt _ hlt
  · have hafter : buffer + size ≤ a := Nat.not_lt.mp fun hlt => ha ⟨hge, hlt⟩
    exact m.store_of_ge _ (by omega)

/-! ### Calls one after the other -/

/-- What the calls that encode values into the space left do, up to the first that returns zero. -/
structure EncodeCalls where
  memory : Memory
  /-- What the calls that succeeded returned, with their values. -/
  results : List (ℕ × ℤ)
  failed : Bool

def encodeAll : List ℤ → (buffer size : ℕ) → Memory → EncodeCalls
  | [], _, _, m => ⟨m, [], false⟩
  | value :: values, buffer, size, m =>
    let call := encodeAt m buffer size value
    if call.returned = 0 then ⟨call.memory, [], true⟩
    else
      let rest := encodeAll values (buffer + call.returned) (size - call.returned) call.memory
      { rest with results := (call.returned, value) :: rest.results }

/-- What a number of calls return that decode the space left, with the values they set. -/
def decodeAll (m : Memory) : (calls : ℕ) → (buffer size : ℕ) → List (ℕ × Option ℤ)
  | 0, _, _ => []
  | calls + 1, buffer, size =>
    let call := decodeAt m buffer size
    (call.returned, call.value) ::
      decodeAll m calls (buffer + call.returned) (size - call.returned)

/-- The bytes of the encoded values. -/
def bytesOf (results : List (ℕ × ℤ)) : List UInt8 :=
  results.flatMap fun result => varint (toUInt32 result.2)

/-- The buffer holds the values of the successful calls, and then bytes of a number that has no
end if a call failed. -/
structure Filled (buffer size : ℕ) (calls : EncodeCalls) (left : List UInt8) : Prop where
  load : calls.memory.load buffer size = bytesOf calls.results ++ left
  lengths : ∀ result ∈ calls.results, result.1 = (varint (toUInt32 result.2)).length
  left : calls.failed = true → ∀ b ∈ left, 128 ≤ b.toNat

theorem memory_encodeAll (values : List ℤ) (buffer size : ℕ) (m : Memory) {a : ℕ}
    (ha : ¬ Inside buffer size a) : (encodeAll values buffer size m).memory a = m a := by
  induction values generalizing buffer size m with
  | nil => rfl
  | cons value values ih =>
    have hfirst := memory_encodeAt m buffer size value ha
    unfold encodeAll
    simp only
    split_ifs with hzero
    · exact hfirst
    · refine (ih _ _ _ fun hinside => ha ?_).trans hfirst
      obtain ⟨hge, hlt⟩ := hinside
      rw [encodeAt_eq, encodeVarint32_take] at hge hlt hzero
      dsimp only at hge hlt hzero
      split_ifs at hge hlt hzero with hfits
      · exact ⟨by omega, by omega⟩
      · exact absurd rfl hzero

theorem filled_encodeAll (values : List ℤ) (buffer size : ℕ) (m : Memory) :
    ∃ left, Filled buffer size (encodeAll values buffer size m) left := by
  induction values generalizing buffer size m with
  | nil => exact ⟨m.load buffer size, rfl, fun _ h => (nomatch h), fun h => (nomatch h)⟩
  | cons value values ih =>
    set n := toUInt32 value with hn
    by_cases hfits : (varint n).length ≤ size
    · have hcall : encodeAt m buffer size value = ⟨m.store buffer (varint n), (varint n).length,
          List.range' buffer (varint n).length⟩ := by
        rw [encodeAt_eq, encodeVarint32_take, ← hn, List.take_of_length_le hfits, if_pos hfits]
      obtain ⟨left, hfilled⟩ := ih (buffer + (varint n).length) (size - (varint n).length)
        (m.store buffer (varint n))
      have hpos : ¬ (varint n).length = 0 := (length_varint_pos n).ne'
      unfold encodeAll
      simp only [hcall, if_neg hpos]
      refine ⟨left, ?_, ?_, hfilled.left⟩
      · have hfirst : (encodeAll values (buffer + (varint n).length) (size - (varint n).length)
            (m.store buffer (varint n))).memory.load buffer (varint n).length = varint n := by
          refine (Memory.load_congr fun i hi => ?_).trans (m.load_store_same buffer (varint n))
          exact memory_encodeAll _ _ _ _ fun hinside => by
            have hge := hinside.1
            omega
        have hsplit := Memory.load_add (encodeAll values (buffer + (varint n).length)
          (size - (varint n).length) (m.store buffer (varint n))).memory buffer (varint n).length
          (size - (varint n).length)
        rw [Nat.add_sub_cancel' hfits, hfirst, hfilled.load] at hsplit
        rw [hsplit]
        exact (List.append_assoc ..).symm
      · intro result hresult
        rcases List.mem_cons.mp hresult with rfl | hrest
        · rfl
        · exact hfilled.lengths result hrest
    · have hcall : encodeAt m buffer size value = ⟨m.store buffer ((varint n).take size), 0,
          List.range' buffer ((varint n).take size).length⟩ := by
        rw [encodeAt_eq, encodeVarint32_take, ← hn, if_neg hfits]
      have hlength : ((varint n).take size).length = size := by
        rw [List.length_take]
        omega
      have hload := m.load_store_same buffer ((varint n).take size)
      rw [hlength] at hload
      unfold encodeAll
      simp only [hcall, if_true]
      exact ⟨(varint n).take size, hload, fun _ h => (nomatch h),
        fun _ => marked_of_mem_take (Nat.not_le.mp hfits)⟩

theorem results_encodeAll (values : List ℤ) (buffer size : ℕ) (m : Memory) :
    (encodeAll values buffer size m).results.map Prod.snd <+: values ∧
      ((encodeAll values buffer size m).failed = false ↔
        (encodeAll values buffer size m).results.length = values.length) := by
  induction values generalizing buffer size m with
  | nil => exact ⟨List.prefix_rfl, by simp [encodeAll]⟩
  | cons value values ih =>
    unfold encodeAll
    simp only
    split_ifs with hzero
    · exact ⟨List.nil_prefix, by simp⟩
    · obtain ⟨hfirst, hall⟩ := ih (buffer + (encodeAt m buffer size value).returned)
        (size - (encodeAt m buffer size value).returned) (encodeAt m buffer size value).memory
      exact ⟨(List.prefix_cons_inj value).mpr hfirst, hall.trans Nat.succ_inj.symm⟩

theorem toUInt32_lt (value : ℤ) : toUInt32 value < 2 ^ 32 := by
  unfold toUInt32
  omega

theorem toInt32_toUInt32 {value : ℤ} (h : -2 ^ 31 ≤ value ∧ value < 2 ^ 31) :
    toInt32 (toUInt32 value) = value := by
  unfold toInt32 toUInt32
  split_ifs <;> omega

/-- The values at the begin of a buffer are decoded, each from its own bytes, and what is behind
them stays for the calls that follow. -/
theorem decodeAll_of_bytes (m : Memory) {buffer size : ℕ} {results : List (ℕ × ℤ)}
    {left : List UInt8} (hload : m.load buffer size = bytesOf results ++ left)
    (hlengths : ∀ result ∈ results, result.1 = (varint (toUInt32 result.2)).length)
    (hvalues : ∀ result ∈ results, -2 ^ 31 ≤ result.2 ∧ result.2 < 2 ^ 31) (calls : ℕ) :
    ∃ buffer' size', m.load buffer' size' = left ∧
      decodeAll m (results.length + calls) buffer size =
        results.map (fun result => (result.1, some result.2)) ++
          decodeAll m calls buffer' size' := by
  induction results generalizing buffer size with
  | nil =>
    rw [List.length_nil, Nat.zero_add]
    exact ⟨buffer, size, hload, rfl⟩
  | cons result results ih =>
    have hvalue := toInt32_toUInt32 (hvalues result List.mem_cons_self)
    have hlength := hlengths result List.mem_cons_self
    rw [bytesOf, List.flatMap_cons, List.append_assoc] at hload
    have hrest := m.load_of_append hload
    have hdecode := decodeVarint32_varint (bytesOf results ++ left) (toUInt32_lt result.2)
    obtain ⟨hreturned, hset, -⟩ := decodeAt_eq m buffer size
    rw [hload, ← bytesOf, hdecode] at hreturned hset
    obtain ⟨buffer', size', hleft, hall⟩ := ih hrest
      (fun r hr => hlengths r (List.mem_cons_of_mem result hr))
      (fun r hr => hvalues r (List.mem_cons_of_mem result hr))
    refine ⟨buffer', size', hleft, ?_⟩
    have hcount : (result :: results).length + calls = results.length + calls + 1 := by
      rw [List.length_cons]
      omega
    rw [hcount, decodeAll]
    simp only [hreturned, hset, hall, hvalue, List.map_cons, List.cons_append, hlength]

/-- What could be encoded into a buffer is decoded from it, and no call leaves its buffer. -/
theorem varint_roundTrip {values : List ℤ}
    (hvalues : ∀ value ∈ values, -2 ^ 31 ≤ value ∧ value < 2 ^ 31) (buffer size : ℕ) (m : Memory) :
    let calls := encodeAll values buffer size m
    let decoded := calls.results.map fun result => (result.1, some result.2)
    calls.results.map Prod.snd <+: values ∧
    (calls.failed = false ↔ calls.results.length = values.length) ∧
    decodeAll calls.memory calls.results.length buffer size = decoded ∧
    (calls.failed = true →
      decodeAll calls.memory (calls.results.length + 1) buffer size = decoded ++ [(0, none)]) ∧
    ∀ (m : Memory) (buffer size : ℕ),
      (∀ value, (∀ a ∈ (encodeAt m buffer size value).touched, Inside buffer size a) ∧
        ∀ a, ¬ Inside buffer size a → (encodeAt m buffer size value).memory a = m a) ∧
      ∀ a ∈ (decodeAt m buffer size).touched, Inside buffer size a := by
  obtain ⟨hfirst, hall⟩ := results_encodeAll values buffer size m
  obtain ⟨left, hfilled⟩ := filled_encodeAll values buffer size m
  have hresults : ∀ result ∈ (encodeAll values buffer size m).results,
      -2 ^ 31 ≤ result.2 ∧ result.2 < 2 ^ 31 := fun result hresult =>
    hvalues result.2 (hfirst.subset (List.mem_map_of_mem hresult))
  refine ⟨hfirst, hall, ?_, fun hfailed => ?_, fun m buffer size => ⟨fun value =>
    ⟨touched_encodeAt m buffer size value, fun a => memory_encodeAt m buffer size value⟩,
    (decodeAt_eq m buffer size).2.2⟩⟩
  · obtain ⟨_, _, -, hdecoded⟩ := decodeAll_of_bytes _ hfilled.load hfilled.lengths hresults 0
    exact hdecoded.trans (List.append_nil _)
  · obtain ⟨buffer', size', hleft, hdecoded⟩ :=
      decodeAll_of_bytes _ hfilled.load hfilled.lengths hresults 1
    obtain ⟨hreturned, hset, -⟩ := decodeAt_eq (encodeAll values buffer size m).memory buffer' size'
    rw [hleft, decodeVarint32_of_marked (hfilled.left hfailed)] at hreturned hset
    rw [hdecoded, decodeAll]
    simp only [hreturned, hset, decodeAll]

/-- A negative number takes five bytes, and the next one does not fit into the byte that is left. -/
theorem varint_roundTrip_negative :
    let calls := encodeAll [-1, 300] 0 6 0
    calls.results = [(5, -1)] ∧ calls.failed = true ∧
      decodeAll calls.memory 2 0 6 = [(5, some (-1)), (0, none)] := by
  have hresults : (encodeAll [-1, 300] 0 6 0).results = [(5, -1)] := by decide
  have hfailed : (encodeAll [-1, 300] 0 6 0).failed = true := by decide
  have hvalues : ∀ value ∈ ([-1, 300] : List ℤ), -2 ^ 31 ≤ value ∧ value < 2 ^ 31 := by decide
  obtain ⟨-, -, -, hdecode, -⟩ := varint_roundTrip hvalues 0 6 0
  have hdecoded := hdecode hfailed
  rw [hresults] at hdecoded
  exact ⟨hresults, hfailed, hdecoded⟩

end Octf.Storage.ProtoConverter
