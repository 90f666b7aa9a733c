import Octf.Socket.Packetizer

/-! What one end sends as packets the other end receives as the same packets, however the
transport cuts the data, as long as it does not cut the headers. -/
namespace Octf.Socket
open Foundation

/-- The transport moves a byte at least with every call. -/
def Splits (t : Transport) : Prop := ∀ i, ∃ k, t i = some (k + 1)

/-- A packet on the wire. -/
def frame (data : List UInt8) : List UInt8 := createHeader data.length ++ data

@[simp] theorem length_createHeader (n : ℕ) : (createHeader n).length = headerSize := by
  simp [createHeader, headerSize]

variable {t u : Transport}

/-! ### Sending -/

theorem sendLoop_spec (ht : Splits t) {turns : ℕ} {data wire : List UInt8} {calls : ℕ}
    (hturns : data.length ≤ turns) :
    ∃ calls', Connection.sendLoop t turns data ⟨true, wire, calls⟩ =
      (true, ⟨true, wire ++ data, calls'⟩) := by
  induction turns generalizing data wire calls with
  | zero =>
    obtain rfl := List.length_eq_zero_iff.mp (Nat.le_zero.mp hturns)
    exact ⟨calls, by simp [Connection.sendLoop]⟩
  | succ turns ih =>
    cases data with
    | nil => exact ⟨calls, by simp [Connection.sendLoop]⟩
    | cons b data =>
      obtain ⟨k, hk⟩ := ht calls
      generalize hmoved : min (k + 1) (min maxPacketSize (data.length + 1)) = moved
      have hpos : 0 < moved := by
        have : 0 < maxPacketSize := by decide
        omega
      have hrest : ((b :: data).drop moved).length ≤ turns := by
        rw [List.length_drop]
        rw [List.length_cons] at hturns ⊢
        omega
      obtain ⟨calls', hsent⟩ : ∃ calls', Connection.sendLoop t turns ((b :: data).drop moved)
          ⟨true, wire ++ (b :: data).take moved, calls + 1⟩ = (true, ⟨true,
            wire ++ (b :: data).take moved ++ (b :: data).drop moved, calls'⟩) := ih hrest
      refine ⟨calls', ?_⟩
      simp only [Connection.sendLoop, hk, hmoved]
      rw [hsent, List.append_assoc, List.take_append_drop]

theorem send_spec (ht : Splits t) (data wire : List UInt8) (calls : ℕ) :
    ∃ calls', Connection.send t data ⟨true, wire, calls⟩ =
      (true, ⟨true, wire ++ data, calls'⟩) := by
  rw [Connection.send, if_pos rfl]
  exact sendLoop_spec ht le_rfl

theorem sendPacket_spec (ht : Splits t) (data wire : List UInt8) (calls size : ℕ) :
    ∃ calls', Packetizer.sendPacket t data ⟨⟨true, wire, calls⟩, false, size⟩ =
      (true, ⟨⟨true, wire ++ frame data, calls'⟩, false, size⟩) := by
  obtain ⟨calls₁, hheader⟩ := send_spec ht (createHeader data.length) wire calls
  obtain ⟨calls₂, hdata⟩ := send_spec ht data (wire ++ createHeader data.length) calls₁
  refine ⟨calls₂, ?_⟩
  simp only [Packetizer.sendPacket, hheader, hdata, Bool.not_true, Bool.false_eq_true, if_false,
    frame, List.append_assoc]

theorem sendPackets_spec (ht : Splits t) (packets : List (List UInt8)) (wire : List UInt8)
    (calls size : ℕ) :
    ∃ calls', sendPackets t packets ⟨⟨true, wire, calls⟩, false, size⟩ =
      (true, ⟨⟨true, wire ++ packets.flatMap frame, calls'⟩, false, size⟩) := by
  induction packets generalizing wire calls with
  | nil => exact ⟨calls, by simp [sendPackets]⟩
  | cons data packets ih =>
    obtain ⟨calls₁, hsent⟩ := sendPacket_spec ht data wire calls size
    obtain ⟨calls₂, hrest⟩ := ih (wire ++ frame data) calls₁
    refine ⟨calls₂, ?_⟩
    simp only [sendPackets, hsent, hrest, Bool.true_and, List.flatMap_cons, List.append_assoc]

/-! ### Receiving -/

theorem receive_spec (wire : List UInt8) {calls k : ℕ} (size : ℕ) (hpos : 0 < size)
    (hsize : size ≤ maxPacketSize) (hwire : wire ≠ []) (hk : u calls = some (k + 1)) :
    Connection.receive u size ⟨true, wire, calls⟩ = (some (wire.take (min (k + 1) size)),
      ⟨true, wire.drop (min (k + 1) size), calls + 1⟩) := by
  have htaken : wire.take (min (k + 1) size) ≠ [] := by
    rw [Ne, List.take_eq_nil_iff]
    rintro (hzero | hnil)
    · omega
    · exact hwire hnil
  simp only [Connection.receive, Bool.not_true, Bool.false_or, decide_eq_true_eq,
    if_neg (not_lt.mpr hsize), hk, if_neg htaken]

theorem length_replaceAt {pos : ℕ} {chunk data : List UInt8}
    (h : pos + chunk.length ≤ data.length) :
    (Packetizer.replaceAt pos chunk data).length = data.length := by
  simp only [Packetizer.replaceAt, List.length_append, List.length_take, List.length_drop]
  omega

theorem take_replaceAt {pos : ℕ} (chunk : List UInt8) {data : List UInt8} (h : pos ≤ data.length) :
    (Packetizer.replaceAt pos chunk data).take (pos + chunk.length) = data.take pos ++ chunk := by
  have hlength : pos + chunk.length = (data.take pos ++ chunk).length := by
    rw [List.length_append, List.length_take, Nat.min_eq_left h]
  rw [Packetizer.replaceAt, hlength, List.take_left]

/-- The loop takes what is missing of the data from the wire, whatever the pieces. -/
theorem receiveLoop_spec (hu : Splits u) {turns receivedBytes size calls : ℕ}
    {data rest tail : List UInt8} (hsize : size ≤ maxPacketSize)
    (hrest : receivedBytes + rest.length = size) (hdata : data.length = size)
    (hturns : rest.length ≤ turns) : ∃ calls',
    Packetizer.receiveLoop u turns receivedBytes data ⟨⟨true, rest ++ tail, calls⟩, false, size⟩ =
      (true, data.take receivedBytes ++ rest, ⟨⟨true, tail, calls'⟩, false, size⟩) := by
  have hdone : ∀ {receivedBytes : ℕ} {data : List UInt8}, size ≤ receivedBytes →
      data.length = size → data.take receivedBytes ++ [] = data := fun hle hdata => by
    rw [List.append_nil, List.take_of_length_le (hdata.le.trans hle)]
  induction turns generalizing receivedBytes data rest calls with
  | zero =>
    obtain rfl := List.length_eq_zero_iff.mp (Nat.le_zero.mp hturns)
    have hle : size ≤ receivedBytes := hrest.ge
    refine ⟨calls, ?_⟩
    simp only [Packetizer.receiveLoop, hle, decide_true, List.nil_append, hdone hle hdata]
  | succ turns ih =>
    cases rest with
    | nil =>
      have hle : size ≤ receivedBytes := hrest.ge
      refine ⟨calls, ?_⟩
      simp only [Packetizer.receiveLoop, hle, if_true, List.nil_append, hdone hle hdata]
    | cons b rest =>
      obtain ⟨k, hk⟩ := hu calls
      rw [List.length_cons] at hrest hturns
      have hmissing : size - receivedBytes = rest.length + 1 := by omega
      have hreceive := receive_spec (b :: rest ++ tail) (size - receivedBytes)
        (by omega) (by omega) (List.cons_ne_nil _ _) hk
      generalize hmoved : min (k + 1) (size - receivedBytes) = moved at hreceive
      have hle : moved ≤ (b :: rest).length := by
        rw [List.length_cons]
        omega
      rw [List.take_append_of_le_length hle, List.drop_append_of_le_length hle] at hreceive
      have hlength : ((b :: rest).take moved).length = moved := by
        rw [List.length_take, Nat.min_eq_left hle]
      rw [List.length_cons] at hle
      have hdata' : (Packetizer.replaceAt receivedBytes ((b :: rest).take moved) data).length =
          size := by
        rw [length_replaceAt (by omega), hdata]
      have hrest' : receivedBytes + moved + ((b :: rest).drop moved).length = size := by
        rw [List.length_drop, List.length_cons]
        omega
      have hturns' : ((b :: rest).drop moved).length ≤ turns := by
        rw [List.length_drop, List.length_cons]
        omega
      obtain ⟨calls', hloop⟩ : ∃ calls', Packetizer.receiveLoop u turns (receivedBytes + moved)
          (Packetizer.replaceAt receivedBytes ((b :: rest).take moved) data)
          ⟨⟨true, (b :: rest).drop moved ++ tail, calls + 1⟩, false, size⟩ = _ :=
        ih hrest' hdata' hturns'
      refine ⟨calls', ?_⟩
      have htake := take_replaceAt ((b :: rest).take moved)
        (show receivedBytes ≤ data.length by omega)
      rw [hlength] at htake
      simp only [Packetizer.receiveLoop, if_neg (show ¬ size ≤ receivedBytes by omega), hreceive,
        hlength, hloop]
      rw [htake, List.append_assoc, List.take_append_drop]

/-! ### Headers -/

theorem processHeader_createHeader {n : ℕ} (h : n ≤ maxPacketSize) :
    Packetizer.processHeader (createHeader n) = some n := by
  have hsmall : n < 256 ^ 4 := h.trans_lt (by decide)
  have hmod : n % 2 ^ 32 = n := Nat.mod_eq_of_lt (by norm_num at hsmall ⊢; exact hsmall)
  have hsize : littleEndian (((createHeader n).drop 1).take 4) = n := by
    rw [createHeader, hmod, List.drop_one, List.tail_cons, List.take_of_length_le (by simp),
      littleEndian_toLittleEndian 4 n hsmall]
  simp only [Packetizer.processHeader, hsize, length_createHeader, lt_irrefl, if_false,
    if_neg (not_lt.mpr h)]
  rfl

theorem processHeader_short {header : List UInt8} (h : header.length < headerSize) :
    Packetizer.processHeader header = none := by
  unfold Packetizer.processHeader
  split_ifs <;> rfl

/-! ### The receive thread -/

/-- The first call of the next packet may move a whole header. -/
def WholeHeader (u : Transport) (r : Receiver) : Prop :=
  ∀ k ∈ u r.packetizer.conn.calls, headerSize ≤ k

/-- A whole header brings the packet behind it. -/
theorem receivePacket_whole (hu : Splits u) {packet : List UInt8} (tail data : List UInt8)
    {calls : ℕ} (size : ℕ) (hpacket : packet.length ≤ maxPacketSize)
    (hwhole : ∀ k ∈ u calls, headerSize ≤ k) : ∃ calls',
    Packetizer.receivePacket u data ⟨⟨true, frame packet ++ tail, calls⟩, false, size⟩ =
      (true, packet, ⟨⟨true, tail, calls'⟩, false, packet.length⟩) := by
  obtain ⟨k, hk⟩ := hu calls
  have hle : headerSize ≤ k + 1 := hwhole _ hk
  have hwire : frame packet ++ tail = createHeader packet.length ++ (packet ++ tail) := by
    rw [frame, List.append_assoc]
  have hheader : Connection.receive u headerSize ⟨true, frame packet ++ tail, calls⟩ =
      (some (createHeader packet.length), ⟨true, packet ++ tail, calls + 1⟩) := by
    rw [hwire, receive_spec _ headerSize (by decide) (by decide) (by simp [createHeader]) hk,
      Nat.min_eq_right hle, List.take_left' (length_createHeader _),
      List.drop_left' (length_createHeader _)]
  have hbuffer : (data.take packet.length ++
      List.replicate (packet.length - data.length) 0).length = packet.length := by
    simp only [List.length_append, List.length_take, List.length_replicate]
    omega
  obtain ⟨calls', hloop⟩ : ∃ calls', Packetizer.receiveLoop u packet.length 0
      (data.take packet.length ++ List.replicate (packet.length - data.length) 0)
      ⟨⟨true, packet ++ tail, calls + 1⟩, false, packet.length⟩ = _ :=
    receiveLoop_spec hu hpacket (Nat.zero_add _) hbuffer le_rfl
  refine ⟨calls', ?_⟩
  simp only [Packetizer.receivePacket, Bool.false_eq_true, if_false, hheader,
    processHeader_createHeader hpacket, hloop, List.take_zero, List.nil_append]

theorem turn_whole (hu : Splits u) {packet : List UInt8} (tail data : List UInt8) {calls : ℕ}
    (size : ℕ) (delivered : List (List UInt8)) (hpacket : packet.length ≤ maxPacketSize)
    (hwhole : ∀ k ∈ u calls, headerSize ≤ k) : ∃ calls',
    Receiver.turn u ⟨⟨⟨true, frame packet ++ tail, calls⟩, false, size⟩, data, delivered⟩ =
      ⟨⟨⟨true, tail, calls'⟩, false, packet.length⟩, packet, delivered ++ [packet]⟩ := by
  obtain ⟨calls', hreceived⟩ := receivePacket_whole hu tail data size hpacket hwhole
  exact ⟨calls', by simp only [Receiver.turn, if_true, hreceived]⟩

/-- A header that is cut ends the connection with an error. -/
theorem turn_cut (hu : Splits u) {wire : List UInt8} (data : List UInt8) {calls : ℕ} (size : ℕ)
    (delivered : List (List UInt8)) (hwire : wire ≠ [])
    (hcut : ¬ ∀ k ∈ u calls, headerSize ≤ k) : ∃ p data',
    Receiver.turn u ⟨⟨⟨true, wire, calls⟩, false, size⟩, data, delivered⟩ =
      ⟨p, data', delivered⟩ ∧ p.conn.active = false ∧ p.error = true := by
  obtain ⟨k, hk⟩ := hu calls
  have hlt : k + 1 < headerSize := by
    by_contra hge
    refine hcut fun k' hk' => ?_
    rw [hk, Option.mem_some_iff] at hk'
    omega
  have hheader := receive_spec (u := u) wire headerSize (by decide) (by decide) hwire hk
  have hshort : Packetizer.processHeader (wire.take (min (k + 1) headerSize)) = none := by
    refine processHeader_short ?_
    rw [List.length_take]
    omega
  simp only [Receiver.turn, if_true, Packetizer.receivePacket, Bool.false_eq_true, if_false,
    hheader, hshort]
  exact ⟨_, _, rfl, rfl, rfl⟩

/-- Nothing is delivered on a closed connection. -/
theorem run_closed {r : Receiver} (hclosed : r.packetizer.conn.active = false) (turns : List Unit) :
    run (fun _ => Receiver.turn u) turns r = r := by
  induction turns with
  | nil => rfl
  | cons turn turns ih =>
    rw [run_cons, Receiver.turn, if_neg (by simp [hclosed]), ih]

/-- Turn by turn, the packets are delivered exactly when their headers are whole. -/
theorem delivered_iff (hu : Splits u) {packets : List (List UInt8)}
    (hpackets : ∀ packet ∈ packets, packet.length ≤ maxPacketSize) (calls size : ℕ)
    (data : List UInt8) (delivered : List (List UInt8)) :
    ((run (fun _ => Receiver.turn u) (List.replicate packets.length ())
        ⟨⟨⟨true, packets.flatMap frame, calls⟩, false, size⟩, data, delivered⟩).delivered =
          delivered ++ packets ∧
      (run (fun _ => Receiver.turn u) (List.replicate packets.length ())
        ⟨⟨⟨true, packets.flatMap frame, calls⟩, false, size⟩, data, delivered⟩).packetizer.error =
          false) ↔
    Meets (fun _ => Receiver.turn u) (fun _ => WholeHeader u) (List.replicate packets.length ())
      ⟨⟨⟨true, packets.flatMap frame, calls⟩, false, size⟩, data, delivered⟩ := by
  induction packets generalizing calls size data delivered with
  | nil => simp [Meets]
  | cons packet packets ih =>
    simp only [List.length_cons, List.replicate_succ, List.flatMap_cons, run_cons, Meets]
    by_cases hwhole : ∀ k ∈ u calls, headerSize ≤ k
    · obtain ⟨calls', hturn⟩ := turn_whole hu (packets.flatMap frame) data size delivered
        (hpackets packet List.mem_cons_self) hwhole
      rw [hturn]
      have hrest := ih (fun p hp => hpackets p (List.mem_cons_of_mem _ hp)) calls' packet.length
        packet (delivered ++ [packet])
      rw [List.append_assoc, List.singleton_append] at hrest
      rw [hrest]
      exact ⟨fun h => ⟨hwhole, h⟩, fun h => h.2⟩
    · have hwire : frame packet ++ packets.flatMap frame ≠ [] := by simp [frame, createHeader]
      obtain ⟨p, data', hturn, hclosed, herror⟩ := turn_cut hu data size delivered hwire hwhole
      rw [hturn, run_closed hclosed]
      exact ⟨fun h => (by rw [herror] at h; cases h.2), fun h => absurd h.1 hwhole⟩

/-! ### Round trip -/

/-- The packets sent at one end are those delivered at the other, and neither end has an error. -/
def RoundTrip (t u : Transport) (packets : List (List UInt8)) : Prop :=
  let sent := sendPackets t packets (.init [])
  let received := run (fun _ => Receiver.turn u) (List.replicate packets.length ())
    ⟨.init sent.2.conn.wire, [], []⟩
  (sent.1 = true ∧ sent.2.error = false) ∧
    received.delivered = packets ∧ received.packetizer.error = false

/-- The stream comes back as the packets it was made of exactly when the transport cuts no
header. -/
theorem roundTrip_iff (ht : Splits t) (hu : Splits u) (packets : List (List UInt8))
    (hpackets : ∀ packet ∈ packets, packet.length ≤ maxPacketSize) :
    RoundTrip t u packets ↔ Meets (fun _ => Receiver.turn u) (fun _ => WholeHeader u)
      (List.replicate packets.length ()) ⟨.init (packets.flatMap frame), [], []⟩ := by
  obtain ⟨calls, hsent⟩ := sendPackets_spec ht packets [] 0 0
  have hdelivered := delivered_iff hu hpackets 0 0 [] []
  rw [List.nil_append] at hsent hdelivered
  unfold RoundTrip
  simp only [Packetizer.init, hsent, and_self, true_and]
  exact hdelivered

theorem roundTrip_iff_small :
    RoundTrip (fun _ => some 1) (fun _ => some 5) [[1, 2, 3, 4, 5, 6], []] := by
  refine (roundTrip_iff (fun _ => ⟨0, rfl⟩) (fun _ => ⟨4, rfl⟩) _ ?_).mpr ?_
  · intro packet hpacket
    simp only [List.mem_cons, List.not_mem_nil, or_false] at hpacket
    rcases hpacket with rfl | rfl <;> decide
  · refine ⟨?_, ?_, trivial⟩
    all_goals
      intro k hk
      cases hk
      decide

/-- Three bytes at first, which cuts the header, then all there is. -/
def cutHeader : Transport := fun i => if i = 0 then some 3 else some 100

theorem not_roundTrip_cutHeader : ¬ RoundTrip (fun _ => some 100) cutHeader [[1]] := by
  rintro ⟨-, hdelivered, -⟩
  revert hdelivered
  decide

end Octf.Socket
