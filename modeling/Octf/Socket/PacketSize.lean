import Octf.Socket.PacketStream

/-! The sizes of packets. The receiver rejects a packet above the limit, and the sender does not
look at the limit, nor at the width of the size in the header. -/
namespace Octf.Socket
open Foundation

variable {t u : Transport}

/-- Every call moves as much as it is asked to. -/
def Unsplit (u : Transport) : Prop := ∀ i, ∃ k, u i = some k ∧ maxPacketSize ≤ k

theorem Unsplit.splits (h : Unsplit u) : Splits u := by
  intro i
  obtain ⟨k, hk, hle⟩ := h i
  have hpos : 0 < maxPacketSize := by decide
  exact ⟨k - 1, by rw [hk, Nat.sub_add_cancel (by omega)]⟩

theorem Unsplit.whole (h : Unsplit u) (i : ℕ) : ∀ k ∈ u i, headerSize ≤ k := by
  intro k hk
  obtain ⟨k', hk', hle⟩ := h i
  obtain rfl : k' = k := Option.some.inj (hk'.symm.trans hk)
  exact (show headerSize ≤ maxPacketSize by decide).trans hle

/-- The bytes that a call of the sender has put on the stream. -/
def sentBytes (t : Transport) (packetData : List UInt8) (p : Packetizer) : List UInt8 :=
  (p.sendPacket t packetData).2.conn.wire.drop p.conn.wire.length

/-- A packet that is sent is delivered, and one above the limit of the receiver leaves the stream
as it is and is not sent. -/
structure SentMeansReceivable (t : Transport) (packetData : List UInt8) (p : Packetizer) :
    Prop where
  delivered : (p.sendPacket t packetData).1 = true → ∀ u data calls size, Unsplit u → ∃ received,
    Packetizer.receivePacket u data ⟨⟨true, sentBytes t packetData p, calls⟩, false, size⟩ =
      (true, packetData, received)
  refused : maxPacketSize < packetData.length → (p.sendPacket t packetData).1 = false ∧
    (p.sendPacket t packetData).2.conn.wire = p.conn.wire

/-! ### Sending over a transport that can fail -/

variable {data packetData : List UInt8} {c : Connection} {p : Packetizer}

/-- The loop adds to the stream, and all of the data if it says so. -/
theorem sendLoop_wire (t : Transport) (turns : ℕ) (data : List UInt8) (c : Connection) :
    ∃ moved, (Connection.sendLoop t turns data c).2.wire = c.wire ++ moved ∧
      ((Connection.sendLoop t turns data c).1 = true → moved = data) := by
  induction turns generalizing data c with
  | zero =>
    cases data with
    | nil => exact ⟨[], (List.append_nil _).symm, fun _ => rfl⟩
    | cons b data => exact ⟨[], (List.append_nil _).symm, fun h => absurd h Bool.false_ne_true⟩
  | succ turns ih =>
    cases data with
    | nil => exact ⟨[], (List.append_nil _).symm, fun _ => rfl⟩
    | cons b data =>
      unfold Connection.sendLoop
      rcases hcall : t c.calls with _ | _ | k
      · exact ⟨[], (List.append_nil _).symm, fun h => absurd h Bool.false_ne_true⟩
      · exact ⟨[], (List.append_nil _).symm, fun h => absurd h Bool.false_ne_true⟩
      · let result := min (k + 1) (min maxPacketSize (data.length + 1))
        obtain ⟨moved, hwire, hall⟩ := ih ((b :: data).drop result)
          { c with wire := c.wire ++ (b :: data).take result, calls := c.calls + 1 }
        refine ⟨(b :: data).take result ++ moved, ?_, fun hsent => ?_⟩
        · rw [← List.append_assoc]
          exact hwire
        · rw [hall hsent, List.take_append_drop]

theorem send_wire (t : Transport) (data : List UInt8) (c : Connection) :
    ∃ moved, (Connection.send t data c).2.wire = c.wire ++ moved ∧
      ((Connection.send t data c).1 = true → moved = data) := by
  unfold Connection.send
  split_ifs with hactive
  · exact sendLoop_wire t data.length data c
  · exact ⟨[], (List.append_nil _).symm, False.elim⟩

/-- The first call of the transport moves no byte. -/
def Stuck (t : Transport) (c : Connection) : Prop :=
  c.active = false ∨ t c.calls = none ∨ t c.calls = some 0

theorem send_of_stuck (h : Stuck t c) (hdata : data ≠ []) :
    (Connection.send t data c).1 = false ∧ (Connection.send t data c).2.wire = c.wire := by
  unfold Connection.send
  split_ifs with hactive
  · cases data with
    | nil => exact absurd rfl hdata
    | cons b data =>
      rw [List.length_cons, Connection.sendLoop]
      rcases h with hclosed | hnone | hzero
      · rw [hclosed] at hactive
        cases hactive
      · rw [hnone]
        exact ⟨rfl, rfl⟩
      · rw [hzero]
        exact ⟨rfl, rfl⟩
  · exact ⟨rfl, rfl⟩

/-- Otherwise some of the data is on the stream. -/
theorem send_of_not_stuck (h : ¬ Stuck t c) (hdata : data ≠ []) :
    c.wire.length < (Connection.send t data c).2.wire.length := by
  have hactive : c.active = true := by
    by_contra hclosed
    exact h (Or.inl (Bool.eq_false_iff.mpr hclosed))
  unfold Connection.send
  rw [if_pos hactive]
  cases data with
  | nil => exact absurd rfl hdata
  | cons b data =>
    rw [List.length_cons, Connection.sendLoop]
    rcases hcall : t c.calls with _ | _ | k
    · exact absurd (Or.inr (Or.inl hcall)) h
    · exact absurd (Or.inr (Or.inr hcall)) h
    · have hpos : 0 < min (k + 1) (min maxPacketSize (data.length + 1)) := by
        have hmax : 0 < maxPacketSize := by decide
        omega
      obtain ⟨moved, hwire, -⟩ := sendLoop_wire t data.length
        ((b :: data).drop (min (k + 1) (min maxPacketSize (data.length + 1)))) { c with
          wire := c.wire ++ (b :: data).take (min (k + 1) (min maxPacketSize (data.length + 1)))
          calls := c.calls + 1 }
      simp only [hwire, List.length_append, List.length_take, List.length_cons]
      omega

theorem sendPacket_of_stuck (h : Stuck t p.conn) (packetData : List UInt8) :
    (p.sendPacket t packetData).1 = false ∧
      (p.sendPacket t packetData).2.conn.wire = p.conn.wire := by
  obtain ⟨hsent, hwire⟩ := send_of_stuck h (show createHeader packetData.length ≠ [] from
    List.cons_ne_nil _ _)
  unfold Packetizer.sendPacket
  simp only [hsent]
  exact ⟨rfl, hwire⟩

theorem sendPacket_of_not_stuck (h : ¬ Stuck t p.conn) :
    (p.sendPacket t packetData).2.conn.wire ≠ p.conn.wire := by
  have hheader := send_of_not_stuck h (show createHeader packetData.length ≠ [] from
    List.cons_ne_nil _ _)
  obtain ⟨moved, hwire, -⟩ := send_wire t packetData
    (Connection.send t (createHeader packetData.length) p.conn).2
  have hlonger : p.conn.wire.length < (p.sendPacket t packetData).2.conn.wire.length := by
    unfold Packetizer.sendPacket
    simp only
    split_ifs
    · exact hheader
    all_goals
      rw [hwire, List.length_append]
      omega
  intro heq
  rw [heq] at hlonger
  exact lt_irrefl _ hlonger

/-- What is sent is the packet. -/
theorem sentBytes_of_sent (h : (p.sendPacket t packetData).1 = true) :
    sentBytes t packetData p = frame packetData := by
  obtain ⟨header, hheader, hwhole⟩ := send_wire t (createHeader packetData.length) p.conn
  obtain ⟨moved, hwire, hall⟩ := send_wire t packetData
    (Connection.send t (createHeader packetData.length) p.conn).2
  unfold sentBytes
  unfold Packetizer.sendPacket at h ⊢
  simp only at h ⊢
  split_ifs at h ⊢ with hfirst hsecond
  rw [Bool.not_eq_true', Bool.not_eq_false] at hfirst hsecond
  rw [hwire, hall hsecond, hheader, hwhole hfirst, List.append_assoc, List.drop_left]
  rfl

/-! ### Sent means receivable -/

/-- It is so for the packets up to the limit, and for those of which no byte can be sent. -/
theorem sentMeansReceivable_iff (t : Transport) (packetData : List UInt8) (p : Packetizer) :
    SentMeansReceivable t packetData p ↔
      packetData.length ≤ maxPacketSize ∨ Stuck t p.conn := by
  constructor
  · intro h
    by_contra hnot
    have hlarge : maxPacketSize < packetData.length := by
      by_contra hle
      exact hnot (Or.inl (not_lt.mp hle))
    exact sendPacket_of_not_stuck (fun hstuck => hnot (Or.inr hstuck)) (h.refused hlarge).2
  · rintro (hsize | hstuck)
    · refine ⟨fun hsent u data calls size hu => ?_, fun hlarge => absurd hsize (not_le.mpr hlarge)⟩
      obtain ⟨calls', hreceived⟩ := receivePacket_whole hu.splits [] data size hsize
        (hu.whole calls)
      rw [List.append_nil] at hreceived
      rw [sentBytes_of_sent hsent]
      exact ⟨_, hreceived⟩
    · obtain ⟨hsent, hwire⟩ := sendPacket_of_stuck hstuck packetData
      exact ⟨fun h => (by rw [hsent] at h; cases h), fun _ => ⟨hsent, hwire⟩⟩

/-- One byte more than the limit is sent. -/
theorem sendPacket_oversize : ∃ packetData : List UInt8, packetData.length = maxPacketSize + 1 ∧
    ((Packetizer.init []).sendPacket (fun _ => some 1) packetData).1 = true ∧
    ¬ SentMeansReceivable (fun _ => some 1) packetData (Packetizer.init []) := by
  let packetData : List UInt8 := List.replicate (maxPacketSize + 1) 0
  have hlength : packetData.length = maxPacketSize + 1 := List.length_replicate
  obtain ⟨calls, hsent⟩ := sendPacket_spec (t := fun _ => some 1) (fun _ => ⟨0, rfl⟩) packetData []
    0 0
  have htrue : ((Packetizer.init []).sendPacket (fun _ => some 1) packetData).1 = true :=
    congrArg Prod.fst hsent
  refine ⟨packetData, hlength, htrue, fun h => ?_⟩
  have hrefused := (h.refused (by omega)).1
  rw [htrue] at hrefused
  cases hrefused

end Octf.Socket
