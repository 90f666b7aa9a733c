import Octf.Foundation.ByteMemory
import Octf.Foundation.Run

/-! Packets over a stream connection: a header with a signature and the size of the data, then
the data. The transport decides how many bytes each call moves. -/
namespace Octf.Socket
open Foundation

/-- `MAX_PACKET_SIZE` -/
def maxPacketSize : ℕ := 32 * 1024 * 1024

def headerSize : ℕ := 5

def headerSignature : UInt8 := 0x7F

/-- How many bytes the calls may move, by the number of the call: zero on a closed connection,
none on an error. -/
abbrev Transport := ℕ → Option ℕ

/-! ### Connection -/

/-- One end of a connection, with the bytes between the two ends. -/
structure Connection where
  active : Bool
  wire : List UInt8
  /-- The calls of the transport so far. -/
  calls : ℕ

namespace Connection

def close (c : Connection) : Connection := { c with active := false }

/-- The loop of `send`, which moves a byte at least in every turn. -/
def sendLoop (t : Transport) : ℕ → List UInt8 → Connection → Bool × Connection
  | _, [], c => (true, c)
  | 0, _ :: _, c => (false, c)
  | turns + 1, b :: data, c =>
    let length := min maxPacketSize (data.length + 1)
    match t c.calls with
    | none => (false, c.close)
    | some 0 => (false, c.close)
    | some (k + 1) =>
      let result := min (k + 1) length
      sendLoop t turns ((b :: data).drop result)
        { c with wire := c.wire ++ (b :: data).take result, calls := c.calls + 1 }

def send (t : Transport) (data : List UInt8) (c : Connection) : Bool × Connection :=
  if c.active then sendLoop t data.length data c else (false, c)

/-- What is there of `size` bytes; none on an error, and at the end of the stream, which closes
the connection. -/
def receive (t : Transport) (size : ℕ) (c : Connection) : Option (List UInt8) × Connection :=
  if !c.active || maxPacketSize < size then (none, c)
  else match t c.calls with
    | none => (none, { c with calls := c.calls + 1 })
    | some k =>
      let data := c.wire.take (min k size)
      let c := { c with wire := c.wire.drop (min k size), calls := c.calls + 1 }
      if data = [] then (none, c.close) else (some data, c)

end Connection

/-! ### Packetizer -/

structure Packetizer where
  conn : Connection
  error : Bool
  expectedDataSize : ℕ

def createHeader (dataSize : ℕ) : List UInt8 :=
  headerSignature :: toLittleEndian 4 (dataSize % 2 ^ 32)

namespace Packetizer

def sendPacket (t : Transport) (packetData : List UInt8) (p : Packetizer) : Bool × Packetizer :=
  let header := p.conn.send t (createHeader packetData.length)
  if !header.1 then (false, { p with conn := header.2, error := true })
  else
    let data := header.2.send t packetData
    if !data.1 then (false, { p with conn := data.2, error := true })
    else (true, { p with conn := data.2 })

/-- The data size of a header, unless the header is cut short, unsigned or too large. -/
def processHeader (header : List UInt8) : Option ℕ :=
  if header.headD 0 ≠ headerSignature then none
  else if header.length < headerSize then none
  else
    let size := littleEndian ((header.drop 1).take 4)
    if maxPacketSize < size then none else some size

/-- `data.replace(pos, chunk.size(), chunk)` -/
def replaceAt (pos : ℕ) (chunk data : List UInt8) : List UInt8 :=
  data.take pos ++ chunk ++ data.drop (pos + chunk.length)

/-- The loop over the data, which receives a byte at least in every turn. -/
def receiveLoop (t : Transport) :
    ℕ → ℕ → List UInt8 → Packetizer → Bool × List UInt8 × Packetizer
  | 0, receivedBytes, data, p => (decide (p.expectedDataSize ≤ receivedBytes), data, p)
  | turns + 1, receivedBytes, data, p =>
    if p.expectedDataSize ≤ receivedBytes then (true, data, p)
    else
      match p.conn.receive t (p.expectedDataSize - receivedBytes) with
      | (none, conn) => (false, data, { p with conn := conn, error := true })
      | (some received, conn) =>
        receiveLoop t turns (receivedBytes + received.length)
          (replaceAt receivedBytes received data) { p with conn := conn }

def receivePacket (t : Transport) (data : List UInt8) (p : Packetizer) :
    Bool × List UInt8 × Packetizer :=
  if p.error then (false, data, { p with expectedDataSize := 0 })
  else match p.conn.receive t headerSize with
    | (none, conn) => (false, data, ⟨conn, true, 0⟩)
    | (some header, conn) =>
      match processHeader header with
      | none => (false, data, ⟨conn, true, 0⟩)
      | some size =>
        -- `data.resize(m_expectedDataSize)`
        receiveLoop t size 0 (data.take size ++ List.replicate (size - data.length) 0)
          ⟨conn, false, size⟩

end Packetizer

/-! ### The two ends -/

/-- Packets sent one after another; whether all were. -/
def sendPackets (t : Transport) : List (List UInt8) → Packetizer → Bool × Packetizer
  | [], p => (true, p)
  | data :: packets, p =>
    let sent := p.sendPacket t data
    let rest := sendPackets t packets sent.2
    (sent.1 && rest.1, rest.2)

/-- The receive thread: its packetizer, the buffer it reuses, and what it gave away. -/
structure Receiver where
  packetizer : Packetizer
  data : List UInt8
  delivered : List (List UInt8)

/-- One turn of the loop of the receive thread. -/
def Receiver.turn (t : Transport) (r : Receiver) : Receiver :=
  if r.packetizer.conn.active then
    match r.packetizer.receivePacket t r.data with
    | (true, data, p) => ⟨p, data, r.delivered ++ [data]⟩
    | (false, data, p) => { r with packetizer := { p with conn := p.conn.close }, data := data }
  else r

/-- An end of a new connection, with bytes that wait on it. -/
def Packetizer.init (wire : List UInt8) : Packetizer := ⟨⟨true, wire, 0⟩, false, 0⟩

end Octf.Socket
