import Ipbm.Dataplane.Pipeline

/-! The packet loop of the switch (`main.cpp`): a received frame is copied in
front of the metadata of a packet header vector, run through the pipeline and
sent on the interfaces its egress port names. -/

set_option autoImplicit false

namespace Ipbm.Dataplane
open Lib

/-- A frame longer than the packet array would be copied past it. -/
def loadPacket (frame : List UInt8) : Option (List UInt8) :=
  if frame.length ≤ frontHeaderLen + metaLen then
    some (frame.take frontHeaderLen ++ List.replicate
      (frontHeaderLen + metaLen - min frame.length frontHeaderLen) 0)
  else
    none

/-- The header a metadata entry is given. -/
def metaHeader (header : HeaderInfo) : HeaderInfo where
  hdrId := header.hdrId
  hdrLen := header.hdrLen * 8 % 2 ^ 16
  hdrOffset := (header.hdrOffset * 8 + frontHeaderLen * 8) % 2 ^ 16

def setMetaHeader (parsedHeaders : List HeaderInfo) (header : HeaderInfo) : Option (List HeaderInfo) :=
  setAt parsedHeaders header.hdrId (metaHeader header)

def initPhv (pipeline : Pipeline) (frame : List UInt8) (ifIndex : Nat) : Option Phv := do
  let packet ← loadPacket frame
  let parsedHeaders ← pipeline.metaInfos.foldlM setMetaHeader Phv.fresh.parsedHeaders
  modifyPhvWithData ⟨31, 0, 9, .field⟩ ⟨9, getUints ifIndex 9⟩ { Phv.fresh with packet, parsedHeaders }

/-- The bytes of a field from its last one down. The loop starts one byte behind the field, where
it shifts by -8; the machine takes that modulo the word size. -/
def getFieldValue (field : FieldInfo) (phv : Phv) : Option Nat := do
  let hi ← phv.parsedHeaders[field.hdrId]?
  let start := hi.hdrOffset + field.internalOffset
  let stop := start + field.fdLen
  let byteEnd := (stop + 7) / 8
  let bytes ← (List.range' (start / 8) (byteEnd + 1 - start / 8)).mapM fun index => do
    let byte ← phv.packet[index]?
    let shift := if index = byteEnd then 24 else (byteEnd - 1 - index) * 8
    shl32 byte.toNat shift
  let value := bytes.sum % 2 ^ 32
  let shifted ← shl32 (value >>> (8 - if stop % 8 = 0 then 8 else stop % 8)) (32 - field.fdLen)
  return shifted >>> (32 - field.fdLen)

def zeroMac : List UInt8 := List.replicate 6 0

/-- The source address of a frame replaced. -/
def setSourceMac (mac frame : List UInt8) : List UInt8 :=
  frame.mapIdx fun index byte => if 6 ≤ index ∧ index < 12 then mac.getD (index - 6) 0 else byte

/-- One interface after the other; `buffer` is the receive buffer, which an interface with an
address overwrites from the packet array. -/
def emitFrom (ifMacs : List (List UInt8)) (outPort : Nat) (packet : List UInt8) :
    List Nat → List UInt8 → List (Nat × List UInt8)
  | [], _ => []
  | ifIdx :: rest, buffer =>
      if (outPort >>> ifIdx) % 2 = 1 then
        let mac := ifMacs.getD ifIdx zeroMac
        let sent := if mac = zeroMac then buffer else setSourceMac mac (packet.take buffer.length)
        (ifIdx, sent) :: emitFrom ifMacs outPort packet rest sent
      else
        emitFrom ifMacs outPort packet rest buffer

def egressPort : FieldInfo := ⟨31, 9, 9, .field⟩

/-- The copies that leave the switch, each with its interface. -/
def emit (ifMacs : List (List UInt8)) (frame : List UInt8) (phv : Phv) :
    Option (List (Nat × List UInt8)) := do
  let outPort ← getFieldValue egressPort phv
  return emitFrom ifMacs outPort phv.packet (List.range ifMacs.length) frame

/-- A received frame, for as long as the pipeline takes `fuel` turns at most. -/
def forward (pipeline : Pipeline) (scratch : Nat → Nat → UInt8) (ifMacs : List (List UInt8)) (fuel : Nat)
    (frame : List UInt8) (ifIndex : Nat) : Option (List (Nat × List UInt8)) := do
  let phv ← initPhv pipeline frame ifIndex
  match pipeline.execute scratch fuel phv with
  | .done phv => emit ifMacs frame phv
  | .running _ | .undefined => none

end Ipbm.Dataplane
