import NochOS.Network.Dhcp
import NochOS.Library.Slots
import NochOS.Library.Transition

/-!
# Network - the driver and the card

The card and the driver share two rings of descriptors and one buffer, into which the card
writes every packet.  The card acts at any time, also between two steps of `handleReceive`
and between the bytes that are copied.  The driver is a program counter that goes through
`handleReceive` and `sendPacket`; it starts at an interrupt, or with `get_ip`.

Main results:

- Structure `Nic`: the descriptors, the registers and what happened so far.
- Definition `Nic.perform`: the card, the driver and the callers, event by event.
-/

namespace NochOS
namespace Network

open Library

/-- `E1000_NUM_RX_DESC`. -/
def numRxDesc : Nat := 32

/-- `E1000_NUM_TX_DESC`. -/
def numTxDesc : Nat := 8

/-- `CMD_EOP | CMD_IFCS | CMD_RS | CMD_RPS`. -/
def txCommand : Nat := 1 <<< 0 ||| 1 <<< 1 ||| 1 <<< 3 ||| 1 <<< 4

/-- `CMD_RS`: the card reports that it has sent the packet. -/
def cmdRS : Nat := 1 <<< 3

/-- `TSTA_DD`. -/
def tstaDD : Nat := 1 <<< 0

/-- The longest packet the card takes without `RCTL_LPE`. -/
def maxPacket : Nat := 1522

/-- `struct e1000_rx_desc`; `addr` is `e1000_rx_temp` in all of them. -/
structure RxDesc where
  length : Nat
  status : Nat

/-- `struct e1000_tx_desc`; `addr` is the message `c` in all that are used. -/
structure TxDesc where
  length : Nat
  cmd : Nat
  status : Nat

/-- Where the driver is. -/
inductive Pc
  /-- Not in the driver. -/
  | idle
  /-- At the condition of the loop of `handleReceive`. -/
  | test
  /-- Before the length is read. -/
  | length
  /-- In `memcpy`, with the bytes that are copied; `began` packets had been accepted when it
  started. -/
  | copy (len : Nat) (got : List UInt8) (began : Nat)
  /-- Before `buf[278]` is read. -/
  | cookie
  /-- Before `buf[279]` and `SEND_DHCP` are read. -/
  | cookie'
  /-- At `ip[got.length] = buf[58 + got.length]`. -/
  | address (got : List UInt8)
  /-- In the loop of `sendPacket`, called from `handleReceive` or from `get_ip`. -/
  | waiting (old : Nat) (handler : Bool)
  /-- Before the descriptor is given back. -/
  | clear
  /-- Before `rx_cur` and `REG_RXDESCTAIL` advance. -/
  | advance

/-- A packet that was copied, and how many packets the card had accepted when the copying
began and when it ended. -/
structure Copied where
  bytes : List UInt8
  began : Nat
  ended : Nat
deriving DecidableEq

/-- A message that was handed to `sendPacket`: a discover, or a request for an address. -/
structure Given where
  request : Option (List UInt8)
  bytes : List UInt8

/-- The card, the driver and what happened so far. -/
structure Nic where
  rxDescs : Nat → RxDesc
  txDescs : Nat → TxDesc
  /-- `e1000_rx_temp`. -/
  rxTemp : Buf
  rdh : Nat
  rdt : Nat
  tdh : Nat
  tdt : Nat
  rxCur : Nat
  txCur : Nat
  net : NetState
  /-- The message `c`. -/
  c : Buf
  ip : Nat → Nat
  sendDhcp : Nat
  pc : Pc
  accepted : List (List UInt8)
  copied : List Copied
  given : List Given
  onWire : List (List UInt8)

namespace Nic

/-! ## The card -/

/-- The card has a descriptor for a packet, and the packet is not too long. -/
def accepts (s : Nic) (packet : List UInt8) : Bool :=
  packet.length ≤ maxPacket && s.rdh ≠ s.rdt

/-- A packet arrives. -/
def arrive (s : Nic) (packet : List UInt8) : Nic :=
  if s.accepts packet then
    { s with
      rxTemp := memcpy s.rxTemp 0 (bytesOf packet) 0 packet.length
      rxDescs := Function.update s.rxDescs s.rdh ⟨packet.length, 0x3⟩
      rdh := (s.rdh + 1) % numRxDesc
      accepted := s.accepted ++ [packet] }
  else s

/-- The card sends what the next descriptor says. -/
def transmit (s : Nic) : Nic :=
  if s.tdh = s.tdt then s
  else
    let d := s.txDescs s.tdh
    { s with
      onWire := s.onWire ++ [(message s.c).take d.length]
      txDescs := Function.update s.txDescs s.tdh
        (if d.cmd &&& cmdRS ≠ 0 then { d with status := d.status ||| tstaDD } else d)
      tdh := (s.tdh + 1) % numTxDesc }

/-! ## The driver -/

/-- `sendPacket(&c, sizeof(c))` up to its loop. -/
def sendPacket (s : Nic) (request : Option (List UInt8)) (handler : Bool) : Nic :=
  { s with
    txDescs := Function.update s.txDescs s.txCur ⟨sizeofDhcp, txCommand, 0⟩
    txCur := (s.txCur + 1) % numTxDesc
    tdt := (s.txCur + 1) % numTxDesc
    given := s.given ++ [⟨request, message s.c⟩]
    pc := .waiting s.txCur handler }

/-- One step of the driver. -/
def step (s : Nic) : Nic :=
  match s.pc with
  | .idle => s
  | .test => { s with pc := if (s.rxDescs s.rxCur).status &&& 0x1 ≠ 0 then .length else .idle }
  | .length => { s with pc := .copy (s.rxDescs s.rxCur).length [] s.accepted.length }
  | .copy len got began =>
      if got.length < len then
        { s with pc := .copy len (got ++ [s.rxTemp got.length]) began }
      else
        { s with
          net := handleReceive s.net got
          copied := s.copied ++ [⟨got, began, s.accepted.length⟩]
          pc := .cookie }
  | .cookie => { s with pc := if s.rxTemp 278 = 0x63 then .cookie' else .clear }
  | .cookie' =>
      { s with pc := if s.rxTemp 279 = 0x82 ∧ s.sendDhcp = 0 then .address [] else .clear }
  | .address got =>
      if got.length < 4 then
        { s with
          ip := Function.update s.ip got.length (s.rxTemp (58 + got.length)).toNat
          pc := .address (got ++ [s.rxTemp (58 + got.length)]) }
      else
        sendPacket { s with c := sendDhcpRequest s.ip s.c } (some got) true
  | .waiting old handler =>
      if (s.txDescs old).status &&& 0xff = 0 then s
      -- `send_dhcp_request` sets `SEND_DHCP` after the packet is sent
      else if handler then { s with sendDhcp := 1, pc := .clear }
      else { s with pc := .idle }
  | .clear =>
      { s with
        rxDescs := Function.update s.rxDescs s.rxCur { s.rxDescs s.rxCur with status := 0 }
        pc := .advance }
  | .advance =>
      { s with
        rxCur := (s.rxCur + 1) % numRxDesc
        rdt := s.rxCur
        pc := .test }

/-- `fire`, with the cause the card reports. -/
def fire (s : Nic) (status : Nat) : Nic :=
  if status &&& 0x04 ≠ 0 then s
  else if status &&& 0x10 ≠ 0 then s
  else if status &&& 0x80 ≠ 0 then { s with pc := .test }
  else s

/-- The start of `get_ip`. -/
def getIp (s : Nic) : Nic :=
  sendPacket { s with sendDhcp := 0, c := sendDhcpDiscover s.c } none false

end Nic

/-- What can happen. -/
inductive NicEvent
  | arrive (packet : List UInt8)
  | transmit
  | step
  | interrupt (status : Nat)
  | getIp
  | getPackage (nbytes : Nat)
  | client (call : ClientCall)

namespace Nic

/-- The driver runs with interrupts off: an interrupt and the callers come when it is idle. -/
def whenIdle (s : Nic) (f : Nic → Nic) : Nic :=
  match s.pc with
  | .idle => f s
  | _ => s

/-- The state after an event. -/
def perform (s : Nic) : NicEvent → Nic
  | .arrive packet => s.arrive packet
  | .transmit => s.transmit
  | .step => s.step
  | .interrupt status => s.whenIdle fun s => s.fire status
  | .getIp => s.whenIdle getIp
  | .getPackage nbytes => s.whenIdle fun s => { s with net := (getPackage s.net nbytes).2 }
  | .client call =>
      s.whenIdle fun s => { s with net := { s.net with kernel := call.run s.net.kernel } }

/-- The state after the events of a run. -/
def run (s : Nic) (es : List NicEvent) : Nic := es.foldl perform s

/-! ## The start -/

/-- `rxinit`. -/
def rxinit (s : Nic) : Nic :=
  { s with
    rxDescs := fun i =>
      if i < numRxDesc then { s.rxDescs i with status := 0 } else s.rxDescs i
    rdh := 0
    rdt := numRxDesc - 1
    rxCur := 0 }

/-- `txinit`. -/
def txinit (s : Nic) : Nic :=
  { s with
    txDescs := fun i =>
      if i < numTxDesc then { s.txDescs i with cmd := 0, status := tstaDD } else s.txDescs i
    tdh := 0
    tdt := 0
    txCur := 0 }

/-- The static variables before the start; the registers of the card are arbitrary. -/
def blank (net : NetState) (rdh rdt tdh tdt : Nat) : Nic where
  rxDescs := fun _ => ⟨0, 0⟩
  txDescs := fun _ => ⟨0, 0, 0⟩
  rxTemp := fun _ => 0
  rdh := rdh
  rdt := rdt
  tdh := tdh
  tdt := tdt
  rxCur := 0
  txCur := 0
  net := net
  c := fun _ => 0
  ip := fun _ => 0
  sendDhcp := 0
  pc := .idle
  accepted := []
  copied := []
  given := []
  onWire := []

/-- `net_start` on a heap, after the address of the card is read. -/
def start (k : Heap.Kernel) (rdh rdt tdh tdt : Nat) : Nic :=
  txinit (rxinit (blank (netStart k) rdh rdt tdh tdt))

end Nic

end Network
end NochOS
