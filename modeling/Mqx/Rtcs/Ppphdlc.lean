import Mathlib.Data.Fin.VecNotation
import Mathlib.Data.UInt
import Mathlib.Tactic.Common

/-!
# HDLC framing of PPP packets

Model of `ppphdlc.c` with the table of `fcs16.h`. The device is the list of the bytes that it
has yet to deliver and the list of those that were written to it; a read that finds no more
bytes is stopped by `RX_STOP`.
-/

namespace Mqx
namespace Rtcs

/-- The CCITT-16 lookup table. -/
def fcstab : List UInt16 :=
  [0x0000, 0x1189, 0x2312, 0x329B, 0x4624, 0x57AD, 0x6536, 0x74BF,
    0x8C48, 0x9DC1, 0xAF5A, 0xBED3, 0xCA6C, 0xDBE5, 0xE97E, 0xF8F7,
    0x1081, 0x0108, 0x3393, 0x221A, 0x56A5, 0x472C, 0x75B7, 0x643E,
    0x9CC9, 0x8D40, 0xBFDB, 0xAE52, 0xDAED, 0xCB64, 0xF9FF, 0xE876,
    0x2102, 0x308B, 0x0210, 0x1399, 0x6726, 0x76AF, 0x4434, 0x55BD,
    0xAD4A, 0xBCC3, 0x8E58, 0x9FD1, 0xEB6E, 0xFAE7, 0xC87C, 0xD9F5,
    0x3183, 0x200A, 0x1291, 0x0318, 0x77A7, 0x662E, 0x54B5, 0x453C,
    0xBDCB, 0xAC42, 0x9ED9, 0x8F50, 0xFBEF, 0xEA66, 0xD8FD, 0xC974,
    0x4204, 0x538D, 0x6116, 0x709F, 0x0420, 0x15A9, 0x2732, 0x36BB,
    0xCE4C, 0xDFC5, 0xED5E, 0xFCD7, 0x8868, 0x99E1, 0xAB7A, 0xBAF3,
    0x5285, 0x430C, 0x7197, 0x601E, 0x14A1, 0x0528, 0x37B3, 0x263A,
    0xDECD, 0xCF44, 0xFDDF, 0xEC56, 0x98E9, 0x8960, 0xBBFB, 0xAA72,
    0x6306, 0x728F, 0x4014, 0x519D, 0x2522, 0x34AB, 0x0630, 0x17B9,
    0xEF4E, 0xFEC7, 0xCC5C, 0xDDD5, 0xA96A, 0xB8E3, 0x8A78, 0x9BF1,
    0x7387, 0x620E, 0x5095, 0x411C, 0x35A3, 0x242A, 0x16B1, 0x0738,
    0xFFCF, 0xEE46, 0xDCDD, 0xCD54, 0xB9EB, 0xA862, 0x9AF9, 0x8B70,
    0x8408, 0x9581, 0xA71A, 0xB693, 0xC22C, 0xD3A5, 0xE13E, 0xF0B7,
    0x0840, 0x19C9, 0x2B52, 0x3ADB, 0x4E64, 0x5FED, 0x6D76, 0x7CFF,
    0x9489, 0x8500, 0xB79B, 0xA612, 0xD2AD, 0xC324, 0xF1BF, 0xE036,
    0x18C1, 0x0948, 0x3BD3, 0x2A5A, 0x5EE5, 0x4F6C, 0x7DF7, 0x6C7E,
    0xA50A, 0xB483, 0x8618, 0x9791, 0xE32E, 0xF2A7, 0xC03C, 0xD1B5,
    0x2942, 0x38CB, 0x0A50, 0x1BD9, 0x6F66, 0x7EEF, 0x4C74, 0x5DFD,
    0xB58B, 0xA402, 0x9699, 0x8710, 0xF3AF, 0xE226, 0xD0BD, 0xC134,
    0x39C3, 0x284A, 0x1AD1, 0x0B58, 0x7FE7, 0x6E6E, 0x5CF5, 0x4D7C,
    0xC60C, 0xD785, 0xE51E, 0xF497, 0x8028, 0x91A1, 0xA33A, 0xB2B3,
    0x4A44, 0x5BCD, 0x6956, 0x78DF, 0x0C60, 0x1DE9, 0x2F72, 0x3EFB,
    0xD68D, 0xC704, 0xF59F, 0xE416, 0x90A9, 0x8120, 0xB3BB, 0xA232,
    0x5AC5, 0x4B4C, 0x79D7, 0x685E, 0x1CE1, 0x0D68, 0x3FF3, 0x2E7A,
    0xE70E, 0xF687, 0xC41C, 0xD595, 0xA12A, 0xB0A3, 0x8238, 0x93B1,
    0x6B46, 0x7ACF, 0x4854, 0x59DD, 0x2D62, 0x3CEB, 0x0E70, 0x1FF9,
    0xF78F, 0xE606, 0xD49D, 0xC514, 0xB1AB, 0xA022, 0x92B9, 0x8330,
    0x7BC7, 0x6A4E, 0x58D5, 0x495C, 0x3DE3, 0x2C6A, 0x1EF1, 0x0F78]

namespace Ppphdlc

/-- `PPPHDLC_FRAMESIZE_MAXDATA`: protocol (2) and data (1500). -/
def framesizeMaxdata : ℕ := 1502

/-- `PPPHDLC_FRAMESIZE_FCS`. -/
def framesizeFcs : ℕ := 2

/-- `PPPHDLC_ESC`. -/
def esc : UInt8 := 0x7D

/-- `PPPHDLC_FLAG`. -/
def flag : UInt8 := 0x7E

/-- `PPPHDLC_ADDR`. -/
def addr : UInt8 := 0xFF

/-- `PPPHDLC_CTRL`. -/
def ctrl : UInt8 := 0x03

/-- `PPPHDLC_OPT`. -/
structure Opt where
  accm : Fin 8 → UInt32
  pfc : Bool
  acfc : Bool

/-- `PPPHDLC_DEFAULT_OPTIONS`. -/
def defaultOptions : Opt where
  accm := ![0xFFFFFFFF, 0x00000000, 0x00000000, 0x60000000, 0x00000000, 0x00000000, 0x00000000,
    0x00000000]
  pfc := false
  acfc := false

/-- `ACCM_ISSET`. -/
def accmIsset (c : UInt8) (accm : Fin 8 → UInt32) : Bool :=
  accm ⟨c.toNat / 32, by have := c.toNat_lt; omega⟩ &&& (1 <<< UInt32.ofNat (c.toNat % 32)) != 0

/-- `PPPHDLC_STATS` and the two counters of frames sent. -/
structure Stats where
  txTotal : UInt32 := 0
  txMissed : UInt32 := 0
  rxAborted : UInt32 := 0
  rxRunt : UInt32 := 0
  rxGiant : UInt32 := 0
  rxBadAddr : UInt32 := 0
  rxBadCtrl : UInt32 := 0
  rxBadFcs : UInt32 := 0

/-- `PPPHDLC_STRUCT` with its device. -/
structure Handle where
  sendOpt : Opt
  recvOpt : Opt
  fcsSend : UInt16
  fcsRecv : UInt16
  stats : Stats
  input : List UInt8
  output : List UInt8

/-- A packet. The first fragment holds the protocol field, and the fragments end with an empty
one. -/
structure Pcb where
  fragment : List UInt8
  more : List (List UInt8)
  long : 2 ≤ fragment.length

/-- `PPPHDLC_OK`, `PPPHDLC_END` and `PPPHDLC_ABORT`. -/
inductive GetcError where
  | ok
  | fin
  | abort
deriving DecidableEq

/-- `_iopcb_ppphdlc_init`. -/
def init (input : List UInt8) : Handle where
  sendOpt := defaultOptions
  recvOpt := defaultOptions
  fcsSend := 0
  fcsRecv := 0
  stats := {}
  input := input
  output := []

/-- The requests of `_iopcb_ppphdlc_ioctl` that set options. -/
inductive Ioctl where
  | sendAccm (value : UInt32)
  | recvAccm (value : UInt32)
  | sendPfc (value : Bool)
  | recvPfc (value : Bool)
  | sendAcfc (value : Bool)
  | recvAcfc (value : Bool)

/-- `PPPHDLC_CCITT16_calc`. -/
def ccitt16Calc (fcs : UInt16) (c : UInt8) : UInt16 :=
  (fcs >>> 8) ^^^ fcstab.getD ((fcs ^^^ c.toUInt16) &&& 0xFF).toNat 0

/-- `PPPHDLC_CCITT16_check`. -/
def ccitt16Check (fcs : UInt16) : Bool := fcs == 0xF0B8

namespace Handle

/-- `_iopcb_ppphdlc_ioctl`. -/
def ioctl (h : Handle) : Ioctl → Handle
  | .sendAccm value =>
    { h with sendOpt := { h.sendOpt with accm := Function.update h.sendOpt.accm 0 value } }
  | .recvAccm value =>
    { h with recvOpt := { h.recvOpt with accm := Function.update h.recvOpt.accm 0 value } }
  | .sendPfc value => { h with sendOpt := { h.sendOpt with pfc := value } }
  | .recvPfc value => { h with recvOpt := { h.recvOpt with pfc := value } }
  | .sendAcfc value => { h with sendOpt := { h.sendOpt with acfc := value } }
  | .recvAcfc value => { h with recvOpt := { h.recvOpt with acfc := value } }

/-! ## Sending -/

def fputc (h : Handle) (c : UInt8) : Handle := { h with output := h.output ++ [c] }

/-- `PPPHDLC_putc`. -/
def putc (h : Handle) (c : UInt8) (opt : Opt) : Handle :=
  let h := if accmIsset c opt.accm then (h.fputc esc).fputc (c ^^^ 0x20) else h.fputc c
  { h with fcsSend := ccitt16Calc h.fcsSend c }

def putAll (h : Handle) (bytes : List UInt8) (opt : Opt) : Handle :=
  bytes.foldl (fun h c => h.putc c opt) h

/-- `PPPHDLC_CCITT16_send`. -/
def ccitt16Send (h : Handle) (opt : Opt) : Handle :=
  let crc := ~~~h.fcsSend &&& 0xFFFF
  let h := h.putc (crc &&& 0xFF).toUInt8 opt
  h.putc ((crc >>> 8) &&& 0xFF).toUInt8 opt

/-- The loop over the fragments, with what is left of the current one. -/
def writeFragments (opt : Opt) : List (List UInt8) → Handle → List UInt8 → Handle
  | [], h, fragment => h.putAll fragment opt
  | next :: more, h, fragment =>
    if fragment = [] then h else writeFragments opt more (h.putAll fragment opt) next

/-- The options that a packet is sent with. -/
def writeOpt (h : Handle) (flags : UInt32) : Opt :=
  if flags &&& 1 ≠ 0 then defaultOptions else h.sendOpt

/-- `_iopcb_ppphdlc_write`. -/
def write (h : Handle) (pcb : Pcb) (flags : UInt32) : Handle :=
  let opt := h.writeOpt flags
  let h := h.fputc flag
  let h := { h with fcsSend := 0xFFFF }
  let h := if opt.acfc then h else (h.putc addr opt).putc ctrl opt
  let c := pcb.fragment.headD 0
  -- the protocol field is compressed if possible
  let h := if opt.pfc = false ∨ c ≠ 0 then h.putc c opt else h
  let h := writeFragments opt pcb.more h pcb.fragment.tail
  let h := h.ccitt16Send opt
  let h := { h with stats.txTotal := h.stats.txTotal + 1 }
  let h := if ccitt16Check h.fcsSend then h
    else { h with stats.txMissed := h.stats.txMissed + 1 }
  h.fputc flag

/-! ## Receiving -/

/-- The loop of `PPPHDLC_getc`. A flag counts as a runt where the caller says so. -/
def getcLoop (h : Handle) (runt : Bool) (opt : Opt) : List UInt8 → Bool → Handle × GetcError × UInt8
  | [], _ => ({ h with input := [] }, .abort, 0)
  | c :: input, escaped =>
    if c = flag then
      if escaped then
        ({ h with input := input, stats.rxAborted := h.stats.rxAborted + 1 }, .abort, 0)
      else if runt then
        ({ h with input := input, stats.rxRunt := h.stats.rxRunt + 1 }, .fin, 0)
      else ({ h with input := input }, .fin, 0)
    else if c < 0x20 ∧ accmIsset c opt.accm then getcLoop h runt opt input escaped
    else if escaped then
      ({ h with input := input, fcsRecv := ccitt16Calc h.fcsRecv (c ^^^ 0x20) }, .ok, c ^^^ 0x20)
    else if c = esc then getcLoop h runt opt input true
    else ({ h with input := input, fcsRecv := ccitt16Calc h.fcsRecv c }, .ok, c)

/-- `PPPHDLC_getc`. -/
def getc (h : Handle) (runt : Bool) (opt : Opt) : Handle × GetcError × UInt8 :=
  getcLoop h runt opt h.input false

/-- The search for the next flag after a bad frame. A flag sets `wait` to zero before it is
counted down. -/
def waitFlag : List UInt8 → UInt32 → Option (List UInt8)
  | [], wait => if wait = 0 then some [] else none
  | c :: input, wait =>
    if wait = 0 then some (c :: input) else waitFlag input ((if c = flag then 0 else wait) - 1)

/-- What comes of one try to read a frame: `goto restart`, no packet because of `RX_STOP`, a
write past the frame buffer, or the frame with its checksum. -/
inductive Try where
  | restart (h : Handle)
  | stopped (h : Handle)
  | overrun (h : Handle)
  | frame (h : Handle) (bytes : List UInt8)

def skip (h : Handle) : Try :=
  match waitFlag h.input 200 with
  | some input => .restart { h with input := input }
  | none => .stopped { h with input := [] }

/-- The loop that receives the data, with the room that is left in the frame buffer. -/
def readData (opt : Opt) : ℕ → Handle → List UInt8 → UInt8 → Try
  | 0, h, _, _ => .overrun h
  | room + 1, h, bytes, c =>
    let bytes := bytes ++ [c]
    match h.getc false opt with
    | (h, .fin, _) =>
      if ccitt16Check h.fcsRecv then .frame h bytes
      else .restart { h with stats.rxBadFcs := h.stats.rxBadFcs + 1 }
    | (h, .abort, _) => .restart h
    | (h, .ok, c) =>
      if framesizeMaxdata + framesizeFcs ≤ bytes.length then
        { h with stats.rxGiant := h.stats.rxGiant + 1 }.skip
      else readData opt room h bytes c

/-- The loop that receives at least a frame check sequence: so many bytes before the data. -/
def readRunt (opt : Opt) : ℕ → Handle → List UInt8 → UInt8 → Try
  | 0, h, bytes, c => readData opt (framesizeMaxdata + framesizeFcs - bytes.length) h bytes c
  | n + 1, h, bytes, c =>
    match h.getc true opt with
    | (h, .ok, c') => readRunt opt n h (bytes ++ [c]) c'
    | (h, _, _) => .restart h

/-- From the protocol field on, which is decompressed if necessary. -/
def readProtocol (opt : Opt) (h : Handle) (c : UInt8) : Try :=
  let bytes := if c &&& 1 ≠ 0 then [0] else []
  readRunt opt (framesizeFcs - bytes.length) h bytes c

/-- One try of `_iopcb_ppphdlc_read`. -/
def readFrame (h : Handle) (opt : Opt) : Try :=
  match { h with fcsRecv := 0xFFFF }.getc false opt with
  | (h, .ok, c) =>
    if opt.acfc = false ∧ c ≠ addr then
      { h with stats.rxBadAddr := h.stats.rxBadAddr + 1 }.skip
    else if c = addr then
      match h.getc true opt with
      | (h, .ok, c) =>
        if c ≠ ctrl then { h with stats.rxBadCtrl := h.stats.rxBadCtrl + 1 }.skip
        else
          match h.getc true opt with
          | (h, .ok, c) => readProtocol opt h c
          | (h, _, _) => .restart h
      | (h, _, _) => .restart h
    else readProtocol opt h c
  | (h, _, _) => .restart h

/-- What `_iopcb_ppphdlc_read` returns: no PCB, a PCB with these bytes, or a write past the
frame buffer. -/
inductive Received where
  | none
  | packet (bytes : List UInt8)
  | overrun
deriving DecidableEq

/-- The tries, of which the last one is only counted. -/
def readLoop (opt : Opt) : ℕ → Handle → Handle × Received
  | 0, h => (h, .packet [])
  | retry + 1, h =>
    if retry = 0 then (h, .packet [])
    else
      match h.readFrame opt with
      | .restart h => readLoop opt retry h
      | .stopped h => (h, .none)
      | .overrun h => (h, .overrun)
      | .frame h bytes => (h, .packet (bytes.take (bytes.length - framesizeFcs)))

/-- `_iopcb_ppphdlc_read`. -/
def read (h : Handle) : Handle × Received :=
  if h.input = [] then (h, .none) else readLoop h.recvOpt 20 h

end Handle

end Ppphdlc
end Rtcs
end Mqx
