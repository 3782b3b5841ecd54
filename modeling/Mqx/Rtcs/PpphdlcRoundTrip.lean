import Mathlib.Tactic.Common
import Mathlib.Tactic.IntervalCases
import Mqx.Rtcs.Ppphdlc

/-!
# What is framed comes back

Each character comes back from its escaped form, the checksum of a frame with its own checksum
is the good one, and so the reader gives back the packet of the writer.
-/

namespace Mqx
namespace Rtcs
namespace Ppphdlc

/-! ## The checksum -/

theorem fcstab_ones : fcstab.getD 0xFF 0 = 0x0F78 := by decide

theorem fcstab_good : fcstab.getD 0x87 0 = 0xF0B7 := by decide

theorem lowIndex_send (crc : UInt16) :
    (crc ^^^ ((~~~crc &&& 0xFFFF) &&& 0xFF).toUInt8.toUInt16) &&& 0xFF = 0xFF := by
  apply UInt16.toBitVec_inj.mp
  apply BitVec.eq_of_getLsbD_eq
  intro i hi
  simp only [UInt16.toBitVec_and, UInt16.toBitVec_xor, UInt16.toBitVec_not,
    UInt8.toBitVec_toUInt16, UInt16.toBitVec_toUInt8, BitVec.getLsbD_and, BitVec.getLsbD_xor,
    BitVec.getLsbD_not, BitVec.getLsbD_setWidth]
  interval_cases i <;> simp

theorem highIndex_send (crc : UInt16) :
    ((crc >>> 8) ^^^ (0x0F78 : UInt16) ^^^
      (((~~~crc &&& 0xFFFF) >>> 8) &&& 0xFF).toUInt8.toUInt16) &&& 0xFF = 0x87 := by
  apply UInt16.toBitVec_inj.mp
  apply BitVec.eq_of_getLsbD_eq
  intro i hi
  simp only [UInt16.toBitVec_and, UInt16.toBitVec_xor, UInt16.toBitVec_not,
    UInt8.toBitVec_toUInt16, UInt16.toBitVec_toUInt8, UInt16.toBitVec_shiftRight,
    BitVec.getLsbD_and, BitVec.getLsbD_xor, BitVec.getLsbD_setWidth]
  interval_cases i <;> simp

theorem high_send (crc : UInt16) : ((crc >>> 8) ^^^ 0x0F78) >>> 8 = 0x0F := by
  apply UInt16.toBitVec_inj.mp
  apply BitVec.eq_of_getLsbD_eq
  intro i hi
  simp only [UInt16.toBitVec_xor, UInt16.toBitVec_shiftRight]
  interval_cases i <;> simp

/-- The complement of the checksum, low byte first, leads to the good checksum. -/
theorem ccitt16_send (crc : UInt16) :
    ccitt16Calc (ccitt16Calc crc ((~~~crc &&& 0xFFFF) &&& 0xFF).toUInt8)
      (((~~~crc &&& 0xFFFF) >>> 8) &&& 0xFF).toUInt8 = 0xF0B8 := by
  have hlow : ccitt16Calc crc ((~~~crc &&& 0xFFFF) &&& 0xFF).toUInt8 = (crc >>> 8) ^^^ 0x0F78 := by
    rw [ccitt16Calc, lowIndex_send]
    exact congrArg _ fcstab_ones
  rw [hlow, ccitt16Calc, highIndex_send, high_send]
  exact congrArg _ fcstab_good

/-! ## One character -/

/-- The options that the requests of the interface lead to. -/
def Opt.Settable (opt : Opt) : Prop := ∀ i : Fin 8, i.val ≠ 0 → opt.accm i = defaultOptions.accm i

theorem settable_defaultOptions : defaultOptions.Settable := fun _ _ => rfl

/-- The handles that are initialized and then get requests. -/
inductive Reachable : Handle → Prop where
  | init (input : List UInt8) : Reachable (init input)
  | ioctl {h : Handle} (r : Ioctl) : Reachable h → Reachable (h.ioctl r)

theorem Reachable.settable {h : Handle} (hr : Reachable h) :
    h.sendOpt.Settable ∧ h.recvOpt.Settable := by
  induction hr with
  | init input => exact ⟨settable_defaultOptions, settable_defaultOptions⟩
  | ioctl r _ ih =>
    obtain ⟨hsend, hrecv⟩ := ih
    cases r with
    | sendAccm value =>
      exact ⟨fun i hi => (Function.update_of_ne (Fin.ne_of_val_ne hi) _ _).trans (hsend i hi), hrecv⟩
    | recvAccm value =>
      exact ⟨hsend, fun i hi => (Function.update_of_ne (Fin.ne_of_val_ne hi) _ _).trans (hrecv i hi)⟩
    | sendPfc value => exact ⟨hsend, hrecv⟩
    | recvPfc value => exact ⟨hsend, hrecv⟩
    | sendAcfc value => exact ⟨hsend, hrecv⟩
    | recvAcfc value => exact ⟨hsend, hrecv⟩

theorem accmIsset_default : ∀ n : Fin 256, 32 ≤ n.val →
    (accmIsset (UInt8.ofNat n) defaultOptions.accm = true ↔ n = 0x7D ∨ n = 0x7E) := by
  decide +kernel

/-- Past the control characters only the escape and the flag are flagged. -/
theorem Opt.Settable.isset {opt : Opt} (h : opt.Settable) {c : UInt8} (hc : ¬ c < 0x20) :
    accmIsset c opt.accm = true ↔ c = esc ∨ c = flag := by
  have hlt := c.toNat_lt
  have hge : 32 ≤ c.toNat := by
    rw [UInt8.lt_iff_toNat_lt] at hc
    exact not_lt.mp hc
  have hsame : accmIsset c opt.accm = accmIsset c defaultOptions.accm := by
    unfold accmIsset
    rw [h _ fun hz => ?_]
    have hz' : c.toNat / 32 = 0 := hz
    omega
  have hnat := accmIsset_default ⟨c.toNat, hlt⟩ hge
  rw [show UInt8.ofNat (⟨c.toNat, hlt⟩ : Fin 256).val = c from UInt8.ofNat_toNat] at hnat
  rw [hsame, hnat, Fin.ext_iff, Fin.ext_iff]
  unfold esc flag
  rw [← UInt8.toNat_inj, ← UInt8.toNat_inj]
  exact Iff.rfl

/-- The receiver drops no control character that the sender sends as it is. -/
def Compatible (send recv : Opt) : Prop :=
  ∀ c : UInt8, c < 0x20 → accmIsset c recv.accm = true → accmIsset c send.accm = true

/-- The bytes for one character. -/
def escape (opt : Opt) (c : UInt8) : List UInt8 :=
  if accmIsset c opt.accm then [esc, c ^^^ 0x20] else [c]

theorem xor_control {c : UInt8} (hc : c < 0x20) : ¬ c ^^^ 0x20 < 0x20 ∧ c ^^^ 0x20 ≠ flag := by
  have hnat : ∀ n : Fin 32, ¬ UInt8.ofNat n ^^^ 0x20 < 0x20 ∧ UInt8.ofNat n ^^^ 0x20 ≠ flag := by
    decide
  have hn := hnat ⟨c.toNat, hc⟩
  rwa [show UInt8.ofNat (⟨c.toNat, hc⟩ : Fin 32).val = c from UInt8.ofNat_toNat] at hn

/-- What follows an escape is neither a flag nor dropped. -/
theorem Opt.Settable.xor {opt : Opt} (h : opt.Settable) {c : UInt8}
    (hc : accmIsset c opt.accm = true) : ¬ c ^^^ 0x20 < 0x20 ∧ c ^^^ 0x20 ≠ flag := by
  by_cases hctl : c < 0x20
  · exact xor_control hctl
  · rcases (h.isset hctl).mp hc with rfl | rfl
    · decide
    · decide

namespace Handle

variable {send recv : Opt} {h : Handle} {c : UInt8} {bytes cs rest : List UInt8}

/-- The handle after the reader has taken one character. -/
def take (h : Handle) (c : UInt8) (input : List UInt8) : Handle :=
  { h with input := input, fcsRecv := ccitt16Calc h.fcsRecv c }

theorem getc_escape (hs : send.Settable) (hr : Compatible send recv) (runt : Bool)
    (hin : h.input = escape send c ++ rest) :
    h.getc runt recv = (h.take c rest, .ok, c) := by
  unfold getc escape at *
  rw [hin]
  by_cases hset : accmIsset c send.accm = true
  · obtain ⟨hctl, hflag⟩ := hs.xor hset
    have hback : (c ^^^ 0x20) ^^^ 0x20 = c := by rw [UInt8.xor_assoc, UInt8.xor_self, UInt8.xor_zero]
    rw [if_pos hset, List.cons_append, List.cons_append, List.nil_append, getcLoop,
      if_neg (by decide), if_neg (by simp [esc]), if_neg (by simp), if_pos rfl, getcLoop,
      if_neg hflag, if_neg fun hc => hctl hc.1, if_pos rfl, hback]
    rfl
  · have hplain : ¬ (c < 0x20 ∧ accmIsset c recv.accm = true) := fun hc => hset (hr c hc.1 hc.2)
    have hspecial : c ≠ esc ∧ c ≠ flag := by
      by_cases hctl : c < 0x20
      · exact ⟨by rintro rfl; exact absurd hctl (by decide),
          by rintro rfl; exact absurd hctl (by decide)⟩
      · have hiff := hs.isset hctl
        exact ⟨fun hc => hset (hiff.mpr (Or.inl hc)), fun hc => hset (hiff.mpr (Or.inr hc))⟩
    rw [if_neg hset, List.cons_append, List.nil_append, getcLoop, if_neg hspecial.2, if_neg hplain,
      if_neg (by simp), if_neg hspecial.1]
    rfl

theorem getc_flag (hin : h.input = flag :: rest) :
    h.getc false recv = ({ h with input := rest }, .fin, 0) := by
  unfold getc
  rw [hin, getcLoop, if_pos rfl, if_neg (by simp), if_neg (by simp)]

/-! ## Writing -/

theorem putc_eq (h : Handle) (c : UInt8) (opt : Opt) :
    h.putc c opt =
      { h with output := h.output ++ escape opt c, fcsSend := ccitt16Calc h.fcsSend c } := by
  unfold putc escape
  by_cases hc : accmIsset c opt.accm = true
  · rw [if_pos hc, if_pos hc]
    simp [fputc]
  · rw [if_neg hc, if_neg hc]
    simp [fputc]

theorem putAll_eq (h : Handle) (bytes : List UInt8) (opt : Opt) :
    h.putAll bytes opt =
      { h with output := h.output ++ bytes.flatMap (escape opt)
               fcsSend := bytes.foldl ccitt16Calc h.fcsSend } := by
  induction bytes generalizing h with
  | nil => simp [putAll]
  | cons c bytes ih =>
    have hstep : h.putAll (c :: bytes) opt = (h.putc c opt).putAll bytes opt := rfl
    rw [hstep, ih, putc_eq]
    simp

theorem putAll_append (h : Handle) (bytes cs : List UInt8) (opt : Opt) :
    (h.putAll bytes opt).putAll cs opt = h.putAll (bytes ++ cs) opt := List.foldl_append.symm

/-- The fragments up to the first empty one. -/
theorem writeFragments_eq (opt : Opt) (more : List (List UInt8)) (h : Handle) (cs : List UInt8)
    (hcs : cs ≠ []) :
    writeFragments opt more h cs = h.putAll (cs ++ (more.takeWhile (· ≠ [])).flatten) opt := by
  induction more generalizing h cs with
  | nil => simp [writeFragments]
  | cons next more ih =>
    rw [writeFragments, if_neg hcs]
    by_cases hnext : next = []
    · subst hnext
      cases more <;> simp [writeFragments, putAll]
    · rw [ih _ _ hnext, putAll_append]
      simp [hnext]

end Handle

/-- The bytes of a packet. -/
def Pcb.bytes (pcb : Pcb) : List UInt8 :=
  pcb.fragment ++ (pcb.more.takeWhile (· ≠ [])).flatten

/-- The characters of a frame before its checksum. -/
def characters (opt : Opt) (bytes : List UInt8) : List UInt8 :=
  (if opt.acfc then [] else [addr, ctrl]) ++
    if opt.pfc = false ∨ bytes.headD 0 ≠ 0 then bytes else bytes.tail

/-- The checksum that follows the characters. -/
def checksum (cs : List UInt8) : List UInt8 :=
  let crc := ~~~cs.foldl ccitt16Calc 0xFFFF &&& 0xFFFF
  [(crc &&& 0xFF).toUInt8, ((crc >>> 8) &&& 0xFF).toUInt8]

/-- The bytes of a frame. -/
def frame (opt : Opt) (bytes : List UInt8) : List UInt8 :=
  flag :: ((characters opt bytes ++ checksum (characters opt bytes)).flatMap (escape opt) ++ [flag])

theorem checksum_good (cs : List UInt8) :
    (cs ++ checksum cs).foldl ccitt16Calc 0xFFFF = 0xF0B8 := by
  rw [List.foldl_append]
  exact ccitt16_send _

/-- The characters of a frame with their checksum. -/
theorem ccitt16Send_putAll {h : Handle} (opt : Opt) (cs : List UInt8) (hfcs : h.fcsSend = 0xFFFF) :
    (h.putAll cs opt).ccitt16Send opt =
      { h with output := h.output ++ (cs ++ checksum cs).flatMap (escape opt), fcsSend := 0xF0B8 } := by
  have hsend : (h.putAll cs opt).ccitt16Send opt = (h.putAll cs opt).putAll (checksum cs) opt := by
    unfold Handle.ccitt16Send checksum
    rw [Handle.putAll_eq, hfcs]
    rfl
  rw [hsend, Handle.putAll_append, Handle.putAll_eq, hfcs, checksum_good]

/-- What `_iopcb_ppphdlc_write` sends; its own checksum is good. -/
theorem write_eq (h : Handle) (pcb : Pcb) (flags : UInt32) :
    h.write pcb flags =
      { h with output := h.output ++ frame (h.writeOpt flags) pcb.bytes
               fcsSend := 0xF0B8
               stats.txTotal := h.stats.txTotal + 1 } := by
  obtain ⟨fragment, more, hlong⟩ := pcb
  cases fragment with
  | nil => simp at hlong
  | cons c fragment =>
    have hne : fragment ≠ [] := by
      rintro rfl
      simp at hlong
    generalize hopt : h.writeOpt flags = opt
    have hbytes : Pcb.bytes ⟨c :: fragment, more, hlong⟩ =
        c :: (fragment ++ (more.takeWhile (· ≠ [])).flatten) := rfl
    generalize hrest : fragment ++ (more.takeWhile (· ≠ [])).flatten = rest at hbytes
    -- the header and the packet are the characters of the frame
    have hchars : ∀ h₀ : Handle,
        Handle.writeFragments opt more
          (if opt.pfc = false ∨ c ≠ 0 then
            (if opt.acfc then h₀ else (h₀.putc addr opt).putc ctrl opt).putc c opt
          else if opt.acfc then h₀ else (h₀.putc addr opt).putc ctrl opt) fragment =
        h₀.putAll (characters opt (c :: rest)) opt := by
      intro h₀
      rw [Handle.writeFragments_eq _ _ _ _ hne, hrest]
      unfold characters
      rw [List.headD_cons, List.tail_cons]
      by_cases hacfc : opt.acfc = true <;> by_cases hpfc : opt.pfc = false ∨ c ≠ 0
      all_goals simp [hacfc, hpfc, Handle.putAll]
    unfold Handle.write
    simp only [hopt, List.headD_cons, List.tail_cons, hbytes]
    rw [hchars, ccitt16Send_putAll _ _ rfl]
    have hgood : ccitt16Check 0xF0B8 = true := by decide
    simp only [hgood, if_true]
    simp [Handle.fputc, frame]

/-! ## Reading -/

namespace Handle

variable {send recv : Opt} {h : Handle} {c lo hi : UInt8} {bytes cs p rest : List UInt8}

/-- The data of a frame and its checksum. -/
theorem readData_frame (hs : send.Settable) (hr : Compatible send recv) (room : ℕ)
    (hin : h.input = cs.flatMap (escape send) ++ flag :: rest) (hlen : cs.length < room)
    (hroom : bytes.length + room = framesizeMaxdata + framesizeFcs)
    (hgood : cs.foldl ccitt16Calc h.fcsRecv = 0xF0B8) :
    readData recv room h bytes c =
      .frame { h with input := rest, fcsRecv := 0xF0B8 } (bytes ++ c :: cs) := by
  induction cs generalizing room h bytes c with
  | nil =>
    obtain ⟨room, rfl⟩ := Nat.exists_eq_add_one.mpr hlen
    have hcheck : ccitt16Check h.fcsRecv = true := by
      rw [show h.fcsRecv = 0xF0B8 from hgood]
      decide
    rw [readData, getc_flag hin]
    simp only [hcheck, if_true]
    rw [← show h.fcsRecv = 0xF0B8 from hgood]
  | cons c' cs ih =>
    obtain ⟨room, rfl⟩ := Nat.exists_eq_add_one.mpr (Nat.zero_lt_of_lt hlen)
    rw [List.length_cons] at hlen
    have hin' : h.input = escape send c' ++ (cs.flatMap (escape send) ++ flag :: rest) := by
      simpa using hin
    have hsize : ¬ framesizeMaxdata + framesizeFcs ≤ (bytes ++ [c]).length := by
      rw [List.length_append, List.length_singleton]
      omega
    rw [readData, getc_escape hs hr false hin']
    simp only [if_neg hsize]
    have hroom' : (bytes ++ [c]).length + room = framesizeMaxdata + framesizeFcs := by
      rw [List.length_append, List.length_singleton]
      omega
    rw [ih (h := h.take c' _) room rfl (by omega) hroom' hgood]
    simp [take]

/-- The data once the protocol field is complete. -/
theorem readRunt_zero (hs : send.Settable) (hr : Compatible send recv)
    (hin : h.input = cs.flatMap (escape send) ++ flag :: rest)
    (hlen : bytes.length + cs.length < framesizeMaxdata + framesizeFcs)
    (hgood : cs.foldl ccitt16Calc h.fcsRecv = 0xF0B8) :
    readRunt recv 0 h bytes c =
      .frame { h with input := rest, fcsRecv := 0xF0B8 } (bytes ++ c :: cs) :=
  readData_frame hs hr _ hin (by omega) (by omega) hgood

/-- One more byte before the data. -/
theorem readRunt_succ (hs : send.Settable) (hr : Compatible send recv) (n : ℕ) {c' : UInt8}
    (hin : h.input = escape send c' ++ rest) :
    readRunt recv (n + 1) h bytes c = readRunt recv n (h.take c' rest) (bytes ++ [c]) c' := by
  rw [readRunt, getc_escape hs hr true hin]

/-- From the low byte of the protocol field on. -/
theorem readRunt_low (hs : send.Settable) (hr : Compatible send recv)
    (hin : h.input = cs.flatMap (escape send) ++ flag :: rest) (hlong : cs ≠ [])
    (hlen : cs.length ≤ framesizeMaxdata) (hgood : cs.foldl ccitt16Calc h.fcsRecv = 0xF0B8) :
    readRunt recv 1 h [hi] lo =
      .frame { h with input := rest, fcsRecv := 0xF0B8 } (hi :: lo :: cs) := by
  cases cs with
  | nil => exact absurd rfl hlong
  | cons c cs =>
    have hin' : h.input = escape send c ++ (cs.flatMap (escape send) ++ flag :: rest) := by
      simpa using hin
    rw [List.length_cons] at hlen
    have hlen' : ([hi] ++ [lo]).length + cs.length < framesizeMaxdata + framesizeFcs := by
      simp only [framesizeFcs, List.length_append, List.length_singleton]
      omega
    rw [readRunt_succ hs hr 0 hin', readRunt_zero (h := h.take c _) hs hr rfl hlen' hgood]
    rfl

/-- From the first byte of the protocol field on, whether it is compressed or not. -/
theorem readProtocol_frame (hs : send.Settable) (hr : Compatible send recv) {first : List UInt8}
    (hfirst : first = hi :: lo :: p ∨ hi = 0 ∧ first = lo :: p)
    (hcs : first ++ cs = c :: bytes) (hlong : cs ≠ [])
    (hin : h.input = bytes.flatMap (escape send) ++ flag :: rest) (heven : hi &&& 1 = 0)
    (hodd : lo &&& 1 ≠ 0) (hlen : (p ++ cs).length ≤ framesizeMaxdata)
    (hgood : bytes.foldl ccitt16Calc h.fcsRecv = 0xF0B8) :
    readProtocol recv h c =
      .frame { h with input := rest, fcsRecv := 0xF0B8 } (hi :: lo :: p ++ cs) := by
  have hne : p ++ cs ≠ [] := fun hc => hlong (List.append_eq_nil_iff.mp hc).2
  unfold readProtocol
  rcases hfirst with rfl | ⟨rfl, rfl⟩
  · obtain ⟨rfl, rfl⟩ := List.cons.inj hcs
    have hin' : h.input =
        escape send lo ++ ((p ++ cs).flatMap (escape send) ++ flag :: rest) := by simpa using hin
    rw [if_neg (not_not.mpr heven)]
    exact (readRunt_succ hs hr 1 hin').trans
      (readRunt_low (h := h.take lo _) hs hr rfl hne hlen hgood)
  · obtain ⟨rfl, rfl⟩ := List.cons.inj hcs
    rw [if_pos hodd]
    exact readRunt_low hs hr hin hne hlen hgood

end Handle

/-- The protocol number that the two compressions leave ambiguous: its low byte alone is the
address byte. -/
def Ambiguous (opt : Opt) (bytes : List UInt8) : Prop :=
  opt.acfc = true ∧ opt.pfc = true ∧ bytes.take 2 = [0x00, 0xFF]

namespace Handle

variable {send recv : Opt} {h : Handle} {c lo hi : UInt8} {bytes cs p rest : List UInt8}

theorem even_ne_addr (heven : hi &&& 1 = 0) : hi ≠ addr := by
  rintro rfl
  exact absurd heven (by decide)

/-- A frame is read into its packet and the checksum. -/
theorem readFrame_frame (hs : send.Settable) (hr : Compatible send recv)
    (hacfc : send.acfc = true → recv.acfc = true) (heven : hi &&& 1 = 0) (hodd : lo &&& 1 ≠ 0)
    (hlen : (hi :: lo :: p).length ≤ framesizeMaxdata) (hplain : ¬ Ambiguous send (hi :: lo :: p))
    (hin : h.input = (characters send (hi :: lo :: p) ++
      checksum (characters send (hi :: lo :: p))).flatMap (escape send) ++ flag :: rest) :
    h.readFrame recv = .frame { h with input := rest, fcsRecv := 0xF0B8 }
      (hi :: lo :: p ++ checksum (characters send (hi :: lo :: p))) := by
  have hgood := checksum_good (characters send (hi :: lo :: p))
  generalize hsum : checksum (characters send (hi :: lo :: p)) = sum at hin hgood ⊢
  have hsum2 : sum.length = 2 := by rw [← hsum]; rfl
  have hsumne : sum ≠ [] := by
    rintro rfl
    exact absurd hsum2 (by simp)
  have hlen' : (p ++ sum).length ≤ framesizeMaxdata := by
    rw [List.length_append, hsum2]
    rw [List.length_cons, List.length_cons] at hlen
    omega
  -- the characters from the protocol field on
  obtain ⟨first, hfirst, hchars⟩ : ∃ first,
      (first = hi :: lo :: p ∨ hi = 0 ∧ first = lo :: p ∧ send.pfc = true) ∧
        characters send (hi :: lo :: p) = (if send.acfc then [] else [addr, ctrl]) ++ first := by
    by_cases hc : send.pfc = false ∨ hi ≠ 0
    · exact ⟨_, Or.inl rfl, by rw [characters, List.headD_cons, if_pos hc]⟩
    · have hc' := not_or.mp hc
      exact ⟨_, Or.inr ⟨not_not.mp hc'.2, rfl, by simpa using hc'.1⟩,
        by rw [characters, List.headD_cons, if_neg hc, List.tail_cons]⟩
  have hfirst' : first = hi :: lo :: p ∨ hi = 0 ∧ first = lo :: p :=
    hfirst.imp_right fun hc => ⟨hc.1, hc.2.1⟩
  obtain ⟨c, cs, hcs⟩ : ∃ c cs, first ++ sum = c :: cs := by
    rcases hfirst' with rfl | ⟨-, rfl⟩
    · exact ⟨_, _, rfl⟩
    · exact ⟨_, _, rfl⟩
  rw [hchars, List.append_assoc, hcs] at hin hgood
  unfold readFrame
  by_cases hacfc' : send.acfc = true
  · -- no header: the first byte must not look like one
    have hc : c ≠ addr := by
      rcases hfirst with rfl | ⟨rfl, rfl, hpfc⟩
      · rw [← (List.cons.inj hcs).1]
        exact even_ne_addr heven
      · rw [← (List.cons.inj hcs).1]
        rintro rfl
        exact hplain ⟨hacfc', hpfc, rfl⟩
    rw [if_pos hacfc', List.nil_append] at hin hgood
    have hin' : h.input = escape send c ++ (cs.flatMap (escape send) ++ flag :: rest) := by
      simpa using hin
    rw [getc_escape (h := { h with fcsRecv := 0xFFFF }) hs hr false hin']
    simp only [hacfc hacfc', if_neg hc, Bool.true_eq_false, false_and, if_false]
    exact readProtocol_frame (h := take { h with fcsRecv := 0xFFFF } c _) hs hr hfirst' hcs hsumne
      rfl heven hodd hlen' hgood
  · rw [if_neg hacfc'] at hin hgood
    have hin' : h.input = escape send addr ++ (escape send ctrl ++ (escape send c ++
        (cs.flatMap (escape send) ++ flag :: rest))) := by
      simpa using hin
    rw [getc_escape (h := { h with fcsRecv := 0xFFFF }) hs hr false hin']
    simp only [ne_eq, not_true_eq_false, and_false, if_false, if_true]
    rw [getc_escape (h := take { h with fcsRecv := 0xFFFF } addr _) hs hr true rfl]
    simp only [not_true_eq_false, if_false]
    rw [getc_escape (h := take (take { h with fcsRecv := 0xFFFF } addr _) ctrl _) hs hr true rfl]
    exact readProtocol_frame
      (h := take (take (take { h with fcsRecv := 0xFFFF } addr _) ctrl _) c _) hs hr hfirst' hcs
      hsumne rfl heven hodd hlen' hgood

/-- A frame after its opening flag. -/
theorem read_frame (hs : send.Settable) (hr : Compatible send h.recvOpt)
    (hacfc : send.acfc = true → h.recvOpt.acfc = true) (heven : hi &&& 1 = 0) (hodd : lo &&& 1 ≠ 0)
    (hlen : (hi :: lo :: p).length ≤ framesizeMaxdata) (hplain : ¬ Ambiguous send (hi :: lo :: p))
    (hin : h.input = frame send (hi :: lo :: p) ++ rest) :
    h.read = ({ h with input := rest, fcsRecv := 0xF0B8 }, .packet (hi :: lo :: p)) := by
  have hflag : h.readFrame h.recvOpt = .restart { h with
      input := (characters send (hi :: lo :: p) ++
        checksum (characters send (hi :: lo :: p))).flatMap (escape send) ++ flag :: rest
      fcsRecv := 0xFFFF } := by
    have hopen : h.input = flag :: ((characters send (hi :: lo :: p) ++
        checksum (characters send (hi :: lo :: p))).flatMap (escape send) ++ flag :: rest) := by
      rw [hin]
      simp [frame]
    unfold readFrame
    rw [getc_flag (h := { h with fcsRecv := 0xFFFF }) hopen]
  have hne : h.input ≠ [] := by
    rw [hin]
    exact List.cons_ne_nil _ _
  unfold read
  rw [if_neg hne, readLoop, if_neg (by decide), hflag]
  simp only
  rw [readLoop, if_neg (by decide), readFrame_frame hs hr hacfc heven hodd hlen hplain rfl]
  have hsum : (checksum (characters send (hi :: lo :: p))).length = framesizeFcs := rfl
  simp only [List.length_append, hsum, Nat.add_sub_cancel]
  rw [List.take_left']
  rfl

/-! ## The frame buffer -/

/-- A try writes at most as many bytes as the frame buffer holds, and stays within it. -/
def Try.Within : Try → Prop
  | .restart _ => True
  | .stopped _ => True
  | .overrun _ => False
  | .frame _ bytes => bytes.length ≤ framesizeMaxdata + framesizeFcs

theorem skip_within (h : Handle) : h.skip.Within := by
  unfold skip
  split <;> trivial

theorem readData_within (opt : Opt) (room : ℕ) (h : Handle) (bytes : List UInt8) (c : UInt8)
    (hroom : bytes.length + room = framesizeMaxdata + framesizeFcs) (hpos : 0 < room) :
    (readData opt room h bytes c).Within := by
  induction room generalizing h bytes c with
  | zero => exact absurd hpos (lt_irrefl 0)
  | succ room ih =>
    have hlen : (bytes ++ [c]).length = bytes.length + 1 := by simp
    rw [readData]
    cases hget : h.getc false opt with
    | mk h' result =>
      obtain ⟨error, c'⟩ := result
      cases error with
      | fin =>
        simp only
        split
        · show (bytes ++ [c]).length ≤ _
          omega
        · trivial
      | abort => trivial
      | ok =>
        simp only
        split
        · exact skip_within _
        · exact ih h' (bytes ++ [c]) c' (by omega) (by omega)

theorem readRunt_within (opt : Opt) (n : ℕ) (h : Handle) (bytes : List UInt8) (c : UInt8)
    (hlen : bytes.length + n = framesizeFcs) : (readRunt opt n h bytes c).Within := by
  have hsizes : framesizeFcs < framesizeMaxdata + framesizeFcs := by decide
  induction n generalizing h bytes c with
  | zero => exact readData_within opt _ h bytes c (by omega) (by omega)
  | succ n ih =>
    rw [readRunt]
    cases hget : h.getc true opt with
    | mk h' result =>
      obtain ⟨error, c'⟩ := result
      cases error with
      | ok => exact ih h' (bytes ++ [c]) c' (by simp; omega)
      | fin => trivial
      | abort => trivial

theorem readProtocol_within (opt : Opt) (h : Handle) (c : UInt8) :
    (readProtocol opt h c).Within := by
  unfold readProtocol
  split
  · exact readRunt_within opt _ h _ c (by decide)
  · exact readRunt_within opt _ h _ c (by decide)

theorem readFrame_within (opt : Opt) (h : Handle) : (h.readFrame opt).Within := by
  unfold readFrame
  cases { h with fcsRecv := 0xFFFF }.getc false opt with
  | mk h₁ result =>
    obtain ⟨error, c⟩ := result
    cases error with
    | fin => trivial
    | abort => trivial
    | ok =>
      simp only
      split
      · exact skip_within _
      · split
        · cases h₁.getc true opt with
          | mk h₂ result =>
            obtain ⟨error, c⟩ := result
            cases error with
            | fin => trivial
            | abort => trivial
            | ok =>
              simp only
              split
              · exact skip_within _
              · cases h₂.getc true opt with
                | mk h₃ result =>
                  obtain ⟨error, c⟩ := result
                  cases error with
                  | fin => trivial
                  | abort => trivial
                  | ok => exact readProtocol_within opt h₃ c
        · exact readProtocol_within opt h₁ c

/-- Whatever the device delivers, the reader stays within the frame buffer, and the packet is
not longer than the data of a frame. -/
theorem read_within (h : Handle) :
    h.read.2 ≠ .overrun ∧ ∀ bytes, h.read.2 = .packet bytes → bytes.length ≤ framesizeMaxdata := by
  have hloop : ∀ (opt : Opt) (retry : ℕ) (h : Handle), (readLoop opt retry h).2 ≠ .overrun ∧
      ∀ bytes, (readLoop opt retry h).2 = .packet bytes → bytes.length ≤ framesizeMaxdata := by
    intro opt retry
    induction retry with
    | zero =>
      intro h
      refine ⟨Received.noConfusion, fun bytes hb => ?_⟩
      obtain rfl := Received.packet.inj hb
      exact Nat.zero_le _
    | succ retry ih =>
      intro h
      have hwithin := readFrame_within opt h
      rw [readLoop]
      split
      · refine ⟨Received.noConfusion, fun bytes hb => ?_⟩
        obtain rfl := Received.packet.inj hb
        exact Nat.zero_le _
      · cases htry : h.readFrame opt with
        | restart h' => exact ih h'
        | stopped h' => exact ⟨Received.noConfusion, fun bytes hb => Received.noConfusion hb⟩
        | overrun h' =>
          rw [htry] at hwithin
          exact hwithin.elim
        | frame h' frame =>
          rw [htry] at hwithin
          refine ⟨Received.noConfusion, fun bytes hb => ?_⟩
          obtain rfl := Received.packet.inj hb
          have hle : frame.length ≤ framesizeMaxdata + framesizeFcs := hwithin
          rw [List.length_take]
          omega
  unfold read
  split
  · exact ⟨Received.noConfusion, fun bytes hb => Received.noConfusion hb⟩
  · exact hloop _ _ _

end Handle

/-! ## The round trip -/

/-- A packet whose protocol number is not the ambiguous one is framed, sent and read back with
a good checksum, and the reader leaves what follows the frame. -/
theorem round_trip (tx rx : Handle) (htx : Reachable tx) (pcb : Pcb) (flags : UInt32)
    (hi lo : UInt8) (p : List UInt8) (hbytes : pcb.bytes = hi :: lo :: p) (heven : hi &&& 1 = 0)
    (hodd : lo &&& 1 ≠ 0) (hlen : pcb.bytes.length ≤ framesizeMaxdata)
    (haccm : Compatible (tx.writeOpt flags) rx.recvOpt)
    (hacfc : (tx.writeOpt flags).acfc = true → rx.recvOpt.acfc = true)
    (hplain : ¬ Ambiguous (tx.writeOpt flags) pcb.bytes) :
    ∃ out, (tx.write pcb flags).output = tx.output ++ out ∧
      ccitt16Check (tx.write pcb flags).fcsSend = true ∧
      ∀ rest, ∃ rx', { rx with input := out ++ rest }.read = (rx', .packet pcb.bytes) ∧
        rx'.input = rest ∧ ccitt16Check rx'.fcsRecv = true := by
  have hs : (tx.writeOpt flags).Settable := by
    unfold Handle.writeOpt
    split
    · exact settable_defaultOptions
    · exact htx.settable.1
  have hgood : ccitt16Check 0xF0B8 = true := by decide
  rw [write_eq, hbytes] at *
  refine ⟨_, rfl, hgood, fun rest => ?_⟩
  have hread := Handle.read_frame (h := { rx with
    input := frame (tx.writeOpt flags) (hi :: lo :: p) ++ rest }) hs haccm hacfc heven hodd hlen
    hplain rfl
  exact ⟨_, hread, rfl, hgood⟩

/-- A protocol field and one byte of data. -/
def smallPcb (hi lo : UInt8) : Pcb := ⟨[hi, lo], [[0x41]], by simp⟩

theorem round_trip_ip : ∃ out, ((init []).write (smallPcb 0x00 0x21) 0).output = [] ++ out ∧
    ccitt16Check ((init []).write (smallPcb 0x00 0x21) 0).fcsSend = true ∧
    ∀ rest, ∃ rx', { init [] with input := out ++ rest }.read =
        (rx', .packet (smallPcb 0x00 0x21).bytes) ∧
      rx'.input = rest ∧ ccitt16Check rx'.fcsRecv = true :=
  round_trip (init []) (init []) (.init []) (smallPcb 0x00 0x21) 0 0x00 0x21 [0x41] rfl rfl
    (by decide) (by decide) (fun _ _ hc => hc) (fun hc => hc) fun hc => Bool.noConfusion hc.1

/-- A handle whose two directions compress the header and the protocol field. -/
def compressed : Handle :=
  ((((init []).ioctl (.sendAcfc true)).ioctl (.sendPfc true)).ioctl (.recvAcfc true)).ioctl
    (.recvPfc true)

theorem reachable_compressed : Reachable compressed :=
  .ioctl _ (.ioctl _ (.ioctl _ (.ioctl _ (.init []))))

/-- The packet with the protocol number 0x00FF is not read back when both fields are
compressed, and neither is one that is longer than the data of a frame. -/
theorem not_round_trip :
    Reachable compressed ∧
      { compressed with input := (compressed.write (smallPcb 0x00 0xFF) 0).output }.read.2 ≠
        .packet (smallPcb 0x00 0xFF).bytes ∧
      ∀ input, { init [] with input := input }.read.2 ≠
        .packet (0x00 :: 0x21 :: List.replicate (framesizeMaxdata - 1) 0x41) := by
  refine ⟨reachable_compressed, by decide, fun input hc => ?_⟩
  have hle := (Handle.read_within _).2 _ hc
  rw [List.length_cons, List.length_cons, List.length_replicate] at hle
  exact absurd hle (by decide)

end Ppphdlc
end Rtcs
end Mqx
