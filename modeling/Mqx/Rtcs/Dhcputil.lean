import Mathlib.Data.List.Basic
import Mathlib.Data.UInt
import Mathlib.Tactic.Common
import Mqx.Rtcs.InetPton

/-!
# Options of DHCP messages

Model of `dhcputil.c`. The writers append to the bytes before `*optptr` and keep the room behind
it in `*optlen`; `none` stands for `FALSE`. The reader runs over a message by positions, and fails
where it reads outside.
-/

namespace Mqx
namespace Rtcs
namespace Dhcputil

open Inet (mqxHtonl)

/-- `DHCPOPT_PAD`. -/
def optPad : UInt8 := 0

/-- `DHCPOPT_END`. -/
def optEnd : UInt8 := 255

/-- `*optptr` and `*optlen`. -/
structure OptBuffer where
  written : List UInt8
  optlen : UInt32

variable {b b' : OptBuffer}

/-- `mqx_htons`. -/
def mqxHtons (x : UInt16) : List UInt8 := [(x >>> 8).toUInt8, x.toUInt8]

/-- What the writers share: the test of the room, the stores, and the room left. -/
def putOption (b : OptBuffer) (need : UInt32) (opttype oplen : UInt8) (value : List UInt8)
    (taken : UInt32) : Option OptBuffer :=
  if b.optlen < need then none
  else some { written := b.written ++ opttype :: oplen :: value, optlen := b.optlen - taken }

/-- `DHCP_option_int8`. -/
def dhcpOptionInt8 (b : OptBuffer) (opttype optval : UInt8) : Option OptBuffer :=
  putOption b 3 opttype 1 [optval] 3

/-- `DHCP_option_int16`. -/
def dhcpOptionInt16 (b : OptBuffer) (opttype : UInt8) (optval : UInt16) : Option OptBuffer :=
  putOption b 4 opttype 2 (mqxHtons optval) 4

/-- `DHCP_option_int32`. -/
def dhcpOptionInt32 (b : OptBuffer) (opttype : UInt8) (optval : UInt32) : Option OptBuffer :=
  putOption b 6 opttype 4 (mqxHtonl optval) 6

/-- `DHCP_option_variable`, with `num_options` the length of `options`. -/
def dhcpOptionVariable (b : OptBuffer) (opttype : UInt8) (options : List UInt8) :
    Option OptBuffer :=
  let num_options := UInt32.ofNat options.length
  putOption b (num_options + 2) opttype num_options.toUInt8 options (num_options + 2)

/-- `DHCP_option_addr`. -/
def dhcpOptionAddr (b : OptBuffer) (opttype : UInt8) (addr : UInt32) : Option OptBuffer :=
  putOption b 6 opttype 4 (mqxHtonl addr) 6

/-- The loop of `DHCP_option_addrlist`: the bytes stored, and `addrcount` behind it. -/
def addrLoop (addrcount : UInt32) : List UInt32 → List UInt8 × UInt32
  | [] => ([], addrcount - 1)
  | addr :: addrptr =>
    let (opt, addrcount) := addrLoop (addrcount - 1) addrptr
    (mqxHtonl addr ++ opt, addrcount)

/-- `DHCP_option_addrlist`, with `addrcount` the length of `addrptr`. -/
def dhcpOptionAddrlist (b : OptBuffer) (opttype : UInt8) (addrptr : List UInt32) :
    Option OptBuffer :=
  let addrcount := UInt32.ofNat addrptr.length
  let (opt, rest) := addrLoop addrcount addrptr
  putOption b (4 * addrcount + 2) opttype (4 * addrcount).toUInt8 opt (4 * rest + 2)

/-- `DHCP_option_string`, for the characters before the NUL. -/
def dhcpOptionString (b : OptBuffer) (opttype : UInt8) (optval : List UInt8) :
    Option OptBuffer :=
  let slen := UInt32.ofNat optval.length
  putOption b (slen + 2) opttype slen.toUInt8 optval (slen + 2)

/-- A read outside of the message. -/
inductive Outside
  | outside
deriving DecidableEq

/-- `DHCP_find_option`: the position of the option. -/
def dhcpFindOption (msg : List UInt8) (msgptr msglen : ℕ) (option : UInt8) :
    Except Outside (Option ℕ) :=
  if msglen = 0 then .ok none
  else
    match msg[msgptr]? with
    | none => .error .outside
    | some optype =>
      if optype = optEnd then .ok none
      else if optype = optPad then dhcpFindOption msg (msgptr + 1) (msglen - 1) option
      else if msglen - 1 = 0 then .ok none
      else
        match msg[msgptr + 1]? with
        | none => .error .outside
        | some oplen =>
          if msglen - 2 < oplen.toNat then .ok none
          else if optype = option then .ok (some msgptr)
          else
            dhcpFindOption msg (msgptr + 2 + oplen.toNat) (msglen - 2 - oplen.toNat) option
termination_by msglen
decreasing_by all_goals omega

/-- The size of `DHCP_HEADER`. -/
def sizeofHeader : UInt32 := 236

/-- `DHCPCLNT_find_option`. -/
def dhcpclntFindOption (msgptr : List UInt8) (msglen : UInt32) (option : UInt8) :
    Except Outside (Option ℕ) :=
  dhcpFindOption msgptr (sizeofHeader + 4).toNat (msglen - sizeofHeader - 4).toNat option

/-! ## Reads -/

/-- The reader stays in the bytes that it is given. -/
theorem dhcpFindOption_inside (msg : List UInt8) (msgptr msglen : ℕ) (option : UInt8)
    (h : msgptr + msglen ≤ msg.length) :
    ∃ r, dhcpFindOption msg msgptr msglen option = .ok r := by
  fun_induction dhcpFindOption msg msgptr msglen option with
  | case1 | case3 | case5 | case7 => exact ⟨none, rfl⟩
  | case2 msgptr msglen hne hcode =>
    rw [List.getElem?_eq_none_iff] at hcode
    omega
  | case4 msgptr msglen hne hcode hend ih => exact ih (by omega)
  | case6 msgptr msglen hne optype hcode hend hpad hone hlen =>
    rw [List.getElem?_eq_none_iff] at hlen
    omega
  | case8 msgptr => exact ⟨some msgptr, rfl⟩
  | case9 msgptr msglen hne optype hcode hend hpad hone oplen hlen hshort hfound ih =>
    exact ih (by omega)

/-- The client reads inside a message that holds a header and the cookie, and outside of any
other one. -/
theorem dhcpclntFindOption_inside_iff (msg : List UInt8) (option : UInt8)
    (h : msg.length < 2 ^ 32) :
    (∃ r, dhcpclntFindOption msg (.ofNat msg.length) option = .ok r) ↔ 240 ≤ msg.length := by
  have hlen : (UInt32.ofNat msg.length - sizeofHeader - 4).toNat =
      (msg.length + (2 ^ 32 - 240)) % 2 ^ 32 := by
    have hconst : UInt32.ofNat msg.length - sizeofHeader - 4 =
        UInt32.ofNat msg.length + UInt32.ofNat (2 ^ 32 - 240) := by
      rw [sub_sub, sub_eq_add_neg]
      rfl
    rw [hconst, ← UInt32.ofNat_add]
    exact UInt32.toNat_ofNat'
  rw [dhcpclntFindOption, hlen]
  constructor
  · rintro ⟨r, hr⟩
    by_contra hshort
    have hcode : msg[(sizeofHeader + 4).toNat]? = none :=
      List.getElem?_eq_none (show msg.length ≤ 240 by omega)
    rw [dhcpFindOption, if_neg (by omega), hcode] at hr
    cases hr
  · intro hlong
    apply dhcpFindOption_inside
    change 240 + _ ≤ _
    omega

/-! ## Calls -/

/-- A call of a writer, without the buffer. -/
inductive Call
  | optInt8 (opttype optval : UInt8)
  | optInt16 (opttype : UInt8) (optval : UInt16)
  | optInt32 (opttype : UInt8) (optval : UInt32)
  | optVariable (opttype : UInt8) (options : List UInt8)
  | optAddr (opttype : UInt8) (addr : UInt32)
  | optAddrlist (opttype : UInt8) (addrptr : List UInt32)
  | optString (opttype : UInt8) (optval : List UInt8)

/-- The call on a buffer. -/
def Call.exec (b : OptBuffer) : Call → Option OptBuffer
  | .optInt8 opttype optval => dhcpOptionInt8 b opttype optval
  | .optInt16 opttype optval => dhcpOptionInt16 b opttype optval
  | .optInt32 opttype optval => dhcpOptionInt32 b opttype optval
  | .optVariable opttype options => dhcpOptionVariable b opttype options
  | .optAddr opttype addr => dhcpOptionAddr b opttype addr
  | .optAddrlist opttype addrptr => dhcpOptionAddrlist b opttype addrptr
  | .optString opttype optval => dhcpOptionString b opttype optval

/-- The code of the option. -/
def Call.opttype : Call → UInt8
  | .optInt8 opttype _ | .optInt16 opttype _ | .optInt32 opttype _ | .optVariable opttype _
  | .optAddr opttype _ | .optAddrlist opttype _ | .optString opttype _ => opttype

/-- The bytes of the value. -/
def Call.value : Call → List UInt8
  | .optInt8 _ optval => [optval]
  | .optInt16 _ optval => mqxHtons optval
  | .optInt32 _ optval | .optAddr _ optval => mqxHtonl optval
  | .optVariable _ options => options
  | .optAddrlist _ addrptr => addrptr.flatMap mqxHtonl
  | .optString _ optval => optval

/-- The option as bytes. -/
def Call.encode (call : Call) : List UInt8 :=
  call.opttype :: UInt8.ofNat call.value.length :: call.value

/-- A call of a writer that counts its bytes, with a value that a `uint32_t` counts. -/
structure Call.Counted (call : Call) : Prop where
  not_addrlist : ∀ opttype addrptr, call ≠ .optAddrlist opttype addrptr
  fits : call.value.length + 2 < 2 ^ 32

/-- A call that a message can hold: the code is one of an option, and a byte counts the value. -/
structure Call.Plain (call : Call) : Prop extends call.Counted where
  not_pad : call.opttype ≠ optPad
  not_end : call.opttype ≠ optEnd
  short : call.value.length ≤ 255

/-- Calls that all return `TRUE`. -/
def run (b : OptBuffer) (calls : List Call) : Option OptBuffer :=
  calls.foldlM Call.exec b

variable {calls : List Call} {call : Call}

theorem putOption_room {need : UInt32} {opttype oplen : UInt8} {value : List UInt8}
    (hneed : need.toNat = value.length + 2)
    (h : putOption b need opttype oplen value need = some b') :
    b'.written = b.written ++ opttype :: oplen :: value ∧
      b'.optlen.toNat + (value.length + 2) = b.optlen.toNat := by
  rw [putOption] at h
  split_ifs at h with hroom
  cases h
  have hle : need ≤ b.optlen := UInt32.not_lt.1 hroom
  have hroom : need.toNat ≤ b.optlen.toNat := UInt32.le_iff_toNat_le.1 hle
  refine ⟨rfl, ?_⟩
  change (b.optlen - need).toNat + _ = _
  rw [UInt32.toNat_sub_of_le _ _ hle]
  omega

/-- A value whose length is known at the call. -/
theorem putOption_sized {opttype : UInt8} {options : List UInt8}
    (hfits : options.length + 2 < 2 ^ 32)
    (h : putOption b (.ofNat options.length + 2) opttype (UInt32.ofNat options.length).toUInt8
      options (.ofNat options.length + 2) = some b') :
    b'.written = b.written ++ opttype :: UInt8.ofNat options.length :: options ∧
      b'.optlen.toNat + (options.length + 2) = b.optlen.toNat := by
  have hneed : (UInt32.ofNat options.length + 2).toNat = options.length + 2 := by
    simp only [UInt32.toNat_add, UInt32.toNat_ofNat', UInt32.toNat_ofNat]
    omega
  have hbyte : (UInt32.ofNat options.length).toUInt8 = UInt8.ofNat options.length := by
    apply UInt8.toNat_inj.1
    simp only [UInt32.toNat_toUInt8, UInt32.toNat_ofNat', UInt8.toNat_ofNat']
    omega
  exact hbyte ▸ putOption_room hneed h

/-- One call appends its option and takes as much from the room. -/
theorem Call.exec_counted (hcounted : call.Counted) (h : call.exec b = some b') :
    b'.written = b.written ++ call.encode ∧
      b'.optlen.toNat + call.encode.length = b.optlen.toNat := by
  cases call with
  | optAddrlist opttype addrptr => exact absurd rfl (hcounted.not_addrlist opttype addrptr)
  | optInt8 opttype optval => exact @putOption_room _ _ 3 opttype 1 [optval] rfl h
  | optInt16 opttype optval => exact @putOption_room _ _ 4 opttype 2 (mqxHtons optval) rfl h
  | optInt32 opttype optval | optAddr opttype optval =>
    exact @putOption_room _ _ 6 opttype 4 (mqxHtonl optval) rfl h
  | optVariable opttype options | optString opttype options =>
    exact putOption_sized hcounted.fits h

/-- A run appends the options of its calls and takes as much from the room. -/
theorem run_counted (hcounted : ∀ call ∈ calls, call.Counted) (h : run b calls = some b') :
    b'.written = b.written ++ calls.flatMap Call.encode ∧
      b'.optlen.toNat + (calls.flatMap Call.encode).length = b.optlen.toNat := by
  induction calls generalizing b with
  | nil =>
    cases h
    exact ⟨(List.append_nil _).symm, rfl⟩
  | cons call calls ih =>
    rw [run, List.foldlM_cons] at h
    obtain ⟨b₁, hcall, hrest⟩ := Option.bind_eq_some_iff.1 h
    rw [List.forall_mem_cons] at hcounted
    obtain ⟨hwritten, hroom⟩ := Call.exec_counted hcounted.1 hcall
    obtain ⟨hwritten', hroom'⟩ := ih hcounted.2 hrest
    rw [List.flatMap_cons, List.length_append, hwritten', hwritten, List.append_assoc]
    exact ⟨rfl, by omega⟩

theorem addrLoop_eq (addrptr : List UInt32) :
    addrLoop (.ofNat addrptr.length) addrptr = (addrptr.flatMap mqxHtonl, 0 - 1) := by
  induction addrptr with
  | nil => rfl
  | cons addr addrptr ih =>
    have hcount : UInt32.ofNat (addr :: addrptr).length - 1 = UInt32.ofNat addrptr.length := by
      rw [List.length_cons, UInt32.ofNat_add]
      exact add_sub_cancel_right _ _
    rw [addrLoop, hcount, ih]
    rfl

/-- `addrcount` is not what it was when the room is counted: the room grows. -/
theorem dhcpOptionAddrlist_room {opttype : UInt8} {addrptr : List UInt32}
    (h : dhcpOptionAddrlist b opttype addrptr = some b') :
    b'.optlen = b.optlen + 2 ∧
      b'.written.length = b.written.length + 2 + (addrptr.flatMap mqxHtonl).length := by
  rw [dhcpOptionAddrlist, addrLoop_eq] at h
  simp only [putOption] at h
  split_ifs at h
  cases h
  constructor
  · exact sub_eq_add_neg _ _
  · simp only [List.length_append, List.length_cons]
    omega

/-- Without a wrap of the room, only runs of writers that count keep it. -/
theorem run_kept {calls : List Call} (hfits : ∀ call ∈ calls, call.value.length + 2 < 2 ^ 32)
    (hwrap : b.optlen.toNat + 2 * calls.length < 2 ^ 32) (h : run b calls = some b') :
    b.optlen.toNat + b.written.length ≤ b'.optlen.toNat + b'.written.length ∧
      (b'.optlen.toNat + b'.written.length = b.optlen.toNat + b.written.length →
        ∀ call ∈ calls, call.Counted) := by
  induction calls generalizing b with
  | nil =>
    cases h
    exact ⟨le_rfl, fun _ => List.forall_mem_nil _⟩
  | cons call calls ih =>
    rw [run, List.foldlM_cons] at h
    obtain ⟨b₁, hcall, hrest⟩ := Option.bind_eq_some_iff.1 h
    rw [List.forall_mem_cons] at hfits
    rw [List.length_cons] at hwrap
    by_cases hlist : ∃ opttype addrptr, call = .optAddrlist opttype addrptr
    · obtain ⟨opttype, addrptr, rfl⟩ := hlist
      obtain ⟨hroom, hwritten⟩ := dhcpOptionAddrlist_room hcall
      have hgrown : b₁.optlen.toNat = b.optlen.toNat + 2 := by
        rw [hroom, UInt32.toNat_add]
        exact Nat.mod_eq_of_lt (show b.optlen.toNat + 2 < 2 ^ 32 by omega)
      have hle := (ih hfits.2 (by omega) hrest).1
      constructor
      · omega
      · intro heq
        omega
    · have hcounted : call.Counted :=
        ⟨fun opttype addrptr heq => hlist ⟨opttype, addrptr, heq⟩, hfits.1⟩
      obtain ⟨hwritten, hroom⟩ := call.exec_counted hcounted hcall
      have hlength := congrArg List.length hwritten
      rw [List.length_append] at hlength
      obtain ⟨hle, hkept⟩ := ih hfits.2 (by omega) hrest
      constructor
      · omega
      · intro heq
        exact List.forall_mem_cons.2 ⟨hcounted, hkept (by omega)⟩

/-- The reader finds a written option or steps over it. -/
theorem dhcpFindOption_written (pre post : List UInt8) (option : UInt8) (hplain : call.Plain) :
    dhcpFindOption (pre ++ (call.encode ++ post)) pre.length (call.encode ++ post).length option =
      if call.opttype = option then .ok (some pre.length)
      else dhcpFindOption (pre ++ call.encode ++ post) (pre ++ call.encode).length post.length
        option := by
  have hcode : (pre ++ (call.encode ++ post))[pre.length]? = some call.opttype := by
    simp [Call.encode]
  have hlen : (pre ++ (call.encode ++ post))[pre.length + 1]? =
      some (UInt8.ofNat call.value.length) := by
    simp [Call.encode]
  have hsize : call.encode.length = call.value.length + 2 := rfl
  have hbyte : (UInt8.ofNat call.value.length).toNat = call.value.length :=
    UInt8.toNat_ofNat_of_lt' (Nat.lt_succ_of_le hplain.short)
  rw [dhcpFindOption, List.length_append, hsize, if_neg (by omega), hcode]
  dsimp only
  rw [if_neg hplain.not_end, if_neg hplain.not_pad, if_neg (by omega), hlen]
  dsimp only
  rw [if_neg (by omega), hbyte, List.append_assoc, List.length_append, hsize]
  congr 2 <;> omega

/-- The reader finds the first option with its code. -/
theorem dhcpFindOption_first {before after : List Call} (pre : List UInt8)
    (hbefore : ∀ c ∈ before, c.Plain ∧ c.opttype ≠ call.opttype) (hplain : call.Plain) :
    let bytes := (before ++ call :: after).flatMap Call.encode
    dhcpFindOption (pre ++ bytes) pre.length bytes.length call.opttype =
      .ok (some (pre.length + (before.flatMap Call.encode).length)) := by
  induction before generalizing pre with
  | nil =>
    simp only [List.nil_append, List.flatMap_cons]
    rw [dhcpFindOption_written _ _ _ hplain, if_pos rfl]
    rfl
  | cons c before ih =>
    rw [List.forall_mem_cons] at hbefore
    simp only [List.cons_append, List.flatMap_cons]
    rw [dhcpFindOption_written _ _ _ hbefore.1.1, if_neg hbefore.1.2]
    refine (ih (pre ++ c.encode) hbefore.2).trans ?_
    simp only [List.length_append, Nat.add_assoc]

/-- The room and the bytes written add up. -/
def Kept (optlen : UInt32) (b : OptBuffer) : Prop :=
  b.optlen.toNat + b.written.length = optlen.toNat

/-- The reader finds the first option written with a code, with the length of its value. -/
def Found (calls : List Call) (b : OptBuffer) (call : Call) : Prop :=
  ∃ before first after, calls = before ++ first :: after ∧ first.opttype = call.opttype ∧
    (∀ c ∈ before, c.opttype ≠ call.opttype) ∧ ∃ pos,
      dhcpFindOption b.written 0 b.written.length call.opttype = .ok (some pos) ∧
      pos = (before.flatMap Call.encode).length ∧ ∃ oplen : UInt8,
        oplen.toNat = first.value.length ∧
        b.written.drop pos = first.opttype :: oplen :: first.value ++ after.flatMap Call.encode

theorem run_found (hplain : ∀ call ∈ calls, call.Plain) {optlen : UInt32}
    (h : run ⟨[], optlen⟩ calls = some b) (hcall : call ∈ calls) : Found calls b call := by
  have hwritten : b.written = calls.flatMap Call.encode :=
    (run_counted (fun c hc => (hplain c hc).toCounted) h).1
  obtain ⟨before, first, after, rfl, hbefore, hfirst⟩ :
      ∃ before first after, calls = before ++ first :: after ∧
        (∀ c ∈ before, c.opttype ≠ call.opttype) ∧ first.opttype = call.opttype := by
    cases hfind : calls.find? (·.opttype = call.opttype) with
    | none => simpa using List.find?_eq_none.1 hfind call hcall
    | some first =>
      obtain ⟨hfirst, before, after, hsplit, hbefore⟩ := List.find?_eq_some_iff_append.1 hfind
      exact ⟨before, first, after, hsplit, by simpa using hbefore, of_decide_eq_true hfirst⟩
  rw [List.forall_mem_append, List.forall_mem_cons] at hplain
  refine ⟨before, first, after, rfl, hfirst, hbefore, _, ?_, rfl,
    UInt8.ofNat first.value.length, ?_, ?_⟩
  · rw [hwritten, ← hfirst]
    have hpos := @dhcpFindOption_first first before after []
      (fun c hc => ⟨hplain.1 c hc, hfirst ▸ hbefore c hc⟩) hplain.2.1
    simpa only [List.nil_append, List.length_nil, Nat.zero_add] using hpos
  · exact UInt8.toNat_ofNat_of_lt' (Nat.lt_succ_of_le hplain.2.1.short)
  · rw [hwritten, List.flatMap_append, List.drop_left, List.flatMap_cons]
    rfl

/-- A run whose calls count their bytes keeps the room, and short of a wrap no other run does. Where
they are plain too, every option is found. A reader of a whole message stays inside, and the client
does so exactly where the message holds a header and the cookie. -/
theorem option_codec (calls : List Call) (optlen : UInt32) (b : OptBuffer) (msg : List UInt8)
    (option : UInt8) (hrun : run ⟨[], optlen⟩ calls = some b) (hmsg : msg.length < 2 ^ 32) :
    ((∀ call ∈ calls, call.Counted) → Kept optlen b) ∧
      ((∀ call ∈ calls, call.value.length + 2 < 2 ^ 32) →
        optlen.toNat + 2 * calls.length < 2 ^ 32 → Kept optlen b →
          ∀ call ∈ calls, call.Counted) ∧
      ((∀ call ∈ calls, call.Plain) → ∀ call ∈ calls, Found calls b call) ∧
      (∃ r, dhcpFindOption msg 0 msg.length option = .ok r) ∧
      ((∃ r, dhcpclntFindOption msg (.ofNat msg.length) option = .ok r) ↔ 240 ≤ msg.length) := by
  refine ⟨?_, ?_, ?_, ?_, dhcpclntFindOption_inside_iff msg option hmsg⟩
  · intro hcounted
    obtain ⟨hwritten, hroom⟩ := run_counted hcounted hrun
    rw [Kept, hwritten]
    exact hroom
  · intro hfits hwrap hkept
    exact (run_kept hfits hwrap hrun).2 hkept
  · intro hplain call hcall
    exact run_found hplain hrun hcall
  · exact dhcpFindOption_inside msg 0 msg.length option (Nat.zero_add _).le

theorem option_codec_one :
    let calls : List Call := [.optInt8 53 1]
    let b : OptBuffer := ⟨[53, 1, 1], 97⟩
    ((∀ call ∈ calls, call.Counted) → Kept 100 b) ∧
      ((∀ call ∈ calls, call.value.length + 2 < 2 ^ 32) →
        (100 : UInt32).toNat + 2 * calls.length < 2 ^ 32 → Kept 100 b →
          ∀ call ∈ calls, call.Counted) ∧
      ((∀ call ∈ calls, call.Plain) → ∀ call ∈ calls, Found calls b call) ∧
      (∃ r, dhcpFindOption [255] 0 1 53 = .ok r) ∧
      ((∃ r, dhcpclntFindOption [255] 1 53 = .ok r) ↔ 240 ≤ 1) :=
  option_codec [.optInt8 53 1] 100 ⟨[53, 1, 1], 97⟩ [255] 53 rfl (by decide)

/-- One address makes the room grow. -/
theorem addrlist_room_grows :
    ∃ b, run ⟨[], 100⟩ [.optAddrlist 6 [0x0A000001]] = some b ∧ ¬Kept 100 b := by
  refine ⟨_, rfl, ?_⟩
  unfold Kept
  decide

end Dhcputil
end Rtcs
end Mqx
