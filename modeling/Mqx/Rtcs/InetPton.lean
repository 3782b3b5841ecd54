import Mathlib.Data.List.Basic
import Mathlib.Data.UInt
import Mathlib.Tactic.Common

/-!
# Addresses read from text

Model of `inet_pton.c` on a little-endian host. A text is the list of its characters before the
NUL; the result is the list of the bytes stored at the destination, `none` where the source
returns `RTCS_ERROR` and leaves the destination alone.
-/

namespace Mqx
namespace Rtcs
namespace Inet

def colonChar : UInt8 := 58
def dotChar : UInt8 := 46

/-! ## Version 4 -/

/-- `digits`. -/
def digits : List UInt8 := [48, 49, 50, 51, 52, 53, 54, 55, 56, 57]

/-- The long that `memcpy` makes of four bytes. -/
def copyLong (tmp : List UInt8) : UInt32 :=
  (tmp.getD 0 0).toUInt32 ||| (tmp.getD 1 0).toUInt32 <<< 8 ||| (tmp.getD 2 0).toUInt32 <<< 16 |||
    (tmp.getD 3 0).toUInt32 <<< 24

/-- `mqx_htonl`: the bytes stored for a long. -/
def mqxHtonl (x : UInt32) : List UInt8 :=
  [(x >>> 24).toUInt8, (x >>> 16).toUInt8, (x >>> 8).toUInt8, x.toUInt8]

/-- The loop of `inet_pton4`. `done` are the bytes of `tmp` before `tp` and `cur` is the one at
`tp`. -/
def pton4Loop (octets : ℕ) (sawDigit : Bool) (done : List UInt8) (cur : ℕ) :
    List UInt8 → Option (List UInt8)
  | [] => if octets < 4 then none else some (done ++ [UInt8.ofNat cur])
  | ch :: src =>
    match digits.idxOf? ch with
    | some d =>
      let new := cur * 10 + d
      if sawDigit ∧ cur = 0 then none
      else if new > 255 then none
      else if ¬sawDigit then
        if octets + 1 > 4 then none else pton4Loop (octets + 1) true done new src
      else pton4Loop octets true done new src
    | none =>
      if ch = dotChar ∧ sawDigit then
        if octets = 4 then none
        else pton4Loop octets false (done ++ [UInt8.ofNat cur]) 0 src
      else none

/-- `inet_pton4`. -/
def inetPton4 (src : List UInt8) : Option (List UInt8) :=
  match pton4Loop 0 false [] 0 src with
  | some tmp => some (mqxHtonl (copyLong tmp))
  | none => none

/-! ## Version 6 -/

/-- `xdigits_l` and `xdigits_u`. -/
def xdigitsL : List UInt8 :=
  [48, 49, 50, 51, 52, 53, 54, 55, 56, 57, 97, 98, 99, 100, 101, 102]

def xdigitsU : List UInt8 :=
  [48, 49, 50, 51, 52, 53, 54, 55, 56, 57, 65, 66, 67, 68, 69, 70]

/-- The place of a character among the lower case digits, or else among the upper case ones. -/
def xdigit (ch : UInt8) : Option ℕ := (xdigitsL.idxOf? ch).or (xdigitsU.idxOf? ch)

/-- The variables of `inet_pton6`. -/
structure Pton6 where
  tmp : ℕ → UInt8
  tp : ℕ
  colonp : Option ℕ
  curtok : List UInt8
  seenXdigits : ℕ
  val : ℕ

/-- The two bytes of `val` stored at `tp`. -/
def Pton6.putVal (st : Pton6) : Pton6 where
  tmp := Function.update (Function.update st.tmp st.tp (UInt8.ofNat (st.val >>> 8)))
    (st.tp + 1) (UInt8.ofNat st.val)
  tp := st.tp + 2
  colonp := st.colonp
  curtok := st.curtok
  seenXdigits := 0
  val := 0

/-- Four bytes stored at `tp` by `inet_pton4`. -/
def Pton6.putLong (st : Pton6) (bytes : List UInt8) : Pton6 where
  tmp := fun i =>
    if st.tp ≤ i ∧ i < st.tp + 4 then bytes.getD (i - st.tp) 0 else st.tmp i
  tp := st.tp + 4
  colonp := st.colonp
  curtok := st.curtok
  seenXdigits := 0
  val := st.val

/-- The loop of `inet_pton6`. -/
def pton6Loop (st : Pton6) : List UInt8 → Option Pton6
  | [] => some st
  | ch :: src =>
    match xdigit ch with
    | some d =>
      if st.seenXdigits + 1 > 4 then none
      else
        pton6Loop { st with val := st.val <<< 4 ||| d, seenXdigits := st.seenXdigits + 1 } src
    | none =>
      if ch = colonChar then
        if st.seenXdigits = 0 then
          if st.colonp ≠ none then none
          else pton6Loop { st with curtok := src, colonp := some st.tp } src
        else if src = [] then none
        else if st.tp + 2 > 16 then none
        else pton6Loop { st with curtok := src }.putVal src
      else if ch = dotChar ∧ st.tp + 4 ≤ 16 then
        match inetPton4 st.curtok with
        | some bytes => some (st.putLong bytes)
        | none => none
      else none

/-- The digits that the text ends with. -/
def Pton6.flush (st : Pton6) : Option Pton6 :=
  if st.seenXdigits ≠ 0 then
    if st.tp + 2 > 16 then none else some st.putVal
  else some st

/-- The loop that moves the `n` bytes from `colonp` on to the end, after `i` rounds. -/
def shiftBytes (tmp : ℕ → UInt8) (colonp n : ℕ) : ℕ → ℕ → UInt8
  | 0 => tmp
  | i + 1 =>
    let tmp := shiftBytes tmp colonp n i
    let place := colonp + (n - (i + 1))
    Function.update (Function.update tmp (16 - (i + 1)) (tmp place)) place 0

/-- The end of `inet_pton6`. -/
def Pton6.finish (st : Pton6) : Option (List UInt8) :=
  match st.colonp with
  | some colonp =>
    if st.tp = 16 then none
    else
      let n := st.tp - colonp
      some ((List.range 16).map (shiftBytes st.tmp colonp n n))
  | none => if st.tp ≠ 16 then none else some ((List.range 16).map st.tmp)

/-- The loop of `inet_pton6` from `src` on and what follows it. -/
def pton6From (src : List UInt8) : Option (List UInt8) :=
  ((pton6Loop ⟨fun _ => 0, 0, none, src, 0, 0⟩ src).bind Pton6.flush).bind Pton6.finish

/-- `inet_pton6`. -/
def inetPton6 (src : List UInt8) : Option (List UInt8) :=
  if src.head? = some colonChar then
    if src.tail.head? ≠ some colonChar then none else pton6From src.tail
  else pton6From src

/-- The address families. -/
inductive Family
  | inet
  | inet6
  | other
deriving DecidableEq

/-- `inet_pton`. -/
def inetPton (af : Family) (src : List UInt8) (sizeofDst : ℕ) : Option (List UInt8) :=
  match af with
  | .inet => if sizeofDst < 4 then none else inetPton4 src
  | .inet6 => if sizeofDst < 16 then none else inetPton6 src
  | .other => none

end Inet
end Rtcs
end Mqx
