import Mqx.Rtcs.InetParse

/-!
# Addresses written as text

Model of `inet_ntop.c` on a little-endian host. The result is the text without its NUL, `none`
where the source returns NULL.
-/

namespace Mqx
namespace Rtcs
namespace Inet

/-- `sizeof "ffff:ffff:ffff:ffff:ffff:ffff:255.255.255.255"`. -/
def tmpSize : ℕ := 46

/-- The digits that `%x` and `%u` print. -/
def digitChar (d : ℕ) : UInt8 := xdigitsL.getD d 0

/-- `sprintf` with `"%u"`. -/
def printU (n : ℕ) : List UInt8 := printNumeral 10 digitChar n

/-- `sprintf` with `"%x"`. -/
def printX (n : ℕ) : List UInt8 := printNumeral 16 digitChar n

/-- The bytes of an address of version 6. -/
structure In6Addr where
  s6Addr : List UInt8
  length_eq : s6Addr.length = 16

/-- `sprintf` with `"%u.%u.%u.%u"`. -/
def printOctets (src : List UInt8) : List UInt8 :=
  printU (src.getD 0 0).toNat ++ dotChar :: printU (src.getD 1 0).toNat ++
    dotChar :: printU (src.getD 2 0).toNat ++ dotChar :: printU (src.getD 3 0).toNat

/-- `inet_ntop4`. -/
def inetNtop4 (hSrc : List UInt8) (size : ℕ) : Option (List UInt8) :=
  let src := mqxHtonl (copyLong hSrc)
  let tmp := printOctets src
  if tmp.length ≤ 0 ∨ tmp.length ≥ size then none else some tmp

/-- `best` and `cur`. No base stands for the base -1. -/
structure ZeroRun where
  base : Option ℕ
  len : ℕ

structure Scan where
  best : ZeroRun
  cur : ZeroRun

/-- The words of an address after `i` rounds of the loop that fills them. -/
def fillWords (src : List UInt8) : ℕ → ℕ → ℕ
  | 0 => fun _ => 0
  | i + 1 =>
    let words := fillWords src i
    Function.update words (i / 2)
      (words (i / 2) ||| (src.getD i 0).toNat <<< ((1 - i % 2) <<< 3))

def words (src : List UInt8) : ℕ → ℕ := fillWords src 16

/-- The longer one of the two runs is kept. -/
def Scan.keepBest (st : Scan) : Scan :=
  if st.best.base = none ∨ st.cur.len > st.best.len then { st with best := st.cur } else st

/-- One round of the search for the longest run of zero words. -/
def Scan.word (st : Scan) (i w : ℕ) : Scan :=
  if w = 0 then
    if st.cur.base = none then { st with cur := ⟨some i, 1⟩ }
    else { st with cur := ⟨st.cur.base, st.cur.len + 1⟩ }
  else if st.cur.base ≠ none then
    let st := st.keepBest
    { st with cur := ⟨none, st.cur.len⟩ }
  else st

def scan (words : ℕ → ℕ) : ℕ → Scan
  | 0 => ⟨⟨none, 0⟩, ⟨none, 0⟩⟩
  | i + 1 => (scan words i).word i (words i)

/-- The run that the text leaves out. -/
def bestRun (words : ℕ → ℕ) : ZeroRun :=
  let st := scan words 8
  let st := if st.cur.base ≠ none then st.keepBest else st
  if st.best.base ≠ none ∧ st.best.len < 2 then ⟨none, st.best.len⟩ else st.best

/-- Inside the best run of zeros. -/
def ZeroRun.covers (best : ZeroRun) (i : ℕ) : Bool :=
  best.base.any fun base => base ≤ i ∧ i < base + best.len

/-- The test for an encapsulated address of version 4. -/
def encapsulated (words : ℕ → ℕ) (best : ZeroRun) (i : ℕ) : Prop :=
  i = 6 ∧ best.base = some 0 ∧
    (best.len = 6 ∨ best.len = 7 ∧ words 7 ≠ 1 ∨ best.len = 5 ∧ words 5 = 0xffff)

instance (words : ℕ → ℕ) (best : ZeroRun) (i : ℕ) : Decidable (encapsulated words best i) :=
  inferInstanceAs (Decidable (_ ∧ _))

/-- The loop that formats the words, with the rounds left and what `tmp` holds. -/
def fmtLoop (src : List UInt8) (words : ℕ → ℕ) (best : ZeroRun) :
    ℕ → List UInt8 → Option (List UInt8)
  | 0, tmp => some tmp
  | n + 1, tmp =>
    let i := 7 - n
    if best.covers i then
      fmtLoop src words best n (if best.base = some i then tmp ++ [colonChar] else tmp)
    else
      let tmp := if i ≠ 0 then tmp ++ [colonChar] else tmp
      if encapsulated words best i then
        match inetNtop4 (src.drop 12) (tmpSize - tmp.length) with
        | some text => some (tmp ++ text)
        | none => none
      else fmtLoop src words best n (tmp ++ printX (words i))

/-- What `inet_ntop6` puts into `tmp`, without the NUL. -/
def formatted (src : List UInt8) : Option (List UInt8) :=
  let best := bestRun (words src)
  match fmtLoop src (words src) best 8 [] with
  | some tmp => some (if best.base.any (fun base => base + best.len = 8) then tmp ++ [colonChar]
      else tmp)
  | none => none

/-- `inet_ntop6`. -/
def inetNtop6 (src : List UInt8) (size : ℕ) : Option (List UInt8) :=
  match formatted src with
  | some tmp => if tmp.length + 1 > size then none else some tmp
  | none => none

/-- `inet_ntop`. -/
def inetNtop (af : Family) (src : List UInt8) (size : ℕ) : Option (List UInt8) :=
  match af with
  | .inet => inetNtop4 src size
  | .inet6 => inetNtop6 src size
  | .other => none

end Inet
end Rtcs
end Mqx
