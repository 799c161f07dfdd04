import RttHttp.Text.Utf8

/-! # Route strings

The percent encoder, the request canonicaliser and the construction of published
routes, as `object_model.cpp` computes them. The canonicaliser walks the target
by index.
-/

namespace RttHttp.Route

def slash : UInt8 := 0x2f
def percent : UInt8 := 0x25
def question : UInt8 := 0x3f
def hash : UInt8 := 0x23
def backslash : UInt8 := 0x5c

def validName (name : Bytes) : Bool :=
  !name.isEmpty && name.length ≤ 1024 && name ≠ bytes "." && name ≠ bytes ".." &&
    !name.contains 0 && validUtf8 name

def unreserved (c : UInt8) : Bool :=
  (0x41 ≤ c && c ≤ 0x5a) || (0x61 ≤ c && c ≤ 0x7a) || (0x30 ≤ c && c ≤ 0x39) ||
    c == 0x2d || c == 0x2e || c == 0x5f || c == 0x7e

/-- The value of a hexadecimal digit, or -1. -/
def hex (c : UInt8) : Int :=
  if 0x30 ≤ c ∧ c ≤ 0x39 then c.toNat - 0x30
  else if 0x41 ≤ c ∧ c ≤ 0x46 then c.toNat - 0x41 + 10
  else if 0x61 ≤ c ∧ c ≤ 0x66 then c.toNat - 0x61 + 10
  else -1

/-- `digits[n]` for `n < 16`. -/
def digit (n : UInt8) : UInt8 := if n < 10 then 0x30 + n else 0x41 + (n - 10)

def encodeByte (c : UInt8) : Bytes :=
  if unreserved c then [c] else [percent, digit (c >>> 4), digit (c &&& 15)]

def encodeSegment (name : Bytes) : Bytes := name.flatMap encodeByte

/-- The byte that two hexadecimal digits stand for. -/
def decodePair (high low : UInt8) : UInt8 := UInt8.ofNat (hex high * 16 + hex low).toNat

/-- The inner loop of `canonicalRequestPath`: decode the bytes from `i` up to
`stop`. `none` is the early `return false`. -/
def decodeLoop (target : Bytes) (stop : Nat) :
    (fuel i : Nat) → Bytes → Except Fault (Option Bytes)
  | 0, i, decoded => if i < stop then .error .outOfFuel else .ok (some decoded)
  | fuel + 1, i, decoded =>
      if i < stop then
        match byteAt target i with
        | .error fault => .error fault
        | .ok c =>
            if c = percent then
              if stop - i < 3 then .ok none
              else match byteAt target (i + 1), byteAt target (i + 2) with
                | .ok high, .ok low =>
                    if hex high < 0 ∨ hex low < 0 then .ok none
                    else decodeLoop target stop fuel (i + 3) (decoded ++ [decodePair high low])
                | _, _ => .error .outOfRange
            else if c ≤ 0x20 ∨ c = 0x7f ∨ c = backslash then .ok none
            else decodeLoop target stop fuel (i + 1) (decoded ++ [c])
      else .ok (some decoded)

/-- The outer loop of `canonicalRequestPath`, one segment a round. -/
def segmentLoop (target : Bytes) : (fuel start : Nat) → Bytes → Except Fault (Option Bytes)
  | 0, start, path => if start ≤ target.length then .error .outOfFuel else .ok (some path)
  | fuel + 1, start, path =>
      if start ≤ target.length then
        let stop := (findFrom target slash start).getD target.length
        match decodeLoop target stop target.length start [] with
        | .error fault => .error fault
        | .ok none => .ok none
        | .ok (some decoded) =>
            if validName decoded then
              let path := path ++ slash :: encodeSegment decoded
              if stop = target.length then .ok (some path)
              else segmentLoop target fuel (stop + 1) path
            else .ok none
      else .ok (some path)

/-- `canonicalRequestPath` with the faults its loops could run into. -/
def canonicalLoop (target : Bytes) : Except Fault (Option Bytes) :=
  if target.head? ≠ some slash ∨ 8192 < target.length ∨ target.contains hash then .ok none
  else
    let origin := target.take ((findFrom target question 0).getD target.length)
    segmentLoop origin (origin.length + 1) 1 []

/-- The canonical path of a request target, or `none` when it is refused. -/
def canonicalRequestPath (target : Bytes) : Option Bytes :=
  match canonicalLoop target with
  | .ok path => path
  | .error _ => none

def root : Bytes := bytes "/api/v1/components"

def childPath (parent name : Bytes) : Except String Bytes :=
  if validName name then
    let result := parent ++ slash :: encodeSegment name
    if 4096 < result.length then .error "published RTT route exceeds the supported URL length"
    else .ok result
  else .error "RTT name cannot be addressed by a browser URL"

end RttHttp.Route
