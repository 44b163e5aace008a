/-!
# UTF-8

Encoding, and decoding that stops at the first fault and says where it is, which bytes it takes and
why. Overlong forms, surrogates and values above U+10FFFF are faults.
-/
namespace ParamLint.Utf8

def encode (cs : List Char) : List UInt8 := cs.flatMap String.utf8EncodeChar

inductive Reason
  | invalidStart
  | invalidContinuation
  | unexpectedEnd
deriving DecidableEq, Inhabited

structure Fault where
  position : Nat
  bytes : List UInt8
  reason : Reason
deriving DecidableEq, Inhabited

/-- A sequence that has begun: its bytes so far, the value so far, and for each byte still to come
the range it has to lie in. -/
structure Pending where
  bytes : List UInt8
  value : Nat
  ranges : List (Nat × Nat)

def continuation : Nat × Nat := (0x80, 0xBF)

/-- What a first byte from 0x80 on begins, if it may stand first. -/
def begin? (b : UInt8) : Option Pending :=
  let n := b.toNat
  if 0xC2 ≤ n ∧ n ≤ 0xDF then some ⟨[b], n - 0xC0, [continuation]⟩
  else if n = 0xE0 then some ⟨[b], 0, [(0xA0, 0xBF), continuation]⟩
  else if n = 0xED then some ⟨[b], 0xD, [(0x80, 0x9F), continuation]⟩
  else if 0xE1 ≤ n ∧ n ≤ 0xEF then some ⟨[b], n - 0xE0, [continuation, continuation]⟩
  else if n = 0xF0 then some ⟨[b], 0, [(0x90, 0xBF), continuation, continuation]⟩
  else if 0xF1 ≤ n ∧ n ≤ 0xF3 then
    some ⟨[b], n - 0xF0, [continuation, continuation, continuation]⟩
  else if n = 0xF4 then some ⟨[b], 4, [(0x80, 0x8F), continuation, continuation]⟩
  else none

/-- Decodes from byte `offset` on, inside the sequence `pending` if there is one. -/
def decodeFrom (offset : Nat) (pending : Option Pending) : List UInt8 → Except Fault (List Char)
  | [] =>
    match pending with
    | none => .ok []
    | some p => .error ⟨offset - p.bytes.length, p.bytes, .unexpectedEnd⟩
  | b :: rest =>
    match pending with
    | none =>
      if b.toNat < 0x80 then (decodeFrom (offset + 1) none rest).map (Char.ofNat b.toNat :: ·)
      else
        match begin? b with
        | none => .error ⟨offset, [b], .invalidStart⟩
        | some p => decodeFrom (offset + 1) (some p) rest
    | some p =>
      match p.ranges with
      | [] => .error ⟨offset, [b], .invalidStart⟩
      | (low, high) :: more =>
        if low ≤ b.toNat ∧ b.toNat ≤ high then
          let value := p.value * 0x40 + (b.toNat - 0x80)
          if more.isEmpty then (decodeFrom (offset + 1) none rest).map (Char.ofNat value :: ·)
          else decodeFrom (offset + 1) (some ⟨p.bytes ++ [b], value, more⟩) rest
        else .error ⟨offset - p.bytes.length, p.bytes, .invalidContinuation⟩

def decode (bytes : List UInt8) : Except Fault (List Char) := decodeFrom 0 none bytes

def Reason.message : Reason → String
  | invalidStart => "invalid start byte"
  | invalidContinuation => "invalid continuation byte"
  | unexpectedEnd => "unexpected end of data"

def hexByte (b : UInt8) : String :=
  String.ofList [Nat.digitChar (b.toNat / 16), Nat.digitChar (b.toNat % 16)]

def Fault.message (f : Fault) : String :=
  let place := match f.bytes with
    | [b] => s!"byte 0x{hexByte b} in position {f.position}"
    | bytes => s!"bytes in position {f.position}-{f.position + bytes.length - 1}"
  s!"'utf-8' codec can't decode {place}: {f.reason.message}"

end ParamLint.Utf8
