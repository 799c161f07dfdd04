import RttHttp.Text.Bytes

/-! # UTF-8 validation

`validUtf8` walks the text by index: one lead byte, then as many continuation
bytes as it announces, then a range check on the code point.
-/

namespace RttHttp

/-- The payload, the number of continuation bytes and the smallest code point of
a lead byte from `0xc2` on. -/
def leadByte (first : UInt8) : Option (Nat × Nat × Nat) :=
  if 0xc2 ≤ first ∧ first ≤ 0xdf then some ((first &&& 0x1f).toNat, 1, 0x80)
  else if 0xe0 ≤ first ∧ first ≤ 0xef then some ((first &&& 0x0f).toNat, 2, 0x800)
  else if 0xf0 ≤ first ∧ first ≤ 0xf4 then some ((first &&& 0x07).toNat, 3, 0x10000)
  else none

/-- `while (count--)`: the position and the code point after the continuation
bytes, or `none` when one of them is not a continuation byte. -/
def continuationBytes (text : Bytes) :
    (count index value : Nat) → Except Fault (Option (Nat × Nat))
  | 0, index, value => .ok (some (index, value))
  | count + 1, index, value =>
      match byteAt text index with
      | .error fault => .error fault
      | .ok next =>
          if next &&& 0xc0 ≠ 0x80 then .ok none
          else continuationBytes text count (index + 1) ((value <<< 6) ||| (next &&& 0x3f).toNat)

/-- The outer loop of `validUtf8` from position `index`. -/
def validUtf8Loop (text : Bytes) : (fuel index : Nat) → Except Fault Bool
  | 0, index => if index < text.length then .error .outOfFuel else .ok true
  | fuel + 1, index =>
      if index < text.length then
        match byteAt text index with
        | .error fault => .error fault
        | .ok first =>
            if first < 0x80 then validUtf8Loop text fuel (index + 1)
            else match leadByte first with
              | none => .ok false
              | some (value, count, minimum) =>
                  if text.length - (index + 1) < count then .ok false
                  else match continuationBytes text count (index + 1) value with
                    | .error fault => .error fault
                    | .ok none => .ok false
                    | .ok (some (index, value)) =>
                        if value < minimum ∨ 0x10ffff < value ∨
                            (0xd800 ≤ value ∧ value ≤ 0xdfff) then .ok false
                        else validUtf8Loop text fuel index
      else .ok true

def validUtf8 (text : Bytes) : Bool :=
  match validUtf8Loop text text.length 0 with
  | .ok valid => valid
  | .error _ => false

theorem validUtf8Loop_ascii {text : Bytes} (h : ∀ c ∈ text, c < 0x80) :
    ∀ fuel index, text.length ≤ index + fuel → validUtf8Loop text fuel index = .ok true := by
  intro fuel
  induction fuel with
  | zero =>
      intro index hlength
      have hdone : ¬ index < text.length := by omega
      simp [validUtf8Loop, hdone]
  | succ fuel ih =>
      intro index hlength
      unfold validUtf8Loop
      split
      next hindex =>
        have hbyte : byteAt text index = .ok text[index] := by
          simp [byteAt, List.getElem?_eq_getElem hindex]
        rw [hbyte]
        simp only [h _ (List.getElem_mem hindex), if_true]
        exact ih (index + 1) (by omega)
      next => rfl

/-- ASCII is UTF-8. -/
theorem validUtf8_ascii {text : Bytes} (h : ∀ c ∈ text, c < 0x80) : validUtf8 text = true := by
  simp [validUtf8, validUtf8Loop_ascii h text.length 0 (by omega)]

end RttHttp
