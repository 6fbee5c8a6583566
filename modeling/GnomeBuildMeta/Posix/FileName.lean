import Mathlib.Data.List.Basic

/-!
# File names as Python has them

A file name is a list of bytes.  Python decodes it as UTF-8 and puts a lone
surrogate for every byte that it cannot decode, so that no name is lost.
-/

namespace GnomeBuildMeta.Posix

abbrev Bytes := List UInt8

/-- The byte of `/`. -/
def slash : UInt8 := 0x2f

/-- What can name an entry of a directory. -/
structure FileName where
  bytes : Bytes
  nonempty : bytes ≠ []
  noNul : 0 ∉ bytes
  noSlash : slash ∉ bytes
  notCur : bytes ≠ [0x2e]
  notUp : bytes ≠ [0x2e, 0x2e]
  deriving DecidableEq

/-- A character of a string that comes from a file name. -/
inductive PyChar where
  | scalar (c : Char)
  /-- The lone surrogate for a byte that is no UTF-8. -/
  | surrogate (byte : UInt8)
  deriving DecidableEq, Repr

abbrev PyString := List PyChar

namespace PyChar

/-- `ord` -/
def ord : PyChar → Nat
  | .scalar c => c.toNat
  | .surrogate byte => 0xdc00 + byte.toNat

def isScalar : PyChar → Bool
  | .scalar _ => true
  | .surrogate _ => false

/-- The bytes that a character stands for. -/
def encode : PyChar → Bytes
  | .scalar c => String.utf8EncodeChar c
  | .surrogate byte => [byte]

end PyChar

/-- `os.fsencode` -/
def fsencode (text : PyString) : Bytes := text.flatMap PyChar.encode

def fsdecodeFrom : Nat → Bytes → PyString
  | 0, _ => []
  | _, [] => []
  | fuel + 1, byte :: rest =>
      match ByteArray.utf8DecodeChar? ⟨⟨byte :: rest⟩⟩ 0 with
      | some c => .scalar c :: fsdecodeFrom fuel (rest.drop (c.utf8Size - 1))
      | none => .surrogate byte :: fsdecodeFrom fuel rest

/-- `os.fsdecode`; every character takes at least one byte. -/
def fsdecode (bytes : Bytes) : PyString := fsdecodeFrom bytes.length bytes

theorem fsencode_cons (m : PyChar) (text : PyString) :
    fsencode (m :: text) = m.encode ++ fsencode text := rfl

/-- A decoded character has the bytes that were read for it. -/
theorem utf8EncodeChar_of_decode {bytes : Bytes} {c : Char}
    (decoded : ByteArray.utf8DecodeChar? ⟨⟨bytes⟩⟩ 0 = some c) :
    String.utf8EncodeChar c = bytes.take c.utf8Size := by
  have read := String.toByteArray_utf8EncodeChar_of_utf8DecodeChar?_eq_some decoded
  have data := congrArg (fun array : ByteArray => array.data.toList) read
  simpa using data

theorem fsencode_fsdecodeFrom {fuel : Nat} {bytes : Bytes} (enough : bytes.length ≤ fuel) :
    fsencode (fsdecodeFrom fuel bytes) = bytes := by
  induction fuel generalizing bytes with
  | zero =>
      rw [List.length_eq_zero_iff.mp (Nat.le_zero.mp enough)]
      rfl
  | succ fuel ih =>
      cases bytes with
      | nil => rfl
      | cons byte rest =>
          have shorter : rest.length ≤ fuel := by simpa using enough
          simp only [fsdecodeFrom]
          cases decoded : ByteArray.utf8DecodeChar? ⟨⟨byte :: rest⟩⟩ 0 with
          | none =>
              change byte :: fsencode (fsdecodeFrom fuel rest) = byte :: rest
              rw [ih shorter]
          | some c =>
              have sized : c.utf8Size = c.utf8Size - 1 + 1 := by
                have positive : 0 < c.utf8Size := c.utf8Size_pos
                omega
              have here : String.utf8EncodeChar c = byte :: rest.take (c.utf8Size - 1) := by
                rw [utf8EncodeChar_of_decode decoded, sized, List.take_succ_cons,
                  Nat.add_sub_cancel]
              have later := ih (show (rest.drop (c.utf8Size - 1)).length ≤ fuel by
                rw [List.length_drop]
                omega)
              rw [fsencode_cons, later, PyChar.encode, here, List.cons_append,
                List.take_append_drop]

/-- Decoding loses nothing. -/
theorem fsencode_fsdecode (bytes : Bytes) : fsencode (fsdecode bytes) = bytes :=
  fsencode_fsdecodeFrom (Nat.le_refl _)

example : fsdecode [0x61, 0xc3, 0xa9, 0xff] = [.scalar 'a', .scalar 'é', .surrogate 0xff] := by
  decide

end GnomeBuildMeta.Posix
