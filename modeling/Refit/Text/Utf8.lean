namespace Refit.Text

def replacement : Char := '\uFFFD'

def isTail (b : UInt8) : Bool := 0x80 ≤ b && b ≤ 0xBF

def secondRange (b : UInt8) : UInt8 × UInt8 :=
  if b = 0xE0 then (0xA0, 0xBF)
  else if b = 0xED then (0x80, 0x9F)
  else if b = 0xF0 then (0x90, 0xBF)
  else if b = 0xF4 then (0x80, 0x8F)
  else (0x80, 0xBF)

def isSecond (first b : UInt8) : Bool :=
  (secondRange first).1 ≤ b && b ≤ (secondRange first).2

def tailBits (b : UInt8) : Nat := b.toNat % 64

def firstChar (b : UInt8) (rest : List UInt8) : Char × Nat :=
  if b < 0x80 then (Char.ofNat b.toNat, 0)
  else if 0xC2 ≤ b && b ≤ 0xDF then
    match rest with
    | b₁ :: _ =>
      if isTail b₁ then (Char.ofNat (b.toNat % 32 * 64 + tailBits b₁), 1) else (replacement, 0)
    | [] => (replacement, 0)
  else if 0xE0 ≤ b && b ≤ 0xEF then
    match rest with
    | b₁ :: b₂ :: _ =>
      if isSecond b b₁ then
        if isTail b₂ then
          (Char.ofNat ((b.toNat % 16 * 64 + tailBits b₁) * 64 + tailBits b₂), 2)
        else (replacement, 1)
      else (replacement, 0)
    | [b₁] => (replacement, if isSecond b b₁ then 1 else 0)
    | [] => (replacement, 0)
  else if 0xF0 ≤ b && b ≤ 0xF4 then
    match rest with
    | b₁ :: more =>
      if isSecond b b₁ then
        match more with
        | b₂ :: b₃ :: _ =>
          if isTail b₂ then
            if isTail b₃ then
              (Char.ofNat
                (((b.toNat % 8 * 64 + tailBits b₁) * 64 + tailBits b₂) * 64 + tailBits b₃), 3)
            else (replacement, 2)
          else (replacement, 1)
        | [b₂] => (replacement, if isTail b₂ then 2 else 1)
        | [] => (replacement, 1)
      else (replacement, 0)
    | [] => (replacement, 0)
  else (replacement, 0)

/-- The first `skip` bytes belong to the character before. -/
def decodeFrom : (skip : Nat) → List UInt8 → List Char
  | _, [] => []
  | skip + 1, _ :: rest => decodeFrom skip rest
  | 0, b :: rest => (firstChar b rest).1 :: decodeFrom (firstChar b rest).2 rest

def decodeLossy (bytes : ByteArray) : String := String.ofList (decodeFrom 0 bytes.data.toList)

end Refit.Text
