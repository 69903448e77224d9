/-!
Characters as bytes and as sixteen-bit units. `encode` writes a character in the
shortest of the four forms; `decode` reads any byte sequence and puts one
replacement character for each longest stretch that begins a form without
completing it. The bounds on the second byte are what rules out overlong forms,
surrogates and values above the last character. In sixteen-bit units a character
beyond the first plane counts twice.
-/
namespace ExportIndex

namespace Utf8

def byte (n : Nat) : UInt8 := UInt8.ofNat n

def encode (c : Char) : List UInt8 :=
  let n := c.toNat
  if n < 0x80 then [byte n]
  else if n < 0x800 then [byte (0xC0 + n / 64), byte (0x80 + n % 64)]
  else if n < 0x10000 then
    [byte (0xE0 + n / 4096), byte (0x80 + n / 64 % 64), byte (0x80 + n % 64)]
  else
    [byte (0xF0 + n / 262144), byte (0x80 + n / 4096 % 64),
      byte (0x80 + n / 64 % 64), byte (0x80 + n % 64)]

def encodeAll (cs : List Char) : List UInt8 := cs.flatMap encode

def replacement : Char := Char.ofNat 0xFFFD

def isContinuation (b : UInt8) : Bool := 0x80 ≤ b.toNat && b.toNat < 0xC0

def secondOfThree (lead b : UInt8) : Bool :=
  if lead.toNat = 0xE0 then 0xA0 ≤ b.toNat && b.toNat < 0xC0
  else if lead.toNat = 0xED then 0x80 ≤ b.toNat && b.toNat < 0xA0
  else isContinuation b

def secondOfFour (lead b : UInt8) : Bool :=
  if lead.toNat = 0xF0 then 0x90 ≤ b.toNat && b.toNat < 0xC0
  else if lead.toNat = 0xF4 then 0x80 ≤ b.toNat && b.toNat < 0x90
  else isContinuation b

def payload (b : UInt8) : Nat := b.toNat % 64

def decode : List UInt8 → List Char
  | [] => []
  | a :: rest =>
    if a.toNat < 0x80 then Char.ofNat a.toNat :: decode rest
    else if 0xC2 ≤ a.toNat ∧ a.toNat < 0xE0 then
      match rest with
      | b :: rest =>
        if isContinuation b then
          Char.ofNat (a.toNat % 32 * 64 + payload b) :: decode rest
        else replacement :: decode (b :: rest)
      | [] => [replacement]
    else if 0xE0 ≤ a.toNat ∧ a.toNat < 0xF0 then
      match rest with
      | b :: rest =>
        if secondOfThree a b then
          match rest with
          | c :: rest =>
            if isContinuation c then
              Char.ofNat (a.toNat % 16 * 4096 + payload b * 64 + payload c) :: decode rest
            else replacement :: decode (c :: rest)
          | [] => [replacement]
        else replacement :: decode (b :: rest)
      | [] => [replacement]
    else if 0xF0 ≤ a.toNat ∧ a.toNat < 0xF5 then
      match rest with
      | b :: rest =>
        if secondOfFour a b then
          match rest with
          | c :: rest =>
            if isContinuation c then
              match rest with
              | d :: rest =>
                if isContinuation d then
                  Char.ofNat (a.toNat % 8 * 262144 + payload b * 4096 + payload c * 64
                    + payload d) :: decode rest
                else replacement :: decode (d :: rest)
              | [] => [replacement]
            else replacement :: decode (c :: rest)
          | [] => [replacement]
        else replacement :: decode (b :: rest)
      | [] => [replacement]
    else replacement :: decode rest

theorem toNat_byte {n : Nat} (h : n < 256) : (byte n).toNat = n := by
  simp [byte, Nat.mod_eq_of_lt h]

theorem isContinuation_byte {n : Nat} (h : n < 64) : isContinuation (byte (0x80 + n)) = true := by
  simp only [isContinuation, toNat_byte (show 0x80 + n < 256 by omega), Bool.and_eq_true,
    decide_eq_true_eq]
  omega

theorem payload_byte {n : Nat} (h : n < 64) : payload (byte (0x80 + n)) = n := by
  simp only [payload, toNat_byte (show 0x80 + n < 256 by omega)]
  omega

theorem decode_encode_two {n : Nat} (low : 0x80 ≤ n) (high : n < 0x800) (rest : List UInt8) :
    decode (byte (0xC0 + n / 64) :: byte (0x80 + n % 64) :: rest) =
      Char.ofNat n :: decode rest := by
  have lead : (byte (0xC0 + n / 64)).toNat = 0xC0 + n / 64 := toNat_byte (by omega)
  rw [decode.eq_def]
  dsimp only
  rw [if_neg (by omega), if_pos (by omega)]
  simp only [isContinuation_byte (show n % 64 < 64 by omega), ↓reduceIte, lead,
    payload_byte (show n % 64 < 64 by omega)]
  rw [show (0xC0 + n / 64) % 32 * 64 + n % 64 = n by omega]

theorem decode_encode_three {n : Nat} (low : 0x800 ≤ n) (high : n < 0x10000)
    (valid : n < 0xD800 ∨ 0xDFFF < n) (rest : List UInt8) :
    decode (byte (0xE0 + n / 4096) :: byte (0x80 + n / 64 % 64) :: byte (0x80 + n % 64) :: rest) =
      Char.ofNat n :: decode rest := by
  have lead : (byte (0xE0 + n / 4096)).toNat = 0xE0 + n / 4096 := toNat_byte (by omega)
  have next : (byte (0x80 + n / 64 % 64)).toNat = 0x80 + n / 64 % 64 := toNat_byte (by omega)
  have second : secondOfThree (byte (0xE0 + n / 4096)) (byte (0x80 + n / 64 % 64)) = true := by
    simp only [secondOfThree, lead, next, isContinuation_byte (show n / 64 % 64 < 64 by omega)]
    split
    · simp only [Bool.and_eq_true, decide_eq_true_eq]
      omega
    · split
      · simp only [Bool.and_eq_true, decide_eq_true_eq]
        omega
      · rfl
  rw [decode.eq_def]
  dsimp only
  rw [if_neg (by omega), if_neg (by omega), if_pos (by omega)]
  simp only [second, isContinuation_byte (show n % 64 < 64 by omega), ↓reduceIte, lead,
    payload_byte (show n / 64 % 64 < 64 by omega), payload_byte (show n % 64 < 64 by omega)]
  rw [show (0xE0 + n / 4096) % 16 * 4096 + n / 64 % 64 * 64 + n % 64 = n by omega]

theorem decode_encode_four {n : Nat} (low : 0x10000 ≤ n) (high : n < 0x110000)
    (rest : List UInt8) :
    decode (byte (0xF0 + n / 262144) :: byte (0x80 + n / 4096 % 64) ::
        byte (0x80 + n / 64 % 64) :: byte (0x80 + n % 64) :: rest) =
      Char.ofNat n :: decode rest := by
  have lead : (byte (0xF0 + n / 262144)).toNat = 0xF0 + n / 262144 := toNat_byte (by omega)
  have next : (byte (0x80 + n / 4096 % 64)).toNat = 0x80 + n / 4096 % 64 := toNat_byte (by omega)
  have second : secondOfFour (byte (0xF0 + n / 262144)) (byte (0x80 + n / 4096 % 64)) = true := by
    simp only [secondOfFour, lead, next, isContinuation_byte (show n / 4096 % 64 < 64 by omega)]
    split
    · simp only [Bool.and_eq_true, decide_eq_true_eq]
      omega
    · split
      · simp only [Bool.and_eq_true, decide_eq_true_eq]
        omega
      · rfl
  rw [decode.eq_def]
  dsimp only
  rw [if_neg (by omega), if_neg (by omega), if_neg (by omega), if_pos (by omega)]
  simp only [second, isContinuation_byte (show n / 64 % 64 < 64 by omega),
    isContinuation_byte (show n % 64 < 64 by omega), ↓reduceIte, lead,
    payload_byte (show n / 4096 % 64 < 64 by omega), payload_byte (show n / 64 % 64 < 64 by omega),
    payload_byte (show n % 64 < 64 by omega)]
  rw [show (0xF0 + n / 262144) % 8 * 262144 + n / 4096 % 64 * 4096 + n / 64 % 64 * 64 + n % 64 = n
    by omega]

theorem decode_encode_append (c : Char) (rest : List UInt8) :
    decode (encode c ++ rest) = c :: decode rest := by
  have valid : c.toNat < 0xD800 ∨ 0xDFFF < c.toNat ∧ c.toNat < 0x110000 := c.valid
  simp only [encode]
  split
  · rename_i one
    rw [List.singleton_append, decode.eq_def]
    dsimp only
    rw [toNat_byte (by omega), if_pos one, Char.ofNat_toNat]
  · split
    · exact (decode_encode_two (by omega) (by omega) rest).trans (by rw [Char.ofNat_toNat])
    · split
      · exact (decode_encode_three (by omega) (by omega) (by omega) rest).trans
          (by rw [Char.ofNat_toNat])
      · exact (decode_encode_four (by omega) (by omega) rest).trans (by rw [Char.ofNat_toNat])

theorem decode_encodeAll (cs : List Char) : decode (encodeAll cs) = cs := by
  induction cs with
  | nil => rfl
  | cons c cs ih =>
    rw [encodeAll, List.flatMap_cons, decode_encode_append]
    exact congrArg (c :: ·) ih

end Utf8

namespace Units

def width (c : Char) : Nat := if c.toNat < 0x10000 then 1 else 2

def total : List Char → Nat
  | [] => 0
  | c :: cs => width c + total cs

def length (text : String) : Nat := total text.toList

end Units

end ExportIndex
