import ApexComments.Text.Quoted

/-!
# UTF-8

Texts become bytes and bytes texts. Surrogates have no bytes: a source is written without them, and a
document that holds one is not written; but in the name of a file each stands for a byte that is no UTF-8.
Sources are read leniently: at each byte either a whole
well-formed character starts, or the byte is dropped. A continuation byte starts no character, so
this drops exactly the ill-formed stretches and keeps the rest. Documents and variable files are read
strictly: the first ill-formed stretch is reported with its place and cause.
-/
namespace ApexComments.Text

/-- The bytes of one character. -/
def utf8Char (c : Char) : List UInt8 :=
  let n := c.toNat
  if n < 0x80 then [.ofNat n]
  else if n < 0x800 then [.ofNat (0xC0 + n / 64), .ofNat (0x80 + n % 64)]
  else if n < 0x10000 then
    [.ofNat (0xE0 + n / 4096), .ofNat (0x80 + n / 64 % 64), .ofNat (0x80 + n % 64)]
  else
    [.ofNat (0xF0 + n / 262144), .ofNat (0x80 + n / 4096 % 64), .ofNat (0x80 + n / 64 % 64),
      .ofNat (0x80 + n % 64)]

/-- The bytes of a code point: none where it is no character. -/
def utf8Point : CodePoint → List UInt8
  | .char c => utf8Char c
  | .surrogate _ => []

/-- The bytes of a text, surrogates dropped. -/
def utf8 (text : Text) : List UInt8 := text.flatMap utf8Point

/-- The text less its surrogates. -/
def withoutSurrogates (text : Text) : Text := text.filter fun c => !c.isSurrogate

@[simp] theorem utf8Point_char (c : Char) : utf8Point (.char c) = utf8Char c := rfl

@[simp] theorem utf8Point_surrogate (offset : Fin 0x800) : utf8Point (.surrogate offset) = [] := rfl

/-- Surrogates side by side in a text, which has no bytes because of them. -/
structure EncodeError where
  position : Nat
  first : CodePoint
  count : Nat
  deriving DecidableEq, Repr

/-- The words for surrogates at their place. -/
def EncodeError.message (error : EncodeError) : Text :=
  let place :=
    if error.count = 1 then "character " ++ quoted [error.first] ++ " in position " ++ ofNat error.position
    else "characters in position " ++ ofNat error.position ++ "-" ++ ofNat (error.position + error.count - 1)
  "'utf-8' codec can't encode " ++ place ++ ": surrogates not allowed"

/-- The first surrogate of a text that is not among the spared ones, with those right after it;
`position` is that of the next code point. -/
def encodeFault? (spared : CodePoint → Bool) (position : Nat) : Text → Option EncodeError
  | [] => none
  | c :: rest =>
    if c.isSurrogate && !spared c then
      some ⟨position, c, 1 + (rest.takeWhile CodePoint.isSurrogate).length⟩
    else encodeFault? spared (position + 1) rest

/-- The bytes of a text, or its first surrogates. -/
def encodeStrict (text : Text) : Except EncodeError (List UInt8) :=
  match encodeFault? (fun _ => false) 0 text with
  | some error => .error error
  | none => .ok (utf8 text)

/-- Whether the code point stands for a byte that is no UTF-8, as in the name of a file. -/
def isEscapedByte : CodePoint → Bool
  | .char _ => false
  | .surrogate offset => 0x480 ≤ offset.val && offset.val ≤ 0x4FF

/-- The bytes of a code point in the name of a file. -/
def nameBytesOf : CodePoint → List UInt8
  | .char c => utf8Char c
  | .surrogate offset => [.ofNat offset]

/-- The bytes of the name of a file, or of a path. -/
def nameBytes (name : Text) : List UInt8 := name.flatMap nameBytesOf

/-- A continuation byte. -/
def isTail (b : UInt8) : Bool := 0x80 ≤ b.toNat && b.toNat ≤ 0xBF

/-- Whether the byte may stand second after the lead byte: no overlong form, no surrogate and
nothing above the last code point. -/
def isSecond (lead second : UInt8) : Bool :=
  isTail second &&
    !(lead.toNat == 0xE0 && second.toNat < 0xA0) && !(lead.toNat == 0xED && 0xA0 ≤ second.toNat) &&
    !(lead.toNat == 0xF0 && second.toNat < 0x90) && !(lead.toNat == 0xF4 && 0x90 ≤ second.toNat)

/-- The number of continuation bytes that a lead byte asks for; none where the byte is no lead. -/
def tailsAfter (lead : UInt8) : Option Nat :=
  let n := lead.toNat
  if n < 0x80 then some 0
  else if n < 0xC2 then none
  else if n < 0xE0 then some 1
  else if n < 0xF0 then some 2
  else if n < 0xF5 then some 3
  else none

/-- The character that starts with the lead byte, with the number of bytes that it takes from those
after the lead. -/
def headChar? (lead : UInt8) (after : List UInt8) : Option (Char × Nat) :=
  match tailsAfter lead, after with
  | some 0, _ => some (.ofNat lead.toNat, 0)
  | some 1, b :: _ =>
    if isSecond lead b then some (.ofNat ((lead.toNat - 0xC0) * 64 + (b.toNat - 0x80)), 1) else none
  | some 2, b :: c :: _ =>
    if isSecond lead b && isTail c then
      some (.ofNat ((lead.toNat - 0xE0) * 4096 + (b.toNat - 0x80) * 64 + (c.toNat - 0x80)), 2)
    else none
  | some 3, b :: c :: d :: _ =>
    if isSecond lead b && isTail c && isTail d then
      some (.ofNat ((lead.toNat - 0xF0) * 262144 + (b.toNat - 0x80) * 4096 +
        (c.toNat - 0x80) * 64 + (d.toNat - 0x80)), 3)
    else none
  | _, _ => none

/-- The text of the bytes after `taken` more bytes of the character read last. -/
def decodeAfter (taken : Nat) : List UInt8 → Text
  | [] => []
  | b :: rest =>
    match taken with
    | more + 1 => decodeAfter more rest
    | 0 => match headChar? b rest with
      | some (c, tails) => .char c :: decodeAfter tails rest
      | none => decodeAfter 0 rest

/-- Reads on with the characters read already, last first; long sources are read without nesting, and
an ASCII byte is taken at once. -/
def decodeOnto (read : Text) (taken : Nat) : List UInt8 → Text
  | [] => read.reverse
  | b :: rest =>
    match taken with
    | more + 1 => decodeOnto read more rest
    | 0 =>
      if b.toNat < 0x80 then decodeOnto (.char (.ofNat b.toNat) :: read) 0 rest
      else match headChar? b rest with
        | some (c, tails) => decodeOnto (.char c :: read) tails rest
        | none => decodeOnto read 0 rest

/-- The text of the bytes, ill-formed stretches dropped. -/
def decode (bytes : List UInt8) : Text := decodeOnto [] 0 bytes

theorem headChar?_of_lt {lead : UInt8} (ascii : lead.toNat < 0x80) (after : List UInt8) :
    headChar? lead after = some (.ofNat lead.toNat, 0) := by
  simp [headChar?, tailsAfter, ascii]

theorem decodeOnto_eq (read : Text) (taken : Nat) (bytes : List UInt8) :
    decodeOnto read taken bytes = read.reverse ++ decodeAfter taken bytes := by
  induction bytes generalizing read taken with
  | nil => simp [decodeOnto, decodeAfter]
  | cons b rest ih =>
    cases taken with
    | succ more => simp [decodeOnto, decodeAfter, ih]
    | zero =>
      by_cases ascii : b.toNat < 0x80
      · simp [decodeOnto, decodeAfter, ascii, headChar?_of_lt ascii, ih]
      · simp only [decodeOnto, decodeAfter, ascii, if_false]
        split <;> simp [ih]

theorem decode_eq_decodeAfter (bytes : List UInt8) : decode bytes = decodeAfter 0 bytes := by
  simp [decode, decodeOnto_eq]

/-- Why bytes are no text. -/
inductive Utf8Fault where
  /-- No character starts with this byte. -/
  | badStart (byte : UInt8)
  /-- After `good` bytes of a character comes one that cannot go on with it. -/
  | badTail (byte : UInt8) (good : Nat)
  /-- The bytes end inside a character of which `good` are there. -/
  | cutOff (byte : UInt8) (good : Nat)
  deriving DecidableEq, Repr

/-- What a fault is called. -/
def Utf8Fault.label : Utf8Fault → Text
  | badStart _ => "invalid start byte"
  | badTail _ _ => "invalid continuation byte"
  | cutOff _ _ => "unexpected end of data"

/-- The first byte of a fault and the number of bytes that it takes. -/
def Utf8Fault.extent : Utf8Fault → UInt8 × Nat
  | badStart byte => (byte, 1)
  | badTail byte good => (byte, good)
  | cutOff byte good => (byte, good)

/-- A fault at the offset of its first byte. -/
structure Utf8Error where
  position : Nat
  fault : Utf8Fault
  deriving DecidableEq, Repr

/-- The words for a fault at its place. -/
def Utf8Error.message (error : Utf8Error) : Text :=
  let (byte, width) := error.fault.extent
  let place :=
    if width = 1 then "byte 0x" ++ hex 2 byte.toNat ++ " in position " ++ ofNat error.position
    else "bytes in position " ++ ofNat error.position ++ "-" ++ ofNat (error.position + width - 1)
  "'utf-8' codec can't decode " ++ place ++ ": " ++ error.fault.label

/-- The fault at a byte with which no whole character starts. -/
def headFault (lead : UInt8) (after : List UInt8) : Utf8Fault :=
  match tailsAfter lead with
  | none => .badStart lead
  | some tails =>
    match after.take tails with
    | [] => .cutOff lead 1
    | b :: later =>
      if !isSecond lead b then .badTail lead 1
      else
        let good := 2 + (later.takeWhile isTail).length
        if good < 2 + later.length then .badTail lead good else .cutOff lead good

/-- Reads strictly; `position` is the offset of the next byte. -/
def decodeStrictAfter (position taken : Nat) : List UInt8 → Except Utf8Error Text
  | [] => .ok []
  | b :: rest =>
    match taken with
    | more + 1 => decodeStrictAfter (position + 1) more rest
    | 0 => match headChar? b rest with
      | some (c, tails) => (decodeStrictAfter (position + 1) tails rest).map (.char c :: ·)
      | none => .error ⟨position, headFault b rest⟩

/-- The text of the bytes, or the place and cause of the first fault. -/
def decodeStrict (bytes : List UInt8) : Except Utf8Error Text := decodeStrictAfter 0 0 bytes

end ApexComments.Text
