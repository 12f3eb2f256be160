import EcmaPhp.Text.Hex

/-! UTF-8: characters to bytes, and bytes to characters with every ill-formed stretch reported. -/
namespace EcmaPhp.Text.Utf8

def encode (text : List Char) : List UInt8 := text.flatMap String.utf8EncodeChar

/-- Why a stretch of bytes is no character. -/
inductive Fault where
  | start | continuation | truncated
  deriving DecidableEq, Repr

def Fault.message : Fault → String
  | .start => "invalid start byte"
  | .continuation => "invalid continuation byte"
  | .truncated => "unexpected end of data"

/-- A character, or a longest stretch of bytes that begins one and does not end it. -/
inductive Piece where
  | char (c : Char)
  | fault (start : Nat) (bytes : List UInt8) (why : Fault)
  deriving DecidableEq, Repr

/-- A character under way: its bytes so far, the bits they give, the number of bytes still owed
and the range of the next one. -/
structure Pending where
  start : Nat
  bytes : List UInt8
  bits : Nat
  owed : Nat
  low : UInt8 := 0x80
  high : UInt8 := 0xBF

/-- What a byte begins when no character is under way. -/
def lead? (pos : Nat) (b : UInt8) : Option Pending :=
  if b < 0xC2 then none
  else if b < 0xE0 then some { start := pos, bytes := [b], bits := b.toNat % 32, owed := 1 }
  else if b < 0xF0 then
    some { start := pos, bytes := [b], bits := b.toNat % 16, owed := 2
           low := if b = 0xE0 then 0xA0 else 0x80, high := if b = 0xED then 0x9F else 0xBF }
  else if b < 0xF5 then
    some { start := pos, bytes := [b], bits := b.toNat % 8, owed := 3
           low := if b = 0xF0 then 0x90 else 0x80, high := if b = 0xF4 then 0x8F else 0xBF }
  else none

def Pending.extend (p : Pending) (b : UInt8) : Pending :=
  { start := p.start
    bytes := p.bytes ++ [b]
    bits := p.bits * 64 + b.toNat % 64
    owed := p.owed - 1 }

def Pending.fault (p : Pending) (why : Fault) : Piece := .fault p.start p.bytes why

/-- A byte where no character is under way: the pieces it completes and what it begins. -/
def begin (pos : Nat) (b : UInt8) : List Piece × Option Pending :=
  if b < 0x80 then ([.char (Char.ofNat b.toNat)], none)
  else
    match lead? pos b with
    | some p => ([], some p)
    | none => ([.fault pos [b] .start], none)

def next (pos : Nat) (pending : Option Pending) (b : UInt8) : List Piece × Option Pending :=
  match pending with
  | none => begin pos b
  | some p =>
    if p.low ≤ b && b ≤ p.high then
      let q := p.extend b
      if q.owed = 0 then ([.char (Char.ofNat q.bits)], none) else ([], some q)
    else
      let (pieces, rest) := begin pos b
      (p.fault .continuation :: pieces, rest)

def piecesFrom (pos : Nat) (pending : Option Pending) : List UInt8 → List Piece
  | [] => match pending with
    | none => []
    | some p => [p.fault .truncated]
  | b :: rest =>
    let (pieces, pending') := next pos pending b
    pieces ++ piecesFrom (pos + 1) pending' rest

/-- The bytes cut into characters and ill-formed stretches. -/
def pieces (bytes : List UInt8) : List Piece := piecesFrom 0 none bytes

def Piece.orReplacement : Piece → Char
  | .char c => c
  | .fault .. => '�'

/-- The text of the bytes, with one replacement character for each ill-formed stretch. -/
def decodeLossy (bytes : List UInt8) : List Char := (pieces bytes).map Piece.orReplacement

/-- The first ill-formed stretch with its position and the reason. -/
structure DecodeFault where
  start : Nat
  bytes : List UInt8
  why : Fault
  deriving DecidableEq, Repr

def collect : List Piece → Except DecodeFault (List Char)
  | [] => .ok []
  | .char c :: rest => (collect rest).map (c :: ·)
  | .fault start bytes why :: _ => .error ⟨start, bytes, why⟩

/-- The text of the bytes, if all of them are well formed. -/
def decode (bytes : List UInt8) : Except DecodeFault (List Char) := collect (pieces bytes)

def DecodeFault.message (f : DecodeFault) : String :=
  match f.bytes with
  | [b] =>
    let hex := String.ofList (hexPadded 2 b.toNat)
    s!"'utf-8' codec can't decode byte 0x{hex} in position {f.start}: {f.why.message}"
  | bytes =>
    let last := f.start + bytes.length - 1
    s!"'utf-8' codec can't decode bytes in position {f.start}-{last}: {f.why.message}"

end EcmaPhp.Text.Utf8
