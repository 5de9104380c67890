import NyaTerm.Lib.Transducer

-- The telnet protocol, as far as the transport reads and writes it.
namespace NyaTerm.Telnet

abbrev Bytes := List UInt8

def iac : UInt8 := 255
def will : UInt8 := 251
def wont : UInt8 := 252
def «do» : UInt8 := 253
def dont : UInt8 := 254
def sb : UInt8 := 250
def se : UInt8 := 240
def optNaws : UInt8 := 31

structure SessionConfig where
  rawTcp : Bool
  sendNaws : Bool

-- Columns and rows, the higher byte of each first.
def sizeBytes (cols rows : UInt16) : Bytes :=
  [(cols >>> 8).toUInt8, (cols &&& 0xff).toUInt8, (rows >>> 8).toUInt8, (rows &&& 0xff).toUInt8]

def maybeBuildNaws (cols rows : UInt16) (config : SessionConfig) : Option Bytes :=
  if config.rawTcp ∨ ¬ config.sendNaws then none
  else some ([iac, sb, optNaws] ++ sizeBytes cols rows ++ [iac, se])

def unescapeIacIac : Bytes → Bytes
  | [] => []
  | [byte] => [byte]
  | byte :: next :: rest =>
    if byte = iac ∧ next = iac then iac :: unescapeIacIac rest
    else byte :: unescapeIacIac (next :: rest)

-- What is found in the bytes of a read.
inductive Item
  | visible (byte : UInt8)
  | negotiate (command option : UInt8)
  deriving DecidableEq

def isNegotiation (command : UInt8) : Bool :=
  command = will ∨ command = wont ∨ command = «do» ∨ command = dont

-- The inner loop skips a subnegotiation up to its end or to the end of the read.
def stripTelnetCommands (inside : Bool) : Bytes → List Item
  | [] => []
  | [byte] => if inside then [] else [.visible byte]
  | byte :: command :: rest =>
    if inside then
      if byte = iac ∧ command = se then stripTelnetCommands false rest
      else stripTelnetCommands true (command :: rest)
    else if byte ≠ iac then
      .visible byte :: stripTelnetCommands false (command :: rest)
    else if command = iac then
      .visible iac :: stripTelnetCommands false rest
    else if isNegotiation command then
      match rest with
      | [] => []
      | option :: rest => .negotiate command option :: stripTelnetCommands false rest
    else if command = sb then
      stripTelnetCommands true rest
    else
      stripTelnetCommands false rest

-- The reader thread, for one read.
def readOne (rawTcp : Bool) (bytes : Bytes) : List Item :=
  if rawTcp then (unescapeIacIac bytes).map .visible else stripTelnetCommands false bytes

-- Its loop treats each read by itself.
def readAll (rawTcp : Bool) (reads : List Bytes) : List Item :=
  reads.flatMap (readOne rawTcp)

def visibleBytes (items : List Item) : Bytes :=
  items.filterMap fun item =>
    match item with
    | .visible byte => some byte
    | .negotiate _ _ => none

def negotiations (items : List Item) : List (UInt8 × UInt8) :=
  items.filterMap fun item =>
    match item with
    | .visible _ => none
    | .negotiate command option => some (command, option)

-- Both sequences are the same.
def SameItems (items items' : List Item) : Prop :=
  visibleBytes items = visibleBytes items' ∧ negotiations items = negotiations items'

def escapeTelnetApplicationData (data : Bytes) (rawTcp : Bool) : Bytes :=
  if rawTcp then data else data.flatMap fun byte => if byte = iac then [iac, iac] else [byte]

-- A parser that remembers where in a command the bytes have ended.
inductive Mode
  | data
  | command
  | option (command : UInt8)
  | inside
  | insideCommand
  deriving DecidableEq

def parse (mode : Mode) (byte : UInt8) : Transducer.Outcome Mode Item :=
  match mode with
  | .data =>
    if byte = iac then ⟨[], .command, false⟩ else ⟨[.visible byte], .data, false⟩
  | .command =>
    if byte = iac then ⟨[.visible iac], .data, false⟩
    else if isNegotiation byte then ⟨[], .option byte, false⟩
    else if byte = sb then ⟨[], .inside, false⟩
    else ⟨[], .data, false⟩
  | .option command => ⟨[.negotiate command byte], .data, false⟩
  | .inside => ⟨[], if byte = iac then .insideCommand else .inside, false⟩
  | .insideCommand =>
    ⟨[], if byte = se then .data else if byte = iac then .insideCommand else .inside, false⟩

-- The bytes do not end with a byte 255 that has no partner.
def endsPaired : Bytes → Bool
  | [] => true
  | [byte] => byte ≠ iac
  | byte :: next :: rest =>
    if byte = iac ∧ next = iac then endsPaired rest else endsPaired (next :: rest)

-- No command is cut off at the end of the bytes.
def endsCommand (rawTcp : Bool) (bytes : Bytes) : Bool :=
  if rawTcp then endsPaired bytes else (Transducer.run parse .data bytes).state = .data

-- What follows the first end of a subnegotiation that its data imitate.
def imitatedEnd (afterIac : Bool) : Bytes → Option Bytes
  | [] => none
  | byte :: bytes =>
    if afterIac ∧ byte = se then some bytes else imitatedEnd (byte = iac) bytes

-- A subnegotiation with any data, in which the byte 255 is doubled.
def subnegotiation (data : Bytes) : Bytes :=
  [iac, sb] ++ escapeTelnetApplicationData data false ++ [iac, se]

-- A peer that follows the standard: the data of a subnegotiation and what follows it.
def readSubnegotiation : Bytes → Option (Bytes × Bytes)
  | [] => none
  | [_] => none
  | byte :: command :: rest =>
    if byte ≠ iac then
      (readSubnegotiation (command :: rest)).map fun (data, rest) => (byte :: data, rest)
    else if command = iac then
      (readSubnegotiation rest).map fun (data, rest) => (iac :: data, rest)
    else if command = se then
      some ([], rest)
    else
      none

-- Columns, rows and the bytes that are left over.
def readWindowSize : Bytes → Option (UInt16 × UInt16 × Bytes)
  | first :: second :: option :: bytes =>
    if [first, second, option] = [iac, sb, optNaws] then
      match readSubnegotiation bytes with
      | some ([a, b, c, d], rest) =>
        some (UInt16.ofNat (a.toNat * 256 + b.toNat), UInt16.ofNat (c.toNat * 256 + d.toNat), rest)
      | _ => none
    else
      none
  | _ => none

end NyaTerm.Telnet
