/-!
# Control sequences of a terminal

The bytes of a text as a terminal takes them: most are shown, some are obeyed at
once, and others build a sequence that ends somewhere behind. Only the place in a
sequence is followed; what a sequence does is not.
-/

namespace SchemaLoom.Control

inductive Mode where
  | ground
  | escape
  | escapeIntermediate
  /-- Parameters of a control sequence. -/
  | sequence
  | sequenceIntermediate
  /-- The start of a device control string. -/
  | device
  | deviceParameter
  | deviceIntermediate
  | deviceString
  /-- An operating system command. -/
  | command
  /-- A string that no terminal answers: a message or an application's own command. -/
  | message
  deriving DecidableEq, Repr, Inhabited

inductive Effect where
  | shown
  | obeyed
  | silent
  deriving DecidableEq, Repr, Inhabited

/-- Controls that are obeyed inside a sequence too. -/
def isPlainControl (n : Nat) : Bool := n ≤ 0x17 || n == 0x19 || (0x1C ≤ n && n ≤ 0x1F)

/-- The two controls that cancel a sequence. -/
def isCancel (n : Nat) : Bool := n == 0x18 || n == 0x1A

def isIntermediate (n : Nat) : Bool := 0x20 ≤ n && n ≤ 0x2F

def isParameter (n : Nat) : Bool := 0x30 ≤ n && n ≤ 0x3F

def isFinal (n : Nat) : Bool := 0x40 ≤ n && n ≤ 0x7E

namespace Mode

/-- What a byte does where no rule of the mode is about it. -/
def anywhere (n : Nat) : Mode × Effect :=
  if n == 0x1B then (escape, .silent)
  else if n == 0x98 || n == 0x9E || n == 0x9F then (message, .silent)
  else if n == 0x9B then (sequence, .silent)
  else if n == 0x90 then (device, .silent)
  else if n == 0x9D then (command, .silent)
  else if isCancel n || (0x80 ≤ n && n ≤ 0x9C) then (ground, .obeyed)
  else (ground, .silent)

/-- The mode behind one byte, and what the byte did. -/
def step (m : Mode) (b : UInt8) : Mode × Effect :=
  let n := b.toNat
  match m with
  | ground =>
    if isPlainControl n || n == 0x7F then (ground, .obeyed)
    else if 0x20 ≤ n && n ≤ 0x7E then (ground, .shown)
    else anywhere n
  | escape =>
    if isPlainControl n then (escape, .obeyed)
    else if n == 0x7F then (escape, .silent)
    else if isIntermediate n then (escapeIntermediate, .silent)
    else if n == 0x58 || n == 0x5E || n == 0x5F then (message, .silent)
    else if n == 0x50 then (device, .silent)
    else if n == 0x5B then (sequence, .silent)
    else if n == 0x5D then (command, .silent)
    else anywhere n
  | escapeIntermediate =>
    if isPlainControl n then (escapeIntermediate, .obeyed)
    else if isIntermediate n || n == 0x7F then (escapeIntermediate, .silent)
    else anywhere n
  | sequence =>
    if isPlainControl n then (sequence, .obeyed)
    else if isParameter n || n == 0x7F then (sequence, .silent)
    else if isIntermediate n then (sequenceIntermediate, .silent)
    else anywhere n
  | sequenceIntermediate =>
    if isPlainControl n then (sequenceIntermediate, .obeyed)
    else if isIntermediate n || n == 0x7F then (sequenceIntermediate, .silent)
    else anywhere n
  | device =>
    if (0x08 ≤ n && n ≤ 0x0D) || n == 0x1B || isFinal n then (deviceString, .silent)
    else if isPlainControl n || n == 0x7F then (device, .silent)
    else if isIntermediate n then (deviceIntermediate, .silent)
    else if isParameter n then (deviceParameter, .silent)
    else anywhere n
  | deviceParameter =>
    if isPlainControl n || isParameter n || n == 0x7F then (deviceParameter, .silent)
    else if isIntermediate n then (deviceIntermediate, .silent)
    else if isFinal n then (deviceString, .silent)
    else anywhere n
  | deviceIntermediate =>
    if isPlainControl n || isIntermediate n || n == 0x7F then (deviceIntermediate, .silent)
    else if isParameter n || isFinal n then (deviceString, .silent)
    else anywhere n
  | deviceString =>
    if n == 0x1B then (escape, .silent)
    else if isCancel n || n == 0x9C then (ground, .silent)
    else (deviceString, .silent)
  | command =>
    if n == 0x1B then (escape, .silent)
    else if isCancel n || n == 0x9C || n == 0x07 then (ground, .silent)
    else (command, .silent)
  | message =>
    if isPlainControl n || (0x20 ≤ n && n ≤ 0x7F) then (message, .silent)
    else if isCancel n || n == 0x9C then (ground, .silent)
    else anywhere n

/-- The modes that take the bytes of every character as they come. -/
def takesBytes (m : Mode) : Bool := m == deviceString || m == command

end Mode

end SchemaLoom.Control
