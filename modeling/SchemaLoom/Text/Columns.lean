import SchemaLoom.Text.Control
import SchemaLoom.Text.Sign

/-!
# Columns of a text

A text as a terminal shows it: a list of single bytes and of signs, control
sequences resolved. The columns of the text are those of its shown bytes and of
its signs.
-/

namespace SchemaLoom

/-- A byte and what it does, or a sign. -/
inductive Piece where
  | byte (b : UInt8) (effect : Control.Effect)
  | sign (s : Sign)
  deriving DecidableEq, Repr

def Piece.columns : Piece → Nat
  | byte _ e => if e = .shown then 1 else 0
  | sign s => s.columns

/-- Whether a rune begins a sign: characters outside ASCII do, and bytes that could begin
one. -/
def Rune.startsSign : Rune → Bool
  | char c => decide (0x80 ≤ c.toNat)
  | stray b => decide (0xC2 ≤ b) && decide (b ≤ 0xF4)

namespace Piece

/-- The pieces of single bytes, and the mode behind them. -/
def ofBytes (m : Control.Mode) : List UInt8 → List Piece × Control.Mode
  | [] => ([], m)
  | b :: bs =>
    let (m, effect) := m.step b
    let (ps, m) := ofBytes m bs
    (byte b effect :: ps, m)

/-- The pieces of a text behind an open sign. A sign leaves every sequence it stands in. -/
def ofText (m : Control.Mode) (sign : Option Sign) : Text → List Piece
  | [] => sign.toList.map .sign
  | r :: t =>
    match sign.bind (·.take? r) with
    | some s => ofText m (some s) t
    | none =>
      let closed := sign.toList.map Piece.sign
      if r.startsSign && !m.takesBytes then closed ++ ofText .ground (some (Sign.start r)) t
      else
        let (ps, m) := ofBytes m r.bytes
        closed ++ ps ++ ofText m none t

end Piece

def Text.terminalPieces (t : Text) : List Piece := Piece.ofText .ground none t

def Text.columns (t : Text) : Nat := t.terminalPieces.foldl (fun n p => n + p.columns) 0

end SchemaLoom
