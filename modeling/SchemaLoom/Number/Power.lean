/-!
# Powers and words

Powers of two and ten, and the integers that fit a signed word. Only natural
exponents are meant here; a power of either sign is a fraction.
-/

namespace SchemaLoom

def twoTo (n : Nat) : Nat := Nat.pow 2 n

def tenTo (n : Nat) : Nat := Nat.pow 10 n

/-- The least integer of a signed word. -/
def leastSigned (bits : Nat) : Int := -(twoTo (bits - 1) : Int)

/-- An integer fits a signed word. -/
def isSigned (bits : Nat) (n : Int) : Bool :=
  decide (leastSigned bits ≤ n) && decide (n < twoTo (bits - 1))

end SchemaLoom
