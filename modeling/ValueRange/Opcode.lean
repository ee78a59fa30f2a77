/-! The operations of instructions. -/

namespace ValueRange

/-- The operations with one operand, whose value passes through, possibly converted. -/
inductive UnaryOp where
  | copy
  | cast
  | trunc
  | sext
  | zext
  | load
  | store
deriving DecidableEq, Repr, Inhabited

/-- The arithmetic and bitwise operations with two operands. -/
inductive BinaryOp where
  | add
  | sub
  | mul
  | udiv
  | sdiv
  | urem
  | srem
  | shl
  | lshr
  | ashr
  | and
  | or
  | xor
deriving DecidableEq, Repr, Inhabited

/-- The operation of an instruction. `unknown` defines a value that the analysis knows nothing
about, and `other` is a number that names no operation. -/
inductive Opcode where
  | invalid
  | unary (op : UnaryOp)
  | binary (op : BinaryOp)
  | phi
  | sigma
  | call
  | unknown
  | other (code : Nat)
deriving DecidableEq, Repr, Inhabited

/-- The name of a unary operation. -/
def UnaryOp.text : UnaryOp → String
  | copy => "copy"
  | cast => "cast"
  | trunc => "trunc"
  | sext => "sext"
  | zext => "zext"
  | load => "load"
  | store => "store"

/-- The name of a binary operation. -/
def BinaryOp.text : BinaryOp → String
  | add => "add"
  | sub => "sub"
  | mul => "mul"
  | udiv => "udiv"
  | sdiv => "sdiv"
  | urem => "urem"
  | srem => "srem"
  | shl => "shl"
  | lshr => "lshr"
  | ashr => "ashr"
  | and => "and"
  | or => "or"
  | xor => "xor"

namespace Opcode

/-- The operations that have a name, in the order of their numbers. -/
def named : List Opcode :=
  [invalid] ++ [.copy, .cast, .trunc, .sext, .zext, .load, .store].map unary ++
  [.add, .sub, .mul, .udiv, .sdiv, .urem, .srem, .shl, .lshr, .ashr, .and, .or, .xor].map binary ++
  [phi, sigma, call, unknown]

/-- The text of an operation. -/
def text : Opcode → String
  | invalid => "invalid"
  | unary op => op.text
  | binary op => op.text
  | phi => "phi"
  | sigma => "sigma"
  | call => "call"
  | unknown => "opaque"
  | other n => s!"Opcode({n})"

/-- The operation with a name. The invalid operation cannot be named. -/
def ofText? (s : String) : Option Opcode :=
  named.find? fun op => op != invalid && op.text == s

/-- The operation with a number. -/
def ofNumber (n : Nat) : Opcode := (named[n]?).getD (other n)

/-- The number of an operation. -/
def number : Opcode → Nat
  | other n => n
  | op => named.idxOf op

/-- Whether the operation has one operand whose value passes through. -/
def isUnary : Opcode → Bool
  | unary _ => true
  | _ => false

/-- Whether the operation computes with two operands. -/
def isBinary : Opcode → Bool
  | binary _ => true
  | _ => false

end Opcode

end ValueRange
