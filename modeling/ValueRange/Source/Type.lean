import ValueRange.IntType

/-! Types of Go programs as far as the representation of integers depends on them. -/

namespace ValueRange.Source

/-- What a platform decides about integers: the size of a word. -/
structure Platform where
  wordBits : Nat
deriving DecidableEq, Repr, Inhabited

/-- The platforms with words of 32 bits. -/
def narrowPlatforms : List String := ["386", "arm", "amd64p32", "mips", "mipsle"]

/-- The platform of a processor architecture. -/
def Platform.ofName (arch : String) : Platform :=
  ⟨if narrowPlatforms.contains arch then 32 else 64⟩

/-- A basic type. Integers either have a size of their own or that of a word; an address is an
unsigned word of its own kind. -/
inductive BasicType where
  | invalid
  | sized (bits : Nat) (unsigned : Bool)
  | word (unsigned : Bool)
  | address
  | other (name : String)
deriving DecidableEq, Repr, Inhabited

namespace BasicType

/-- The names of the basic types that are integers, with two names for some. -/
def integerNames : List (String × BasicType) :=
  [("int", word false), ("int8", sized 8 false), ("int16", sized 16 false),
   ("int32", sized 32 false), ("rune", sized 32 false), ("int64", sized 64 false),
   ("uint", word true), ("uint8", sized 8 true), ("byte", sized 8 true), ("uint16", sized 16 true),
   ("uint32", sized 32 true), ("uint64", sized 64 true), ("uintptr", address),
   ("invalid type", invalid)]

/-- The basic type with a name. -/
def ofName (s : String) : BasicType := (integerNames.lookup s).getD (other s)

/-- How the values of a type are represented, if it is an integer type. Untyped constants are
not. -/
def integer? (platform : Platform) : BasicType → Option IntType
  | sized bits unsigned => some ⟨bits, unsigned⟩
  | word unsigned => some ⟨platform.wordBits, unsigned⟩
  | address => some ⟨platform.wordBits, true⟩
  | _ => none

end BasicType

/-- A type. `approx t` stands for all types whose underlying type is `t` and occurs as a term of a
union; a union occurs as an element of an interface. A type parameter has a constraint. -/
inductive Ty where
  | basic (b : BasicType)
  | named (name : String) (definition : Ty)
  | pointer (target : Ty)
  | slice (element : Ty)
  | interface (elements : List Ty)
  | union (terms : List Ty)
  | approx (t : Ty)
  | param (constraint : Ty)
deriving Repr, Inhabited

namespace Ty

/-- What a type is made of, behind its names. -/
def underlying : Ty → Ty
  | named _ t => t.underlying
  | t => t

end Ty

end ValueRange.Source
