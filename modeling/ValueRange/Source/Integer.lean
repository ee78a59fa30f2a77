import ValueRange.Source.Type

/-! How the values of types are represented. A type parameter is represented by one integer type for
all types that satisfy its constraint. Which terms stand for these types is not decided here. -/

namespace ValueRange.Source

/-- A term of a constraint: one type, or all types with an underlying type. -/
structure TypeTerm where
  approx : Bool
  type : Ty
deriving Repr, Inhabited

/-- How the values of a type that is no type parameter are represented, if it is an integer type. -/
def Ty.plainInteger? (platform : Platform) (t : Ty) : Option IntType :=
  match t.underlying with
  | basic b => b.integer? platform
  | _ => none

namespace TypeTerm

/-- Takes a step for each term, up to the first that fails. No terms stand for all types, for which
one step is taken without a term. -/
def all? {σ : Type} (terms : List TypeTerm) (step : σ → Option TypeTerm → Option σ) (s : σ) :
    Option σ :=
  if terms.isEmpty then step s none else terms.foldlM (fun s t => step s (some t)) s

/-- How the type of a term is represented, if it is an integer type. -/
def integer? (platform : Platform) (t : TypeTerm) : Option IntType := t.type.plainInteger? platform

end TypeTerm

/-- What the terms of a type parameter have shown so far: the greatest width of their types, and
whether there are signed and unsigned ones. -/
structure Census where
  width : Int
  signed : Bool
  unsigned : Bool
deriving DecidableEq, Repr, Inhabited

namespace Census

/-- The census before the first term. -/
def start : Census := ⟨0, false, false⟩

/-- The census with one more integer type. -/
def add (c : Census) (t : IntType) : Census where
  width := if c.width < t.width then t.width else c.width
  signed := c.signed || !t.unsigned
  unsigned := c.unsigned || t.unsigned

/-- The census with one more term, if that is there and its type is an integer type. -/
def count (platform : Platform) (c : Census) : Option TypeTerm → Option Census
  | none => none
  | some t => (t.integer? platform).map c.add

end Census

/-- A width with room for the values of a term in two's complement. -/
def makeRoom (platform : Platform) (width : Int) (t : TypeTerm) : Int :=
  let own := ((t.integer? platform).getD .void).signedWidth
  if width < own then own else width

/-- The type for the values of all terms, if there are any and all their types are integer types. If
these differ in signedness, the type is signed and has room for the greatest unsigned value. -/
def commonType? (platform : Platform) (terms : List TypeTerm) : Option IntType :=
  (TypeTerm.all? terms (Census.count platform) .start).map fun c =>
    { width := if c.signed && c.unsigned then terms.foldl (makeRoom platform) c.width else c.width
      unsigned := c.unsigned && !c.signed }

/-- How the values of a type are represented, if it is an integer type. A type parameter is
represented as the terms of its constraint ask for, if that has terms. -/
def Ty.integer? (normalTerms : Ty → Option (List TypeTerm)) (platform : Platform) :
    Ty → Option IntType
  | param constraint => (normalTerms constraint).bind (commonType? platform)
  | t => t.plainInteger? platform

end ValueRange.Source
