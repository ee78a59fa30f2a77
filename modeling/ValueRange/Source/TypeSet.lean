import ValueRange.Source.Integer

/-! The terms of a constraint, found from the way it is written: the types that satisfy it, as a list
of terms of which no two can be joined. -/

namespace ValueRange.Source

namespace Ty

mutual

/-- Whether two types are identical. Named types are if their names are. -/
def same : Ty → Ty → Bool
  | basic a, basic b => a == b
  | named m _, named n _ => m == n
  | pointer a, pointer b => same a b
  | slice a, slice b => same a b
  | interface as, interface bs => sameAll as bs
  | union as, union bs => sameAll as bs
  | approx a, approx b => same a b
  | param a, param b => same a b
  | _, _ => false

/-- Whether two lists of types are identical. -/
def sameAll : List Ty → List Ty → Bool
  | [], [] => true
  | a :: as, b :: bs => same a b && sameAll as bs
  | _, _ => false

end

/-- Whether a type constrains others: an interface, possibly that of a type parameter. -/
def isInterface (t : Ty) : Bool :=
  match t.underlying with
  | interface _ | param _ => true
  | _ => false

/-- Whether a type is a union. -/
def isUnion (t : Ty) : Bool :=
  match t.underlying with
  | union _ => true
  | _ => false

/-- Whether a type is the invalid one. -/
def isInvalid : Ty → Bool
  | basic .invalid => true
  | _ => false

end Ty

namespace TypeTerm

/-- Whether no type belongs to both terms. -/
def disjoint (x y : TypeTerm) : Bool :=
  let a := if y.approx then x.type.underlying else x.type
  let b := if x.approx then y.type.underlying else y.type
  !(a.same b)

/-- The types of both terms, as one term. -/
def meet? (x y : TypeTerm) : Option TypeTerm :=
  if x.disjoint y then none else if !x.approx || y.approx then some x else some y

/-- The types of either term, if that is one term. -/
def join? (x y : TypeTerm) : Option TypeTerm :=
  if x.disjoint y then none else if x.approx || !y.approx then some x else some y

/-- Takes into a term those terms of a list that can be joined to it, and keeps the others. -/
def absorb (x : TypeTerm) : List TypeTerm → TypeTerm × List TypeTerm
  | [] => (x, [])
  | y :: ys =>
    match x.join? y with
    | some z => absorb z ys
    | none =>
      let (z, rest) := absorb x ys
      (z, y :: rest)

/-- A list of terms with joined terms replaced by their union. Each round takes one term out. -/
def normalize : (size : Nat) → List TypeTerm → List TypeTerm
  | 0, _ => []
  | _, [] => []
  | size + 1, x :: xs =>
    let (y, rest) := x.absorb xs
    y :: normalize size rest

end TypeTerm

/-- A set of types: all of them, or those of some terms. -/
inductive TypeSet where
  | all
  | terms (ts : List TypeTerm)
deriving Repr, Inhabited

namespace TypeSet

/-- The union of two sets. -/
def union : TypeSet → TypeSet → TypeSet
  | terms xs, terms ys => terms (TypeTerm.normalize (xs.length + ys.length) (xs ++ ys))
  | _, _ => all

/-- The intersection of two sets. -/
def inter : TypeSet → TypeSet → TypeSet
  | all, s => s
  | s, all => s
  | terms xs, terms ys =>
    let both := xs.flatMap fun x => ys.filterMap x.meet?
    terms (TypeTerm.normalize both.length both)

/-- A union may have so many terms. -/
def maxTerms : Nat := 100

/-- Whether a set has more terms than a union may have. -/
def isTooLarge : TypeSet → Bool
  | all => false
  | terms ts => maxTerms < ts.length

/-- The set with the types of a term of a union, where `own` holds those that satisfy the term if it
is an interface. A union is no term of a union, and a union has a limited number of terms. -/
def addTerm? (s : TypeSet) (approx : Bool) (t : Ty) (own : Option TypeSet) : Option TypeSet :=
  let types := if t.isInterface then own
    else if t.isUnion then none
    else if t.isInvalid then some (.terms [])
    else some (.terms [⟨approx, t⟩])
  match types with
  | some u => if (s.union u).isTooLarge then none else some (s.union u)
  | none => none

mutual

/-- The types that satisfy a constraint, if it is a valid one: those that satisfy every element of
an interface, those of any term of a union, and otherwise the type alone. -/
def ofType? : Ty → Option TypeSet
  | .interface elements => interAll? .all elements
  | .union ts => unionAll? (.terms []) ts
  | .param constraint => ofType? constraint
  | .named name t =>
    if t.isInterface || t.isUnion then ofType? t
    else if t.underlying.isInvalid then some (.terms [])
    else some (.terms [⟨false, .named name t⟩])
  | .approx t => some (.terms [⟨true, t⟩])
  | t => if t.isInvalid then some (.terms []) else some (.terms [⟨false, t⟩])

/-- The types of a set that satisfy every element. -/
def interAll? (s : TypeSet) : List Ty → Option TypeSet
  | [] => some s
  | e :: es =>
    match ofType? e with
    | some t => interAll? (s.inter t) es
    | none => none

/-- The types of a set and of any term. -/
def unionAll? (s : TypeSet) : List Ty → Option TypeSet
  | [] => some s
  | .approx t :: ts =>
    match s.addTerm? true t (ofType? t) with
    | some u => unionAll? u ts
    | none => none
  | t :: ts =>
    match s.addTerm? false t (ofType? t) with
    | some u => unionAll? u ts
    | none => none

end

/-- The terms of a constraint, if it is a valid one and some type satisfies it. If all types do, there
are no terms. -/
def normalTerms? (constraint : Ty) : Option (List TypeTerm) :=
  match ofType? constraint with
  | some .all => some []
  | some (.terms []) | none => none
  | some (.terms ts) => some ts

end TypeSet

/-- How the values of a type are represented, if it is an integer type, with the terms of constraints
as they are found here. -/
def Ty.represented? (platform : Platform) (t : Ty) : Option IntType :=
  t.integer? TypeSet.normalTerms? platform

end ValueRange.Source
