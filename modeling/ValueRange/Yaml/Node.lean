/-! YAML nodes: scalars with their text, sequences and mappings. -/

namespace ValueRange.Yaml

/-- A node. A scalar that is written without quotes is plain. -/
inductive Node where
  | scalar (text : String) (plain : Bool)
  | seq (items : List Node)
  | map (entries : List (Node × Node))
deriving Repr, Inhabited

namespace Node

/-- The null node. -/
def null : Node := scalar "" true

/-- The plain texts that stand for null. -/
def nullTexts : List String := ["", "~", "null", "Null", "NULL"]

/-- Whether a node is null. -/
def isNull : Node → Bool
  | scalar text plain => plain && nullTexts.contains text
  | _ => false

/-- The truth value of a scalar. Some words of the older form of YAML count, even in quotes. -/
def truth? : Node → Option Bool
  | scalar text plain =>
    if plain && ["true", "True", "TRUE"].contains text then some true
    else if plain && ["false", "False", "FALSE"].contains text then some false
    else if ["y", "Y", "yes", "on"].contains text then some true
    else if ["n", "N", "no", "off"].contains text then some false
    else none
  | _ => none

/-- What two keys of a mapping have to differ in: their kind and the text of a scalar. -/
def keyIdentity : Node → Nat × String
  | scalar text _ => (0, text)
  | seq _ => (1, "")
  | map _ => (2, "")

/-- Whether the keys of a mapping differ from each other. -/
def distinctKeys : List (Node × Node) → Bool
  | [] => true
  | (key, _) :: rest =>
    !(rest.any fun e => e.1.keyIdentity == key.keyIdentity) && distinctKeys rest

end Node

end ValueRange.Yaml
