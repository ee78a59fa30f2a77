import ValueRange.Yaml.Node
import ValueRange.Yaml.Token

/-! Reading the first document of a YAML text from its tokens. -/

namespace ValueRange.Yaml

namespace Node

/-- Tokens at which the value of a block mapping is left out. -/
def endsBlockValue : List Token → Bool
  | .key :: _ | .value :: _ | .blockEnd :: _ | [] => true
  | _ => false

/-- Tokens at which the value in a flow collection is left out. -/
def endsFlowValue : List Token → Bool
  | .flowEntry :: _ | .flowSeqEnd :: _ | .flowMapEnd :: _ | [] => true
  | _ => false

mutual

/-- Reads a node. A sequence that is not indented further than the key before it may stand as a
value only. -/
def read : (steps : Nat) → (inBlock unindented : Bool) → List Token → Option (Node × List Token)
  | 0, _, _, _ => none
  | _, _, _, [] => none
  | steps + 1, inBlock, unindented, t :: ts =>
    match t with
    | .scalar text plain => some (scalar text plain, ts)
    | .flowSeqStart => (readFlowSeq steps true ts).map fun (items, ts) => (seq items, ts)
    | .flowMapStart => (readFlowMap steps true ts).map fun (entries, ts) => (map entries, ts)
    | .blockSeqStart =>
      if inBlock then (readBlockSeq steps ts).map fun (items, ts) => (seq items, ts) else none
    | .blockMapStart =>
      if inBlock then (readBlockMap steps ts).map fun (entries, ts) => (map entries, ts) else none
    | .blockEntry =>
      if unindented then (readUnindented steps (t :: ts)).map fun (items, ts) => (seq items, ts)
      else none
    | _ => none

/-- Reads the items of a block sequence up to its end. -/
def readBlockSeq : (steps : Nat) → List Token → Option (List Node × List Token)
  | 0, _ => none
  | _, .blockEnd :: ts => some ([], ts)
  | steps + 1, .blockEntry :: ts =>
    match ts with
    | .blockEntry :: _ | .blockEnd :: _ =>
      (readBlockSeq steps ts).map fun (items, ts) => (null :: items, ts)
    | _ => do
      let (item, ts) ← read steps true false ts
      let (items, ts) ← readBlockSeq steps ts
      return (item :: items, ts)
  | _, _ => none

/-- Reads the items of a sequence that has no block of its own; it ends where no dash follows. -/
def readUnindented : (steps : Nat) → List Token → Option (List Node × List Token)
  | 0, _ => none
  | steps + 1, .blockEntry :: ts =>
    match ts with
    | .blockEntry :: _ | .key :: _ | .value :: _ | .blockEnd :: _ =>
      (readUnindented steps ts).map fun (items, ts) => (null :: items, ts)
    | _ => do
      let (item, ts) ← read steps true false ts
      let (items, ts) ← readUnindented steps ts
      return (item :: items, ts)
  | _, ts => some ([], ts)

/-- Reads the entries of a block mapping up to its end. -/
def readBlockMap : (steps : Nat) → List Token → Option (List (Node × Node) × List Token)
  | 0, _ => none
  | _, .blockEnd :: ts => some ([], ts)
  | steps + 1, .key :: ts => do
    let (k, ts) ← if endsBlockValue ts then some (null, ts) else read steps true true ts
    let (v, ts) ← match ts with
      | .value :: ts => if endsBlockValue ts then some (null, ts) else read steps true true ts
      | _ => some (null, ts)
    let (entries, ts) ← readBlockMap steps ts
    return ((k, v) :: entries, ts)
  | _, _ => none

/-- Reads the items of a flow sequence up to its end. An item with a colon is a mapping of one
entry. -/
def readFlowSeq : (steps : Nat) → (first : Bool) → List Token → Option (List Node × List Token)
  | 0, _, _ => none
  | _, _, .flowSeqEnd :: ts => some ([], ts)
  | steps + 1, first, ts => do
    let ts ← match first, ts with
      | true, ts => some ts
      | false, .flowEntry :: ts => some ts
      | _, _ => none
    match ts with
    | .flowSeqEnd :: ts => return ([], ts)
    | .key :: ts =>
      let (k, ts) ← match ts with
        | .value :: _ => some (null, ts)
        | _ => if endsFlowValue ts then some (null, ts) else read steps false false ts
      let (v, ts) ← match ts with
        | .value :: ts => if endsFlowValue ts then some (null, ts) else read steps false false ts
        | _ => some (null, ts)
      let (items, ts) ← readFlowSeq steps false ts
      return (map [(k, v)] :: items, ts)
    | _ =>
      let (item, ts) ← read steps false false ts
      let (items, ts) ← readFlowSeq steps false ts
      return (item :: items, ts)

/-- Reads the entries of a flow mapping up to its end. An entry without a colon has a null value. -/
def readFlowMap : (steps : Nat) → (first : Bool) → List Token →
    Option (List (Node × Node) × List Token)
  | 0, _, _ => none
  | _, _, .flowMapEnd :: ts => some ([], ts)
  | steps + 1, first, ts => do
    let ts ← match first, ts with
      | true, ts => some ts
      | false, .flowEntry :: ts => some ts
      | _, _ => none
    match ts with
    | .flowMapEnd :: ts => return ([], ts)
    | .key :: ts =>
      let (k, ts) ← match ts with
        | .value :: _ => some (null, ts)
        | _ => if endsFlowValue ts then some (null, ts) else read steps false false ts
      let (v, ts) ← match ts with
        | .value :: ts => if endsFlowValue ts then some (null, ts) else read steps false false ts
        | _ => some (null, ts)
      let (entries, ts) ← readFlowMap steps false ts
      return ((k, v) :: entries, ts)
    | _ =>
      let (k, ts) ← read steps false false ts
      let (entries, ts) ← readFlowMap steps false ts
      return ((k, null) :: entries, ts)

end

/-- Reads the content of a document. -/
def readDocument (steps : Nat) : List Token → Option (Node × List Token)
  | .documentStart :: ts =>
    match ts with
    | .documentStart :: _ | .documentEnd :: _ | .streamEnd :: _ => some (null, ts)
    | _ => read steps true false ts
  | .streamEnd :: _ => none
  | ts => read steps true false ts

/-- The first document of a text, if there is one that can be read. Tokens are looked up two ahead
of the one that ends the document, so that all of these have to be readable. -/
def ofText? (text : String) : Option Node := do
  let (tokens, complete) := Token.scan text
  let ts := tokens.toList
  let (node, rest) ← readDocument (2 * ts.length + 2) ts
  if complete || 2 < rest.length then return node else failure

end Node

/-- Whether a text holds no document at all. -/
def isVacant (text : String) : Bool :=
  match Token.scan text with
  | (tokens, complete) => complete && tokens.toList.head? == some .streamEnd

end ValueRange.Yaml
