import PipeShell.Yaml.Token

/-!
The value of a document as a tree. Where a value may be left out, an empty plain scalar stands.
-/
namespace PipeShell.Yaml

inductive Node
  | scalar (s : Scalar)
  | sequence (items : List Node)
  | mapping (entries : List (Node × Node))
deriving Repr

namespace Node

def empty : Node := .scalar .empty

/-- Tokens left over from a list of tokens. -/
abbrev Rest (ts : List Token) := { r : List Token // r.length ≤ ts.length }

def Rest.all (ts : List Token) : Rest ts := ⟨ts, Nat.le_refl _⟩

def Rest.cons {ts : List Token} (t : Token) (r : Rest ts) : Rest (t :: ts) :=
  ⟨r.val, Nat.le_succ_of_le r.property⟩

def Rest.trans {ts : List Token} (r : Rest ts) (q : Rest r.val) : Rest ts :=
  ⟨q.val, Nat.le_trans q.property r.property⟩

def startsWith (heads : List Token) : List Token → Bool
  | t :: _ => heads.contains t
  | [] => false

mutual

/-- The items of an indented sequence, up to its end. -/
def blockItems (ts : List Token) : Option (List Node × Rest ts) :=
  match ts with
  | .blockEnd :: ts => some ([], (Rest.all ts).cons _)
  | .blockEntry :: ts =>
    match valueOr true false [.blockEntry, .blockEnd] ts with
    | none => none
    | some (item, r) =>
      match blockItems r.val with
      | none => none
      | some (items, q) => some (item :: items, (r.trans q).cons _)
  | _ => none
termination_by (ts.length, 3)
decreasing_by all_goals grind

/-- The items of a sequence that is a value and no deeper than its key. -/
def levelItems (ts : List Token) : Option (List Node × Rest ts) :=
  match ts with
  | .blockEntry :: ts =>
    match valueOr true false [.blockEntry, .key, .value, .blockEnd] ts with
    | none => none
    | some (item, r) =>
      match levelItems r.val with
      | none => none
      | some (items, q) => some (item :: items, (r.trans q).cons _)
  | ts => some ([], Rest.all ts)
termination_by (ts.length, 0)
decreasing_by all_goals grind

/-- The entries of an indented mapping, up to its end. -/
def blockEntries (ts : List Token) : Option (List (Node × Node) × Rest ts) :=
  match ts with
  | .blockEnd :: ts => some ([], (Rest.all ts).cons _)
  | .key :: ts =>
    match valueOr true true [.key, .value, .blockEnd] ts with
    | none => none
    | some (key, r) =>
      match valueAfter true [.key, .value, .blockEnd] r.val with
      | none => none
      | some (value, q) =>
        match blockEntries q.val with
        | none => none
        | some (entries, p) => some ((key, value) :: entries, (r.trans (q.trans p)).cons _)
  | _ => none
termination_by (ts.length, 4)
decreasing_by all_goals grind

/-- The items of a flow sequence, where one or its end may stand. -/
def flowItems (ts : List Token) : Option (List Node × Rest ts) :=
  match ts with
  | .flowSequenceEnd :: ts => some ([], (Rest.all ts).cons _)
  | .key :: ts =>
    match flowPair ts with
    | none => none
    | some (item, r) =>
      match moreItems r.val with
      | none => none
      | some (items, q) => some (item :: items, (r.trans q).cons _)
  | ts =>
    match node false false ts with
    | none => none
    | some (item, r) =>
      match moreItems r.val with
      | none => none
      | some (items, q) => some (item :: items, r.trans q)
termination_by (ts.length, 4)
decreasing_by all_goals grind

/-- The items of a flow sequence after one of them. -/
def moreItems (ts : List Token) : Option (List Node × Rest ts) :=
  match ts with
  | .flowSequenceEnd :: ts => some ([], (Rest.all ts).cons _)
  | .flowEntry :: ts => (flowItems ts).map fun (items, r) => (items, r.cons _)
  | _ => none
termination_by (ts.length, 0)
decreasing_by all_goals grind

/-- A mapping of one entry, written as an item after the mark of its key. A mark that stands in
place of the key is passed with it. -/
def flowPair (ts : List Token) : Option (Node × Rest ts) :=
  match ts with
  | [] => none
  | t :: ts =>
    if [.value, .flowEntry, .flowSequenceEnd].contains t then
      (valueAfter false [.flowEntry, .flowSequenceEnd] ts).map fun (value, r) =>
        (.mapping [(empty, value)], r.cons _)
    else
      match node false false (t :: ts) with
      | none => none
      | some (key, r) =>
        (valueAfter false [.flowEntry, .flowSequenceEnd] r.val).map fun (value, q) =>
          (.mapping [(key, value)], r.trans q)
termination_by (ts.length, 4)
decreasing_by all_goals grind

/-- The entries of a flow mapping, where one or its end may stand. An entry without the mark of a
key has no value. -/
def flowEntries (ts : List Token) : Option (List (Node × Node) × Rest ts) :=
  match ts with
  | .flowMappingEnd :: ts => some ([], (Rest.all ts).cons _)
  | .key :: ts =>
    match valueOr false false [.value, .flowEntry, .flowMappingEnd] ts with
    | none => none
    | some (key, r) =>
      match valueAfter false [.flowEntry, .flowMappingEnd] r.val with
      | none => none
      | some (value, q) =>
        match moreEntries q.val with
        | none => none
        | some (entries, p) => some ((key, value) :: entries, (r.trans (q.trans p)).cons _)
  | ts =>
    match node false false ts with
    | none => none
    | some (key, r) =>
      match moreEntries r.val with
      | none => none
      | some (entries, q) => some ((key, empty) :: entries, r.trans q)
termination_by (ts.length, 4)
decreasing_by all_goals grind

/-- The entries of a flow mapping after one of them. -/
def moreEntries (ts : List Token) : Option (List (Node × Node) × Rest ts) :=
  match ts with
  | .flowMappingEnd :: ts => some ([], (Rest.all ts).cons _)
  | .flowEntry :: ts => (flowEntries ts).map fun (entries, r) => (entries, r.cons _)
  | _ => none
termination_by (ts.length, 0)
decreasing_by all_goals grind

/-- The value that a colon brings in, which is empty without one. -/
def valueAfter (inBlock : Bool) (ends : List Token) (ts : List Token) :
    Option (Node × Rest ts) :=
  match ts with
  | .value :: ts => (valueOr inBlock inBlock ends ts).map fun (value, r) => (value, r.cons _)
  | ts => some (empty, Rest.all ts)
termination_by (ts.length, 3)
decreasing_by all_goals grind

/-- A node, or an empty one if one of the given tokens comes first. -/
def valueOr (inBlock level : Bool) (ends : List Token) (ts : List Token) :
    Option (Node × Rest ts) :=
  if startsWith ends ts then some (empty, Rest.all ts) else node inBlock level ts
termination_by (ts.length, 2)
decreasing_by all_goals grind

/-- A node. Blocks may only stand in blocks, and a sequence may stand at the level of its key. -/
def node (inBlock level : Bool) (ts : List Token) : Option (Node × Rest ts) :=
  match ts with
  | .scalar s :: ts => some (.scalar s, (Rest.all ts).cons _)
  | .flowSequenceStart :: ts =>
    (flowItems ts).map fun (items, r) => (.sequence items, r.cons _)
  | .flowMappingStart :: ts =>
    (flowEntries ts).map fun (entries, r) => (.mapping entries, r.cons _)
  | .blockSequenceStart :: ts =>
    if inBlock then (blockItems ts).map fun (items, r) => (.sequence items, r.cons _) else none
  | .blockMappingStart :: ts =>
    if inBlock then (blockEntries ts).map fun (entries, r) => (.mapping entries, r.cons _)
    else none
  | .blockEntry :: ts =>
    if level then (levelItems (.blockEntry :: ts)).map fun (items, r) => (.sequence items, r)
    else none
  | _ => none
termination_by (ts.length, 1)
decreasing_by all_goals grind

end

/-- A node after which nothing but marks of the end may come. -/
def alone {ts : List Token} (parsed : Option (Node × Rest ts)) : Option Node := do
  let (value, rest) ← parsed
  if rest.val.all (· == .documentEnd) then some value else none

/-- The one document that the tokens hold, or `none` inside if they hold no document. -/
def ofTokens? : List Token → Option (Option Node)
  | [] => some none
  | [.documentStart] => some (some empty)
  | .documentStart :: ts =>
    (alone (valueOr true false [.documentStart, .documentEnd] ts)).map some
  | ts => (alone (node true false ts)).map some

/-- Reads a text that holds at most one document. -/
def read? (text : String) : Option (Option Node) := do ofTokens? (← tokens? text)

end Node
end PipeShell.Yaml
