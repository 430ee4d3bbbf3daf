import Ecat.GraphqlValue

/-! The GraphQL parser: fields, selection sets and the whole query, and the budget of a query. -/

namespace Ecat.Graphql

open Json

inductive Operation
  | query | mutation | subscription
  deriving DecidableEq, Repr

/-- The selection is a map by field name. -/
inductive FieldNode
  | mk (args : List (String × Value)) (selection : Option (List (String × FieldNode)))

abbrev SelectionSet := List (String × FieldNode)

structure ParsedField where
  operation : Operation
  name : String
  args : List (String × Value)
  selection : Option SelectionSet

def ParsedField.node (f : ParsedField) : FieldNode := ⟨f.args, f.selection⟩

/-- A name that is there already gets the new field in its place. -/
def insertNode (set : SelectionSet) (name : String) (node : FieldNode) : SelectionSet :=
  if hasKey set name then set.map fun f => if f.1 = name then (name, node) else f
  else set ++ [(name, node)]

/-! ### Directives and definitions -/

def skipDirective : Bytes → Scan Bytes
  | [] => .error .panic
  | _ :: cs =>
    match skipWs (skipIdent cs) with
    | [] => .ok []
    | c :: ds => if c = lparen then skipParens 0 (c :: ds) else .ok (c :: ds)

def skipDirectives (b : Bytes) : Scan Bytes :=
  match b with
  | [] => .ok []
  | c :: cs =>
    if c = atSign then
      match skipDirective (c :: cs) with
      | .error e => .error e
      | .ok rest => if (skipWs rest).length < cs.length + 1 then skipDirectives (skipWs rest) else .error .hang
    else .ok (c :: cs)
termination_by b.length

/-- The variable definitions and directives of an operation. -/
def skipDefinitions (b : Bytes) : Scan Bytes :=
  match b with
  | [] => .ok []
  | c :: cs =>
    if c = lparen then
      match skipParens 0 (c :: cs) with
      | .error e => .error e
      | .ok rest => if (skipWs rest).length < cs.length + 1 then skipDefinitions (skipWs rest) else .error .hang
    else if c = atSign then
      match skipDirective (c :: cs) with
      | .error e => .error e
      | .ok rest => if (skipWs rest).length < cs.length + 1 then skipDefinitions (skipWs rest) else .error .hang
    else .ok (c :: cs)
termination_by b.length

/-! ### Fields -/

def noFragments : String := "fragment spreads are not supported"

def selectionLoop (field : Bytes → Scan (ParsedField × Bytes)) (set : SelectionSet) (b : Bytes) :
    Scan (SelectionSet × Bytes) :=
  match b with
  | [] => fail "expected '\x7d'"
  | c :: cs =>
    if c = rbrace then .ok (set, cs)
    else if c = dot then fail noFragments
    else
      match field (c :: cs) with
      | .error e => .error e
      | .ok (f, rest) =>
        if (skipWs rest).length < cs.length + 1 then
          selectionLoop field (insertNode set f.name f.node) (skipWs rest)
        else .error .hang
termination_by b.length

def parseSelectionSet (field : Bytes → Scan (ParsedField × Bytes)) (depth : Nat) (b : Bytes) :
    Scan (SelectionSet × Bytes) :=
  if maxDepth < depth then fail "selection too deep"
  else
    match b with
    | [] => .error .panic
    | _ :: cs =>
      match skipWs cs with
      | [] => fail "empty selection set"
      | c :: ds => if c = rbrace then fail "empty selection set" else selectionLoop field [] (c :: ds)

section

variable (fromSlice : Bytes → Except String Value) (vars : Value)

/-- The arguments of a field and the white space after them. -/
def fieldArgs (stack depth : Nat) (b : Bytes) : Scan (List (String × Value) × Bytes) :=
  if b.head? = some lparen then
    match skipParens 0 b with
    | .error e => .error e
    | .ok rest => (parseArgs fromSlice vars stack depth (upTo b rest)).map (·, skipWs rest)
  else .ok ([], b)

def fieldSelection (field : Bytes → Scan (ParsedField × Bytes)) (depth : Nat) (b : Bytes) :
    Scan (Option SelectionSet × Bytes) :=
  if b.head? = some lbrace then (parseSelectionSet field depth b).map fun r => (some r.1, r.2)
  else .ok (none, b)

/-- Every call takes one level of `stack`. -/
def parseField : Nat → Nat → Operation → Bytes → Scan (ParsedField × Bytes)
  | 0, _, _, _ => .error .overflow
  | stack + 1, depth, operation, b =>
    if maxDepth < depth then fail "selection too deep"
    else if skipIdent (skipWs b) = skipWs b then fail "expected field name"
    else
      let name := fromUtf8Lossy ((skipWs b).takeWhile isIdentByte)
      let rest := skipWs (skipIdent (skipWs b))
      if rest.head? = some colon then fail "aliases not supported"
      else
        match fieldArgs fromSlice vars stack depth rest with
        | .error e => .error e
        | .ok (args, rest) =>
          match skipDirectives rest with
          | .error e => .error e
          | .ok rest =>
            (fieldSelection (parseField stack (depth + 1) .query) (depth + 1) rest).map fun r =>
              (⟨operation, name, args, r.1⟩, r.2)

/-! ### The query -/

def ascii (text : String) : Bytes := text.toList.map fun c => UInt8.ofNat c.toNat

def keywords : List (Bytes × Operation) :=
  [(ascii "query", .query), (ascii "mutation", .mutation), (ascii "subscription", .subscription)]

def endsKeyword : Bytes → Bool
  | [] => true
  | c :: _ => isWhitespace c || c = lparen || c = lbrace

def readKeyword (b : Bytes) (keyword : Bytes × Operation) : Option (Operation × Bytes) :=
  if keyword.1.isPrefixOf b ∧ endsKeyword (b.drop keyword.1.length) then
    some (keyword.2, b.drop keyword.1.length)
  else none

def readOperation (b : Bytes) : Operation × Bytes := (keywords.findSome? (readKeyword b)).getD (.query, b)

def skipName (b : Bytes) : Bytes := if b.head?.any isIdentByte then skipWs (skipIdent b) else b

/-- What is between the operation and its selection set. -/
def skipHeader (b : Bytes) : Scan Bytes := skipDefinitions (skipName (skipWs b))

def finishQuery (f : ParsedField) (rest : Bytes) : Scan ParsedField :=
  match skipWs rest with
  | [] => fail "expected '\x7d'"
  | c :: _ =>
    if c = rbrace then .ok f
    else if c = dot then fail noFragments
    else fail "multiple top-level fields not supported"

/-- The selection set of an operation; what comes after its closing brace is not looked at. -/
def parseRoot (stack : Nat) (operation : Operation) (b : Bytes) : Scan ParsedField :=
  match b with
  | [] => fail "expected '\x7b' before selection"
  | c :: cs =>
    if c = lbrace then
      match skipWs cs with
      | [] => fail "empty selection set"
      | c :: ds =>
        if c = rbrace then fail "empty selection set"
        else if c = dot then fail noFragments
        else
          match parseField fromSlice vars stack 0 operation (c :: ds) with
          | .error e => .error e
          | .ok (f, rest) => finishQuery f rest
    else fail "expected '\x7b' before selection"

def parseQuery (stack : Nat) (query : Bytes) : Scan ParsedField :=
  match skipHeader (readOperation (skipWs query)).2 with
  | .error e => .error e
  | .ok b => parseRoot fromSlice vars stack (readOperation (skipWs query)).1 b

end

/-! ### The budget -/

def FieldNode.complexity : FieldNode → Nat
  | mk _ none => 0
  | mk _ (some set) => total set
where
  total : SelectionSet → Nat
    | [] => 0
    | (_, node) :: set => 1 + node.complexity + total set

def validate (field : ParsedField) (maxComplexity : Nat) : Except String Unit :=
  let n := field.node.complexity + 1
  if maxComplexity < n then .error s!"query complexity {n} exceeds limit {maxComplexity}" else .ok ()

end Ecat.Graphql
