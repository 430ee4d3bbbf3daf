import Ecat.GraphqlScan

/-! Values in a GraphQL query: strings, lists, input objects, variables and literals. What reads a JSON
text is a parameter, and every call of `parse_value` takes one level of `stack`. -/

namespace Ecat.Graphql

open Json

def maxDepth : Nat := 32

/-! ### UTF-8 -/

def isContinuation (c : UInt8) : Bool := 0x80 ≤ c && c ≤ 0xbf

/-- The number of bytes of a character by its first one; none begins with the others. -/
def utf8Width (c : UInt8) : Nat :=
  if c < 0x80 then 1
  else if 0xc2 ≤ c ∧ c ≤ 0xdf then 2
  else if 0xe0 ≤ c ∧ c ≤ 0xef then 3
  else if 0xf0 ≤ c ∧ c ≤ 0xf4 then 4
  else 0

def isSecond (c d : UInt8) : Bool :=
  (if c = 0xe0 then 0xa0 ≤ d else if c = 0xf0 then 0x90 ≤ d else 0x80 ≤ d) &&
    (if c = 0xed then d ≤ 0x9f else if c = 0xf4 then d ≤ 0x8f else d ≤ 0xbf)

/-- The bytes that go on with a character that begins with `c`. -/
def continuation (c : UInt8) : Bytes → Bytes
  | [] => []
  | d :: ds =>
    if 2 ≤ utf8Width c ∧ isSecond c d then d :: (ds.take (utf8Width c - 2)).takeWhile isContinuation else []

def leadBits (c : UInt8) : Nat :=
  match utf8Width c with
  | 2 => c.toNat % 0x20
  | 3 => c.toNat % 0x10
  | 4 => c.toNat % 0x08
  | _ => c.toNat

def lossyChars : Bytes → List Char
  | [] => []
  | c :: cs =>
    (if utf8Width c = (continuation c cs).length + 1 then
      Char.ofNat ((continuation c cs).foldl (fun code d => code * 0x40 + d.toNat % 0x40) (leadBits c))
    else Char.ofNat 0xfffd) :: lossyChars (cs.drop (continuation c cs).length)
termination_by b => b.length
decreasing_by
  simp only [List.length_drop, List.length_cons]
  omega

/-- What is no UTF-8 becomes replacement characters. -/
def fromUtf8Lossy (b : Bytes) : String := String.ofList (lossyChars b)

/-! ### Strings -/

def hexValue (c : UInt8) : Option Nat :=
  if isDigit c then some (c.toNat - 0x30)
  else if 0x41 ≤ c ∧ c ≤ 0x46 then some (c.toNat - 0x37)
  else if 0x61 ≤ c ∧ c ≤ 0x66 then some (c.toNat - 0x57)
  else none

/-- A sign may come first. -/
def fromStrRadix16 (digits : Bytes) : Option Nat :=
  let digits := if digits.head? = some 0x2b then digits.tail else digits
  if digits = [] then none
  else digits.foldlM (fun n c => (hexValue c).map fun d => n * 16 + d) 0

def charFromU32 (code : Nat) : Option Char := if code.isValidChar then some (Char.ofNat code) else none

/-- The bytes are taken as characters, so that those beyond ASCII count twice. -/
def latinLength (b : Bytes) : Nat := (b.map fun c => if c < 0x80 then 1 else 2).sum

def unicodeEscape (hex : Bytes) : Option Char :=
  if latinLength hex = 4 then (fromStrRadix16 hex).bind charFromU32 else none

def simpleEscape (c : UInt8) : Option UInt8 :=
  match c.toNat with
  | 0x5c => some backslash
  | 0x22 => some quote
  | 0x27 => some apostrophe
  | 0x6e => some newline
  | 0x74 => some 0x09
  | 0x72 => some 0x0d
  | 0x62 => some 0x08
  | 0x66 => some 0x0c
  | _ => none

def unescape (out : Bytes) : Bytes → Scan Bytes
  | [] => .ok out
  | [c] => if c = backslash then fail "invalid escape in string literal" else .ok (out ++ [c])
  | c :: d :: ds =>
    if c ≠ backslash then unescape (out ++ [c]) (d :: ds)
    else if d = 0x75 then
      match unicodeEscape (ds.take 4) with
      | some char => unescape (out ++ String.utf8EncodeChar char) (ds.drop 4)
      | none => fail "invalid unicode escape"
    else
      match simpleEscape d with
      | some e => unescape (out ++ [e]) ds
      | none => fail "invalid escape in string literal"
termination_by b => b.length
decreasing_by
  · simp
  · simp only [List.length_drop, List.length_cons]
    omega
  · simp only [List.length_cons]
    omega

/-- `&raw[1..raw.len() - 1]`. -/
def inside (raw : Bytes) : Scan Bytes := if raw.length < 2 then .error .panic else .ok raw.tail.dropLast

section

variable (fromSlice : Bytes → Except String Value)

def parseStringLiteral (token : Bytes) : Scan Value :=
  if token.head? = some quote then
    match fromSlice token with
    | .ok v => .ok v
    | .error e => fail s!"invalid string literal: {e}"
  else
    match inside token with
    | .error e => .error e
    | .ok inner => (unescape [] inner).map fun out => .string (fromUtf8Lossy out)

/-! ### Values -/

def isLiteralByte (c : UInt8) : Bool :=
  !isWhitespace c && c ≠ comma && c ≠ rparen && c ≠ rbracket && c ≠ rbrace

def parseLiteral (token : Bytes) : Scan Value :=
  match fromSlice token with
  | .ok v => .ok v
  | .error _ =>
    if token.all isIdentByte ∧ ¬ token.head?.any isDigit then .ok (.string (fromUtf8Lossy token))
    else fail s!"invalid value '{fromUtf8Lossy token}'"

def lookupVariable (vars : Value) (name : String) : Scan Value :=
  match vars with
  | .object m => (m.lookup name).elim (fail s!"variable '{name}' is not provided") .ok
  | _ => fail s!"variable '{name}' is not provided"

def hasKey {α : Type} (fields : List (String × α)) (name : String) : Bool := fields.any (·.1 = name)

section

variable (value : Bytes → Scan (Value × Bytes))

/-- What stands in a part of a list after its value is not looked at. -/
def parseItems : List Bytes → Scan (List Value)
  | [] => .ok []
  | item :: items =>
    if item.all isWhitespace then parseItems items
    else
      match value item with
      | .error e => .error e
      | .ok (v, _) => (parseItems items).map (v :: ·)

def parseEntry (item : Bytes) : Scan (String × Value) :=
  let b := skipWs item
  let name := fromUtf8Lossy (b.takeWhile isIdentByte)
  if skipIdent b = b then
    if b.head?.any isQuote then fail "quoted field names in input objects not supported"
    else fail "expected field name in input object"
  else
    match skipWs (skipIdent b) with
    | [] => fail s!"expected ':' after '{name}' in input object"
    | c :: cs =>
      if c = colon then (value cs).map fun r => (name, r.1)
      else fail s!"expected ':' after '{name}' in input object"

def parseEntries (map : List (String × Value)) : List Bytes → Scan (List (String × Value))
  | [] => .ok map
  | item :: items =>
    if item.all isWhitespace then parseEntries map items
    else
      match parseEntry value item with
      | .error e => .error e
      | .ok (name, v) =>
        if hasKey map name then fail s!"duplicate argument '{name}'"
        else parseEntries (insertField map name v) items

def parseList (raw : Bytes) : Scan Value :=
  match inside raw with
  | .error e => .error e
  | .ok inner => (parseItems value (splitTopLevel inner)).map .array

def parseInputObject (raw : Bytes) : Scan Value :=
  match inside raw with
  | .error e => .error e
  | .ok inner => (parseEntries value [] (splitTopLevel inner)).map .object

end

variable (vars : Value)

def parseValue : Nat → Nat → Bytes → Scan (Value × Bytes)
  | 0, _, _ => .error .overflow
  | stack + 1, depth, b =>
    if maxDepth < depth then fail "selection too deep"
    else
      match skipWs b with
      | [] => fail "expected value"
      | c :: cs =>
        if isQuote c then
          if cs.take 2 = [c, c] then fail "block string value not supported"
          else
            match skipString (c :: cs) with
            | (.error e, _) => .error e
            | (.ok _, rest) => (parseStringLiteral fromSlice (upTo (c :: cs) rest)).map (·, rest)
        else if c = lbracket then
          match skipBalanced lbracket rbracket 0 (c :: cs) with
          | .error e => .error e
          | .ok rest => (parseList (parseValue stack (depth + 1)) (upTo (c :: cs) rest)).map (·, rest)
        else if c = lbrace then
          match skipBalanced lbrace rbrace 0 (c :: cs) with
          | .error e => .error e
          | .ok rest => (parseInputObject (parseValue stack (depth + 1)) (upTo (c :: cs) rest)).map (·, rest)
        else if c = dollar then
          (lookupVariable vars (fromUtf8Lossy (cs.takeWhile isIdentByte))).map (·, skipIdent cs)
        else
          (parseLiteral fromSlice ((c :: cs).takeWhile isLiteralByte)).map
            (·, (c :: cs).dropWhile isLiteralByte)

/-! ### Arguments -/

def skipComma : Bytes → Bytes
  | [] => []
  | c :: cs => if c = comma then cs else c :: cs

def argsLoop (value : Bytes → Scan (Value × Bytes)) (args : List (String × Value)) (b : Bytes) :
    Scan (List (String × Value)) :=
  match skipWs b with
  | [] => fail "expected ')' in arguments"
  | c :: cs =>
    if c = rparen then .ok args
    else
      let name := fromUtf8Lossy ((c :: cs).takeWhile isIdentByte)
      if skipIdent (c :: cs) = c :: cs then fail "expected argument name"
      else
        match skipWs (skipIdent (c :: cs)) with
        | [] => fail s!"expected ':' after argument '{name}'"
        | d :: ds =>
          if d = colon then
            match value (skipWs ds) with
            | .error e => .error e
            | .ok (v, rest) =>
              if hasKey args name then fail s!"duplicate argument '{name}'"
              else if (skipComma (skipWs rest)).length < b.length then
                argsLoop value (insertField args name v) (skipComma (skipWs rest))
              else .error .hang
          else fail s!"expected ':' after argument '{name}'"
termination_by b.length

def parseArgs (stack depth : Nat) (raw : Bytes) : Scan (List (String × Value)) :=
  match skipWs raw with
  | [] => fail "expected '(' in arguments"
  | c :: cs =>
    if c = lparen then argsLoop (parseValue fromSlice vars stack depth) [] cs
    else fail "expected '(' in arguments"

end

end Ecat.Graphql
