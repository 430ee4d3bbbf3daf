import Ecat.Json

/-! The scanners of the GraphQL parser. The cursor is what is left of the bytes; where the source reads,
slices or counts down without a check, the model stops with a panic when that is out of bounds. -/

namespace Ecat.Graphql

abbrev Bytes := List UInt8

/-- How a call ends other than with a result: an error, a panic, a loop that does not advance, or more
calls within each other than there is room for. -/
inductive Stop
  | error (text : String)
  | panic
  | hang
  | overflow
  deriving DecidableEq, Repr

abbrev Scan := Except Stop

def fail {α : Type} (text : String) : Scan α := .error (.error text)

/-! ### Bytes -/

abbrev newline : UInt8 := 0x0a
abbrev quote : UInt8 := 0x22
abbrev hash : UInt8 := 0x23
abbrev dollar : UInt8 := 0x24
abbrev apostrophe : UInt8 := 0x27
abbrev lparen : UInt8 := 0x28
abbrev rparen : UInt8 := 0x29
abbrev comma : UInt8 := 0x2c
abbrev dot : UInt8 := 0x2e
abbrev colon : UInt8 := 0x3a
abbrev atSign : UInt8 := 0x40
abbrev lbracket : UInt8 := 0x5b
abbrev backslash : UInt8 := 0x5c
abbrev rbracket : UInt8 := 0x5d
abbrev lbrace : UInt8 := 0x7b
abbrev rbrace : UInt8 := 0x7d

/-- ASCII white space. -/
def isWhitespace (c : UInt8) : Bool := c = 0x20 || c = 0x09 || c = newline || c = 0x0c || c = 0x0d

def isDigit (c : UInt8) : Bool := 0x30 ≤ c && c ≤ 0x39

def isIdentByte (c : UInt8) : Bool :=
  isDigit c || (0x41 ≤ c && c ≤ 0x5a) || (0x61 ≤ c && c ≤ 0x7a) || c = 0x5f

def isQuote (c : UInt8) : Bool := c = quote || c = apostrophe

/-- The bytes of `b` before `rest`, which is what is left of it. -/
def upTo (b rest : Bytes) : Bytes := b.take (b.length - rest.length)

/-! ### Scanners -/

def skipFrom (comment : Bool) : Bytes → Bytes
  | [] => []
  | c :: cs =>
    if comment then skipFrom (c ≠ newline) cs
    else if isWhitespace c then skipFrom false cs
    else if c = hash then skipFrom true cs
    else c :: cs

def skipWs (b : Bytes) : Bytes := skipFrom false b

def skipIdent (b : Bytes) : Bytes := b.dropWhile isIdentByte

def unterminated : Stop := .error "unterminated string literal"

/-- The rest of a string, up to its quote. On an error the second part is where the scan stands. -/
def skipSimple (q : UInt8) : Bytes → Scan Unit × Bytes
  | [] => (.error unterminated, [])
  | [c] =>
    if c = backslash then (.error unterminated, [c])
    else if c = q then (.ok (), [])
    else (.error unterminated, [])
  | c :: d :: cs =>
    if c = backslash then skipSimple q cs
    else if c = q then (.ok (), d :: cs)
    else skipSimple q (d :: cs)

/-- The rest of a block string, up to three quotes; a backslash does not protect them. -/
def skipBlock (q : UInt8) : Bytes → Scan Unit × Bytes
  | [] => (.error unterminated, [])
  | c :: cs => if c = q ∧ cs.take 2 = [q, q] then (.ok (), cs.drop 2) else skipBlock q cs

def skipString : Bytes → Scan Unit × Bytes
  | [] => (.error .panic, [])
  | q :: cs => if cs.take 2 = [q, q] then skipBlock q (cs.drop 2) else skipSimple q cs

theorem skipSimple_suffix (q : UInt8) (b : Bytes) : (skipSimple q b).2 <:+ b := by
  fun_induction skipSimple q b with
  | case1 => exact List.suffix_rfl
  | case2 => exact List.suffix_rfl
  | case3 => exact List.nil_suffix
  | case4 => exact List.nil_suffix
  | case5 d cs ih => exact ih.trans ((List.suffix_cons _ _).trans (List.suffix_cons _ _))
  | case6 => exact List.suffix_cons _ _
  | case7 _ d cs _ _ ih => exact ih.trans (List.suffix_cons _ _)

theorem skipBlock_suffix (q : UInt8) (b : Bytes) : (skipBlock q b).2 <:+ b := by
  fun_induction skipBlock q b with
  | case1 => exact List.suffix_rfl
  | case2 c cs _ => exact (List.drop_suffix _ _).trans (List.suffix_cons _ _)
  | case3 c cs _ ih => exact ih.trans (List.suffix_cons _ _)

theorem skipString_suffix (c : UInt8) (cs : Bytes) : (skipString (c :: cs)).2 <:+ cs := by
  rw [skipString]
  split_ifs
  · exact (skipBlock_suffix _ _).trans (List.drop_suffix _ _)
  · exact skipSimple_suffix _ _

/-- `depth` counts the open parentheses. -/
def skipParens (depth : Nat) : Bytes → Scan Bytes
  | [] => fail "unbalanced parentheses"
  | c :: cs =>
    if c = lparen then skipParens (depth + 1) cs
    else if c = rparen then
      if depth = 0 then .error .panic else if depth = 1 then .ok cs else skipParens (depth - 1) cs
    else if isQuote c then
      match (skipString (c :: cs)).1 with
      | .error e => .error e
      | .ok _ => skipParens depth (skipString (c :: cs)).2
    else skipParens depth cs
termination_by b => b.length
decreasing_by
  · simp
  · simp
  · have h := (skipString_suffix c cs).length_le
    simp only [List.length_cons]
    omega
  · simp

def skipBalanced (opening closing : UInt8) (depth : Nat) : Bytes → Scan Bytes
  | [] => fail "unbalanced value group"
  | c :: cs =>
    if c = opening then skipBalanced opening closing (depth + 1) cs
    else if c = closing then
      if depth - 1 = 0 then .ok cs else skipBalanced opening closing (depth - 1) cs
    else if isQuote c then
      match (skipString (c :: cs)).1 with
      | .error e => .error e
      | .ok _ => skipBalanced opening closing depth (skipString (c :: cs)).2
    else skipBalanced opening closing depth cs
termination_by b => b.length
decreasing_by
  · simp
  · simp
  · have h := (skipString_suffix c cs).length_le
    simp only [List.length_cons]
    omega
  · simp

/-- The groups that are open in a value, by kind; closing one that is not open counts for nothing. -/
structure Groups where
  round : Nat
  square : Nat
  curly : Nat
  deriving DecidableEq, Repr

def Groups.none : Groups := ⟨0, 0, 0⟩

def Groups.after (g : Groups) (c : UInt8) : Groups :=
  if c = lparen then { g with round := g.round + 1 }
  else if c = rparen then { g with round := g.round - 1 }
  else if c = lbracket then { g with square := g.square + 1 }
  else if c = rbracket then { g with square := g.square - 1 }
  else if c = lbrace then { g with curly := g.curly + 1 }
  else if c = rbrace then { g with curly := g.curly - 1 }
  else g

/-- The parts between the commas outside all groups and strings; `part` is what the current one has. -/
def splitFrom (g : Groups) (part : Bytes) : Bytes → List Bytes
  | [] => [part]
  | c :: cs =>
    if isQuote c then
      splitFrom g (part ++ upTo (c :: cs) (skipString (c :: cs)).2) (skipString (c :: cs)).2
    else if c = comma ∧ g = .none then part :: splitFrom .none [] cs
    else splitFrom (g.after c) (part ++ [c]) cs
termination_by b => b.length
decreasing_by
  · have h := (skipString_suffix c cs).length_le
    simp only [List.length_cons]
    omega
  · simp
  · simp

def splitTopLevel (raw : Bytes) : List Bytes := splitFrom .none [] raw

end Ecat.Graphql
