import Ecat.Base64
import Ecat.Json
import Ecat.Results
import Ecat.SortedMap

/-! Cells of HBase: the CellSet that a put sends and the cells that a get reads from one. A string is
stored as it is and any other value as its JSON text, so that a string that is JSON text is read as
the value it spells. -/

namespace Ecat.Hbase

open Json

/-! ### The libraries -/

/-- Base64 as the library has it: what it encodes it decodes. -/
structure Base64 where
  encode : ByteArray → String
  decode : String → Except String ByteArray
  decode_encode : ∀ bytes, decode (encode bytes) = .ok bytes

/-- How JSON texts and bodies are read. -/
structure JsonReader where
  fromStr : String → Except String Value
  fromSlice : ByteArray → Except String Value

/-! ### Values and cells -/

inductive Error
  | invalidComponent (name value : String)
  | invalidColumn (column : String)
  | backend (message : String)
  deriving DecidableEq, Repr

/-- The message; `debug` prints a string with quotes. -/
def Error.message (debug : String → String) : Error → String
  | invalidComponent name value => s!"hbase: invalid {name} {debug value}"
  | invalidColumn column => s!"hbase: invalid cell column {debug column} (expected family:qualifier)"
  | backend message => message

abbrev Cells := SortedMap String Value

def encodeValue : Value → ByteArray
  | .string s => s.toUTF8
  | other => other.toText.toUTF8

variable (B : Base64) (J : JsonReader)

def decodeValue (bytes : ByteArray) : Value :=
  match String.fromUTF8? bytes with
  | some s => (J.fromStr s).toOption.getD (.string s)
  | none => .string (B.encode bytes)

def decodeKey (bytes : ByteArray) : String := (String.fromUTF8? bytes).getD (B.encode bytes)

def decodeB64 (text : String) : Except Error ByteArray :=
  (B.decode text).mapError fun e => .backend s!"hbase: invalid base64 in CellSet: {e}"

def textOf (v : Value) (name message : String) : Except Error String :=
  match (v.get name).bind Value.asStr with
  | some text => .ok text
  | none => .error (.backend message)

/-- Of several versions of a column the first one is kept. -/
def parseCell (cells : Cells) (cell : Value) : Except Error Cells := do
  let column ← textOf cell "column" "hbase: CellSet cell has no column"
  let data ← textOf cell "$" "hbase: CellSet cell has no value"
  match String.fromUTF8? (← decodeB64 B column) with
  | none => .error (.backend "hbase: non-UTF-8 cell column")
  | some column => return cells.orInsert column (decodeValue B J (← decodeB64 B data))

def parseRow (row : Value) : Except Error (String × Cells) := do
  let key ← textOf row "key" "hbase: CellSet row has no key"
  let key := decodeKey B (← decodeB64 B key)
  match row.get "Cell" with
  | none => return (key, .empty)
  | some list =>
    match list.asArray with
    | none => .error (.backend "hbase: CellSet Cell is not an array")
    | some list => return (key, ← list.foldlM (parseCell B J) .empty)

def parseCellset (body : ByteArray) : Except Error (List (String × Cells)) :=
  match J.fromSlice body with
  | .error e => .error (.backend s!"hbase: invalid CellSet: {e}")
  | .ok value =>
    match value.get "Row" with
    | none => .ok []
    | some rows =>
      match rows.asArray with
      | none => .error (.backend "hbase: CellSet.Row is not an array")
      | some rows => rows.mapM (parseRow B J)

/-! ### Put and get -/

def validateComponent (name value : String) : Except Error Unit :=
  if value = "" ∨ '/' ∈ value.toList ∨ value = "." ∨ value = ".." then .error (.invalidComponent name value)
  else .ok ()

def splitOnce (sep : Char) : List Char → Option (List Char × List Char)
  | [] => none
  | c :: cs => if c = sep then some ([], cs) else (splitOnce sep cs).map fun p => (c :: p.1, p.2)

def isColumnName (column : String) : Bool :=
  match splitOnce ':' column.toList with
  | some (family, qualifier) => !family.isEmpty && !qualifier.isEmpty
  | none => false

def encodeCell (cell : String × Value) : Except Error Value :=
  if isColumnName cell.1 then
    .ok (.object [("$", .string (B.encode (encodeValue cell.2))), ("column", .string (B.encode cell.1.toUTF8))])
  else .error (.invalidColumn cell.1)

/-- The CellSet in the body of the request. -/
def put (table row : String) (cells : Cells) : Except Error Value := do
  validateComponent "table" table
  validateComponent "row" row
  let encoded ← cells.entries.mapM (encodeCell B)
  return .object [("Row", .array [.object [("Cell", .array encoded), ("key", .string (B.encode row.toUTF8))]])]

inductive Response
  | notFound
  | failed (error : Error)
  | found (body : ByteArray)

def get (table row : String) (response : Response) : Except Error (Option Cells) := do
  validateComponent "table" table
  validateComponent "row" row
  match response with
  | .notFound => return none
  | .failed e => .error e
  | .found body => return (← parseCellset B J body).head?.map Prod.snd

/-! ### The server -/

def bytesOf (v : Value) (name : String) : Option ByteArray := do
  (B.decode (← (← v.get name).asStr)).toOption

def cellBytes (cell : Value) : Option (ByteArray × ByteArray) := do
  return (← bytesOf B cell "column", ← bytesOf B cell "$")

def rowBytes (row : Value) : Option (ByteArray × List (ByteArray × ByteArray)) := do
  return (← bytesOf B row "key", ← (← (← row.get "Cell").asArray).mapM (cellBytes B))

def setBytes (set : Value) : Option (List (ByteArray × List (ByteArray × ByteArray))) := do
  (← (← set.get "Row").asArray).mapM (rowBytes B)

/-- The server answers with the row it was sent: the bytes of each cell are the same, in any order. -/
def Returned (request reply : Value) : Prop :=
  ∃ key cells cells', setBytes B request = some [(key, cells)] ∧ setBytes B reply = some [(key, cells')] ∧
    cells'.Perm cells

/-- A value comes back as it is: a string that is no other value's JSON text, or a value that is read
from its own text. -/
def Kept : Value → Prop
  | .string s => ∀ v, J.fromStr s = .ok v → v = .string s
  | other => J.fromStr other.toText = .ok other

/-- What comes back for a value. -/
def reread : Value → Value
  | .string s => (J.fromStr s).toOption.getD (.string s)
  | other => (J.fromStr other.toText).toOption.getD (.string other.toText)

/-! ### What comes back -/

variable {B J}

theorem fromUTF8_toUTF8 (s : String) : String.fromUTF8? s.toUTF8 = some s := dif_pos s.isValidUTF8

theorem decodeValue_encodeValue (v : Value) : decodeValue B J (encodeValue v) = reread J v := by
  cases v with
  | string s => rw [encodeValue, decodeValue, fromUTF8_toUTF8, reread]
  | _ =>
    unfold encodeValue decodeValue
    rw [fromUTF8_toUTF8, reread]
    rintro _ ⟨⟩

theorem reread_other {v : Value} {text : String} (hv : ∀ s, v ≠ .string s) :
    (J.fromStr text).toOption.getD (.string text) = v ↔ J.fromStr text = .ok v := by
  cases hread : J.fromStr text with
  | ok u => simp [Except.toOption]
  | error e => simpa [Except.toOption] using fun h => hv text h.symm

theorem reread_eq_iff (v : Value) : reread J v = v ↔ Kept J v := by
  cases v with
  | string s =>
    unfold reread Kept
    cases hread : J.fromStr s with
    | ok u => simp [hread, Except.toOption]
    | error e => simp [hread, Except.toOption]
  | _ => exact reread_other fun _ h => by cases h

/-- The entry that is read from the bytes of a cell. -/
def entryOf (B : Base64) (J : JsonReader) (bytes : ByteArray × ByteArray) : String × Value :=
  ((String.fromUTF8? bytes.1).getD "", decodeValue B J bytes.2)

theorem bytesOf_inv {v : Value} {name : String} {bytes : ByteArray} (h : bytesOf B v name = some bytes) :
    ∃ text, (v.get name).bind Value.asStr = some text ∧ B.decode text = .ok bytes := by
  obtain ⟨u, hu, h⟩ := Option.bind_eq_some_iff.1 h
  obtain ⟨text, htext, h⟩ := Option.bind_eq_some_iff.1 h
  refine ⟨text, by rw [hu]; exact htext, ?_⟩
  cases hdecode : B.decode text with
  | ok found =>
    rw [hdecode] at h
    rw [Option.some.inj h]
  | error e =>
    rw [hdecode] at h
    cases h

theorem parse_bytes {v : Value} {name : String} {bytes : ByteArray} (h : bytesOf B v name = some bytes)
    (message : String) :
    ∃ text, textOf v name message = .ok text ∧ decodeB64 B text = .ok bytes := by
  obtain ⟨text, htext, hdecode⟩ := bytesOf_inv h
  refine ⟨text, by rw [textOf, htext], by rw [decodeB64, hdecode]; rfl⟩

theorem parseCell_bytes {cell : Value} {bytes : ByteArray × ByteArray} {column : String} (cells : Cells)
    (h : cellBytes B cell = some bytes) (hcolumn : String.fromUTF8? bytes.1 = some column) :
    parseCell B J cells cell = .ok (cells.orInsert (entryOf B J bytes).1 (entryOf B J bytes).2) := by
  obtain ⟨c, hc, h⟩ := Option.bind_eq_some_iff.1 h
  obtain ⟨d, hd, h⟩ := Option.bind_eq_some_iff.1 h
  obtain rfl := Option.some.inj h
  obtain ⟨text, htext, hdecode⟩ := parse_bytes hc "hbase: CellSet cell has no column"
  obtain ⟨text', htext', hdecode'⟩ := parse_bytes hd "hbase: CellSet cell has no value"
  have hcolumn : String.fromUTF8? c = some column := hcolumn
  rw [parseCell, htext, ok_bind, htext', ok_bind, hdecode, ok_bind, hcolumn]
  simp only [hdecode', entryOf, hcolumn]
  rfl

theorem parseCells_bytes {list : List Value} {bytes : List (ByteArray × ByteArray)} (cells : Cells)
    (h : list.mapM (cellBytes B) = some bytes) (hcolumns : ∀ b ∈ bytes, ∃ column, String.fromUTF8? b.1 = some column) :
    list.foldlM (parseCell B J) cells =
      .ok ((bytes.map (entryOf B J)).foldl (fun m e => m.orInsert e.1 e.2) cells) := by
  induction list generalizing bytes cells with
  | nil =>
    obtain rfl : bytes = [] := by simpa using h.symm
    rfl
  | cons cell list ih =>
    rw [List.mapM_cons] at h
    obtain ⟨b, hb, h⟩ := Option.bind_eq_some_iff.1 h
    obtain ⟨rest, hrest, h⟩ := Option.bind_eq_some_iff.1 h
    obtain rfl := Option.some.inj h
    obtain ⟨column, hcolumn⟩ := hcolumns b List.mem_cons_self
    rw [List.foldlM_cons, parseCell_bytes cells hb hcolumn, ok_bind]
    exact ih _ hrest fun b' hb' => hcolumns b' (List.mem_cons_of_mem b hb')

theorem parseRow_bytes {row : Value} {key : ByteArray} {bytes : List (ByteArray × ByteArray)}
    (h : rowBytes B row = some (key, bytes)) (hcolumns : ∀ b ∈ bytes, ∃ column, String.fromUTF8? b.1 = some column) :
    parseRow B J row = .ok (decodeKey B key, .ofList (bytes.map (entryOf B J))) := by
  obtain ⟨k, hkey, h⟩ := Option.bind_eq_some_iff.1 h
  obtain ⟨cell, hcell, h⟩ := Option.bind_eq_some_iff.1 h
  obtain ⟨list, hlist, h⟩ := Option.bind_eq_some_iff.1 h
  obtain ⟨found, hfound, h⟩ := Option.bind_eq_some_iff.1 h
  obtain ⟨rfl, rfl⟩ := Prod.mk.inj (Option.some.inj h)
  obtain ⟨text, htext, hdecode⟩ := parse_bytes hkey "hbase: CellSet row has no key"
  rw [parseRow, htext, ok_bind, hdecode, ok_bind]
  simp only [hcell, hlist, parseCells_bytes _ hfound hcolumns]
  rfl

theorem parseCellset_bytes {body : ByteArray} {reply : Value} {key : ByteArray} {bytes : List (ByteArray × ByteArray)}
    (hbody : J.fromSlice body = .ok reply) (h : setBytes B reply = some [(key, bytes)])
    (hcolumns : ∀ b ∈ bytes, ∃ column, String.fromUTF8? b.1 = some column) :
    parseCellset B J body = .ok [(decodeKey B key, .ofList (bytes.map (entryOf B J)))] := by
  obtain ⟨rows, hrows, h⟩ := Option.bind_eq_some_iff.1 h
  obtain ⟨list, hlist, h⟩ := Option.bind_eq_some_iff.1 h
  cases list with
  | nil => simp at h
  | cons row list =>
    rw [List.mapM_cons] at h
    obtain ⟨found, hrow, h⟩ := Option.bind_eq_some_iff.1 h
    obtain ⟨rest, hrest, h⟩ := Option.bind_eq_some_iff.1 h
    obtain ⟨rfl, rfl⟩ := List.cons.inj (Option.some.inj h)
    have hnil : list = [] := by
      cases list with
      | nil => rfl
      | cons row' list =>
        rw [List.mapM_cons] at hrest
        obtain ⟨_, _, hrest⟩ := Option.bind_eq_some_iff.1 hrest
        obtain ⟨_, _, hrest⟩ := Option.bind_eq_some_iff.1 hrest
        cases hrest
    subst hnil
    rw [parseCellset, hbody]
    simp only [hrows, hlist, List.mapM_cons, parseRow_bytes hrow hcolumns]
    rfl

theorem bytesOf_encode {v : Value} {name : String} {bytes : ByteArray}
    (h : v.get name = some (.string (B.encode bytes))) : bytesOf B v name = some bytes := by
  rw [bytesOf, h]
  show (B.decode (B.encode bytes)).toOption = some bytes
  rw [B.decode_encode]
  rfl

theorem encodeCell_bytes {cell : String × Value} {encoded : Value} (h : encodeCell B cell = .ok encoded) :
    cellBytes B encoded = some (cell.1.toUTF8, encodeValue cell.2) := by
  rw [encodeCell] at h
  split_ifs at h
  obtain rfl := Except.ok.inj h
  rw [cellBytes, @bytesOf_encode B _ _ cell.1.toUTF8 rfl, @bytesOf_encode B _ _ (encodeValue cell.2) rfl]
  rfl

theorem encodeCells_bytes {l : List (String × Value)} {encoded : List Value} (h : l.mapM (encodeCell B) = .ok encoded) :
    encoded.mapM (cellBytes B) = some (l.map fun e => (e.1.toUTF8, encodeValue e.2)) := by
  induction l generalizing encoded with
  | nil =>
    obtain rfl := Except.ok.inj h
    rfl
  | cons cell l ih =>
    rw [List.mapM_cons] at h
    obtain ⟨first, hfirst, h⟩ := bind_eq_ok.1 h
    obtain ⟨rest, hrest, h⟩ := bind_eq_ok.1 h
    obtain rfl := Except.ok.inj h
    rw [List.mapM_cons, encodeCell_bytes hfirst, ih hrest]
    rfl

/-- What a put sends holds the row and the cells, each as its bytes. -/
theorem put_bytes {table row : String} {cells : Cells} {request : Value} (h : put B table row cells = .ok request) :
    setBytes B request = some [(row.toUTF8, cells.entries.map fun e => (e.1.toUTF8, encodeValue e.2))] := by
  obtain ⟨_, -, h⟩ := bind_eq_ok.1 h
  obtain ⟨_, -, h⟩ := bind_eq_ok.1 h
  obtain ⟨encoded, hencoded, h⟩ := bind_eq_ok.1 h
  obtain rfl := Except.ok.inj h
  have hcells := encodeCells_bytes hencoded
  have hrow : rowBytes B (.object [("Cell", .array encoded), ("key", .string (B.encode row.toUTF8))]) =
      some (row.toUTF8, cells.entries.map fun e => (e.1.toUTF8, encodeValue e.2)) := by
    rw [rowBytes, @bytesOf_encode B _ _ row.toUTF8 rfl]
    show ((encoded.mapM (cellBytes B)).bind fun found => some (row.toUTF8, found)) = _
    rw [hcells]
    rfl
  show ([_].mapM (rowBytes B)) = _
  rw [List.mapM_cons, hrow]
  rfl

theorem get_put_reread {table row : String} {cells : Cells} {request reply : Value} {body : ByteArray}
    (hput : put B table row cells = .ok request) (hserver : Returned B request reply)
    (hbody : J.fromSlice body = .ok reply) :
    get B J table row (.found body) = .ok (some (cells.map (reread J))) := by
  obtain ⟨_, htable, hrest⟩ := bind_eq_ok.1 hput
  obtain ⟨_, hrow, -⟩ := bind_eq_ok.1 hrest
  obtain ⟨key, sent, found, hsent, hfound, hperm⟩ := hserver
  rw [put_bytes hput] at hsent
  obtain ⟨rfl, rfl⟩ := Prod.mk.inj (List.cons.inj (Option.some.inj hsent)).1
  have hcolumns : ∀ b ∈ found, ∃ column, String.fromUTF8? b.1 = some column := by
    intro b hb
    obtain ⟨e, -, rfl⟩ := List.mem_map.1 (hperm.subset hb)
    exact ⟨e.1, fromUTF8_toUTF8 e.1⟩
  have hentries : (found.map (entryOf B J)).Perm (cells.map (reread J)).entries := by
    refine (hperm.map _).trans (.of_eq ?_)
    rw [List.map_map]
    apply List.map_congr_left
    intro e _
    show ((String.fromUTF8? e.1.toUTF8).getD "", decodeValue B J (encodeValue e.2)) = _
    rw [fromUTF8_toUTF8, decodeValue_encodeValue]
    rfl
  rw [get, htable, ok_bind, hrow, ok_bind]
  simp only [parseCellset_bytes hbody hfound hcolumns, SortedMap.ofList_perm hentries]
  rfl

/-- A get after a put gives the cells with each value as it is read from what was stored for it, and the
cells as they were exactly if every value comes back as it is. -/
theorem get_put {table row : String} {cells : Cells} {request reply : Value} {body : ByteArray}
    (hput : put B table row cells = .ok request) (hserver : Returned B request reply)
    (hbody : J.fromSlice body = .ok reply) :
    get B J table row (.found body) = .ok (some (cells.map (reread J))) ∧
    (get B J table row (.found body) = .ok (some cells) ↔ ∀ e ∈ cells.entries, Kept J e.2) := by
  have hget := get_put_reread hput hserver hbody
  refine ⟨hget, ?_⟩
  rw [hget, Except.ok.injEq, Option.some.injEq, SortedMap.map_eq_self]
  simp only [reread_eq_iff]

/-! ### Cells that come back and cells that do not -/

theorem put_ok {table row : String} {cells : Cells} (htable : validateComponent "table" table = .ok ())
    (hrow : validateComponent "row" row = .ok ()) (hcolumns : ∀ e ∈ cells.entries, isColumnName e.1 = true) :
    ∃ request, put B table row cells = .ok request := by
  have hencoded : ∀ l : List (String × Value), (∀ e ∈ l, isColumnName e.1 = true) →
      ∃ encoded, l.mapM (encodeCell B) = .ok encoded := by
    intro l hl
    induction l with
    | nil => exact ⟨[], rfl⟩
    | cons e l ih =>
      obtain ⟨encoded, hrest⟩ := ih fun d hd => hl d (List.mem_cons_of_mem e hd)
      rw [List.mapM_cons, hrest, encodeCell, if_pos (hl e List.mem_cons_self)]
      exact ⟨_, rfl⟩
  obtain ⟨encoded, hencoded⟩ := hencoded cells.entries hcolumns
  rw [put, htable, ok_bind, hrow, ok_bind, hencoded]
  exact ⟨_, rfl⟩

theorem returned_self {table row : String} {cells : Cells} {request : Value} (h : put B table row cells = .ok request) :
    Returned B request request :=
  ⟨_, _, _, put_bytes h, put_bytes h, List.Perm.refl _⟩

def standard : Base64 where
  encode bytes := String.ofList (Ecat.Base64.encode bytes.data.toList)
  decode text :=
    match Ecat.Base64.decode text.toList with
    | some bytes => .ok ⟨bytes.toArray⟩
    | none => .error "invalid base64"
  decode_encode bytes := by
    simp only [String.toList_ofList, Ecat.Base64.decode_encode]

def readDecimal (text : String) : Except String Value :=
  if h : text ≠ "" ∧ text.toList.all Char.isDigit = true ∧ InI64 (Nat.ofDigitChars 10 text.toList 0) then
    .ok (.ofI64 _ h.2.2)
  else .error "expected value"

/-- A reader of decimal numbers that is given one body. -/
def reader (request : Value) : JsonReader where
  fromStr := readDecimal
  fromSlice body := if body = request.toText.toUTF8 then .ok request else .error "expected value"

theorem fromSlice_reader (request : Value) : (reader request).fromSlice request.toText.toUTF8 = .ok request :=
  if_pos rfl

def fortyTwo : Value := .ofI64 42 (by decide)

theorem readDecimal_eq {text : String} {n : Nat} (hne : text ≠ "") (hdigits : text.toList.all Char.isDigit = true)
    (hread : Nat.ofDigitChars 10 text.toList 0 = n) (h : InI64 n) : readDecimal text = .ok (.ofI64 n h) := by
  subst hread
  exact dif_pos ⟨hne, hdigits, h⟩

theorem readDecimal_fortyTwo : readDecimal "42" = .ok fortyTwo :=
  readDecimal_eq (by decide) (by decide +kernel) (by decide +kernel) _

def plainCells : Cells := ⟨[("cf:a", .string "v1"), ("cf:n", fortyTwo)], by decide +kernel⟩

theorem plain_cells_return : ∃ request, put standard "orders" "r1" plainCells = .ok request ∧
    get standard (reader request) "orders" "r1" (.found request.toText.toUTF8) = .ok (some plainCells) := by
  have hcolumns : ∀ e ∈ plainCells.entries, isColumnName e.1 = true := by
    have hnames : ∀ column ∈ ["cf:a", "cf:n"], isColumnName column = true := by decide +kernel
    exact fun e he => hnames e.1 (List.mem_map_of_mem (f := Prod.fst) he)
  obtain ⟨request, hput⟩ := @put_ok standard "orders" "r1" plainCells (by decide +kernel) (by decide +kernel) hcolumns
  refine ⟨request, hput, (get_put hput (returned_self hput) (fromSlice_reader request)).2.2 ?_⟩
  intro e he
  rcases List.mem_pair.1 he with rfl | rfl
  · intro v hv
    have hread : readDecimal "v1" = .error "expected value" := dif_neg fun h => by simp at h
    cases hread.symm.trans hv
  · have htext : fortyTwo.toText = "42" := by decide +kernel
    show readDecimal fortyTwo.toText = .ok fortyTwo
    rw [htext, readDecimal_fortyTwo]

def numeralCells : Cells := ⟨[("cf:a", .string "42")], by decide +kernel⟩

/-- The string `42` comes back as the number. -/
theorem numeral_not_returned : ∃ request, put standard "orders" "r1" numeralCells = .ok request ∧
    Returned standard request request ∧ (reader request).fromSlice request.toText.toUTF8 = .ok request ∧
    get standard (reader request) "orders" "r1" (.found request.toText.toUTF8) ≠ .ok (some numeralCells) := by
  have hcolumns : ∀ e ∈ numeralCells.entries, isColumnName e.1 = true := by
    intro e he
    rw [List.mem_singleton.1 he]
    decide +kernel
  obtain ⟨request, hput⟩ := @put_ok standard "orders" "r1" numeralCells (by decide +kernel) (by decide +kernel) hcolumns
  refine ⟨request, hput, returned_self hput, fromSlice_reader request, ?_⟩
  rw [get_put_reread hput (returned_self hput) (fromSlice_reader request)]
  intro h
  have hsame := SortedMap.map_eq_self.1 (Option.some.inj (Except.ok.inj h)) ("cf:a", .string "42") List.mem_cons_self
  have hreread : reread (reader request) (.string "42") = fortyTwo := by
    show (readDecimal "42").toOption.getD (.string "42") = fortyTwo
    rw [readDecimal_fortyTwo]
    rfl
  cases hreread.symm.trans hsame

end Ecat.Hbase
