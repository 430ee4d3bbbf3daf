import Ecat.CassandraNumbers
import Ecat.CassandraTime
import Ecat.IpText
import Ecat.JsonTexts
import Ecat.SortedMap

/-! CQL values, their types, and the JSON that they are turned into. -/

namespace Ecat.Cassandra

open Json

/-- A float or a double: a finite one by its value and the text it prints as. -/
inductive Double
  | finite (value : ℚ) (text : String)
  | nan
  | infinity (negative : Bool)
  deriving DecidableEq

/-- The values of the native types. -/
inductive Native
  | ascii (text : String)
  | text (text : String)
  | boolean (flag : Bool)
  | tinyInt (n : Int8)
  | smallInt (n : Int16)
  | int (n : Int32)
  | bigInt (n : Int64)
  | counter (n : Int64)
  | float (x : Double)
  | double (x : Double)
  | blob (bytes : List UInt8)
  | uuid (id : BitVec 128)
  | timeuuid (id : BitVec 128)
  | timestamp (millis : Int64)
  | date (days : UInt32)
  | time (nanos : Int64)
  | decimal (unscaled : List UInt8) (scale : Int32)
  | inet (address : IpAddr)
  | varint (bytes : List UInt8)
  | duration (months days : Int32) (nanoseconds : Int64)
  deriving DecidableEq

/-- `none` among items and fields is NULL. -/
inductive CqlValue
  | native (value : Native)
  | empty
  | list (items : List CqlValue)
  | set (items : List CqlValue)
  | vector (items : List CqlValue)
  | map (entries : List (CqlValue × CqlValue))
  | tuple (items : List (Option CqlValue))
  | userDefinedType (fields : List (String × Option CqlValue))

/-- The text of a UUID, which the driver's library writes. -/
structure UuidText where
  text : BitVec 128 → String
  inj : ∀ id other, text id = text other → id = other
  /-- The letters of its digits are small. -/
  lower : ∀ id, 'E' ∉ (text id).toList

/-! ### Texts -/

theorem inI64_of {n : Int} (h : -2 ^ 63 ≤ n ∧ n < 2 ^ 63) : InI64 n := by
  unfold InI64 i64Min i64Max
  omega

theorem int8_fits (n : Int8) : InI64 n.toInt :=
  inI64_of ⟨le_trans (by decide) n.le_toInt, lt_of_lt_of_le n.toInt_lt (by decide)⟩

theorem int16_fits (n : Int16) : InI64 n.toInt :=
  inI64_of ⟨le_trans (by decide) n.le_toInt, lt_of_lt_of_le n.toInt_lt (by decide)⟩

theorem int32_fits (n : Int32) : InI64 n.toInt :=
  inI64_of ⟨le_trans (by decide) n.le_toInt, lt_of_lt_of_le n.toInt_lt (by decide)⟩

theorem int64_fits (n : Int64) : InI64 n.toInt := inI64_of ⟨n.le_toInt, n.toInt_lt⟩

theorem byte_fits (byte : UInt8) : InI64 byte.toNat := by
  have h := byte.toNat_lt
  exact inI64_of (by omega)

theorem formatDate_isSome (days : UInt32) : (formatDate days).isSome := by
  obtain ⟨y, m, d, hcivil, -⟩ := exists_dateText (dateDays_range days)
  simp [formatDate, hcivil]

theorem formatTimestamp_isSome (millis : Int64) : (formatTimestamp millis).isSome := by
  obtain ⟨y, m, d, hcivil, -⟩ := exists_dateText (timestampDays_range millis)
  simp [formatTimestamp, hcivil]

def durationText (months days : Int32) (nanoseconds : Int64) : String :=
  toString months.toInt ++ "mo" ++ toString days.toInt ++ "d" ++ toString nanoseconds.toInt ++ "ns"

/-- JSON has no text for what is not finite. -/
def Double.toJson : Double → Value
  | .finite value text => .number (.float value text)
  | _ => .null

variable (T : UuidText)

def Native.toJson : Native → Value
  | .ascii s => .string s
  | .text s => .string s
  | .boolean flag => .bool flag
  | .tinyInt n => .ofI64 n.toInt (int8_fits n)
  | .smallInt n => .ofI64 n.toInt (int16_fits n)
  | .int n => .ofI64 n.toInt (int32_fits n)
  | .bigInt n => .ofI64 n.toInt (int64_fits n)
  | .counter n => .ofI64 n.toInt (int64_fits n)
  | .float x => x.toJson
  | .double x => x.toJson
  | .blob bytes => .array (bytes.map fun byte => .ofI64 byte.toNat (byte_fits byte))
  | .uuid id => .string (T.text id)
  | .timeuuid id => .string (T.text id)
  | .timestamp millis => .string ((formatTimestamp millis).get (formatTimestamp_isSome millis))
  | .date days => .string ((formatDate days).get (formatDate_isSome days))
  | .time nanos => .string (formatTime nanos)
  | .decimal unscaled scale => .string (formatDecimal unscaled scale)
  | .inet address => .string address.toText
  | .varint bytes => .string (signedBeToDecimal bytes)
  | .duration months days nanoseconds => .string (durationText months days nanoseconds)

/-- A string is a key as it is, another value by its text. -/
def keyOf : Value → String
  | .string text => text
  | other => other.toText

/-- The members that are inserted, one after the other; a later one takes the place of one with its name. -/
def objectOf (members : List (String × Value)) : SortedMap String Value :=
  members.foldl (fun map member => map.insert member.1 member.2) .empty

/-- The empty value, which other types than texts and blobs may have, is written by its name. -/
def valueToJson : CqlValue → Value
  | .native v => v.toJson T
  | .empty => .string "Empty"
  | .list items => .array (ofItems items)
  | .set items => .array (ofItems items)
  | .vector items => .array (ofItems items)
  | .map entries => .object (objectOf (ofEntries entries)).entries
  | .tuple items => .array (ofOptions items)
  | .userDefinedType fields => .object (objectOf (ofFields fields)).entries
where
  ofOption : Option CqlValue → Value
    | none => .null
    | some v => valueToJson v
  ofItems : List CqlValue → List Value
    | [] => []
    | item :: items => valueToJson item :: ofItems items
  ofEntries : List (CqlValue × CqlValue) → List (String × Value)
    | [] => []
    | (key, v) :: entries => (keyOf (valueToJson key), valueToJson v) :: ofEntries entries
  ofOptions : List (Option CqlValue) → List Value
    | [] => []
    | item :: items => ofOption item :: ofOptions items
  ofFields : List (String × Option CqlValue) → List (String × Value)
    | [] => []
    | (name, v) :: fields => (name, ofOption v) :: ofFields fields

/-- NULL stays `null`. -/
def cqlToJson : Option CqlValue → Value
  | none => .null
  | some v => valueToJson T v

theorem ofOption_eq (v : Option CqlValue) : valueToJson.ofOption T v = cqlToJson T v := by
  cases v <;> rfl

theorem toJson_items (items : List CqlValue) : valueToJson.ofItems T items = items.map (valueToJson T) := by
  induction items with
  | nil => rfl
  | cons item items ih => rw [valueToJson.ofItems, ih, List.map_cons]

theorem toJson_options (items : List (Option CqlValue)) : valueToJson.ofOptions T items = items.map (cqlToJson T) := by
  induction items with
  | nil => rfl
  | cons item items ih => rw [valueToJson.ofOptions, ih, List.map_cons, ofOption_eq]

def fieldOf (field : String × Option CqlValue) : String × Value := (field.1, cqlToJson T field.2)

theorem toJson_fields (fields : List (String × Option CqlValue)) :
    valueToJson.ofFields T fields = fields.map (fieldOf T) := by
  induction fields with
  | nil => rfl
  | cons field fields ih => rw [valueToJson.ofFields, ih, List.map_cons, ofOption_eq, fieldOf]

/-- The member that an entry of a map is given. -/
def memberOf (entry : CqlValue × CqlValue) : String × Value :=
  (keyOf (valueToJson T entry.1), valueToJson T entry.2)

theorem toJson_entries (entries : List (CqlValue × CqlValue)) :
    valueToJson.ofEntries T entries = entries.map (memberOf T) := by
  induction entries with
  | nil => rfl
  | cons entry entries ih => rw [valueToJson.ofEntries, ih, List.map_cons, memberOf]

/-! ### What stands in a value -/

namespace CqlValue

def children : CqlValue → List CqlValue
  | .native _ => []
  | .empty => []
  | .list items => items
  | .set items => items
  | .vector items => items
  | .map entries => entries.flatMap fun entry => [entry.1, entry.2]
  | .tuple items => items.filterMap id
  | .userDefinedType fields => fields.filterMap (·.2)

theorem sizeOf_children {v u : CqlValue} (h : u ∈ v.children) : sizeOf u < sizeOf v := by
  cases v with
  | native v => cases h
  | empty => cases h
  | list items =>
    have hlt : sizeOf u < sizeOf items := List.sizeOf_lt_of_mem h
    rw [list.sizeOf_spec]
    omega
  | set items =>
    have hlt : sizeOf u < sizeOf items := List.sizeOf_lt_of_mem h
    rw [set.sizeOf_spec]
    omega
  | vector items =>
    have hlt : sizeOf u < sizeOf items := List.sizeOf_lt_of_mem h
    rw [vector.sizeOf_spec]
    omega
  | map entries =>
    obtain ⟨⟨key, value⟩, hentry, hu⟩ := List.mem_flatMap.1 h
    have hlt := List.sizeOf_lt_of_mem hentry
    rw [Prod.mk.sizeOf_spec] at hlt
    rw [map.sizeOf_spec]
    rcases List.mem_pair.1 hu with rfl | rfl <;> simp only at * <;> omega
  | tuple items =>
    obtain ⟨item, hitem, rfl⟩ := List.mem_filterMap.1 h
    have hlt := List.sizeOf_lt_of_mem hitem
    rw [Option.some.sizeOf_spec] at hlt
    rw [tuple.sizeOf_spec]
    omega
  | userDefinedType fields =>
    obtain ⟨⟨name, item⟩, hfield, rfl⟩ := List.mem_filterMap.1 h
    have hlt := List.sizeOf_lt_of_mem hfield
    rw [Prod.mk.sizeOf_spec, Option.some.sizeOf_spec] at hlt
    rw [userDefinedType.sizeOf_spec]
    omega

/-- Induction on a value through the values it is made of. -/
theorem induction {P : CqlValue → Prop} (h : ∀ v, (∀ u ∈ v.children, P u) → P v) (v : CqlValue) : P v :=
  h v fun u _ => induction h u
termination_by sizeOf v
decreasing_by exact sizeOf_children ‹_›

/-- One value stands in the other, at any depth. -/
def Within (v u : CqlValue) : Prop := Relation.ReflTransGen (fun v u => u ∈ v.children) v u

end CqlValue

/-! ### Types -/

inductive NativeType
  | ascii | text | boolean | tinyInt | smallInt | int | bigInt | counter | float | double | blob | uuid | timeuuid
  | timestamp | date | time | decimal | inet | varint | duration
  deriving DecidableEq

inductive CqlType
  | native (t : NativeType)
  | list (t : CqlType)
  | set (t : CqlType)
  | vector (t : CqlType)
  | map (key value : CqlType)
  | tuple (ts : List CqlType)
  | userDefinedType (fields : List (String × CqlType))

def Native.type : Native → NativeType
  | .ascii _ => .ascii
  | .text _ => .text
  | .boolean _ => .boolean
  | .tinyInt _ => .tinyInt
  | .smallInt _ => .smallInt
  | .int _ => .int
  | .bigInt _ => .bigInt
  | .counter _ => .counter
  | .float _ => .float
  | .double _ => .double
  | .blob _ => .blob
  | .uuid _ => .uuid
  | .timeuuid _ => .timeuuid
  | .timestamp _ => .timestamp
  | .date _ => .date
  | .time _ => .time
  | .decimal .. => .decimal
  | .inet _ => .inet
  | .varint _ => .varint
  | .duration .. => .duration

/-- A text or a blob without bytes is an empty one and not the empty value. -/
def CqlType.HasEmpty : CqlType → Prop
  | .native t => t ∉ [.ascii, .text, .blob]
  | _ => True

inductive HasType : CqlValue → CqlType → Prop
  | native (v : Native) : HasType (.native v) (.native v.type)
  | empty {t : CqlType} (h : t.HasEmpty) : HasType .empty t
  | list {items : List CqlValue} {t : CqlType} (each : ∀ item ∈ items, HasType item t) : HasType (.list items) (.list t)
  | set {items : List CqlValue} {t : CqlType} (each : ∀ item ∈ items, HasType item t) : HasType (.set items) (.set t)
  | vector {items : List CqlValue} {t : CqlType} (each : ∀ item ∈ items, HasType item t) :
      HasType (.vector items) (.vector t)
  | map {entries : List (CqlValue × CqlValue)} {key value : CqlType} (keys : ∀ entry ∈ entries, HasType entry.1 key)
      (values : ∀ entry ∈ entries, HasType entry.2 value) : HasType (.map entries) (.map key value)
  | tuple {items : List (Option CqlValue)} {ts : List CqlType} (length : items.length = ts.length)
      (each : ∀ (i : Nat) item t, items[i]? = some (some item) → ts[i]? = some t → HasType item t) :
      HasType (.tuple items) (.tuple ts)
  | userDefinedType {fields : List (String × Option CqlValue)} {types : List (String × CqlType)}
      (names : fields.map Prod.fst = types.map Prod.fst) (distinct : (types.map Prod.fst).Nodup)
      (each : ∀ (i : Nat) name item t, fields[i]? = some (name, some item) → types[i]? = some (name, t) → HasType item t) :
      HasType (.userDefinedType fields) (.userDefinedType types)

end Ecat.Cassandra
