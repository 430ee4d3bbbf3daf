import Ecat.Chunks
import Ecat.Numerals

/-! The line protocol of InfluxDB: the text that a write builds from its points, a reader of such
texts, and when what is read is what was written. -/

namespace Ecat.Influx

/-! ### Points -/

def boolText : Bool → List Char
  | true => ['t', 'r', 'u', 'e']
  | false => ['f', 'a', 'l', 's', 'e']

/-- How doubles are printed, and read back: as plain texts that are no boolean, integer or string. -/
structure FloatText (F : Type) where
  display : F → List Char
  read : List Char → Option F
  read_display : ∀ f, read (display f) = some f
  plain : ∀ f, ∀ c ∈ display f, c ≠ ',' ∧ c ≠ ' ' ∧ c ≠ '\n' ∧ c ≠ '"'
  not_bool : ∀ f b, display f ≠ boolText b
  not_int : ∀ f, (display f).getLast? ≠ some 'i'

inductive FieldValue (F : Type)
  | float (f : F)
  | int (i : Int)
  | string (s : String)
  | bool (b : Bool)
  deriving DecidableEq, Repr

/-- The maps of a point are lists in the order in which the maps give their entries. -/
structure DataPoint (F : Type) where
  measurement : String
  tags : List (String × String)
  fields : List (String × FieldValue F)
  timestamp : Option Int

/-! ### What is written -/

def escapeLineChar (c : Char) : List Char := if c = '\\' ∨ c = ',' ∨ c = ' ' ∨ c = '=' then ['\\', c] else [c]

def escapeLinePart (s : String) : List Char := s.toList.flatMap escapeLineChar

def escapeFieldChar (c : Char) : List Char := if c = '\\' ∨ c = '"' then ['\\', c] else [c]

def escapeFieldString (s : String) : List Char := s.toList.flatMap escapeFieldChar

/-- The order of a `BTreeMap`. -/
def sorted {α : Type} (entries : List (String × α)) : List (String × α) := entries.insertionSort (·.1 ≤ ·.1)

variable {F : Type} (ft : FloatText F)

def tagText (tag : String × String) : List Char := ',' :: escapeLinePart tag.1 ++ '=' :: escapeLinePart tag.2

def valueText : FieldValue F → List Char
  | .float f => ft.display f
  | .int i => (toString i).toList ++ ['i']
  | .string s => '"' :: escapeFieldString s ++ ['"']
  | .bool b => boolText b

def fieldText (field : String × FieldValue F) : List Char := escapeLinePart field.1 ++ '=' :: valueText ft field.2

def timestampText : Option Int → List Char
  | none => []
  | some ts => ' ' :: (toString ts).toList

def lineText (p : DataPoint F) : List Char :=
  escapeLinePart p.measurement ++ (sorted p.tags).flatMap tagText ++
    ' ' :: [','].intercalate ((sorted p.fields).map (fieldText ft)) ++ timestampText p.timestamp ++ ['\n']

/-- The body of the request of `write`. -/
def write (points : List (DataPoint F)) : List Char := points.flatMap (lineText ft)

/-! ### What is read -/

/-- A line as it is read. -/
structure Line (F : Type) where
  measurement : String
  tags : List (String × String)
  fields : List (String × FieldValue F)
  timestamp : Option Int
  deriving DecidableEq, Repr

/-- A name goes up to a stop or a newline. A backslash takes the next character as it is where that is
a comma, a space, an equals sign or a backslash. -/
def readName (stops : List Char) : List Char → List Char × List Char
  | [] => ([], [])
  | '\\' :: c :: rest =>
    if c ∈ [',', ' ', '=', '\\'] then ((readName stops rest).map (c :: ·) id)
    else (readName stops (c :: rest)).map ('\\' :: ·) id
  | c :: rest => if c = '\n' ∨ c ∈ stops then ([], c :: rest) else (readName stops rest).map (c :: ·) id

/-- A string goes up to its quote, over newlines too. -/
def readString : List Char → Option (List Char × List Char)
  | [] => none
  | '"' :: rest => some ([], rest)
  | '\\' :: c :: rest =>
    if c = '"' ∨ c = '\\' then (readString rest).map fun r => (c :: r.1, r.2)
    else (readString (c :: rest)).map fun r => ('\\' :: r.1, r.2)
  | c :: rest => (readString rest).map fun r => (c :: r.1, r.2)

def readPlain (text : List Char) : Option (FieldValue F) :=
  if text = boolText true then some (.bool true)
  else if text = boolText false then some (.bool false)
  else if text.getLast? = some 'i' then (String.ofList text.dropLast).toInt?.map .int
  else (ft.read text).map .float

def isPlain (c : Char) : Bool := c ≠ ',' && c ≠ ' ' && c ≠ '\n'

def readValue : List Char → Option (FieldValue F × List Char)
  | '"' :: rest => (readString rest).map fun r => (.string (String.ofList r.1), r.2)
  | text => (readPlain ft (text.takeWhile isPlain)).map (·, text.dropWhile isPlain)

/-- The fuel is more than the tags that can be there. -/
def readTags : Nat → List Char → Option (List (String × String) × List Char)
  | fuel + 1, ',' :: text =>
    let (key, rest) := readName [',', ' ', '='] text
    match rest with
    | '=' :: rest =>
      let (value, rest) := readName [',', ' '] rest
      (readTags fuel rest).map fun r => ((String.ofList key, String.ofList value) :: r.1, r.2)
    | _ => none
  | _, text => some ([], text)

def readFields : Nat → List Char → Option (List (String × FieldValue F) × List Char)
  | 0, _ => none
  | fuel + 1, text =>
    let (key, rest) := readName [',', ' ', '='] text
    match rest with
    | '=' :: rest => do
      let (value, rest) ← readValue ft rest
      match rest with
      | ',' :: rest => do
        let (fields, rest) ← readFields fuel rest
        some ((String.ofList key, value) :: fields, rest)
      | _ => some ([(String.ofList key, value)], rest)
    | _ => none

/-- A line may have no fields. -/
def readFieldSet (fuel : Nat) (text : List Char) : Option (List (String × FieldValue F) × List Char) :=
  match text with
  | [] => some ([], [])
  | c :: _ => if c = ' ' ∨ c = '\n' then some ([], text) else readFields ft fuel text

def readTimestamp (text : List Char) : Option (Option Int × List Char) :=
  match text with
  | ' ' :: text => (String.ofList (text.takeWhile (· ≠ '\n'))).toInt?.map fun ts => (some ts, text.dropWhile (· ≠ '\n'))
  | _ => some (none, text)

def readLine (text : List Char) : Option (Line F × List Char) := do
  let (measurement, rest) := readName [',', ' '] text
  let (tags, rest) ← readTags text.length rest
  match rest with
  | ' ' :: rest => do
    let (fields, rest) ← readFieldSet ft text.length rest
    let (timestamp, rest) ← readTimestamp rest
    match rest with
    | '\n' :: rest => some (⟨String.ofList measurement, tags, fields, timestamp⟩, rest)
    | [] => some (⟨String.ofList measurement, tags, fields, timestamp⟩, [])
    | _ => none
  | _ => none

def skipLine (text : List Char) : List Char := (text.dropWhile (· ≠ '\n')).drop 1

def readLines : Nat → List Char → List (Option (Line F))
  | _, [] => []
  | 0, _ => []
  | fuel + 1, text =>
    match readLine ft text with
    | some (line, rest) => some line :: readLines fuel rest
    | none => none :: readLines fuel (skipLine text)

/-- The lines of a text, `none` for each that cannot be read. More is read than a server takes: a line that
starts with `#` is no comment here, and a tag may have an empty value. -/
def parse (text : List Char) : List (Option (Line F)) := readLines ft text.length text

/-- The line says what the point says; the maps have no order. -/
structure Line.Says (line : Line F) (p : DataPoint F) : Prop where
  measurement : line.measurement = p.measurement
  tags : line.tags.Perm p.tags
  fields : line.fields.Perm p.fields
  timestamp : line.timestamp = p.timestamp

/-- The text of the points is read as one line for each, with the point's content. -/
def RoundTrips (points : List (DataPoint F)) : Prop :=
  List.Forall₂ (fun read p => ∃ line, read = some line ∧ line.Says p) (parse ft (write ft points)) points

/-- The names of the point, which no quotes enclose, hold no newline. -/
structure DataPoint.OneLine (p : DataPoint F) : Prop where
  measurement : '\n' ∉ p.measurement.toList
  tags : ∀ tag ∈ p.tags, '\n' ∉ tag.1.toList ∧ '\n' ∉ tag.2.toList
  fields : ∀ field ∈ p.fields, '\n' ∉ field.1.toList

variable {ft} {c : Char} {stops name text rest : List Char} {p : DataPoint F}

/-! ### Names and strings -/

theorem readName_stop (h : c = '\n' ∨ c ∈ stops) (hne : c ≠ '\\') :
    readName stops (c :: rest) = ([], c :: rest) := by
  rw [readName, if_pos h]
  simp [hne]

theorem readName_escaped (h : c ∈ [',', ' ', '=', '\\']) :
    readName stops ('\\' :: c :: rest) = (readName stops rest).map (c :: ·) id := by
  rw [readName, if_pos h]

theorem readName_plain (hne : c ≠ '\\') (h : ¬ (c = '\n' ∨ c ∈ stops)) :
    readName stops (c :: rest) = (readName stops rest).map (c :: ·) id := by
  rw [readName, if_neg h]
  simp [hne]

theorem escapeLineChar_special (h : c ∈ [',', ' ', '=', '\\']) : escapeLineChar c = ['\\', c] := by
  apply if_pos
  simp only [List.mem_cons, List.not_mem_nil, or_false] at h
  tauto

theorem escapeLineChar_plain (h : c ∉ [',', ' ', '=', '\\']) : escapeLineChar c = [c] := by
  apply if_neg
  simp only [List.mem_cons, List.not_mem_nil, or_false] at h
  tauto

/-- A name is read back from its escaped text, up to a stop. -/
theorem readName_escape (hstops : ∀ d ∈ stops, d ∈ [',', ' ', '=', '\\']) (hslash : '\\' ∉ stops)
    (hname : '\n' ∉ name) (hc : c = '\n' ∨ c ∈ stops) :
    readName stops (name.flatMap escapeLineChar ++ c :: rest) = (name, c :: rest) := by
  induction name with
  | nil =>
    apply readName_stop hc
    rintro rfl
    simp [hslash] at hc
  | cons d name ih =>
    have hne : d ≠ '\n' := fun h => hname (by simp [h])
    have hih := ih fun h => hname (by simp [h])
    rw [List.flatMap_cons, List.append_assoc]
    by_cases hd : d ∈ [',', ' ', '=', '\\']
    · rw [escapeLineChar_special hd, List.cons_append, List.singleton_append, readName_escaped hd, hih]
      rfl
    · have hplain : ¬ (d = '\n' ∨ d ∈ stops) := fun h => h.elim hne fun hmem => hd (hstops d hmem)
      have hslash' : d ≠ '\\' := fun h => hd (by simp [h])
      rw [escapeLineChar_plain hd, List.singleton_append, readName_plain hslash' hplain, hih]
      rfl

theorem readName_no_newline (stops text : List Char) : '\n' ∉ (readName stops text).1 := by
  fun_induction readName stops text with
  | case1 => simp
  | case2 c rest hc ih =>
    have hne : c ≠ '\n' := by
      rintro rfl
      simp at hc
    simpa [Ne.symm hne] using ih
  | case3 c rest hc ih => simpa using ih
  | case4 c rest => simp
  | case5 c rest hcond hstop ih =>
    have hne : c ≠ '\n' := fun h => hstop (.inl h)
    simpa [Ne.symm hne] using ih

theorem readString_escape (s rest : List Char) :
    readString (s.flatMap escapeFieldChar ++ '"' :: rest) = some (s, rest) := by
  induction s with
  | nil => rfl
  | cons c s ih =>
    rw [List.flatMap_cons, List.append_assoc]
    by_cases hc : c = '\\' ∨ c = '"'
    · rw [escapeFieldChar, if_pos hc, List.cons_append, List.singleton_append, readString, if_pos hc.symm, ih]
      rfl
    · rw [escapeFieldChar, if_neg hc, List.singleton_append]
      have hread : readString (c :: (s.flatMap escapeFieldChar ++ '"' :: rest)) =
          (readString (s.flatMap escapeFieldChar ++ '"' :: rest)).map fun r => (c :: r.1, r.2) := by
        rw [readString]
        · exact fun h => hc (.inr h)
        · exact fun d r h => absurd h (fun hh => hc (.inl hh))
      rw [hread, ih]
      rfl

/-! ### Values -/

theorem readValue_plain (htext : ∀ d ∈ text, isPlain d = true ∧ d ≠ '"') (hc : isPlain c = false) (hquote : c ≠ '"') :
    readValue ft (text ++ c :: rest) = (readPlain ft text).map (·, c :: rest) := by
  have htake : (text ++ c :: rest).takeWhile isPlain = text := by
    rw [List.takeWhile_append_of_pos fun d hd => (htext d hd).1, List.takeWhile_cons_of_neg (by simp [hc]),
      List.append_nil]
  have hdrop : (text ++ c :: rest).dropWhile isPlain = c :: rest := by
    rw [List.dropWhile_append_of_pos fun d hd => (htext d hd).1, List.dropWhile_cons_of_neg (by simp [hc])]
  rw [readValue, htake, hdrop]
  intro more heq
  cases text with
  | nil => exact hquote (List.cons.inj heq).1
  | cons d text => exact (htext d (by simp)).2 (List.cons.inj heq).1

theorem readPlain_float (f : F) : readPlain ft (ft.display f) = some (.float f) := by
  rw [readPlain, if_neg (ft.not_bool f true), if_neg (ft.not_bool f false), if_neg (ft.not_int f), ft.read_display]
  rfl

theorem readPlain_int (i : Int) : readPlain ft ((toString i).toList ++ ['i']) = some (.int i) := by
  have hlast : ((toString i).toList ++ ['i']).getLast? = some 'i' := List.getLast?_concat
  have hne : ∀ word : List Char, word.getLast? ≠ some 'i' → (toString i).toList ++ ['i'] ≠ word := by
    intro word hword heq
    exact hword (heq ▸ hlast)
  have hread : (toString i).toInt? = some i := Int.toInt?_repr i
  rw [readPlain, if_neg (hne _ (by decide)), if_neg (hne _ (by decide)), if_pos hlast, List.dropLast_concat,
    String.ofList_toList, hread]
  rfl

theorem int_text_plain {i : Int} {d : Char} (h : d ∈ (toString i).toList ++ ['i']) : isPlain d = true ∧ d ≠ '"' := by
  rcases List.mem_append.1 h with h | h
  · constructor
    · have hcomma : d ≠ ',' := fun hd => not_mem_int_text (by decide) (by decide) (hd ▸ h)
      have hspace : d ≠ ' ' := fun hd => not_mem_int_text (by decide) (by decide) (hd ▸ h)
      have hline : d ≠ '\n' := fun hd => not_mem_int_text (by decide) (by decide) (hd ▸ h)
      simp [isPlain, hcomma, hspace, hline]
    · exact fun hd => not_mem_int_text (by decide) (by decide) (hd ▸ h)
  · rw [List.mem_singleton.1 h]
    exact ⟨rfl, by decide⟩

theorem readValue_text (v : FieldValue F) (hc : c = ',' ∨ c = ' ' ∨ c = '\n') :
    readValue ft (valueText ft v ++ c :: rest) = some (v, c :: rest) := by
  have hplain : isPlain c = false := by
    rcases hc with rfl | rfl | rfl <;> rfl
  have hquote : c ≠ '"' := by
    rcases hc with rfl | rfl | rfl <;> decide
  cases v with
  | float f =>
    rw [valueText, readValue_plain _ hplain hquote, readPlain_float]
    · rfl
    · intro d hd
      obtain ⟨hcomma, hspace, hline, hne⟩ := ft.plain f d hd
      simp [isPlain, hcomma, hspace, hline, hne]
  | int i =>
    rw [valueText, readValue_plain (fun d => int_text_plain) hplain hquote, readPlain_int]
    rfl
  | string s =>
    rw [valueText, List.cons_append, List.cons_append, List.append_assoc, List.singleton_append, readValue,
      escapeFieldString, readString_escape, Option.map_some, String.ofList_toList]
  | bool b =>
    rw [valueText, readValue_plain _ hplain hquote]
    · cases b <;> rfl
    · cases b <;> simp [boolText, isPlain]

/-! ### Tags and fields -/

theorem readName_part {name : String} (hstops : ∀ d ∈ stops, d ∈ [',', ' ', '=', '\\']) (hslash : '\\' ∉ stops)
    (hname : '\n' ∉ name.toList) (hc : c = '\n' ∨ c ∈ stops) :
    readName stops (escapeLinePart name ++ c :: rest) = (name.toList, c :: rest) :=
  readName_escape hstops hslash hname hc

theorem readTags_text {tags : List (String × String)} {fuel : Nat} (hfuel : tags.length ≤ fuel)
    (htags : ∀ tag ∈ tags, '\n' ∉ tag.1.toList ∧ '\n' ∉ tag.2.toList) :
    readTags fuel (tags.flatMap tagText ++ ' ' :: rest) = some (tags, ' ' :: rest) := by
  induction tags generalizing fuel with
  | nil =>
    cases fuel <;> rfl
  | cons tag tags ih =>
    obtain ⟨⟨hkey, hvalue⟩, hrest⟩ := List.forall_mem_cons.1 htags
    cases fuel with
    | zero => simp at hfuel
    | succ fuel =>
      -- The value ends at the comma of the next tag or at the space before the fields.
      obtain ⟨c, more, hmore, hc⟩ : ∃ c more, tags.flatMap tagText ++ ' ' :: rest = c :: more ∧ c ∈ [',', ' '] := by
        cases tags with
        | nil => exact ⟨' ', rest, rfl, by simp⟩
        | cons next tags => exact ⟨',', _, rfl, by simp⟩
      have hread := ih (by simpa using hfuel) hrest
      rw [hmore] at hread
      have htext : (tag :: tags).flatMap tagText ++ ' ' :: rest =
          ',' :: (escapeLinePart tag.1 ++ '=' :: (escapeLinePart tag.2 ++ c :: more)) := by
        rw [← hmore]
        simp [tagText]
      have hvalue' : readName [',', ' '] (escapeLinePart tag.2 ++ c :: more) = (tag.2.toList, c :: more) :=
        readName_part (by simp) (by decide) hvalue (.inr hc)
      rw [htext, readTags, readName_part (by simp) (by decide) hkey (.inr (by simp))]
      simp only [hvalue', hread, Option.map_some, String.ofList_toList]

theorem readFields_text {fields : List (String × FieldValue F)} {fuel : Nat} (hne : fields ≠ [])
    (hfuel : fields.length ≤ fuel) (hfields : ∀ field ∈ fields, '\n' ∉ field.1.toList) (hc : c = ' ' ∨ c = '\n') :
    readFields ft fuel ([','].intercalate (fields.map (fieldText ft)) ++ c :: rest) = some (fields, c :: rest) := by
  induction fields generalizing fuel with
  | nil => exact absurd rfl hne
  | cons field fields ih =>
    obtain ⟨hkey, hrest⟩ := List.forall_mem_cons.1 hfields
    cases fuel with
    | zero => simp at hfuel
    | succ fuel =>
      cases fields with
      | nil =>
        have htext : [','].intercalate ([field].map (fieldText ft)) ++ c :: rest =
            escapeLinePart field.1 ++ '=' :: (valueText ft field.2 ++ c :: rest) := by
          simp [fieldText, List.intercalate]
        rw [htext, readFields, readName_part (by simp) (by decide) hkey (.inr (by simp))]
        simp only [readValue_text field.2 (.inr hc), Option.bind_eq_bind, Option.bind_some, String.ofList_toList]
        split
        · rename_i heq
          rcases hc with rfl | rfl <;> cases heq
        · rfl
      | cons next fields =>
        have htext : [','].intercalate ((field :: next :: fields).map (fieldText ft)) ++ c :: rest =
            escapeLinePart field.1 ++ '=' :: (valueText ft field.2 ++
              ',' :: ([','].intercalate ((next :: fields).map (fieldText ft)) ++ c :: rest)) := by
          simp [fieldText, List.intercalate]
        have hread := ih (by simp) (by simpa using hfuel) hrest
        rw [htext, readFields, readName_part (by simp) (by decide) hkey (.inr (by simp))]
        simp only [readValue_text field.2 (.inl rfl), Option.bind_eq_bind, Option.bind_some, hread,
          String.ofList_toList]

/-- A field begins with its name or, where that is empty, with the equals sign. -/
theorem head_field {name : String} (hname : '\n' ∉ name.toList) (more : List Char) :
    ∃ d rest, escapeLinePart name ++ '=' :: more = d :: rest ∧ ¬ (d = ' ' ∨ d = '\n') := by
  rw [escapeLinePart]
  cases hchars : name.toList with
  | nil => exact ⟨'=', more, rfl, by decide⟩
  | cons d chars =>
    by_cases hd : d ∈ [',', ' ', '=', '\\']
    · refine ⟨'\\', d :: (chars.flatMap escapeLineChar ++ '=' :: more), ?_, by decide⟩
      simp [List.flatMap_cons, escapeLineChar_special hd]
    · refine ⟨d, chars.flatMap escapeLineChar ++ '=' :: more, ?_, ?_⟩
      · simp [List.flatMap_cons, escapeLineChar_plain hd]
      · intro h
        rcases h with rfl | rfl
        · simp at hd
        · simp [hchars] at hname

theorem readFieldSet_text {fields : List (String × FieldValue F)} {fuel : Nat} (hfuel : fields.length ≤ fuel)
    (hfields : ∀ field ∈ fields, '\n' ∉ field.1.toList) (hc : c = ' ' ∨ c = '\n') :
    readFieldSet ft fuel ([','].intercalate (fields.map (fieldText ft)) ++ c :: rest) = some (fields, c :: rest) := by
  cases fields with
  | nil => exact if_pos hc
  | cons field fields =>
    rw [← readFields_text (List.cons_ne_nil field fields) hfuel hfields hc]
    obtain ⟨d, more, hmore, hd⟩ : ∃ d more, [','].intercalate ((field :: fields).map (fieldText ft)) ++ c :: rest =
        d :: more ∧ ¬ (d = ' ' ∨ d = '\n') := by
      obtain ⟨more, hmore⟩ : ∃ more, [','].intercalate ((field :: fields).map (fieldText ft)) ++ c :: rest =
          escapeLinePart field.1 ++ '=' :: more := by
        cases fields with
        | nil => exact ⟨valueText ft field.2 ++ c :: rest, by simp [fieldText, List.intercalate]⟩
        | cons next fields =>
          exact ⟨valueText ft field.2 ++ ',' :: ([','].intercalate ((next :: fields).map (fieldText ft)) ++ c :: rest),
            by simp [fieldText, List.intercalate]⟩
      rw [hmore]
      exact head_field (hfields field (by simp)) more
    rw [hmore]
    exact if_neg hd

/-! ### Lines -/

theorem length_le_flatMap {α : Type} {l : List α} {f : α → List Char} (hf : ∀ a ∈ l, 0 < (f a).length) :
    l.length ≤ (l.flatMap f).length := by
  induction l with
  | nil => simp
  | cons a l ih =>
    obtain ⟨ha, hrest⟩ := List.forall_mem_cons.1 hf
    have hih := ih hrest
    rw [List.flatMap_cons, List.length_append, List.length_cons]
    omega

theorem perm_sorted {α : Type} (entries : List (String × α)) : (sorted entries).Perm entries :=
  List.perm_insertionSort _ entries

theorem readTimestamp_text (ts : Option Int) :
    readTimestamp (timestampText ts ++ '\n' :: rest) = some (ts, '\n' :: rest) := by
  cases ts with
  | none => rfl
  | some ts =>
    have hplain : ∀ d ∈ (toString ts).toList, (decide (d ≠ '\n')) = true := by
      intro d hd
      apply decide_eq_true
      rintro rfl
      exact not_mem_int_text (by decide) (by decide) hd
    have htake : ((toString ts).toList ++ '\n' :: rest).takeWhile (· ≠ '\n') = (toString ts).toList := by
      rw [List.takeWhile_append_of_pos hplain, List.takeWhile_cons_of_neg (by simp), List.append_nil]
    have hdrop : ((toString ts).toList ++ '\n' :: rest).dropWhile (· ≠ '\n') = '\n' :: rest := by
      rw [List.dropWhile_append_of_pos hplain, List.dropWhile_cons_of_neg (by simp)]
    have hread : (toString ts).toInt? = some ts := Int.toInt?_repr ts
    rw [timestampText, List.cons_append, readTimestamp, htake, hdrop, String.ofList_toList, hread]
    rfl

/-- The point as its line is read. -/
def DataPoint.line (p : DataPoint F) : Line F := ⟨p.measurement, sorted p.tags, sorted p.fields, p.timestamp⟩

theorem says_line (p : DataPoint F) : p.line.Says p := ⟨rfl, perm_sorted p.tags, perm_sorted p.fields, rfl⟩

theorem readLine_text (hp : p.OneLine) : readLine ft (lineText ft p ++ rest) = some (p.line, rest) := by
  have htags : ∀ tag ∈ sorted p.tags, '\n' ∉ tag.1.toList ∧ '\n' ∉ tag.2.toList :=
    fun tag htag => hp.tags tag ((perm_sorted p.tags).mem_iff.1 htag)
  have hfields : ∀ field ∈ sorted p.fields, '\n' ∉ field.1.toList :=
    fun field hfield => hp.fields field ((perm_sorted p.fields).mem_iff.1 hfield)
  obtain ⟨c, more, hmore, hc⟩ : ∃ c more, timestampText p.timestamp ++ '\n' :: rest = c :: more ∧
      (c = ' ' ∨ c = '\n') := by
    cases p.timestamp with
    | none => exact ⟨'\n', rest, rfl, .inr rfl⟩
    | some ts => exact ⟨' ', _, rfl, .inl rfl⟩
  obtain ⟨d, more', hmore', hd⟩ : ∃ d more', (sorted p.tags).flatMap tagText ++
      ' ' :: ([','].intercalate ((sorted p.fields).map (fieldText ft)) ++ c :: more) = d :: more' ∧ d ∈ [',', ' '] := by
    cases sorted p.tags with
    | nil => exact ⟨' ', _, rfl, by simp⟩
    | cons tag tags => exact ⟨',', _, rfl, by simp⟩
  have htext : lineText ft p ++ rest = escapeLinePart p.measurement ++ d :: more' := by
    rw [← hmore', ← hmore]
    simp [lineText]
  have htagsFuel : (sorted p.tags).length ≤ (lineText ft p ++ rest).length := by
    have hle := @length_le_flatMap _ (sorted p.tags) tagText fun tag _ => by simp [tagText]
    simp only [lineText, List.length_append]
    omega
  have hfieldsFuel : (sorted p.fields).length ≤ (lineText ft p ++ rest).length := by
    have hle := @length_le_intercalate _ _ (sorted p.fields) [','] (fieldText ft) fun field _ => by simp [fieldText]
    simp only [lineText, List.length_append, List.length_cons]
    omega
  have hname : readName [',', ' '] (escapeLinePart p.measurement ++ d :: more') = (p.measurement.toList, d :: more') :=
    readName_part (by simp) (by decide) hp.measurement (.inr hd)
  rw [readLine]
  generalize (lineText ft p ++ rest).length = fuel at htagsFuel hfieldsFuel ⊢
  have hreadTags : readTags fuel (d :: more') = some (sorted p.tags,
      ' ' :: ([','].intercalate ((sorted p.fields).map (fieldText ft)) ++ c :: more)) := by
    rw [← hmore']
    exact readTags_text htagsFuel htags
  have hreadTimestamp : readTimestamp (c :: more) = some (p.timestamp, '\n' :: rest) := by
    rw [← hmore]
    exact readTimestamp_text p.timestamp
  rw [htext, hname]
  simp only [hreadTags, readFieldSet_text hfieldsFuel hfields hc, hreadTimestamp, Option.bind_eq_bind, Option.bind_some,
    String.ofList_toList]
  rfl

theorem readLines_write {points : List (DataPoint F)} (hpoints : ∀ p ∈ points, p.OneLine) {fuel : Nat}
    (hfuel : points.length ≤ fuel) : readLines ft fuel (write ft points) = points.map fun p => some p.line := by
  induction points generalizing fuel with
  | nil =>
    cases fuel <;> rfl
  | cons p points ih =>
    obtain ⟨hp, hrest⟩ := List.forall_mem_cons.1 hpoints
    cases fuel with
    | zero => simp at hfuel
    | succ fuel =>
      have hwrite : write ft (p :: points) = lineText ft p ++ write ft points := List.flatMap_cons
      have hne : ∀ x, readLines ft (fuel + 1) (lineText ft p ++ x) = some p.line :: readLines ft fuel x := by
        intro x
        have hline : readLine ft (lineText ft p ++ x) = some (p.line, x) := readLine_text hp
        rw [readLines, hline]
        intro htext
        simp [lineText] at htext
      rw [hwrite, hne, ih hrest (by simpa using hfuel)]
      rfl

/-! ### What can be read -/

theorem readTags_oneLine {fuel : Nat} {tags : List (String × String)} (h : readTags fuel text = some (tags, rest)) :
    ∀ tag ∈ tags, '\n' ∉ tag.1.toList ∧ '\n' ∉ tag.2.toList := by
  induction fuel generalizing text tags rest with
  | zero =>
    rw [readTags] at h
    · cases h
      simp
    · simp
  | succ fuel ih =>
    rw [readTags.eq_def] at h
    split at h
    · simp only at h
      split at h
      · obtain ⟨⟨more, rest'⟩, hread, heq⟩ := Option.map_eq_some_iff.1 h
        cases heq
        intro tag htag
        rcases List.mem_cons.1 htag with rfl | htag
        · rw [String.toList_ofList, String.toList_ofList]
          exact ⟨readName_no_newline _ _, readName_no_newline _ _⟩
        · cases ‹fuel + 1 = _ + 1›
          exact ih hread tag htag
      · cases h
    · cases h
      simp

theorem readFields_oneLine {fuel : Nat} {fields : List (String × FieldValue F)}
    (h : readFields ft fuel text = some (fields, rest)) : ∀ field ∈ fields, '\n' ∉ field.1.toList := by
  induction fuel generalizing text fields rest with
  | zero => cases h
  | succ fuel ih =>
    rw [readFields] at h
    simp only at h
    split at h
    · obtain ⟨⟨value, after⟩, _, h⟩ := Option.bind_eq_some_iff.1 h
      simp only at h
      split at h
      · obtain ⟨⟨more, rest'⟩, hread, heq⟩ := Option.bind_eq_some_iff.1 h
        cases heq
        intro field hfield
        rcases List.mem_cons.1 hfield with rfl | hfield
        · rw [String.toList_ofList]
          exact readName_no_newline _ _
        · exact ih hread field hfield
      · cases h
        simpa using readName_no_newline _ _
    · cases h

theorem readFieldSet_oneLine {fuel : Nat} {fields : List (String × FieldValue F)}
    (h : readFieldSet ft fuel text = some (fields, rest)) : ∀ field ∈ fields, '\n' ∉ field.1.toList := by
  cases text with
  | nil =>
    cases h
    simp
  | cons c text =>
    rw [readFieldSet] at h
    split_ifs at h
    · cases h
      simp
    · exact readFields_oneLine h

theorem readLine_oneLine {line : Line F} (h : readLine ft text = some (line, rest)) :
    '\n' ∉ line.measurement.toList ∧ (∀ tag ∈ line.tags, '\n' ∉ tag.1.toList ∧ '\n' ∉ tag.2.toList) ∧
      ∀ field ∈ line.fields, '\n' ∉ field.1.toList := by
  rw [readLine] at h
  simp only at h
  obtain ⟨⟨tags, afterTags⟩, htags, h⟩ := Option.bind_eq_some_iff.1 h
  simp only at h
  split at h
  · obtain ⟨⟨fields, afterFields⟩, hfields, h⟩ := Option.bind_eq_some_iff.1 h
    obtain ⟨⟨ts, after⟩, _, h⟩ := Option.bind_eq_some_iff.1 h
    simp only at h
    have hline : line = ⟨String.ofList (readName [',', ' '] text).1, tags, fields, ts⟩ := by
      split at h
      · cases h
        rfl
      · cases h
        rfl
      · cases h
    rw [hline, String.toList_ofList]
    exact ⟨readName_no_newline _ _, readTags_oneLine htags, readFieldSet_oneLine hfields⟩
  · cases h

theorem mem_readLines {fuel : Nat} {line : Line F} (h : some line ∈ readLines ft fuel text) :
    ∃ text rest, readLine ft text = some (line, rest) := by
  induction fuel generalizing text with
  | zero =>
    cases text <;> cases h
  | succ fuel ih =>
    cases text with
    | nil => cases h
    | cons c text =>
      rw [readLines] at h
      · split at h
        · rename_i read rest hread
          rcases List.mem_cons.1 h with heq | h
          · cases heq
            exact ⟨_, _, hread⟩
          · exact ih h
        · exact ih ((List.mem_cons.1 h).resolve_left (by simp))
      · simp

/-- A name that holds a newline is never read. -/
theorem oneLine_of_says {line : Line F} (h : some line ∈ parse ft text) (hline : line.Says p) : p.OneLine := by
  obtain ⟨text, rest, hread⟩ := mem_readLines h
  obtain ⟨hmeasurement, htags, hfields⟩ := readLine_oneLine hread
  refine ⟨hline.measurement ▸ hmeasurement, fun tag htag => ?_, fun field hfield => ?_⟩
  · exact htags tag (hline.tags.mem_iff.2 htag)
  · exact hfields field (hline.fields.mem_iff.2 hfield)

theorem length_le_write (points : List (DataPoint F)) : points.length ≤ (write ft points).length :=
  length_le_flatMap fun p _ => by simp [lineText]

/-- The text of the points is read as they are, a line for each, exactly where no measurement, tag or
field key holds a newline. -/
theorem roundTrips_iff (ft : FloatText F) (points : List (DataPoint F)) :
    RoundTrips ft points ↔ ∀ p ∈ points, p.OneLine := by
  constructor
  · intro h p hp
    obtain ⟨_, hmem, line, rfl, hline⟩ := exists_left_of_forall₂ h hp
    exact oneLine_of_says hmem hline
  · intro hpoints
    rw [RoundTrips, parse, readLines_write hpoints (length_le_write points), List.forall₂_map_left_iff,
      List.forall₂_same]
    exact fun p _ => ⟨p.line, rfl, says_line p⟩

/-- One double and its text. -/
def oneHalf : FloatText Unit :=
  ⟨fun _ => ['0', '.', '5'], fun text => if text = ['0', '.', '5'] then some () else none,
    by decide, by simp, fun _ b => by cases b <;> decide, by simp⟩

def twoNames : DataPoint Unit := ⟨"cpu\nmem", [], [("up", .bool true)], none⟩

/-- A newline in the measurement makes two lines: one that cannot be read, and a point of another
measurement. -/
theorem newline_splits :
    parse oneHalf (write oneHalf [twoNames]) = [none, some ⟨"mem", [], [("up", .bool true)], none⟩] ∧
      ¬ ∀ points : List (DataPoint Unit), RoundTrips oneHalf points := by
  have hparse : parse oneHalf (write oneHalf [twoNames]) = [none, some ⟨"mem", [], [("up", .bool true)], none⟩] := by
    decide +kernel
  refine ⟨hparse, fun h => ?_⟩
  have hread := h [twoNames]
  rw [RoundTrips, hparse] at hread
  have hlength := hread.length_eq
  cases hlength

end Ecat.Influx
