import Mathlib

/-! Object listings of S3: the keys and the continuation token read from the events of an XML reader,
and the listing over all pages. -/

namespace Ecat.S3

/-! ### Reading one page -/

/-- The events of the XML reader, which trims the texts and gives every entity reference on its own. -/
inductive Event
  | start (name : String)
  | stop (name : String)
  | text (content : List Char)
  | generalRef (name : List Char)
  | other
  | eof
  | error
  deriving DecidableEq, Repr

/-- `xml10_content`: the line ends of XML 1.0 become newlines. -/
def xml10Content : List Char → List Char
  | [] => []
  | '\r' :: '\n' :: rest => '\n' :: xml10Content rest
  | '\r' :: rest => '\n' :: xml10Content rest
  | c :: rest => c :: xml10Content rest

def digit (radix : Nat) (c : Char) : Option Nat :=
  let value :=
    if '0' ≤ c ∧ c ≤ '9' then some (c.toNat - 48)
    else if 'a' ≤ c ∧ c ≤ 'z' then some (c.toNat - 87)
    else if 'A' ≤ c ∧ c ≤ 'Z' then some (c.toNat - 55)
    else none
  value.filter (· < radix)

def digitsFrom (radix : Nat) : Nat → List Char → Option Nat
  | n, [] => some n
  | n, c :: rest => do
    let d ← digit radix c
    if n * radix + d < 2 ^ 32 then digitsFrom radix (n * radix + d) rest else none

/-- `u32::from_str_radix`. -/
def fromStrRadix (radix : Nat) : List Char → Option Nat
  | [] => none
  | ['+'] => none
  | '+' :: rest => digitsFrom radix 0 rest
  | digits => digitsFrom radix 0 digits

def charFromU32 (n : Nat) : Option Char := if n.isValidChar then some (Char.ofNat n) else none

/-- The character that a reference stands for; one that is unknown is left out. -/
def refChar : List Char → Option Char
  | ['a', 'm', 'p'] => some '&'
  | ['l', 't'] => some '<'
  | ['g', 't'] => some '>'
  | ['q', 'u', 'o', 't'] => some '"'
  | ['a', 'p', 'o', 's'] => some '\''
  | '#' :: 'x' :: hex => (fromStrRadix 16 hex).bind charFromU32
  | '#' :: dec => (fromStrRadix 10 dec).bind charFromU32
  | _ => none

/-- The variables of the loop in `parse_list_xml`. -/
structure Parser where
  keys : List String
  token : Option String
  inKey : Bool
  inToken : Bool
  text : List Char
  deriving DecidableEq, Repr

namespace Parser

def new : Parser := ⟨[], none, false, false, []⟩

def push (p : Parser) (text : List Char) : Parser :=
  if p.inKey || p.inToken then { p with text := p.text ++ text } else p

def step (p : Parser) : Event → Parser
  | .start "Key" => { p with inKey := true }
  | .start "NextContinuationToken" => { p with inToken := true }
  | .text content => p.push (xml10Content content)
  | .generalRef name => p.push (refChar name).toList
  | .stop "Key" => { p with keys := p.keys ++ [String.ofList p.text], text := [], inKey := false }
  | .stop "NextContinuationToken" => { p with token := some (String.ofList p.text), text := [], inToken := false }
  | _ => p

def run (p : Parser) : List Event → Parser
  | [] => p
  | .eof :: _ => p
  | .error :: _ => p
  | e :: events => (p.step e).run events

end Parser

def parseListXml (events : List Event) : List String × Option String :=
  let p := Parser.new.run events
  (p.keys, p.token)

/-! ### Pages -/

def isXmlSpace (c : Char) : Bool := c = ' ' || c = '\t' || c = '\r' || c = '\n'

def trim (text : List Char) : List Char := (text.dropWhile isXmlSpace).rdropWhile isXmlSpace

/-- The entities that XML predefines. -/
inductive Entity
  | amp
  | lt
  | gt
  | quot
  | apos
  deriving DecidableEq, Repr

namespace Entity

def name : Entity → List Char
  | amp => ['a', 'm', 'p']
  | lt => ['l', 't']
  | gt => ['g', 't']
  | quot => ['q', 'u', 'o', 't']
  | apos => ['a', 'p', 'o', 's']

def char : Entity → Char
  | amp => '&'
  | lt => '<'
  | gt => '>'
  | quot => '"'
  | apos => '\''

end Entity

/-- What stands in the text of a key or token: characters as they are, and references to a character. -/
inductive Content
  | text (raw : List Char)
  | entity (entity : Entity)
  | decimal (char : Char)
  | hex (char : Char)
  deriving DecidableEq, Repr

namespace Content

/-- The characters that are meant. -/
def chars : Content → List Char
  | text raw => raw
  | entity e => [e.char]
  | decimal c => [c]
  | hex c => [c]

def event : Content → Event
  | text raw => .text (trim raw)
  | entity e => .generalRef e.name
  | decimal c => .generalRef ('#' :: Nat.toDigits 10 c.toNat)
  | hex c => .generalRef ('#' :: 'x' :: Nat.toDigits 16 c.toNat)

end Content

/-- The parts of a page: the elements of its keys and its token, and anything else between them. -/
inductive Item
  | key (content : List Content)
  | token (content : List Content)
  | other (event : Event)
  deriving DecidableEq, Repr

def contentText (content : List Content) : String := String.ofList (content.flatMap Content.chars)

namespace Item

def events : Item → List Event
  | key content => .start "Key" :: content.map Content.event ++ [.stop "Key"]
  | token content => .start "NextContinuationToken" :: content.map Content.event ++ [.stop "NextContinuationToken"]
  | other event => [event]

def key? : Item → Option String
  | key content => some (contentText content)
  | _ => none

def token? : Item → Option String
  | token content => some (contentText content)
  | _ => none

end Item

/-- A page is whole, or faulty from some event on, with a part of a text before the fault. -/
structure Page where
  items : List Item
  fault : Option (Nat × List Char)
  deriving DecidableEq, Repr

/-- The items that end within the first `n` events. -/
def closed : Nat → List Item → List Item
  | _, [] => []
  | n, item :: items =>
    if item.events.length ≤ n then item :: closed (n - item.events.length) items else []

namespace Page

/-- What the reader makes of the page; it gives an error at the fault. -/
def events (page : Page) : List Event :=
  match page.fault with
  | none => page.items.flatMap Item.events ++ [.eof]
  | some (n, part) => (page.items.flatMap Item.events).take n ++ [.text (trim part), .error]

/-- The items of the page, as far as they end before its fault. -/
def whole (page : Page) : List Item :=
  match page.fault with
  | none => page.items
  | some (n, _) => closed n page.items

def keys (page : Page) : List String := page.whole.filterMap Item.key?

def token (page : Page) : Option String := (page.whole.filterMap Item.token?).getLast?

end Page

/-! ### The listing -/

section

variable {ε : Type} (serve : Option String → Except ε Page)

/-- The loop of `list`; `serve` answers a request with a continuation token or without. -/
def listFrom : Nat → List String → Option String → Option (Except ε (List String))
  | 0, _, _ => none
  | fuel + 1, keys, token =>
    match serve token with
    | .error e => some (.error e)
    | .ok page =>
      match parseListXml page.events with
      | (pageKeys, some t) => listFrom fuel (keys ++ pageKeys) (some t)
      | (pageKeys, none) => some (.ok (keys ++ pageKeys))

def list (fuel : Nat) : Option (Except ε (List String)) := listFrom serve fuel [] none

/-- The pages of the listing: each gives the token of the next, and the last gives none. -/
def Follows : Option String → List Page → Prop
  | _, [] => False
  | token, page :: pages => serve token = .ok page ∧
    match page.token with
    | none => pages = []
    | some t => Follows (some t) pages

end

/-- No text begins or ends with white space or holds a carriage return, which would not be there as it is. -/
def Content.Tidy : Content → Prop
  | .text raw => (∀ c ∈ raw.head?, isXmlSpace c = false) ∧ (∀ c ∈ raw.getLast?, isXmlSpace c = false) ∧ '\r' ∉ raw
  | _ => True

/-- An event that ends no page, and begins or ends no key or token. -/
def Event.Foreign : Event → Prop
  | .start name => name ≠ "Key" ∧ name ≠ "NextContinuationToken"
  | .stop name => name ≠ "Key" ∧ name ≠ "NextContinuationToken"
  | .eof => False
  | .error => False
  | _ => True

def Item.Tidy : Item → Prop
  | .key content => ∀ c ∈ content, c.Tidy
  | .token content => ∀ c ∈ content, c.Tidy
  | .other event => event.Foreign

def Page.Tidy (page : Page) : Prop := ∀ item ∈ page.items, item.Tidy

/-! ### References -/

theorem digit_digitChar {radix d : Nat} (hradix : radix ≤ 16) (hd : d < radix) :
    digit radix (Nat.digitChar d) = some d := by
  have hall : ∀ radix < 17, ∀ d < radix, digit radix (Nat.digitChar d) = some d := by decide
  exact hall radix (by omega) d hd

theorem digitsFrom_cons {radix n d : Nat} {c : Char} (hdigit : digit radix c = some d) (hlt : n * radix + d < 2 ^ 32)
    (rest : List Char) : digitsFrom radix n (c :: rest) = digitsFrom radix (n * radix + d) rest := by
  rw [digitsFrom, hdigit]
  exact if_pos hlt

theorem digitsFrom_append (radix n : Nat) (xs ys : List Char) :
    digitsFrom radix n (xs ++ ys) = (digitsFrom radix n xs).bind fun m => digitsFrom radix m ys := by
  induction xs generalizing n with
  | nil => rfl
  | cons c xs ih =>
    cases hdigit : digit radix c with
    | none => simp [digitsFrom, hdigit]
    | some d =>
      by_cases hlt : n * radix + d < 2 ^ 32
      · rw [List.cons_append, digitsFrom_cons hdigit hlt, digitsFrom_cons hdigit hlt, ih]
      · have hnone : ∀ rest, digitsFrom radix n (c :: rest) = none := by
          intro rest
          rw [digitsFrom, hdigit]
          exact if_neg hlt
        rw [List.cons_append, hnone, hnone]
        rfl

theorem digitsFrom_toDigits {radix n : Nat} (htwo : 2 ≤ radix) (hradix : radix ≤ 16) (hn : n < 2 ^ 32) :
    digitsFrom radix 0 (Nat.toDigits radix n) = some n := by
  induction n using Nat.strong_induction_on with
  | _ n ih =>
    by_cases hlt : n < radix
    · rw [Nat.toDigits_of_lt_base hlt, digitsFrom_cons (digit_digitChar hradix hlt) (by omega), digitsFrom]
      simp
    · have hdiv : n / radix < n := Nat.div_lt_self (by omega) (by omega)
      have hmod : n % radix < radix := Nat.mod_lt _ (by omega)
      have heq : n / radix * radix + n % radix = n := Nat.div_add_mod' n radix
      rw [Nat.toDigits_of_base_le (by omega) (by omega), digitsFrom_append, ih _ hdiv (by omega)]
      show digitsFrom radix (n / radix) [Nat.digitChar (n % radix)] = some n
      rw [digitsFrom_cons (digit_digitChar hradix hmod) (by omega), heq, digitsFrom]

/-- Digits that are read begin with no sign. -/
theorem fromStrRadix_eq {radix n : Nat} {digits : List Char} (hdigits : digits ≠ [])
    (h : digitsFrom radix 0 digits = some n) : fromStrRadix radix digits = some n := by
  have hplus : ∀ rest, digits ≠ '+' :: rest := by
    rintro rest rfl
    simp [digitsFrom, digit] at h
  rw [fromStrRadix, h]
  · exact hdigits
  · exact hplus []
  · exact hplus

theorem charFromU32_toNat (c : Char) : charFromU32 c.toNat = some c := by
  have hvalid : c.toNat.isValidChar := c.valid
  rw [charFromU32, if_pos hvalid, Char.ofNat_toNat]

theorem charFromU32_fromStrRadix {radix : Nat} (htwo : 2 ≤ radix) (hradix : radix ≤ 16) (c : Char) :
    (fromStrRadix radix (Nat.toDigits radix c.toNat)).bind charFromU32 = some c := by
  have hlt : c.toNat < 2 ^ 32 := c.val.toNat_lt
  rw [fromStrRadix_eq Nat.toDigits_ne_nil (digitsFrom_toDigits htwo hradix hlt)]
  exact charFromU32_toNat c

theorem refChar_decimal (c : Char) : refChar ('#' :: Nat.toDigits 10 c.toNat) = some c := by
  have hx : ∀ hex, Nat.toDigits 10 c.toNat ≠ 'x' :: hex := by
    intro hex h
    have hmem : 'x' ∈ Nat.toDigits 10 c.toNat := by
      rw [h]
      exact List.mem_cons_self
    have hdigit := Nat.isDigit_of_mem_toDigits (by omega) (by omega) hmem
    exact absurd hdigit (by decide)
  rw [refChar, charFromU32_fromStrRadix (by omega) (by omega)]
  exact hx

theorem refChar_hex (c : Char) : refChar ('#' :: 'x' :: Nat.toDigits 16 c.toNat) = some c :=
  charFromU32_fromStrRadix (by omega) (by omega : 16 ≤ 16) c

/-! ### Reading the items -/

theorem trim_eq {raw : List Char} (hhead : ∀ c ∈ raw.head?, isXmlSpace c = false)
    (hlast : ∀ c ∈ raw.getLast?, isXmlSpace c = false) : trim raw = raw := by
  have hdrop : raw.dropWhile isXmlSpace = raw := by
    cases raw with
    | nil => rfl
    | cons c rest => rw [List.dropWhile_cons, hhead c rfl, if_neg Bool.false_ne_true]
  rw [trim, hdrop, List.rdropWhile_eq_self_iff]
  intro hne
  rw [hlast _ (List.getLast?_eq_some_getLast hne)]
  exact Bool.false_ne_true

theorem xml10Content_eq {raw : List Char} (h : '\r' ∉ raw) : xml10Content raw = raw := by
  induction raw with
  | nil => rfl
  | cons c rest ih =>
    have hc : c ≠ '\r' := fun heq => h (heq ▸ List.mem_cons_self)
    rw [xml10Content, ih fun hrest => h (List.mem_cons_of_mem c hrest)]
    · exact fun _ heq _ => hc heq
    · exact hc

namespace Parser

/-- A parser between two items. -/
def between (keys : List String) (token : Option String) : Parser := ⟨keys, token, false, false, []⟩

theorem step_content {p : Parser} (hp : (p.inKey || p.inToken) = true) {content : Content} (htidy : content.Tidy) :
    p.step content.event = { p with text := p.text ++ content.chars } := by
  have hpush : ∀ text, p.push text = { p with text := p.text ++ text } := fun text => if_pos hp
  cases content with
  | text raw =>
    obtain ⟨hhead, hlast, hreturn⟩ := htidy
    show p.push (xml10Content (trim raw)) = _
    rw [trim_eq hhead hlast, xml10Content_eq hreturn, hpush]
    rfl
  | entity e =>
    show p.push (refChar e.name).toList = _
    rw [hpush]
    cases e <;> rfl
  | decimal c =>
    show p.push (refChar ('#' :: Nat.toDigits 10 c.toNat)).toList = _
    rw [refChar_decimal, hpush]
    rfl
  | hex c =>
    show p.push (refChar ('#' :: 'x' :: Nat.toDigits 16 c.toNat)).toList = _
    rw [refChar_hex, hpush]
    rfl

theorem run_event (p : Parser) (content : Content) (rest : List Event) :
    p.run (content.event :: rest) = (p.step content.event).run rest := by
  cases content <;> rfl

theorem run_content {p : Parser} (hp : (p.inKey || p.inToken) = true) {content : List Content}
    (htidy : ∀ c ∈ content, c.Tidy) (rest : List Event) :
    p.run (content.map Content.event ++ rest) =
      { p with text := p.text ++ content.flatMap Content.chars }.run rest := by
  induction content generalizing p with
  | nil => simp
  | cons c content ih =>
    rw [List.map_cons, List.cons_append, run_event, step_content hp (htidy c List.mem_cons_self)]
    have hrest := @ih { p with text := p.text ++ c.chars } hp fun d hd => htidy d (List.mem_cons_of_mem c hd)
    rw [hrest, List.flatMap_cons, List.append_assoc]

/-- An item adds its key or sets its token, and the parser is between two items again. -/
theorem run_item {item : Item} (htidy : item.Tidy) (keys : List String) (token : Option String) (rest : List Event) :
    (between keys token).run (item.events ++ rest) =
      (between (keys ++ item.key?.toList) (item.token?.or token)).run rest := by
  cases item with
  | key content =>
    show (Parser.mk keys token true false []).run (content.map Content.event ++ [Event.stop "Key"] ++ rest) = _
    rw [List.append_assoc, run_content rfl htidy]
    rfl
  | token content =>
    show (Parser.mk keys token false true []).run
      (content.map Content.event ++ [Event.stop "NextContinuationToken"] ++ rest) = _
    rw [List.append_assoc, run_content rfl htidy]
    simp [run, step, between, Item.key?, Item.token?, contentText]
  | other event =>
    have hstep : (between keys token).step event = between keys token := by
      cases event with
      | start name => simp_all [step, Item.Tidy, Event.Foreign]
      | stop name => simp_all [step, Item.Tidy, Event.Foreign]
      | text content => rfl
      | generalRef name => rfl
      | other => rfl
      | eof => rfl
      | error => rfl
    have hrun : (between keys token).run (event :: rest) = ((between keys token).step event).run rest := by
      cases event <;> first | rfl | exact absurd htidy id
    simp [Item.events, Item.key?, Item.token?, hrun, hstep]

theorem filterMap_cons_eq {α β : Type} (f : α → Option β) (x : α) (xs : List α) :
    (x :: xs).filterMap f = (f x).toList ++ xs.filterMap f := by
  cases h : f x <;> simp [h]

theorem run_items {items : List Item} (htidy : ∀ item ∈ items, item.Tidy) (keys : List String) (token : Option String)
    (rest : List Event) :
    (between keys token).run (items.flatMap Item.events ++ rest) =
      (between (keys ++ items.filterMap Item.key?) ((items.filterMap Item.token?).getLast?.or token)).run rest := by
  induction items generalizing keys token with
  | nil => simp
  | cons item items ih =>
    rw [List.flatMap_cons, List.append_assoc, run_item (htidy item List.mem_cons_self)]
    rw [ih (fun i hi => htidy i (List.mem_cons_of_mem item hi)), filterMap_cons_eq, filterMap_cons_eq]
    rw [List.getLast?_append, Option.or_assoc, List.append_assoc]
    cases item <;> rfl

/-- What is pushed before a fault inside an item is no key and no token. -/
theorem run_content_fault {p : Parser} (hp : (p.inKey || p.inToken) = true) {content : List Content}
    (htidy : ∀ c ∈ content, c.Tidy) (n : Nat) (part : List Char) :
    (p.run ((content.map Content.event).take n ++ [Event.text part, Event.error])).keys = p.keys ∧
      (p.run ((content.map Content.event).take n ++ [Event.text part, Event.error])).token = p.token := by
  have hpush : ∀ (q : Parser) text, (q.push text).keys = q.keys ∧ (q.push text).token = q.token := by
    intro q text
    unfold push
    split_ifs <;> exact ⟨rfl, rfl⟩
  rw [← List.map_take, run_content hp fun c hc => htidy c (List.mem_of_mem_take hc)]
  exact hpush _ _

theorem run_item_fault {item : Item} (htidy : item.Tidy) (keys : List String) (token : Option String) {n : Nat}
    (hn : n < item.events.length) (part : List Char) :
    ((between keys token).run (item.events.take n ++ [Event.text part, Event.error])).keys = keys ∧
      ((between keys token).run (item.events.take n ++ [Event.text part, Event.error])).token = token := by
  cases n with
  | zero => exact ⟨rfl, rfl⟩
  | succ n =>
    cases item with
    | key content =>
      have hle : n ≤ (content.map Content.event).length := by simpa [Item.events] using hn
      have htake : (Item.key content).events.take (n + 1) = .start "Key" :: (content.map Content.event).take n := by
        rw [Item.events, List.cons_append, List.take_succ_cons, List.take_append_of_le_length hle]
      rw [htake]
      exact @run_content_fault ⟨keys, token, true, false, []⟩ rfl _ htidy n part
    | token content =>
      have hle : n ≤ (content.map Content.event).length := by simpa [Item.events] using hn
      have htake : (Item.token content).events.take (n + 1) =
          .start "NextContinuationToken" :: (content.map Content.event).take n := by
        rw [Item.events, List.cons_append, List.take_succ_cons, List.take_append_of_le_length hle]
      rw [htake]
      exact @run_content_fault ⟨keys, token, false, true, []⟩ rfl _ htidy n part
    | other event => simp [Item.events] at hn

/-- Up to a fault, the items that ended before it are read. -/
theorem run_items_fault {items : List Item} (htidy : ∀ item ∈ items, item.Tidy) (keys : List String)
    (token : Option String) (n : Nat) (part : List Char) :
    ((between keys token).run ((items.flatMap Item.events).take n ++ [Event.text part, Event.error])).keys =
        keys ++ (closed n items).filterMap Item.key? ∧
      ((between keys token).run ((items.flatMap Item.events).take n ++ [Event.text part, Event.error])).token =
        ((closed n items).filterMap Item.token?).getLast?.or token := by
  induction items generalizing keys token n with
  | nil =>
    rw [List.flatMap_nil, List.take_nil, closed]
    exact ⟨(List.append_nil keys).symm, rfl⟩
  | cons item items ih =>
    have hitem := htidy item List.mem_cons_self
    rw [List.flatMap_cons, closed]
    by_cases hn : item.events.length ≤ n
    · have hrest := ih (fun i hi => htidy i (List.mem_cons_of_mem item hi)) (keys ++ item.key?.toList)
        (item.token?.or token) (n - item.events.length)
      rw [if_pos hn, List.take_append, List.take_of_length_le hn, List.append_assoc, run_item hitem]
      rw [filterMap_cons_eq, filterMap_cons_eq, List.getLast?_append, Option.or_assoc]
      refine ⟨by rw [hrest.1, List.append_assoc], ?_⟩
      rw [hrest.2]
      cases item <;> rfl
    · rw [if_neg hn, List.take_append_of_le_length (by omega)]
      have hfault := run_item_fault hitem keys token (by omega : n < item.events.length) part
      exact ⟨hfault.1.trans (List.append_nil keys).symm, hfault.2⟩

end Parser

theorem parseListXml_page {page : Page} (htidy : page.Tidy) : parseListXml page.events = (page.keys, page.token) := by
  show ((Parser.between [] none).run page.events |>.keys, (Parser.between [] none).run page.events |>.token) = _
  rw [Page.events, Page.keys, Page.token, Page.whole]
  cases page.fault with
  | none =>
    show ((Parser.between [] none).run (page.items.flatMap Item.events ++ [Event.eof]) |>.keys,
      (Parser.between [] none).run (page.items.flatMap Item.events ++ [Event.eof]) |>.token) = _
    rw [Parser.run_items htidy]
    simp [Parser.run, Parser.between]
  | some fault =>
    obtain ⟨n, part⟩ := fault
    have hfault := Parser.run_items_fault htidy [] none n (trim part)
    exact Prod.ext hfault.1 (hfault.2.trans (Option.or_none))

/-! ### The listing over the pages -/

section

variable {ε : Type} {serve : Option String → Except ε Page}

theorem listFrom_follows (htidy : ∀ token page, serve token = .ok page → page.Tidy) {fuel : Nat}
    {keys before : List String} {token : Option String} (h : listFrom serve fuel before token = some (.ok keys)) :
    ∃ pages, Follows serve token pages ∧ keys = before ++ pages.flatMap Page.keys := by
  induction fuel generalizing before token with
  | zero => cases h
  | succ fuel ih =>
    rw [listFrom] at h
    cases hserve : serve token with
    | error e => simp [hserve] at h
    | ok page =>
      simp only [hserve, parseListXml_page (htidy token page hserve)] at h
      cases hnext : page.token with
      | none =>
        rw [hnext] at h
        refine ⟨[page], ⟨hserve, by rw [hnext]⟩, ?_⟩
        simpa using h.symm
      | some t =>
        rw [hnext] at h
        obtain ⟨pages, hpages, hkeys⟩ := ih h
        refine ⟨page :: pages, ⟨hserve, by rwa [hnext]⟩, ?_⟩
        rw [hkeys, List.flatMap_cons, List.append_assoc]

theorem follows_listFrom (htidy : ∀ token page, serve token = .ok page → page.Tidy) {pages : List Page}
    {token : Option String} (h : Follows serve token pages) (before : List String) :
    listFrom serve pages.length before token = some (.ok (before ++ pages.flatMap Page.keys)) := by
  induction pages generalizing before token with
  | nil => exact h.elim
  | cons page pages ih =>
    obtain ⟨hserve, hrest⟩ := h
    rw [List.length_cons, listFrom]
    simp only [hserve, parseListXml_page (htidy token page hserve)]
    cases hnext : page.token with
    | none =>
      rw [hnext] at hrest
      simp [hrest]
    | some t =>
      rw [hnext] at hrest
      show listFrom serve pages.length (before ++ page.keys) (some t) = _
      rw [ih hrest, List.flatMap_cons, List.append_assoc]

/-- The listing ends well exactly with the keys of all its pages, in order and as they are; a page with a
fault has the keys that ended before it. -/
theorem list_ok_iff (htidy : ∀ token page, serve token = .ok page → page.Tidy) (keys : List String) :
    (∃ fuel, list serve fuel = some (.ok keys)) ↔
      ∃ pages, Follows serve none pages ∧ keys = pages.flatMap Page.keys := by
  constructor
  · rintro ⟨fuel, h⟩
    exact listFrom_follows htidy h
  · rintro ⟨pages, hpages, rfl⟩
    exact ⟨pages.length, follows_listFrom htidy hpages []⟩

end

/-- A bucket with the keys `a&b` and `<c`, one on each page. -/
def twoPages : Option String → Except Unit Page
  | none => .ok ⟨[.token [.text ['t']], .key [.text ['a'], .entity .amp, .text ['b']]], none⟩
  | some _ => .ok ⟨[.key [.hex '<', .text ['c']]], none⟩

theorem twoPages_tidy (token : Option String) (page : Page) (h : twoPages token = .ok page) : page.Tidy := by
  cases token with
  | none =>
    obtain rfl := Except.ok.inj h
    simp [Page.Tidy, Item.Tidy, Content.Tidy, isXmlSpace]
  | some t =>
    obtain rfl := Except.ok.inj h
    simp [Page.Tidy, Item.Tidy, Content.Tidy, isXmlSpace]

theorem twoPages_listed : ∃ fuel, list twoPages fuel = some (.ok ["a&b", "<c"]) :=
  (list_ok_iff twoPages_tidy ["a&b", "<c"]).2 ⟨
    [⟨[.token [.text ['t']], .key [.text ['a'], .entity .amp, .text ['b']]], none⟩,
      ⟨[.key [.hex '<', .text ['c']]], none⟩], ⟨rfl, rfl, rfl⟩, rfl⟩

/-- A page that is cut off after its first key gives a listing without the second, and the white space beside
a reference is lost. -/
theorem listing_cut_off :
    (∃ page : Page, page.Tidy ∧ page.items.filterMap Item.key? = ["a", "b"] ∧
      list (fun _ => (.ok page : Except Unit Page)) 1 = some (.ok ["a"])) ∧
    ∃ page : Page, page.fault = none ∧ page.items.filterMap Item.key? = ["a & b"] ∧
      list (fun _ => (.ok page : Except Unit Page)) 1 = some (.ok ["a&b"]) := by
  constructor
  · refine ⟨⟨[.key [.text ['a']], .key [.text ['b']]], some (4, [])⟩, ?_, by decide, by decide⟩
    simp [Page.Tidy, Item.Tidy, Content.Tidy, isXmlSpace]
  · exact ⟨⟨[.key [.text ['a', ' '], .entity .amp, .text [' ', 'b']]], none⟩, rfl, by decide, by decide⟩

end Ecat.S3
