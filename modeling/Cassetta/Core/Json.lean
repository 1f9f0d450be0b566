import Mathlib

/-!
# Decoding JSON as Python does

`json.loads` of a decoded text, one character at a time: a configuration holds the containers
that are still open and what is being read. Beyond the standard it takes `NaN` and the two
infinities, lone surrogates in escapes, and keys that occur twice, of which the last one counts.
It stops with a `RecursionError` when more containers are open than the interpreter allows, and
with a `ValueError` for everything else it does not take.
-/

/-- A Python `str`: its code points, of which a surrogate may be one. -/
abbrev PyStr := List Nat

/-- The code points of a text. -/
def PyStr.ofString (s : String) : PyStr := s.toList.map Char.toNat

/-- A JSON number; the digits of a float are those of its literal without the point. -/
inductive JsonNumber where
  | int (n : Int)
  | float (neg : Bool) (digits : Nat) (exp : Int)
  | nan
  | infinity (neg : Bool)
  deriving DecidableEq, Repr

inductive Json where
  | null
  | bool (b : Bool)
  | num (n : JsonNumber)
  | str (s : PyStr)
  | arr (items : List Json)
  | obj (members : List (PyStr × Json))

namespace Json

/-! ## Values -/

/-- A member of a `dict` under construction: a key that is there keeps its place. -/
def setMember {α : Type} (members : List (PyStr × α)) (key : PyStr) (v : α) : List (PyStr × α) :=
  if members.any (·.1 = key) then members.map fun m => if m.1 = key then (key, v) else m
  else members ++ [(key, v)]

/-- `dict.get`. -/
def getMember (members : List (PyStr × Json)) (key : String) : Option Json :=
  (members.find? (·.1 = PyStr.ofString key)).map Prod.snd

/-- A float literal is rounded to `1.0`. -/
def roundsToOne (digits : Nat) (exp : Int) : Prop :=
  let num := digits * 10 ^ exp.toNat
  let den := 10 ^ (-exp).toNat
  (2 ^ 54 - 1) * den ≤ 2 ^ 54 * num ∧ 2 ^ 53 * num ≤ (2 ^ 53 + 1) * den

instance (digits : Nat) (exp : Int) : Decidable (roundsToOne digits exp) :=
  inferInstanceAs (Decidable (_ ∧ _))

/-- `v == 1`. -/
def isOne : Json → Bool
  | bool b => b
  | num (.int n) => n = 1
  | num (.float neg digits exp) => !neg && roundsToOne digits exp
  | _ => false

/-! ## Configurations -/

inductive Error where
  /-- `JSONDecodeError`, or the `ValueError` of an integer with too many digits. -/
  | valueError
  | recursionError
  deriving DecidableEq, Repr

/-- A container that is open. -/
inductive Frame where
  | items (done : List Json)
  | members (done : List (PyStr × Json))
  /-- The value of a key is being read. -/
  | member (done : List (PyStr × Json)) (key : PyStr)

/-- How far a number has been read. -/
inductive NumberPart where
  | sign
  | zero
  | int
  | point
  | fraction
  | exponent
  | exponentSign
  | exponentDigits
  deriving DecidableEq, Repr

/-- A number that is being read. -/
structure NumberScan where
  part : NumberPart
  neg : Bool := false
  digits : Nat := 0
  /-- The digits before the point, and those after it. -/
  places : Nat := 0
  decimals : Nat := 0
  expNeg : Bool := false
  exp : Nat := 0
  deriving DecidableEq, Repr

/-- What is being read. -/
inductive Mode where
  /-- A value is to come; `first` right after an opening bracket. -/
  | value (first : Bool)
  /-- A key is to come; `first` right after an opening brace. -/
  | key (first : Bool)
  | colon (key : PyStr)
  /-- In a string, the latest code point first. -/
  | string (isKey : Bool) (acc : PyStr)
  | escape (isKey : Bool) (acc : PyStr)
  /-- In `\u`, with so many digits to come. -/
  | hex (isKey : Bool) (acc : PyStr) (left unit : Nat)
  /-- In a literal, with these characters to come. -/
  | word (rest : List Char) (v : Json)
  | number (scan : NumberScan)
  | done (v : Json)

/-- The open containers, the innermost first, and what is being read. -/
structure Config where
  stack : List Frame := []
  mode : Mode := .value false

/-! ## Single characters -/

/-- The whitespace of JSON. -/
def isSpace (c : Char) : Bool := c = ' ' || c = '\t' || c = '\n' || c = '\r'

/-- A decimal digit. -/
def digit (c : Char) : Option Nat :=
  if '0' ≤ c ∧ c ≤ '9' then some (c.toNat - 48) else none

def hexDigit (c : Char) : Option Nat :=
  if '0' ≤ c ∧ c ≤ '9' then some (c.toNat - 48)
  else if 'a' ≤ c ∧ c ≤ 'f' then some (c.toNat - 87)
  else if 'A' ≤ c ∧ c ≤ 'F' then some (c.toNat - 55)
  else none

/-- One more code unit from an escape: a low surrogate joins the high one before it. -/
def pushUnit (acc : PyStr) (unit : Nat) : PyStr :=
  match acc with
  | high :: rest =>
    if 0xd800 ≤ high ∧ high < 0xdc00 ∧ 0xdc00 ≤ unit ∧ unit < 0xe000 then
      (0x10000 + (high - 0xd800) * 0x400 + (unit - 0xdc00)) :: rest
    else unit :: acc
  | [] => [unit]

/-- What an escaped character stands for. -/
def unescape (c : Char) : Option Nat :=
  match c with
  | '"' => some 34
  | '\\' => some 92
  | '/' => some 47
  | 'b' => some 8
  | 'f' => some 12
  | 'n' => some 10
  | 'r' => some 13
  | 't' => some 9
  | _ => none

/-! ## Numbers -/

/-- `sys.get_int_max_str_digits()`. -/
def intMaxStrDigits : Nat := 4300

/-- The number, when what has been read is one. -/
def NumberScan.result (n : NumberScan) : Except Error Json :=
  match n.part with
  | .zero | .int =>
    if intMaxStrDigits < n.places then .error .valueError
    else .ok (.num (.int (if n.neg then -n.digits else n.digits)))
  | .fraction | .exponentDigits =>
    .ok (.num (.float n.neg n.digits ((if n.expNeg then -(n.exp : Int) else n.exp) - n.decimals)))
  | .sign | .point | .exponent | .exponentSign => .error .valueError

/-- The number with one more character, when it goes on. -/
def NumberScan.next (n : NumberScan) (c : Char) : Option NumberScan :=
  match n.part, digit c with
  | .sign, some d => some { n with
      part := if d = 0 then .zero else .int
      digits := d
      places := 1 }
  | .int, some d => some { n with digits := n.digits * 10 + d, places := n.places + 1 }
  | .point, some d | .fraction, some d => some { n with
      part := .fraction
      digits := n.digits * 10 + d
      decimals := n.decimals + 1 }
  | .exponent, some d | .exponentSign, some d | .exponentDigits, some d =>
    some { n with part := .exponentDigits, exp := n.exp * 10 + d }
  | .exponent, none =>
    if c = '+' then some { n with part := .exponentSign }
    else if c = '-' then some { n with part := .exponentSign, expNeg := true }
    else none
  | .zero, none | .int, none =>
    if c = '.' then some { n with part := .point }
    else if c = 'e' ∨ c = 'E' then some { n with part := .exponent }
    else none
  | .fraction, none =>
    if c = 'e' ∨ c = 'E' then some { n with part := .exponent } else none
  | _, _ => none

/-! ## One character -/

/-- Open a container, unless too many are open. -/
def enter (depth : Nat) (stack : List Frame) (frame : Frame) (mode : Mode) :
    Except Error Config :=
  if depth ≤ stack.length then .error .recursionError else .ok ⟨frame :: stack, mode⟩

/-- The first character of a value. -/
def startValue (depth : Nat) (stack : List Frame) (c : Char) : Except Error Config :=
  match c with
  | '"' => .ok ⟨stack, .string false []⟩
  | '{' => enter depth stack (.members []) (.key true)
  | '[' => enter depth stack (.items []) (.value true)
  | 'n' => .ok ⟨stack, .word "ull".toList .null⟩
  | 't' => .ok ⟨stack, .word "rue".toList (.bool true)⟩
  | 'f' => .ok ⟨stack, .word "alse".toList (.bool false)⟩
  | 'N' => .ok ⟨stack, .word "aN".toList (.num .nan)⟩
  | 'I' => .ok ⟨stack, .word "nfinity".toList (.num (.infinity false))⟩
  | '-' => .ok ⟨stack, .number { part := .sign, neg := true }⟩
  | _ => match ({ part := .sign } : NumberScan).next c with
    | some n => .ok ⟨stack, .number n⟩
    | none => .error .valueError

/-- A character behind a value. -/
def afterValue (stack : List Frame) (v : Json) (c : Char) : Except Error Config :=
  if isSpace c then .ok ⟨stack, .done v⟩
  else match stack, c with
    | .items done :: rest, ',' => .ok ⟨.items (done ++ [v]) :: rest, .value false⟩
    | .items done :: rest, ']' => .ok ⟨rest, .done (.arr (done ++ [v]))⟩
    | .member done key :: rest, ',' => .ok ⟨.members (setMember done key v) :: rest, .key false⟩
    | .member done key :: rest, '}' => .ok ⟨rest, .done (.obj (setMember done key v))⟩
    | _, _ => .error .valueError

/-- The end of a string. -/
def endString (stack : List Frame) (isKey : Bool) (s : PyStr) : Config :=
  if isKey then ⟨stack, .colon s⟩ else ⟨stack, .done (.str s)⟩

/-- Read one character. -/
def step (depth : Nat) (cfg : Config) (c : Char) : Except Error Config :=
  match cfg.mode with
  | .value first =>
    if isSpace c then .ok cfg
    else match first, cfg.stack, c with
      | true, .items [] :: rest, ']' => .ok ⟨rest, .done (.arr [])⟩
      | _, _, _ => startValue depth cfg.stack c
  | .key first =>
    if isSpace c then .ok cfg
    else if c = '"' then .ok ⟨cfg.stack, .string true []⟩
    else match first, cfg.stack, c with
      | true, .members [] :: rest, '}' => .ok ⟨rest, .done (.obj [])⟩
      | _, _, _ => .error .valueError
  | .colon key =>
    if isSpace c then .ok cfg
    else match cfg.stack, c with
      | .members done :: rest, ':' => .ok ⟨.member done key :: rest, .value false⟩
      | _, _ => .error .valueError
  | .string isKey acc =>
    if c = '"' then .ok (endString cfg.stack isKey acc.reverse)
    else if c = '\\' then .ok ⟨cfg.stack, .escape isKey acc⟩
    else if c.toNat < 32 then .error .valueError
    else .ok ⟨cfg.stack, .string isKey (c.toNat :: acc)⟩
  | .escape isKey acc =>
    if c = 'u' then .ok ⟨cfg.stack, .hex isKey acc 4 0⟩
    else match unescape c with
      | some n => .ok ⟨cfg.stack, .string isKey (n :: acc)⟩
      | none => .error .valueError
  | .hex isKey acc left unit =>
    match hexDigit c with
    | none => .error .valueError
    | some d =>
      if left ≤ 1 then .ok ⟨cfg.stack, .string isKey (pushUnit acc (unit * 16 + d))⟩
      else .ok ⟨cfg.stack, .hex isKey acc (left - 1) (unit * 16 + d)⟩
  | .word rest v =>
    match rest with
    | [] => afterValue cfg.stack v c
    | x :: rest => if c = x then .ok ⟨cfg.stack, .word rest v⟩ else .error .valueError
  | .number n =>
    match n.next c with
    | some n => .ok ⟨cfg.stack, .number n⟩
    | none =>
      if n.part = .sign ∧ c = 'I' then
        .ok ⟨cfg.stack, .word "nfinity".toList (.num (.infinity n.neg))⟩
      else match n.result with
        | .ok v => afterValue cfg.stack v c
        | .error e => .error e
  | .done v => afterValue cfg.stack v c

/-- The value, when the text ends here. -/
def finish (cfg : Config) : Except Error Json :=
  match cfg.stack, cfg.mode with
  | [], .done v => .ok v
  | [], .word [] v => .ok v
  | [], .number n => n.result
  | _, _ => .error .valueError

/-- Read the rest of a text. -/
def scan (depth : Nat) : Config → List Char → Except Error Json
  | cfg, [] => finish cfg
  | cfg, c :: rest => match step depth cfg c with
    | .ok cfg => scan depth cfg rest
    | .error e => .error e

/-- `json.loads` with room for so many open containers; a text must not start with a byte order
mark. -/
def loads (depth : Nat) (text : String) : Except Error Json :=
  if text.toList.head? = some '\uFEFF' then .error .valueError else scan depth {} text.toList

example : loads 1 "\x7b\"a\": [1]\x7d" = .error .recursionError := rfl

end Json
