import ArenaLisp.Text.Blank
import ArenaLisp.Text.Quoted

/-!
# The log

A record has a severity, a message and named fields, and is written on one line. A
log shows the records from a least level on. Levels are numbers; a level text names
one of four of them, in any case of letters, and may add or subtract a number.
-/

namespace ArenaLisp

/-- How severe a record of the interpreter is. -/
inductive Severity where
  | debug
  | error
deriving DecidableEq, Repr

namespace Severity

def level : Severity → Int
  | .debug => -4
  | .error => 8

def name : Severity → String
  | .debug => "DEBUG"
  | .error => "ERROR"

end Severity

structure LogRecord where
  severity : Severity
  message : String
  fields : List (String × String)
deriving DecidableEq, Repr

namespace LogRecord

/-- Characters that cannot stand in a field without quotes. -/
def needsQuotes (c : Char) : Bool :=
  if c.toNat < 0x80 then c.toNat ≤ 0x20 || c == '=' || c == '"'
  else c.toNat == 0xfffd || Text.isBlankChar c || !Text.isPrintable c

/-- The value of a field, between quotes if it has to be. -/
def fieldText (s : String) : String :=
  if s.isEmpty || s.toList.any needsQuotes then Text.quoted s else s

/-- The line of a record. -/
def line (r : LogRecord) : String :=
  let fields := ("level", r.severity.name) :: ("msg", r.message) :: r.fields
  " ".intercalate (fields.map fun (name, value) => name ++ "=" ++ fieldText value)

/-- Whether a log with the given least level shows a record. -/
def shown (least : Int) (r : LogRecord) : Bool := least ≤ r.severity.level

end LogRecord

/-- Why a level text is refused. -/
inductive LevelError where
  | unknownName
  | badOffset (offset : String)
  | offsetRange (offset : String)
deriving DecidableEq, Repr

namespace LevelError

def text : LevelError → String
  | .unknownName => "unknown name"
  | .badOffset offset => "strconv.Atoi: parsing " ++ Text.quoted offset ++ ": invalid syntax"
  | .offsetRange offset =>
    "strconv.Atoi: parsing " ++ Text.quoted offset ++ ": value out of range"

/-- The message about a level text. -/
def message (level : String) (e : LevelError) : String :=
  "slog: level string " ++ Text.quoted level ++ ": " ++ e.text

end LevelError

namespace Level

/-- The level a log has unless told otherwise. -/
def standard : Int := 0

/-- The capital form of a letter, as far as a level name can tell. -/
def capital (c : Char) : Char := if c.toNat = 0x131 then 'I' else c.toUpper

/-- The level of a name. -/
def ofName? (name : List Char) : Option Int :=
  match String.ofList (name.map capital) with
  | "DEBUG" => some (-4)
  | "INFO" => some 0
  | "WARN" => some 4
  | "ERROR" => some 8
  | _ => none

/-- The number behind a sign, within 64 bits. -/
def offset (text : List Char) : Except LevelError Int :=
  let digits := text.drop 1
  if digits.isEmpty || !digits.all Char.isDigit then .error (.badOffset (String.ofList text))
  else
    let magnitude : Int := digits.foldl (fun n c => n * 10 + (c.toNat - 0x30)) (0 : Nat)
    let value := if text.head? == some '-' then -magnitude else magnitude
    if -Int.pow 2 63 ≤ value ∧ value < Int.pow 2 63 then .ok value
    else .error (.offsetRange (String.ofList text))

/-- The level that a text denotes. -/
def ofText (text : String) : Except LevelError Int := do
  let isSign := fun c => c == '+' || c == '-'
  let name := text.toList.takeWhile fun c => !isSign c
  let tail := text.toList.dropWhile fun c => !isSign c
  let offset ← if tail.isEmpty then pure 0 else offset tail
  match ofName? name with
  | none => throw .unknownName
  | some base => return (base + offset).bmod (Nat.pow 2 64)

end Level

end ArenaLisp
