import ArenaLisp.Text.Quoted

/-!
# Flags of a command line

A flag is either a switch, which has a letter too, or takes a text. A long flag is
written `--name`, with its value after `=` or as the next word; letters may be
joined after one dash. `--` ends the flags, and flags may stand among the other
words.
-/

namespace ArenaLisp

inductive Flag where
  | switch (name : String) (letter : Char)
  | text (name : String)
deriving DecidableEq, Repr

namespace Flag

def name : Flag → String
  | .switch name _ => name
  | .text name => name

def hasLetter (c : Char) : Flag → Bool
  | .switch _ letter => letter == c
  | .text _ => false

end Flag

/-- A mistake in a command line. -/
inductive UsageError where
  | badFlag (word : String)
  | unknownFlag (name : String)
  | unknownLetter (group : List Char)
  | missingValue (word : String)
  | badSwitch (name : String) (letter : Char) (value : String)
  | tooFewArguments (least given : Nat)
  | unknownCommand (name program : String) (similar : List String)
deriving DecidableEq, Repr

namespace UsageError

/-- The first byte of a character, as a character. -/
def leadingByte (c : Char) : Char :=
  Char.ofNat ((String.utf8EncodeChar c).headD 0).toNat

/-- A character between single quotes, with escapes. -/
def quotedLetter (c : Char) : String :=
  let body := match c.toNat with
    | 0x27 => ['\\', c]
    | 0x22 => [c]
    | _ => Text.escapeChar c
  "\x27" ++ String.ofList body ++ "\x27"

/-- The commands that may have been meant. -/
def suggestion (similar : List String) : String :=
  if similar.isEmpty then ""
  else "\n\nDid you mean this?\n" ++ String.join (similar.map fun s => "\t" ++ s ++ "\n")

def message : UsageError → String
  | .badFlag word => "bad flag syntax: " ++ word
  | .unknownFlag name => "unknown flag: --" ++ name
  | .unknownLetter group =>
    "unknown shorthand flag: " ++ quotedLetter (leadingByte (group.headD ' ')) ++
      " in -" ++ String.ofList group
  | .missingValue word => "flag needs an argument: " ++ word
  | .badSwitch name letter value =>
    "invalid argument " ++ Text.quoted value ++ " for " ++
      Text.quoted ("-" ++ letter.toString ++ ", --" ++ name) ++
      " flag: strconv.ParseBool: parsing " ++ Text.quoted value ++ ": invalid syntax"
  | .tooFewArguments least given =>
    "requires at least " ++ toString least ++ " arg(s), only received " ++ toString given
  | .unknownCommand name program similar =>
    "unknown command " ++ Text.quoted name ++ " for " ++ Text.quoted program ++
      suggestion similar

end UsageError

namespace Flag

/-- The truth that the value of a switch stands for. -/
def truth? (value : String) : Option Bool :=
  if ["1", "t", "T", "true", "TRUE", "True"].contains value then some true
  else if ["0", "f", "F", "false", "FALSE", "False"].contains value then some false
  else none

/-- A flag given on the command line: the state of a switch, or a text. -/
inductive Setting where
  | switched (name : String) (on : Bool)
  | given (name value : String)
deriving DecidableEq, Repr

/-- Gives a flag a value. -/
def assign (value : String) : Flag → Except UsageError Setting
  | .switch name letter =>
    match truth? value with
    | some on => .ok (.switched name on)
    | none => .error (.badSwitch name letter value)
  | .text name => .ok (.given name value)

/-- The settings of joined letters. A group that begins with `test.` is passed over. -/
def ofLetters (flags : List Flag) : List Char → Except UsageError (List Setting)
  | [] => .ok []
  | c :: rest =>
    if "test.".toList.isPrefixOf (c :: rest) then .ok []
    else
      match flags.find? (hasLetter c), rest with
      | none, _ => .error (.unknownLetter (c :: rest))
      | some flag, '=' :: v :: value => do
        return [← flag.assign (String.ofList (v :: value))]
      | some flag, rest => do
        let setting ← flag.assign "true"
        return setting :: (← ofLetters flags rest)

/--
The setting of a long flag, whose word without the dashes is given, and whether it
takes the next word.
-/
def ofLong (flags : List Flag) (word : List Char) (next : Option String) :
    Except UsageError (Setting × Bool) := do
  let name := word.takeWhile (· != '=')
  let value := word.dropWhile (· != '=')
  if name.isEmpty || word.head? == some '-' then
    throw (.badFlag ("--" ++ String.ofList word))
  match flags.find? (·.name == String.ofList name) with
  | none => throw (.unknownFlag (String.ofList name))
  | some flag =>
    match value, flag, next with
    | _ :: value, _, _ => return (← flag.assign (String.ofList value), false)
    | [], .switch _ _, _ => return (← flag.assign "true", false)
    | [], .text _, some next => return (← flag.assign next, true)
    | [], .text _, none => throw (.missingValue ("--" ++ String.ofList word))

/-- A command line, sorted into settings and other words. -/
structure Sorted where
  settings : List Setting
  words : List String
deriving DecidableEq, Repr

/-- Sorts the words of a command line; `skip` says that the first is the value of a flag. -/
def sort (flags : List Flag) : (skip : Bool) → List String → Except UsageError Sorted
  | _, [] => .ok ⟨[], []⟩
  | true, _ :: rest => sort flags false rest
  | false, word :: rest =>
    match word.toList with
    | ['-', '-'] => .ok ⟨[], rest⟩
    | '-' :: '-' :: long => do
      let (setting, skip) ← ofLong flags long rest.head?
      let sorted ← sort flags skip rest
      return { sorted with settings := setting :: sorted.settings }
    | '-' :: c :: letters => do
      let settings ← ofLetters flags (c :: letters)
      let sorted ← sort flags false rest
      return { sorted with settings := settings ++ sorted.settings }
    | _ => do
      let sorted ← sort flags false rest
      return { sorted with words := word :: sorted.words }

namespace Sorted

/-- Whether a switch is on; the last setting counts. -/
def isOn (s : Sorted) (name : String) : Bool :=
  s.settings.foldl (fun on setting => match setting with
    | .switched other value => if other == name then value else on
    | .given _ _ => on) false

/-- The text of a flag; the last setting counts. -/
def textOf (s : Sorted) (name standard : String) : String :=
  s.settings.foldl (fun text setting => match setting with
    | .given other value => if other == name then value else text
    | .switched _ _ => text) standard

end Sorted

end Flag

end ArenaLisp
