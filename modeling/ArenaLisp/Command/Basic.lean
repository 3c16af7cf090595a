import ArenaLisp.Command.Flag
import ArenaLisp.Text.Utf8

/-!
# Commands

The first word that is neither a flag nor taken for the value of one names the
command; without one an interactive session starts. Until the command is known,
every flag that comes without a value is taken to have the next word as its value.
-/

namespace ArenaLisp

/-- What the program is asked to do. -/
inductive Command where
  /-- Runs expressions given on the command line, or files. -/
  | run (expressions print : Bool) (logLevel : String) (arguments : List String)
  /-- Starts an interactive session. -/
  | repl (logLevel : String)
  | help
deriving DecidableEq, Repr

namespace Command

/-- The name of the program. -/
def program : String := "minilisp"

def helpFlag : Flag := .switch "help" 'h'

def logLevelFlag : Flag := .text "log-level"

def replFlags : List Flag := [.text "prompt", .text "history-file", logLevelFlag, helpFlag]

def runFlags : List Flag :=
  [.switch "expression" 'e', .switch "print" 'p', logLevelFlag, helpFlag]

/-- Whether a word is a flag without a value of its own. -/
def takesNext (word : String) : Bool :=
  word.startsWith "-" && !word.contains '=' && (word.startsWith "--" || word.utf8ByteSize == 2)

/-- The words that are neither flags nor taken for their values. -/
def plainWords : List String → List String
  | [] => []
  | word :: rest =>
    if word == "--" then []
    else if takesNext word then
      match rest with
      | _ :: next :: more => plainWords (next :: more)
      | _ => []
    else if word.isEmpty || word.startsWith "-" then plainWords rest
    else word :: plainWords rest

/-- A command line without the first plain word that is the given one. -/
def without (name : String) : List String → List String
  | [] => []
  | [word] => if word == name then [] else [word]
  | word :: next :: rest =>
    if word == "--" then word :: next :: rest
    else if takesNext word then word :: next :: without name rest
    else if word == name then next :: rest
    else word :: without name (next :: rest)

/-- Whether so many changed, added or dropped bytes lead from one word to another. -/
def near : Nat → Bytes → Bytes → Bool
  | changes, [], ts => ts.length ≤ changes
  | changes, ss, [] => ss.length ≤ changes
  | changes, s :: ss, t :: ts =>
    if s == t then near changes ss ts
    else match changes with
      | 0 => false
      | fewer + 1 => near fewer ss ts || near fewer ss (t :: ts) || near fewer (s :: ss) ts
termination_by _ ss ts => ss.length + ts.length

/-- The commands that an unknown one may have been meant for: it is nearly one of them. -/
def similar (name : String) : List String :=
  let typed := Text.bytes (name.map Char.toLower)
  ["repl", "run", "completion"].filter fun known =>
    typed.isPrefixOf (Text.bytes known) || near 2 typed (Text.bytes known)

/-- The command of a sorted command line for an interactive session. -/
def ofReplLine (s : Flag.Sorted) : Command :=
  if s.isOn "help" then .help else .repl (s.textOf "log-level" "info")

/-- The command of a command line. -/
def parse (line : List String) : Except UsageError Command := do
  match plainWords line with
  | [] => return ofReplLine (← Flag.sort replFlags false line)
  | "repl" :: _ =>
    let sorted ← Flag.sort replFlags false (without "repl" line)
    match sorted.isOn "help", sorted.words with
    | false, word :: _ => throw (.unknownCommand word (program ++ " repl") [])
    | _, _ => return ofReplLine sorted
  | "run" :: _ =>
    let sorted ← Flag.sort runFlags false (without "run" line)
    if sorted.isOn "help" then return .help
    else if sorted.words.isEmpty then throw (.tooFewArguments 1 0)
    else
      return .run (sorted.isOn "expression") (sorted.isOn "print")
        (sorted.textOf "log-level" "info") sorted.words
  | "help" :: _ | "completion" :: _ => return .help
  | name :: _ => throw (.unknownCommand name program (similar name))

/-- What follows the message of a mistake. -/
def hint : UsageError → String
  | .unknownCommand _ name _ =>
    if name == program then "Run '" ++ program ++ " --help' for usage.\n" else ""
  | _ => ""

end Command

end ArenaLisp
