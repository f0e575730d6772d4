import ScriptHost.Text.Blank
import ScriptHost.Text.Pad

/-!
# ScriptHost.Log

Messages for the operator. What happens is recorded as a list of messages, each at a level; the
lowest level that is shown is chosen by the host, and a filter of `none` shows nothing. A message
is written on one line behind its level, with colour if the terminal has it.
-/

namespace ScriptHost.Log

inductive Level
  | debug
  | info
  | warn
  | error
deriving DecidableEq, Repr

namespace Level

def rank : Level → Nat
  | debug => 0
  | info => 1
  | warn => 2
  | error => 3

def name : Level → String
  | debug => "DEBUG"
  | info => "INFO"
  | warn => "WARN"
  | error => "ERROR"

def order (a b : Level) : Ordering := compare a.rank b.rank

/-- Reads the name of a level, in letters of either case and with blanks around it. -/
def parse? (text : String) : Option Level :=
  let name := String.ofList ((Text.trim text.toList).map Char.toLower)
  if name = "debug" then some debug
  else if name = "info" then some info
  else if name = "warn" ∨ name = "warning" then some warn
  else if name = "error" then some error
  else none

/-- What switches a terminal to the colours of the level. -/
def colour : Level → String
  | debug => "\x1b[36m"
  | info => ""
  | warn => "\x1b[1m\x1b[33m"
  | error => "\x1b[1m\x1b[31m"

end Level

/-- The lowest level that is shown; `none` shows nothing. -/
abbrev Filter := Option Level

namespace Filter

def shows (filter : Filter) (level : Level) : Bool :=
  match filter with
  | none => false
  | some lowest => lowest.rank ≤ level.rank

/-- The filter that a setting asks for: the word "off", the name of a level, or else, also
without a setting, the level `info`. -/
def ofSetting (setting : Option String) : Filter :=
  match setting with
  | none => some .info
  | some text =>
    if (Text.trim text.toList).map Char.toLower = "off".toList then none
    else some ((Level.parse? text).getD .info)

end Filter

structure Record where
  level : Level
  text : String
deriving DecidableEq, Repr

/-- Switches a terminal back to its usual colours. -/
def resetColour : String := "\x1b[0m"

/-- A message behind its level and whatever the host puts in front, such as the time of day. -/
def Record.line (stamp : String) (r : Record) : String :=
  stamp ++ "[" ++ Text.padRight 5 r.level.name ++ "] " ++ r.text ++ "\n"

def Record.write (inColour : Bool) (stamp : String) (r : Record) : String :=
  if inColour then resetColour ++ r.level.colour ++ r.line stamp ++ resetColour
  else r.line stamp

def shown (filter : Filter) (records : List Record) : List Record :=
  records.filter fun r => filter.shows r.level

/-- Seconds and milliseconds since the start of some day, as a time of day. -/
def timeOfDay (seconds millis : Nat) : String :=
  let two (n : Nat) := (if n < 10 then "0" else "") ++ toString n
  let three (n : Nat) := (if n < 100 then "0" else "") ++ two n
  let second := seconds % 86400
  two (second / 3600) ++ ":" ++ two (second / 60 % 60) ++ ":" ++ two (second % 60) ++ "."
    ++ three millis

end ScriptHost.Log
