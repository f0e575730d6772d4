import Std.Time.DateTime
import ScriptHost.Inspector

/-!
# ScriptHost.Main

The inspector as a program: it runs `Inspector.run` on the arguments, prints what that says, and
writes the log to standard error. The environment sets the lowest level that is logged, and
whether the terminal has colour.
-/

namespace ScriptHost.Inspector

/-- The variable that holds the lowest level to log. -/
def logVariable : String := "VM_INTEROP_LOG"

/-- Colour is used on a terminal that is not dumb, unless the user does not want it. -/
def wantsColour : IO Bool := do
  let terminal ← IO.getEnv "TERM"
  let refused ← IO.getEnv "NO_COLOR"
  return refused.isNone && terminal.any (· != "dumb")

/-- The time of day, in front of every message. -/
def stamp : IO String := do
  let now ← Std.Time.Timestamp.now
  let sinceEpoch := now.toDurationSinceUnixEpoch
  return Log.timeOfDay sinceEpoch.second.val.toNat (sinceEpoch.nano.val.toNat / 1000000) ++ " "

end ScriptHost.Inspector

open ScriptHost in
def main (args : List String) : IO UInt32 := do
  let filter := Log.Filter.ofSetting (← IO.getEnv Inspector.logVariable)
  let inColour ← Inspector.wantsColour
  let outcome := Inspector.run "vmvalue" args
  let stderr ← IO.getStderr
  for record in Log.shown filter outcome.log do
    stderr.putStr (record.write inColour (← Inspector.stamp))
  let stdout ← IO.getStdout
  stdout.putStr outcome.printed
  return outcome.code.toUInt32
