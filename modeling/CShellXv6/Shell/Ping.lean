import CShellXv6.Shell.History
import CShellXv6.Shell.Jobs
import CShellXv6.Shell.Lexer

/-!
# Sending signals

`ping` sends a signal to a process or to the group of a job. The number of the signal may have any
length: `parse_signal` reduces it digit by digit. Its `int` is an integer here, and a value on the
way that no `int` holds is an overflow.
-/

namespace CShellXv6

namespace Shell

namespace Ping

/-- The values an `int` holds. -/
def IsInt (n : Int) : Prop :=
  -2 ^ 31 ≤ n ∧ n < 2 ^ 31

instance (n : Int) : Decidable (IsInt n) :=
  inferInstanceAs (Decidable (_ ∧ _))

/-- What comes of `parse_signal`: 0 with the value, -1, or a value that no `int` holds. -/
inductive Parsed where
  | value (n : Int)
  | refused
  | overflow
  deriving DecidableEq, Repr

/-- The loop of `parse_signal` on what is left of the string. -/
def signalLoop : List Char → Int → Parsed
  | [], result => .value result
  | c :: text, result =>
    if c < '0' ∨ '9' < c then .refused
    else
      let product := result * 10
      let digit : Int := c.toNat - '0'.toNat
      let sum := product + digit
      if IsInt product ∧ IsInt digit ∧ IsInt sum then signalLoop text (sum.tmod 64) else .overflow

def parseSignal (text : List Char) : Parsed :=
  if cString text = [] then .refused else signalLoop (cString text) 0

/-- `parse_id`; `strtol` sets `errno` where the number is no `long`. -/
def parseId (text : List Char) : Option Int :=
  if text.head?.any Char.isDigit = false then none
  else if History.longLongMax < Decimal.readNat text ∨ text.dropWhile Char.isDigit ≠ [] then none
  else some (History.strtoll text)

/-- The answers of the system: `getpgid` by process, and whether a `kill` succeeds. -/
structure Host where
  getpgid : Int → Option ℕ
  kill : Int → Int → Bool

variable (host : Host) (jobs : List Jobs.Job)

def isTrackedPid (pid : Int) : Bool :=
  match host.getpgid pid with
  | none => false
  | some group => jobs.any fun j => j.live && j.pid == group

/-- What `run_ping` returns and prints, and the `kill` it has made. -/
structure Result where
  value : ℕ
  out : List Char
  err : List String
  killed : Option (Int × Int)
  deriving DecidableEq, Repr

/-- The end of `run_ping`. -/
def send (number target : List Char) (pid signal : Int) : Result :=
  if host.kill pid signal then
    ⟨1, "Sent signal ".toList ++ number ++ " to ".toList ++ target ++ ['\n'], [],
      some (pid, signal)⟩
  else ⟨1, [], ["ping: no such process found\n"], some (pid, signal)⟩

def noSuchProcess : Result := ⟨1, [], ["ping: no such process found\n"], none⟩

def invalidSyntax : Result := ⟨1, [], ["ping: invalid syntax\n"], none⟩

/-- `run_ping` behind `parse_signal`. -/
def pingTarget (number target : List Char) (signal : Int) : Result :=
  if target.head? = some '%' then
    match parseId target.tail with
    | none => noSuchProcess
    | some id =>
      if id ≤ 0 ∨ 100000 < id then noSuchProcess
      else
        match Jobs.findJob jobs id with
        | none => noSuchProcess
        | some (_, pgid) => send host number target (-pgid) signal
  else
    match parseId target with
    | none => noSuchProcess
    | some id =>
      if id ≤ 0 ∨ 100000000 < id ∨ isTrackedPid host jobs id = false then noSuchProcess
      else send host number target id signal

/-- `none` is an overflow in `parse_signal`. -/
def runPing (tokens : List Token) : Option Result :=
  match tokens with
  | [] => some ⟨0, [], [], none⟩
  | first :: rest =>
    if first.type ≠ .word ∨ first.text ≠ "ping".toList then some ⟨0, [], [], none⟩
    else
      match rest with
      | [target, number] =>
        if target.type ≠ .word ∨ number.type ≠ .word then some invalidSyntax
        else
          match parseSignal number.text with
          | .value signal => some (pingTarget host jobs number.text target.text signal)
          | .refused => some invalidSyntax
          | .overflow => none
      | _ => some invalidSyntax

/-- The process or the group is one of a live job. -/
def OfJob (pid : Int) : Prop :=
  ∃ j ∈ jobs, j.live = true ∧ (pid = -j.pid ∨ (0 < pid ∧ host.getpgid pid = some j.pid))

end Ping

end Shell

end CShellXv6
