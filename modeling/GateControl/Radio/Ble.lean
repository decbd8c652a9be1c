import GateControl.Library.JsonText
import GateControl.Library.Transition

/-!
# Ble — the Bluetooth scanner and its helper processes

The scanner starts a helper process, reads its lines, and starts another after a while when it has
failed.  Every helper that was ever started stays in the list: it may still write lines, report
errors and exit after it has been stopped.  What the sensors of an `A` line do is not part of the
model, nor are the reports to the server.
-/

namespace GateControl
namespace Radio

open Library Library.JsonText

/-! ## Error numbers -/

def isWhiteUnit (c : CodeUnit) : Bool := isTrimmed (Char.ofNat c.val)

def trimUnits (s : Units) : Units :=
  ((s.dropWhile isWhiteUnit).reverse.dropWhile isWhiteUnit).reverse

/-- Digits of another base, to the end of the text. -/
def radixNumber (base : Nat) (s : Units) : Option ℚ :=
  if s = [] then none
  else
    (s.mapM fun c => (hexValue? c).filter (· < base)).map fun ds =>
      ((ds.foldl (fun n d => base * n + d) 0 : ℕ) : ℚ)

/-- A decimal with digits before or behind the point, to the end of the text. -/
def decimalNumber (s : Units) : Option ℚ :=
  let whole := s.takeWhile isDigitUnit
  let rest := s.dropWhile isDigitUnit
  let (fraction, rest) :=
    if rest.head? = some (unit '.') then
      (rest.tail.takeWhile isDigitUnit, rest.tail.dropWhile isDigitUnit)
    else ([], rest)
  if whole = [] ∧ fraction = [] then none
  else
    match readExponent rest with
    | some (exponent, []) =>
      some (digitsNumber (whole ++ fraction) * 10 ^ (exponent - fraction.length))
    | _ => none

/-- `Number` of a text, where it is a finite number without a minus. -/
def numberOf (s : Units) : Option ℚ :=
  let magnitude := match trimUnits s with
    | [] => some 0
    | [c] => decimalNumber [c]
    | c :: d :: s =>
      if c = unit '+' then decimalNumber (d :: s)
      else if c = unit '0' ∧ (d = unit 'x' ∨ d = unit 'X') then radixNumber 16 s
      else if c = unit '0' ∧ (d = unit 'o' ∨ d = unit 'O') then radixNumber 8 s
      else if c = unit '0' ∧ (d = unit 'b' ∨ d = unit 'B') then radixNumber 2 s
      else decimalNumber (c :: d :: s)
  magnitude.bind fun q => (toDouble? q).map Double.val

inductive ErrorCode
  | noBluetooth
  | noAdapter
  | noPermission
  | busy
  | scanRefused
  | helperError
  | helperMissing
  | spawnFailed
  | helperExit
  deriving DecidableEq, Repr

/-- `ERRNO`. -/
def errno : List (ℚ × ErrorCode) :=
  [(97, .noBluetooth), (19, .noAdapter), (1, .noPermission), (13, .noPermission), (16, .busy)]

/-! ## The scanner -/

inductive ScanState
  | off
  | noAdapter
  | starting
  | running
  | error
  deriving DecidableEq, Repr

structure ScanError where
  /-- `at`. -/
  time : Int
  code : ErrorCode
  message : Units
  deriving DecidableEq

structure Adapter where
  name : Text
  deriving DecidableEq

/-- A helper process: whether it has exited, and whether it has been sent `SIGTERM`. -/
structure Helper where
  exited : Bool
  terminated : Bool
  deriving DecidableEq, Repr

def Helper.live (x : Helper) : Bool := !x.exited && !x.terminated

/-- `child` is the number of the helper that the scanner listens to, `restartTimer` the time that
the timer waits. -/
structure BleScanner where
  enabled : Bool
  adapter : Option Adapter
  child : Option Nat
  state : ScanState
  mode : Option Units
  error : Option ScanError
  failures : Nat
  restartTimer : Option Nat
  helpers : List Helper

/-- What a helper process does. -/
inductive HelperEvent
  | line (text : Units)
  | error (enoent : Bool) (message : Units)
  | exit (code : Option Nat)

/-- `thrown` is the message of the error that `spawn` throws, if it does. -/
inductive BleAction
  | apply (enabled : Bool) (adapters : List Adapter) (thrown : Option Units) (now : Int)
  | stop
  | timer (thrown : Option Units) (now : Int)
  | helper (h : Nat) (e : HelperEvent) (now : Int)

namespace BleScanner

def new : BleScanner where
  enabled := false
  adapter := none
  child := none
  state := .off
  mode := none
  error := none
  failures := 0
  restartTimer := none
  helpers := []

/-- `RESTART_MS`. -/
def restartMs : List Nat := [5000, 30000, 120000, 600000]

/-- The scanner sends `SIGTERM` to its helper and lets go of it. -/
def kill (s : BleScanner) : BleScanner :=
  match s.child with
  | none => s
  | some h =>
    { s with
      helpers := s.helpers.modify h fun x => { x with terminated := true }
      child := none }

/-- `_failed`. -/
def failed (s : BleScanner) (code : ErrorCode) (message : Units) (now : Int) : BleScanner :=
  let s := { s with state := .error, error := some ⟨now, code, message.take 160⟩ }.kill
  let wait := restartMs.getD (min s.failures (restartMs.length - 1)) 0
  let s := { s with failures := s.failures + 1 }
  if s.enabled && s.restartTimer.isNone then { s with restartTimer := some wait } else s

/-- `_start`. -/
def start (s : BleScanner) (thrown : Option Units) (now : Int) : BleScanner :=
  let s := { s with restartTimer := none }
  if !s.enabled || s.adapter.isNone then s
  else
    let s := { s with state := .starting }
    match thrown with
    | some message => s.failed .spawnFailed message now
    | none => { s with child := some s.helpers.length, helpers := s.helpers ++ [⟨false, false⟩] }

/-- `_stop`. -/
def stopChild (s : BleScanner) : BleScanner := { s with restartTimer := none }.kill

def apply (s : BleScanner) (enabled : Bool) (adapters : List Adapter) (thrown : Option Units)
    (now : Int) : BleScanner :=
  let next := adapters.head?
  let changed := next.map Adapter.name ≠ s.adapter.map Adapter.name
  let s := { s with enabled := enabled, adapter := next }
  if !enabled then { s.stopChild with state := .off, error := none }
  else if next.isNone then { s.stopChild with state := .noAdapter, error := none }
  else
    let s := if changed then s.stopChild else s
    if s.child.isNone && s.restartTimer.isNone then s.start thrown now else s

def stop (s : BleScanner) : BleScanner :=
  { { s with enabled := false }.stopChild with state := .off }

def startsWith (pattern : String) (s : Units) : Bool := (units pattern.toList).isPrefixOf s

/-- The reason that an `E` line gives: by the error number, else by the step that failed. -/
def lineCode (words : List Units) : ErrorCode :=
  match (words[2]?.bind numberOf).bind fun q => errno.lookup q with
  | some code => code
  | none => if words[1]? = some (units "scan".toList) then .scanRefused else .helperError

/-- `_line`. -/
def line (s : BleScanner) (text : Units) (now : Int) : BleScanner :=
  let words := text.splitOn (unit ' ')
  if startsWith "S ready " text then
    { s with
      state := .running
      mode := words[2]?.filter (· ≠ [])
      error := none
      failures := 0 }
  else if startsWith "E " text then s.failed (lineCode words) ((text.take 80).drop 2) now
  else s

/-- The handler of `error`. -/
def onError (s : BleScanner) (h : Nat) (enoent : Bool) (message : Units) (now : Int) : BleScanner :=
  if s.child = some h then s.failed (if enoent then .helperMissing else .spawnFailed) message now
  else s

/-- The handler of `exit`. -/
def onExit (s : BleScanner) (h : Nat) (code : Option Nat) (now : Int) : BleScanner :=
  if s.child ≠ some h then s
  else
    let s := { s with child := none }
    if !s.enabled then s
    else if s.state ≠ .error then
      s.failed .helperExit (units ("exit ".toList ++ (code.map decimal).getD "null".toList)) now
    else s

def step (s : BleScanner) : BleAction → Option BleScanner
  | .apply enabled adapters thrown now => some (s.apply enabled adapters thrown now)
  | .stop => some s.stop
  | .timer thrown now => if s.restartTimer.isSome then some (s.start thrown now) else none
  | .helper h e now => s.helpers[h]?.bind fun x =>
    match e with
    | .line text => some (s.line text now)
    | .error enoent message => some (s.onError h enoent message now)
    | .exit code =>
      if x.exited then none
      else
        some ({ s with helpers := s.helpers.modify h fun x => { x with exited := true } }.onExit h
          code now)

end BleScanner

end Radio
end GateControl
