import OsByAi.Word64

set_option autoImplicit false

/-!
# The console

The line editor and the command table of `console.c`. Everything a byte makes the code do
is listed in order as an `Effect`; output is assumed to reach the serial line.
-/
namespace OsByAi.ConsoleModel

inductive Command where
  | blank
  | help
  | ticks
  | mem
  | clear
  | halt
  | unknown
deriving DecidableEq

/-- `discarded` is the output "Input discarded (line too long or serial error).\n", `store` a
    write to `line[index]`, `execute` a call with the text that it is given. -/
inductive Effect where
  | output (text : String)
  | discarded
  | store (index : ℕ)
  | execute (text : List UInt8)
  | dispatch (command : Command)

structure Counters where
  ticks : ℕ
  total : ℕ
  free : ℕ

structure LineEditor where
  line : ℕ → UInt8
  length : ℕ
  escape : ℕ
  afterCr : Bool
  discard : Bool

/-- The local variable of `console_run`: `line` is not initialised. -/
def start (line : ℕ → UInt8) : LineEditor := ⟨line, 0, 0, false, false⟩

def isBlank (c : UInt8) : Bool := c == 32 || c == 9

def word (cs : List Char) : List UInt8 := cs.map fun c => UInt8.ofNat c.toNat

/-- `equal(line + i, w)` for a literal `w` without its terminating zero. -/
def equal (line : ℕ → UInt8) : ℕ → List UInt8 → Bool
  | i, [] => line i == 0
  | i, c :: w => line i == c && equal line (i + 1) w

def number (value : ℕ) : String := String.ofList (Nat.toDigits 10 value)

/-- `while (length && blank(line[length - 1])) --length;` -/
def trimEnd (line : ℕ → UInt8) : ℕ → ℕ
  | 0 => 0
  | n + 1 => if isBlank (line n) then trimEnd line n else n + 1

/-- `while (blank(*line)) ++line;` within `fuel` characters. -/
def skipBlanks (line : ℕ → UInt8) : ℕ → ℕ → ℕ
  | i, 0 => i
  | i, fuel + 1 => if isBlank (line i) then skipBlanks line (i + 1) fuel else i

def commandAt (line : ℕ → UInt8) (i : ℕ) : Command :=
  if line i == 0 then .blank
  else if equal line i (word ['h', 'e', 'l', 'p']) then .help
  else if equal line i (word ['t', 'i', 'c', 'k', 's']) then .ticks
  else if equal line i (word ['m', 'e', 'm']) then .mem
  else if equal line i (word ['c', 'l', 'e', 'a', 'r']) then .clear
  else if equal line i (word ['h', 'a', 'l', 't']) then .halt
  else .unknown

def replies (counters : Counters) : Command → List String
  | .blank => []
  | .help => ["help  - list commands\nmem   - physical page counts (4 KiB)\n" ++
      "ticks - timer interrupt count (~100 Hz)\n" ++
      "clear - clear terminal\nhalt  - stop CPU (restart QEMU to resume)\n"]
  | .ticks => ["ticks: ", number counters.ticks, "\n"]
  | .mem => ["pages: total=", number counters.total,
      " used=", number (Word64.sub counters.total counters.free),
      " free=", number counters.free, "\n"]
  | .clear => ["\x1b[2J\x1b[H"]
  | .halt => ["KERNEL: halting\n"]
  | .unknown => ["Unknown command. Type 'help'.\n"]

/-- The buffer afterwards, what was done, and the command. -/
def execute (counters : Counters) (line : ℕ → UInt8) (length : ℕ) :
    (ℕ → UInt8) × List Effect × Command :=
  let length := trimEnd line length
  let line := Function.update line length 0
  let command := commandAt line (skipBlanks line 0 128)
  (line, .store length :: .dispatch command :: (replies counters command).map .output, command)

def resetLine (e : LineEditor) : LineEditor := { e with length := 0, escape := 0, discard := false }

def text (e : LineEditor) : List UInt8 := (List.range' 0 e.length).map e.line

/-- After a `halt` nothing more is run. -/
structure Reaction where
  editor : LineEditor
  effects : List Effect
  halted : Bool

def finishLine (counters : Counters) (e : LineEditor) : Reaction :=
  if e.discard then ⟨resetLine e, [.output "\n", .discarded, .output "K> "], false⟩
  else
    let (line, effects, command) := execute counters e.line e.length
    let e' := { e with line := line }
    let effects := .output "\n" :: .execute (text e) :: effects
    if command = .halt then ⟨e', effects, true⟩
    else ⟨resetLine e', effects ++ [.output "K> "], false⟩

def consumeEscape (e : LineEditor) (byte : UInt8) : Bool × LineEditor :=
  if e.escape = 1 then
    (true, { e with escape := if byte = 91 ∨ byte = 79 then 2 else 0 })
  else if e.escape = 2 then
    (true, if 0x40 ≤ byte ∧ byte ≤ 0x7e then { e with escape := 0 } else e)
  else if byte ≠ 27 then (false, e)
  else (true, { e with escape := 1 })

def editPlain (e : LineEditor) (byte : UInt8) : LineEditor × List Effect :=
  if byte = 8 ∨ byte = 127 then
    if e.length ≠ 0 then ({ e with length := e.length - 1 }, [.output "\x08 \x08"]) else (e, [])
  else if byte ≠ 9 ∧ (byte < 32 ∨ byte > 126) then (e, [])
  else if e.length = 127 then ({ e with discard := true }, [])
  else
    let byte := if byte = 9 then 32 else byte
    ({ e with line := Function.update e.line e.length byte, length := e.length + 1 },
      [.store e.length, .output (String.singleton (Char.ofNat byte.toNat))])

def editCharacter (e : LineEditor) (byte : UInt8) : LineEditor × List Effect :=
  if e.discard then (e, []) else
    let (consumed, e) := consumeEscape e byte
    if consumed then (e, []) else editPlain e byte

def acceptInput (counters : Counters) (e : LineEditor) (byte : UInt8) : Reaction :=
  if byte = 10 ∧ e.afterCr then ⟨{ e with afterCr := false }, [], false⟩
  else
    let e := { e with afterCr := byte = 13 }
    if byte = 3 then ⟨resetLine e, [.output "^C\nK> "], false⟩
    else if byte = 13 ∨ byte = 10 then finishLine counters e
    else
      let (e, effects) := editCharacter e byte
      ⟨e, effects, false⟩

/-- A stream of bytes, with the counters as they are when each byte is handled. -/
def run (counters : ℕ → Counters) : ℕ → LineEditor → List UInt8 → Reaction
  | _, e, [] => ⟨e, [], false⟩
  | k, e, byte :: bytes =>
    let r := acceptInput (counters k) e byte
    if r.halted then r
    else
      let r' := run counters (k + 1) r.editor bytes
      { r' with effects := r.effects ++ r'.effects }

end OsByAi.ConsoleModel
