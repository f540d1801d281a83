import Wrensong.Ini.Table

/-!
# The reader `_ini_read`

The reader is a machine that takes one character after another. It collects a line in the block `buf`, which it grows by
128 bytes when a character finds it full, and remembers where the value of the line starts by a pointer into the block.

* `Reader`: the locals of `_ini_read`. The block has a number, new for each `realloc`, and a pointer names the block it
  points into, so that a pointer that is not rebased is stale. `position` is an `unsigned` of 32 bits and starts again at 0
  behind the last one; `spaces` and `line` are of the type `int`, and one that leaves it is a fault;
* `readChar`: one round of the loop. The loop inside the comment branch reads characters itself; it is the mode
  `inComment` here, and the room in the block is not checked there;
* `IniFault`: a store outside the block, a string that does not end in it, a null or a stale pointer, an `int` that overflows.

An error is reported to a handler that returns.
-/

namespace Wrensong.Ini

open Wrensong.Lib Wrensong.Lib.Bytes

abbrev SEMICOLON : UInt8 := 59
abbrev HASH : UInt8 := 35
abbrev LBRACKET : UInt8 := 91
abbrev RBRACKET : UInt8 := 93
abbrev EQUALS : UInt8 := 61

/-- The `state` of the reader. -/
inductive LineState
  | Section | Key | Value | Comment
  deriving DecidableEq, Repr

/-- A pointer into a line buffer. -/
structure Pointer where
  block : ℕ
  off : ℕ
  deriving DecidableEq, Repr

/-! ### What the reader puts out -/

/-- What has been read so far: the table or the calls, `current_section`, and the errors reported. -/
structure Output where
  sink : Sink
  currentSection : Option ℕ := none
  errors : List (List UInt8) := []
  deriving DecidableEq

/-- `current_section = _ini_section_create (call, table, name)`. -/
def Output.createSection (call : Option IniCallback) (o : Output) (name : CString) : Except IniFault Output :=
  (iniSectionCreate call o.sink name).map fun p => { o with sink := p.1, currentSection := p.2 }

/-- The empty-named section, where there is no current one. -/
def Output.needSection (call : Option IniCallback) (o : Output) : Except IniFault Output :=
  match o.currentSection with
  | none => o.createSection call (.ofBlock [])
  | some _ => pure o

/-- `_ini_entry_create (call, current_section, key, value)`. -/
def Output.createEntry (call : Option IniCallback) (o : Output) (key value : CString) : Except IniFault Output :=
  (iniEntryCreate call o.sink o.currentSection key value).map fun sink => { o with sink := sink }

/-- `_ini_error`. -/
def Output.report (o : Output) (message : List UInt8) : Output := { o with errors := o.errors ++ [message] }

/-- `snprintf (error, 256, ..)`. -/
def formatError (before s after : List UInt8) : List UInt8 := (before ++ s ++ after).take 255

/-- The message for a section line without `]`. -/
def missingBracket (s : CString) : List UInt8 := formatError (bytes "Section `") s.val (bytes "' missing `]' operator.")

/-- The message for a line without `=`. -/
def missingEquals (s : CString) : List UInt8 := formatError (bytes "Key `") s.val (bytes "' missing `=' operator.")

/-! ### The line buffer -/

/-- The locals of `_ini_read`. -/
structure Reader where
  state : LineState := .Section
  inComment : Bool := false
  position : ℕ := 0
  spaces : ℕ := 0
  line : ℕ := 0
  block : ℕ := 0
  buf : List UInt8 := List.replicate 128 NUL
  value : Option Pointer := none
  out : Output
  deriving DecidableEq

/-- Makes room for the character to come: `realloc` moves the block, and the value pointer is rebased. -/
def Reader.grow (r : Reader) : Reader :=
  if r.buf.length - 2 < r.position then
    { r with
      block := r.block + 1
      buf := r.buf.take r.position ++ List.replicate (r.buf.length + 128 - r.position) NUL
      value := r.value.map fun v => if v.block = r.block then ⟨r.block + 1, v.off⟩ else v }
  else r

/-- `buf[position++] = c`. -/
def Reader.store (r : Reader) (c : UInt8) : Except IniFault Reader :=
  if r.position < r.buf.length then
    pure { r with buf := r.buf.set r.position c, position := (r.position + 1) % 2 ^ 32 }
  else throw .overrun

/-- `spaces++`. -/
def Reader.countSpace (r : Reader) : Except IniFault Reader :=
  if r.spaces + 1 ≤ INT_MAX then pure { r with spaces := r.spaces + 1 } else throw .overflow

/-- `line++`. -/
def Reader.countLine (r : Reader) : Except IniFault Reader :=
  if r.line + 1 ≤ INT_MAX then pure { r with line := r.line + 1 } else throw .overflow

/-- The stores of the spaces that were put off. -/
def Reader.storeSpaces : ℕ → Reader → Except IniFault Reader
  | 0, r => pure r
  | n + 1, r => do
    let r ← r.store SP
    storeSpaces n r

/-- The string at the start of a part of the block. -/
def stringAt (l : List UInt8) : Except IniFault CString :=
  if NUL ∈ l then pure (.ofBlock l) else throw .overread

/-- What stands at the value pointer. -/
def Reader.atValue (r : Reader) : Except IniFault (List UInt8) :=
  match r.value with
  | none => throw .nullPointer
  | some v => if v.block = r.block then pure (r.buf.drop v.off) else throw .stalePointer

/-- `value[0]` in a value, and `buf[0]` elsewhere. -/
def Reader.firstByte (r : Reader) : Except IniFault UInt8 := do
  let l ← if r.state = .Value then r.atValue else pure r.buf
  match l with
  | b :: _ => pure b
  | [] => throw .overread

/-- An empty line buffer, behind which the reader expects a key. -/
def Reader.clear (r : Reader) : Reader :=
  { r with state := .Key, position := 0, spaces := 0, buf := List.replicate r.buf.length NUL }

/-! ### The loop -/

/-- The case of a newline, behind `line++`. -/
def Reader.endLine (call : Option IniCallback) (r : Reader) : Except IniFault Reader := do
  match r.state with
  | .Value =>
    let out ← r.out.needSection call
    let key ← stringAt r.buf
    let value ← stringAt (← r.atValue)
    let out ← out.createEntry call key value
    pure { r.clear with out := out, value := none }
  | .Comment =>
    let out ← r.out.needSection call
    let key ← stringAt r.buf
    let out ← out.createEntry call key (.ofBlock [])
    pure { r.clear with out := out }
  | .Section =>
    let s ← stringAt r.buf
    pure { r.clear with out := r.out.report (missingBracket s) }
  | .Key =>
    if r.position = 0 then pure r.clear
    else
      let s ← stringAt r.buf
      pure { r.clear with out := r.out.report (missingEquals s) }

/-- One round of the loop. -/
def readChar (call : Option IniCallback) (r : Reader) (c : UInt8) : Except IniFault Reader :=
  if r.inComment then
    if c = LF then pure { r with inComment := false } else r.store c
  else do
    let r := r.grow
    if c = SP then do
      let b ← r.firstByte
      if b = NUL then pure r else r.countSpace
    else if c = SEMICOLON ∨ c = HASH then
      if r.state = .Value then r.store c
      else do
        let r ← { r with state := .Comment }.store c
        -- the branch goes on reading up to the newline and then falls into the case that ignores the character
        pure { r with inComment := true }
    else if c = CR then pure r
    else if c = LF then do
      let r ← r.countLine
      r.endLine call
    else if c = LBRACKET then pure { r with state := .Section }
    else if c = RBRACKET then do
      let name ← stringAt r.buf
      let out ← r.out.createSection call name
      pure { r.clear with out := out }
    else if (c = EQUALS ∨ c = COLON) ∧ r.state = .Key then do
      let r ← { r with state := .Value }.store NUL
      pure { r with value := some ⟨r.block, r.position⟩, spaces := 0 }
    else do
      let r ← r.storeSpaces r.spaces
      { r with spaces := 0 }.store c

/-- The characters a reader gets, and what the stream says about errors behind them. -/
structure IniIn where
  data : List UInt8
  error : Bool := false

/-- `_ini_read`: what has been put out at the end of the input. -/
def readIni (input : IniIn) (call : Option IniCallback) (table : Option IniTable) : Except IniFault Output := do
  let r ← input.data.foldlM (readChar call) { out := { sink := { table := table } } }
  pure (if input.error then r.out.report (bytes "Error reading ini file") else r.out)

/-- `ini_read`. -/
def iniRead (input : IniIn) (callback : IniCallback) : Except IniFault Output := readIni input (some callback) none

/-- `ini_table_read`. -/
def iniTableRead (table : IniTable) (input : IniIn) : Except IniFault Output := readIni input none (some table)

end Wrensong.Ini
