import Wrensong.Lib.Bytes

/-!
# The request handler: the parsing steps of `_handle_connection`

The handler cuts one buffer into strings in place: `strsep` overwrites a delimiter by `NUL` and moves a cursor, and the
cursor is then stepped by an unconditional `++`. Everything here is the pointer-level program of `http.c`:

* `Cursor`: a `char *` of the handler. It is null, a null pointer stepped by `++` (`wild`), or an offset into the buffer;
* `Mem`: the buffer, and the log of what the handler did with its cursors;
* `Handler`: programs over `Mem`. They stop at a `Fault`, an access that follows a null or wild cursor or reads behind
  the block. What was logged before the fault stays in the log, the faulting access included.

The buffer of a job is the bytes received and the `NUL` that `_http_read` puts behind them.
-/

namespace Wrensong.Http

open Wrensong.Lib.Bytes

/-! ### The data of a request -/

/-- `enum HttpMethodTyp`. -/
inductive HttpMethodTyp
  | unknown | get | post | put | patch | delete
  deriving DecidableEq, Repr

/-- `KNOWN_HTTP_METHODS`, without the null entry that ends the table. -/
def knownHttpMethods : List (List UInt8 × HttpMethodTyp) :=
  [(bytes "GET", .get), (bytes "POST", .post), (bytes "PUT", .put), (bytes "PATCH", .patch),
    (bytes "DELETE", .delete)]

/-- `MAX_HEADERS`. -/
def maxHeaders : ℕ := 128

/-- A `char *` of the handler. -/
inductive Cursor
  | null
  | wild
  | off (i : ℕ)
  deriving DecidableEq, Repr

/-- `struct _HttpRequest`. The strings are cursors into the buffer `buffer` names; `none` is a null `_buffer`. -/
structure HttpRequest where
  method : HttpMethodTyp := .unknown
  path : Cursor := .null
  host : Cursor := .null
  command : Cursor := .null
  contentLength : ℤ := 0
  buffer : Option ℕ := none
  bufferLen : ℕ := 0
  deriving DecidableEq, Repr

/-! ### Programs over the buffer -/

/-- What the handler does with a cursor. `step` records where a `++` moved it. -/
inductive Access
  | strsep (c : Cursor)
  | read (c : Cursor)
  | string (c : Cursor)
  | step (c : Cursor)
  deriving DecidableEq, Repr

/-- An access that has no defined result. -/
inductive Fault
  | badPointer
  | overread
  deriving DecidableEq, Repr

/-- The buffer, the accesses so far, and the header values so far, as strings at the time each was taken. The log and
the values are for the statements: the handler does not read them. -/
structure Mem where
  buf : List UInt8
  log : List Access := []
  values : List (List UInt8) := []
  deriving DecidableEq, Repr

/-- A program over the buffer. -/
def Handler (α : Type) := Mem → Except Fault α × Mem

instance : Monad Handler where
  pure a := fun m => (.ok a, m)
  bind x f := fun m =>
    match x m with
    | (.ok a, m') => f a m'
    | (.error e, m') => (.error e, m')

/-- Appends an access to the log. -/
def Mem.note (m : Mem) (a : Access) : Mem := { m with log := m.log ++ [a] }

/-- `strsep (&cursor, delim)`: the token, and the cursor behind it. `none` is the empty delimiter string. On a null
cursor it answers null, as the library does. -/
def strsep (delim : Option UInt8) (c : Cursor) : Handler (Cursor × Cursor) := fun m =>
  let m := m.note (.strsep c)
  match c with
  | .null => (.ok (.null, .null), m)
  | .wild => (.error .badPointer, m)
  | .off i =>
    let j := i + (token delim (m.buf.drop i)).length
    match m.buf[j]? with
    | none => (.error .overread, m)
    | some b =>
      if b = NUL then (.ok (.off i, .null), m)
      else (.ok (.off i, .off (j + 1)), { m with buf := m.buf.set j NUL })

/-- `cursor[0]`. -/
def byteAt (c : Cursor) : Handler UInt8 := fun m =>
  let m := m.note (.read c)
  match c with
  | .off i =>
    match m.buf[i]? with
    | some b => (.ok b, m)
    | none => (.error .overread, m)
  | _ => (.error .badPointer, m)

/-- The string at a cursor that is handed to `strcmp`, `strncmp` or `atoi`. -/
def cString (c : Cursor) : Handler (List UInt8) := fun m =>
  let m := m.note (.string c)
  match c with
  | .off i => if NUL ∈ m.buf.drop i then (.ok (cstr (m.buf.drop i)), m) else (.error .overread, m)
  | _ => (.error .badPointer, m)

/-- The cursor `++` leaves. -/
def Cursor.next : Cursor → Cursor
  | .off i => .off (i + 1)
  | _ => .wild

/-- `cursor++`. -/
def step (c : Cursor) : Handler Cursor := fun m => (.ok c.next, m.note (.step c.next))

/-- Records the string at a header's value. -/
def keepValue (c : Cursor) : Handler Unit := fun m =>
  match c with
  | .off i => (.ok (), { m with values := m.values ++ [cstr (m.buf.drop i)] })
  | _ => (.ok (), m)

/-! ### The handler -/

/-- The locals `req` and `closing`. -/
structure Locals where
  req : HttpRequest
  closing : Bool := false
  deriving DecidableEq, Repr

/-- The search through the method table; `old` is what `req.method` was before. -/
def findMethod (m : List UInt8) (old : HttpMethodTyp) : HttpMethodTyp :=
  match knownHttpMethods.find? fun e => e.1 == m with
  | some e => e.2
  | none => old

/-- The `if` chain on the name of a header. -/
def setHeader (key value : Cursor) (l : Locals) : Handler Locals := do
  let k ← cString key
  if strncmpEq k (bytes "Content-Length") 14 then do
    let v ← cString value
    pure { l with req := { l.req with contentLength := atoi v } }
  else if strncmpEq k (bytes "Host") 4 then
    pure { l with req := { l.req with host := value } }
  else if strncmpEq k (bytes "Command") 12 then
    pure { l with req := { l.req with command := value } }
  else if strncmpEq k (bytes "Connection") 10 then do
    let v ← cString value
    pure (if strncmpEq v (bytes "close") 5 then { l with closing := true } else l)
  else
    pure l

/-- The part of a round behind the test for the blank line: the header line is split and its value stored. -/
def readHeader (headerLine : Cursor) (l : Locals) : Handler Locals := do
  let (key, headerLine) ← strsep (some COLON) headerLine
  -- consume the space
  let headerLine ← step headerLine
  let (value, _) ← strsep none headerLine
  keepValue value
  setHeader key value l

/-- The header loop, with the number of rounds left. -/
def parseHeaders : ℕ → Cursor → Locals → Handler (Cursor × Locals)
  | 0, parseBuffer, l => pure (parseBuffer, l)
  | n + 1, parseBuffer, l => do
    let (headerLine, parseBuffer) ← strsep (some CR) parseBuffer
    -- consume \n
    let parseBuffer ← step parseBuffer
    let first ← byteAt headerLine
    if first = NUL then
      pure (parseBuffer, l)
    else do
      let l ← readHeader headerLine l
      parseHeaders n parseBuffer l

/-- The part of the handler behind the test for an unknown method: the path, the version and the header loop. -/
def parseAfterMethod (req : HttpRequest) (parseBuffer : Cursor) : Handler (Cursor × Locals) := do
  let (path, parseBuffer) ← strsep (some SP) parseBuffer
  let (_, parseBuffer) ← strsep (some CR) parseBuffer
  -- the \r was consumed but the \n is still remaining
  let parseBuffer ← step parseBuffer
  parseHeaders maxHeaders parseBuffer { req := { req with path := path } }

/-- The parsing steps of `_handle_connection` on a copy `req` of the connection's request. `none` is the early return
for an unknown method; otherwise the cursor behind the headers and the locals. -/
def parseRequest (req : HttpRequest) : Handler (Option (Cursor × Locals)) := do
  let (method, parseBuffer) ← strsep (some SP) (.off 0)
  let m ← cString method
  let req := { req with method := findMethod m req.method }
  if req.method = .unknown then
    pure none
  else do
    let r ← parseAfterMethod req parseBuffer
    pure (some r)

/-- The handler's memory when a job starts: the received bytes and the terminating `NUL`. -/
def Mem.ofReceived (s : List UInt8) : Mem := { buf := s ++ [NUL] }

example : (parseRequest {} (.ofReceived (bytes "GET / HTTP/1.1\r\nConnection: close\r\n\r\n"))).1 =
    .ok (some (.off 37, { req := { method := .get, path := .off 4 }, closing := true })) := by decide

end Wrensong.Http
