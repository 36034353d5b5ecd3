import CppNotes.Lib.Chunk
import CppNotes.Lib.Loop
import CppNotes.Lib.Word

/-!
# The write engines of `iotool` (`iotool_cpp/iotool.c`)

`_do_wr_bytes_str`, `_do_wr_bytes_char`, `_do_wr_sects_char` and `_do_wr_sects_str` fill a buffer of at most
`MAX_BUF_LEN` bytes and write it over the requested range with as many `pwrite` calls as it takes.

`size_t` is `UInt64`; `off_t` and `ssize_t` are `Int64`.  A signed word in an unsigned expression is converted with
`toUInt64`, and a signed overflow wraps.

The kernel's answers are the list `rs`: the result of the first `pwrite`, of the second, and so on.  The trace `calls`
keeps each call with its answer.  When the list ends before the program does, the program is `pending` in its next
call.  What an answer can be is not part of the model but a condition on the trace (`Pwrite.Ok`).

A buffer is the memory from its start on, also beyond its end; `mem` is what `aligned_alloc` returns.
-/

namespace CppNotes.Iotool

open CppNotes.Lib

def SECTOR_SIZE : UInt64 := 512
def MAX_BUF_LEN : UInt64 := 1024 * 1024 * 4

abbrev Mem := ℕ → UInt8

structure CStr where
  bytes : List UInt8
  noNul : 0 ∉ bytes
  fits : bytes.length < 2 ^ 63

def CStr.strlen (str : CStr) : UInt64 := .ofNat str.bytes.length

def memset (buf : Mem) (c : UInt8) (n : UInt64) : Mem := fun i => if i < n.toNat then c else buf i

/-- `strcpy(buf + pos, str)`, terminating NUL included. -/
def strcpy (buf : Mem) (pos : ℕ) (str : CStr) : Mem := fun i =>
  if pos ≤ i ∧ i ≤ pos + str.bytes.length then str.bytes.getD (i - pos) 0 else buf i

/-! ## System calls and output -/

structure Pwrite where
  offset : Int64
  count : UInt64
  res : Int64
  deriving DecidableEq

/-- A call of `pread` with its answer and the bytes that it put into the buffer. -/
structure Pread where
  offset : Int64
  count : UInt64
  res : Int64
  data : List UInt8
  deriving DecidableEq

/-- `WriteIO` or `ReadIO`, whose messages differ in a word or two. -/
inductive Dir where
  | write | read
  deriving DecidableEq

/-- What is printed: one constructor for each format, with the values printed. -/
inductive Line where
  | allocFailed (bufLen : UInt64)
  | lens (dataLen bufLen : UInt64)
  | lensStr (str : List UInt8) (dataLen bufLen : UInt64)
  | pwriteFailed (offset size : Int64)
  | pwriteOk (offset size : Int64)
  | doneBytes (off : Int64) (cnt : UInt64)
  | doneSects (off : Int64) (cnt : UInt64)
  | args (d : Dir) (devPath : List UInt8) (bs : UInt64) (offset : Int64) (counts : UInt64) (inp : List UInt8)
  | openFailed (d : Dir) (devPath : List UInt8) (errno : ℕ)
  | opened (d : Dir) (engine : List UInt8)
  | dataFailed (d : Dir) (bs : UInt64)
  | ioFailed (d : Dir) (inp : List UInt8) (len : UInt64)
  | block (bs offset : UInt64)
  | dot
  | sectData (data : List UInt8) (offset : UInt32)
  | done
  | readEnd
  | total (dataLen bs : UInt64)
  | setupFailed
  | arrayFailed
  | eventsFailed
  | iocbFailed
  | bufFailed (len : UInt64)
  | plan (iocbCnt : ℕ) (str : List UInt8)
  | iocb (i : ℕ) (offset : Int64) (len : UInt64)
  | ready
  | submitFailed (ret : ℤ)
  | someDone (n iocbCnt : ℕ)
  | event (j : ℕ) (res : Int64)
  | geteventsFailed
  | noneDone
  | allDone
  | mallocFailed (bufLen : UInt64)
  | preadFailed
  | lseekFailed (offset : Int64)
  | sect (n : Int64) (text : List UInt8)
  | bytes (off : Int64) (len : UInt64) (text : List UInt8)
  | printingSector (i : ℕ)
  | printingPage (i : Int32)
  | blankLines
  deriving DecidableEq

structure Sys where
  file : File
  calls : List Pwrite
  reads : List Pread
  out : List Line

def Sys.print (s : Sys) (l : Line) : Sys := { s with out := s.out ++ [l] }
def Sys.printAll (s : Sys) (ls : List Line) : Sys := { s with out := s.out ++ ls }

/-- `pwrite(fd, buf, count, offset)` with the answer `res`. -/
def Sys.pwrite (s : Sys) (buf : Mem) (count : UInt64) (offset res : Int64) : Sys :=
  { s with
    file := s.file.write (unat offset) res.toInt.toNat buf
    calls := s.calls ++ [⟨offset, count, res⟩] }

/-- `pread(fd, buf, count, offset)` with the answer `res`; it comes with the buffer. -/
def Sys.pread (s : Sys) (buf : Mem) (count : UInt64) (offset res : Int64) : Mem × Sys :=
  let data := s.file.read (unat offset) res.toInt.toNat
  (fun i => data.getD i (buf i), { s with reads := s.reads ++ [⟨offset, count, res, data⟩] })

/-- How a run ends: it returns, it is in a system call whose answer is not given, it is in a loop that does not end,
or it has divided by zero. -/
inductive Exit where
  | ret (v : ℤ)
  | pending
  | hang
  | sigfpe
  deriving DecidableEq

/-! ## The loops -/

/-- The loop that fills the buffer with copies of the string; `none` when it does not end. -/
def fillStr (str : CStr) (bufLen : UInt64) (buf : Mem) : Option Mem :=
  (loop (fun s : Int64 × Mem => decide (s.1.toUInt64 + str.strlen ≤ bufLen))
    (fun s => ((s.1.toUInt64 + str.strlen).toInt64, strcpy s.2 (unat s.1) str)) (bufLen.toNat + 2)
    (0, buf)).map Prod.snd

/-- The loop that writes the buffer, from `wr_offset` up to `stop`. -/
def wrLoop (stop : UInt64) (oneWrLen : Int64 → Int64) (buf : Mem) : List Int64 → Int64 → Sys → Exit × Sys
  | [], wrOffset, s => (if wrOffset.toUInt64 < stop then .pending else .ret 0, s)
  | r :: rs, wrOffset, s =>
    if wrOffset.toUInt64 < stop then
      let n := oneWrLen wrOffset
      let s := s.pwrite buf n.toUInt64 wrOffset r
      if r < 0 then (.ret (-1), s.print (.pwriteFailed wrOffset n))
      else wrLoop stop oneWrLen buf rs (wrOffset + r) (s.print (.pwriteOk wrOffset n))
    else (.ret 0, s)

/-! ## The engines -/

/-- `buf_len` -/
def bufLen (dataLen : UInt64) : UInt64 := if dataLen > MAX_BUF_LEN then MAX_BUF_LEN else dataLen

/-- In what the four engines differ; `oneWrLen` is given `buf_len` and `wr_offset`. -/
structure Engine where
  dataLen : UInt64
  hello : UInt64 → Line
  fill : UInt64 → Mem → Option Mem
  start : Int64
  stop : UInt64
  oneWrLen : UInt64 → Int64 → UInt64
  done : Line

/-- What the four engines have in common. -/
def Engine.run (e : Engine) (mem : Option Mem) (rs : List Int64) (f : File) : Exit × Sys :=
  let n := bufLen e.dataLen
  match mem with
  | none => (.ret (-1), ⟨f, [], [], [.allocFailed n]⟩)
  | some heap =>
    let s : Sys := ⟨f, [], [], [e.hello n]⟩
    match e.fill n heap with
    | none => (.hang, s)
    | some buf =>
      let r := wrLoop e.stop (fun w => (e.oneWrLen n w).toInt64) buf rs e.start s
      if r.1 = .ret 0 then (r.1, r.2.print e.done) else r

/-- `one_wr_len` in the byte engines. -/
def bytesLen (dataLen : UInt64) (byteOff : Int64) (bufLen : UInt64) (wrOffset : Int64) : UInt64 :=
  if dataLen + byteOff.toUInt64 - wrOffset.toUInt64 > bufLen then bufLen
  else dataLen + byteOff.toUInt64 - wrOffset.toUInt64

/-- `one_wr_len` in the sector engines, which leave the start of the range out of the comparison. -/
def sectsLen (dataLen : UInt64) (sectOff : Int64) (bufLen : UInt64) (wrOffset : Int64) : UInt64 :=
  if dataLen - wrOffset.toUInt64 > bufLen then bufLen
  else dataLen + (sectOff * SECTOR_SIZE.toInt64).toUInt64 - wrOffset.toUInt64

/-- `_do_wr_bytes_str` -/
def doWrBytesStr (byteOff : Int64) (byteCnt : UInt64) (str : CStr) : Engine where
  dataLen := byteCnt
  hello := .lens byteCnt
  fill := fillStr str
  start := byteOff
  stop := byteCnt + byteOff.toUInt64
  oneWrLen := bytesLen byteCnt byteOff
  done := .doneBytes byteOff byteCnt

/-- `_do_wr_bytes_char` -/
def doWrBytesChar (byteOff : Int64) (byteCnt : UInt64) (c : UInt8) : Engine where
  dataLen := byteCnt
  hello := .lens byteCnt
  fill n buf := some (memset buf c n)
  start := byteOff
  stop := byteCnt + byteOff.toUInt64
  oneWrLen := bytesLen byteCnt byteOff
  done := .doneBytes byteOff byteCnt

/-- `_do_wr_sects_char` -/
def doWrSectsChar (sectOff : Int64) (sectCnt : UInt64) (c : UInt8) : Engine where
  dataLen := SECTOR_SIZE * sectCnt
  hello := .lens (SECTOR_SIZE * sectCnt)
  fill n buf := some (memset buf c n)
  start := sectOff * SECTOR_SIZE.toInt64
  stop := SECTOR_SIZE * sectCnt + (sectOff * SECTOR_SIZE.toInt64).toUInt64
  oneWrLen := sectsLen (SECTOR_SIZE * sectCnt) sectOff
  done := .doneSects sectOff sectCnt

/-- `_do_wr_sects_str` -/
def doWrSectsStr (sectOff : Int64) (sectCnt : UInt64) (str : CStr) : Engine where
  dataLen := SECTOR_SIZE * sectCnt
  hello := .lensStr str.bytes (SECTOR_SIZE * sectCnt)
  fill := fillStr str
  start := sectOff * SECTOR_SIZE.toInt64
  stop := SECTOR_SIZE * sectCnt + (sectOff * SECTOR_SIZE.toInt64).toUInt64
  oneWrLen := sectsLen (SECTOR_SIZE * sectCnt) sectOff
  done := .doneSects sectOff sectCnt

end CppNotes.Iotool
