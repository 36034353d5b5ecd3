import CppNotes.Iotool.Engines

/-!
# `WriteIO` and `ReadIO` (`iotool_cpp/iotool.c`)

The commands `W` and `R` transfer `counts` blocks of `bs` bytes from sector `offset` on.  Both open the file, allocate
one block, and divide `bs * counts`, which can overflow, by `bs` again to get the number of whole blocks and the length
of the rest.  `WriteIO` adds `bs * i` to a running offset before the `i`-th `pwrite`; `ReadIO` computes the offset of
the `i`-th `pread` anew.

`i` is an `int` that is compared with a `size_t`.  The answers of the kernel are a list as for the write engines;
`errno` is given if `open` fails.  Of the summary that both print at the end, the times are left out.
-/

namespace CppNotes.Iotool

open CppNotes.Lib

/-- `Args_t`, with the strings as a C function reads them. -/
structure Args where
  bs : UInt64
  offset : Int64
  counts : UInt64
  devPath : CStr
  inp : CStr

/-- An `int` in an expression with a `size_t`. -/
def asSize (i : Int32) : UInt64 := i.toInt64.toUInt64

/-- `size_t offset` at the start of both functions. -/
def Args.start (a : Args) : UInt64 := (a.offset * 512).toUInt64

/-- `data_len` -/
def Args.dataLen (a : Args) : UInt64 := a.bs * a.counts

/-- How both functions start: they print their arguments, open the file and allocate one block. -/
def withBlock (d : Dir) (engine : CStr) (a : Args) (errno : Option ℕ) (mem : Option Mem) (f : File)
    (body : Mem → Sys → Exit × Sys) : Exit × Sys :=
  let s : Sys := ⟨f, [], [], [.args d a.devPath.bytes a.bs a.offset a.counts a.inp.bytes]⟩
  match errno with
  | some e => (.ret 1, s.print (.openFailed d a.devPath.bytes e))
  | none =>
    let s := s.print (.opened d engine.bytes)
    match mem with
    | none => (.ret 1, s.print (.dataFailed d a.bs))
    | some heap => body heap s

/-! ## Writing -/

/-- The loop that fills the block with copies of the input; `none` when it does not end. -/
def fillData (inp : CStr) (bs : UInt64) (data : Mem) : Option Mem :=
  let strLen := inp.strlen.toUInt32.toInt32
  (loop (fun s : Int32 × Mem => decide (asSize (s.1 + strLen) ≤ bs))
    (fun s => ((asSize s.1 + inp.strlen).toUInt32.toInt32, strcpy s.2 (asSize s.1).toNat inp)) (bs.toNat + 2)
    (0, data)).map Prod.snd

/-- The rest behind the last whole block, and the end of the function. -/
def writeTail (a : Args) (data : Mem) (rs : List Int64) (offset : UInt64) (s : Sys) : Exit × Sys :=
  let writeEnd := a.dataLen % a.bs
  let finish (s : Sys) : Exit × Sys := (.ret 0, (s.print .done).print (.total a.dataLen a.bs))
  if writeEnd ≠ 0 then
    match rs with
    | [] => (.pending, s)
    | r :: _ =>
      let s := s.pwrite data writeEnd offset.toInt64 r
      if r < 0 then (.ret 1, s.print (.ioFailed .write a.inp.bytes writeEnd))
      else finish (s.print .dot)
  else finish s

def writeLoop (a : Args) (data : Mem) (rs : List Int64) (i : Int32) (offset : UInt64) (s : Sys) : Exit × Sys :=
  if asSize i < a.dataLen / a.bs then
    match rs with
    | [] => (.pending, s)
    | r :: rs =>
      let offset := offset + a.bs * asSize i
      let s := s.pwrite data a.bs offset.toInt64 r
      if r < 0 then (.ret 1, s.print (.ioFailed .write a.inp.bytes a.bs))
      else writeLoop a data rs (i + 1) offset ((s.print (.block a.bs offset)).print .dot)
  else writeTail a data rs offset s

/-- `WriteIO`, after its arguments were checked. -/
def writeIo (engine : CStr) (a : Args) (errno : Option ℕ) (mem : Option Mem) (rs : List Int64) (f : File) :
    Exit × Sys :=
  withBlock .write engine a errno mem f fun heap s =>
    match fillData a.inp a.bs heap with
    | none => (.hang, s)
    | some data => if a.bs = 0 then (.sigfpe, s) else writeLoop a data rs 0 a.start s

/-! ## Reading -/

def toLower (c : UInt8) : UInt8 := if 65 ≤ c ∧ c ≤ 90 then c + 32 else c

/-- `strncasecmp(in, "print", 5) == 0` -/
def CStr.isPrint (str : CStr) : Bool := (str.bytes.take 5).map toLower = [112, 114, 105, 110, 116]

/-- `prt_sect_data(data, data_len, offset)` if the input asks for it. -/
def Sys.prtSectData (s : Sys) (a : Args) (data : Mem) (offset : UInt64) : Sys :=
  if a.inp.isPrint then s.print (.sectData ((List.range a.bs.toUInt32.toNat).map data) offset.toUInt32) else s

/-- The rest behind the last whole block, which is read from another place than it would be written to. -/
def readTail (a : Args) (data : Mem) (rs : List Int64) (i : Int32) (s : Sys) : Exit × Sys :=
  let readCnt := a.dataLen / a.bs
  let readEnd := a.dataLen % a.bs
  let finish (s : Sys) : Exit × Sys := (.ret 0, (s.print .readEnd).print (.total a.dataLen a.bs))
  if readEnd ≠ 0 then
    match rs with
    | [] => (.pending, s)
    | r :: _ =>
      let (data, s) := s.pread (memset data 0 readEnd) readEnd (readCnt * a.bs).toInt64 r
      if r < 0 then (.ret 1, s.print (.ioFailed .read a.inp.bytes readEnd))
      else finish (s.prtSectData a data (a.bs * asSize i + a.start))
  else finish s

def readLoop (a : Args) (data : Mem) (rs : List Int64) (i : Int32) (s : Sys) : Exit × Sys :=
  if asSize i < a.dataLen / a.bs then
    match rs with
    | [] => (.pending, s)
    | r :: rs =>
      let offset := a.bs * asSize i + a.start
      let (data, s) := s.pread (memset data 0 a.bs) a.bs offset.toInt64 r
      if r < 0 then (.ret 1, s.print (.ioFailed .read a.inp.bytes a.bs))
      else readLoop a data rs (i + 1) (s.prtSectData a data offset)
  else readTail a data rs i s

/-- `ReadIO`, after its arguments were checked. -/
def readIo (engine : CStr) (a : Args) (errno : Option ℕ) (mem : Option Mem) (rs : List Int64) (f : File) :
    Exit × Sys :=
  withBlock .read engine a errno mem f fun heap s =>
    if a.bs = 0 then (.sigfpe, s) else readLoop a heap rs 0 s

end CppNotes.Iotool
