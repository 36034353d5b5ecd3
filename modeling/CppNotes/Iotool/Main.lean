import CppNotes.Iotool.Aio
import CppNotes.Iotool.Dump
import CppNotes.Iotool.ReadBytes
import CppNotes.Iotool.Arguments

/-!
# The commands of `iotool` (`iotool_cpp/iotool.c`)

`main` looks its second argument up in a table of names, without regard to case, and calls the function of the first name
that has the same letters and the same length.  The functions parse the numbers of the command line, open the file and call
their engine.  They differ in what they parse first, and in whether they parse before they open: `do_aio_wrv_bytes_str` opens
first, and parses each pair only when it prepares the request for it, so that an argument that is no number aborts the process
in the middle of the preparation.

The functions around the engines end without a `return`; `ran` keeps how the engine ended.  `WriteIO` and `ReadIO` read the
two strings that `CheckArgs` has copied, past the ends of their arrays if they were too long for them.

The files are numbered: which of them a path names is up to the system, and several paths may name one.  `open` has `O_CREAT`
in all its flags, so that a file that is opened exists.  What the system answers to one run of the program is `Answers`;
`none` stands for answers that no run of the program can be given.  A call that succeeds leaves `errno` as it is.
-/

namespace CppNotes.Iotool

open CppNotes.Lib

abbrev Fs := ℕ → Option File

/-- What the system answers to one run: to `open`, with the file that it finds or creates and `errno` after it; to the
allocation and the calls of the engine; for each page that is read; and to the asynchronous engine.  `after` is what follows
the arguments of `WriteIO` and `ReadIO` in memory, up to a NUL; `extent` bytes of the memory can be read from the start of the
buffer on. -/
structure Answers where
  fd : ℤ
  ino : ℕ
  errno : ℤ
  mem : Option Mem
  rs : List Int64
  pages : List (Option Mem × Int64 × Int64)
  acts : List Aio.Act
  after : List UInt8
  extent : ℕ

/-- How a run of the program ends. -/
inductive Outcome where
  | help
  | invalidEngine (name : List UInt8)
  | notEnough
  | notInPairs
  | aborted
  | refused (why : Refusal)
  | notOpened (o : Opened)
  | ran (exit : Exit) (s : Sys)
  | aio (s : Aio.St)

/-- `fd = do_open(argv[1], argv[3])`, and what is done with the file if that succeeds. -/
def withFile (fs : Fs) (k : Answers) (cmdOpt path : CStr) (body : File → Option (Outcome × File)) : Option (Outcome × Fs) :=
  let o := doOpen cmdOpt.bytes path.bytes k.fd k.errno
  if o.ret < 0 then some (.notOpened o, fs)
  else (body ((fs k.ino).getD .empty)).map fun r => (r.1, Function.update fs k.ino (some r.2))

/-- The outcome of an engine, with the file that it leaves. -/
def engineRan (r : Exit × Sys) : Option (Outcome × File) := some (.ran r.1 r.2, r.2.file)

/-! ## Writing -/

/-- The numbers of a write command: the count is parsed before the offset. -/
def wrNumbers (off cnt : CStr) : Except Failure (Int64 × UInt64) := do
  let (cnt, errno) ← mystrtoull 0 cnt.bytes
  let (off, _) ← mystrtoll errno off.bytes
  return (off, cnt)

/-- What the four functions have in common. -/
def doWr (engine : Int64 → UInt64 → CStr → Engine) (fs : Fs) (k : Answers) : List CStr → Option (Outcome × Fs)
  | _ :: cmdOpt :: _ :: path :: off :: cnt :: str :: _ =>
    match wrNumbers off cnt with
    | .error _ => some (.aborted, fs)
    | .ok (off, cnt) => withFile fs k cmdOpt path fun f => engineRan ((engine off cnt str).run k.mem k.rs f)
  | _ => some (.notEnough, fs)

/-- `argv[6][0]` -/
def CStr.first (str : CStr) : UInt8 := str.bytes.headD 0

/-- `do_wr_bytes_str` -/
def cmdWrBytesStr : Fs → Answers → List CStr → Option (Outcome × Fs) := doWr doWrBytesStr

/-- `do_wr_bytes_char` -/
def cmdWrBytesChar : Fs → Answers → List CStr → Option (Outcome × Fs) := doWr fun off cnt str => doWrBytesChar off cnt str.first

/-- `do_wr_sects_char` -/
def cmdWrSectsChar : Fs → Answers → List CStr → Option (Outcome × Fs) := doWr fun off cnt str => doWrSectsChar off cnt str.first

/-- `do_wr_sects_str` -/
def cmdWrSectsStr : Fs → Answers → List CStr → Option (Outcome × Fs) := doWr doWrSectsStr

/-- The pairs of the asynchronous engine up to the first argument that is no number, with `errno` on the way. -/
def readPairs (errno : ℤ) : List CStr → List Aio.Pair
  | off :: cnt :: args =>
    match mystrtoll errno off.bytes with
    | .error _ => []
    | .ok (off, errno) =>
      match mystrtoull errno cnt.bytes with
      | .error _ => []
      | .ok (cnt, errno) => ⟨off, cnt⟩ :: readPairs errno args
  | _ => []

/-- The requests that are to be prepared: a pair that cannot be read keeps its place. -/
def aioJob (iocbCnt : ℕ) (pairs : List Aio.Pair) (str : CStr) : Aio.Job :=
  ⟨pairs ++ List.replicate (iocbCnt - pairs.length) ⟨0, 0⟩, str⟩

/-- The engine is at the pair behind the `n` that were read: it aborts. -/
def Aio.St.atPair (n : ℕ) (s : Aio.St) : Bool := decide (s.pc = .newIocb) && decide (s.iocbs.length = n)

/-- The asynchronous engine, from the place behind `do_open` on. -/
def aioRan (iocbCnt : ℕ) (pairs : List Aio.Pair) (str : CStr) (k : Answers) (f : File) : Option (Outcome × File) :=
  let job := aioJob iocbCnt pairs str
  (runs (Aio.step job) (fun s _ => s.atPair pairs.length = false) { Aio.St.init job f with pc := .setup } k.acts).map fun s =>
    (if s.atPair pairs.length then .aborted else .aio s, s.sys.file)

/-- `do_aio_wrv_bytes_str` -/
def cmdAioWrvBytesStr (fs : Fs) (k : Answers) (argv : List CStr) : Option (Outcome × Fs) :=
  match argv with
  | _ :: cmdOpt :: _ :: path :: a₄ :: a₅ :: a₆ :: args =>
    if (argv.length - 5) % 2 ≠ 0 then some (.notInPairs, fs)
    else
      let pairs := readPairs k.errno (a₄ :: a₅ :: a₆ :: args).dropLast
      let str := (a₆ :: args).getLast (List.cons_ne_nil _ _)
      withFile fs k cmdOpt path (aioRan ((argv.length - 5) / 2) pairs str k)
  | _ => some (.notEnough, fs)

/-! ## Reading -/

/-- The numbers of a read command: the offset is parsed before the count. -/
def rdNumbers (off cnt : CStr) : Except Failure (Int64 × UInt64) := do
  let (off, errno) ← mystrtoll 0 off.bytes
  let (cnt, _) ← mystrtoull errno cnt.bytes
  return (off, cnt)

/-- What `do_read_sects` and `do_read_bytes` have in common. -/
def doRead (engine : Int64 → UInt64 → Sys → Exit × Sys) (fs : Fs) (k : Answers) : List CStr → Option (Outcome × Fs)
  | _ :: cmdOpt :: _ :: path :: off :: cnt :: _ =>
    match rdNumbers off cnt with
    | .error _ => some (.aborted, fs)
    | .ok (off, cnt) => withFile fs k cmdOpt path fun f => engineRan (engine off cnt ⟨f, [], [], []⟩)
  | _ => some (.notEnough, fs)

/-- What `do_read_one_sect` and `do_read_one_page` have in common. -/
def doReadOne (engine : Int64 → Sys → Exit × Sys) (fs : Fs) (k : Answers) : List CStr → Option (Outcome × Fs)
  | _ :: cmdOpt :: _ :: path :: off :: _ =>
    match mystrtoll 0 off.bytes with
    | .error _ => some (.aborted, fs)
    | .ok (off, _) => withFile fs k cmdOpt path fun f => engineRan (engine off ⟨f, [], [], []⟩)
  | _ => some (.notEnough, fs)

/-- `do_read_sects` -/
def cmdReadSects (fs : Fs) (k : Answers) : List CStr → Option (Outcome × Fs) :=
  doRead (fun off cnt s => doReadSects off cnt k.mem k.rs s) fs k

/-- `do_read_bytes` -/
def cmdReadBytes (fs : Fs) (k : Answers) : List CStr → Option (Outcome × Fs) :=
  doRead (fun off cnt s =>
    let r := doReadBytes off cnt k.mem k.extent k.rs s
    (r.1, r.2.1)) fs k

/-- `do_read_one_sect` -/
def cmdReadOneSect (fs : Fs) (k : Answers) : List CStr → Option (Outcome × Fs) :=
  doReadOne (fun off s => doReadOneSect off k.mem k.rs s) fs k

/-- `do_read_one_page` -/
def cmdReadOnePage (fs : Fs) (k : Answers) : List CStr → Option (Outcome × Fs) :=
  doReadOne (fun off s => doReadOnePage off k.mem k.rs s) fs k

/-- `do_read_pages`, whose count is a signed number. -/
def cmdReadPages (fs : Fs) (k : Answers) : List CStr → Option (Outcome × Fs)
  | _ :: cmdOpt :: _ :: path :: off :: cnt :: _ =>
    match mystrtoll 0 off.bytes with
    | .error _ => some (.aborted, fs)
    | .ok (off, errno) =>
      match mystrtoll errno cnt.bytes with
      | .error _ => some (.aborted, fs)
      | .ok (cnt, _) => withFile fs k cmdOpt path fun f =>
        engineRan (if (k.pages.length : ℤ) < cnt.toInt then .pending else .ret 0, doReadPages off cnt 0 ⟨f, [], [], []⟩ k.pages)
  | _ => some (.notEnough, fs)

/-! ## `W` and `R` -/

/-- What `WriteIO` and `ReadIO` have in common.  They print their arguments before they open the file, and `errno` if that
fails. -/
def doBlocks (io : CStr → Args → Option ℕ → Option Mem → List Int64 → File → Exit × Sys) (fs : Fs) (k : Answers)
    (argv : List CStr) : Option (Outcome × Fs) :=
  match argv with
  | _ :: cmdOpt :: _ :: path :: _ =>
    match checkArgs 0 (argv.map (·.bytes)) with
    | .error (.refused why) => some (.refused why, fs)
    | .error .aborted => some (.aborted, fs)
    | .ok c =>
      match c.args k.after with
      | none => none
      | some a =>
        if (doOpen cmdOpt.bytes path.bytes k.fd k.errno).ret < 0 then
          let r := io cmdOpt a (some k.errno.toNat) k.mem k.rs .empty
          some (.ran r.1 r.2, fs)
        else withFile fs k cmdOpt path fun f => engineRan (io cmdOpt a none k.mem k.rs f)
  | _ => some (.refused .wrongArgument, fs)

/-- `WriteIO` -/
def cmdWriteIo : Fs → Answers → List CStr → Option (Outcome × Fs) := doBlocks writeIo

/-- `ReadIO` -/
def cmdReadIo : Fs → Answers → List CStr → Option (Outcome × Fs) := doBlocks readIo

/-! ## `main` -/

/-- The functions of `ioengine_array`. -/
inductive Cmd where
  | wrBytesStr | wrBytesChar | wrSectsChar | wrSectsStr
  | readOneSect | readBytes | readOnePage | readPages | readSects
  | aioWrvBytesStr
  | writeIo | readIo
  deriving DecidableEq

def Cmd.run : Cmd → Fs → Answers → List CStr → Option (Outcome × Fs)
  | wrBytesStr => cmdWrBytesStr
  | wrBytesChar => cmdWrBytesChar
  | wrSectsChar => cmdWrSectsChar
  | wrSectsStr => cmdWrSectsStr
  | readOneSect => cmdReadOneSect
  | readBytes => cmdReadBytes
  | readOnePage => cmdReadOnePage
  | readPages => cmdReadPages
  | readSects => cmdReadSects
  | aioWrvBytesStr => cmdAioWrvBytesStr
  | writeIo => cmdWriteIo
  | readIo => cmdReadIo

/-- `wrbytesstr`, `wrbyteschar`, `wrsectschar`, `wrsectsstr`, `rdonesect`, `rdbytes`, `rdonepage`, `rdpages`, `rdsects`,
`aiowrbytesstr`, `W` and `R` -/
def ioengineArray : List (List UInt8 × Cmd) :=
  [([119, 114, 98, 121, 116, 101, 115, 115, 116, 114], .wrBytesStr),
    ([119, 114, 98, 121, 116, 101, 115, 99, 104, 97, 114], .wrBytesChar),
    ([119, 114, 115, 101, 99, 116, 115, 99, 104, 97, 114], .wrSectsChar),
    ([119, 114, 115, 101, 99, 116, 115, 115, 116, 114], .wrSectsStr),
    ([114, 100, 111, 110, 101, 115, 101, 99, 116], .readOneSect),
    ([114, 100, 98, 121, 116, 101, 115], .readBytes),
    ([114, 100, 111, 110, 101, 112, 97, 103, 101], .readOnePage),
    ([114, 100, 112, 97, 103, 101, 115], .readPages),
    ([114, 100, 115, 101, 99, 116, 115], .readSects),
    ([97, 105, 111, 119, 114, 98, 121, 116, 101, 115, 115, 116, 114], .aioWrvBytesStr),
    ([87], .writeIo),
    ([82], .readIo)]

/-- The loop over the table. -/
def findEngine (name : List UInt8) : Option Cmd :=
  (ioengineArray.find? fun it => strncasecmp name it.1 it.1.length && decide (name.length = it.1.length)).map (·.2)

def main (fs : Fs) (k : Answers) (argv : List CStr) : Option (Outcome × Fs) :=
  match argv with
  | _ :: _ :: name :: _ =>
    match findEngine name.bytes with
    | none => some (.invalidEngine name.bytes, fs)
    | some cmd => cmd.run fs k argv
  | _ => some (.help, fs)

end CppNotes.Iotool
