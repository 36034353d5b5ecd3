import CppNotes.Lib.Text
import CppNotes.Iotool.BlockIo
import CppNotes.Iotool.Calls

/-!
# Opening the file and checking the arguments (`iotool_cpp/iotool.c`)

`do_open` takes the open flags from the first entry of its table of which the long or the short name begins its argument,
whatever follows; `CheckArgs` has a test of its own for direct I/O, which compares whole words.

`CheckArgs` reads the arguments of `W` and `R`.  `getopt` is `getopt_long_only` as it is documented, for the two long
options that are declared: an option starts with one or two dashes and may be abbreviated, its argument follows behind
`=` or as the next argument, `--` ends the options, and all other arguments are moved behind them.  `strtoull` and
`strtoll` are those of C, to base 10; `errno` is passed on from call to call.

Strings are lists of bytes in ASCII.
-/

namespace CppNotes.Iotool

open CppNotes.Lib

/-! ## Opening -/

/-- `strncasecmp(a, b, n) == 0` -/
def strncasecmp : List UInt8 → List UInt8 → ℕ → Bool
  | _, _, 0 => true
  | [], [], _ + 1 => true
  | x :: xs, y :: ys, n + 1 => decide (toLower x = toLower y) && strncasecmp xs ys n
  | [], _ :: _, _ + 1 | _ :: _, [], _ + 1 => false

/-- `strcasecmp(a, b) == 0` -/
def strcasecmp (a b : List UInt8) : Bool := decide (a.map toLower = b.map toLower)

def O_RDWR : UInt32 := 0x2
def O_CREAT : UInt32 := 0x40
def O_DSYNC : UInt32 := 0x1000
def O_DIRECT : UInt32 := 0x4000
def O_SYNC : UInt32 := 0x101000

structure OpenFlagItem where
  cmdOpt : List UInt8
  cmdOptShort : List UInt8
  flags : UInt32

/-- `direct`, or `d` -/
def directItem : OpenFlagItem := ⟨[100, 105, 114, 101, 99, 116], [100], O_RDWR ||| O_DIRECT ||| O_CREAT⟩

/-- `sync`, or `s` -/
def syncItem : OpenFlagItem := ⟨[115, 121, 110, 99], [115], O_RDWR ||| O_SYNC ||| O_CREAT ||| O_DSYNC⟩

/-- `buffer`, or `b` -/
def bufferItem : OpenFlagItem := ⟨[98, 117, 102, 102, 101, 114], [98], O_RDWR ||| O_CREAT⟩

def openFlagArray : List OpenFlagItem := [directItem, syncItem, bufferItem]

def OpenFlagItem.names (it : OpenFlagItem) (cmdOpt : List UInt8) : Bool :=
  strncasecmp cmdOpt it.cmdOpt it.cmdOpt.length || strncasecmp cmdOpt it.cmdOptShort it.cmdOptShort.length

/-- What `do_open` prints when it fails. -/
inductive OpenError where
  | noFlags (cmdOpt : List UInt8)
  | noDirect
  | failed (fileName : List UInt8) (flags : UInt32)
  deriving DecidableEq

/-- The flags of `do_open`; 0 if there are none. -/
def openFlags (cmdOpt : List UInt8) : UInt32 := ((openFlagArray.find? (·.names cmdOpt)).map (·.flags)).getD 0

def EINVAL : ℤ := 22

/-- What `do_open` does: the flags of its call of `open`, what it returns and what it prints. -/
structure Opened where
  flags : Option UInt32
  ret : ℤ
  error : Option OpenError
  deriving DecidableEq

/-- `do_open`, with the answer of `open` and `errno` after it. -/
def doOpen (cmdOpt fileName : List UInt8) (ret errno : ℤ) : Opened :=
  let flags := openFlags cmdOpt
  if flags = 0 then ⟨none, -1, some (.noFlags cmdOpt)⟩
  else
    ⟨some flags, ret,
      if ret < 0 then
        if errno = EINVAL ∧ openFlagArray.findIdx (·.names cmdOpt) = 0 then some .noDirect
        else some (.failed fileName flags)
      else none⟩

/-! ## Numbers -/

/-- The result of a conversion: the value, whether it was out of range (`errno` is then `ERANGE`), and whether there was
no number (`endptr == value`). -/
structure Conv (α : Type) where
  val : α
  erange : Bool
  empty : Bool

def strtoull (value : List UInt8) : Conv UInt64 :=
  let (neg, ds) := scanNumber value
  let v := decimalValue ds
  if 2 ^ 64 ≤ v then ⟨.ofNat (2 ^ 64 - 1), true, ds.isEmpty⟩
  else ⟨if neg then -.ofNat v else .ofNat v, false, ds.isEmpty⟩

def strtoll (value : List UInt8) : Conv Int64 :=
  let (neg, ds) := scanNumber value
  let v := decimalValue ds
  if neg then
    if 2 ^ 63 < v then ⟨Int64.minValue, true, ds.isEmpty⟩ else ⟨-.ofNat v, false, ds.isEmpty⟩
  else if 2 ^ 63 ≤ v then ⟨Int64.maxValue, true, ds.isEmpty⟩
  else ⟨.ofNat v, false, ds.isEmpty⟩

def ERANGE : ℤ := 34

/-- Why `CheckArgs` returns 1. -/
inductive Refusal where
  | wrongArgument
  | bsTooBig
  | bsUnaligned
  | notEnough
  | inputTooLong (bs : UInt64)
  deriving DecidableEq

inductive Failure where
  | refused (why : Refusal)
  | aborted
  deriving DecidableEq

/-- The value, with `errno` after it. -/
def mystrtoull (errno : ℤ) (value : List UInt8) : Except Failure (UInt64 × ℤ) :=
  let c := strtoull value
  let errno := if c.erange then ERANGE else errno
  if (errno = ERANGE ∧ (c.val = .ofNat (2 ^ 64 - 1) ∨ c.val = .ofNat (2 ^ 63))) ∨ (errno ≠ 0 ∧ c.val = 0) ∨
      c.empty = true then .error .aborted
  else .ok (c.val, errno)

def mystrtoll (errno : ℤ) (value : List UInt8) : Except Failure (Int64 × ℤ) :=
  let c := strtoll value
  let errno := if c.erange then ERANGE else errno
  if (errno = ERANGE ∧ (c.val = Int64.maxValue ∨ c.val = Int64.minValue)) ∨ (errno ≠ 0 ∧ c.val = 0) ∨
      c.empty = true then .error .aborted
  else .ok (c.val, errno)

/-! ## Options -/

/-- What `getopt_long_only` returns: `'b'` with `optarg`, `'h'` or `'?'`. -/
inductive Opt where
  | bs (optarg : List UInt8)
  | help
  | unknown
  deriving DecidableEq

/-- What an argument is: no option, `--`, or an option, with what stands behind `=`. -/
inductive Word where
  | operand
  | stop
  | bs (value : Option (List UInt8))
  | help
  | unknown
  deriving DecidableEq

/-- The option of a name and what stands behind `=`; a name may be abbreviated to its start. -/
def longOption (name : List UInt8) (value : Option (List UInt8)) : Word :=
  if name = [98] ∨ name = [98, 115] then .bs value
  else if name = [104] ∨ name = [104, 101] ∨ name = [104, 101, 108] ∨ name = [104, 101, 108, 112] then
    if value = none then .help else .unknown
  else .unknown

def word (arg : List UInt8) : Word :=
  match arg with
  | [45, 45] => .stop
  | 45 :: c :: cs =>
    let opt := if c = 45 then cs else c :: cs
    let name := opt.takeWhile (· ≠ 61)
    longOption name (if name.length < opt.length then some (opt.drop (name.length + 1)) else none)
  | _ => .operand

/-- `getopt_long_only` called until it returns -1: what it returns, and the arguments from `optind` on. -/
def getopt : List (List UInt8) → List Opt × List (List UInt8)
  | [] => ([], [])
  | [arg] =>
    match word arg with
    | .operand => ([], [arg])
    | .stop => ([], [])
    | .bs (some v) => ([.bs v], [])
    | .bs none | .unknown => ([.unknown], [])
    | .help => ([.help], [])
  | arg :: next :: args =>
    match word arg with
    | .operand => ((getopt (next :: args)).1, arg :: (getopt (next :: args)).2)
    | .stop => ([], next :: args)
    | .bs (some v) => (.bs v :: (getopt (next :: args)).1, (getopt (next :: args)).2)
    | .bs none => (.bs next :: (getopt args).1, (getopt args).2)
    | .help => (.help :: (getopt (next :: args)).1, (getopt (next :: args)).2)
    | .unknown => (.unknown :: (getopt (next :: args)).1, (getopt (next :: args)).2)

/-! ## `CheckArgs` -/

def BLOCK_SIZE_MAX : UInt64 := 64 * 1024 * 1024
def MAX_STR_IN_SIZE : ℕ := 64

/-- `strncpy(dst, src, n)` into an array of `n` bytes. -/
def strncpy (src : List UInt8) (n : ℕ) : List UInt8 := src.take n ++ List.replicate (n - src.length) 0

/-- `Args_t`, with the arrays as `CheckArgs` leaves them. -/
structure RawArgs where
  bs : UInt64
  offset : Int64
  counts : UInt64
  devPath : List UInt8
  inp : List UInt8
  deriving DecidableEq

/-- The test of `CheckArgs` for direct I/O. -/
def isDirect (cmdOpt : List UInt8) : Bool := strcasecmp cmdOpt [100] || strcasecmp cmdOpt [100, 105, 114, 101, 99, 116]

/-- The loop over the options, with the block size so far and `errno`. -/
def readOpts (direct : Bool) : List Opt → UInt64 → ℤ → Except Failure (UInt64 × ℤ)
  | [], bs, errno => .ok (bs, errno)
  | .bs optarg :: opts, _, errno => do
    let (bs, errno) ← mystrtoull errno optarg
    if bs > BLOCK_SIZE_MAX then .error (.refused .bsTooBig)
    else if bs % 512 ≠ 0 ∧ direct = true then .error (.refused .bsUnaligned)
    else readOpts direct opts bs errno
  | .help :: opts, bs, errno | .unknown :: opts, bs, errno => readOpts direct opts bs errno

/-- What follows the options: the offset, the count and the input; arguments behind them are ignored. -/
def readOperands (bs : UInt64) (errno : ℤ) (devPath : List UInt8) : List (List UInt8) → Except Failure RawArgs
  | offset :: counts :: inp :: _ => do
    let (offset, errno) ← mystrtoll errno offset
    let (counts, _) ← mystrtoull errno counts
    -- the length is tested before the input is copied: the array is still zero
    let zeroed : List UInt8 := List.replicate MAX_STR_IN_SIZE 0
    if (zeroed.takeWhile (· ≠ 0)).length > MAX_STR_IN_SIZE then .error (.refused (.inputTooLong bs))
    else .ok ⟨bs, offset, counts, strncpy devPath 64, strncpy inp MAX_STR_IN_SIZE⟩
  | _ => .error (.refused .notEnough)

/-- `CheckArgs(argc, argv, args, 3)` -/
def checkArgs (errno : ℤ) : List (List UInt8) → Except Failure RawArgs
  | _ :: cmdOpt :: _ :: devPath :: args@(_ :: _) => do
    let (bs, errno) ← readOpts (isDirect cmdOpt) (getopt args).1 SECTOR_SIZE errno
    readOperands bs errno devPath (getopt args).2
  | _ => .error (.refused .wrongArgument)

/-! ## What is accepted -/

theorem readOpts_ok {direct : Bool} {opts : List Opt} {bs bs' : UInt64} {errno errno' : ℤ}
    (h : readOpts direct opts bs errno = .ok (bs', errno')) (hmax : bs ≤ BLOCK_SIZE_MAX)
    (halign : direct = true → bs % 512 = 0) : bs' ≤ BLOCK_SIZE_MAX ∧ (direct = true → bs' % 512 = 0) := by
  induction opts generalizing bs errno with
  | nil =>
    simp only [readOpts, Except.ok.injEq, Prod.mk.injEq] at h
    exact h.1 ▸ ⟨hmax, halign⟩
  | cons o opts ih =>
    cases o with
    | bs optarg =>
      obtain ⟨⟨b, e⟩, -, h⟩ := bind_eq_ok.mp h
      simp only at h
      split_ifs at h with hbig hodd
      refine ih h (by simpa using hbig) fun hd => ?_
      simpa [hd] using hodd
    | help => exact ih h hmax halign
    | unknown => exact ih h hmax halign

theorem readOperands_ok {bs : UInt64} {errno : ℤ} {devPath : List UInt8} {args : List (List UInt8)} {c : RawArgs}
    (h : readOperands bs errno devPath args = .ok c) :
    c.bs = bs ∧ c.devPath = strncpy devPath 64 ∧ c.inp = strncpy (args.getD 2 []) MAX_STR_IN_SIZE := by
  match args, h with
  | offset :: counts :: inp :: _, h =>
    obtain ⟨⟨o, e⟩, -, h⟩ := bind_eq_ok.mp h
    obtain ⟨⟨n, e'⟩, -, h⟩ := bind_eq_ok.mp h
    simp only at h
    split_ifs at h
    rw [Except.ok.injEq] at h
    exact h ▸ ⟨rfl, rfl, rfl⟩

/-- An accepted block size is within its bound, and a multiple of 512 where the run is taken to be direct. -/
theorem checkArgs_ok {errno : ℤ} {prog cmdOpt engine devPath : List UInt8} {args : List (List UInt8)} {c : RawArgs}
    (h : checkArgs errno (prog :: cmdOpt :: engine :: devPath :: args) = .ok c) :
    c.bs ≤ BLOCK_SIZE_MAX ∧ (isDirect cmdOpt = true → c.bs % 512 = 0) := by
  match args, h with
  | arg :: args, h =>
    obtain ⟨⟨bs, e⟩, hopts, h⟩ := bind_eq_ok.mp h
    rw [(readOperands_ok h).1]
    exact readOpts_ok hopts (by decide) fun _ => by decide

theorem checkArgs_bs_le {errno : ℤ} {argv : List (List UInt8)} {c : RawArgs} (h : checkArgs errno argv = .ok c) :
    c.bs ≤ BLOCK_SIZE_MAX := by
  match argv, h with
  | prog :: cmdOpt :: engine :: devPath :: args, h => exact (checkArgs_ok h).1

/-! ## Direct I/O -/

/-- Where the run is direct, no block size is accepted that is not a multiple of 512. -/
def TreatsDirect (cmdOpt : List UInt8) : Prop :=
  ∀ (errno : ℤ) (prog engine devPath : List UInt8) (args : List (List UInt8)) (c : RawArgs),
    checkArgs errno (prog :: cmdOpt :: engine :: devPath :: args) = .ok c → c.bs % 512 = 0

def OpensDirect (cmdOpt : List UInt8) : Prop :=
  ∀ (fileName : List UInt8) (ret errno : ℤ), ∃ flags ∈ (doOpen cmdOpt fileName ret errno).flags, flags &&& O_DIRECT ≠ 0

/-- `-bs 1 0 0 A` -/
def oneByteBlocks : List (List UInt8) := [[45, 98, 115], [49], [48], [48], [65]]

theorem treatsDirect_iff {cmdOpt : List UInt8} : TreatsDirect cmdOpt ↔ isDirect cmdOpt = true := by
  refine ⟨fun h => ?_, fun hd errno prog engine devPath args c hc => (checkArgs_ok hc).2 hd⟩
  by_contra hd
  have hc : checkArgs 0 ([] :: cmdOpt :: [] :: [] :: oneByteBlocks) = .ok ⟨1, 0, 0, strncpy [] 64, strncpy [65] 64⟩ := by
    simp only [checkArgs, oneByteBlocks, Bool.eq_false_of_not_eq_true hd]
    rfl
  exact absurd (h _ _ _ _ _ _ hc) (by decide)

theorem toLower_eq_d (c : UInt8) : toLower c = 100 ↔ c = 100 ∨ c = 68 := by
  unfold toLower
  split_ifs with h
  · grind
  · grind

/-- The short name decides: the long one begins with it. -/
theorem names_direct (s : List UInt8) : directItem.names s = true ↔ s.head? = some 100 ∨ s.head? = some 68 := by
  cases s with
  | nil => simp [OpenFlagItem.names, directItem, strncasecmp]
  | cons x xs =>
    have hd : toLower 100 = 100 := rfl
    simp only [OpenFlagItem.names, directItem, List.length_cons, List.length_nil, strncasecmp, hd]
    simp only [Bool.and_true, Bool.or_eq_true, Bool.and_eq_true, decide_eq_true_eq, toLower_eq_d, List.head?_cons,
      Option.some.injEq]
    exact or_iff_right_of_imp And.left

theorem openFlags_direct_iff (s : List UInt8) :
    openFlags s &&& O_DIRECT ≠ 0 ↔ s.head? = some 100 ∨ s.head? = some 68 := by
  rw [← names_direct, openFlags, openFlagArray]
  cases hd : directItem.names s with
  | true => simp [hd]; decide
  | false => cases hs : syncItem.names s <;> cases hb : bufferItem.names s <;> simp [hd, hs, hb] <;> decide

/-- `do_open` opens for direct I/O whatever begins with `d`. -/
theorem opensDirect_iff (s : List UInt8) : OpensDirect s ↔ s.head? = some 100 ∨ s.head? = some 68 := by
  rw [← openFlags_direct_iff]
  constructor
  · intro h
    obtain ⟨flags, hflags, hd⟩ := h [] 0 0
    by_cases h0 : openFlags s = 0
    · simp [doOpen, h0] at hflags
    · rw [show openFlags s = flags by simpa [doOpen, h0] using hflags]
      exact hd
  · intro h fileName ret errno
    have h0 : openFlags s ≠ 0 := fun h0 => h (by rw [h0]; decide)
    exact ⟨openFlags s, by simp [doOpen, h0], h⟩

theorem head_of_isDirect {s : List UInt8} (h : isDirect s = true) : s.head? = some 100 ∨ s.head? = some 68 := by
  cases s with
  | nil => simp [isDirect, strcasecmp] at h
  | cons x xs =>
    have hd : toLower 100 = 100 := rfl
    simp only [isDirect, strcasecmp, List.map_cons, hd, Bool.or_eq_true, decide_eq_true_eq, List.cons.injEq] at h
    have hx : toLower x = 100 := h.elim And.left And.left
    simpa [toLower_eq_d] using hx

/-- **Where `CheckArgs` and `do_open` agree on direct I/O**: on all words but those that begin with `d` and are neither
`d` nor `direct`. -/
theorem direct_agrees_iff (s : List UInt8) :
    (TreatsDirect s ↔ OpensDirect s) ↔
      (s.head? ≠ some 100 ∧ s.head? ≠ some 68) ∨ s.map toLower = [100] ∨
        s.map toLower = [100, 105, 114, 101, 99, 116] := by
  have hdir : isDirect s = true ↔ s.map toLower = [100] ∨ s.map toLower = [100, 105, 114, 101, 99, 116] := by
    simp only [isDirect, strcasecmp, Bool.or_eq_true, decide_eq_true_eq]
    rfl
  have himp : isDirect s = true → s.head? = some 100 ∨ s.head? = some 68 := head_of_isDirect
  rw [treatsDirect_iff, opensDirect_iff, ← hdir, ← not_or]
  tauto

/-- `dsync` is opened for direct I/O, and `CheckArgs` lets a block size of one byte pass. -/
theorem dsync_opened_direct :
    ¬ ∀ s : List UInt8, (∀ fileName ret errno, (doOpen s fileName ret errno).flags ≠ none) →
      (TreatsDirect s ↔ OpensDirect s) := by
  intro h
  have hs := h [100, 115, 121, 110, 99] fun fileName ret errno => by
    have h0 : openFlags [100, 115, 121, 110, 99] ≠ 0 := by decide
    simp [doOpen, h0]
  rw [treatsDirect_iff, opensDirect_iff] at hs
  revert hs
  decide

/-! ## Whole blocks -/

/-- The arguments as `WriteIO` and `ReadIO` read them.  `strncpy` need not have ended the strings with a NUL: they are
read up to the first one behind, in the next field or in what follows the structure in memory. -/
structure RawArgs.ReadAs (c : RawArgs) (a : Args) : Prop where
  bs : a.bs = c.bs
  offset : a.offset = c.offset
  counts : a.counts = c.counts
  strings : ∃ after : List UInt8, 0 ∈ c.inp ++ after ∧ a.inp.bytes = (c.inp ++ after).takeWhile (· ≠ 0) ∧
    a.devPath.bytes = (c.devPath ++ c.inp ++ after).takeWhile (· ≠ 0)

/-- That reading, with what follows the structure in memory up to a NUL. -/
def RawArgs.args (c : RawArgs) (after : List UInt8) : Option Args :=
  if h : 0 ∈ c.inp ++ after ∧ (c.devPath ++ c.inp ++ after).length < 2 ^ 63 then
    some ⟨c.bs, c.offset, c.counts,
      ⟨cstring (c.devPath ++ c.inp ++ after), nul_not_mem_cstring _, (length_cstring_le _).trans_lt h.2⟩,
      ⟨cstring (c.inp ++ after), nul_not_mem_cstring _,
        (length_cstring_le _).trans_lt ((by simp : _ ≤ _).trans_lt h.2)⟩⟩
  else none

theorem RawArgs.readAs_of_args {c : RawArgs} {after : List UInt8} {a : Args} (h : c.args after = some a) : c.ReadAs a := by
  unfold RawArgs.args at h
  split at h
  · rename_i hend
    obtain rfl := Option.some.inj h
    exact ⟨rfl, rfl, rfl, after, hend.1, rfl, rfl⟩
  · simp at h

/-- Neither function divides by zero, and both plan `counts` blocks and no rest. -/
def PlansExactly (a : Args) : Prop :=
  (∀ engine errno mem rs f, (writeIo engine a errno mem rs f).1 ≠ .sigfpe ∧ (readIo engine a errno mem rs f).1 ≠ .sigfpe) ∧
    a.dataLen / a.bs = a.counts ∧ a.dataLen % a.bs = 0

theorem writeLoop_ne_sigfpe (a : Args) (data : Mem) (rs : List Int64) (i : Int32) (offset : UInt64) (s : Sys) :
    (writeLoop a data rs i offset s).1 ≠ .sigfpe := by
  fun_induction writeLoop a data rs i offset s with
  | case1 | case2 => simp
  | case3 => assumption
  | case4 => fun_cases writeTail <;> simp

theorem readLoop_ne_sigfpe (a : Args) (data : Mem) (rs : List Int64) (i : Int32) (s : Sys) :
    (readLoop a data rs i s).1 ≠ .sigfpe := by
  fun_induction readLoop a data rs i s with
  | case1 | case2 => simp
  | case3 => assumption
  | case4 => fun_cases readTail <;> simp

theorem withBlock_ne_sigfpe {d : Dir} {engine : CStr} {a : Args} {errno : Option ℕ} {mem : Option Mem} {f : File}
    {body : Mem → Sys → Exit × Sys} (h : ∀ heap s, (body heap s).1 ≠ .sigfpe) :
    (withBlock d engine a errno mem f body).1 ≠ .sigfpe := by
  fun_cases withBlock
  case case3 => exact h _ _
  all_goals simp

/-- Only the division of `data_len` by the block size can fail. -/
theorem no_sigfpe_iff {a : Args} :
    (∀ engine errno mem rs f, (writeIo engine a errno mem rs f).1 ≠ .sigfpe ∧
      (readIo engine a errno mem rs f).1 ≠ .sigfpe) ↔ a.bs ≠ 0 := by
  constructor
  · intro h hbs
    exact (h ⟨[], by simp, by simp⟩ none (some fun _ => 0) [] .empty).2 (by simp [readIo, withBlock, hbs])
  · intro hbs engine errno mem rs f
    constructor
    · refine withBlock_ne_sigfpe fun heap s => ?_
      split
      · simp
      · rw [if_neg hbs]
        exact writeLoop_ne_sigfpe _ _ _ _ _ _
    · refine withBlock_ne_sigfpe fun heap s => ?_
      rw [if_neg hbs]
      exact readLoop_ne_sigfpe _ _ _ _ _

/-- The division takes the multiplication back exactly if that did not overflow. -/
theorem dataLen_div_iff {a : Args} (hbs : a.bs ≠ 0) :
    (a.dataLen / a.bs = a.counts ∧ a.dataLen % a.bs = 0) ↔ a.bs.toNat * a.counts.toNat < 2 ^ 64 := by
  have hpos := toNat_pos_of_ne hbs
  have hlen : a.dataLen.toNat = a.bs.toNat * a.counts.toNat % 2 ^ 64 := UInt64.toNat_mul _ _
  rw [← UInt64.toNat_inj, ← UInt64.toNat_inj, UInt64.toNat_div, UInt64.toNat_mod]
  constructor
  · rintro ⟨hdiv, hmod⟩
    have hmul : a.dataLen.toNat = a.bs.toNat * a.counts.toNat := by
      rw [← Nat.div_add_mod a.dataLen.toNat a.bs.toNat, hdiv, hmod]
      rfl
    exact hmul ▸ a.dataLen.toNat_lt
  · intro h
    rw [hlen, Nat.mod_eq_of_lt h]
    exact ⟨Nat.mul_div_cancel_left _ hpos, Nat.mul_mod_right _ _⟩

/-- **When an accepted command transfers whole blocks only.**  The block size that `CheckArgs` lets pass is bounded, but it
may be 0, and nothing bounds its product with the count. -/
theorem accepted_plans_iff {errno : ℤ} {argv : List (List UInt8)} {c : RawArgs} {a : Args}
    (h : checkArgs errno argv = .ok c) (ha : c.ReadAs a) :
    c.bs ≤ BLOCK_SIZE_MAX ∧ (PlansExactly a ↔ c.bs ≠ 0 ∧ c.bs.toNat * c.counts.toNat < 2 ^ 64) := by
  refine ⟨checkArgs_bs_le h, ?_⟩
  rw [PlansExactly, no_sigfpe_iff, ← ha.bs, ← ha.counts]
  exact and_congr_right dataLen_div_iff

/-- One block from the start of the file `A`, with the input `A`. -/
def oneBlock (bs : UInt64) : Args := ⟨bs, 0, 1, letterA, letterA⟩

theorem readAs_oneBlock (bs : UInt64) : RawArgs.ReadAs ⟨bs, 0, 1, strncpy [65] 64, strncpy [65] 64⟩ (oneBlock bs) :=
  ⟨rfl, rfl, rfl, [], by simp [strncpy], rfl, rfl⟩

/-- `iotool b R A 0 1 A` -/
theorem one_sector_plans : PlansExactly (oneBlock 512) :=
  have h : checkArgs 0 [[], [98], [82], [65], [48], [49], [65]] =
      .ok ⟨512, 0, 1, strncpy [65] 64, strncpy [65] 64⟩ := by decide
  (accepted_plans_iff h (readAs_oneBlock 512)).2.mpr (by decide)

/-- `iotool b R A -bs 0 0 1 A` is accepted. -/
theorem zero_bs_accepted :
    ¬ ∀ (errno : ℤ) (argv : List (List UInt8)) (c : RawArgs) (a : Args), checkArgs errno argv = .ok c → c.ReadAs a →
      PlansExactly a := by
  intro h
  have hc : checkArgs 0 [[], [98], [82], [65], [45, 98, 115], [48], [48], [49], [65]] =
      .ok ⟨0, 0, 1, strncpy [65] 64, strncpy [65] 64⟩ := by decide
  exact no_sigfpe_iff.mp (h _ _ _ _ hc (readAs_oneBlock 0)).1 rfl

end CppNotes.Iotool
