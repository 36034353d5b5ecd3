import CppNotes.Lib.Text
import CppNotes.Lib.Loop
import CppNotes.Lib.Records

/-!
# The database library (`apue.3e/db/db.c`)

A database is two files.  The index file holds ASCII pointers of 7 characters, offsets into itself: the head of the free
list, the heads of the 137 hash chains, and, behind a newline, the index records.  An index record is its chain pointer, the
length of the rest, and the rest: the key, the offset and the length of the data record, separated by colons.  The data file
holds the data records, each of them with a newline at its end.

A `DB` is the structure `DB` with its two files and with what the calls leave behind elsewhere: `errno`, and the calls of
`fcntl` that lock and unlock.  `idxbuf` and `datbuf` are the strings that the buffers hold.  The functions follow the source;
one that ends the process (`err_dump`, `err_quit`) or never returns gives a `Stop`.  System calls do not fail on their own:
`lseek` fails before the start of the file, and `read` is short at its end.
-/

namespace CppNotes.Db

open CppNotes.Lib

def IDXLEN_SZ : ℕ := 4
def SEP : UInt8 := 58
def SPACE : UInt8 := 32
def NEWLINE : UInt8 := 10
def PTR_SZ : ℕ := 7
def PTR_MAX : ℕ := 9999999
def NHASH_DEF : ℕ := 137
def FREE_OFF : ℤ := 0
def HASH_OFF : ℤ := PTR_SZ

def IDXLEN_MIN : ℕ := 6
def IDXLEN_MAX : ℕ := 1024
def DATLEN_MIN : ℕ := 2
def DATLEN_MAX : ℕ := 1024

def DB_INSERT : ℤ := 1
def DB_REPLACE : ℤ := 2
def DB_STORE : ℤ := 3

def ENOENT : ℤ := 2
def EINVAL : ℤ := 22

/-- How a call ends without returning: with `err_dump`, with `err_quit`, or not at all. -/
inductive Stop where
  | dump (msg : String)
  | quit (msg : String) (ptrval : ℤ)
  | spins
  deriving DecidableEq

/-! ## Files -/

inductive Whence where
  | set | cur | fin
  deriving DecidableEq

/-- An open file and its offset. -/
structure Fd where
  bytes : List UInt8
  pos : ℕ
  deriving DecidableEq

def Fd.lseek (fd : Fd) (offset : ℤ) (whence : Whence) (msg : String) : Except Stop Fd :=
  let pos : ℤ := match whence with
    | .set => offset
    | .cur => fd.pos + offset
    | .fin => fd.bytes.length + offset
  if pos < 0 then .error (.dump msg) else .ok { fd with pos := pos.toNat }

def Fd.read (fd : Fd) (n : ℕ) : List UInt8 × Fd :=
  let bs := (fd.bytes.drop fd.pos).take n
  (bs, { fd with pos := fd.pos + bs.length })

def Fd.write (fd : Fd) (bs : List UInt8) : Fd := ⟨splice 0 fd.bytes fd.pos bs, fd.pos + bs.length⟩

inductive FileId where
  | idxfd | datfd
  deriving DecidableEq

inductive LockCmd where
  | readw | writew | un
  deriving DecidableEq

/-- A call of `fcntl`, with the range of bytes it is for; the length 0 reaches to the end of the file. -/
structure LockCall where
  cmd : LockCmd
  fd : FileId
  offset : ℤ
  len : ℕ
  deriving DecidableEq

/-! ## The structure -/

structure Counts where
  delok : ℕ := 0
  delerr : ℕ := 0
  fetchok : ℕ := 0
  fetcherr : ℕ := 0
  nextrec : ℕ := 0
  stor1 : ℕ := 0
  stor2 : ℕ := 0
  stor3 : ℕ := 0
  stor4 : ℕ := 0
  storerr : ℕ := 0
  deriving DecidableEq

structure DB where
  idx : Fd
  dat : Fd
  idxbuf : List UInt8 := []
  datbuf : List UInt8 := []
  idxoff : ℤ := 0
  idxlen : ℕ := 0
  datoff : ℤ := 0
  datlen : ℕ := 0
  ptrval : ℤ := 0
  ptroff : ℤ := 0
  chainoff : ℤ := 0
  hashoff : ℤ := 0
  nhash : ℕ := 0
  cnt : Counts := {}
  errno : ℤ := 0
  locks : List LockCall := []
  deriving DecidableEq

def DB.lock (db : DB) (cmd : LockCmd) (fd : FileId) (offset : ℤ) (len : ℕ) : DB :=
  { db with locks := db.locks ++ [⟨cmd, fd, offset, len⟩] }

/-- Where the index records start: behind the free list pointer, the hash table and the newline. -/
def DB.recoff (db : DB) : ℤ := (db.nhash + 1) * PTR_SZ + 1

/-! ## Strings -/

/-- `atol`, which does not go beyond the ends of `long`. -/
def atol (s : List UInt8) : ℤ := max (-2 ^ 63) (min (number s) (2 ^ 63 - 1))

/-- What stands before and after the first `c`, which `strchr` finds and the caller overwrites with a NUL. -/
def strchr (s : List UInt8) (c : UInt8) : Option (List UInt8 × List UInt8) :=
  if c ∈ s then some (s.takeWhile (· ≠ c), (s.dropWhile (· ≠ c)).tail) else none

/-! ## Reading -/

/-- `hval += c * i`, for a signed `char` and an `int` -/
def hashFrom : ℕ → UInt64 → List UInt8 → UInt64
  | _, hval, [] => hval
  | i, hval, c :: key => hashFrom (i + 1) (hval + (c.toInt8.toInt32 * Int32.ofNat i).toInt64.toUInt64) key

/-- `_db_hash` -/
def hash (nhash : ℕ) (key : List UInt8) : ℕ := (hashFrom 1 0 key).toNat % nhash

/-- `_db_readptr` -/
def readPtr (db : DB) (offset : ℤ) : Except Stop (ℤ × DB) := do
  let idx ← db.idx.lseek offset .set "_db_readptr: lseek error to ptr field"
  let r := idx.read PTR_SZ
  if r.1.length ≠ PTR_SZ then .error (.dump "_db_readptr: read error of ptr field")
  else .ok (atol r.1, { db with idx := r.2 })

/-- The part of `_db_readidx` behind the two calls of `read`: the separators, and the offset and the length of the data. -/
def parseIdx (db : DB) (buf : List UInt8) : Except Stop (ℤ × DB) :=
  if buf.getLast? ≠ some NEWLINE then .error (.dump "_db_readidx: missing newline") else
  match strchr (cstring buf.dropLast) SEP with
  | none => .error (.dump "_db_readidx: missing first separator")
  | some p =>
    match strchr p.2 SEP with
    | none => .error (.dump "_db_readidx: missing second separator")
    | some q =>
      if SEP ∈ q.2 then .error (.dump "_db_readidx: too many separators") else
      if atol q.1 < 0 then .error (.dump "_db_readidx: starting offset < 0") else
      if atol q.2 ≤ 0 ∨ atol q.2 > DATLEN_MAX then .error (.dump "_db_readidx: invalid length") else
      .ok (db.ptrval, { db with idxbuf := p.1, datoff := atol q.1, datlen := (atol q.2).toNat })

/-- `_db_readidx`.  The offset 0 stands for the current one; there the end of the file is no error. -/
def readIdx (db : DB) (offset : ℤ) : Except Stop (ℤ × DB) := do
  let idx ← db.idx.lseek offset (if offset = 0 then .cur else .set) "_db_readidx: lseek error"
  let r := idx.read (PTR_SZ + IDXLEN_SZ)
  let db := { db with idxoff := idx.pos, idx := r.2 }
  if r.1.length ≠ PTR_SZ + IDXLEN_SZ then
    if r.1.length = 0 ∧ offset = 0 then .ok (-1, db) else .error (.dump "_db_readidx: readv error of index record")
  else
    let idxlen := atol (r.1.drop PTR_SZ)
    if idxlen < IDXLEN_MIN ∨ idxlen > IDXLEN_MAX then .error (.dump "_db_readidx: invalid length") else
    let r' := db.idx.read idxlen.toNat
    if r'.1.length ≠ idxlen then .error (.dump "_db_readidx: read error of index record") else
    parseIdx { db with ptrval := atol (r.1.take PTR_SZ), idxlen := idxlen.toNat, idx := r'.2 } r'.1

/-- `_db_readdat` -/
def readDat (db : DB) : Except Stop (List UInt8 × DB) := do
  let dat ← db.dat.lseek db.datoff .set "_db_readdat: lseek error"
  let r := dat.read db.datlen
  if r.1.length ≠ db.datlen then .error (.dump "_db_readdat: read error") else
  if r.1.getLast? ≠ some NEWLINE then .error (.dump "_db_readdat: missing newline") else
  .ok (cstring r.1.dropLast, { db with dat := r.2, datbuf := cstring r.1.dropLast })

/-! ## Searching -/

/-- The loop over a chain, of `_db_find_and_lock` and of `_db_findfree`: `save` is where the pointer stands that led to
`offset`.  The chain of a file can only be longer than the file if it leads back into itself. -/
def walk (found : DB → Bool) : ℕ → ℤ → ℤ → DB → Except Stop (ℤ × ℤ × DB)
  | 0, _, _, _ => .error .spins
  | n + 1, save, offset, db =>
    if offset = 0 then .ok (save, 0, db) else do
      let r ← readIdx db offset
      if found r.2 then .ok (save, offset, r.2) else walk found n offset r.1 r.2

/-- `_db_find_and_lock`: whether the record was found -/
def findAndLock (db : DB) (key : List UInt8) (writelock : Bool) : Except Stop (Bool × DB) := do
  let chainoff := hash db.nhash key * PTR_SZ + db.hashoff
  let db := { db with chainoff := chainoff, ptroff := chainoff }
  let db := db.lock (if writelock then .writew else .readw) .idxfd chainoff 1
  let r ← readPtr db db.ptroff
  let w ← walk (fun db => db.idxbuf = key) (db.idx.bytes.length + 1) db.ptroff r.1 r.2
  .ok (w.2.1 ≠ 0, { w.2.2 with ptroff := w.1 })

/-! ## Writing -/

/-- `_db_writedat` -/
def writeDat (db : DB) (data : List UInt8) (offset : ℤ) (whence : Whence) : Except Stop DB := do
  let db := if whence = .fin then db.lock .writew .datfd 0 0 else db
  let dat ← db.dat.lseek offset whence "_db_writedat: lseek error"
  let db := { db with datoff := dat.pos, datlen := data.length + 1, dat := dat.write (data ++ [NEWLINE]) }
  .ok (if whence = .fin then db.lock .un .datfd 0 0 else db)

/-- `sprintf(db->idxbuf, "%s%c%lld%c%ld\n", ...)` -/
def idxText (key : List UInt8) (datoff datlen : ℕ) : List UInt8 :=
  key ++ SEP :: (decimal datoff ++ SEP :: (decimal datlen ++ [NEWLINE]))

/-- `_db_writeidx` -/
def writeIdx (db : DB) (key : List UInt8) (offset : ℤ) (whence : Whence) (ptrval : ℤ) : Except Stop DB :=
  if ptrval < 0 ∨ ptrval > PTR_MAX then .error (.quit "_db_writeidx: invalid ptr: %d" ptrval) else
  let idxbuf := idxText key db.datoff.toNat db.datlen
  let len := idxbuf.length
  if len < IDXLEN_MIN ∨ len > IDXLEN_MAX then .error (.dump "_db_writeidx: invalid length") else do
  let db := { db with ptrval := ptrval, idxbuf := idxbuf }
  let db := if whence = .fin then db.lock .writew .idxfd db.recoff 0 else db
  let idx ← db.idx.lseek offset whence "_db_writeidx: lseek error"
  let asciiptrlen := padded PTR_SZ ptrval.toNat ++ padded IDXLEN_SZ len
  let db := { db with idxoff := idx.pos, idx := idx.write (asciiptrlen ++ idxbuf) }
  .ok (if whence = .fin then db.lock .un .idxfd db.recoff 0 else db)

/-- `_db_writeptr` -/
def writePtr (db : DB) (offset ptrval : ℤ) : Except Stop DB :=
  if ptrval < 0 ∨ ptrval > PTR_MAX then .error (.quit "_db_writeptr: invalid ptr: %d" ptrval) else do
  let idx ← db.idx.lseek offset .set "_db_writeptr: lseek error to ptr field"
  .ok { db with idx := idx.write (padded PTR_SZ ptrval.toNat) }

/-- `_db_findfree`: whether a free record of these lengths was found; it is then off the free list -/
def findFree (db : DB) (keylen datlen : ℕ) : Except Stop (Bool × DB) := do
  let db := db.lock .writew .idxfd FREE_OFF 1
  let r ← readPtr db FREE_OFF
  let w ← walk (fun db => db.idxbuf.length = keylen ∧ db.datlen = datlen) (db.idx.bytes.length + 1) FREE_OFF r.1 r.2
  if w.2.1 = 0 then .ok (false, w.2.2.lock .un .idxfd FREE_OFF 1)
  else do
    let db ← writePtr w.2.2 w.1 w.2.2.ptrval
    .ok (true, db.lock .un .idxfd FREE_OFF 1)

/-- `_db_dodelete` -/
def doDelete (db : DB) : Except Stop DB := do
  let db := { db with
    datbuf := List.replicate (db.datlen - 1) SPACE
    idxbuf := List.replicate db.idxbuf.length SPACE }
  let db := db.lock .writew .idxfd FREE_OFF 1
  let db ← writeDat db db.datbuf db.datoff .set
  let r ← readPtr db FREE_OFF
  let saveptr := r.2.ptrval
  let db ← writeIdx r.2 r.2.idxbuf r.2.idxoff .set r.1
  let db ← writePtr db FREE_OFF db.idxoff
  let db ← writePtr db db.ptroff saveptr
  .ok (db.lock .un .idxfd FREE_OFF 1)

/-! ## The calls -/

/-- `un_lock(db->idxfd, db->chainoff, SEEK_SET, 1)`, the end of `db_fetch`, `db_delete` and `db_store` -/
def DB.unlockChain (db : DB) : DB := db.lock .un .idxfd db.chainoff 1

/-- `db_fetch` -/
def fetch (db : DB) (key : List UInt8) : Except Stop (Option (List UInt8) × DB) := do
  let r ← findAndLock db key false
  if r.1 then do
    let d ← readDat r.2
    .ok (some d.1, { d.2 with cnt.fetchok := d.2.cnt.fetchok + 1 }.unlockChain)
  else .ok (none, { r.2 with cnt.fetcherr := r.2.cnt.fetcherr + 1 }.unlockChain)

/-- `db_delete` -/
def delete (db : DB) (key : List UInt8) : Except Stop (ℤ × DB) := do
  let r ← findAndLock db key true
  if r.1 then do
    let db ← doDelete r.2
    .ok (0, { db with cnt.delok := db.cnt.delok + 1 }.unlockChain)
  else .ok (-1, { r.2 with cnt.delerr := r.2.cnt.delerr + 1 }.unlockChain)

/-- A new record is added at the ends of the files and becomes the first of the chain. -/
def append (db : DB) (key data : List UInt8) (ptrval : ℤ) : Except Stop DB := do
  let db ← writeDat db data 0 .fin
  let db ← writeIdx db key 0 .fin ptrval
  writePtr db db.chainoff db.idxoff

/-- `db_store` behind a search that did not find the key -/
def storeAbsent (db : DB) (key data : List UInt8) (flag : ℤ) : Except Stop (ℤ × DB) :=
  if flag = DB_REPLACE then .ok (-1, { db with cnt.storerr := db.cnt.storerr + 1, errno := ENOENT }) else do
  let r ← readPtr db db.chainoff
  let f ← findFree r.2 key.length (data.length + 1)
  if f.1 = false then do
    let db ← append f.2 key data r.1
    .ok (0, { db with cnt.stor1 := db.cnt.stor1 + 1 })
  else do
    let db ← writeDat f.2 data f.2.datoff .set
    let db ← writeIdx db key db.idxoff .set r.1
    let db ← writePtr db db.chainoff db.idxoff
    .ok (0, { db with cnt.stor2 := db.cnt.stor2 + 1 })

/-- `db_store` behind a search that found the key -/
def storePresent (db : DB) (key data : List UInt8) (flag : ℤ) : Except Stop (ℤ × DB) :=
  if flag = DB_INSERT then .ok (1, { db with cnt.storerr := db.cnt.storerr + 1 }) else
  if data.length + 1 ≠ db.datlen then do
    let db ← doDelete db
    let r ← readPtr db db.chainoff
    let db ← append r.2 key data r.1
    .ok (0, { db with cnt.stor3 := db.cnt.stor3 + 1 })
  else do
    let db ← writeDat db data db.datoff .set
    .ok (0, { db with cnt.stor4 := db.cnt.stor4 + 1 })

/-- `db_store` -/
def store (db : DB) (key data : List UInt8) (flag : ℤ) : Except Stop (ℤ × DB) :=
  if flag ≠ DB_INSERT ∧ flag ≠ DB_REPLACE ∧ flag ≠ DB_STORE then .ok (-1, { db with errno := EINVAL }) else
  if data.length + 1 < DATLEN_MIN ∨ data.length + 1 > DATLEN_MAX then .error (.dump "db_store: invalid data length")
  else do
    let r ← findAndLock db key true
    let s ← if r.1 = false then storeAbsent r.2 key data flag else storePresent r.2 key data flag
    .ok (s.1, s.2.unlockChain)

/-- `db_rewind` -/
def rewind (db : DB) : Except Stop DB := do
  let idx ← db.idx.lseek db.recoff .set "db_rewind: lseek error"
  .ok { db with idxoff := idx.pos, idx := idx }

/-- The loop of `db_nextrec`: whether a record was read whose key is not blank -/
def nextNonblank : ℕ → DB → Except Stop (Bool × DB)
  | 0, _ => .error .spins
  | n + 1, db => do
    let r ← readIdx db 0
    if r.1 < 0 then .ok (false, r.2)
    else if r.2.idxbuf.all (· = SPACE) then nextNonblank n r.2
    else .ok (true, r.2)

/-- `db_nextrec`, with the key it stores -/
def nextRec (db : DB) : Except Stop (Option (List UInt8 × List UInt8) × DB) := do
  let db := db.lock .readw .idxfd FREE_OFF 1
  let r ← nextNonblank (db.idx.bytes.length + 1) db
  if r.1 then do
    let d ← readDat r.2
    .ok (some (r.2.idxbuf, d.1), { d.2 with cnt.nextrec := d.2.cnt.nextrec + 1 }.lock .un .idxfd FREE_OFF 1)
  else .ok (none, r.2.lock .un .idxfd FREE_OFF 1)

/-- `db_open`, with the bytes of the two files if they exist -/
def dbOpen (creat trunc : Bool) (files : Option (List UInt8 × List UInt8)) : Except Stop (Option DB) :=
  match files with
  | none => if creat then opened creat trunc [] [] else .ok none
  | some f => if trunc then opened creat trunc [] [] else opened creat trunc f.1 f.2
where
  opened (creat trunc : Bool) (idx dat : List UInt8) : Except Stop (Option DB) := do
    let db : DB := { idx := ⟨idx, 0⟩, dat := ⟨dat, 0⟩, nhash := NHASH_DEF, hashoff := HASH_OFF }
    let db := if creat && trunc then
        let db := db.lock .writew .idxfd 0 0
        let db := if idx.length = 0 then
            { db with idx := db.idx.write ((List.replicate (NHASH_DEF + 1) (padded PTR_SZ 0)).flatten ++ [NEWLINE]) }
          else db
        db.lock .un .idxfd 0 0
      else db
    let db ← rewind db
    .ok (some db)

end CppNotes.Db
