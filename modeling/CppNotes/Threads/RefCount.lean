import CppNotes.Lib.Run
import CppNotes.Lib.Chains

/-!
# Objects with a reference count, in a hash table (`apue.3e/threads/mutex2.c`)

`foo_alloc` makes an object and puts it in the hash table, `foo_find` looks one up, `foo_hold` and `foo_rele` add and
release a reference; the last release takes the object out of the table and frees it.  Two kinds of mutexes: `hashlock`
protects `fh` and the `f_next` fields, the `f_lock` of an object protects its `f_count`.  `foo_rele` finds the count to be 1
under `f_lock`, but needs `hashlock` first in order to take the object out; so it gives `f_lock` back, takes both, and looks
again.

A step is one operation of one thread on a mutex, or on what the mutexes it owns protect; other threads may step between any
two of them.  An assignment that reads and writes (`f_count++`) is one step, as are the two assignments of `foo_alloc` that put
the object on its chain.  What a thread may call is up to the threads, but for the rule that references are for: `foo_hold` and
`foo_rele` are called for an object that the thread has a reference to.  `refs` counts them.  `ub` records an access to an
object that is not allocated.

`f_count` is an `int`.  Here it wraps around; the results are about runs in which it is not counted past `INT_MAX`.
-/

namespace CppNotes.Threads

open CppNotes.Lib

def NHASH : ℕ := 29

/-- `((unsigned long)id)%NHASH` -/
def HASH (id : Int32) : ℕ := id.toInt64.toUInt64.toNat % NHASH

def INT_MAX : ℕ := 2 ^ 31 - 1

structure Foo (T P : Type) where
  fCount : Int32
  fLock : Option T
  fId : Int32
  fNext : Option P

/-- Where a thread is: at the operation that it does next.

* `foo_alloc`: `allocHash` locks `hashlock`, `allocPush` puts the object in front of its chain, `allocLock` locks `f_lock`,
  `allocUnhash` and `allocUnlock` unlock the two;
* `foo_hold`: `hold`, `holdInc` and `holdUnlock`;
* `foo_find`: `find` locks `hashlock`, `findLoop` is the test of the loop, `findHold`, `findInc` and `findUnlock` are the call
  of `foo_hold`, `findUnhash` unlocks `hashlock`;
* `foo_rele`: `rele` locks `f_lock`, `releTest` looks at the count; `releDec` and `releUnlock` if there are other references;
  otherwise `releLast` unlocks `f_lock`, `releHash` and `releRelock` lock both, `releRetest` looks again; `releKeep`,
  `releKeepUnlock` and `releKeepUnhash` if there are others by now; otherwise `releHead` and `releWalk` take the object out of
  its chain, `releUnhash` and `releFreeUnlock` unlock the two, and `releFree` frees the object. -/
inductive Pc (P : Type) where
  | idle
  | allocHash (fp : P) | allocPush (fp : P) | allocLock (fp : P) | allocUnhash (fp : P) | allocUnlock (fp : P)
  | hold (fp : P) | holdInc (fp : P) | holdUnlock (fp : P)
  | find (id : Int32) | findLoop (id : Int32) (fp : Option P) | findHold (fp : P) | findInc (fp : P) | findUnlock (fp : P)
  | findUnhash (fp : Option P)
  | rele (fp : P) | releTest (fp : P) | releDec (fp : P) | releUnlock (fp : P)
  | releLast (fp : P) | releHash (fp : P) | releRelock (fp : P) | releRetest (fp : P)
  | releKeep (fp : P) | releKeepUnlock (fp : P) | releKeepUnhash
  | releHead (fp : P) | releWalk (fp tfp : P) | releUnhash (fp : P) | releFreeUnlock (fp : P) | releFree (fp : P)
  deriving DecidableEq

/-- The memory, the table, the owner of `hashlock`, the places of the threads and the references that each of them has. -/
structure St (T P : Type) where
  heap : P → Option (Foo T P)
  fh : ℕ → Option P
  hashlock : Option T
  pc : T → Pc P
  refs : T → P → ℕ
  ub : Bool

/-- What happens next: a thread steps, or it calls one of the functions; `foo_alloc` with what `malloc` returns. -/
inductive Act (T P : Type) where
  | run (t : T)
  | alloc (t : T) (id : Int32) (fp : P)
  | hold (t : T) (fp : P)
  | find (t : T) (id : Int32)
  | rele (t : T) (fp : P)

section Step

variable {T P : Type} [DecidableEq T] [DecidableEq P]

def St.init : St T P :=
  { heap := fun _ => none, fh := fun _ => none, hashlock := none, pc := fun _ => .idle, refs := fun _ _ => 0, ub := false }

def St.goto (s : St T P) (t : T) (p : Pc P) : St T P := { s with pc := Function.update s.pc t p }

/-- `pthread_mutex_lock(&hashlock)`: possible when it is free. -/
def St.lockHash (s : St T P) (t : T) (p : Pc P) : Option (St T P) :=
  if s.hashlock = none then some { s.goto t p with hashlock := some t } else none

def St.unlockHash (s : St T P) (t : T) (p : Pc P) : St T P := { s.goto t p with hashlock := none }

/-- An access to an object. -/
def St.access (s : St T P) (fp : P) (k : Foo T P → Option (St T P)) : Option (St T P) :=
  match s.heap fp with
  | none => some { s with ub := true }
  | some o => k o

def St.set (s : St T P) (fp : P) (o : Foo T P) : St T P := { s with heap := Function.update s.heap fp (some o) }

/-- `pthread_mutex_lock(&fp->f_lock)` -/
def St.lock (s : St T P) (t : T) (fp : P) (p : Pc P) : Option (St T P) :=
  s.access fp fun o => if o.fLock = none then some ((s.set fp { o with fLock := some t }).goto t p) else none

/-- `pthread_mutex_unlock(&fp->f_lock)` -/
def St.unlock (s : St T P) (t : T) (fp : P) (p : Pc P) : Option (St T P) :=
  s.access fp fun o => some ((s.set fp { o with fLock := none }).goto t p)

/-- A change of `fp->f_count`. -/
def St.count (s : St T P) (t : T) (fp : P) (f : Int32 → Int32) (p : Pc P) : Option (St T P) :=
  s.access fp fun o => some ((s.set fp { o with fCount := f o.fCount }).goto t p)

/-- The thread has the reference that the function returns. -/
def St.gain (s : St T P) (t : T) (fp : P) : St T P :=
  { s with refs := Function.update s.refs t (Function.update (s.refs t) fp (s.refs t fp + 1)) }

/-- The thread gives a reference away. -/
def St.lose (s : St T P) (t : T) (fp : P) : St T P :=
  { s with refs := Function.update s.refs t (Function.update (s.refs t) fp (s.refs t fp - 1)) }

/-- `fp->f_next = fh[idx]; fh[idx] = fp;` -/
def St.push (s : St T P) (t : T) (fp : P) (p : Pc P) : Option (St T P) :=
  s.access fp fun o =>
    some { (s.set fp { o with fNext := s.fh (HASH o.fId) }).goto t p with
      fh := Function.update s.fh (HASH o.fId) (some fp) }

/-- One step of a thread. -/
def threadStep (s : St T P) (t : T) : Option (St T P) :=
  match s.pc t with
  | .idle => none
  | .allocHash fp => s.lockHash t (.allocPush fp)
  | .allocPush fp => s.push t fp (.allocLock fp)
  | .allocLock fp => s.lock t fp (.allocUnhash fp)
  | .allocUnhash fp => some (s.unlockHash t (.allocUnlock fp))
  | .allocUnlock fp => (s.unlock t fp .idle).map (·.gain t fp)
  | .hold fp => s.lock t fp (.holdInc fp)
  | .holdInc fp => s.count t fp (· + 1) (.holdUnlock fp)
  | .holdUnlock fp => (s.unlock t fp .idle).map (·.gain t fp)
  | .find id => s.lockHash t (.findLoop id (s.fh (HASH id)))
  | .findLoop _ none => some (s.goto t (.findUnhash none))
  | .findLoop id (some fp) =>
    s.access fp fun o => some (s.goto t (if o.fId = id then .findHold fp else .findLoop id o.fNext))
  | .findHold fp => s.lock t fp (.findInc fp)
  | .findInc fp => s.count t fp (· + 1) (.findUnlock fp)
  | .findUnlock fp => s.unlock t fp (.findUnhash (some fp))
  | .findUnhash none => some (s.unlockHash t .idle)
  | .findUnhash (some fp) => some ((s.unlockHash t .idle).gain t fp)
  | .rele fp => s.lock t fp (.releTest fp)
  | .releTest fp => s.access fp fun o => some (s.goto t (if o.fCount = 1 then .releLast fp else .releDec fp))
  | .releDec fp => s.count t fp (· - 1) (.releUnlock fp)
  | .releUnlock fp => s.unlock t fp .idle
  | .releLast fp => s.unlock t fp (.releHash fp)
  | .releHash fp => s.lockHash t (.releRelock fp)
  | .releRelock fp => s.lock t fp (.releRetest fp)
  | .releRetest fp => s.access fp fun o => some (s.goto t (if o.fCount ≠ 1 then .releKeep fp else .releHead fp))
  | .releKeep fp => s.count t fp (· - 1) (.releKeepUnlock fp)
  | .releKeepUnlock fp => s.unlock t fp .releKeepUnhash
  | .releKeepUnhash => some (s.unlockHash t .idle)
  | .releHead fp => s.access fp fun o =>
    match s.fh (HASH o.fId) with
    | none => some { s with ub := true }
    | some tfp =>
      if tfp = fp then
        some { s.goto t (.releUnhash fp) with fh := Function.update s.fh (HASH o.fId) o.fNext }
      else some (s.goto t (.releWalk fp tfp))
  | .releWalk fp tfp => s.access tfp fun o' =>
    if o'.fNext = some fp then
      s.access fp fun o => some ((s.set tfp { o' with fNext := o.fNext }).goto t (.releUnhash fp))
    else
      match o'.fNext with
      | none => some { s with ub := true }
      | some q => some (s.goto t (.releWalk fp q))
  | .releUnhash fp => some (s.unlockHash t (.releFreeUnlock fp))
  | .releFreeUnlock fp => s.unlock t fp (.releFree fp)
  -- a mutex that is destroyed must be free
  | .releFree fp => s.access fp fun o =>
    if o.fLock = none then some { s.goto t .idle with heap := Function.update s.heap fp none }
    else some { s with ub := true }

/-- `malloc` returns memory that is not in use; if it or `pthread_mutex_init` fails, nothing happens. -/
def step (s : St T P) : Act T P → Option (St T P)
  | .run t => threadStep s t
  | .alloc t id fp =>
    if s.pc t = .idle ∧ (s.heap fp).isNone then
      some ((s.set fp { fCount := 1, fLock := none, fId := id, fNext := none }).goto t (.allocHash fp))
    else none
  | .hold t fp => if s.pc t = .idle ∧ 0 < s.refs t fp then some (s.goto t (.hold fp)) else none
  | .find t id => if s.pc t = .idle then some (s.goto t (.find id)) else none
  | .rele t fp => if s.pc t = .idle ∧ 0 < s.refs t fp then some ((s.lose t fp).goto t (.rele fp)) else none

end Step

end CppNotes.Threads
