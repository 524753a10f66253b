import UnixProgramming.Lib.CString
import UnixProgramming.Lib.Run

/-! The buffered reader of the robust I/O package. A descriptor carries the bytes
still to come and the outcomes its next `read()` calls will have; a call that finds
no outcome left is blocked in `read()`. -/

namespace UnixProgramming.Csapp

open UnixProgramming.Lib

inductive Errno where
  | eintr
  | other
  deriving DecidableEq, Repr

/-- What the kernel does with one `read()`: at most `limit` of the bytes to come, or a failure. -/
inductive ReadOutcome where
  | count (limit : Nat)
  | error (errno : Errno)
  deriving DecidableEq, Repr

structure Descriptor where
  source : List UInt8
  schedule : List ReadOutcome
  /-- All bytes `read()` has returned so far. -/
  obtained : List UInt8
  deriving DecidableEq, Repr

/-- `read(fd, buf, size)`; `none` while it blocks. With a positive limit it returns no
bytes only at the end of the source. -/
def Descriptor.read (fd : Descriptor) (size : Nat) : Option (Except Errno (List UInt8) × Descriptor) :=
  match fd.schedule with
  | [] => none
  | .error errno :: rest => some (.error errno, { fd with schedule := rest })
  | .count limit :: rest =>
    let got := fd.source.take (min limit size)
    some (.ok got,
      { source := fd.source.drop (min limit size), schedule := rest, obtained := fd.obtained ++ got })

theorem Descriptor.read_shorter {fd next : Descriptor} {size : Nat} {result : Except Errno (List UInt8)}
    (taken : fd.read size = some (result, next)) : next.schedule.length < fd.schedule.length := by
  unfold read at taken
  split at taken
  · cases taken
  · next same =>
    cases taken
    simp [same]
  · next same =>
    cases taken
    simp [same]

/-- `RIO_BUFSIZE`. -/
def rioBufsize : Nat := 8192

/-- `rio_t`; `bufptr` is an offset into `buf`. -/
structure Rio where
  fd : Descriptor
  cnt : Int
  bufptr : Nat
  buf : List UInt8
  deriving DecidableEq, Repr

namespace Rio

/-- `rio_readinitb`: the bytes in the buffer stay what they were. -/
def rioReadinitb (rp : Rio) (fd : Descriptor) : Rio := { rp with fd := fd, cnt := 0, bufptr := 0 }

/-- How the refilling loop of `rio_read` ends. -/
inductive Refill where
  | ready
  | returned (value : Int)
  | blocked
  deriving DecidableEq, Repr

/-- `while (rp->rio_cnt <= 0)` of `rio_read`. -/
def refill (rp : Rio) : Refill × Rio :=
  if 0 < rp.cnt then (.ready, rp)
  else
    match taken : rp.fd.read rioBufsize with
    | none => (.blocked, rp)
    | some (.error errno, fd) =>
      if errno ≠ .eintr then (.returned (-1), { rp with fd := fd, cnt := -1 })
      else refill { rp with fd := fd, cnt := -1 }
    | some (.ok got, fd) =>
      let filled : Rio := { rp with fd := fd, cnt := got.length, buf := got ++ rp.buf.drop got.length }
      if filled.cnt = 0 then (.returned 0, filled)
      else refill { filled with bufptr := 0 }
termination_by rp.fd.schedule.length
decreasing_by
  · exact Descriptor.read_shorter taken
  · exact Descriptor.read_shorter taken

/-- `rio_read`: the value returned, or none while blocked, and the bytes copied to
`usrbuf`. The count is compared as a `size_t` and copied as an `int`. -/
def rioRead (rp : Rio) (n : Nat) : Option Int × List UInt8 × Rio :=
  match rp.refill with
  | (.blocked, rp) => (none, [], rp)
  | (.returned value, rp) => (some value, [], rp)
  | (.ready, rp) =>
    let cnt := if rp.cnt % 2 ^ 64 < n then rp.cnt else toInt32 n
    let copied := (rp.buf.drop rp.bufptr).take (cnt % 2 ^ 64).toNat
    (some cnt, copied, { rp with bufptr := (rp.bufptr + cnt).toNat, cnt := rp.cnt - cnt })

/-- What a call has done to `usrbuf` and what it returned, if it has returned. -/
structure Delivery where
  value : Option Int
  data : List UInt8
  /-- A NUL has been stored behind the data. -/
  terminated : Bool
  deriving DecidableEq, Repr

def newline : UInt8 := 10

/-- The loop `for (; n < maxlen; ++n)` of `rio_readlineb`. -/
def readline (maxlen n : Nat) (stored : List UInt8) (rp : Rio) : Delivery × Rio :=
  if n < maxlen then
    match rp.rioRead 1 with
    | (none, _, rp) => (⟨none, stored, false⟩, rp)
    | (some rc, c, rp) =>
      if rc = 1 then
        if c = [newline] then (⟨some n, stored ++ c, true⟩, rp)
        else readline maxlen (n + 1) (stored ++ c) rp
      else if rc = 0 then
        if n = 1 then (⟨some 0, stored, false⟩, rp)
        else (⟨some (n - 1), stored, true⟩, rp)
      else (⟨some (-1), stored, false⟩, rp)
  else (⟨some (n - 1), stored, true⟩, rp)
termination_by maxlen - n

def rioReadlineb (rp : Rio) (maxlen : Nat) : Delivery × Rio := readline maxlen 1 [] rp

/-- Conversion to a 64-bit `ssize_t`. -/
def toSsize (value : Int) : Int := (value + 2 ^ 63) % 2 ^ 64 - 2 ^ 63

/-- The loop `while (nleft > 0)` of `rio_readnb`. `rio_read` returns at most `nleft`, so
the subtraction does not wrap. -/
def readBlock (n nleft : Nat) (stored : List UInt8) (rp : Rio) : Delivery × Rio :=
  if 0 < nleft then
    match rp.rioRead nleft with
    | (none, _, rp) => (⟨none, stored, false⟩, rp)
    | (some nread, copied, rp) =>
      if nread < 0 then (⟨some (-1), stored ++ copied, false⟩, rp)
      else if nread = 0 then (⟨some (toSsize (n - nleft)), stored ++ copied, false⟩, rp)
      else readBlock n (nleft - nread.toNat) (stored ++ copied) rp
  else (⟨some (toSsize (n - nleft)), stored, false⟩, rp)
termination_by nleft
decreasing_by omega

def rioReadnb (rp : Rio) (n : Nat) : Delivery × Rio := readBlock n n [] rp

end Rio
end UnixProgramming.Csapp
