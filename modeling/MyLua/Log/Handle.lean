import MyLua.Foundation.CString
import MyLua.Foundation.Runs

/-!
# Log Handles (`log/log.cpp`)

A log handle collects messages in a buffer and writes them with POSIX asynchronous I/O. There is
one request per handle, `m_acb`, and `llog` asks it how it stands every time it is called: while
the request runs, messages are added behind the bytes in flight; once it is done, the bytes that
were written are removed from the buffer and the rest is submitted again.

The model has the handle, the request and the file. `llog` is one step; in between, the request
completes with some number of bytes, or fails.

## Main results

- `llog_effect`: what `llog` does to a sound handle; it never copies outside the buffer.
- `sound_step`: every step keeps a handle sound.
- `sound_lopen`: a new handle is sound.
- `sound_run`: every handle that `lopen` and steps lead to is sound.
-/

namespace MyLua.Log

open MyLua.Foundation

/-! ## §1 Asynchronous writes -/

def O_RDWR : BitVec 32 := 0x2
def O_CREAT : BitVec 32 := 0x40
def O_EXCL : BitVec 32 := 0x80
def O_APPEND : BitVec 32 := 0x400

def EINPROGRESS : Int := 115
def ECANCELED : Int := 125

/-- A request: what `aio_error` and `aio_return` know about it. -/
inductive AioStatus where
  | inProgress
  | completed (ret : Int)
  | failed (errno : Int)
  deriving DecidableEq, Repr

/-- `aio_error`. -/
def aioError : AioStatus → Int
  | .inProgress => EINPROGRESS
  | .completed _ => 0
  | .failed errno => errno

/-- `aio_return`. -/
def aioReturn : AioStatus → Int
  | .completed ret => ret
  | _ => -1

/-- The fields of `m_acb` that are ever set; its buffer is `m_data`. -/
structure Aiocb where
  aioFildes : Int
  aioNbytes : Nat
  aioOffset : Nat
  deriving Repr

/-- `pwrite` on a file: a write beyond the end leaves a hole of zeros. -/
def pwrite (file : Bytes) (offset : Nat) (data : Bytes) : Bytes :=
  overwrite (file ++ List.replicate (offset - file.length) 0) offset data

/-! ## §2 Handles -/

/-- `BUFSIZE`. -/
def bufsize : Nat := 1024 * 16

/-- `fdate`. -/
structure Fdate where
  mFd : Int
  mMaxsize : Int
  mCursize : Int
  mNum : Int
  mLevel : Int
  mFlag : BitVec 32
  mData : Bytes
  mDpos : Int
  fname : Bytes
  mAcb : Aiocb

/-- A handle with its request and the file it writes to. -/
structure Handle where
  fp : Fdate
  status : AioStatus
  file : Bytes

/-- The parts of the C library and the system that `log.cpp` uses. -/
structure Lib where
  memcpy : Memcpy UInt8
  strerror : Int → Bytes
  /-- `open`, with the value of `errno` when it fails. -/
  openFile : Bytes → BitVec 32 → Except Int Int

/-- The handle with other contents of `m_data` and another `m_dpos`. -/
def Handle.setData (s : Handle) (mData : Bytes) (mDpos : Int) : Handle :=
  { s with fp := { s.fp with mData, mDpos } }

/-- `m_acb.aio_nbytes = m_dpos; aio_write(&m_acb)`, after `m_data` and `m_dpos` were set. -/
def Handle.aioWrite (s : Handle) (mData : Bytes) (mDpos : Int) : Handle :=
  { s with
    fp := { s.fp with mData, mDpos, mAcb := { s.fp.mAcb with aioNbytes := toSize mDpos } }
    status := .inProgress }

@[simp] theorem Handle.setData_mData (s : Handle) (m : Bytes) (d : Int) :
    (s.setData m d).fp.mData = m := rfl
@[simp] theorem Handle.setData_mDpos (s : Handle) (m : Bytes) (d : Int) :
    (s.setData m d).fp.mDpos = d := rfl
@[simp] theorem Handle.setData_mAcb (s : Handle) (m : Bytes) (d : Int) :
    (s.setData m d).fp.mAcb = s.fp.mAcb := rfl
@[simp] theorem Handle.setData_mFlag (s : Handle) (m : Bytes) (d : Int) :
    (s.setData m d).fp.mFlag = s.fp.mFlag := rfl
@[simp] theorem Handle.setData_status (s : Handle) (m : Bytes) (d : Int) :
    (s.setData m d).status = s.status := rfl
@[simp] theorem Handle.setData_file (s : Handle) (m : Bytes) (d : Int) :
    (s.setData m d).file = s.file := rfl

@[simp] theorem Handle.aioWrite_mData (s : Handle) (m : Bytes) (d : Int) :
    (s.aioWrite m d).fp.mData = m := rfl
@[simp] theorem Handle.aioWrite_mDpos (s : Handle) (m : Bytes) (d : Int) :
    (s.aioWrite m d).fp.mDpos = d := rfl
@[simp] theorem Handle.aioWrite_mFlag (s : Handle) (m : Bytes) (d : Int) :
    (s.aioWrite m d).fp.mFlag = s.fp.mFlag := rfl
@[simp] theorem Handle.aioWrite_status (s : Handle) (m : Bytes) (d : Int) :
    (s.aioWrite m d).status = .inProgress := rfl
@[simp] theorem Handle.aioWrite_file (s : Handle) (m : Bytes) (d : Int) :
    (s.aioWrite m d).file = s.file := rfl

/-- The handle after `_open` got a descriptor: `sizeof(m_data)` is the size of a pointer, and a
first request of 0 bytes is submitted. -/
def Fdate.opened (fp : Fdate) (fd : Int) : Fdate :=
  { fp with
    mFd := fd
    mData := overwrite fp.mData 0 (List.replicate 8 0)
    mAcb := { aioFildes := fd, aioNbytes := 0, aioOffset := 0 }
    mDpos := 0 }

/-- `_open`: the result of `open`, and the handle with its request if there is one. -/
def fdateOpen (lib : Lib) (fp : Fdate) (file : Bytes) : Except Int Int × Option Handle :=
  let flag := (if fp.mFlag &&& 1 ≠ 0 then O_APPEND else fp.mFlag) ||| O_RDWR
  let fp := { fp with mFlag := flag }
  match lib.openFile fp.fname flag with
  | .ok fd => (.ok fd, some { fp := fp.opened fd, status := .inProgress, file })
  | .error _ =>
    -- The file is not there yet: it is created, empty.
    let fp := { fp with mCursize := 0 }
    match lib.openFile fp.fname (flag ||| O_CREAT ||| O_EXCL) with
    | .ok fd => (.ok fd, some { fp := fp.opened fd, status := .inProgress, file := [] })
    | .error errno => (.error errno, none)

/-- `lopen` on a file with the given contents, if it exists, with `block` as the new `m_data`: the
integer and the text it pushes, and the handle. A handle whose file was not opened has no
request. -/
def lopen (lib : Lib) (block : Bytes) (pfile : Bytes) (size num level : Int) (flag : BitVec 32)
    (file : Bytes) : Int × Bytes × Option Handle :=
  let level := if level < 0 ∨ level > 3 then 0 else level
  let fp : Fdate :=
    { mFd := -1, mMaxsize := size, mCursize := 0, mNum := num, mLevel := level, mFlag := flag,
      mData := block, mDpos := 0, fname := cut pfile,
      mAcb := { aioFildes := 0, aioNbytes := 0, aioOffset := 0 } }
  match fdateOpen lib fp file with
  | (.ok fd, handle) => (fd, ascii "OK", handle)
  | (.error errno, handle) => (-1, lib.strerror errno, handle)

/-- A comparison `x < BUFSIZE` in `size_t`, where a negative `x` is a huge number. -/
def fits (x : Int) : Prop := 0 ≤ x ∧ x < bufsize

instance (x : Int) : Decidable (fits x) := inferInstanceAs (Decidable (_ ∧ _))

/-- What the system answers during a call of `llog` besides the state of the request: the result
of `aio_suspend`, and `errno` where it is read. -/
structure Answers where
  aioSuspend : Int
  errno : Int

/-- What `llog` pushes. `taken` is not visible to Lua: the message was copied to the buffer. -/
structure LogResult where
  ret : Int
  strbuf : Bytes
  taken : Bool
  deriving DecidableEq, Repr

/-- `llog`; `none` is a copy outside `m_data`. -/
def llog (lib : Lib) (ans : Answers) (s : Handle) (msg : Bytes) : Option (LogResult × Handle) :=
  let p := cut msg
  let ret := aioError s.status
  if ret = 0 then
    let ret := aioReturn s.status
    if ret < 0 then
      some ({ ret, strbuf := lib.strerror ans.errno, taken := false }, s)
    else do
      -- From the front of the buffer to behind the bytes that were written.
      let len := s.fp.mDpos - ret
      let mData ← lib.memcpy.copy s.fp.mData ret 0 len
      if fits (len + p.length) then
        let mData ← storeAll mData len p
        return ({ ret, strbuf := ascii "OK", taken := true },
          s.aioWrite mData (len + p.length))
      else
        return ({ ret := -1, strbuf := ascii "too long log oh", taken := false },
          s.aioWrite mData len)
  else if ret = EINPROGRESS then
    -- Only a buffer that is nearly full waits for the request.
    let ret := if s.fp.mDpos + 1024 * 2 > bufsize then ans.aioSuspend else 0
    let strbuf := if ret < 0 then lib.strerror ans.errno else ascii "OK"
    if 0 ≤ ret then
      if fits (s.fp.mDpos + p.length) then do
        let mData ← storeAll s.fp.mData s.fp.mDpos p
        return ({ ret, strbuf, taken := true },
          s.setData mData (s.fp.mDpos + p.length))
      else
        some ({ ret := -1, strbuf := ascii "too much log", taken := false }, s)
    else
      some ({ ret, strbuf, taken := false }, s)
  else if ret = ECANCELED then
    if fits (s.fp.mDpos + p.length) then do
      let mData ← storeAll s.fp.mData s.fp.mDpos p
      return ({ ret, strbuf := ascii "OK", taken := true },
        s.aioWrite mData (s.fp.mDpos + p.length))
    else
      some ({ ret := -1, strbuf := ascii "too much log", taken := false }, s)
  else
    some ({ ret, strbuf := lib.strerror ans.errno, taken := false }, s)

/-- The request writes `n` bytes, at the end of the file or at its offset, and is done. -/
def Handle.complete (s : Handle) (n : Nat) : Handle :=
  let data := s.fp.mData.take n
  { s with
    status := .completed n
    file := if s.fp.mFlag &&& O_APPEND ≠ 0 then s.file ++ data
      else pwrite s.file s.fp.mAcb.aioOffset data }

/-! ## §3 Steps -/

/-- What happens to a handle. -/
inductive Event where
  | llog (msg : Bytes) (result : LogResult)
  | complete (n : Nat)
  | fail (errno : Int)

/-- A call of `llog`, or the running request completes or fails; being cancelled is to fail
with `ECANCELED`. -/
inductive Step (lib : Lib) : Handle → Event → Handle → Prop where
  | llog {s s' : Handle} {msg : Bytes} {ans : Answers} {result : LogResult}
      (h : MyLua.Log.llog lib ans s msg = some (result, s')) : Step lib s (.llog msg result) s'
  | complete {s : Handle} {n : Nat} (running : s.status = .inProgress)
      (le : n ≤ s.fp.mAcb.aioNbytes) : Step lib s (.complete n) (s.complete n)
  | fail {s : Handle} {errno : Int} (running : s.status = .inProgress) (pos : 0 < errno)
      (ne : errno ≠ EINPROGRESS) : Step lib s (.fail errno) { s with status := .failed errno }

/-- The bytes of the messages that were copied to the buffer, in call order. -/
def taken : List Event → Bytes
  | [] => []
  | .llog msg result :: h => if result.taken then taken h ++ cut msg else taken h
  | _ :: h => taken h

/-- The bytes in the buffer that have not been written. -/
def Handle.pending (s : Handle) : Bytes :=
  match s.status with
  | .completed n => (s.fp.mData.take s.fp.mDpos.toNat).drop n.toNat
  | _ => s.fp.mData.take s.fp.mDpos.toNat

/-! ## §4 Sound handles -/

/-- The buffer holds `d` bytes, and the request is about the first of them. -/
structure Sound (s : Handle) (d : Nat) : Prop where
  size : s.fp.mData.length = bufsize
  dpos : s.fp.mDpos = d
  lt : d < bufsize
  nbytes : s.fp.mAcb.aioNbytes ≤ d
  written : ∀ ret, s.status = .completed ret → ∃ n : Nat, ret = n ∧ n ≤ d
  errno : ∀ e, s.status = .failed e → 0 < e ∧ e ≠ EINPROGRESS

/-- The buffer after `memcpy(m_data + n, m_data, m_dpos - n)`. -/
def moved (lib : Lib) (s : Handle) (d n : Nat) : Bytes :=
  overwrite s.fp.mData n (lib.memcpy.cells s.fp.mData n 0 (d - n))

/-- What a call of `llog` with the message `p` can do to a handle with `d` bytes. -/
inductive Effect (lib : Lib) (s : Handle) (d : Nat) (p : Bytes) : LogResult → Handle → Prop where
  /-- `n` bytes were written; the rest and the message are submitted. -/
  | moved {n : Nat} {r : LogResult} (done : s.status = .completed n) (le : n ≤ d)
      (room : d - n + p.length < bufsize) (taken : r.taken = true) :
      Effect lib s d p r
        (s.aioWrite (overwrite (Log.moved lib s d n) (d - n) p) ((d - n + p.length : Nat) : Int))
  /-- `n` bytes were written; the rest is submitted, the message does not fit. -/
  | movedOnly {n : Nat} {r : LogResult} (done : s.status = .completed n) (le : n ≤ d)
      (full : ¬ d - n + p.length < bufsize) (refused : r.taken = false) :
      Effect lib s d p r (s.aioWrite (Log.moved lib s d n) ((d - n : Nat) : Int))
  /-- The request runs; the message is put behind the bytes in the buffer. -/
  | added {r : LogResult} (running : s.status = .inProgress) (room : d + p.length < bufsize)
      (taken : r.taken = true) :
      Effect lib s d p r (s.setData (overwrite s.fp.mData d p) ((d + p.length : Nat) : Int))
  /-- The request was cancelled; everything and the message are submitted. -/
  | resubmitted {r : LogResult} (canceled : s.status = .failed ECANCELED)
      (room : d + p.length < bufsize) (taken : r.taken = true) :
      Effect lib s d p r
        (s.aioWrite (overwrite s.fp.mData d p) ((d + p.length : Nat) : Int))
  | unchanged {r : LogResult} (busy : ∀ ret, s.status ≠ .completed ret)
      (refused : r.taken = false) : Effect lib s d p r s

theorem fits_natCast {n : Nat} : fits (n : Int) ↔ n < bufsize := by
  unfold fits
  omega

theorem Sound.toNat_dpos {s : Handle} {d : Nat} (hs : Sound s d) : s.fp.mDpos.toNat = d := by
  rw [hs.dpos, Int.toNat_natCast]

/-- What `llog` compares with `BUFSIZE` when the request is not done. -/
theorem Sound.dpos_add {s : Handle} {d : Nat} (hs : Sound s d) (k : Nat) :
    s.fp.mDpos + (k : Int) = ((d + k : Nat) : Int) := by
  rw [hs.dpos, Int.natCast_add]

/-- The number of bytes that are left after `n` were written. -/
theorem Sound.dpos_sub {s : Handle} {d n : Nat} (hs : Sound s d) (hn : n ≤ d) :
    s.fp.mDpos - (n : Int) = ((d - n : Nat) : Int) := by
  rw [hs.dpos]
  omega

theorem length_moved (lib : Lib) {s : Handle} {d n : Nat} (hs : Sound s d) (hn : n ≤ d) :
    (moved lib s d n).length = bufsize := by
  have hlt := hs.lt
  have hsize := hs.size
  have hcells := lib.memcpy.length_cells s.fp.mData n 0 (d - n) (by omega) (by omega)
  rw [moved, length_overwrite (by omega), hsize]

/-- A message is copied behind the first `k` bytes of a buffer with room for it. -/
theorem storeAll_message {m p : Bytes} {k : Nat} (hm : m.length = bufsize)
    (hroom : k + p.length < bufsize) : storeAll m (k : Int) p = some (overwrite m k p) :=
  storeAll_eq_overwrite (by omega)

/-- On a sound handle `llog` stays inside the buffer and has one of the effects. -/
theorem llog_effect (lib : Lib) {s : Handle} {d : Nat} (hs : Sound s d) (ans : Answers)
    (msg : Bytes) :
    ∃ r s', llog lib ans s msg = some (r, s') ∧ Effect lib s d (cut msg) r s' := by
  have hlt := hs.lt
  have hadd := hs.dpos_add (cut msg).length
  unfold llog
  cases hst : s.status with
  | inProgress =>
    -- The request runs; waiting for it changes nothing here, whatever `aio_suspend` answers.
    simp only [aioError, show EINPROGRESS ≠ 0 by decide, if_false, if_true, hadd, fits_natCast]
    generalize (if s.fp.mDpos + 1024 * 2 > (bufsize : Int) then ans.aioSuspend else 0) = wait
    split
    · split
      · rw [hs.dpos, storeAll_message hs.size ‹_›]
        exact ⟨_, _, rfl, .added hst ‹_› rfl⟩
      · exact ⟨_, _, rfl, .unchanged (by simp [hst]) rfl⟩
    · exact ⟨_, _, rfl, .unchanged (by simp [hst]) rfl⟩
  | completed ret =>
    -- Sound requests report what they wrote, so the copy stays inside the buffer.
    obtain ⟨n, rfl, hn⟩ := hs.written ret hst
    have hnonneg : ¬ (n : Int) < 0 := by omega
    have hlen := hs.dpos_sub hn
    have hcopy : lib.memcpy.copy s.fp.mData n 0 ((d - n : Nat) : Int) = some (moved lib s d n) := by
      have hsize := hs.size
      have hsrc : 0 + (d - n) ≤ s.fp.mData.length := by omega
      exact lib.memcpy.copy_natCast (by omega) hsrc
    have hsum : ((d - n : Nat) : Int) + ((cut msg).length : Int) =
        ((d - n + (cut msg).length : Nat) : Int) := by rw [Int.natCast_add]
    simp only [aioError, aioReturn, if_true, if_neg hnonneg, hlen, hcopy, hsum, fits_natCast,
      Option.bind_eq_bind, Option.bind_some]
    split
    · rw [storeAll_message (length_moved lib hs hn) ‹_›]
      exact ⟨_, _, rfl, .moved hst hn ‹_› rfl⟩
    · exact ⟨_, _, rfl, .movedOnly hst hn ‹_› rfl⟩
  | failed errno =>
    -- Only a cancelled request is submitted again.
    obtain ⟨hpos, hrunning⟩ := hs.errno errno hst
    have hzero : errno ≠ 0 := by omega
    simp only [aioError, hzero, hrunning, if_false, hadd, fits_natCast]
    split
    · rename_i hcanceled
      split
      · rw [hs.dpos, storeAll_message hs.size ‹_›]
        exact ⟨_, _, rfl, .resubmitted (hcanceled ▸ hst) ‹_› rfl⟩
      · exact ⟨_, _, rfl, .unchanged (by simp [hst]) rfl⟩
    · exact ⟨_, _, rfl, .unchanged (by simp [hst]) rfl⟩

theorem effect_of_llog {lib : Lib} {s s' : Handle} {d : Nat} {ans : Answers} {msg : Bytes}
    {r : LogResult} (hs : Sound s d) (hrun : llog lib ans s msg = some (r, s')) :
    Effect lib s d (cut msg) r s' := by
  obtain ⟨r', s'', hrun', heff⟩ := llog_effect lib hs ans msg
  rw [hrun] at hrun'
  obtain ⟨rfl, rfl⟩ := Prod.mk.inj (Option.some.inj hrun')
  exact heff

/-- A handle that submitted its whole buffer is sound. -/
theorem sound_aioWrite (s : Handle) {m : Bytes} {d : Nat} (hm : m.length = bufsize)
    (hd : d < bufsize) : Sound (s.aioWrite m (d : Int)) d where
  size := hm
  dpos := rfl
  lt := hd
  nbytes := by
    have hsize : toSize (d : Int) = d := toSize_natCast (by unfold bufsize at hd; omega)
    simp only [Handle.aioWrite, hsize, Nat.le_refl]
  written ret h := by cases h
  errno e h := by cases h

theorem sound_effect {lib : Lib} {s s' : Handle} {d : Nat} {p : Bytes} {r : LogResult}
    (hs : Sound s d) (heff : Effect lib s d p r s') : ∃ d', Sound s' d' := by
  have hsize := hs.size
  cases heff with
  | @moved n _ done le room taken =>
    have hm := length_moved lib hs le
    exact ⟨_, sound_aioWrite s (by rw [length_overwrite (by omega), hm]) room⟩
  | movedOnly done le full refused =>
    have hlt := hs.lt
    exact ⟨_, sound_aioWrite s (length_moved lib hs le) (by omega)⟩
  | added running room taken =>
    -- The request still covers the bytes in front of the new ones.
    have hnbytes := hs.nbytes
    refine ⟨d + p.length, ⟨?_, rfl, room, ?_, ?_, ?_⟩⟩
    · rw [Handle.setData_mData, length_overwrite (by omega), hsize]
    · rw [Handle.setData_mAcb]
      omega
    · intro ret hret
      rw [Handle.setData_status, running] at hret
      cases hret
    · intro e he
      rw [Handle.setData_status, running] at he
      cases he
  | resubmitted canceled room taken =>
    exact ⟨_, sound_aioWrite s (by rw [length_overwrite (by omega), hsize]) room⟩
  | unchanged busy refused => exact ⟨d, hs⟩

/-- Every step keeps a handle sound. -/
theorem sound_step (lib : Lib) {s s' : Handle} {e : Event} {d : Nat} (hs : Sound s d)
    (hstep : Step lib s e s') : ∃ d', Sound s' d' := by
  cases hstep with
  | llog h => exact sound_effect hs (effect_of_llog hs h)
  | @complete n running le =>
    refine ⟨d, ⟨hs.size, hs.dpos, hs.lt, hs.nbytes, ?_, nofun⟩⟩
    intro ret hret
    cases hret
    exact ⟨n, rfl, Nat.le_trans le hs.nbytes⟩
  | @fail errno running pos ne =>
    refine ⟨d, ⟨hs.size, hs.dpos, hs.lt, hs.nbytes, nofun, ?_⟩⟩
    intro e he
    cases he
    exact ⟨pos, ne⟩

/-- The handle of `lopen` is the one `_open` leaves behind, with its first request submitted. -/
theorem opened_lopen {lib : Lib} {block pfile : Bytes} {size num level : Int} {flag : BitVec 32}
    {file : Bytes} {ret : Int} {strbuf : Bytes} {s : Handle}
    (h : lopen lib block pfile size num level flag file = (ret, strbuf, some s)) :
    ∃ fp fd, s.fp = Fdate.opened fp fd ∧ s.status = .inProgress ∧ fp.mData = block ∧
      fp.mFlag = (if flag &&& 1 ≠ 0 then O_APPEND else flag) ||| O_RDWR := by
  unfold lopen fdateOpen at h
  dsimp only at h
  split at h
  · -- The file was opened, or it was created.
    rename_i hopen
    split at hopen
    · cases hopen
      cases h
      exact ⟨_, _, rfl, rfl, rfl, rfl⟩
    · split at hopen
      · cases hopen
        cases h
        exact ⟨_, _, rfl, rfl, rfl, rfl⟩
      · cases hopen
  · rename_i hopen
    split at hopen
    · cases hopen
    · split at hopen
      · cases hopen
      · cases hopen
        cases h

/-- What `lopen` makes of its arguments when the file can be opened. -/
theorem lopen_eq_some {lib : Lib} {block pfile : Bytes} {size num level : Int} {flag : BitVec 32}
    {file : Bytes} {ret : Int} {strbuf : Bytes} {s : Handle}
    (h : lopen lib block pfile size num level flag file = (ret, strbuf, some s)) :
    s.fp.mData = overwrite block 0 (List.replicate 8 0) ∧ s.fp.mDpos = 0 ∧
      s.fp.mAcb.aioNbytes = 0 ∧ s.status = .inProgress ∧
      s.fp.mFlag = (if flag &&& 1 ≠ 0 then O_APPEND else flag) ||| O_RDWR := by
  obtain ⟨fp, fd, hfp, hstatus, hdata, hflag⟩ := opened_lopen h
  rw [hfp]
  refine ⟨?_, rfl, rfl, hstatus, hflag⟩
  rw [← hdata]
  rfl

/-- A new handle is sound and empty. -/
theorem sound_lopen {lib : Lib} {block pfile : Bytes} {size num level : Int} {flag : BitVec 32}
    {file : Bytes} {ret : Int} {strbuf : Bytes} {s : Handle} (hblock : block.length = bufsize)
    (h : lopen lib block pfile size num level flag file = (ret, strbuf, some s)) : Sound s 0 := by
  obtain ⟨hdata, hdpos, hnbytes, hstatus, -⟩ := lopen_eq_some h
  refine ⟨?_, hdpos, by decide, by omega, ?_, ?_⟩
  · rw [hdata, length_overwrite (by rw [hblock]; decide), hblock]
  · intro ret hret
    rw [hstatus] at hret
    cases hret
  · intro e he
    rw [hstatus] at he
    cases he

/-- Every handle that is ever reached is sound. -/
theorem sound_run {lib : Lib} {block pfile : Bytes} {size num level : Int} {flag : BitVec 32}
    {file : Bytes} {ret : Int} {strbuf : Bytes} {s₀ s : Handle} {h : List Event}
    (hblock : block.length = bufsize)
    (hopen : lopen lib block pfile size num level flag file = (ret, strbuf, some s₀))
    (hrun : Runs (Step lib) s₀ h s) : ∃ d, Sound s d := by
  have hstart : ∃ d, Sound s₀ d := ⟨0, sound_lopen hblock hopen⟩
  refine hrun.invariant (I := fun _ s => ∃ d, Sound s d) hstart ?_
  intro h s e s' hinv hstep
  obtain ⟨d, hs⟩ := hinv
  exact sound_step lib hs hstep

/-- With flag bit 0 the file is opened for appending. -/
theorem append_lopen {lib : Lib} {block pfile : Bytes} {size num level : Int} {flag : BitVec 32}
    {file : Bytes} {ret : Int} {strbuf : Bytes} {s : Handle} (hflag : flag &&& 1 ≠ 0)
    (h : lopen lib block pfile size num level flag file = (ret, strbuf, some s)) :
    s.fp.mFlag &&& O_APPEND ≠ 0 := by
  obtain ⟨-, -, -, -, hopen⟩ := lopen_eq_some h
  rw [hopen, if_pos hflag]
  decide

end MyLua.Log
