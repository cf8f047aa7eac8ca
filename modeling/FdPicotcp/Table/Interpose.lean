import FdPicotcp.Table.FdTable

/-! The interposed libc functions (`socket.c`): every descriptor of the process goes through them.

    A descriptor whose slot in `fd_table` is empty is handed to the kernel, by its own system call or,
    where the architecture has none, by `socketcall` with the arguments in an array. `performed` is
    what the kernel then does; `interposed_iff` says when it is what the caller asked for. -/

namespace FdPicotcp.Interpose
open FdTable

/-- The system calls behind the seven functions. -/
inductive Nr where | read | write | listen | close | bind | connect | accept
  deriving DecidableEq

/-- A build: which calls have no number of their own and go through `socketcall` (the `#ifdef`s),
    and the width of `unsigned long`. -/
structure Build where
  socketcall : Nr → Bool
  long : ℕ
  int_le : 32 ≤ long

variable {b : Build} {σ : Type}

/-- An `int`, or a `socklen_t`. -/
abbrev I32 := BitVec 32

/-- An `unsigned long`, or a pointer. -/
abbrev Build.Word (b : Build) := BitVec b.long

/-- The seven functions, with the caller's arguments; pointers and `size_t` are words. -/
inductive Call (b : Build) where
  | read (fd : I32) (buf len : b.Word)
  | write (fd : I32) (buf count : b.Word)
  | listen (fd backlog : I32)
  | close (fd : I32)
  | bind (fd : I32) (addr : b.Word) (addrlen : I32)
  | connect (fd : I32) (addr : b.Word) (addrlen : I32)
  | accept (fd : I32) (addr addrlen : b.Word)

/-- The descriptor of the call. -/
def Call.fd : Call b → I32
  | .read fd _ _ | .write fd _ _ | .listen fd _ | .close fd | .bind fd _ _ | .connect fd _ _
  | .accept fd _ _ => fd

/-- The last argument of `socketcall`: an array on the caller's stack, or some other word. -/
inductive Args (b : Build) where
  | array (words : List b.Word)
  | word (w : b.Word)

/-- An invocation of `syscall()`. -/
inductive Trap (b : Build) where
  | direct (nr : Nr) (words : List b.Word)
  | socketcall (call : Nr) (args : Args b)

/-- An `int` in an `unsigned long`. -/
def ofInt (x : I32) : b.Word := x.signExtend b.long

/-- A `socklen_t` in an `unsigned long`. -/
def ofUint (x : I32) : b.Word := x.setWidth b.long

/-- Where a call of an interposed function goes. -/
inductive Target (b : Build) (σ : Type) where
  | picotcp (s : σ)
  | kernel (t : Trap b)

/-- Where a call goes, and the globals then. -/
abbrev Outcome (b : Build) (σ : Type) := Except Fault (Target b σ × Globals σ)

/-- Every function asks the table first. -/
def dispatch (g : Globals σ) (fd : I32) (t : Trap b) : Outcome b σ :=
  (getSocketFromFd g fd.toInt).map fun
    | some s => (.picotcp s, g)
    | none => (.kernel t, g)

/-- The call with its arguments in an array where there is no such system call. -/
def trap (nr : Nr) (args : List b.Word) : Trap b :=
  if b.socketcall nr then .socketcall nr (.array args) else .direct nr args

/-- `read()` -/
def read (g : Globals σ) (fd : I32) (buf len : b.Word) : Outcome b σ :=
  dispatch g fd (.direct .read [ofInt fd, buf, len])

/-- `write()` -/
def write (g : Globals σ) (fd : I32) (buf count : b.Word) : Outcome b σ :=
  dispatch g fd (.direct .write [ofInt fd, buf, count])

/-- The array is filled and not passed. -/
def listen (g : Globals σ) (fd backlog : I32) : Outcome b σ :=
  dispatch g fd <|
    if b.socketcall .listen then .socketcall .listen (.word (ofInt fd))
    else .direct .listen [ofInt fd, ofInt backlog]

/-- `close()` -/
def close (g : Globals σ) (fd : I32) : Outcome b σ :=
  dispatch g fd (.direct .close [ofInt fd])

/-- `bind()` -/
def bind (g : Globals σ) (fd : I32) (addr : b.Word) (addrlen : I32) :
    Outcome b σ :=
  dispatch g fd (trap .bind [ofInt fd, addr, ofUint addrlen])

/-- `connect()` -/
def connect (g : Globals σ) (fd : I32) (addr : b.Word) (addrlen : I32) :
    Outcome b σ :=
  dispatch g fd (trap .connect [ofInt fd, addr, ofUint addrlen])

/-- `accept()` -/
def accept (g : Globals σ) (fd : I32) (addr addrlen : b.Word) : Outcome b σ :=
  dispatch g fd (trap .accept [ofInt fd, addr, addrlen])

/-- The function for a call. -/
def interposed (g : Globals σ) : Call b → Outcome b σ
  | .read fd buf len => read g fd buf len
  | .write fd buf count => write g fd buf count
  | .listen fd backlog => listen g fd backlog
  | .close fd => close g fd
  | .bind fd addr addrlen => bind g fd addr addrlen
  | .connect fd addr addrlen => connect g fd addr addrlen
  | .accept fd addr addrlen => accept g fd addr addrlen

/-- What `socketcall` reads of the process: `copy_from_user` of so many words at an address. -/
abbrev Memory (b : Build) := b.Word → ℕ → Option (List b.Word)

/-- The system call that the kernel performs for a number and its words. -/
def perform : Nr → List b.Word → Option (Call b)
  | .read, [fd, buf, len] => some (.read (fd.setWidth 32) buf len)
  | .write, [fd, buf, count] => some (.write (fd.setWidth 32) buf count)
  | .listen, [fd, backlog] => some (.listen (fd.setWidth 32) (backlog.setWidth 32))
  | .close, [fd] => some (.close (fd.setWidth 32))
  | .bind, [fd, addr, addrlen] => some (.bind (fd.setWidth 32) addr (addrlen.setWidth 32))
  | .connect, [fd, addr, addrlen] => some (.connect (fd.setWidth 32) addr (addrlen.setWidth 32))
  | .accept, [fd, addr, addrlen] => some (.accept (fd.setWidth 32) addr addrlen)
  | _, _ => none

/-- The number of words `socketcall` reads. -/
def Nr.args : Nr → ℕ
  | .close => 1
  | .listen => 2
  | _ => 3

/-- The call that the kernel makes of an invocation of `syscall()`. -/
def performed (mem : Memory b) : Trap b → Option (Call b)
  | .direct nr words => perform nr words
  | .socketcall nr (.array words) => perform nr words
  | .socketcall nr (.word w) => (mem w nr.args).bind (perform nr)

/-- The call stays inside the table, leaves the globals as they are, and behaves as the system call
    with the caller's own arguments. -/
def Transparent (mem : Memory b) (g : Globals σ) (c : Call b) : Outcome b σ → Prop
  | .ok (.kernel t, g') => performed mem t = some c ∧ g' = g
  | _ => False

/-- `listen` in a build where the kernel takes the descriptor for the address of its arguments. -/
def Misaddressed (mem : Memory b) : Call b → Prop
  | .listen fd backlog => b.socketcall .listen ∧
    (mem (ofInt fd) 2).bind (perform .listen) ≠ some (.listen fd backlog)
  | _ => False

/-- An `int` survives its way through a register or the array. -/
@[simp] theorem setWidth_ofInt (x : I32) : (ofInt x : b.Word).setWidth 32 = x := by
  have hle := b.int_le
  refine BitVec.eq_of_getLsbD_eq ?_
  intro i hi
  rw [BitVec.getLsbD_setWidth, ofInt, BitVec.getLsbD_signExtend]
  simp [hi, show i < b.long by omega]

@[simp] theorem setWidth_ofUint (x : I32) : (ofUint x : b.Word).setWidth 32 = x := by
  have hle := b.int_le
  refine BitVec.eq_of_getLsbD_eq ?_
  intro i hi
  rw [BitVec.getLsbD_setWidth, ofUint, BitVec.getLsbD_setWidth]
  simp [hi, show i < b.long by omega]

/-- Both ways of making a call pass the same words. -/
theorem performed_trap (mem : Memory b) (nr : Nr) (words : List b.Word) :
    performed mem (trap nr words) = perform nr words := by
  rw [trap]
  split <;> rfl

/-- A descriptor without an entry reaches the kernel exactly if it is an index of the table. -/
theorem dispatch_transparent {g : Globals σ} {fd : I32} (hl : ¬ Live g fd.toInt) (mem : Memory b)
    (c : Call b) (t : Trap b) : Transparent mem g c (dispatch g fd t) ↔
      InTable g fd.toInt ∧ performed mem t = some c := by
  by_cases hin : InTable g fd.toInt
  · rw [dispatch, getSocketFromFd, slot_of_not_live hin hl, and_iff_right hin]
    exact and_iff_left rfl
  · rw [iff_false_intro fun h : _ ∧ _ => hin h.1, dispatch, getSocketFromFd]
    cases hs : slot g fd.toInt with
    | error f => exact iff_of_false id id
    | ok e => exact absurd (slot_ok_iff.mp ⟨e, hs⟩) hin

/-- INTERPOSITION IS TRANSPARENT for a descriptor without an entry exactly if the table exists, the
    descriptor is inside it, and the call is not a `listen` by `socketcall`. -/
theorem interposed_iff {g : Globals σ} (mem : Memory b) (c : Call b) (hl : ¬ Live g c.fd.toInt) :
    Transparent mem g c (interposed g c) ↔ InTable g c.fd.toInt ∧ ¬ Misaddressed mem c := by
  cases c with
  | read fd buf len | write fd buf count | close fd =>
    refine (dispatch_transparent hl mem _ _).trans (and_congr_right ?_)
    intro _
    exact iff_of_true (by simp [performed, perform]) id
  | bind fd addr addrlen | connect fd addr addrlen | accept fd addr addrlen =>
    refine (dispatch_transparent hl mem _ _).trans (and_congr_right ?_)
    intro _
    rw [performed_trap]
    exact iff_of_true (by simp [perform]) id
  | listen fd backlog =>
    refine (dispatch_transparent hl mem _ _).trans (and_congr_right ?_)
    intro _
    by_cases hb : b.socketcall .listen
    · rw [if_pos hb, Misaddressed, and_iff_right hb, not_ne_iff]
      rfl
    · rw [if_neg hb]
      exact iff_of_true (by simp [performed, perform]) fun h => hb h.1

/-- A build for x86-64, which has all system calls. -/
def direct64 : Build := ⟨fun _ => false, 64, by decide⟩

/-- Before the first `socket()` there is no table, and every `read()` of the process faults. -/
theorem read_faults : ¬ ∀ (mem : Memory direct64) (c : Call direct64),
    ¬ Live (start : Globals ℕ) c.fd.toInt →
      Transparent mem (start : Globals ℕ) c (interposed start c) :=
  fun h => h (fun _ _ => none) (.read 0 0 1) (by decide)

/-- With a table of 8 slots a `read()` of descriptor 3 is the system call. -/
theorem interposed_read : Transparent (b := direct64) (fun _ _ => none) initial (.read 3 0 1)
    (interposed initial (.read 3 0 1)) :=
  (interposed_iff _ _ (by decide +kernel)).mpr ⟨by decide, id⟩

end FdPicotcp.Interpose
