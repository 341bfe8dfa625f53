/-
User programs of `xv6-fs`: the calls of `usys.S` and `ulib.c`.

A program is the memory of its process, `User`, in which `esp` is the stack pointer
at a call.  A call puts its arguments into the words above, which the kernel fetches
them from; strings and buffers lie higher up, in the frames of the program's
functions, and are not touched.
-/
import CS444.Fs.Plain

namespace CS444
namespace Fs

open Bytes Program

/-! ## Arguments on the stack -/

/-- The words `args` from `a` on. -/
def pushed (m : Mem) (a : Nat) : List Nat → Mem
  | [] => m
  | x :: rest => store (pushed m (a + 4) rest) a 4 x

/-- The process in a call with the arguments `args`, above the return address. -/
def User.calling (u : User) (args : List Nat) : User :=
  { u with mem := pushed u.mem (u.esp + 4) args }

/-- The end of the words of a call of three arguments. -/
def User.frame (u : User) : Nat := u.esp + 16

/-- The process has memory for the words of a call. -/
structure Stacked (u : User) : Prop where
  frame : u.frame ≤ u.sz
  small : u.sz < 2 ^ 32

variable {u : User} {m : Mem} {args : List Nat} {a b i x addr : Nat}

theorem pushed_apply (h : b < a ∨ a + 4 * args.length ≤ b) : pushed m a args b = m b := by
  induction args generalizing a with
  | nil => rfl
  | cons x rest ih =>
      rw [List.length_cons] at h
      rw [pushed, store_apply_of_outside (by omega), ih (by omega)]

theorem load_pushed (hi : i < args.length) (hlt : args[i] < 2 ^ 32) :
    load (pushed m a args) (a + 4 * i) 4 = args[i] := by
  induction args generalizing a i with
  | nil => exact absurd hi (Nat.not_lt_zero _)
  | cons x rest ih =>
      rw [pushed]
      cases i with
      | zero => exact load_store_self hlt
      | succ i =>
          have hnext : a + 4 * (i + 1) = a + 4 + 4 * i := by ring
          rw [load_store_of_disjoint (by omega), hnext]
          exact ih (by simpa using hi) hlt

/-- The kernel fetches the arguments of a call. -/
theorem argint_calling (hu : Stacked u) (hlen : args.length ≤ 3) (hi : args[i]? = some x)
    (hlt : x < 2 ^ 32) : (u.calling args).argint i = some x := by
  obtain ⟨hframe, hsz⟩ := hu
  obtain ⟨hbound, rfl⟩ := List.getElem?_eq_some_iff.mp hi
  have haddr : uint (((u.esp : Int) + 4 + 4 * (i : Int))) = u.esp + 4 + 4 * i := by
    unfold User.frame at hframe
    unfold uint
    omega
  have hend : uint (((u.esp + 4 + 4 * i : Nat) : Int) + 4) = u.esp + 4 + 4 * i + 4 := by
    unfold User.frame at hframe
    unfold uint
    omega
  unfold User.argint User.fetchint User.calling
  simp only
  unfold User.frame at hframe
  rw [haddr, if_neg (by rw [hend]; omega), load_pushed hbound hlt]

theorem scanStr_congr {m' : Mem} {n : Nat} (h : ∀ b, a ≤ b → m' b = m b) :
    User.scanStr m' n a = User.scanStr m n a := by
  induction n generalizing a with
  | zero => rfl
  | succ n ih =>
      rw [User.scanStr, User.scanStr, h a (Nat.le_refl a), ih fun b hb => h b (by omega)]

/-- Strings above the words of a call are what they were. -/
theorem fetchstr_calling (hlen : args.length ≤ 3) (haddr : u.frame ≤ addr) :
    (u.calling args).fetchstr addr = u.fetchstr addr := by
  unfold User.fetchstr User.calling
  simp only
  rw [scanStr_congr fun b hb => ?_]
  unfold User.frame at haddr
  exact pushed_apply (by omega)

/-- A string of the program, where calls do not touch it. -/
structure StringAt (u : User) (addr : Nat) (str : Str) : Prop where
  fetched : u.fetchstr addr = some str
  above : u.frame ≤ addr
  low : addr < 2 ^ 32

theorem StringAt.argstr {str : Str} (hs : StringAt u addr str) (hu : Stacked u)
    (hlen : args.length ≤ 3) (hi : args[i]? = some addr) :
    (u.calling args).argstr i = some str := by
  unfold User.argstr
  rw [argint_calling hu hlen hi hs.low]
  simp only
  rw [fetchstr_calling hlen hs.above, hs.fetched]

/-- A buffer of the program is in its memory. -/
theorem argptr_calling {size : Nat} (hu : Stacked u) (hlen : args.length ≤ 3)
    (hi : args[i]? = some addr) (hsize : 0 < size) (hend : addr + size ≤ u.sz) :
    (u.calling args).argptr i size = some addr := by
  have hsz := hu.small
  have huint : uint ((addr : Int) + size) = addr + size := by
    unfold uint
    omega
  unfold User.argptr
  rw [argint_calling hu hlen hi (by omega)]
  simp only
  rw [huint, if_neg]
  show ¬((size : Int) < 0 ∨ addr ≥ u.sz ∨ addr + size > u.sz)
  omega

/-- The process with `str` in a buffer of its. -/
def User.stored (u : User) (buf : Nat) (str : Str) : User :=
  { u with mem := blit u.mem buf str.length fun i => str.getD i 0 }

theorem Stacked.stored {str : Str} (hu : Stacked u) : Stacked (u.stored a str) :=
  ⟨hu.frame, hu.small⟩

/-- What is in a buffer when it is an argument. -/
theorem bytes_stored {str : Str} (hlen : args.length ≤ 3) (ha : u.frame ≤ a) :
    ((u.stored a str).calling args).bytes a str.length = str := by
  unfold User.frame at ha
  have hmem : ∀ j, j < str.length →
      ((u.stored a str).calling args).mem (a + j) = str.getD j 0 := by
    intro j hj
    show pushed (blit u.mem a str.length fun i => str.getD i 0) (u.esp + 4) args (a + j) = _
    rw [pushed_apply (by omega)]
    unfold blit
    rw [if_pos (by omega), Nat.add_sub_cancel_left]
  show (List.range str.length).map (fun j => ((u.stored a str).calling args).mem (a + j)) = str
  rw [List.map_congr_left fun j hj => hmem j (List.mem_range.mp hj)]
  apply List.ext_getElem
  · rw [List.length_map, List.length_range]
  · intro j _ hj
    rw [List.getElem_map, List.getElem_range, List.getD_eq_getElem?_getD,
      List.getElem?_eq_getElem hj, Option.getD_some]

/-! ## The calls -/

namespace Ulib

/-- `open(path, omode)` -/
def «open» (u : User) (path omode : Nat) : K Int := Plain.sys_open (u.calling [path, omode])

/-- `close(fd)` -/
def close (u : User) (fd : Int) : K Int := sys_close (u.calling [uint fd])

/-- `fstat(fd, st)` -/
def fstat (u : User) (fd : Int) (st : Nat) : K (Int × Option Stat) :=
  sys_fstat (u.calling [uint fd, st])

/-- `read(fd, buf, n)`: the result, and the process with what was read. -/
def read (u : User) (fd : Int) (buf n : Nat) : K (Int × User) := do
  let (r, bytes) ← sys_read (u.calling [uint fd, buf, n])
  return (r, u.stored buf bytes)

/-- `write(fd, buf, n)` -/
def write (u : User) (fd : Int) (buf : Nat) (n : Int) : K Int :=
  sys_write (u.calling [uint fd, buf, uint n])

/-- `link(old, new)` -/
def link (u : User) (old new : Nat) : K Int := sys_link (u.calling [old, new])

/-- `unlink(path)` -/
def unlink (u : User) (path : Nat) : K Int := sys_unlink (u.calling [path])

/-- `stat(n, st)`: the result and what is stored at `st`. -/
def stat (u : User) (n st : Nat) : K (Int × Option Stat) := do
  let fd ← Ulib.open u n O_RDONLY
  if fd < 0 then return (-1, none)
  else
    let r ← fstat u fd st
    let _ ← close u fd
    return r

end Ulib

end Fs
end CS444
