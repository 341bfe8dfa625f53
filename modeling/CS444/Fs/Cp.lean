/-
`cp.c`, with `TRUNC_FILE` as the `Makefile` of `xv6-fs` has it.

`cp` opens its input, then opens and empties its output, and copies the one to the
other in pieces of 512 bytes.  When it comes to its end both names read as the input
did, unless the output was the input and not empty, `cp_copies_iff`: then it emptied
what it had yet to read.

What the program prints and its `exit` are left out.
-/
import CS444.Fs.Mv
import CS444.Fs.OpenTrunc
import CS444.Fs.Transfer

namespace CS444
namespace Fs

open Bytes Program Ledger

/-! ## The program -/

namespace Cp

def BUFSIZE : Nat := 512

/-- The loop of `cp`, while `fuel` lasts. -/
def copy (ifd ofd : Int) (buf : Nat) : Nat → User → K Unit
  | 0, _ => hang
  | fuel + 1, u => do
    let (n, u) ← Ulib.read u ifd buf BUFSIZE
    if n > 0 then
      let res ← Ulib.write u ofd buf n
      if res ≠ 0 then copy ifd ofd buf fuel u else return ()
    else return ()

/-- `cp(oname, iname)`; whether it comes to its end, and does not exit because a file
could not be opened. -/
def cp (u : User) (buf fuel oname iname : Nat) : K Bool := do
  let ifd ← Ulib.open u iname O_RDONLY
  if ifd ≥ 0 then
    let ofd ← Ulib.open u oname (O_WRONLY ||| O_CREATE ||| O_TRUNC)
    if ofd ≥ 0 then
      copy ifd ofd buf fuel u
      let _ ← Ulib.close u ofd
      let _ ← Ulib.close u ifd
      return true
    else
      let _ ← Ulib.close u ifd
      return false
  else return false

end Cp

variable {s s₁ s' : Kernel} {ip op cwd : Slot} {buf fuel iname oname k m n off : Nat}
  {old inPath outPath : Str} {ifd ofd fd : Fin NOFILE} {f g : FileSlot} {h : Slot → Nat}
  {u u' : User} {r : Int}

/-! ## One piece -/

theorem int_bufsize : int (Cp.BUFSIZE : Nat) = ((512 : Nat) : Int) := by decide

theorem read_next (hm : Midway s h none) (hf : SoleFile s fd f ip)
    (hinum : (s.inode ip).inum = m) (htype : (tree s m).type = T_FILE)
    (hreadable : (s.file f).readable = true)
    (hoff : (s.file f).off ≤ (tree s m).contents.length) (hu : Stacked u)
    (hend : buf + Cp.BUFSIZE ≤ u.sz)
    (hrun : (Ulib.read u fd.val buf Cp.BUFSIZE).run s = .ok ((r, u'), s')) :
    ∃ bytes, bytes = ((tree s m).contents.drop (s.file f).off).take Cp.BUFSIZE ∧
      r = bytes.length ∧ u' = u.stored buf bytes ∧ Midway s' h none ∧ SameDisk s s' ∧
      Through s f ((s.file f).off + bytes.length) s' := by
  rw [Ulib.read, Prog.bind_ok] at hrun
  obtain ⟨⟨r', bytes⟩, s₁, hread, hrun⟩ := hrun
  obtain ⟨hres, rfl⟩ := Prog.pure_ok.mp hrun
  obtain ⟨rfl, rfl⟩ := Prod.mk.inj hres
  rw [uint_fd, sys_read, Prog.bind_eq (argfd_open (argint_calling hu (by simp) rfl (fd_lt fd))
    hf.fd), argint_calling hu (by simp) rfl (by decide : Cp.BUFSIZE < 2 ^ 32)] at hread
  simp only at hread
  rw [int_bufsize, argptr_calling hu (by simp) rfl (by decide : 0 < 512) hend] at hread
  simp only at hread
  obtain ⟨hbytes, rfl, hrest⟩ := fileread_next hm hf hinum htype hreadable hoff (by decide) hread
  exact ⟨bytes, hbytes, rfl, rfl, hrest⟩

theorem write_next {bytes : Str} (hm : Midway s h none) (hf : SoleFile s fd f ip)
    (hinum : (s.inode ip).inum = m) (htype : (tree s m).type = T_FILE)
    (hmode : (s.file f).writable = FILE_WRITEABLE)
    (hoff : (s.file f).off ≤ (tree s m).contents.length) (hpos : bytes ≠ [])
    (hlen : bytes.length ≤ Cp.BUFSIZE)
    (hmax : (s.file f).off + bytes.length ≤ MAXFILE * BSIZE) (hu : Stacked u)
    (hbuf : u.frame ≤ buf) (hend : buf + Cp.BUFSIZE ≤ u.sz)
    (hrun : (Ulib.write (u.stored buf bytes) fd.val buf bytes.length).run s = .ok (r, s')) :
    r = bytes.length ∧ Midway s' h none ∧ Overwritten s m (s.file f).off bytes s' ∧
      Through s f ((s.file f).off + bytes.length) s' := by
  have hu' : Stacked (u.stored buf bytes) := hu.stored
  have hcount : bytes.length < 2 ^ 31 := hlen.trans_lt (by decide)
  have hlt : bytes.length < 2 ^ 32 := hcount.trans (by decide)
  have hroom : buf + bytes.length ≤ u.sz := (Nat.add_le_add_left hlen buf).trans hend
  have hint : int (bytes.length : Nat) = (bytes.length : Nat) :=
    int_of_lt (by omega) (by exact_mod_cast hcount)
  rw [Ulib.write, uint_fd, uint_of_lt hlt, sys_write,
    Prog.bind_eq (argfd_open (argint_calling hu' (by simp) rfl (fd_lt fd)) hf.fd),
    argint_calling hu' (by simp) rfl hlt] at hrun
  simp only at hrun
  rw [hint, argptr_calling hu' (by simp) rfl (List.length_pos_iff.mpr hpos)
    hroom] at hrun
  simp only at hrun
  rw [bytes_stored (by simp) hbuf] at hrun
  exact filewrite_next hm hf hinum htype hmode hoff hpos
    (hlen.trans (by decide)) hmax hrun

/-! ## The loop -/

/-- `cp` has copied the first `off` bytes of `old`, which its input holds. -/
structure Copying (ifd : Fin NOFILE) (f : FileSlot) (ip : Slot) (m : Nat) (ofd : Fin NOFILE)
    (g : FileSlot) (op : Slot) (k : Nat) (old : Str) (off : Nat) (s : Kernel) : Prop where
  midway : Midway s (one ip + one op) none
  input : SoleFile s ifd f ip
  inInum : (s.inode ip).inum = m
  readable : (s.file f).readable = true
  inOff : (s.file f).off = off
  output : SoleFile s ofd g op
  outInum : (s.inode op).inum = k
  mode : (s.file g).writable = FILE_WRITEABLE
  outOff : (s.file g).off = off
  apart : g ≠ f
  source : tree s m = ⟨T_FILE, old⟩
  copied : tree s k = ⟨T_FILE, old.take off⟩
  within : off ≤ old.length

theorem Copying.held (hc : Copying ifd f ip m ofd g op k old off s) :
    0 < (s.inode ip).ref ∧ 0 < (s.inode op).ref := by
  have hip := hc.midway.held ip
  have hop := hc.midway.held op
  simp only [Pi.add_apply, one_self] at hip hop
  exact ⟨by omega, by omega⟩

/-- A held entry keeps its number. -/
theorem Through.inum (ht : Through s f off s') (hpos : 0 < (s.inode ip).ref) :
    (s'.inode ip).inum = (s.inode ip).inum :=
  (ht.moves.pinned ip (by simpa using hpos)).inum

/-- A file is no larger than a block map can hold. -/
theorem Sound.bounded (hs : Sound s) (hn : (s.dinode n).type ≠ 0) :
    (tree s n).contents.length ≤ MAXFILE * BSIZE := by
  have hlen : (tree s n).contents.length = (s.dinode n).size := length_span ..
  rw [hlen]
  exact (hs.filled n hn).bounded

theorem take_piece {l : Str} (i n : Nat) :
    l.take (i + ((l.drop i).take n).length) = l.take i ++ (l.drop i).take n := by
  rw [List.take_add, List.length_take, ← List.take_take, List.take_length]

/-- A piece was read. -/
theorem Copying.read (hc : Copying ifd f ip m ofd g op k old off s) (hu : Stacked u)
    (hend : buf + Cp.BUFSIZE ≤ u.sz)
    (hrun : (Ulib.read u ifd.val buf Cp.BUFSIZE).run s = .ok ((r, u'), s')) :
    ∃ bytes, bytes = (old.drop off).take Cp.BUFSIZE ∧ r = bytes.length ∧
      u' = u.stored buf bytes ∧ SameDisk s s' ∧ Midway s' (one ip + one op) none ∧
      Through s f (off + bytes.length) s' := by
  have hinOff := hc.inOff
  have hsource := hc.source
  obtain ⟨bytes, hbytes, hr, hu', hm', hd, ht⟩ := read_next hc.midway hc.input hc.inInum
    (by rw [hsource]) hc.readable (by rw [hsource, hinOff]; exact hc.within) hu hend hrun
  rw [hsource, hinOff] at hbytes
  rw [hinOff] at ht
  exact ⟨bytes, hbytes, hr, hu', hd, hm', ht⟩

theorem Overwritten.sameDirs {src : Str} (ho : Overwritten s m off src s')
    (hfile : (tree s m).type ≠ T_DIR) : SameDirs (tree s) (tree s') := by
  refine ⟨fun n => ?_, fun n hn => ho.others n (fun hzero => ?_) fun hnm => hfile (hnm ▸ hn)⟩
  · show (s'.dinode n).type = T_DIR ↔ (s.dinode n).type = T_DIR
    rw [ho.types]
  · exact absurd (hzero.symm.trans hn) (by decide)

/-- Nothing more was read. -/
theorem Copying.stays (hc : Copying ifd f ip m ofd g op k old off s) (hd : SameDisk s s')
    (hm' : Midway s' (one ip + one op) none) (ht : Through s f off s') :
    Copying ifd f ip m ofd g op k old off s' := by
  obtain ⟨hip, hop⟩ := hc.held
  have htree := hd.tree
  have hinput := ht.file_self
  have houtput := ht.file_of_ne hc.apart
  constructor
  case midway => exact hm'
  case input => exact ht.sole hc.input
  case inInum => exact (ht.inum hip).trans hc.inInum
  case readable =>
    rw [hinput]
    exact hc.readable
  case inOff => rw [hinput]
  case output => exact ht.sole hc.output
  case outInum => exact (ht.inum hop).trans hc.outInum
  case mode =>
    rw [houtput]
    exact hc.mode
  case outOff =>
    rw [houtput]
    exact hc.outOff
  case apart => exact hc.apart
  case source =>
    rw [htree]
    exact hc.source
  case copied =>
    rw [htree]
    exact hc.copied
  case within => exact hc.within

/-- The piece that was read is written. -/
theorem Copying.written {bytes : Str} (hc : Copying ifd f ip m ofd g op k old off s)
    (hmk : m ≠ k) (hu : Stacked u) (hbuf : u.frame ≤ buf) (hend : buf + Cp.BUFSIZE ≤ u.sz)
    (hbytes : bytes = (old.drop off).take Cp.BUFSIZE) (hpos : bytes ≠ [])
    (hd : SameDisk s s₁) (hm₁ : Midway s₁ (one ip + one op) none)
    (ht : Through s f (off + bytes.length) s₁)
    (hrun : (Ulib.write (u.stored buf bytes) ofd.val buf bytes.length).run s₁ = .ok (r, s')) :
    r = bytes.length ∧ Copying ifd f ip m ofd g op k old (off + bytes.length) s' ∧
      SameDirs (tree s) (tree s') := by
  obtain ⟨hip, hop⟩ := hc.held
  have htree := hd.tree
  have hsource : tree s₁ m = ⟨T_FILE, old⟩ := by rw [htree, hc.source]
  have hcopied : tree s₁ k = ⟨T_FILE, old.take off⟩ := by rw [htree, hc.copied]
  have htype : ∀ {n : Nat} {l : Str}, tree s₁ n = ⟨T_FILE, l⟩ → (s₁.dinode n).type ≠ 0 := by
    intro n l hn
    have : (s₁.dinode n).type = T_FILE := congrArg Node.type hn
    rw [this]
    decide
  have hlen : (old.take off).length = off := List.length_take_of_le hc.within
  have hwithin : off + bytes.length ≤ old.length := by
    rw [hbytes, List.length_take, List.length_drop]
    have := hc.within
    omega
  have hbounded := hm₁.sound.bounded (htype hsource)
  rw [hsource] at hbounded
  have hfile : s₁.file g = s.file g := ht.file_of_ne hc.apart
  have hoff : (s₁.file g).off = off := by rw [hfile, hc.outOff]
  obtain ⟨rfl, hm', hover, ht'⟩ := write_next hm₁ (ht.sole hc.output)
    ((ht.inum hop).trans hc.outInum) (by rw [hcopied]) (by rw [hfile]; exact hc.mode)
    (by rw [hoff, hcopied, hlen]) hpos (hbytes ▸ List.length_take_le _ _)
    (by rw [hoff]; exact hwithin.trans hbounded) hu hbuf hend hrun
  rw [hoff] at hover ht'
  have hip₁ := ht.moves.keeps_pos hip
  have hop₁ := ht.moves.keeps_pos hop
  have hinput := ht.file_self
  have hinput' : s'.file f = s₁.file f := ht'.file_of_ne hc.apart.symm
  refine ⟨rfl, ?_, ?_⟩
  · constructor
    case midway => exact hm'
    case input => exact ht'.sole (ht.sole hc.input)
    case inInum => exact (ht'.inum hip₁).trans ((ht.inum hip).trans hc.inInum)
    case readable =>
      rw [hinput', hinput]
      exact hc.readable
    case inOff => rw [hinput', hinput]
    case output => exact ht'.sole (ht.sole hc.output)
    case outInum => exact (ht'.inum hop₁).trans ((ht.inum hop).trans hc.outInum)
    case mode =>
      rw [ht'.file_self, hfile]
      exact hc.mode
    case outOff => rw [ht'.file_self]
    case apart => exact hc.apart
    case source =>
      rw [hover.others m (htype hsource) hmk]
      exact hsource
    case copied =>
      have hsplice : splice (old.take off) off bytes = old.take off ++ bytes := by
        rw [splice, List.take_of_length_le (by omega), List.drop_of_length_le (by omega),
          List.append_nil]
      rw [hover.self, hcopied, hsplice, hbytes, take_piece]
    case within => exact hwithin
  · rw [← htree]
    refine hover.sameDirs ?_
    rw [hcopied]
    show T_FILE ≠ T_DIR
    decide

/-- The loop copies what is left, if it does not read what it writes. -/
theorem copy_copies {v : Unit} (hc : Copying ifd f ip m ofd g op k old off s)
    (hmk : old ≠ [] → m ≠ k) (hu : Stacked u) (hbuf : u.frame ≤ buf)
    (hend : buf + Cp.BUFSIZE ≤ u.sz)
    (hrun : (Cp.copy ifd.val ofd.val buf fuel u).run s = .ok (v, s')) :
    Copying ifd f ip m ofd g op k old old.length s' ∧ SameDirs (tree s) (tree s') := by
  induction fuel generalizing s u off with
  | zero => exact absurd hrun (by simp [Cp.copy])
  | succ fuel ih =>
      rw [Cp.copy, Prog.bind_ok] at hrun
      obtain ⟨⟨n, u'⟩, s₁, hread, hrun⟩ := hrun
      obtain ⟨bytes, hbytes, rfl, rfl, hd, hm₁, ht⟩ := hc.read hu hend hread
      simp only at hrun
      by_cases hpos : bytes = []
      · -- the end of the input
        have hzero : ¬(bytes.length : Int) > 0 := by simp [hpos]
        rw [if_neg hzero] at hrun
        obtain ⟨-, rfl⟩ := Prog.pure_ok.mp hrun
        have hend : off = old.length := by
          rw [hpos] at hbytes
          have hlen := congrArg List.length hbytes
          rw [List.length_take, List.length_drop] at hlen
          have hwithin := hc.within
          have hsize : Cp.BUFSIZE = 512 := rfl
          simp only [List.length_nil] at hlen
          omega
        rw [hpos, List.length_nil, Nat.add_zero] at ht
        rw [hd.tree, ← hend]
        exact ⟨hc.stays hd hm₁ ht, .refl _⟩
      · have hlen : 0 < bytes.length := List.length_pos_iff.mpr hpos
        rw [if_pos (by omega), Prog.bind_ok] at hrun
        obtain ⟨res, s₂, hwrite, hrun⟩ := hrun
        have hold : old ≠ [] := by
          rintro rfl
          exact hpos (by rw [hbytes]; simp)
        obtain ⟨rfl, hc', hdirs⟩ := hc.written (hmk hold) hu hbuf hend hbytes hpos hd hm₁ ht hwrite
        rw [if_pos (by omega)] at hrun
        obtain ⟨hc'', hdirs'⟩ := ih hc' hu.stored hbuf hend hrun
        exact ⟨hc'', hdirs.trans hdirs'⟩

/-! ## The whole function -/

/-- What the path names is a file with the bytes `l`. -/
def Reads (t : FileTree) (cwd : Nat) (path l : Str) : Prop :=
  ∃ m, resolve t cwd path = some m ∧ (t m).contents = l

/-- A path keeps its file when another is given, or keeps, a file of its own. -/
theorem Rebound.resolve_kept {t t' : FileTree} {c d : Nat} {a p q : Str}
    (hr : Rebound t t' d a (some k)) (hq : Fs.resolveParent t c q = some (d, a))
    (hsource : resolve t c q = some k ∨ resolve t c q = none)
    (hp : resolve t c p = some m) : resolve t' c p = some m := by
  by_cases hat : ∃ b, Fs.resolveParent t c p = some (d, b) ∧ namecmp b a = true
  · obtain ⟨b, hb, hname⟩ := hat
    have hsame : resolve t c q = some m := by
      rw [← hp, (resolve_of_parent hb).2, (resolve_of_parent hq).2, lookup_congr hname]
    rw [hr.resolve_here hb hname]
    rcases hsource with hk | hnone
    · rw [← hk, hsame]
    · rw [hnone] at hsame
      exact absurd hsame (by simp)
  · rw [hr.resolve_other fun b hb hname => hat ⟨b, hb, hname⟩]
    exact hp

/-- The two files are open, and nothing has been copied. -/
theorem OpenedTrunc.copying {c : Nat} (ho : OpenedRead s inPath c ifd f ip m s₁)
    (ht : OpenedTrunc s₁ outPath c (one ip) ofd g op k s') (hfile : (tree s m).type = T_FILE) :
    Copying ifd f ip m ofd g op k (if k = m then [] else (tree s m).contents) 0 s' := by
  obtain ⟨hsole, hsame, -, hapart⟩ := ht.kept ho.sole
  have hpos : 0 < (s₁.inode ip).ref := by
    have := ho.midway.held ip
    rw [one_self] at this
    omega
  have htree := ho.disk.tree
  have htype : (s₁.dinode m).type = T_FILE := by
    rw [ho.disk.dinode]
    exact hfile
  constructor
  case midway => exact ht.midway
  case input => exact hsole
  case inInum => exact (ht.moves.pinned ip (by simpa using hpos)).inum.trans ho.inum
  case readable =>
    rw [hsame, ho.opened]
    rfl
  case inOff =>
    rw [hsame, ho.opened]
    rfl
  case output => exact ht.sole
  case outInum => exact ht.inum
  case mode => exact ht.mode
  case outOff => exact ht.off
  case apart => exact hapart.symm
  case source =>
    by_cases hkm : k = m
    · rw [if_pos hkm, ← hkm]
      exact ht.node
    · rw [if_neg hkm, ht.others m (by rw [htype]; decide) (by rw [htype]; decide)
        (Ne.symm hkm), htree, ← hfile]
  case copied => exact ht.node
  case within => exact Nat.zero_le _

/-- The descriptors are closed, and that changes no file. -/
theorem Copying.close {r₁ r₂ : Int} (hc : Copying ifd f ip m ofd g op k old off s)
    (hfds : ifd ≠ ofd) (hu : Stacked u) (hclose : (Ulib.close u ofd.val).run s = .ok (r₁, s₁))
    (hclose' : (Ulib.close u ifd.val).run s₁ = .ok (r₂, s')) : SameDisk s s' := by
  rw [Ulib.close, uint_fd] at hclose hclose'
  have hclosed := sys_close_sole hc.midway hc.output
    (argint_calling hu (by simp) rfl (fd_lt ofd)) hclose
  have hm₁ := hclosed.midway
  rw [← zero_add (one ip)] at hm₁
  have hclosed' := sys_close_sole hm₁ (hclosed.others hfds hc.apart.symm hc.input)
    (argint_calling hu (by simp) rfl (fd_lt ifd)) hclose'
  exact hclosed.disk.trans hclosed'.disk

/-- `cp` copies unless it emptied its input by opening its output. -/
theorem cp_copies_iff (hc : Consistent s cwd) (hinodes : s.sb.ninodes ≤ 65536) (hu : Stacked u)
    (hin : StringAt u iname inPath) (hout : StringAt u oname outPath) (hbuf : u.frame ≤ buf)
    (hend : buf + Cp.BUFSIZE ≤ u.sz)
    (hsrc : resolve (tree s) (s.inode cwd).inum inPath = some m)
    (hfile : (tree s m).type = T_FILE)
    (hrun : (Cp.cp u buf fuel oname iname).run s = .ok (true, s')) :
    (Reads (tree s') (s.inode cwd).inum outPath (tree s m).contents ∧
        Reads (tree s') (s.inode cwd).inum inPath (tree s m).contents) ↔
      resolve (tree s) (s.inode cwd).inum outPath ≠ some m ∨ (tree s m).contents = [] := by
  rw [Cp.cp, Prog.bind_ok] at hrun
  obtain ⟨r₁, s₁, hopen, hrun⟩ := hrun
  rcases sys_open_read hc.sound hc.cwdIs hc.closed (hin.argstr hu (by simp) rfl)
    (argint_calling hu (by simp) rfl (by decide)) hopen with
    ⟨rfl, -, -, -, -⟩ | ⟨ifd, f, ip, m', rfl, ho⟩
  · rw [if_neg (by decide)] at hrun
    exact absurd (Prog.pure_ok.mp hrun).1 (by decide)
  obtain rfl : m = m' := Option.some.inj (hsrc.symm.trans ho.found)
  have htree := ho.disk.tree
  obtain ⟨hcwd₁, hinum₁⟩ := ho.moves.cwdIs ho.cwd hc.cwdIs
  rw [if_pos (by omega), Prog.bind_ok] at hrun
  obtain ⟨r₂, s₂, hopen₂, hrun⟩ := hrun
  by_cases hr₂ : r₂ ≥ 0
  · obtain ⟨ofd, g, op, k, rfl, ht⟩ := sys_open_trunc ho.midway hcwd₁
      (by rw [htree, hinum₁]; exact hc.rooted) (by rw [htree]; exact hc.distinct)
      (by rw [ho.disk.sb]; exact hinodes) ho.closed (hout.argstr hu (by simp) rfl)
      (argint_calling hu (by simp) rfl (by decide)) hopen₂ hr₂
    rw [hinum₁] at ht
    rw [if_pos hr₂, Prog.bind_ok] at hrun
    obtain ⟨_, s₃, hcopy, hrun⟩ := hrun
    rw [Prog.bind_ok] at hrun
    obtain ⟨_, s₄, hclose, hrun⟩ := hrun
    rw [Prog.bind_ok] at hrun
    obtain ⟨_, s₅, hclose', hrun⟩ := hrun
    obtain ⟨-, rfl⟩ := Prog.pure_ok.mp hrun
    obtain ⟨hcopied, hdirs⟩ := copy_copies (ht.copying ho hfile)
      (fun hold hmk => hold (by rw [if_pos hmk.symm])) hu hbuf hend hcopy
    have hfinal := (hcopied.close (ht.kept ho.sole).2.2.1 hu hclose hclose').tree
    obtain ⟨d, a, hparent, hreb⟩ := ht.named
    have hsource := ht.source
    rw [ho.disk.dinode] at hsource
    rw [htree] at hparent hreb hsource
    have hrebound := hreb.later hdirs
    have houtname := hrebound.resolve_here hparent (namecmp_iff.mpr rfl)
    have hinname := hrebound.resolve_kept hparent (hsource.imp_right And.left) hsrc
    have houtput := congrArg Node.contents hcopied.copied
    have hinput := congrArg Node.contents hcopied.source
    simp only [List.take_length] at houtput hinput
    unfold Reads
    rw [hfinal, houtname, hinname]
    simp only [Option.some.injEq, exists_eq_left', houtput, hinput]
    by_cases hkm : k = m
    · subst hkm
      have hsame : resolve (tree s) (s.inode cwd).inum outPath = some k := by
        refine hsource.resolve_right fun h => ?_
        exact absurd (h.2.symm.trans hfile) (by decide)
      simp only [if_true, hsame, ne_eq, not_true_eq_false, false_or, and_self]
      exact eq_comm
    · have hother : resolve (tree s) (s.inode cwd).inum outPath ≠ some m := by
        rcases hsource with hk | ⟨hnone, -⟩
        · rw [hk]
          exact fun h => hkm (Option.some.inj h)
        · rw [hnone]
          simp
      rw [if_neg hkm]
      exact iff_of_true ⟨rfl, rfl⟩ (Or.inl hother)
  · rw [if_neg hr₂, Prog.bind_ok] at hrun
    obtain ⟨_, s₃, -, hrun⟩ := hrun
    exact absurd (Prog.pure_ok.mp hrun).1 (by decide)

/-! ## One file -/

/-- A process with the strings `a` and `b` and room for a buffer. -/
def copyUser : User := { abUser with sz := 1024 }

theorem copyUser_stacked : Stacked copyUser := ⟨by decide, by decide⟩

theorem copyUser_a : StringAt copyUser 32 [97] := ⟨by decide, by decide, by decide⟩

theorem copyUser_b : StringAt copyUser 40 [98] := ⟨by decide, by decide, by decide⟩

/-- What `oname` names after `cp`, and its bytes. -/
def cpOutcome (oname iname : Nat) (outPath : Str) : Option (Bool × Option (Nat × Str)) :=
  match (Cp.cp copyUser 64 3 oname iname).run Plain.oneFile with
  | .ok (done, s') => some (done,
      (resolve (tree s') 1 outPath).map fun k => (k, (tree s' k).contents))
  | .error _ => none

theorem exists_of_cpOutcome {bytes : Str}
    (h : cpOutcome oname iname outPath = some (true, some (k, bytes))) :
    ∃ s', (Cp.cp copyUser 64 3 oname iname).run Plain.oneFile = .ok (true, s') ∧
      resolve (tree s') 1 outPath = some k ∧ (tree s' k).contents = bytes := by
  unfold cpOutcome at h
  split at h
  · rename_i done s' hrun
    obtain ⟨rfl, hfound⟩ := Prod.mk.inj (Option.some.inj h)
    obtain ⟨j, hj, hpair⟩ := Option.map_eq_some_iff.mp hfound
    obtain ⟨rfl, hbytes⟩ := Prod.mk.inj hpair
    exact ⟨s', hrun, hj, hbytes⟩
  · exact absurd h (by simp)

/-- `cp` of `a` to `b` copies. -/
theorem cp_copies_iff_fresh : ∃ s',
    (Cp.cp copyUser 64 3 40 32).run Plain.oneFile = .ok (true, s') ∧
      Reads (tree s') 1 [98] [7, 7, 7, 7, 7] ∧ Reads (tree s') 1 [97] [7, 7, 7, 7, 7] := by
  have hout : cpOutcome 40 32 [98] = some (true, some (3, [7, 7, 7, 7, 7])) := by decide +kernel
  obtain ⟨s', hrun, -, -⟩ := exists_of_cpOutcome hout
  have hfound : resolve (tree Plain.oneFile) 1 [97] = some 2 := by decide +kernel
  have hnone : resolve (tree Plain.oneFile) 1 [98] = none := by decide +kernel
  have hbytes : (tree Plain.oneFile 2).contents = [7, 7, 7, 7, 7] := by decide +kernel
  have hcopied := (cp_copies_iff Plain.oneFile_consistent (by decide) copyUser_stacked copyUser_a
    copyUser_b (by decide) (by decide) hfound rfl hrun).mpr (Or.inl (by
      rw [show (Plain.oneFile.inode 0).inum = 1 from rfl, hnone]
      simp))
  rw [hbytes] at hcopied
  exact ⟨s', hrun, hcopied⟩

/-- `cp` of `a` to itself empties it. -/
theorem cp_empties : ∃ s', (Cp.cp copyUser 64 3 32 32).run Plain.oneFile = .ok (true, s') ∧
    (tree Plain.oneFile 2).type = T_FILE ∧ Reads (tree Plain.oneFile) 1 [97] [7, 7, 7, 7, 7] ∧
    ¬Reads (tree s') 1 [97] [7, 7, 7, 7, 7] := by
  have hout : cpOutcome 32 32 [97] = some (true, some (2, [])) := by decide +kernel
  obtain ⟨s', hrun, hfound, hempty⟩ := exists_of_cpOutcome hout
  have hbefore : resolve (tree Plain.oneFile) 1 [97] = some 2 := by decide +kernel
  have hbytes : (tree Plain.oneFile 2).contents = [7, 7, 7, 7, 7] := by decide +kernel
  refine ⟨s', hrun, rfl, ⟨2, hbefore, hbytes⟩, fun h => ?_⟩
  obtain ⟨m, hm, hread⟩ := h
  obtain rfl := Option.some.inj (hfound.symm.trans hm)
  rw [hempty] at hread
  exact absurd hread (by simp)

end Fs
end CS444
