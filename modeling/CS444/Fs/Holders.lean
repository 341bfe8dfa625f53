/-
Who holds the references between calls.

The current directories of processes and the open files of type `FD_INODE` hold
references to inodes.  `Kept P s h` is the invariant of the kernel while the
code at hand holds `h` more: they are all counted, the cache is coherent, files
nobody refers to are of no type, and every open inode file refers to an inode
that was read from the disk, whose type agrees with the file's `writable` as
`P` demands.  References that nobody holds are not excluded, since calls leak
them.
-/
import CS444.Fs.Open

namespace CS444
namespace Fs

open Program Ledger

/-- The reference a current directory holds. -/
def cwdOf (p : Proc) : Slot → Nat := ofOption p.cwd

/-- The reference an open file holds. -/
def inodeOf (file : File) : Slot → Nat :=
  if file.type = .inode then ofOption file.ip else 0

/-- The references processes and files hold. -/
def held (s : Kernel) : Slot → Nat := holdings cwdOf s.proc + holdings inodeOf s.file

/-- The file `f` refers to an inode read from the disk that `P` admits. -/
def FileGood (P : Nat → Int → Prop) (s : Kernel) (f : FileSlot) : Prop :=
  ∃ ip, (s.file f).ip = some ip ∧ (s.inode ip).valid = true ∧
    P (s.file f).writable (s.inode ip).type

/-- The invariant between calls, beside the references `h`. -/
structure Kept (P : Nat → Int → Prop) (s : Kernel) (h : Slot → Nat) : Prop where
  cache : CacheOk s
  closed : FilesClosed s
  counted : ∀ k, ((held s k + h k : Nat) : Int) ≤ (s.inode k).ref
  good : ∀ f, (s.file f).type = .inode → FileGood P s f

variable {P : Nat → Int → Prop} {s s₁ s' : Kernel} {h h' m m' : Slot → Nat} {ip : Slot}
  {f : FileSlot}

/-- Write `p` over the process table entry `q`. -/
def withProcAt (s : Kernel) (q : ProcSlot) (p : Proc) : Kernel :=
  { s with proc := Function.update s.proc q p }

theorem withProc_eq (p : Proc) : withProc s p = withProcAt s s.cur p := rfl

/-- An open file is still the same open file. -/
structure SameOpen (old new : File) : Prop where
  type : old.type = .inode
  ip : new.ip = old.ip
  writable : new.writable = old.writable

theorem inodeOf_of_inode {file : File} (htype : file.type = .inode) :
    inodeOf file = ofOption file.ip := if_pos htype

theorem inodeOf_of_ne {file : File} (htype : file.type ≠ .inode) : inodeOf file = 0 :=
  if_neg htype

theorem inodeOf_le_file (htype : (s.file f).type = .inode) (hip : (s.file f).ip = some ip) :
    1 ≤ holdings inodeOf s.file ip := by
  have hone : inodeOf (s.file f) ip = 1 := by
    rw [inodeOf_of_inode htype, hip]
    exact one_self ip
  have := le_holdings inodeOf s.file f ip
  omega

theorem cwdOf_le_proc {p : ProcSlot} (hcwd : (s.proc p).cwd = some ip) :
    1 ≤ holdings cwdOf s.proc ip := by
  have hone : cwdOf (s.proc p) ip = 1 := by
    rw [cwdOf, hcwd]
    exact one_self ip
  have := le_holdings cwdOf s.proc p ip
  omega

theorem held_withFile (file : File) (k : Slot) :
    held (withFile s f file) k + inodeOf (s.file f) k = held s k + inodeOf file k := by
  have := holdings_update inodeOf s.file f file k
  simp only [held, withFile, Pi.add_apply]
  omega

theorem held_withProcAt (q : ProcSlot) (p : Proc) (k : Slot) :
    held (withProcAt s q p) k + cwdOf (s.proc q) k = held s k + cwdOf p k := by
  have := holdings_update cwdOf s.proc q p k
  simp only [held, withProcAt, Pi.add_apply]
  omega

/-! ## What the invariant gives -/

theorem Kept.cwdOk (hk : Kept P s h) : CwdOk s := by
  intro k hcwd
  have hcounted := hk.counted k
  have := cwdOf_le_proc hcwd
  rw [held, Pi.add_apply] at hcounted
  omega

theorem Kept.inUse (hk : Kept P s h) (htype : (s.file f).type = .inode)
    (hip : (s.file f).ip = some ip) : InUse s ip := by
  obtain ⟨ip', hip', hvalid, -⟩ := hk.good f htype
  obtain rfl : ip = ip' := Option.some.inj (hip.symm.trans hip')
  have hcounted := hk.counted ip
  have := inodeOf_le_file htype hip
  rw [held, Pi.add_apply] at hcounted
  exact ⟨hvalid, by omega⟩

/-! ## Keeping the invariant -/

/-- A step that moves `m` to `m'` and changes the tables accordingly; what it
gives up is the code's or a process's. -/
theorem Kept.step (hk : Kept P s h) (hm : InodeMoves s m s' m')
    (hle : ∀ k, m k ≤ holdings cwdOf s.proc k + h k) (hclosed : FilesClosed s')
    (hheld : ∀ k, held s' k + h' k + m k ≤ held s k + h k + m' k)
    (hgood : ∀ f, (s'.file f).type = .inode →
      SameOpen (s.file f) (s'.file f) ∨ FileGood P s' f) : Kept P s' h' := by
  refine ⟨hm.cache hk.cache fun k => ?_, hclosed, fun k => ?_, fun f htype => ?_⟩
  · have hcounted := hk.counted k
    have := hle k
    rw [held, Pi.add_apply] at hcounted
    omega
  · have := hk.counted k
    have := hm.ref_eq k
    have := hheld k
    push_cast at *
    omega
  · rcases hgood f htype with hsame | hgood
    · obtain ⟨ip, hip, hvalid, hP⟩ := hk.good f hsame.type
      have hcounted := hk.counted ip
      have := inodeOf_le_file hsame.type hip
      have := hle ip
      rw [held, Pi.add_apply] at hcounted
      obtain ⟨hvalid', htype'⟩ := (hm.pinned ip (by omega)).valid hvalid
      refine ⟨ip, hsame.ip.trans hip, hvalid', ?_⟩
      rw [hsame.writable, htype']
      exact hP
    · exact hgood

/-- References that are no longer needed. -/
theorem Kept.forget (hk : Kept P s h) (hle : ∀ k, h' k ≤ h k) : Kept P s h' := by
  refine ⟨hk.cache, hk.closed, fun k => ?_, hk.good⟩
  have := hk.counted k
  have := hle k
  omega

/-- Code that touches no other table. -/
theorem Kept.moves (hk : Kept P s h) (hm : Moves s h s' h') : Kept P s' h' := by
  have hsame : held s' = held s := by
    unfold held
    rw [hm.tables.file, hm.tables.proc]
  refine hk.step hm.toInodeMoves (fun _ => Nat.le_add_left _ _) (fun f => ?_) (fun k => ?_)
    fun f htype => ?_
  · rw [hm.tables.file]
    exact hk.closed f
  · rw [hsame]
    omega
  · rw [hm.tables.file] at htype ⊢
    exact Or.inl ⟨htype, rfl, rfl⟩

/-- Code that takes nothing over. -/
theorem Kept.beside (hk : Kept P s h) (hm : Moves s 0 s' h') : Kept P s' (h + h') :=
  hk.moves (hm.beside h)

theorem Kept.keys (hk : Kept P s h) (hkeys : SameKeys s s') : Kept P s' h :=
  hk.moves (hkeys.moves h)

/-- A change of a file: references go from the code to the file or back. -/
theorem Kept.withFile {file : File} (hk : Kept P s h)
    (hheld : ∀ k, h' k + inodeOf file k ≤ h k + inodeOf (s.file f) k)
    (hclosed : file.ref = 0 → file.type = .none)
    (hgood : file.type = .inode → SameOpen (s.file f) file ∨
      FileGood P (withFile s f file) f) : Kept P (withFile s f file) h' := by
  refine hk.step (inodeMoves_withFile f file 0) (fun _ => Nat.zero_le _) (fun f' => ?_)
    (fun k => ?_) fun f' htype => ?_
  · by_cases hf : f' = f
    · subst hf
      rw [withFile_self]
      exact hclosed
    · rw [withFile_of_ne hf]
      exact hk.closed f'
  · have := held_withFile (s := s) (f := f) file k
    have := hheld k
    simp only [Pi.zero_apply]
    omega
  · by_cases hf : f' = f
    · subst hf
      rw [withFile_self] at htype ⊢
      exact hgood htype
    · rw [withFile_of_ne hf] at htype ⊢
      exact Or.inl ⟨htype, rfl, rfl⟩

/-- A change of a file that stays the same open file. -/
theorem Kept.withSameFile {file : File} (hk : Kept P s h)
    (hclosed : file.ref = 0 → file.type = .none) (htype : file.type = (s.file f).type)
    (hip : file.ip = (s.file f).ip) (hw : file.writable = (s.file f).writable) :
    Kept P (Fs.withFile s f file) h := by
  refine hk.withFile (fun k => ?_) hclosed fun htype' => Or.inl ⟨htype.symm.trans htype', hip, hw⟩
  unfold inodeOf
  rw [htype, hip]

/-- A change of a process. -/
theorem Kept.withProcAt {q : ProcSlot} {p : Proc} (hk : Kept P s h)
    (hheld : ∀ k, h' k + cwdOf p k ≤ h k + cwdOf (s.proc q) k) :
    Kept P (withProcAt s q p) h' := by
  have hm : InodeMoves s 0 (Fs.withProcAt s q p) 0 := by
    apply InodeMoves.of_eq <;> rfl
  refine hk.step hm (fun _ => Nat.zero_le _) hk.closed (fun k => ?_)
    fun f htype => Or.inl ⟨htype, rfl, rfl⟩
  have := held_withProcAt (s := s) q p k
  have := hheld k
  simp only [Pi.zero_apply]
  omega

/-- A change of a process's descriptors. -/
theorem Kept.withSameProc {q : ProcSlot} {p : Proc} (hk : Kept P s h)
    (hcwd : p.cwd = (s.proc q).cwd) : Kept P (Fs.withProcAt s q p) h :=
  hk.withProcAt fun k => by rw [cwdOf, cwdOf, hcwd]

end Fs
end CS444
