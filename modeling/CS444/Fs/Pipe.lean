/-
`pipe.c`: a pipe is a queue.

Every function of `pipe.c` changes one pipe and nothing else of the kernel but
the free pages.  As long as somebody may read, `pipewrite` puts all its bytes
behind those the pipe holds, and `piperead` takes bytes off the front.
-/
import CS444.Lib.RingQueue
import CS444.Fs.File

namespace CS444
namespace Fs

open Program RingQueue

/-- The pipe holds these bytes, the next to be read first. -/
def Holds (q : Pipe) (bytes : Str) : Prop :=
  Queued q.data PIPESIZE (2 ^ 32) q.nread q.nwrite bytes

/-- The ends of a pipe are open or closed as they were. -/
structure SameEnds (q q' : Pipe) : Prop where
  readopen : q'.readopen = q.readopen
  writeopen : q'.writeopen = q.writeopen

theorem SameEnds.refl (q : Pipe) : SameEnds q q := ⟨rfl, rfl⟩

theorem SameEnds.trans {q q₁ q' : Pipe} (hab : SameEnds q q₁) (hbc : SameEnds q₁ q') :
    SameEnds q q' :=
  ⟨hbc.readopen.trans hab.readopen, hbc.writeopen.trans hab.writeopen⟩

/-- Write `q` over the pipe `p`. -/
def withPipe (s : Kernel) (p : Nat) (q : Pipe) : Kernel :=
  { s with pipe := Function.update s.pipe p q }

variable {s s' : Kernel} {p n : Nat} {q q' : Pipe}

@[simp] theorem setPipe_bind_run {α : Type} (g : Pipe → Pipe) (k : Unit → K α) :
    (setPipe p g >>= k).run s = (k ()).run (withPipe s p (g (s.pipe p))) := rfl

@[simp] theorem withPipe_self : (withPipe s p q).pipe p = q := Function.update_self ..

theorem withPipe_of_ne {p' : Nat} (hp : p' ≠ p) : (withPipe s p q).pipe p' = s.pipe p' :=
  Function.update_of_ne hp ..

@[simp] theorem withPipe_withPipe : withPipe (withPipe s p q) p q' = withPipe s p q' := by
  simp [withPipe]

@[simp] theorem withPipe_eq_self : withPipe s p (s.pipe p) = s := by
  simp [withPipe]

theorem dvd_counters : PIPESIZE ∣ 2 ^ 32 := ⟨2 ^ 23, rfl⟩

theorem lt_counters : PIPESIZE < 2 ^ 32 := by decide

/-! ## Closing -/

/-- A pipe with one end closed. -/
def closedEnd (writable : Nat) (q : Pipe) : Pipe :=
  if writable ≠ 0 then { q with writeopen := false } else { q with readopen := false }

theorem closedEnd_holds {writable : Nat} {bytes : Str} :
    Holds (closedEnd writable q) bytes ↔ Holds q bytes := by
  unfold closedEnd
  split <;> exact Iff.rfl

theorem closedEnd_readopen {writable : Nat} :
    (closedEnd writable q).readopen = (decide (writable ≠ 0) && q.readopen) := by
  unfold closedEnd
  split <;> simp_all

theorem pipeclose_ok {writable : Nat} {u : Unit}
    (hrun : (pipeclose p writable).run s = .ok (u, s')) :
    ∃ pages, s' = { withPipe s p (closedEnd writable (s.pipe p)) with freePages := pages } := by
  rw [pipeclose, setPipe_bind_run, Prog.get_bind_run, Prog.when_ok] at hrun
  rcases hrun with ⟨-, hrun⟩ | ⟨-, rfl⟩
  · exact ⟨_, (Prog.modify_ok.mp hrun).symm⟩
  · exact ⟨_, rfl⟩

/-! ## Writing -/

/-- The pipe with one byte more. -/
def putByte (q : Pipe) (c : UInt8) : Pipe :=
  { q with
    data := Function.update q.data (q.nwrite % PIPESIZE) c
    nwrite := (q.nwrite + 1) % 2 ^ 32 }

/-- There is no room in the pipe. -/
def PipeFull (q : Pipe) : Prop := q.nwrite = (q.nread + PIPESIZE) % 2 ^ 32

theorem Holds.putByte {bytes : Str} (hq : Holds q bytes) (hroom : ¬PipeFull q) (c : UInt8) :
    Holds (putByte q c) (bytes ++ [c]) := by
  have hne : bytes.length ≠ PIPESIZE := fun hlen => hroom ((hq.full_iff lt_counters).mpr hlen)
  have hfits := hq.fits
  exact hq.push dvd_counters (by omega)

theorem pipewriteLoop_ok {total r : Int} {src : Str}
    (hrun : (pipewriteLoop p total src).run s = .ok (r, s')) :
    ∃ q', s' = withPipe s p q' ∧ SameEnds (s.pipe p) q' ∧
      (∀ bytes, Holds (s.pipe p) bytes → (s.pipe p).readopen = true → s.killed = false →
        Holds q' (bytes ++ src)) := by
  induction src generalizing s with
  | nil =>
      obtain ⟨-, rfl⟩ := Prog.pure_ok.mp hrun
      refine ⟨s.pipe p, by simp, .refl _, fun bytes hq _ _ => ?_⟩
      rw [List.append_nil]
      exact hq
  | cons c rest ih =>
      rw [pipewriteLoop, Prog.get_bind_run] at hrun
      simp only at hrun
      split at hrun
      · split at hrun
        · -- nobody will ever read
          rename_i hgone
          obtain ⟨-, rfl⟩ := Prog.pure_ok.mp hrun
          refine ⟨s.pipe p, by simp, .refl _, fun bytes _ hopen hkilled => ?_⟩
          simp [hopen, hkilled] at hgone
        · simp at hrun
      · rename_i hroom
        rw [setPipe_bind_run] at hrun
        obtain ⟨q', hs', hends, hheld⟩ := ih hrun
        rw [withPipe_self] at hends hheld
        rw [withPipe_withPipe] at hs'
        refine ⟨q', hs', ⟨hends.readopen, hends.writeopen⟩, fun bytes hq hopen hkilled => ?_⟩
        have := hheld (bytes ++ [c]) (hq.putByte hroom c) hopen hkilled
        rwa [List.append_assoc, List.singleton_append] at this

/-- A pipe nobody reads and that has no room takes nothing. -/
theorem pipewrite_refused {r : Int} {src : Str} (hfull : PipeFull (s.pipe p))
    (hgone : (s.pipe p).readopen = false ∨ s.killed = true)
    (hrun : (pipewrite p src).run s = .ok (r, s')) : s' = s := by
  cases src with
  | nil => exact (Prog.pure_ok.mp hrun).2.symm
  | cons c rest =>
      rw [pipewrite, pipewriteLoop, Prog.get_bind_run] at hrun
      simp only at hrun
      split at hrun
      · exact (Prog.pure_ok.mp hrun).2.symm
      · rename_i hroom
        exact absurd hfull hroom

/-! ## Reading -/

theorem pipereadLoop_ok {got : Str} (hrun : (pipereadLoop p n).run s = .ok (got, s')) :
    ∃ q', s' = withPipe s p q' ∧ SameEnds (s.pipe p) q' ∧
      ∀ bytes, Holds (s.pipe p) bytes → ∃ rest, bytes = got ++ rest ∧ Holds q' rest := by
  induction n generalizing s got with
  | zero =>
      obtain ⟨rfl, rfl⟩ := Prog.pure_ok.mp hrun
      exact ⟨s.pipe p, by simp, .refl _, fun bytes hq => ⟨bytes, rfl, hq⟩⟩
  | succ n ih =>
      rw [pipereadLoop, Prog.get_bind_run] at hrun
      simp only at hrun
      split at hrun
      · obtain ⟨rfl, rfl⟩ := Prog.pure_ok.mp hrun
        exact ⟨s.pipe p, by simp, .refl _, fun bytes hq => ⟨bytes, rfl, hq⟩⟩
      · rename_i hsome
        rw [setPipe_bind_run, Prog.bind_ok] at hrun
        obtain ⟨more, s₁, hloop, hrun⟩ := hrun
        obtain ⟨rfl, rfl⟩ := Prog.pure_ok.mp hrun
        obtain ⟨q', hs', hends, htake⟩ := ih hloop
        rw [withPipe_self] at hends htake
        rw [withPipe_withPipe] at hs'
        refine ⟨q', hs', ⟨hends.readopen, hends.writeopen⟩, fun bytes hq => ?_⟩
        cases bytes with
        | nil => exact absurd ((hq.eq_nil_iff lt_counters).mpr rfl) hsome
        | cons c bytes =>
            obtain ⟨hc, hpop⟩ := hq.pop dvd_counters
            obtain ⟨rest, rfl, hrest⟩ := htake bytes hpop
            exact ⟨rest, by rw [hc, List.cons_append], hrest⟩

theorem piperead_ok {wanted : Int} {r : Int × Str}
    (hrun : (piperead p wanted).run s = .ok (r, s')) :
    ∃ q', s' = withPipe s p q' ∧ SameEnds (s.pipe p) q' ∧
      ∀ bytes, Holds (s.pipe p) bytes → ∃ rest, bytes = r.2 ++ rest ∧ Holds q' rest := by
  rw [piperead, Prog.get_bind_run] at hrun
  split at hrun
  · split at hrun
    · obtain ⟨rfl, rfl⟩ := Prog.pure_ok.mp hrun
      exact ⟨s.pipe p, by simp, .refl _, fun bytes hq => ⟨bytes, rfl, hq⟩⟩
    · simp at hrun
  · rw [Prog.bind_ok] at hrun
    obtain ⟨got, s₁, hloop, hrun⟩ := hrun
    obtain ⟨rfl, rfl⟩ := Prog.pure_ok.mp hrun
    exact pipereadLoop_ok hloop

end Fs
end CS444
