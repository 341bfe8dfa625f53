/-
Writing a file.

`Written s ip off src s'` says what the loop of `writei` does: the bytes from
`off` on are `src`, every other byte of the file is what it was, and the blocks
of other files are not touched.  `writei_wrote` turns that into what it means for
the contents of the files of a `Sound` state.
-/
import CS444.Fs.Layout
import Mathlib.Data.List.GetD

namespace CS444
namespace Fs

open Bytes Program

variable {s s₁ s' : Kernel} {ip : Slot} {off i n bn b : Nat} {src rest : Str}

/-! ## The loop -/

/-- `src` was written at `off`. -/
structure Written (s : Kernel) (ip : Slot) (off : Nat) (src : Str) (s' : Kernel) : Prop where
  laid : Laid s'.bitmap s'.block (view s' ip)
  entry : s'.inode ip = { s.inode ip with addrs := (s'.inode ip).addrs }
  others : ∀ k, k ≠ ip → s'.inode k = s.inode k
  dinode : s'.dinode = s.dinode
  sb : s'.sb = s.sb
  tables : SameTables s s'
  there : ∀ i, i < MAXFILE → place s.block (s.inode ip).addrs i ≠ 0 →
    place s'.block (s'.inode ip).addrs i = place s.block (s.inode ip).addrs i
  mapped : ∀ pos, off ≤ pos → pos < off + src.length → pos / BSIZE < MAXFILE ∧
    place s'.block (s'.inode ip).addrs (pos / BSIZE) ≠ 0
  bytes : ∀ pos, off ≤ pos → pos < off + src.length →
    fileMem s'.block (s'.inode ip).addrs pos = src.getD (pos - off) 0
  kept : ∀ pos, pos < off ∨ off + src.length ≤ pos → pos / BSIZE < MAXFILE →
    place s.block (s.inode ip).addrs (pos / BSIZE) ≠ 0 →
      fileMem s'.block (s'.inode ip).addrs pos = fileMem s.block (s.inode ip).addrs pos
  apart : ∀ n i, n ≠ (s.inode ip).inum → (s.dinode n).type ≠ 0 → i ≤ MAXFILE →
    place s.block (s.dinode n).addrs i ≠ 0 →
      s'.block (place s.block (s.dinode n).addrs i) = s.block (place s.block (s.dinode n).addrs i)

theorem fileMem_eq {block : Nat → Mem} {addrs : Nat → Nat} {pos : Nat}
    (h : pos / BSIZE < MAXFILE) :
    fileMem block addrs pos = block (place block addrs (pos / BSIZE)) (pos % BSIZE) := by
  rw [fileMem, place_of_lt h]

theorem Written.refl (hl : Laid s.bitmap s.block (view s ip)) (off : Nat) :
    Written s ip off [] s := by
  constructor
  case laid => exact hl
  case mapped =>
    intro pos h₁ h₂
    rw [List.length_nil] at h₂
    omega
  case bytes =>
    intro pos h₁ h₂
    rw [List.length_nil] at h₂
    omega
  case tables => exact .refl s
  all_goals intros; rfl

theorem Written.inum (hw : Written s ip off src s') : (s'.inode ip).inum = (s.inode ip).inum := by
  rw [hw.entry]

theorem Written.place_other (hw : Written s ip off src s') (hn : n ≠ (s.inode ip).inum)
    (htype : (s.dinode n).type ≠ 0) :
    place s'.block (s.dinode n).addrs = place s.block (s.dinode n).addrs := by
  apply place_congr
  intro hzero
  have hkeep := hw.apart n MAXFILE hn htype (Nat.le_refl _)
  rw [place_indirect] at hkeep
  exact hkeep hzero

/-- One write after another. -/
theorem Written.append (hab : Written s ip off src s₁)
    (hbc : Written s₁ ip (off + src.length) rest s') : Written s ip off (src ++ rest) s' := by
  have hlen : (src ++ rest).length = src.length + rest.length := List.length_append
  constructor
  case laid => exact hbc.laid
  case entry => rw [hbc.entry, hab.entry]
  case others => exact fun k hk => (hbc.others k hk).trans (hab.others k hk)
  case dinode => exact hbc.dinode.trans hab.dinode
  case sb => exact hbc.sb.trans hab.sb
  case tables => exact hab.tables.trans hbc.tables
  case there =>
    intro i hi hne
    have hfirst := hab.there i hi hne
    rw [← hfirst] at hne ⊢
    exact hbc.there i hi hne
  case mapped =>
    intro pos h₁ h₂
    rw [hlen] at h₂
    by_cases hpos : pos < off + src.length
    · obtain ⟨hlt, hfirst⟩ := hab.mapped pos h₁ hpos
      rw [hbc.there _ hlt hfirst]
      exact ⟨hlt, hfirst⟩
    · exact hbc.mapped pos (by omega) (by omega)
  case bytes =>
    intro pos h₁ h₂
    rw [hlen] at h₂
    by_cases hpos : pos < off + src.length
    · obtain ⟨hlt, hfirst⟩ := hab.mapped pos h₁ hpos
      rw [hbc.kept pos (Or.inl hpos) hlt hfirst, hab.bytes pos h₁ hpos,
        List.getD_append _ _ _ _ (by omega)]
    · rw [hbc.bytes pos (by omega) (by omega), List.getD_append_right _ _ _ _ (by omega)]
      congr 1
      omega
  case kept =>
    intro pos hout hlt hne
    rw [hlen] at hout
    have hne₁ : place s₁.block (s₁.inode ip).addrs (pos / BSIZE) ≠ 0 := by
      rw [hab.there _ hlt hne]
      exact hne
    rw [hbc.kept pos (by omega) hlt hne₁, hab.kept pos (by omega) hlt hne]
  case apart =>
    intro n i hn htype hi hne
    have hplace := hab.place_other hn htype
    have hsecond := hbc.apart n i (by rw [hab.inum]; exact hn) (by rw [hab.dinode]; exact htype) hi
    rw [hab.dinode, hplace] at hsecond
    exact (hsecond hne).trans (hab.apart n i hn htype hi hne)

/-- The block of data is the indirect block of no file. -/
theorem Remapped.not_map (hr : Remapped s ip bn s₁) (htype : (s.inode ip).type ≠ 0)
    (hb : place s₁.block (s₁.inode ip).addrs bn = b) (hne : b ≠ 0) (hlt : bn < MAXFILE)
    (hn : (view s₁ ip n).type ≠ 0) : (view s₁ ip n).addrs NDIRECT ≠ b := by
  intro heq
  have hN : (view s₁ ip (s₁.inode ip).inum).type ≠ 0 := by
    rw [view_self, hr.entry]
    exact htype
  have hsame := hr.laid.apart (s₁.inode ip).inum n bn MAXFILE hN hn hlt.le (Nat.le_refl _)
  rw [view_self, place_indirect, heq] at hsame
  have hb' : place s₁.block (s₁.inode ip).disk.addrs bn = b := hb
  exact absurd (hsame (by rw [hb']; exact hne) hb').2 (Nat.ne_of_lt hlt)

/-- Writing data leaves the block map as it is. -/
theorem Remapped.place_data (hr : Remapped s ip bn s₁) (htype : (s.inode ip).type ≠ 0)
    (hb : place s₁.block (s₁.inode ip).addrs bn = b) (hne : b ≠ 0) (hlt : bn < MAXFILE) (m : Mem) :
    place (Function.update s₁.block b m) (s₁.inode ip).addrs =
      place s₁.block (s₁.inode ip).addrs := by
  have hN : (view s₁ ip (s₁.inode ip).inum).type ≠ 0 := by
    rw [view_self, hr.entry]
    exact htype
  apply place_congr
  intro _
  apply Function.update_of_ne
  have := hr.not_map htype hb hne hlt hN
  rwa [view_self] at this

/-- One block of the loop. -/
theorem Remapped.written (hr : Remapped s ip bn s₁) (htype : (s.inode ip).type ≠ 0)
    (hb : place s₁.block (s₁.inode ip).addrs bn = b) (hne : b ≠ 0) (hbn : bn = off / BSIZE)
    (hlt : bn < MAXFILE) (hlen : off % BSIZE + src.length ≤ BSIZE) :
    Written s ip off src { s₁ with
      block := Function.update s₁.block b (patch (s₁.block b) (off % BSIZE) src) } := by
  have hN : (view s₁ ip (s₁.inode ip).inum).type ≠ 0 := by
    rw [view_self, hr.entry]
    exact htype
  have hplace : ∀ n, (view s₁ ip n).type ≠ 0 → (view s₁ ip n).addrs NDIRECT ≠ b :=
    fun n hn => hr.not_map htype hb hne hlt hn
  have hown := hr.place_data htype hb hne hlt (patch (s₁.block b) (off % BSIZE) src)
  have hdiv : ∀ pos, off ≤ pos → pos < off + src.length →
      pos / BSIZE = bn ∧ pos % BSIZE = off % BSIZE + (pos - off) := by
    intro pos h₁ h₂
    subst hbn
    simp only [BSIZE] at *
    omega
  constructor
  case laid =>
    refine hr.laid.write fun n hn _ => ?_
    exact Function.update_of_ne (hplace n hn) ..
  case entry => exact hr.entry
  case others => exact hr.others
  case dinode => exact hr.dinode
  case sb => exact hr.sb
  case tables => exact hr.tables.trans ⟨rfl, rfl, rfl, rfl, rfl, rfl⟩
  case there =>
    intro i hi hi'
    show place (Function.update s₁.block b _) (s₁.inode ip).addrs i = _
    rw [hown]
    exact hr.same i hi (Or.inr hi')
  case mapped =>
    intro pos h₁ h₂
    obtain ⟨hpos, -⟩ := hdiv pos h₁ h₂
    refine ⟨by omega, ?_⟩
    show place (Function.update s₁.block b _) (s₁.inode ip).addrs (pos / BSIZE) ≠ 0
    rw [hown, hpos, hb]
    exact hne
  case bytes =>
    intro pos h₁ h₂
    obtain ⟨hpos, hmod⟩ := hdiv pos h₁ h₂
    show fileMem (Function.update s₁.block b _) (s₁.inode ip).addrs pos = _
    rw [fileMem_eq (by omega), hown, hpos, hb, Function.update_self, patch,
      if_pos (by omega), hmod, Nat.add_sub_cancel_left]
  case kept =>
    intro pos hout hpos hne'
    show fileMem (Function.update s₁.block b _) (s₁.inode ip).addrs pos = _
    rw [fileMem_eq hpos, fileMem_eq hpos, hown, hr.same _ hpos (Or.inr hne')]
    have hdata := hr.data _ hpos hne'
    by_cases hsame : place s.block (s.inode ip).addrs (pos / BSIZE) = b
    · -- another part of the block that is written
      have hsame' := hr.laid.apart _ _ (pos / BSIZE) bn hN hN hpos.le hlt.le
      rw [view_self] at hsame'
      have hplace' : place s₁.block (s₁.inode ip).disk.addrs (pos / BSIZE) = b :=
        (hr.same _ hpos (Or.inr hne')).trans hsame
      have hbn' := (hsame' (by rw [hplace']; exact hne) (hplace'.trans hb.symm)).2
      rw [← hdata, hsame, Function.update_self, patch, if_neg]
      subst hbn
      simp only [BSIZE] at *
      omega
    · rw [Function.update_of_ne hsame, hdata]
  case apart =>
    intro n i hn hn' hi hi'
    have hkeep := hr.apart n i hn hn' hi hi'
    have hview : view s₁ ip n = s.dinode n := by
      rw [view_of_ne (by rw [hr.inum]; exact hn), hr.dinode]
    have hother : place s₁.block (view s₁ ip n).addrs i = place s.block (s.dinode n).addrs i := by
      rw [hview, hr.place_other hn hn']
    show Function.update s₁.block b _ _ = _
    rw [Function.update_of_ne, hkeep]
    intro heq
    have hsame := hr.laid.apart n _ i bn (by rw [hview]; exact hn') hN hi hlt.le
    rw [hother, view_self] at hsame
    have := (hsame hi' (heq.trans hb.symm)).1
    exact hn (this.trans hr.inum)

theorem writeLoop_spec {fuel r : Nat} (hl : Laid s.bitmap s.block (view s ip))
    (htype : (s.inode ip).type ≠ 0) (hsize : s.sb.size ≤ 2 ^ 32) (hfuel : src.length ≤ fuel)
    (hend : off + src.length ≤ MAXFILE * BSIZE)
    (hrun : (writeLoop ip fuel off src).run s = .ok (r, s')) :
    Written s ip off src s' ∧ r = off + src.length ∧
      ((∀ pos, off ≤ pos → pos < off + src.length →
        place s.block (s.inode ip).addrs (pos / BSIZE) ≠ 0) → s'.inode ip = s.inode ip) := by
  induction fuel generalizing s off src with
  | zero =>
      obtain rfl : src = [] := List.eq_nil_of_length_eq_zero (by omega)
      obtain ⟨rfl, rfl⟩ := Prog.pure_ok.mp hrun
      exact ⟨.refl hl off, rfl, fun _ => rfl⟩
  | succ fuel ih =>
      rw [writeLoop] at hrun
      by_cases hnil : src = []
      · rw [if_pos hnil] at hrun
        obtain ⟨rfl, rfl⟩ := Prog.pure_ok.mp hrun
        rw [hnil]
        exact ⟨.refl hl off, rfl, fun _ => rfl⟩
      · rw [if_neg hnil, Prog.bind_ok] at hrun
        obtain ⟨b, s₁, hmap, hrun⟩ := hrun
        rw [Prog.modify_bind_run] at hrun
        have hpos := List.length_pos_iff.mpr hnil
        have hmod := Nat.mod_lt off (show 0 < BSIZE by decide)
        have hlt : off / BSIZE < MAXFILE := by
          simp only [BSIZE] at *
          omega
        obtain ⟨hr, hne, hb⟩ := bmap_spec hl htype hsize hlt hmap
        generalize hm : min src.length (BSIZE - off % BSIZE) = m at hrun
        have hlen : (src.take m).length = m := by
          rw [List.length_take]
          omega
        have hone : Written s ip off (src.take m) _ :=
          hr.written htype hb hne rfl hlt (by omega)
        have hdrop : (src.drop m).length = src.length - m := List.length_drop
        obtain ⟨hrest, hend', hcalm⟩ := ih hone.laid (by rw [hone.entry]; exact htype)
          (by rw [hone.sb]; exact hsize) (by omega) (by omega) hrun
        have hall := hone.append (by rw [hlen]; exact hrest)
        rw [List.take_append_drop] at hall
        refine ⟨hall, by omega, fun hall => ?_⟩
        have hthere := hall off (Nat.le_refl _) (by omega)
        have hsame : s₁ = s := by
          rw [place_of_lt hlt] at hthere
          exact (Prod.mk.inj (Except.ok.inj (hmap.symm.trans (bmap_mapped hlt hthere)))).2
        have hnext := hcalm fun pos h₁ h₂ => ?_
        · rw [hnext, hsame]
        · have hpos' := hall pos (by omega) (by omega)
          have hin : pos / BSIZE < MAXFILE := by
            simp only [BSIZE] at *
            omega
          rw [hone.there _ hin hpos']
          exact hpos'

/-! ## Contents -/

/-- The file system between calls. -/
structure Sound (s : Kernel) : Prop extends Coherent s where
  laid : Laid s.bitmap s.block s.dinode
  small : s.sb.size ≤ 2 ^ 32

/-- `old` with `src` over it from `off` on. -/
def splice (old : Str) (off : Nat) (src : Str) : Str :=
  old.take off ++ src ++ old.drop (off + src.length)

theorem length_splice {old : Str} (src : Str) (hoff : off ≤ old.length) :
    (splice old off src).length = max old.length (off + src.length) := by
  rw [splice, List.length_append, List.length_append, List.length_take, List.length_drop]
  omega

theorem span_eq {m : Mem} {a : Nat} (h : ∀ b, a ≤ b → b < a + src.length →
    m b = src.getD (b - a) 0) : span m a src.length = src := by
  apply List.ext_getElem length_span
  intro i h₁ h₂
  rw [show (span m a src.length)[i] = m (a + i) from by simp [span],
    h (a + i) (by omega) (by omega), Nat.add_sub_cancel_left, List.getD_eq_getElem _ _ h₂]

/-- The bytes of the file, of `size` before, after the loop. -/
theorem Written.spliced (hw : Written s ip off src s') {size : Nat}
    (hf : Filled s.block size (s.inode ip).addrs) (hoff : off ≤ size) :
    span (fileMem s'.block (s'.inode ip).addrs) 0 (max size (off + src.length)) =
      splice (span (fileMem s.block (s.inode ip).addrs) 0 size) off src := by
  have hkept : ∀ pos, pos < size → pos < off ∨ off + src.length ≤ pos →
      fileMem s'.block (s'.inode ip).addrs pos = fileMem s.block (s.inode ip).addrs pos := by
    intro pos hpos hout
    have hblock : pos / BSIZE * BSIZE < size := by
      have := Nat.div_mul_le_self pos BSIZE
      omega
    have hlt := hf.lt hblock
    refine hw.kept pos hout hlt ?_
    rw [place_of_lt hlt]
    exact hf.mapped _ hblock
  have hsplit : max size (off + src.length) =
      off + src.length + (max size (off + src.length) - (off + src.length)) := by omega
  rw [hsplit, span_add, span_add, Nat.zero_add, Nat.zero_add, splice, take_span hoff,
    span_eq hw.bytes]
  congr 1
  · congr 1
    exact span_congr fun pos _ hpos => hkept pos (by omega) (Or.inl (by omega))
  · by_cases hin : off + src.length ≤ size
    · rw [Nat.max_eq_left hin, drop_span hin, Nat.zero_add]
      exact span_congr fun pos h₁ h₂ => hkept pos (by omega) (Or.inr h₁)
    · rw [Nat.max_eq_right (by omega), Nat.sub_self, List.drop_of_length_le]
      · rfl
      · rw [length_span]
        omega

/-- The file is filled as far as it was written. -/
theorem Written.filled (hw : Written s ip off src s') {size : Nat}
    (hf : Filled s.block size (s.inode ip).addrs) (hoff : off ≤ size)
    (hend : off + src.length ≤ MAXFILE * BSIZE) :
    Filled s'.block (max size (off + src.length)) (s'.inode ip).addrs := by
  refine ⟨by have := hf.bounded; omega, fun bn hbn => ?_⟩
  by_cases hold : bn * BSIZE < size
  · have hlt := hf.lt hold
    have hne := hf.mapped bn hold
    rw [← place_of_lt hlt] at hne ⊢
    rw [hw.there bn hlt hne]
    exact hne
  · obtain ⟨hlt, hne⟩ := hw.mapped (bn * BSIZE) (by omega) (by omega)
    rw [Nat.mul_div_cancel _ (show 0 < BSIZE by decide)] at hlt hne
    rw [place_of_lt hlt] at hne
    exact hne

/-- The other files hold what they held. -/
theorem Written.contents_other (hw : Written s ip off src s')
    (hf : Filled s.block (s.dinode n).size (s.dinode n).addrs) (hn : n ≠ (s.inode ip).inum)
    (htype : (s.dinode n).type ≠ 0) :
    contents s'.block (s'.dinode n) = contents s.block (s.dinode n) ∧
      Filled s'.block (s'.dinode n).size (s'.dinode n).addrs := by
  have hplace := hw.place_other hn htype
  rw [hw.dinode]
  constructor
  · refine span_congr fun pos _ hpos => ?_
    have hblock : pos / BSIZE * BSIZE < (s.dinode n).size := by
      have := Nat.div_mul_le_self pos BSIZE
      omega
    have hlt := hf.lt hblock
    rw [fileMem_eq hlt, fileMem_eq hlt, hplace]
    have hne := hf.mapped _ hblock
    rw [← place_of_lt hlt] at hne
    rw [hw.apart n _ hn htype hlt.le hne]
  · refine ⟨hf.bounded, fun bn hbn => ?_⟩
    have hlt := hf.lt hbn
    rw [← place_of_lt hlt, hplace, place_of_lt hlt]
    exact hf.mapped bn hbn

/-- `src` was written at `off` of the file `ip`, and the state is sound again. -/
structure Wrote (s : Kernel) (ip : Slot) (off : Nat) (src : Str) (s' : Kernel) : Prop where
  sound : Sound s'
  entry : s'.inode ip = { s.inode ip with
    size := max (s.inode ip).size (off + src.length), addrs := (s'.inode ip).addrs }
  others : ∀ k, k ≠ ip → s'.inode k = s.inode k
  sb : s'.sb = s.sb
  tables : SameTables s s'
  disk : s'.dinode (s.inode ip).inum = (s'.inode ip).disk
  dinode : ∀ n, n ≠ (s.inode ip).inum → s'.dinode n = s.dinode n
  written : contents s'.block (s'.dinode (s.inode ip).inum) =
    splice (contents s.block (s.dinode (s.inode ip).inum)) off src
  kept : ∀ n, n ≠ (s.inode ip).inum → (s.dinode n).type ≠ 0 →
    contents s'.block (s'.dinode n) = contents s.block (s.dinode n)

/-- The inode number of a valid entry is allocated. -/
theorem Coherent.typed (hs : Coherent s) (hu : InUse s ip) :
    (s.inode ip).disk = s.dinode (s.inode ip).inum ∧ (s.inode ip).type ≠ 0 :=
  ⟨hs.clean ip hu.pos hu.valid, (hs.cache.coherent ip hu.pos hu.valid).2⟩

theorem Coherent.filled_entry (hs : Coherent s) (hu : InUse s ip) :
    Filled s.block (s.inode ip).size (s.inode ip).addrs := by
  obtain ⟨hdisk, htype⟩ := hs.typed hu
  have hf := hs.filled (s.inode ip).inum (by rw [← hdisk]; exact htype)
  rw [← hdisk] at hf
  exact hf

/-- The loop of `writei` and the inode it leaves, which was written to the disk. -/
theorem Written.wrote (hw : Written s ip off src s₁) (hs : Sound s) (hu : InUse s ip)
    (hoff : off ≤ (s.inode ip).size) (hend : off + src.length ≤ MAXFILE * BSIZE)
    (hsb : s'.sb = s₁.sb) (hbitmap : s'.bitmap = s₁.bitmap) (hblock : s'.block = s₁.block)
    (htables : SameTables s₁ s') (hothers : ∀ k, k ≠ ip → s'.inode k = s₁.inode k)
    (hentry : s'.inode ip = { s₁.inode ip with
      size := max (s.inode ip).size (off + src.length) })
    (hdisk : s'.dinode (s.inode ip).inum = (s'.inode ip).disk)
    (hdinode : ∀ n, n ≠ (s.inode ip).inum → s'.dinode n = s.dinode n) :
    Wrote s ip off src s' := by
  obtain ⟨hclean, htype⟩ := hs.toCoherent.typed hu
  have hf := hs.toCoherent.filled_entry hu
  have hentry' : s'.inode ip = { s.inode ip with
      size := max (s.inode ip).size (off + src.length), addrs := (s'.inode ip).addrs } := by
    rw [hentry, hw.entry]
  have haddrs : (s'.inode ip).addrs = (s₁.inode ip).addrs := by rw [hentry]
  have hinum : (s'.inode ip).inum = (s.inode ip).inum := by rw [hentry']
  have hothers' : ∀ k, k ≠ ip → s'.inode k = s.inode k := fun k hk =>
    (hothers k hk).trans (hw.others k hk)
  have hself : (s'.inode ip).size = max (s.inode ip).size (off + src.length) := by rw [hentry]
  have hrel : ∀ n, (s'.dinode n).type = (s.dinode n).type ∧
      (s'.dinode n).nlink = (s.dinode n).nlink := by
    intro n
    by_cases hn : n = (s.inode ip).inum
    · rw [hn, hdisk, hentry', ← hclean]
      exact ⟨rfl, rfl⟩
    · rw [hdinode n hn]
      exact ⟨rfl, rfl⟩
  have hkeys : ∀ k, (s'.inode k).ref = (s.inode k).ref ∧ (s'.inode k).inum = (s.inode k).inum ∧
      (s'.inode k).dev = (s.inode k).dev ∧ (s'.inode k).valid = (s.inode k).valid ∧
      (s'.inode k).type = (s.inode k).type := by
    intro k
    by_cases hk : k = ip
    · rw [hk, hentry']
      exact ⟨rfl, rfl, rfl, rfl, rfl⟩
    · rw [hothers' k hk]
      exact ⟨rfl, rfl, rfl, rfl, rfl⟩
  have hnum : ∀ k, k ≠ ip → 0 < (s.inode k).ref → (s.inode k).inum ≠ (s.inode ip).inum :=
    fun k hk hpos heq => hk (hs.cache.unique k ip hpos hu.pos heq)
  constructor
  case entry => exact hentry'
  case others => exact hothers'
  case sb => exact hsb.trans hw.sb
  case tables => exact hw.tables.trans htables
  case disk => exact hdisk
  case dinode => exact hdinode
  case written =>
    rw [hdisk, ← hclean, hblock]
    show span (fileMem s₁.block (s'.inode ip).addrs) 0 (s'.inode ip).size = _
    rw [haddrs, hself]
    exact hw.spliced hf hoff
  case kept =>
    intro n hn hn'
    have hkeep := (hw.contents_other (hs.filled n hn') hn hn').1
    rw [hw.dinode] at hkeep
    rw [hdinode n hn, hblock, hkeep]
  case sound =>
    constructor
    case small =>
      rw [hsb, hw.sb]
      exact hs.small
    case laid =>
      rw [hbitmap, hblock]
      refine hw.laid.congr fun n => ?_
      by_cases hn : n = (s.inode ip).inum
      · rw [hn, hdisk, ← hw.inum, view_self, hentry]
        exact ⟨rfl, rfl⟩
      · rw [hdinode n hn, view_of_ne (by rw [hw.inum]; exact hn), hw.dinode]
        exact ⟨rfl, rfl⟩
    case toCoherent =>
      constructor
      case cache =>
        constructor
        case nonneg =>
          intro k
          rw [(hkeys k).1]
          exact hs.cache.nonneg k
        case dev =>
          intro k hk
          rw [(hkeys k).1] at hk
          rw [(hkeys k).2.2.1]
          exact hs.cache.dev k hk
        case unique =>
          intro j k hj hk heq
          rw [(hkeys j).1] at hj
          rw [(hkeys k).1] at hk
          rw [(hkeys j).2.1, (hkeys k).2.1] at heq
          exact hs.cache.unique j k hj hk heq
        case coherent =>
          intro k hk hv
          rw [(hkeys k).1] at hk
          rw [(hkeys k).2.2.2.1] at hv
          rw [(hkeys k).2.1, (hkeys k).2.2.2.2, (hrel _).1]
          exact hs.cache.coherent k hk hv
      case clean =>
        intro k hk hv
        by_cases hkip : k = ip
        · rw [hkip, hinum, hdisk]
        · rw [hothers' k hkip] at hk hv ⊢
          rw [hdinode _ (hnum k hkip hk)]
          exact hs.clean k hk hv
      case filled =>
        intro n hn
        rw [hblock]
        by_cases hni : n = (s.inode ip).inum
        · rw [hni, hdisk]
          show Filled s₁.block (s'.inode ip).size (s'.inode ip).addrs
          rw [haddrs, hself]
          exact hw.filled hf hoff hend
        · rw [(hrel n).1] at hn
          rw [hdinode n hni, ← hw.dinode]
          exact (hw.contents_other (hs.filled n hn) hni hn).2
      case live =>
        intro n hn hlink
        rw [(hrel n).1] at hn
        rw [(hrel n).2] at hlink
        obtain ⟨k, hk, hki⟩ := hs.live n hn hlink
        refine ⟨k, ?_, ?_⟩
        · rw [(hkeys k).1]
          exact hk
        · rw [(hkeys k).2.1]
          exact hki

/-- `writei` writes all of `src` or nothing. -/
theorem writei_wrote {r : Int} (hs : Sound s) (hu : InUse s ip) (hdev : (s.inode ip).type ≠ T_DEV)
    (hlen : src.length < 2 ^ 31) (hrun : (writei ip src off).run s = .ok (r, s')) :
    (r = -1 ∧ s' = s ∧
      ((s.inode ip).size < off ∨ MAXFILE * BSIZE < off + src.length)) ∨
      r = src.length ∧ off ≤ (s.inode ip).size ∧ off + src.length ≤ MAXFILE * BSIZE ∧
        Wrote s ip off src s' := by
  obtain ⟨hclean, htype⟩ := hs.toCoherent.typed hu
  have hf := hs.toCoherent.filled_entry hu
  have hsize := hf.bounded
  rw [maxSize] at hsize ⊢
  have hlaid : Laid s.bitmap s.block (view s ip) := by
    rw [view_of_clean hclean]
    exact hs.laid
  rw [writei, inodeAt_bind_run, if_neg hdev] at hrun
  by_cases hoff : off ≤ (s.inode ip).size
  · have huint : (uint (off + src.length) : Int) = off + src.length :=
      uint_eq (by omega) (by omega)
    rw [if_neg (by omega), maxSize] at hrun
    by_cases hend : 71680 < off + src.length
    · rw [if_pos (by omega)] at hrun
      obtain ⟨rfl, rfl⟩ := Prog.pure_ok.mp hrun
      exact Or.inl ⟨rfl, rfl, Or.inr hend⟩
    · rw [if_neg (by omega), Prog.bind_ok] at hrun
      obtain ⟨off', s₁, hloop, hrun⟩ := hrun
      obtain ⟨hw, rfl, hcalm⟩ := writeLoop_spec hlaid htype hs.small (Nat.le_refl _)
        (by rw [maxSize]; omega) hloop
      rw [inodeAt_bind_run, Prog.bind_ok] at hrun
      obtain ⟨_, s₂, hgrow, hrun⟩ := hrun
      obtain ⟨rfl, rfl⟩ := Prog.pure_ok.mp hrun
      have hsame : (s₁.inode ip).size = (s.inode ip).size := by rw [hw.entry]
      refine Or.inr ⟨int_of_lt (by omega) (by omega), hoff, by omega, ?_⟩
      rw [Prog.when_ok] at hgrow
      rcases hgrow with ⟨⟨-, hmore⟩, hgrow⟩ | ⟨hno, rfl⟩
      · rw [setInode_bind_run] at hgrow
        obtain rfl := iupdate_ok.mp hgrow
        have hinum := hw.inum
        refine hw.wrote hs hu hoff (by rw [maxSize]; omega) rfl rfl rfl
          ⟨rfl, rfl, rfl, rfl, rfl, rfl⟩ (fun k hk => withInode_of_ne hk) ?_ ?_ fun n hn => ?_
        · have hmax : max (s.inode ip).size (off + src.length) = off + src.length := by omega
          simp only [updated, withInode_self, hmax]
        · simp only [updated, withInode_self, hinum, Function.update_self]
          rfl
        · simp only [updated, withInode_self, hinum, Function.update_of_ne hn, withInode_dinode]
          rw [hw.dinode]
      · have hin : off + src.length ≤ (s.inode ip).size := by
          by_contra hgt
          refine hno ⟨?_, by omega⟩
          omega
        have hcalm := hcalm fun pos h₁ h₂ => by
          have hblock : pos / BSIZE * BSIZE < (s.inode ip).size := by
            have := Nat.div_mul_le_self pos BSIZE
            omega
          rw [place_of_lt (hf.lt hblock)]
          exact hf.mapped _ hblock
        have hmax : max (s.inode ip).size (off + src.length) = (s.inode ip).size := by omega
        refine hw.wrote hs hu hoff (by rw [maxSize]; omega) rfl rfl rfl (.refl _)
          (fun _ _ => rfl) ?_ ?_ fun n _ => by rw [hw.dinode]
        · rw [hmax, ← hsame]
        · rw [hw.dinode, hcalm, hclean]
  · rw [if_pos (Or.inl (by omega))] at hrun
    obtain ⟨rfl, rfl⟩ := Prog.pure_ok.mp hrun
    exact Or.inl ⟨rfl, rfl, Or.inl (by omega)⟩

end Fs
end CS444
