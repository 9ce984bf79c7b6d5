import ArmKernel.Core.FileContents
import ArmKernel.Core.PowerCycles
import ArmKernel.Core.Reformat

/-! Files over runs of the whole machine. A regular file is a byte array that
changes only by writes through descriptors that lead to it, whatever else the
processes do: create, move and delete other files, make directories, open and
close this one, fork and be killed. -/
namespace ArmKernel.Core

open Lib Lib.Bytes Lib.Run Fs SuperBlock

/-- Inode `j` is a regular file with these bytes, as an open copy of it or else
the disk has it. -/
def HasBytes (k : Kernel) (j : UInt32) (b : List UInt8) : Prop :=
  ∃ ic, Current k j ic ∧ ic.icMode = Mode.ifreg.code ∧ contents k.vol.disk ic = b

section

variable {own own' : Owners} {l l' : List UInt32} {k k' : Kernel} {v' : Vol} {j : UInt32} {b : List UInt8}
  {ic : ICommon}

theorem Fsck.maps_current (h : Fsck own l k) (hc : Current k j ic) : Maps own k.vol.disk j ic (blockCount ic) := by
  rcases hc with ⟨s, hs, rfl, rfl⟩ | ⟨-, hlt, hlive, rfl⟩
  · exact (h.loaded s hs).maps
  · exact h.disk.good.maps j hlt hlive

theorem Fsck.lt_current (h : Fsck own l k) (hc : Current k j ic) : j.toNat < 512 := by
  rcases hc with ⟨s, hs, rfl, -⟩ | ⟨-, hlt, -⟩
  · exact (h.loaded s hs).number
  · exact hlt

theorem Fsck.mode_hasBytes (h : Fsck own l k) (hb : HasBytes k j b) :
    (shape k.vol.disk).mode j = Mode.ifreg.code := by
  obtain ⟨ic, hc, hreg, -⟩ := hb
  rw [shape_mode (h.lt_current hc)]
  rcases hc with ⟨s, hs, rfl, -⟩ | ⟨-, -, -, rfl⟩
  · exact (h.loaded s hs).stored
  · exact hreg

theorem Fsck.ne_dir_hasBytes (h : Fsck own l k) (hb : HasBytes k j b) {D : UInt32} (hD : (shape k.vol.disk).Dir D) :
    j ≠ D := by
  rintro rfl
  rw [Shape.Dir, h.mode_hasBytes hb] at hD
  exact absurd hD (by decide)

theorem HasBytes.of_vol (hb : HasBytes k j b) (h : Fsck own l k) (hai : k'.ai = k.ai)
    (hino : inodeAt k'.vol.disk j = inodeAt k.vol.disk j)
    (hframe : ∀ x r, own x = some (j, r) → k'.vol.disk x = k.vol.disk x) : HasBytes k' j b := by
  obtain ⟨ic, hc, hreg, hbytes⟩ := hb
  refine ⟨ic, ?_, hreg, ?_⟩
  · rcases hc with ⟨s, hs, hnum, hic⟩ | ⟨hidle, hlt, hlive, hic⟩
    · exact .inl ⟨s, by rwa [Active, hai], by rwa [hai], by rwa [hai]⟩
    · refine .inr ⟨fun s hs => ?_, hlt, hlive, hino.trans hic⟩
      rw [Active, hai] at hs
      rw [hai]
      exact hidle s hs
  · rw [← hbytes]
    apply contents_congr
    intro p hp
    obtain ⟨r, hr⟩ := (h.maps_current hc).owns hp
    exact hframe _ r hr

/-! New files and directories. -/

theorem HasBytes.extend (hb : HasBytes k j b) (h : Fsck own l k) {par i : UInt32} {ic : ICommon} {name : CStr}
    (he : Extended own own' k.vol v' l l' par i ic name) : HasBytes { k with vol := v' } j b := by
  have hpar : j ≠ par := h.ne_dir_hasBytes hb he.grown.parent
  have hlive : (shape k.vol.disk).Live j := by
    rw [Shape.Live, h.mode_hasBytes hb]
    decide
  have hlt : j.toNat < 512 := lt_of_live hlive
  exact hb.of_vol h rfl (he.inodes j hlt hpar (he.grown.ne hlive)) fun x r hx => he.frame x j r hx hpar

theorem HasBytes.mkdir (hb : HasBytes k j b) (h : Fsck own l k) {name : CStr} (hname : nameOk name)
    (hfail : ¬Failed (mkdir k name).2.vol) : HasBytes (mkdir k name).2 j b := by
  rcases mkdir_extended trivial_good (Good.sound h.disk.good) h.cwd (h.disk.roomy h.cwd)
    (show name.length ≤ 26 from le_trans hname.2.1 (by omega)) with
    ⟨hf, -⟩ | ⟨own', l', i, ic, v', he, -, -, -, -, hext⟩
  · exact absurd hf hfail
  · rw [he]
    exact hb.extend h hext

/-! `open`. -/

theorem HasBytes.resolve (hb : HasBytes k j b) (h : Fsck own l k) {path : CStr} (hok : OpensFile k.vol path)
    (oflag : OFlag) (hfail : oflag = .ocreat → ¬Failed (resolve k.vol path oflag).2) :
    HasBytes { k with vol := (resolve k.vol path oflag).2 } j b := by
  cases oflag with
  | oexist => exact hb
  | ocreat =>
    unfold Core.resolve at hfail ⊢
    dsimp only at hfail ⊢
    rcases pathToIno2_created h.disk hok.along hok.last with
      ⟨hf, -⟩ | ⟨he, -⟩ | ⟨-, own', l', ic, c, name, -, -, -, -, -, -, hext⟩
    · exact absurd hf (hfail rfl)
    · rw [he]
      exact hb
    · exact hb.extend h hext

theorem HasBytes.getAIT (hb : HasBytes k j b) (h : Fsck own l k) {ino : UInt32} (hlt : ino.toNat < 512) :
    HasBytes (getAIT k ino).2 j b := by
  obtain ⟨ic, hc, hreg, hbytes⟩ := hb
  rcases getAIT_cases k ino with ⟨he, -⟩ | ⟨s, he, -⟩ | ⟨s, he, hidle, hnone⟩
  · rw [he]
    exact ⟨ic, hc, hreg, hbytes⟩
  · rw [he]
    exact ⟨ic, hc, hreg, hbytes⟩
  · rw [he]
    rw [readInode_eq h.disk.good.acct.formatted hlt]
    refine ⟨ic, ?_, hreg, hbytes⟩
    rcases hc with ⟨t, ht, hnum, hic⟩ | ⟨hfree, hjlt, hlive, hic⟩
    · have hts : t ≠ s := by
        rintro rfl
        exact hidle ht
      refine .inl ⟨t, ?_, ?_, ?_⟩
      · simpa only [Active, Function.update_of_ne hts] using ht
      · simpa only [Function.update_of_ne hts] using hnum
      · simpa only [Function.update_of_ne hts] using hic
    · by_cases hino : ino = j
      · subst hino
        refine .inl ⟨s, ?_, ?_, ?_⟩
        · simp only [Active, Function.update_self]
          rw [hic]
          exact hlive
        · simp only [Function.update_self]
        · simp only [Function.update_self]
          exact hic
      · refine .inr ⟨fun t ht => ?_, hjlt, hlive, hic⟩
        by_cases hts : t = s
        · subst hts
          simpa only [Function.update_self] using hino
        · simp only [Active, Function.update_of_ne hts] at ht ⊢
          exact hfree t ht

theorem HasBytes.of_slots (hb : HasBytes k j b) (hvol : k'.vol = k.vol)
    (hai : ∀ t, (k'.ai t).iNumber = (k.ai t).iNumber ∧ (k'.ai t).iIc = (k.ai t).iIc) : HasBytes k' j b := by
  obtain ⟨ic, hc, hreg, hbytes⟩ := hb
  have hact : ∀ t, Active k' t ↔ Active k t := fun t => by rw [Active, (hai t).2, Active]
  refine ⟨ic, ?_, hreg, by rw [hvol]; exact hbytes⟩
  rcases hc with ⟨t, ht, hnum, hic⟩ | ⟨hfree, hlt, hlive, hic⟩
  · exact .inl ⟨t, (hact t).mpr ht, (hai t).1.trans hnum, (hai t).2.trans hic⟩
  · refine .inr ⟨fun t ht => ?_, hlt, hlive, by rw [hvol]; exact hic⟩
    rw [(hai t).1]
    exact hfree t ((hact t).mp ht)

theorem HasBytes.linkFile (hb : HasBytes k j b) (i : Fin 16) (o s : Fin 128) : HasBytes (linkFile k i o s) j b := by
  refine hb.of_slots rfl fun t => ?_
  by_cases hts : t = s
  · subst hts
    simp [Core.linkFile, Kernel.setPcb]
  · simp [Core.linkFile, Kernel.setPcb, hts]

theorem HasBytes.openFile (hb : HasBytes k j b) (h : Fsck own l k) {path : CStr} (hok : OpensFile k.vol path)
    (oflag : OFlag) (hfail : oflag = .ocreat → ¬Failed (openFile k path oflag).2.vol) :
    HasBytes (openFile k path oflag).2 j b := by
  rcases hv : Core.resolve k.vol path oflag with ⟨ino, v⟩
  have hvol : getFD k ≠ none → (Core.openFile k path oflag).2.vol = v := fun hfd => by
    rw [(openFile_vol k path oflag).1, if_neg hfd, hv]
  have hres : getFD k ≠ none → HasBytes { k with vol := v } j b ∧ ∃ own' l', Fsck own' l' { k with vol := v } ∧
      (isNeg ino = false → ino.toNat < 512) := fun hfd => by
    rw [hvol hfd] at hfail
    have hkept := hb.resolve h hok oflag (by rw [hv]; exact hfail)
    obtain ⟨own', l', hf, -, hino⟩ := h.resolve hok oflag fun ho => .inl (by rw [hv]; exact hfail ho)
    rw [hv] at hkept hf hino
    exact ⟨hkept, own', l', hf, fun hneg => (hino hneg).1⟩
  rcases openFile_cases k path oflag hv rfl with ⟨-, he⟩ | ⟨i, hi, -, he⟩ | ⟨i, hi, hneg, he⟩ |
    ⟨i, s, o, hi, hneg, -, -, he⟩
  · rw [he]
    exact hb
  · rw [he]
    exact (hres (by simp [hi])).1
  · obtain ⟨hkept, own', l', hf, hino⟩ := hres (by simp [hi])
    rw [he]
    exact hkept.getAIT hf (hino hneg)
  · obtain ⟨hkept, own', l', hf, hino⟩ := hres (by simp [hi])
    rw [he]
    exact (hkept.getAIT hf (hino hneg)).linkFile i o s

/-! `close`. -/

theorem HasBytes.unlinkFile (hb : HasBytes k j b) (h : Fsck own l k) (ht : Tables k) (i : Fin 16) (o : Fin 128)
    {s : Fin 128} (hs : Active k s) : HasBytes (unlinkFile k i o s) j b := by
  obtain ⟨ic, hc, hreg, hbytes⟩ := hb
  have hf := h.disk.good.acct.formatted
  have hnumber := (h.loaded s hs).number
  have hvol := vol_unlinkFile k i o s
  have hdisk : ∀ x r, own x = some (j, r) → (Core.unlinkFile k i o s).vol.disk x = k.vol.disk x := by
    intro x r hx
    rw [hvol]
    split
    · exact writeInode_disk_ne hf hnumber ((h.disk.good.acct.owned _ _ hx).1.ne_inodeBlock hnumber)
    · rfl
  have hcontents : contents (Core.unlinkFile k i o s).vol.disk ic = contents k.vol.disk ic := by
    apply contents_congr
    intro p hp
    obtain ⟨r, hr⟩ := (h.maps_current hc).owns hp
    exact hdisk _ r hr
  refine ⟨ic, ?_, hreg, hcontents.trans hbytes⟩
  rcases hc with ⟨t, hact, hnum, hic⟩ | ⟨hfree, hlt, hlive, hic⟩
  · by_cases hts : t = s
    · subst hts
      by_cases hlast : (k.ai t).iLinks - 1 = 0
      · -- the copy goes to the disk
        rw [if_pos hlast] at hvol
        refine .inr ⟨fun u hu => ?_, hnum ▸ hnumber, by rw [hreg]; decide, ?_⟩
        · rcases active_unlinkFile_cases hu with ⟨-, hmore, -⟩ | ⟨hut, hai, hu⟩
          · exact absurd hlast hmore
          · rw [hai, ← hnum]
            exact fun he => hut (ht.unique u t hu hact he)
        · have hself : inodeAt (writeInode k.vol { k.ai t with iLinks := (k.ai t).iLinks - 1 }).disk
              (k.ai t).iNumber = (k.ai t).iIc := inodeAt_writeInode_self hf hnumber
          rw [hvol, ← hnum]
          exact hself.trans hic
      · have hai := ai_unlinkFile_more hlast i o
        refine .inl ⟨t, ?_, ?_, ?_⟩
        · rw [Active, hai]
          exact hact
        · rw [hai]
          exact hnum
        · rw [hai]
          exact hic
    · have hai := ai_unlinkFile k i o hts
      refine .inl ⟨t, ?_, ?_, ?_⟩
      · rw [Active, hai]
        exact hact
      · rw [hai]
        exact hnum
      · rw [hai]
        exact hic
  · refine .inr ⟨fun u hu => ?_, hlt, hlive, ?_⟩
    · rcases active_unlinkFile_cases hu with ⟨rfl, -, hai⟩ | ⟨-, hai, hu⟩
      · rw [hai]
        exact hfree u hs
      · rw [hai]
        exact hfree u hu
    · rw [hvol]
      split
      · have hother : inodeAt (writeInode k.vol { k.ai s with iLinks := (k.ai s).iLinks - 1 }).disk j =
            inodeAt k.vol.disk j := inodeAt_writeInode_ne hf hnumber hlt (hfree s hs).symm
        exact hother.trans hic
      · exact hic

theorem HasBytes.close (hb : HasBytes k j b) (h : Fsck own l k) (ht : Tables k) (fd : Int) : HasBytes (close k fd).2 j b := by
  cases hfd : fdEntry k fd with
  | none =>
    simp only [Core.close, hfd]
    exact hb
  | some e =>
    obtain ⟨i, o⟩ := e
    obtain ⟨s, hs⟩ := ht.fdEntry hfd
    rw [close_eq hfd hs]
    exact hb.unlinkFile h ht i o (ht.active o s hs)

/-! Entries go. -/

theorem HasBytes.unlink (hb : HasBytes k j b) (h : Fsck own l k) {name : CStr}
    (hother : ∀ e, Takes k name e → (dirEntry k.vol.disk (inodeAt k.vol.disk k.cwd) e).dIno ≠ j) :
    HasBytes (unlink k name).2 j b := by
  rcases unlink_cases h.disk h.cwd h.small name with he | ⟨e, v₁, v₂, l', he, ht, hd⟩
  · rw [he]
    exact hb
  · rw [he]
    have hne : j ≠ (dirEntry k.vol.disk (inodeAt k.vol.disk k.cwd) e).dIno := (hother e ht.first).symm
    have hcwd : j ≠ k.cwd := h.ne_dir_hasBytes hb h.cwd
    have hlt : j.toNat < 512 := by
      obtain ⟨ic, hc, -⟩ := hb
      exact h.lt_current hc
    refine hb.of_vol h rfl ?_ fun x r hx => ?_
    · exact (hd.inodes j hlt hne).trans (ht.unlisted.inodes j hlt hcwd)
    · exact (hd.frame x j r hx hne).trans (ht.unlisted.frame x j r hx hcwd)

theorem HasBytes.mv (hb : HasBytes k j b) (h : Fsck own l k) {name path : CStr} (hok : mvOk k name path)
    (hfail : ¬Failed (mv k name path).2.vol) : HasBytes (mv k name path).2 j b := by
  rcases mv_cases h.disk h.cwd (hok.imp_right And.left) with he | he | ⟨⟨hdot, hdest, hq⟩, e, ht, he⟩
  · rw [he]
    exact hb
  · rw [he, h.disk.good.updateSb]
    exact hb
  · rw [he] at hfail ⊢
    obtain ⟨own', l', c, rest, -, hg, -, ha⟩ := ht.appended_mv h.disk hok hdot hdest hq hfail
    have hcwd : j ≠ k.cwd := h.ne_dir_hasBytes hb h.cwd
    have hdir : j ≠ pathToIno k.vol path rootDir := h.ne_dir_hasBytes hb hq
    have hlt : j.toNat < 512 := by
      obtain ⟨ic, hc, -⟩ := hb
      exact h.lt_current hc
    rw [hg.updateSb]
    refine hb.of_vol h rfl ?_ fun x r hx => ?_
    · exact (ha.inodes j hlt hdir).trans (ht.unlisted.inodes j hlt hcwd)
    · refine (ha.frame x (h.disk.good.acct.owned _ _ hx).1 fun r' hr' => ?_).trans
        (ht.unlisted.frame x j r hx hcwd)
      rw [ha.ext x _ hx] at hr'
      simp only [Option.some.injEq, Prod.mk.injEq] at hr'
      exact hdir hr'.1

theorem contents_of_open (ht : Tables k) {s : Fin 128} (hs : Active k s) (hnum : (k.ai s).iNumber = j)
    (hb : HasBytes k j b) : contents k.vol.disk (k.ai s).iIc = b := by
  obtain ⟨ic, ⟨t, hact, hnum', hic⟩ | ⟨hfree, -⟩, -, hbytes⟩ := hb
  · rw [← ht.unique t s hact hs (hnum'.trans hnum.symm), hic, hbytes]
  · exact absurd hnum (hfree s hs)

/-! `write`. -/

def Leads (k : Kernel) (fd : Int) (j : UInt32) : Prop :=
  ∃ i o s, fdEntry k fd = some (i, o) ∧ inptr k o = some s ∧ (k.ai s).iNumber = j

theorem Fsck.stored (h : Fsck own l k) {fd : Int} {i : Fin 16} {o s : Fin 128} (hfd : fdEntry k fd = some (i, o))
    (hs : inptr k o = some s) (hact : Active k s) (data : Nat → UInt8) {n : UInt32}
    (hend : ((k.of o).oHead + n).toNat < 11 * 512)
    (hroom : ¬Failed (Core.fwrite k fd data n).2.vol ∨ ((k.of o).oHead + n).toNat < 512) :
    let grown := growFor k.vol (k.ai s) (k.of o).oHead n
    ∃ own' l', l.length = l'.length + blocksToGrow (k.ai s).iIc.icSize.toNat
        (max (k.ai s).iIc.icSize.toNat ((k.of o).oHead + n).toNat) ∧
      Stored (fun _ => True) own own' k.vol (fwriteBytes grown.2.2 grown.2.1 (k.of o).oHead data n) l' (k.ai s)
        grown.2.1 := by
  intro grown
  have hl := h.loaded s hact
  rw [fwrite_eq data n hfd hs] at hroom
  rcases fwrite_stored trivial_good data (Good.sound h.disk.good) hl.number hl.regular hl.maps
    (show ((k.of o).oHead + n).toNat < 139 * 512 by omega) with ⟨hlen, hf⟩ | ⟨own', l', hlen, -, hst⟩
  · have hlt := hroom.resolve_left (not_not_intro hf)
    have hnone : max (k.ai s).iIc.icSize.toNat ((k.of o).oHead + n).toNat / 512 - (k.ai s).iIc.icSize.toNat / 512 =
        0 := by omega
    rw [blocksToGrow, hnone] at hlen
    exact absurd hlen (Nat.not_lt_zero _)
  · exact ⟨own', l', hlen, hst⟩

theorem HasBytes.fwrite_other (hb : HasBytes k j b) (h : Fsck own l k) (ht : Tables k) {fd : Int} {data : Nat → UInt8}
    {n : UInt32} (hend : (writeEnd k fd n).toNat < 11 * 512)
    (hroom : ¬Failed (fwrite k fd data n).2.vol ∨ (writeEnd k fd n).toNat < 512) (hother : ¬Leads k fd j) :
    HasBytes (fwrite k fd data n).2 j b := by
  cases hfd : fdEntry k fd with
  | none =>
    rw [show Core.fwrite k fd data n = (-1, k) by simp only [Core.fwrite, hfd]]
    exact hb
  | some e =>
    obtain ⟨i, o⟩ := e
    obtain ⟨s, hs⟩ := ht.fdEntry hfd
    have hne : j ≠ (k.ai s).iNumber := fun he => hother ⟨i, o, s, hfd, hs, he.symm⟩
    rw [writeEnd, hfd] at hend hroom
    obtain ⟨own', l', -, hst⟩ := h.stored hfd hs (ht.active o s hs) data hend hroom
    obtain ⟨ic, hc, hreg, hbytes⟩ := hb
    rw [fwrite_eq data n hfd hs]
    refine ⟨ic, (current_setFile hst.same hst.inodes hne).mpr hc, hreg, ?_⟩
    rw [← hbytes]
    apply contents_congr
    intro p hp
    obtain ⟨r, hr⟩ := (h.maps_current hc).owns hp
    exact hst.frame _ j r hr hne

theorem Rewritten.overwritten_data {v w : Vol} {inode inode' : INode} {head : UInt32} {data : Nat → UInt8} {n : Nat}
    (h : Rewritten own own' v w l l' inode inode' head data n) :
    Overwritten (contents v.disk inode.iIc) head.toNat ((List.range n).map data) (contents w.disk inode'.iIc) := by
  have hsize := h.size
  refine ⟨?_, fun i hi => ?_, fun p hp hout => ?_⟩
  · rw [length_contents, length_contents, hsize, List.length_map, List.length_range]
  · rw [List.length_map, List.length_range] at hi
    rw [getElem?_contents _ (by omega), h.written i hi]
    simp [hi]
  · rw [length_contents] at hp
    rw [List.length_map, List.length_range] at hout
    rw [getElem?_contents _ (by omega), getElem?_contents _ hp, h.kept p hp hout]

theorem HasBytes.fwrite (hb : HasBytes k j b) (h : Fsck own l k) (ht : Tables k) {fd : Int} (data : Nat → UInt8)
    {n : UInt32} (hend : (tell k fd).toNat + n.toNat < 11 * 512)
    (hroom : ¬Failed (fwrite k fd data n).2.vol ∨ (tell k fd).toNat + n.toNat < 512)
    (hpos : 0 < n.toNat) (hleads : Leads k fd j) :
    ∃ b', HasBytes (fwrite k fd data n).2 j b' ∧
      Overwritten b (tell k fd).toNat ((List.range n.toNat).map data) b' := by
  obtain ⟨i, o, s, hfd, hs, hnum⟩ := hleads
  have hact := ht.active o s hs
  have hl := h.loaded s hact
  have hsmall := hl.small
  rw [tell, hfd] at hend hroom ⊢
  dsimp only at hend hroom ⊢
  have hsum : ((k.of o).oHead + n).toNat = (k.of o).oHead.toNat + n.toNat := by
    rw [UInt32.toNat_add, Nat.mod_eq_of_lt (by omega)]
  obtain ⟨_, l₁, hlen, -⟩ := h.stored hfd hs hact data (hsum ▸ hend) (by rwa [hsum])
  rw [fwrite_eq data n hfd hs]
  dsimp only
  have hmaps := hl.maps
  rw [blockCount_regular hl.regular] at hmaps
  rw [hsum] at hlen
  obtain ⟨own', l', hr⟩ := rewritten (k.of o).oHead n data hl.number h.disk.good.acct hmaps hpos (by omega)
    (by omega)
  have hover := hr.overwritten_data
  rw [contents_of_open ht hact hnum hb] at hover
  refine ⟨_, ⟨(growFor k.vol (k.ai s) (k.of o).oHead n).2.1.iIc, .inl ⟨s, ?_, ?_, ?_⟩, ?_, rfl⟩, hover⟩
  · exact (active_setFile (w := k.vol) hr.same s).mpr hact
  · exact (number_setFile (w := k.vol) hr.same s).trans hnum
  · simp only [Function.update_self]
  · exact hr.same.2.2.trans hl.regular

/-! `read`. -/

theorem HasBytes.reads (hb : HasBytes k j b) (h : Fsck own l k) (ht : Tables k) {fd : Int} (hleads : Leads k fd j)
    (n : UInt32) :
    ((tell k fd).toNat + n.toNat ≤ b.length →
      (fread k fd n).1 = 0 ∧ (fread k fd n).2.1 = (b.drop (tell k fd).toNat).take n.toNat) ∧
    (b.length < (tell k fd + n).toNat → fread k fd n = (-1, [], k)) := by
  obtain ⟨i, o, s, hfd, hs, hnum⟩ := hleads
  have hl := h.loaded s (ht.active o s hs)
  have hbytes := contents_of_open ht (ht.active o s hs) hnum hb
  have hlen : b.length = (k.ai s).iIc.icSize.toNat := by rw [← hbytes, length_contents]
  have hs' : (k.of o).oInptr = some s := hs
  have hsmall := hl.small
  rw [tell, hfd, hlen, Core.fread, hfd]
  dsimp only
  rw [hs']
  dsimp only
  refine ⟨fun hin => ?_, fun hout => ?_⟩
  · have hsum : ((k.of o).oHead + n).toNat = (k.of o).oHead.toNat + n.toNat := by
      rw [UInt32.toNat_add, Nat.mod_eq_of_lt (by omega)]
    have hmaps := hl.maps
    rw [blockCount_regular hl.regular] at hmaps
    rw [if_neg (by rw [UInt32.lt_iff_toNat_lt]; omega), fread_eq (hmaps.wellMapped h.disk.good.acct)
      h.disk.good.acct.formatted hin, hbytes]
    exact ⟨rfl, rfl⟩
  · rw [if_pos (UInt32.lt_iff_toNat_lt.mpr hout)]

/-! `exec`. -/

theorem HasBytes.fread (hb : HasBytes k j b) (fd : Int) (n : UInt32) : HasBytes (fread k fd n).2.2 j b := by
  obtain ⟨of', he⟩ := fread_kernel k fd n
  rw [he]
  exact hb

theorem HasBytes.exec (hb : HasBytes k j b) (h : Running own l k) {path : CStr}
    (hok : pathToIno k.vol path rootDir ≠ noAddr → openOk k.vol (strtokCut path)) :
    HasBytes (exec k path).2 j b := by
  have hentry : HasBytes (getProgramEntry k path (word k.vol.stkBlk 0) (word k.vol.stkBlk 1)).2.2.2 j b := by
    unfold getProgramEntry
    split
    · next hino =>
      have hopen := hb.openFile h.fsck (hok hino).opensFile .oexist fun ho => nomatch ho
      obtain ⟨own', l', hrun⟩ := h.openFile .oexist (hok hino) fun ho => nomatch ho
      dsimp only
      split
      · have hread := (hrun.fread (Core.openFile k (strtokCut path) .oexist).1 4).fread
          (Core.openFile k (strtokCut path) .oexist).1 4
        exact ((hopen.fread _ _).fread _ _).close hread.fsck hread.tables _
      · exact hopen
    · exact hb
  unfold Core.exec
  dsimp only
  split
  · exact hentry
  · exact hentry

end

/-! Runs. -/

def Edit (j : UInt32) (k : Kernel) : MachineEvent → List UInt8 → List UInt8 → Prop
  | .svc (.fs (.write fd data n)), b, b' =>
    (Leads k fd j → Overwritten b (tell k fd).toNat ((List.range n.toNat).map data) b') ∧ (¬Leads k fd j → b' = b)
  | _, b, b' => b' = b

def Edits (j : UInt32) : Kernel → List MachineEvent → List UInt8 → List UInt8 → Prop
  | _, [], b, b' => b' = b
  | k, c :: rest, b, b' => ∃ b₁, Edit j k c b b₁ ∧ Edits j (eventStep k c) rest b₁ b'

/-- Something is written where positions do not wrap; the file is not deleted,
nor the disk formatted, and the power does not fail while the file is open. -/
def editOk (j : UInt32) (k : Kernel) (c : MachineEvent) : Prop :=
  eventOk k c ∧
    match c with
    | .svc (.fs (.write fd _ n)) => 0 < n.toNat ∧ (tell k fd).toNat + n.toNat < 2 ^ 32
    | .svc (.fs .wipe) => False
    | .svc (.fs (.unlink name)) =>
      ∀ e, Takes k name e → (dirEntry k.vol.disk (inodeAt k.vol.disk k.cwd) e).dIno ≠ j
    | .reset _ _ _ => ∀ s, Active k s → (k.ai s).iNumber ≠ j
    | _ => True

section

variable {own : Owners} {l : List UInt32} {k k' : Kernel} {j : UInt32} {b : List UInt8}

theorem tell_end {fd : Int} {n : UInt32} {m : Nat} (hleads : Leads k fd j)
    (hwrap : (tell k fd).toNat + n.toNat < 2 ^ 32) (hend : (writeEnd k fd n).toNat < m) :
    (tell k fd).toNat + n.toNat < m := by
  obtain ⟨i, o, s, hfd, -, -⟩ := hleads
  rw [tell, hfd] at hwrap ⊢
  rw [writeEnd, hfd] at hend
  dsimp only at hwrap hend ⊢
  rwa [UInt32.toNat_add, Nat.mod_eq_of_lt hwrap] at hend

theorem HasBytes.sameFiles (hb : HasBytes k j b) (hs : SameFiles k k') : HasBytes k' j b :=
  hb.of_slots hs.vol fun t => by rw [hs.tables.ai]; exact ⟨rfl, rfl⟩

theorem HasBytes.trapBody (hb : HasBytes k j b) (h : Running own l k) {c : Trap}
    (hok : eventOk k (.svc (.trap c))) : HasBytes (trapBody k c).1 j b := by
  cases c with
  | yield => exact hb
  | fork => exact hb.sameFiles ((sameFiles_fork k).trans (sameFiles_setGpr0 _ _))
  | exec path => exact (hb.exec h hok).sameFiles (sameFiles_setGpr0 _ _)
  | kill pid sig => exact hb.sameFiles (sameFiles_killSig k pid sig)
  | raise sig => exact hb.sameFiles (sameFiles_killSig k k.self.pid sig)
  | mqOpen name => exact hb.sameFiles ((sameFiles_mqOpen k name).trans (sameFiles_setGpr0 _ _))
  | send m msg => exact hb.sameFiles ((sameFiles_mqSend k m msg).trans (sameFiles_setGpr0 _ _))
  | receive m len => exact hb.sameFiles ((sameFiles_mqReceive k m len).trans (sameFiles_setGpr0 _ _))
  | timer => exact hb
  | uart =>
    simp only [Core.trapBody]
    split
    · exact hb.sameFiles (sameFiles_setPcb k 0 rfl)
    · exact hb

theorem fsBody_hasBytes {c : FsCall} (h : HasBytes (fsCall k c).2.2 j b) : HasBytes (fsBody k c) j b := by
  unfold fsBody
  rcases hc : fsCall k c with ⟨r, x, k'⟩
  rw [hc] at h
  cases r with
  | none => exact h
  | some r => exact h.sameFiles (sameFiles_setGpr0 k' r)

theorem HasBytes.fsBody (hb : HasBytes k j b) (h : Running own l k) {c : FsCall}
    (hok : editOk j k (.svc (.fs c))) : ∃ b', Edit j k (.svc (.fs c)) b b' ∧ HasBytes (fsBody k c) j b' := by
  obtain ⟨hev, hrange⟩ := hok
  cases c with
  | console n => exact ⟨b, rfl, fsBody_hasBytes hb⟩
  | write fd data n =>
    by_cases hleads : Leads k fd j
    · obtain ⟨b', hb', hover⟩ := hb.fwrite h.fsck h.tables data (tell_end hleads hrange.2 hev.1) (.inl hev.2)
        hrange.1 hleads
      exact ⟨b', ⟨fun _ => hover, fun hn => absurd hleads hn⟩, fsBody_hasBytes hb'⟩
    · have hother := hb.fwrite_other h.fsck h.tables hev.1 (.inl hev.2) hleads
      exact ⟨b, ⟨fun hl => absurd hl hleads, fun _ => rfl⟩, fsBody_hasBytes hother⟩
  | read fd n => exact ⟨b, rfl, fsBody_hasBytes (hb.fread fd n)⟩
  | lseek fd offset whence =>
    obtain ⟨of', he⟩ := lseek_kernel k fd offset whence
    refine ⟨b, rfl, fsBody_hasBytes ?_⟩
    change HasBytes (lseek k fd offset whence).2 j b
    rw [he]
    exact hb
  | wipe => exact hrange.elim
  | «open» path oflag =>
    exact ⟨b, rfl, fsBody_hasBytes (hb.openFile h.fsck hev.1.opensFile oflag fun _ => hev.2)⟩
  | close fd => exact ⟨b, rfl, fsBody_hasBytes (hb.close h.fsck h.tables fd)⟩
  | mkdir name => exact ⟨b, rfl, fsBody_hasBytes (hb.mkdir h.fsck hev.1 hev.2)⟩
  | cd path =>
    obtain ⟨ino, he⟩ := cd_kernel k path
    refine ⟨b, rfl, fsBody_hasBytes ?_⟩
    change HasBytes (cd k path).2 j b
    rw [he]
    exact hb
  | unlink name => exact ⟨b, rfl, fsBody_hasBytes (hb.unlink h.fsck hrange)⟩
  | mv name path => exact ⟨b, rfl, fsBody_hasBytes (hb.mv h.fsck hev.1 hev.2)⟩
  | cp src dest => exact hev.elim
  | tell fd => exact ⟨b, rfl, fsBody_hasBytes hb⟩
  | mqUnlink m => exact ⟨b, rfl, fsBody_hasBytes (hb.sameFiles (sameFiles_mqUnlink k m))⟩
  | other => exact ⟨b, rfl, fsBody_hasBytes hb⟩

theorem HasBytes.powerCycle (hb : HasBytes k j b) (hclosed : ∀ s, Active k s → (k.ai s).iNumber ≠ j)
    (fs : SuperBlock) (stkBlk : Block) (stkIc : ICommon) : HasBytes (powerCycle k fs stkBlk stkIc) j b := by
  obtain ⟨ic, ⟨s, hs, hnum, -⟩ | ⟨-, hlt, hlive, hic⟩, hreg, hbytes⟩ := hb
  · exact absurd hnum (hclosed s hs)
  · refine ⟨ic, .inr ⟨fun s hs => ?_, hlt, hlive, hic⟩, hreg, hbytes⟩
    exact absurd ((idle_powerCycle k fs stkBlk stkIc).ai s).2 hs

theorem HasBytes.step {c : MachineEvent} (hb : HasBytes k j b) (h : Running own l k) (hc : editOk j k c) :
    ∃ b', Edit j k c b b' ∧ HasBytes (eventStep k c) j b' := by
  cases c with
  | svc c =>
    obtain ⟨b', hedit, hbody⟩ : ∃ b', Edit j k (.svc c) b b' ∧ HasBytes (svcBody k c).1 j b' := by
      cases c with
      | trap c => exact ⟨b, rfl, hb.trapBody h hc.1⟩
      | fs c => exact hb.fsBody h hc
    refine ⟨b', hedit, ?_⟩
    simp only [eventStep]
    rcases hk : svcBody k c with ⟨k', again⟩
    rw [hk] at hbody
    cases again with
    | false => exact hbody
    | true =>
      dsimp only
      cases hs : scheduler k' with
      | none => exact hbody
      | some k'' => exact hbody.sameFiles (sameFiles_scheduler hs)
  | reset fs stkBlk stkIc => exact ⟨b, rfl, hb.powerCycle hc.2 fs stkBlk stkIc⟩

theorem HasBytes.run (hb : HasBytes k j b) (h : RunningInv k) {events : List MachineEvent}
    (hc : Along eventStep (editOk j) k events) :
    ∃ b', Edits j k events b b' ∧ HasBytes (run eventStep k events) j b' := by
  induction events generalizing k b with
  | nil => exact ⟨b, rfl, hb⟩
  | cons c rest ih =>
    obtain ⟨hok, hrest⟩ := hc
    have hnext := event_step k c h hok.1
    obtain ⟨own, l, hrun⟩ := h
    obtain ⟨b₁, hedit, hb₁⟩ := hb.step hrun hok
    obtain ⟨b', hedits, hb'⟩ := ih hb₁ hnext hrest
    exact ⟨b', ⟨b₁, hedit, hedits⟩, hb'⟩

end

/-- **Files are byte arrays over whole runs.** From any state that the machine
reaches, a regular file goes through exactly the edits that the writes through
its descriptors ask for; and a read in a state that is reached returns bytes of
the file, or nothing where the file ends too early. -/
theorem files_are_bytes (k₀ : Kernel) (h₀ : Ready k₀) (before events : List MachineEvent)
    (hbefore : Along eventStep eventOk (wiped k₀) before) (j : UInt32) (b : List UInt8)
    (hb : HasBytes (run eventStep (wiped k₀) before) j b)
    (hc : Along eventStep (editOk j) (run eventStep (wiped k₀) before) events) :
    let k := run eventStep (run eventStep (wiped k₀) before) events
    ∃ b', Edits j (run eventStep (wiped k₀) before) events b b' ∧ HasBytes k j b' ∧
      ∀ fd n, Leads k fd j →
        ((tell k fd).toNat + n.toNat ≤ b'.length →
          (fread k fd n).1 = 0 ∧ (fread k fd n).2.1 = (b'.drop (tell k fd).toNat).take n.toNat) ∧
        (b'.length < (tell k fd + n).toNat → fread k fd n = (-1, [], k)) := by
  intro k
  have hrun : RunningInv (run eventStep (wiped k₀) before) :=
    invariant event_step (wiped_seeded h₀).running hbefore
  obtain ⟨b', hedits, hb'⟩ := hb.run hrun hc
  obtain ⟨own, l, hend⟩ : RunningInv k := invariant (fun k c h hok => event_step k c h hok.1) hrun hc
  exact ⟨b', hedits, hb', fun fd n hleads => hb'.reads hend.fsck hend.tables hleads n⟩

/-- A program file is opened and read, and a child is born. -/
def openedFileCalls : List MachineEvent :=
  [.svc (.fs (.open (cstr "P0") .oexist)), .svc (.fs (.read 0 4)), .svc (.trap .fork)]

theorem openedFileCalls_ok {n : Nat} {k : Kernel} (h : Seeded n k) (htrace : k.vol.trace = []) (j : UInt32) :
    Along eventStep (editOk j) k openedFileCalls := by
  have hname : nameOk (cstr "P0") := by
    unfold nameOk
    decide
  refine ⟨⟨⟨h.openOk hname (by decide), ?_⟩, trivial⟩, ⟨trivial, trivial⟩, ⟨trivial, trivial⟩, trivial⟩
  rw [openFile_oexist_vol]
  exact not_failed_of_trace htrace

theorem Stocked.hasBytes {k : Kernel} (h : Stocked 8 k) (j : Fin 8) :
    HasBytes k (pathToIno k.vol (objFiles.getD j.val []) rootDir) (objBytes (k.link.entry j)) := by
  obtain ⟨hlt, hreg, hbytes⟩ := h.holds j
  exact ⟨_, .inr ⟨fun s hs => absurd hs (h.idle s), hlt, by rw [hreg]; decide, rfl⟩, hreg, hbytes⟩

theorem files_are_bytes_program : ∃ j b, HasBytes (wiped blankKernel) j b ∧
    ∃ b', Edits j (wiped blankKernel) openedFileCalls b b' := by
  have hstocked := wiped_stocked ready_blankKernel
  have hb := hstocked.hasBytes 0
  obtain ⟨b', hedits, -⟩ := files_are_bytes blankKernel ready_blankKernel [] openedFileCalls trivial _ _ hb
    (openedFileCalls_ok hstocked.seeded rfl _)
  exact ⟨_, _, hb, b', hedits⟩

end ArmKernel.Core
