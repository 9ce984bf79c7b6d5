import ArmKernel.Core.Resolution
import ArmKernel.Core.Supervisor
import ArmKernel.Fs.Contents

/-! `cp`. `copyInode` asks for as many bytes as the source has blocks, so nothing
is allocated; the blocks then go to the addresses that an uninitialised inode
happens to hold, and that inode is never written. -/
namespace ArmKernel.Core

open Lib Lib.Bytes Fs SuperBlock

/-- The machine with other contents of the uninitialised locals. -/
def Kernel.withStack (k : Kernel) (blk : Block) (ic : ICommon) : Kernel :=
  { k with vol := { k.vol with stkBlk := blk, stkIc := ic } }

/-- Inode `c` is a copy of file `ino` and stands in the working directory as
`dest`; the other files are as they were. -/
structure IsCopy (k k' : Kernel) (ino c : UInt32) (dest : CStr) : Prop where
  listed : ∃ e < entryCount (inodeAt k'.vol.disk k.cwd),
    (dirEntry k'.vol.disk (inodeAt k'.vol.disk k.cwd) e).Is c dest
  live : (shape k'.vol.disk).Live c
  fresh : ¬(shape k.vol.disk).Live c
  size : (inodeAt k'.vol.disk c).icSize = (inodeAt k.vol.disk ino).icSize
  contents : contents k'.vol.disk (inodeAt k'.vol.disk c) = contents k.vol.disk (inodeAt k.vol.disk ino)
  apart : ∀ j, (shape k'.vol.disk).Live j → j ≠ c → ∀ p q, Place.In (blockCount (inodeAt k'.vol.disk c)) p →
    Place.In (blockCount (inodeAt k'.vol.disk j)) q →
    placeAddr k'.vol.disk (inodeAt k'.vol.disk c) p ≠ placeAddr k'.vol.disk (inodeAt k'.vol.disk j) q
  others : ∀ j, (shape k.vol.disk).Live j → j ≠ k.cwd → inodeAt k'.vol.disk j = inodeAt k.vol.disk j ∧
    ∀ p, Place.In (blockCount (inodeAt k.vol.disk j)) p →
      k'.vol.disk (placeAddr k.vol.disk (inodeAt k.vol.disk j) p) =
        k.vol.disk (placeAddr k.vol.disk (inodeAt k.vol.disk j) p)

/-! Locals that hold no address of the disk. -/

/-- Past the end of the disk, and answered. -/
def strayAddr : UInt32 := 0x7FFFFFFF

def strayBlk : Block := ofWords 512 fun _ => strayAddr

def strayIc : ICommon := ⟨0, 0, Vector.replicate 11 strayAddr, Vector.replicate 3 strayAddr⟩

section

variable {v : Vol}

theorem diskRd_stray (hf : Formatted v) (x : Block) : diskRd v strayAddr x = x := by
  unfold diskRd
  rw [if_neg (by rw [hf.num]; decide)]

theorem diskWr_stray (hf : Formatted v) (x : Block) (n : Nat) : diskWr v strayAddr x n = v := by
  unfold diskWr
  rw [if_neg (by rw [hf.num]; decide)]
  exact v.refuse_answered (by decide)

theorem blockAddr_stray (hf : Formatted v) (hblk : v.stkBlk = strayBlk) {copy : INode}
    (hdb : copy.iIc.icDb = strayIc.icDb) (hib : copy.iIc.icIb = strayIc.icIb) {i : Nat} (hi : i < 139) :
    getDataBlockAddr v copy (UInt32.ofNat (512*i)) = strayAddr := by
  have hindex : (UInt32.ofNat (512*i)).toNat / 512 = i := by
    rw [Nat.mul_comm]
    exact toNat_ofNat_mul (by omega)
  unfold getDataBlockAddr
  dsimp only
  rw [hindex]
  split
  · next h11 =>
    unfold ICommon.db
    rw [hdb]
    simp [strayIc, h11]
  · have hroot : copy.iIc.ib 0 = strayAddr := by
      unfold ICommon.ib
      rw [hib]
      rfl
    rw [singleAddr, hroot, diskRd_stray hf, hblk, strayBlk, word_ofWords _ (by omega)]

theorem copyLoop_stray (hf : Formatted v) (hblk : v.stkBlk = strayBlk) {copy : INode}
    (hdb : copy.iIc.icDb = strayIc.icDb) (hib : copy.iIc.icIb = strayIc.icIb) (inode : INode) {m i : Nat}
    (hm : i + m ≤ 139) (block : Block) : copyLoop copy inode m i v block = v := by
  induction m generalizing i block with
  | zero => rfl
  | succ m ih =>
    unfold copyLoop
    dsimp only
    rw [blockAddr_stray hf hblk hdb hib (by omega), diskWr_stray hf]
    exact ih (by omega) _

theorem copyInode_stray (hf : Formatted v) (hblk : v.stkBlk = strayBlk)
    (hfree : ∃ i : UInt32, i.toNat < 512 ∧ (inodeAt v.disk i).icMode = Mode.ifzero.code) (n : UInt32) {inode : INode}
    (hsmall : inode.iIc.icSize.toNat / 512 + 1 ≤ 139) :
    ∃ i : UInt32, i.toNat < 512 ∧ (inodeAt v.disk i).icMode = Mode.ifzero.code ∧
      (copyInode v ⟨n, 0, strayIc⟩ inode).1.iNumber = i ∧ (copyInode v ⟨n, 0, strayIc⟩ inode).2 = v := by
  rcases getFreeInode_cases hf ⟨n, 0, strayIc⟩ with ⟨-, hall⟩ | ⟨i, hi, hdead, he⟩
  · obtain ⟨i, hi, hdead⟩ := hfree
    exact absurd hdead (hall i hi)
  refine ⟨i, hi, hdead, ?_⟩
  have hbytes : (0 + (inode.iIc.icSize / 512 + 1)).toNat / 512 = 0 := by
    rw [UInt32.zero_add, UInt32.toNat_add, UInt32.toNat_div, show (512 : UInt32).toNat = 512 from rfl,
      show (1 : UInt32).toNat = 1 from rfl, Nat.mod_eq_of_lt (by omega)]
    omega
  have halloc : ∀ copy : INode, copy.iIc.icSize = 0 → allocateDataBlocks v copy (inode.iIc.icSize / 512 + 1) =
      (0 + (inode.iIc.icSize / 512 + 1),
        { copy with iIc := { copy.iIc with icSize := 0 + (inode.iIc.icSize / 512 + 1) } }, v) := by
    intro copy hsize
    unfold allocateDataBlocks
    rw [hsize]
    dsimp only
    rw [hbytes, Nat.zero_sub, allocateLoop]
    dsimp only
    rw [hsize]
  unfold copyInode
  rw [he]
  dsimp only
  rw [halloc _ rfl]
  exact ⟨rfl, copyLoop_stray hf hblk rfl rfl inode (by omega) _⟩

end

section

variable {own : Owners} {k : Kernel} {l : List UInt32} {ino : UInt32} {dest : CStr}

/-- No entry of the working directory has the name. -/
def NewEntry (k : Kernel) (dest : CStr) : Prop :=
  ∀ e < entryCount (inodeAt k.vol.disk k.cwd), ∀ c, ¬(dirEntry k.vol.disk (inodeAt k.vol.disk k.cwd) e).Is c dest

/-- A consistent state in which `src` is a regular file that is not open and
`dest` a new name, with an inode and the blocks that the entry may need free. -/
structure CanCopy (own : Owners) (l : List UInt32) (k : Kernel) (src dest : CStr) (ino : UInt32) : Prop where
  consistent : Consistent own k.vol l
  cwd : (shape k.vol.disk).Dir k.cwd
  source : ∀ blk ic, pathToIno (k.withStack blk ic).vol src k.cwd = ino
  lt : ino.toNat < 512
  regular : (inodeAt k.vol.disk ino).icMode = Mode.ifreg.code
  closed : inAit k.ai ino = false
  free : ∃ i : UInt32, i.toNat < 512 ∧ (inodeAt k.vol.disk i).icMode = Mode.ifzero.code
  room : 2 ≤ l.length
  name : NameFits dest
  new : NewEntry k dest

theorem NewEntry.not_isCopy (h : NewEntry k dest) {k' : Kernel} (hd : k'.vol.disk = k.vol.disk) (c : UInt32) :
    ¬IsCopy k k' ino c dest := by
  intro hc
  obtain ⟨e, he, his⟩ := hc.listed
  rw [hd] at he his
  exact h e he c his

theorem NewEntry.entry_dead (hnew : NewEntry k dest) {v : Vol} (h : Consistent own v l) (hd : v.disk = k.vol.disk)
    (hcwd : (shape k.vol.disk).Dir k.cwd) {i : UInt32} (hi : i.toNat < 512)
    (hdead : (inodeAt k.vol.disk i).icMode = Mode.ifzero.code) (hroom : 2 ≤ l.length) (hlen : dest.length ≤ 26)
    (links : UInt32) {k' : Kernel}
    (hk' : k'.vol = updateSb (addInodeToDirectory v ⟨k.cwd, links, inodeAt v.disk k.cwd⟩ i dest).2) (c : UInt32) :
    ¬IsCopy k k' ino c dest := by
  obtain ⟨hlt, hmode⟩ := mode_of_dir hcwd
  have hown := h.ownBlocks (by rw [hd]; exact hcwd)
  have hne : i ≠ k.cwd := by
    rintro rfl
    rw [hdead] at hmode
    exact absurd hmode (by decide)
  rcases addInodeToDirectory_entered i dest (show (⟨k.cwd, links, inodeAt v.disk k.cwd⟩ : INode).iNumber.toNat < 512
    from hlt) h.good.acct hown.maps hown.dir hown.aligned hown.small with ⟨hl, -, -⟩ | ⟨own', l', hen⟩
  · have := blocksFor_le ((inodeAt v.disk k.cwd).icSize.toNat / 512)
    dsimp only at hl
    omega
  generalize addInodeToDirectory v ⟨k.cwd, links, inodeAt v.disk k.cwd⟩ i dest = r at hen hk'
  obtain ⟨par', v'⟩ := r
  have hgood := (hen.sound (fun _ => True) (fun _ _ _ _ => trivial) ⟨h.good, fun _ _ _ => trivial⟩).good
  have hdisk : k'.vol.disk = v'.disk := by rw [hk', hgood.updateSb]
  have hstored : inodeAt v'.disk k.cwd = par'.iIc := hen.stored
  have hcount : entryCount par'.iIc = entryCount (inodeAt k.vol.disk k.cwd) + 1 := by
    have hsize : par'.iIc.icSize.toNat = (inodeAt v.disk k.cwd).icSize.toNat + 32 := hen.size
    rw [entryCount, entryCount, hsize, hd]
    omega
  intro hc
  obtain ⟨e, he, his⟩ := hc.listed
  have hlive := hc.live
  rw [hdisk] at he his hlive
  rw [hstored] at he his
  rw [hcount] at he
  by_cases hold : e < entryCount (inodeAt k.vol.disk k.cwd)
  · rw [hen.old hlt hown.dir (by dsimp only; rw [hd]; exact hold)] at his
    dsimp only at his
    rw [hd] at his
    exact hnew e hold c his
  · -- the new entry, so `c` is the unused inode
    obtain rfl : e = entryCount (inodeAt k.vol.disk k.cwd) := by omega
    have hnewIs := hen.new hlen
    dsimp only at hnewIs
    rw [hd] at hnewIs
    obtain rfl : i = c := hnewIs.ino.symm.trans his.ino
    rw [Shape.Live, shape_mode hi, hen.inodes i hi hne, hd] at hlive
    exact hlive hdead

theorem CanCopy.stray {src : CStr} (hcan : CanCopy own l k src dest ino) (c : UInt32) :
    ¬IsCopy k (cp (k.withStack strayBlk strayIc) src dest).2 ino c dest := by
  obtain ⟨h, hcwd, hpath, hlt, hreg, -, hfree, hroom, hname, hnew⟩ := hcan
  have hsrc := hpath strayBlk strayIc
  have hlen : dest.length ≤ 26 := Nat.le_succ_of_le hname.short
  have h' : Consistent own (k.withStack strayBlk strayIc).vol l := h.setStack strayBlk strayIc
  have hf := h'.good.acct.formatted
  have hlive : (inodeAt k.vol.disk ino).icMode ≠ Mode.ifzero.code := by
    rw [hreg]
    decide
  have hread : readInode (k.withStack strayBlk strayIc).vol ⟨0, 0, strayIc⟩ ino =
      ⟨ino, 0, inodeAt k.vol.disk ino⟩ := readInode_eq hf hlt _
  have hsmall : (inodeAt k.vol.disk ino).icSize.toNat / 512 + 1 ≤ 139 := by
    have hle := (h.good.maps ino hlt hlive).small
    rwa [blockCount_regular hreg] at hle
  obtain ⟨i, hi, hdead, hnum, hvol⟩ := copyInode_stray hf rfl hfree (word strayBlk 0)
    (show (⟨ino, 0, inodeAt k.vol.disk ino⟩ : INode).iIc.icSize.toNat / 512 + 1 ≤ 139 from hsmall)
  unfold cp
  split
  · exact hnew.not_isCopy (show (k.withStack strayBlk strayIc).vol.disk = k.vol.disk from rfl) c
  · dsimp only
    rw [show (k.withStack strayBlk strayIc).cwd = k.cwd from rfl, hsrc, if_neg (ne_noAddr_of_lt hlt),
      show (k.withStack strayBlk strayIc).vol.stkIc = strayIc from rfl, hread, if_neg hlive]
    generalize hcopy : copyInode (k.withStack strayBlk strayIc).vol
      ⟨word (k.withStack strayBlk strayIc).vol.stkBlk 0, 0, strayIc⟩ ⟨ino, 0, inodeAt k.vol.disk ino⟩ = r
    rw [show copyInode _ ⟨word strayBlk 0, 0, strayIc⟩ _ = r from hcopy] at hnum hvol
    obtain ⟨copy, v⟩ := r
    obtain rfl : v = _ := hvol
    dsimp only at hnum ⊢
    rw [hnum, readInode_eq hf (mode_of_dir hcwd).1]
    exact hnew.entry_dead h' rfl hcwd hi hdead hroom hlen 0 rfl c

/-- **`cp` never makes a copy** that is one whatever the uninitialised locals
hold: with addresses off the disk in them, the new entry names an inode that is
not in use. -/
theorem cp_never_copies {src : CStr} (h : CanCopy own l k src dest ino) :
    ¬∀ blk ic, ∃ c, IsCopy k (cp (k.withStack blk ic) src dest).2 ino c dest := by
  intro hall
  obtain ⟨c, hc⟩ := hall strayBlk strayIc
  exact h.stray c hc

end

section

variable {v : Vol} {a : UInt32} {l : List UInt32}

theorem Blank.canCopy (hb : Blank 64 a v l) (hl : 3 ≤ l.length) :
    ∃ own' l' i, CanCopy own' l' (oneFileRoot v) [97] [98] i := by
  obtain ⟨own, own', l', ic, i, v', he, hlt, hmode, hroom, hcon, hext⟩ := hb.created hl
  have hlists : Lists v' rootDir [(rootDir, [dot]), (i, [97])] :=
    hb.lists.extend hcon.good hext ⟨by decide, by decide, by decide⟩ hlt
  unfold oneFileRoot
  rw [he]
  refine ⟨own', l', i, hcon, hcon.tree.root, fun blk ic => ?_, hlt, ?_, ?_, hb.free_left hext, by omega,
    ⟨by decide, by decide, by decide⟩,
    fun e he c his => ?_⟩
  · refine (hlists.setStack blk ic).pathToIno_eq (e := 1) rfl (by simp [scanLimit]) ?_ fun j y hj hy => ?_
    · simp [slash]
    · obtain rfl : j = 0 := by omega
      obtain rfl := Option.some.inj hy
      simp [dot]
  · change (inodeAt v'.disk i).icMode = _
    rw [hext.self]
    exact hmode
  · refine List.any_eq_false.mpr fun s _ => ?_
    rw [show (((rootKernel v').ai s).iIc.icMode != Mode.ifzero.code) = false from rfl, Bool.and_false]
    exact Bool.false_ne_true
  · change e < entryCount (inodeAt v'.disk rootDir) at he
    rw [hlists.count] at he
    match e with
    | 0 => exact absurd ((hlists.entry 0 _ rfl).initial.symm.trans his.initial) (by decide)
    | 1 => exact absurd ((hlists.entry 1 _ rfl).initial.symm.trans his.initial) (by decide)
    | e+2 => exact absurd he (by simp)

end

/-- The empty file `a` of a new volume, to be copied to `b`. -/
theorem cp_never_copies_empty : ∃ own l ino, CanCopy own l (oneFileRoot (format fullVol)) [97] [98] ino ∧
    ¬∀ blk ic, ∃ c, IsCopy (oneFileRoot (format fullVol))
      (cp ((oneFileRoot (format fullVol)).withStack blk ic) [97] [98]).2 ino c [98] := by
  obtain ⟨l, hlen, hb⟩ := format_blank fullVol rfl
  obtain ⟨own', l', i, hcan⟩ := hb.canCopy (by omega)
  exact ⟨own', l', i, hcan, cp_never_copies hcan⟩

theorem cp_names_unused_inode : ∃ own l ino, CanCopy own l (oneFileRoot (format fullVol)) [97] [98] ino ∧
    ¬∃ c, IsCopy (oneFileRoot (format fullVol))
      (cp ((oneFileRoot (format fullVol)).withStack strayBlk strayIc) [97] [98]).2 ino c [98] := by
  obtain ⟨l, hlen, hb⟩ := format_blank fullVol rfl
  obtain ⟨own', l', i, hcan⟩ := hb.canCopy (by omega)
  refine ⟨own', l', i, hcan, ?_⟩
  rintro ⟨c, hc⟩
  exact hcan.stray c hc

end ArmKernel.Core
