import ArmKernel.Fs.Removal
import ArmKernel.Lib.SwapDelete

/-! `remove` on a directory of any size, whose blocks may lie in any range of
its block map: the entry found is overwritten by the last one and the last one
dropped. -/
namespace ArmKernel.Fs

open Lib Lib.Bytes Lib.SwapDelete SuperBlock

/-! Block maps of any depth. -/

/-- The index blocks that are read for the address of block `blk`. -/
def indexAddrs (v : Vol) (inode : INode) (blk : Nat) : List UInt32 :=
  if blk < 11 then []
  else if blk < 128 + 11 then [inode.iIc.ib 0]
  else if blk < 128*128 + 128 + 11 then
    let block := diskRd v (inode.iIc.ib 1) v.stkBlk
    [inode.iIc.ib 1, word block ((blk - (128 + 11)) / 128)]
  else
    let blk := blk - (128*128 + 128 + 11)
    let block := diskRd v (inode.iIc.ib 2) v.stkBlk
    let next := word block (blk / (128*128))
    [inode.iIc.ib 2, next, word (diskRd v next block) (blk % (128*128) / 128)]

theorem diskRd_congr {v v' : Vol} {a : UInt32} {x : Block} (hnum : v'.num = v.num)
    (h : v'.disk a = v.disk a) : diskRd v' a x = diskRd v a x := by
  unfold diskRd
  rw [hnum, h]

theorem getDataBlockAddr_congr {v v' : Vol} {inode inode' : INode} {byte : UInt32} (hnum : v'.num = v.num)
    (hstk : v'.stkBlk = v.stkBlk) (hdb : inode'.iIc.icDb = inode.iIc.icDb)
    (hib : inode'.iIc.icIb = inode.iIc.icIb)
    (h : ∀ t ∈ indexAddrs v inode (byte.toNat / 512), v'.disk t = v.disk t) :
    getDataBlockAddr v' inode' byte = getDataBlockAddr v inode byte := by
  have hdb' : ∀ i, inode'.iIc.db i = inode.iIc.db i := fun i => by simp only [ICommon.db, hdb]
  have hib' : ∀ i, inode'.iIc.ib i = inode.iIc.ib i := fun i => by simp only [ICommon.ib, hib]
  unfold indexAddrs at h
  unfold getDataBlockAddr
  dsimp only
  split
  · exact hdb' _
  · next h11 =>
    rw [if_neg h11] at h
    split
    · next h139 =>
      rw [if_pos h139] at h
      rw [List.forall_mem_singleton] at h
      unfold singleAddr
      rw [hib', hstk, diskRd_congr hnum h]
    · next h139 =>
      rw [if_neg h139] at h
      split
      · next hdouble =>
        rw [if_pos hdouble] at h
        simp only [List.forall_mem_cons] at h
        obtain ⟨h0, h1, -⟩ := h
        unfold doubleAddr
        dsimp only
        rw [hib', hstk, diskRd_congr hnum h0, diskRd_congr hnum h1]
      · next hdouble =>
        rw [if_neg hdouble] at h
        simp only [List.forall_mem_cons] at h
        obtain ⟨h0, h1, h2, -⟩ := h
        split
        · unfold tripleAddr
          dsimp only
          rw [hib', hstk, diskRd_congr hnum h0, diskRd_congr hnum h1, diskRd_congr hnum h2]
        · rfl

def InodeArea (a : UInt32) : Prop := 2 ≤ a.toNat ∧ a.toNat < 66

theorem inodeArea_inodeBlock {i : UInt32} (hi : i.toNat < 512) : InodeArea (inodeBlock i) := by
  have hlt := inodeBlock_lt hi
  have heq := inodeBlock_toNat hi
  exact ⟨by omega, hlt⟩

def dirBlocks (ic : ICommon) : Nat := (entryCount ic + 15) / 16

/-- The blocks of a directory are on the disk, apart from one another, from the
index blocks that lead to them and from the inodes. -/
structure MapApart (v : Vol) (inode : INode) : Prop where
  aligned : inode.iIc.icSize.toNat % 32 = 0
  valid : ∀ i < dirBlocks inode.iIc, (blockAddr v inode i).toNat < v.num
  inj : ∀ i < dirBlocks inode.iIc, ∀ j < dirBlocks inode.iIc, blockAddr v inode i = blockAddr v inode j → i = j
  area : ∀ i < dirBlocks inode.iIc, ¬InodeArea (blockAddr v inode i)
  index : ∀ i < dirBlocks inode.iIc, ∀ t ∈ indexAddrs v inode i, ¬InodeArea t ∧
    ∀ j < dirBlocks inode.iIc, t ≠ blockAddr v inode j

/-- Entry `e` of a directory, by the reader of its block map. -/
def entryOf (v : Vol) (inode : INode) (e : Nat) : DirEnt :=
  getDir (v.disk (blockAddr v inode (e / 16))) (e % 16)

def entryList (v : Vol) (inode : INode) : List DirEnt :=
  (List.range (entryCount inode.iIc)).map (entryOf v inode)

section

variable {v : Vol} {inode : INode} {e : Nat}

theorem entryList_getElem? (v : Vol) (inode : INode) (e : Nat) :
    (entryList v inode)[e]? = if e < entryCount inode.iIc then some (entryOf v inode e) else none := by
  unfold entryList
  rw [List.getElem?_map]
  split
  · next h => simp [h]
  · next h => simp [h]

theorem entryList_getLast? (h : 0 < entryCount inode.iIc) :
    (entryList v inode).getLast? = some (entryOf v inode (entryCount inode.iIc - 1)) := by
  rw [List.getLast?_eq_getElem?, entryList_getElem?, show (entryList v inode).length = entryCount inode.iIc by
    simp [entryList], if_pos (by omega)]

theorem getDataBlockAddr_block {a b : UInt32} (h : a.toNat / 512 = b.toNat / 512) :
    getDataBlockAddr v inode a = getDataBlockAddr v inode b := by
  unfold getDataBlockAddr
  rw [h]

theorem div_lt_dirBlocks {ic : ICommon} (h : e < entryCount ic) : e / 16 < dirBlocks ic := by
  unfold dirBlocks
  omega

theorem MapApart.last (h : MapApart v inode) (hpos : 0 < entryCount inode.iIc) :
    getLastDir v inode = entryOf v inode (entryCount inode.iIc - 1) := by
  have h32 := h.aligned
  have hlt := inode.iIc.icSize.toNat_lt
  have hvalid := h.valid _ (div_lt_dirBlocks (show entryCount inode.iIc - 1 < entryCount inode.iIc by omega))
  unfold entryCount at hpos
  have hsub : (inode.iIc.icSize - 32).toNat = inode.iIc.icSize.toNat - 32 :=
    UInt32.toNat_sub_of_le _ _ (UInt32.le_iff_toNat_le.mpr (show 32 ≤ _ by omega))
  have hdiv : (inode.iIc.icSize / 32).toNat = inode.iIc.icSize.toNat / 32 := UInt32.toNat_div ..
  have hone : (inode.iIc.icSize / 32 - 1).toNat = entryCount inode.iIc - 1 := by
    rw [UInt32.toNat_sub_of_le _ _ (UInt32.le_iff_toNat_le.mpr (by rw [hdiv]; show 1 ≤ _; omega)), hdiv]
    rfl
  have haddr : getDataBlockAddr v inode (inode.iIc.icSize - 32) =
      blockAddr v inode ((entryCount inode.iIc - 1) / 16) := by
    apply getDataBlockAddr_block
    rw [hsub, UInt32.toNat_ofNat']
    unfold entryCount
    omega
  unfold getLastDir entryOf
  simp only [getDataBlock]
  rw [haddr, hone, diskRd_lt _ _ hvalid]

theorem MapApart.scan (h : MapApart v inode) (p : Block → Nat → Bool) (x : Block) :
    scanDir v inode p (scanPlan (inode.iIc.icSize.toNat / 32)) x =
      ((List.range (scanLimit (entryCount inode.iIc))).find? fun e =>
        p (v.disk (blockAddr v inode (e / 16))) (e % 16)).map fun e =>
          (blockAddr v inode (e / 16), v.disk (blockAddr v inode (e / 16)), e % 16) := by
  rw [scanDir_blocks p _ x fun b hb => ?_, flatMap_scanPlan]
  · rfl
  · obtain ⟨h16, hlt⟩ := bound_scanPlan hb
    have hi : b.1 < dirBlocks inode.iIc := by
      unfold dirBlocks entryCount
      omega
    exact ⟨h16, h.valid _ hi⟩

theorem MapApart.remove_ino (h : MapApart v inode) {cwd : UInt32} {ai : ActiveInodes} {child : DirEnt} {name : CStr}
    (he : ((List.range (scanLimit (entryCount inode.iIc))).find? fun e =>
      nameMatch name (v.disk (blockAddr v inode (e / 16))) (e % 16) &&
        removable v cwd ai (getDir (v.disk (blockAddr v inode (e / 16))) (e % 16)) != noAddr) = some e) :
    (remove v cwd ai child inode name).ino = (getDir (v.disk (blockAddr v inode (e / 16))) (e % 16)).dIno := by
  unfold remove
  dsimp only
  rw [h.scan, he]
  rfl

end

/-! One call of `remove`. -/

/-- Entry `e` of directory `p`, which is not in use and no directory with
entries of its own, is gone; nothing else is. -/
structure Deleted (v v' : Vol) (cwd : UInt32) (ai : ActiveInodes) (inode : INode) (p : UInt32) (child : DirEnt)
    (e : Nat) : Prop where
  found : (entryList v (readInode v inode p))[e]? = some child
  list : ∃ last, (entryList v (readInode v inode p)).getLast? = some last ∧
    entryList v' (readInode v' inode p) = swapDelete (entryList v (readInode v inode p)) e last
  entries : (entryList v (readInode v inode p)).Perm (child :: entryList v' (readInode v' inode p))
  shrunk : inodeAt v'.disk p = { inodeAt v.disk p with icSize := (inodeAt v.disk p).icSize - 32 }
  size : (inodeAt v'.disk p).icSize.toNat + 32 = (inodeAt v.disk p).icSize.toNat
  notCwd : child.dIno ≠ cwd
  inactive : ∀ s, (ai s).iNumber = child.dIno → (ai s).iIc.icMode = Mode.ifzero.code
  small : ¬((readInode v ⟨0, 0, v.stkIc⟩ child.dIno).iIc.icMode = Mode.ifdir.code ∧
    64 < (readInode v ⟨0, 0, v.stkIc⟩ child.dIno).iIc.icSize)
  blocks : ∀ x, x ≠ blockAddr v (readInode v inode p) (e / 16) → x ≠ inodeBlock p → v'.disk x = v.disk x
  inodes : ∀ j, j.toNat < 512 → j ≠ p → inodeAt v'.disk j = inodeAt v.disk j
  superblock : v'.fs = v.fs

section

variable {v : Vol} {parent : INode} {e : Nat}

/-- The volume once entry `e` is overwritten by the last one. -/
def overwritten (v : Vol) (parent : INode) (e : Nat) : Vol :=
  v.put (blockAddr v parent (e / 16))
    (setDir (v.disk (blockAddr v parent (e / 16))) (e % 16) (entryOf v parent (entryCount parent.iIc - 1)))

def shortened (parent : INode) : INode :=
  { parent with iIc := { parent.iIc with icSize := parent.iIc.icSize - 32 } }

theorem size_shortened (h : 32 ≤ parent.iIc.icSize.toNat) :
    (shortened parent).iIc.icSize.toNat = parent.iIc.icSize.toNat - 32 :=
  UInt32.toNat_sub_of_le _ _ (UInt32.le_iff_toNat_le.mpr h)

theorem entryCount_shortened (h : 32 ≤ parent.iIc.icSize.toNat) :
    entryCount (shortened parent).iIc = entryCount parent.iIc - 1 := by
  unfold entryCount
  rw [size_shortened h]
  omega

theorem overwritten_formatted (hf : Formatted v) : Formatted (overwritten v parent e) :=
  hf.of_header rfl fun _ _ => rfl

theorem deleted_disk (hf : Formatted v) (hp : parent.iNumber.toNat < 512) {x : UInt32}
    (hx : x ≠ inodeBlock parent.iNumber) :
    (writeInode (overwritten v parent e) (shortened parent)).disk x = (overwritten v parent e).disk x :=
  writeInode_disk_ne (overwritten_formatted hf) hp hx

theorem MapApart.blockAddr_deleted (h : MapApart v parent) (hf : Formatted v)
    (hp : parent.iNumber.toNat < 512) (he : e < entryCount parent.iIc) {i : Nat} (hi : i < dirBlocks parent.iIc) :
    blockAddr (writeInode (overwritten v parent e) (shortened parent)) (shortened parent) i =
      blockAddr v parent i := by
  have hlt := parent.iIc.icSize.toNat_lt
  have hblk : (UInt32.ofNat (512 * i)).toNat / 512 = i := by
    unfold dirBlocks entryCount at hi
    rw [UInt32.toNat_ofNat', Nat.mod_eq_of_lt (by omega)]
    omega
  refine getDataBlockAddr_congr (writeInode_num ..) (writeInode_stkBlk ..) rfl rfl fun t ht => ?_
  rw [hblk] at ht
  obtain ⟨harea, hdata⟩ := h.index i hi t ht
  have hblock : t ≠ inodeBlock parent.iNumber := by
    rintro rfl
    exact harea (inodeArea_inodeBlock hp)
  rw [deleted_disk hf hp hblock]
  exact put_disk_ne _ _ (hdata _ (div_lt_dirBlocks he))

theorem MapApart.entryOf_deleted (h : MapApart v parent) (hf : Formatted v)
    (hp : parent.iNumber.toNat < 512) (he : e < entryCount parent.iIc) {i : Nat} (hi : i < entryCount parent.iIc) :
    entryOf (writeInode (overwritten v parent e) (shortened parent)) (shortened parent) i =
      if i = e then entryOf v parent (entryCount parent.iIc - 1) else entryOf v parent i := by
  have hib := div_lt_dirBlocks hi
  have heb := div_lt_dirBlocks he
  have hblock : blockAddr v parent (i / 16) ≠ inodeBlock parent.iNumber := fun heq => by
    have := h.area _ hib
    rw [heq] at this
    exact this (inodeArea_inodeBlock hp)
  unfold entryOf
  rw [h.blockAddr_deleted hf hp he hib, deleted_disk hf hp hblock, overwritten]
  by_cases hsame : i / 16 = e / 16
  · rw [hsame, put_disk_self]
    split
    · next hie => rw [hie, getDir_setDir_self _ _ (by omega), entryOf]
    · rw [getDir_setDir_ne _ _ (by omega) (by omega)]
  · have hne : blockAddr v parent (i / 16) ≠ blockAddr v parent (e / 16) := fun heq =>
      hsame (h.inj _ hib _ heb heq)
    rw [put_disk_ne _ _ hne, if_neg (by rintro rfl; exact hsame rfl)]

theorem MapApart.entryList_deleted (h : MapApart v parent) (hf : Formatted v)
    (hp : parent.iNumber.toNat < 512) (he : e < entryCount parent.iIc) :
    entryList (writeInode (overwritten v parent e) (shortened parent)) (shortened parent) =
      swapDelete (entryList v parent) e (entryOf v parent (entryCount parent.iIc - 1)) := by
  have h32 : 32 ≤ parent.iIc.icSize.toNat := by
    unfold entryCount at he
    omega
  have hlen : (entryList v parent).length = entryCount parent.iIc := by simp [entryList]
  apply List.ext_getElem?
  intro i
  rw [entryList_getElem?, entryCount_shortened h32, swapDelete, List.getElem?_dropLast, List.length_set, hlen,
    List.getElem?_set, entryList_getElem?]
  by_cases hi : i < entryCount parent.iIc - 1
  · rw [if_pos hi, if_pos hi, h.entryOf_deleted hf hp he (by omega)]
    by_cases hie : i = e
    · rw [if_pos hie, if_pos hie.symm, hlen, if_pos he]
    · rw [if_neg hie, if_neg (Ne.symm hie), if_pos (by omega)]
  · rw [if_neg hi, if_neg hi]

end

theorem remove_one_entry {v : Vol} {p : UInt32} (inode : INode) (hf : Formatted v) (hp : p.toNat < 512)
    (hmap : MapApart v (readInode v inode p)) (cwd : UInt32) (ai : ActiveInodes) (child : DirEnt) (name : CStr) :
    ((remove v cwd ai child (readInode v inode p) name).ino = noAddr →
      (remove v cwd ai child (readInode v inode p) name).vol = v ∧
      (remove v cwd ai child (readInode v inode p) name).parent = readInode v inode p) ∧
    ((remove v cwd ai child (readInode v inode p) name).ino ≠ noAddr →
      (remove v cwd ai child (readInode v inode p) name).child.dIno =
        (remove v cwd ai child (readInode v inode p) name).ino ∧
      ∃ e, Deleted v (remove v cwd ai child (readInode v inode p) name).vol cwd ai inode p
        (remove v cwd ai child (readInode v inode p) name).child e) := by
  set parent := readInode v inode p with hparent
  have hread : parent = { inode with iNumber := p, iIc := inodeAt v.disk p } := readInode_eq hf hp inode
  have hnum : parent.iNumber = p := rfl
  have hp' : parent.iNumber.toNat < 512 := hp
  have hic : parent.iIc = inodeAt v.disk p := by rw [hread]
  unfold remove
  dsimp only
  rw [hmap.scan]
  cases hfind : (List.range (scanLimit (entryCount parent.iIc))).find? fun e =>
      nameMatch name (v.disk (blockAddr v parent (e / 16))) (e % 16) &&
        removable v cwd ai (getDir (v.disk (blockAddr v parent (e / 16))) (e % 16)) != noAddr with
  | none => exact ⟨fun _ => ⟨rfl, rfl⟩, fun h => absurd rfl h⟩
  | some e =>
    have he : e < entryCount parent.iIc :=
      lt_of_lt_of_le (List.mem_range.mp (List.mem_of_find?_eq_some hfind)) (scanLimit_le _)
    have hhit := List.find?_some hfind
    rw [Bool.and_eq_true, bne_iff_ne] at hhit
    obtain ⟨hno, hcwd, hait, hbig⟩ := removable_ne hhit.2
    simp only [Option.map_some]
    refine ⟨fun h => absurd h hno, fun _ => ⟨trivial, e, ?_⟩⟩
    have hvalid := hmap.valid _ (div_lt_dirBlocks he)
    rw [hmap.last (by omega), diskWr_put _ _ hvalid]
    change Deleted v (writeInode (overwritten v parent e) (shortened parent)) cwd ai inode p (entryOf v parent e) e
    have h32 : 32 ≤ parent.iIc.icSize.toNat := by
      unfold entryCount at he
      omega
    have hf₂ : Formatted (writeInode (overwritten v parent e) (shortened parent)) :=
      (overwritten_formatted hf).of_header (writeInode_num ..) fun _ _ => by rw [writeInode_fs]
    have hshort : (shortened parent).iNumber.toNat < 512 := hp
    have hself : inodeAt (writeInode (overwritten v parent e) (shortened parent)).disk p = (shortened parent).iIc :=
      inodeAt_writeInode_self (overwritten_formatted hf) hshort
    have hread₂ : readInode (writeInode (overwritten v parent e) (shortened parent)) inode p =
        shortened parent := by
      rw [readInode_eq hf₂ hp, hself]
      rfl
    have hlist := hmap.entryList_deleted hf hp' he
    have hlast : (entryList v parent).getLast? = some (entryOf v parent (entryCount parent.iIc - 1)) :=
      entryList_getLast? (by omega)
    have hget : (entryList v parent)[e]? = some (entryOf v parent e) := by rw [entryList_getElem?, if_pos he]
    obtain ⟨hlt, hval⟩ := List.getElem?_eq_some_iff.mp hget
    refine ⟨hget, ⟨_, hlast, by rw [hread₂, hlist]⟩, ?_, ?_, ?_, hcwd, fun s hs => ?_, hbig, fun x hx hxp => ?_,
      fun j hj hne => ?_, ?_⟩
    · rw [hread₂, hlist, ← hval]
      exact swapDelete_perm hlt hlast
    · rw [hself, ← hic]
      rfl
    · rw [hself, size_shortened h32, ← hic]
      omega
    · by_contra hmode
      exact not_inAit hait s hmode hs
    · rw [deleted_disk hf hp' hxp]
      exact put_disk_ne _ _ hx
    · rw [inodeAt_writeInode_ne (overwritten_formatted hf) hshort hj hne]
      refine inodeAt_put_ne _ fun heq => ?_
      have := hmap.area _ (div_lt_dirBlocks he)
      rw [heq] at this
      exact this (inodeArea_inodeBlock hj)
    · rw [writeInode_fs]
      rfl

/-! Eighteen entries in two blocks. -/

/-- Entry `e`, named by one letter, `a` first. -/
def letterEntry (e : Nat) : DirEnt := ⟨UInt32.ofNat (e+1), 1, Vector.replicate 26 (UInt8.ofNat (97+e))⟩

def letterBlock (b : Nat) : Block := tabulate 512 fun p => (letterEntry (16*b + p/32)).toByte (p%32)

theorem getDir_letterBlock (b : Nat) {r : Nat} (hr : r < 16) : getDir (letterBlock b) r = letterEntry (16*b + r) := by
  apply DirEnt.ext_bytes
  intro k hk
  rw [toByte_getDir _ _ hk, letterBlock, byte_tabulate _ (by omega), show (32*r+k) / 32 = r by omega,
    show (32*r+k) % 32 = k by omega]

def letterIc : ICommon :=
  ⟨Mode.ifdir.code, 576, Vector.ofFn fun i => UInt32.ofNat (66 + i.val), Vector.replicate 3 0⟩

/-- A blank disk but for a directory of the letters `a` to `r`. -/
def letterVol : Vol := { fullVol with
  disk := Function.update (Function.update (Function.update fullVol.disk 66 (letterBlock 0)) 67 (letterBlock 1)) 2
    (setIc zeroBlock 0 letterIc) }

theorem letterVol_formatted : Formatted letterVol := fullVol_formatted.of_header rfl fun _ _ => rfl

theorem letterVol_inodes : letterVol.disk 2 = setIc zeroBlock 0 letterIc := by
  simp [letterVol]

theorem letterVol_read (inode : INode) : readInode letterVol inode 0 = { inode with iNumber := 0, iIc := letterIc } := by
  rw [readInode_eq letterVol_formatted (by decide), inodeAt, show inodeBlock 0 = 2 by decide, letterVol_inodes,
    show (0 : UInt32).toNat % 8 = 0 from rfl, getIc_setIc_self _ _ (by omega)]

theorem letterVol_mode : (readInode letterVol ⟨0, 0, letterVol.stkIc⟩ 6).iIc.icMode = 0 := by
  rw [readInode_eq letterVol_formatted (by decide), inodeAt, show inodeBlock 6 = 2 by decide, letterVol_inodes,
    show (6 : UInt32).toNat % 8 = 6 from rfl, getIc_setIc_ne _ _ (by omega) (by omega)]
  exact word_zeroBlock _

theorem letterVol_addr (inode : INode) {b : Nat} (hb : b < 2) :
    blockAddr letterVol (readInode letterVol inode 0) b = UInt32.ofNat (66 + b) := by
  rw [letterVol_read]
  obtain rfl | rfl : b = 0 ∨ b = 1 := by omega
  · rfl
  · rfl

theorem letterVol_block {b : Nat} (hb : b < 2) : letterVol.disk (UInt32.ofNat (66 + b)) = letterBlock b := by
  obtain rfl | rfl : b = 0 ∨ b = 1 := by omega
  · simp [letterVol]
  · simp [letterVol]

theorem letterVol_apart (inode : INode) : MapApart letterVol (readInode letterVol inode 0) := by
  have htwo : ∀ i < dirBlocks (readInode letterVol inode 0).iIc, i < 2 := by
    rw [letterVol_read]
    have : dirBlocks letterIc = 2 := by decide
    exact fun i hi => lt_of_lt_of_eq hi this
  have haddr : ∀ i < dirBlocks (readInode letterVol inode 0).iIc,
      (blockAddr letterVol (readInode letterVol inode 0) i).toNat = 66 + i := fun i hi => by
    have := htwo i hi
    rw [letterVol_addr inode this, UInt32.toNat_ofNat', Nat.mod_eq_of_lt (by omega)]
  refine ⟨?_, fun i hi => ?_, fun i hi j hj he => ?_, fun i hi => ?_, fun i hi t ht => ?_⟩
  · rw [letterVol_read]
    exact (by decide : letterIc.icSize.toNat % 32 = 0)
  · have := htwo i hi
    rw [haddr i hi]
    change 66 + i < 2048
    omega
  · have := congrArg UInt32.toNat he
    rw [haddr i hi, haddr j hj] at this
    omega
  · unfold InodeArea
    rw [haddr i hi]
    omega
  · have := htwo i hi
    rw [indexAddrs, if_pos (by omega)] at ht
    exact absurd ht List.not_mem_nil

theorem letterVol_entry {e : Nat} (he : e < 32) :
    getDir (letterVol.disk (blockAddr letterVol (readInode letterVol blankInode 0) (e / 16))) (e % 16) =
      letterEntry e := by
  rw [letterVol_addr _ (by omega), letterVol_block (by omega), getDir_letterBlock _ (by omega), Nat.div_add_mod]

theorem letterBlock_match {b r : Nat} (hr : r < 16) (hb : b < 2) :
    nameMatch [102] (letterBlock b) r = true ↔ 16*b + r = 5 := by
  constructor
  · intro hmatch
    have hinit := nameMatch_initial hmatch
    rw [getDir_letterBlock b hr, DirEnt.initial, letterEntry] at hinit
    have := congrArg UInt8.toNat hinit
    simp at this
    omega
  · intro he
    obtain ⟨rfl, rfl⟩ : b = 0 ∧ r = 5 := by omega
    unfold nameMatch
    rw [getDir_letterBlock 0 hr]
    simp [strncmpEq, strlen, letterEntry, letterBlock, byte_tabulate, DirEnt.toByte]

theorem letterVol_found :
    (remove letterVol 7 (fun _ => blankInode) (getDir zeroBlock 0) (readInode letterVol blankInode 0) [102]).ino = 6 := by
  have hlimit : scanLimit (entryCount (readInode letterVol blankInode 0).iIc) = 18 := by
    rw [letterVol_read]
    decide
  have hmatch : ∀ e < 18, nameMatch [102] (letterVol.disk (blockAddr letterVol (readInode letterVol blankInode 0)
      (e / 16))) (e % 16) = true ↔ e = 5 := fun e he => by
    rw [letterVol_addr _ (by omega), letterVol_block (by omega), letterBlock_match (by omega) (by omega),
      Nat.div_add_mod]
  have hremovable : removable letterVol 7 (fun _ => blankInode) (letterEntry 5) = 6 := by
    unfold removable
    rw [if_neg (by decide), if_neg (by simp [inAit, blankInode, letterEntry])]
    dsimp only [letterEntry]
    rw [show UInt32.ofNat (5+1) = 6 from rfl, letterVol_mode, if_neg (by decide)]
  rw [(letterVol_apart blankInode).remove_ino (e := 5), letterVol_entry (by omega)]
  · rfl
  · rw [hlimit, List.find?_range_eq_some]
    refine ⟨?_, List.mem_range.mpr (by omega), fun j hj => ?_⟩
    · rw [Bool.and_eq_true, (hmatch 5 (by omega)), letterVol_entry (by omega), hremovable]
      exact ⟨rfl, by decide⟩
    · have hno : ¬_ := (not_congr (hmatch j (by omega))).mpr (by omega)
      rw [Bool.not_eq_true] at hno
      rw [hno]
      rfl

/-- `f`, the sixth, is removed. -/
theorem remove_one_entry_f : ∃ e, Deleted letterVol
    (remove letterVol 7 (fun _ => blankInode) (getDir zeroBlock 0) (readInode letterVol blankInode 0) [102]).vol 7
    (fun _ => blankInode) blankInode 0
    (remove letterVol 7 (fun _ => blankInode) (getDir zeroBlock 0) (readInode letterVol blankInode 0) [102]).child
    e := by
  have h := remove_one_entry blankInode letterVol_formatted (by decide) (letterVol_apart blankInode) 7
    (fun _ => blankInode) (getDir zeroBlock 0) [102]
  exact (h.2 (by rw [letterVol_found]; decide)).2

end ArmKernel.Fs
