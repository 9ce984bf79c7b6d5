import ArmKernel.Core.Commands
import ArmKernel.Fs.CutRemoval

/-! Power failures in the middle of a call. The disk is found as one of the
call's writes left it, and memory is lost. -/
namespace ArmKernel.Core

open Lib Lib.Bytes Lib.Run Fs SuperBlock

section

variable {own own' : Owners} {l l' : List UInt32} {k k' : Kernel} {v v₀ : Vol} {inode : INode}

/-! Writing. The size that a file has grown to is not written, so that the
tree is the old one in every image. -/

theorem allocateDataBlocks_vol (v : Vol) (inode : INode) (bytes : UInt32) :
    (allocateDataBlocks v inode bytes).2.2 = (allocateLoop
      ((inode.iIc.icSize + bytes).toNat / 512 - inode.iIc.icSize.toNat / 512) (inode.iIc.icSize.toNat / 512 + 1)
      v inode).2.2 := by
  unfold allocateDataBlocks
  dsimp only
  rcases allocateLoop _ _ v inode with ⟨b, inode', v'⟩
  cases b with
  | false => rfl
  | true => rfl

theorem growFor_cuts {head n : UInt32} (hg : Good own v l) (hino : inode.iNumber.toNat < 512)
    (hreg : inode.iIc.icMode = Mode.ifreg.code) (hstored : (inodeAt v.disk inode.iNumber).icMode = Mode.ifreg.code)
    (hm : Maps own v.disk inode.iNumber inode.iIc (inode.iIc.icSize.toNat / 512 + 1))
    (hmax : max inode.iIc.icSize.toNat (head + n).toNat < 139 * 512) (hok : ¬Failed (growFor v inode head n).2.2) :
    Cuts (Spares own (· = inode.iNumber) v.disk (shape v.disk)) v (growFor v inode head n).2.2 ∧
      (shape v.disk).Within (shape (growFor v inode head n).2.2.disk) := by
  rcases growFor_grew hino hg.acct hm hmax with ⟨-, hf⟩ | ⟨own', l', inode', v', size, -, -, hlen, -⟩
  · exact absurd hf hok
  unfold growFor
  split
  · next hlt =>
    rw [UInt32.lt_iff_toNat_lt] at hlt
    have hsum : inode.iIc.icSize + (head + n - inode.iIc.icSize) = head + n := by
      rw [UInt32.add_comm, UInt32.sub_add_cancel]
    rw [max_eq_right (by omega)] at hlen
    unfold blocksToGrow at hlen
    rw [allocateDataBlocks_vol, hsum]
    exact allocateLoop_cuts _ hg hino hm (le_of_eq (blockCount_regular hreg)) hreg hstored (by omega) (by omega)
  · exact ⟨.refl v, .refl _⟩

theorem Confined.spares {P : Image → Prop} {N : Nat} (h : Confined P own v₀ l inode N v) (hg : Good own v₀ l)
    (hnot : ¬(shape v₀.disk).Dir inode.iNumber) :
    Spares own (· = inode.iNumber) v₀.disk (shape v₀.disk) v.disk := by
  have hinode : ∀ i, i.toNat < 512 → inodeAt v.disk i = inodeAt v₀.disk i := fun i hi => by
    unfold inodeAt
    rw [h.frame _ fun j hj => (hg.acct.owned _ _ hj).1.ne_inodeBlock hi rfl]
  have hframe : ∀ x i r, own x = some (i, r) → ¬i = inode.iNumber → v.disk x = v₀.disk x := by
    intro x i r hx hi
    refine h.frame x fun j hj => ?_
    rw [hx] at hj
    cases hj
    exact hi rfl
  refine ⟨h.sound.good.survives (hg.within (fun i hi => ?_) fun D hD => ⟨hinode D (lt_of_live hD.live), ?_⟩),
    fun i hi _ => hinode i hi, hframe⟩
  · rw [hinode i (lt_of_live hi)]
  · intro x r hx
    refine hframe x D r hx ?_
    rintro rfl
    exact hnot hD

theorem fwriteLoop_cuts {head : UInt32} {N : Nat} (data : Nat → UInt8) {n m i : Nat} {addr : UInt32} (buf : Block)
    (hmi : m + i = n) (hpos : ∀ i < n, SafePos N (head + UInt32.ofNat i)) (hg : Good own v₀ l)
    (hnot : ¬(shape v₀.disk).Dir inode.iNumber) (h : Confined (fun _ => True) own v₀ l inode N v)
    (ha : SafeAddr own inode addr) :
    Cuts (Spares own (· = inode.iNumber) v₀.disk (shape v₀.disk)) v
      (fwriteLoop inode head data n m i v addr buf).1 := by
  induction m generalizing i v addr buf with
  | zero => exact .refl v
  | succ m ih =>
    unfold fwriteLoop
    dsimp only
    split
    · next hcross =>
      have hw := h.diskWr trivial_good ha (setByte buf ((head + UInt32.ofNat i).toNat % 512) (data i))
      apply (Cuts.diskWr (hw.spares hg hnot)).trans
      refine ih _ (by omega) hw (hw.addr ?_)
      rw [add_ofNat_succ]
      exact hpos (i + 1) (by omega)
    · exact ih _ (by omega) h ha

theorem fwriteBytes_cuts {size head count : UInt32} (hg : Good own v l)
    (hm : Maps own v.disk inode.iNumber inode.iIc (size.toNat / 512 + 1)) (data : Nat → UInt8)
    (hend : (head + count).toNat ≤ size.toNat) (hnot : ¬(shape v.disk).Dir inode.iNumber) :
    Cuts (Spares own (· = inode.iNumber) v.disk (shape v.disk)) v (fwriteBytes v inode head data count) := by
  have h0 : Confined (fun _ => True) own v l inode (size.toNat / 512 + 1) v :=
    ⟨⟨hg, fun _ _ _ => trivial⟩, hm, fun _ _ _ h => h, fun _ _ => rfl⟩
  unfold fwriteBytes
  by_cases hc : intCount count = 0
  · rw [hc]
    exact .diskWr ((h0.rewrite trivial_good _ _).spares hg hnot)
  · have hlt : count.toNat < 2^31 := by
      unfold intCount at hc
      by_contra hge
      rw [if_neg hge] at hc
      exact hc rfl
    have hcount : intCount count = count.toNat := by
      unfold intCount
      rw [if_pos hlt]
    rw [hcount] at hc ⊢
    have hstart := safePos hlt hend (i := 0) (by omega)
    rw [show head + UInt32.ofNat 0 = head by simp] at hstart
    have hpos : ∀ i < count.toNat, SafePos (size.toNat / 512 + 1) (head + UInt32.ofNat i) := fun i hi =>
      safePos hlt hend hi
    have hloop := fwriteLoop_confined trivial_good data (getDataBlock v v.stkBlk inode head).2
      (Nat.add_zero count.toNat) hpos h0 (h0.addr hstart)
    apply (fwriteLoop_cuts data _ (Nat.add_zero count.toNat) hpos hg hnot h0 (h0.addr hstart)).trans
    exact .diskWr ((hloop.1.diskWr trivial_good hloop.2 _).spares hg hnot)

theorem fwrite_cuts (h : Fsck own l k) (ht : Tables k) (fd : Int) (data : Nat → UInt8) (n : UInt32)
    (hend : (writeEnd k fd n).toNat < 11 * 512) (hok : ¬Failed (fwrite k fd data n).2.vol) :
    Cuts (Spares own (Leads k fd) k.vol.disk (shape k.vol.disk)) k.vol (fwrite k fd data n).2.vol := by
  cases hfd : fdEntry k fd with
  | none =>
    simp only [fwrite, hfd]
    exact .refl k.vol
  | some e =>
    obtain ⟨i, o⟩ := e
    obtain ⟨s, hs⟩ := ht.fdEntry hfd
    have hl := h.loaded s (ht.active o s hs)
    have hm := hl.maps
    have hsmall := hl.small
    have hg := h.disk.good
    rw [writeEnd, hfd] at hend
    dsimp only at hend
    rw [fwrite_eq data n hfd hs] at hok ⊢
    dsimp only at hok ⊢
    rw [blockCount_regular hl.regular] at hm
    have hmax : max (k.ai s).iIc.icSize.toNat ((k.of o).oHead + n).toNat < 139 * 512 := by omega
    have hgrown : ¬Failed (growFor k.vol (k.ai s) (k.of o).oHead n).2.2 := fun hf =>
      hok (hf.later (later_fwriteBytes ..))
    obtain ⟨hcuts, hwithin⟩ := growFor_cuts hg hl.number hl.regular hl.stored hm hmax hgrown
    rcases growFor_grew hl.number hg.acct hm hmax with ⟨-, hf⟩ | ⟨own', l', inode', v', size, he, hsize, -, hgrew⟩
    · exact absurd hf hgrown
    have hgood := hgrew.good hg (le_of_eq (blockCount_regular hl.regular))
    have hnum := hgrew.number
    have hstored : (inodeAt v'.disk (k.ai s).iNumber).icMode = Mode.ifreg.code := by
      rcases hgrew.stored with hsame | ⟨hsame, -⟩
      · rw [hsame, hl.stored]
      · rw [hsame, hl.regular]
    rw [show (growFor k.vol (k.ai s) (k.of o).oHead n).2.2 = v' by rw [he]] at hcuts hwithin ⊢
    rw [show (growFor k.vol (k.ai s) (k.of o).oHead n).2.1 = _ by rw [he]]
    have hnot : ¬(shape v'.disk).Dir inode'.iNumber := by
      rw [hnum, Shape.Dir, shape_mode hl.number, hstored]
      decide
    have hbytes : Cuts (Spares own' (· = inode'.iNumber) v'.disk (shape v'.disk)) v' (fwriteBytes v'
        { inode' with iIc := { inode'.iIc with icSize := size } } (k.of o).oHead data n) :=
      fwriteBytes_cuts hgood (hgrew.maps.resize inode'.iIc.icMode size) data (by omega) hnot
    have hleads : ∀ j, j = (k.ai s).iNumber → Leads k fd j := fun j hj => ⟨i, o, s, hfd, hs, hj.symm⟩
    have hrest := (hgrew.intact hg hl.number).mono hleads
    exact (hcuts.mono fun d hd => hd.mono hleads).trans (hbytes.mono fun d hd =>
      (hd.mono fun j hj => hleads j (hj.trans hnum)).of_within hwithin hrest hgrew.ext)

/-! Closing, and with it `exec`: one inode is written, of a regular file. -/

theorem close_cuts (h : Fsck own l k) (ht : Tables k) (fd : Int) :
    Cuts (Spares own (Leads k fd) k.vol.disk (shape k.vol.disk)) k.vol (close k fd).2.vol := by
  cases hfd : fdEntry k fd with
  | none =>
    simp only [close, hfd]
    exact .refl k.vol
  | some e =>
    obtain ⟨i, o⟩ := e
    obtain ⟨s, hs⟩ := ht.fdEntry hfd
    have hl := h.loaded s (ht.active o s hs)
    rw [close_eq hfd hs]
    dsimp only
    rw [vol_unlinkFile]
    split
    · have hcopy : Loaded own k.vol.disk { k.ai s with iLinks := (k.ai s).iLinks - 1 } :=
        ⟨hl.number, hl.regular, hl.stored, hl.maps, hl.small⟩
      have hstore := h.store hcopy
      exact .writeInode h.disk.good.acct.formatted hl.number
        ⟨hstore.disk.good.survives ((h.sameDirs_store hcopy).shape h.disk).within,
          h.disk.good.intact_writeInode hl.number ⟨i, o, s, hfd, hs, rfl⟩⟩
    · exact .refl k.vol

theorem Leads.fread {fd : Int} {j : UInt32} (h : Leads k fd j) (n : UInt32) : Leads (fread k fd n).2.2 fd j := by
  obtain ⟨i, o, s, hfd, hs, hnum⟩ := h
  have hslot : (k.of o).oInptr = some s := hs
  by_cases hshort : (k.ai s).iIc.icSize < (k.of o).oHead + n
  · rw [show (Core.fread k fd n).2.2 = k by simp [Core.fread, hfd, hslot, hshort]]
    exact ⟨i, o, s, hfd, hs, hnum⟩
  · rw [show (Core.fread k fd n).2.2 = setHead k o ((k.of o).oHead + n) by
      simp [Core.fread, hfd, hslot, hshort, setHead]]
    exact (setHead_leads hfd ⟨i, o, s, hfd, hs, hnum⟩ _).1

theorem openFile_leads (k : Kernel) (path : CStr) (hne : (openFile k path .oexist).1 ≠ -1) :
    Leads (openFile k path .oexist).2 (openFile k path .oexist).1 (pathToIno k.vol path rootDir) := by
  rcases openFile_oexist k path _ rfl with ⟨-, hfail, -⟩ | ⟨i, s, o, -, hait, -, he⟩
  · exact absurd hfail hne
  · rw [he]
    exact (linkFile_leads _ i o (getAIT_number hait).1).1

theorem exec_cuts (h : Running own l k) {path : CStr}
    (hok : pathToIno k.vol path rootDir ≠ noAddr → openOk k.vol (strtokCut path)) :
    Cuts (Leaves (· = pathToIno k.vol (strtokCut path) rootDir) k.vol.disk (shape k.vol.disk)) k.vol
      (exec k path).2.vol := by
  have hentry : Cuts (Leaves (· = pathToIno k.vol (strtokCut path) rootDir) k.vol.disk (shape k.vol.disk)) k.vol
      (getProgramEntry k path (word k.vol.stkBlk 0) (word k.vol.stkBlk 1)).2.2.2.vol := by
    unfold getProgramEntry
    split
    · next hino =>
      obtain ⟨own', l', hrun⟩ := h.openFile .oexist (hok hino) fun ho => nomatch ho
      have hvol := openFile_oexist_vol k (strtokCut path)
      have hleads := openFile_leads k (strtokCut path)
      dsimp only
      generalize openFile k (strtokCut path) .oexist = r at hrun hvol hleads
      split
      · next hne =>
        have hread := (hrun.fread r.1 4).fread r.1 4
        have hclose := close_cuts hread.fsck hread.tables r.1
        have hgood := hread.fsck.disk.good
        have hfile := ((hleads hne).fread 4).fread 4
        rw [fread_vol, fread_vol, hvol] at hclose hgood
        exact hclose.mono fun d hd => hd.leaves hgood fun j _ _ hj => hj.unique hfile
      · exact .of_trace (congrArg Vol.trace hvol)
    · exact .refl k.vol
  unfold exec
  dsimp only
  split
  · exact hentry
  · exact hentry

/-! New files and directories. -/

theorem mkdir_cuts (T : UInt32 → Prop) (h : Fsck own l k) {name : CStr} (hname : nameOk name)
    (hok : ¬Failed (mkdir k name).2.vol) :
    Cuts (fun d => Leaves T k.vol.disk (shape k.vol.disk) d ∨
      Leaves T k.vol.disk (shape (mkdir k name).2.vol.disk) d) k.vol (mkdir k name).2.vol := by
  have hg := h.disk.good
  have hf := hg.acct.formatted
  have hlast : Leaves T k.vol.disk (shape (mkdir k name).2.vol.disk) (mkdir k name).2.vol.disk := by
    rcases mkdir_extended trivial_good (Good.sound hg) h.cwd (h.disk.roomy h.cwd)
      (show name.length ≤ 26 from le_trans hname.2.1 (by omega)) with
      ⟨hfail, -⟩ | ⟨own', l', i, ic, v', he, -, -, -, hs', hext⟩
    · exact absurd hfail hok
    · rw [he]
      exact ⟨hs'.good.survives (.refl _), hext.intact.files hg (regular_out h.cwd)⟩
  obtain ⟨hplt, -⟩ := mode_of_dir h.cwd
  rcases getFreeInode_cases hf ⟨0, 0, k.vol.stkIc⟩ with ⟨he, -⟩ | ⟨i, hi, hfree, he⟩
  · simp only [mkdir, he]
    exact .log k.vol rfl
  have hdead := not_live_of_free hi hfree
  have hread := readInode_eq hf hplt ⟨0, 0, k.vol.stkIc⟩
  cases l with
  | nil =>
    refine absurd ?_ hok
    simp only [mkdir, he, balloc_nil hg.acct.free]
    exact ((failed_full k.vol).later (later_diskWr ..)).later (later_writeInode ..) |>.later
      (later_addInodeToDirectory ..)
  | cons a l =>
    set child : INode := ⟨i, 0, { k.vol.stkIc with
      icMode := Mode.ifdir.code, icSize := 64 }.setDb 0 a⟩ with hchild
    have hmode : child.iIc.icMode = Mode.ifdir.code := rfl
    have hlt : child.iNumber.toNat < 512 := hi
    have hdb : child.iIc.db 0 = a := ICommon.db_setDb_self _ _ (by omega)
    have hcount : blockCount child.iIc = 1 := by
      rw [blockCount_dir hmode, show child.iIc.icSize = 64 from rfl]
      rfl
    obtain ⟨fs, -, hb, -⟩ := hg.acct.balloc
    have hcode : mkdir k name = (0, { k with
        vol := (addInodeToDirectory (writeInode
          (diskWr (afterAlloc k.vol fs a) a (newDirBlock (balloc k.vol).2.stkBlk i k.cwd) 512) child)
          ⟨k.cwd, 0, inodeAt k.vol.disk k.cwd⟩ i name).2 }) := by
      simp only [mkdir, he, hread, hb]
      rfl
    rw [hcode] at hok hlast ⊢
    have hcuts := newFile_cuts name hg hlt hdead hdb (by omega) (some (newDirBlock (balloc k.vol).2.stkBlk i k.cwd)) hb
      h.cwd (h.disk.roomy h.cwd) rfl rfl hok
    refine hcuts.mono fun d hd => ?_
    rcases hd with hd | rfl
    · exact .inl (hd.leaves hg (regular_out h.cwd))
    · exact .inr hlast

theorem openFile_cuts (T : UInt32 → Prop) (h : Fsck own l k) {path : CStr} (hok : OpensFile k.vol path) {oflag : OFlag}
    (hfail : oflag = .ocreat → ¬Failed (openFile k path oflag).2.vol) :
    Cuts (fun d => Leaves T k.vol.disk (shape k.vol.disk) d ∨
      Leaves T k.vol.disk (shape (openFile k path oflag).2.vol.disk) d) k.vol (openFile k path oflag).2.vol := by
  cases oflag with
  | oexist =>
    rw [openFile_oexist_vol]
    exact .refl k.vol
  | ocreat =>
    have hvol := (openFile_vol k path .ocreat).1
    have hnot := hfail rfl
    by_cases hfd : getFD k = none
    · rw [if_pos hfd] at hvol
      rw [hvol]
      exact .refl k.vol
    · rw [if_neg hfd] at hvol
      change _ = (pathToIno2 k.vol path rootDir).2 at hvol
      rw [hvol] at hnot ⊢
      rcases h.disk.navigable.pathToIno2_cases hok.along with ⟨he, -⟩ | ⟨-, inode, name, hD, -, he⟩
      · rw [he]
        exact .refl k.vol
      · have hlast : Leaves T k.vol.disk (shape (pathToIno2 k.vol path rootDir).2.disk)
            (pathToIno2 k.vol path rootDir).2.disk := by
          rcases pathToIno2_created h.disk hok.along hok.last with
            ⟨hf, -⟩ | ⟨hsame, -⟩ | ⟨-, own', l', ic, c, rest, -, -, -, -, -, hg', hext⟩
          · exact absurd hf hnot
          · rw [hsame]
            exact ⟨h.disk.good.survives (.refl _), (Intact.refl own T _).files h.disk.good fun _ _ _ ht => ht⟩
          · exact ⟨hg'.survives (.refl _), hext.intact.files h.disk.good (regular_out hD)⟩
        rw [he] at hnot hlast ⊢
        refine (createFile_cuts h.disk.good inode hD (h.disk.roomy hD) hnot).mono fun d hd => ?_
        rcases hd with hd | rfl
        · exact .inl (hd.leaves h.disk.good (regular_out hD))
        · exact .inr hlast

/-! Removal. -/

theorem removed_cuts (h : Consistent own k.vol l) (hcwd : (shape k.vol.disk).Dir k.cwd) {name : CStr} {e : Nat}
    (ht : Takes k name e) :
    Cuts (fun d => Spares own (· = k.cwd) k.vol.disk ((shape k.vol.disk).doubled k.cwd e) d ∨
      d = (removeFromCwd k name).vol.disk) k.vol (removeFromCwd k name).vol := by
  obtain ⟨hlt, hmode⟩ := mode_of_dir hcwd
  obtain ⟨⟨hscan, hmatch, hrem⟩, hfirst⟩ := ht
  have hfind : (List.range (scanLimit (entryCount (inodeAt k.vol.disk k.cwd)))).find? (fun e =>
      nameMatch name (entryBlock k.vol.disk (inodeAt k.vol.disk k.cwd) e) (e % 16) &&
        removable k.vol k.cwd k.ai (getDir (entryBlock k.vol.disk (inodeAt k.vol.disk k.cwd) e) (e % 16)) !=
          noAddr) = some e := by
    refine List.find?_range_eq_some.mpr ⟨?_, List.mem_range.mpr hscan, fun j hj => ?_⟩
    · rw [Bool.and_eq_true, bne_iff_ne]
      exact ⟨hmatch, hrem⟩
    · rw [Bool.not_eq_true', Bool.eq_false_iff, ne_eq, Bool.and_eq_true, bne_iff_ne]
      exact fun hj' => hfirst j hj ⟨lt_trans hj hscan, hj'⟩
  unfold removeFromCwd remove
  rw [readInode_eq h.good.acct.formatted hlt]
  dsimp only
  rw [scanDir_plan h.good.acct (h.navigable.maps hcwd.live) hmode, hfind]
  have he : e < entryCount (inodeAt k.vol.disk k.cwd) := lt_of_lt_of_le hscan (scanLimit_le _)
  exact unlist_cuts h.good hlt rfl rfl hmode (h.aligned _ hcwd) he

theorem TakenOut.freeable (h : Fsck own l k) {name : CStr} {e : Nat} {v₁ : Vol} (ht : TakenOut own l k name v₁ e) :
    let c := (dirEntry k.vol.disk (inodeAt k.vol.disk k.cwd) e).dIno
    c.toNat < 512 ∧ (inodeAt v₁.disk c).icMode ≠ Mode.ifzero.code ∧ (inodeAt v₁.disk c).icSize.toNat ≤ 11 * 512 := by
  have hlive := (h.disk.tree.names _ _ ht.proper).1
  change (shape k.vol.disk).Live (dirEntry k.vol.disk (inodeAt k.vol.disk k.cwd) e).dIno at hlive
  have hlt := lt_of_live hlive
  dsimp only
  rw [ht.unlisted.inodes _ hlt ht.notCwd.symm]
  refine ⟨hlt, ?_, ?_⟩
  · rw [← shape_mode hlt]
    exact hlive
  · rcases h.disk.tree.kinds _ hlive with hD | hreg
    · have hempty := ht.empty hD
      change entryCount _ ≤ 2 at hempty
      unfold entryCount at hempty
      omega
    · exact le_of_lt (h.small _ hlt (by rw [← shape_mode hlt]; exact hreg))

def Unlinks (k : Kernel) (name : CStr) (j : UInt32) : Prop :=
  ∃ e, Takes k name e ∧ (dirEntry k.vol.disk (inodeAt k.vol.disk k.cwd) e).dIno = j

theorem unlink_cuts (h : Fsck own l k) (name : CStr) :
    Cuts (fun d => (∃ e, Takes k name e ∧
        Leaves (Unlinks k name) k.vol.disk ((shape k.vol.disk).doubled k.cwd e) d) ∨
      Leaves (Unlinks k name) k.vol.disk (shape (unlink k name).2.vol.disk) d) k.vol (unlink k name).2.vol := by
  unfold unlink
  split
  · exact .refl k.vol
  · next hdot =>
    dsimp only
    rcases removed_cases h.disk h.cwd hdot with ⟨hino, -, -⟩ | ⟨e, hino, hchild, ht⟩
    · rw [if_neg (by simp [hino])]
      exact .refl k.vol
    · rw [if_pos hino, hchild]
      obtain ⟨hlt, hlive, hsize⟩ := ht.freeable h
      rw [readInode_eq ht.unlisted.good.acct.formatted hlt]
      obtain ⟨hcuts, hstart⟩ := bury_cuts { (removeFromCwd k name).parent with
        iNumber := (dirEntry k.vol.disk (inodeAt k.vol.disk k.cwd) e).dIno
        iIc := inodeAt (removeFromCwd k name).vol.disk (dirEntry k.vol.disk (inodeAt k.vol.disk k.cwd) e).dIno }
        ht.unlisted.good hlt rfl rfl hlive hsize
      have hcwd : ∀ j, j.toNat < 512 → (inodeAt k.vol.disk j).icMode = Mode.ifreg.code → j = k.cwd → Unlinks k name j :=
        fun j hj hreg he => regular_out h.cwd j hj hreg (.inr he)
      have hfirst := ht.unlisted.intact.files h.disk.good hcwd
      -- the blocks that are given back are those of the file
      have hlater : ∀ S d, Spares own (· = (dirEntry k.vol.disk (inodeAt k.vol.disk k.cwd) e).dIno)
          (removeFromCwd k name).vol.disk S d → Leaves (Unlinks k name) k.vol.disk S d := fun S d hd =>
        ⟨hd.tree, hfirst.trans (hd.rest.files ht.unlisted.good fun j _ _ hj => ⟨e, ht.first, hj.symm⟩)⟩
      refine ((removed_cuts h.disk h.cwd ht.first).mono fun d hd => ?_).trans
        (hcuts.mono fun d hd => .inr (hlater _ _ hd))
      rcases hd with hd | rfl
      · exact .inl ⟨e, ht.first, hd.leaves h.disk.good hcwd⟩
      · exact .inr (hlater _ _ hstart)

theorem mv_cuts (T : UInt32 → Prop) (h : Fsck own l k) {name path : CStr} (hok : mvOk k name path)
    (hfail : ¬Failed (mv k name path).2.vol) :
    Cuts (fun d => (∃ e, Takes k name e ∧ (Leaves T k.vol.disk ((shape k.vol.disk).doubled k.cwd e) d ∨
      Leaves T k.vol.disk ((shape k.vol.disk).without k.cwd e) d)) ∨
      Leaves T k.vol.disk (shape (mv k name path).2.vol.disk) d) k.vol (mv k name path).2.vol := by
  rcases mv_cases h.disk h.cwd (hok.imp_right And.left) with he | he | ⟨⟨hdot, hdest, hq⟩, e, ht, he⟩
  · rw [he]
    exact .refl k.vol
  · rw [he]
    refine .updateSb (.inr ?_)
    dsimp only
    rw [h.disk.good.updateSb]
    exact ⟨h.disk.good.survives (.refl _), (Intact.refl own T _).files h.disk.good fun _ _ _ hT => hT⟩
  · rw [he] at hfail ⊢
    obtain ⟨-, hname, hne⟩ := (hok.resolve_left hdot).2 hdest e ht.first.1 ht.first.2
    obtain ⟨own', l', hg, ha⟩ := ht.appended h.disk hq hne (le_trans hname.2.1 (by omega)) hfail
    have hu := ht.unlisted
    have hdisk : (updateSb (movedVol k name path e)).disk = (movedVol k name path e).disk := by rw [hg.updateSb]
    obtain ⟨hqlt, hqmode⟩ := mode_of_dir hq
    have hwithin := without_within h.disk.good h.cwd hu
    have hic : inodeAt k.vol.disk (pathToIno k.vol path rootDir) =
        inodeAt (removeFromCwd k name).vol.disk (pathToIno k.vol path rootDir) := (hu.inodes _ hqlt hne).symm
    have hroomy := h.disk.roomy hq
    have hadded : ¬Failed (movedVol k name path e) := fun hf => hfail (hf.later (later_diskWr ..))
    have hadd : Cuts (fun d => Spares own (· = pathToIno k.vol path rootDir) (removeFromCwd k name).vol.disk
        (shape (removeFromCwd k name).vol.disk) d ∨ d = (movedVol k name path e).disk)
        (removeFromCwd k name).vol (movedVol k name path e) :=
      add_cuts _ _ hu.good hqlt hic hqmode hroomy (room_of_added _ _ hu.good hqlt hic hqmode hroomy hadded)
    -- both directories are none of the files
    have hcwd : ∀ j, j.toNat < 512 → (inodeAt k.vol.disk j).icMode = Mode.ifreg.code → j = k.cwd → T j :=
      fun j hj hreg he => regular_out h.cwd j hj hreg (.inr he)
    have hdest : ∀ j, j.toNat < 512 → (inodeAt (removeFromCwd k name).vol.disk j).icMode = Mode.ifreg.code →
        j = pathToIno k.vol path rootDir → T j := fun j hj hreg he =>
      regular_out (dir_of_mode hqlt (by rw [← hic]; exact hqmode)) j hj hreg (.inr he)
    have hfirst := hu.intact.files h.disk.good hcwd
    have hlast : Leaves T k.vol.disk (shape (updateSb (movedVol k name path e)).disk)
        (movedVol k name path e).disk := by
      rw [hdisk]
      exact ⟨hg.survives (.refl _), hfirst.trans ((ha.intact hu.good).files hu.good hdest)⟩
    refine ((removed_cuts h.disk h.cwd ht.first).mono fun d hd => ?_).trans
      ((hadd.mono fun d hd => ?_).trans (.updateSb (.inr ?_)))
    · refine .inl ⟨e, ht.first, ?_⟩
      rcases hd with hd | rfl
      · exact .inl (hd.leaves h.disk.good hcwd)
      · exact .inr ⟨hu.good.survives hwithin, hfirst⟩
    · rcases hd with hd | rfl
      · exact .inl ⟨e, ht.first, .inr ⟨hd.tree.of_within hwithin, hfirst.trans (hd.rest.files hu.good hdest)⟩⟩
      · exact .inr hlast
    · rwa [← hdisk] at hlast

/-! All calls. -/

/-- What the tree is when the power fails in the middle of a call: the one
before or after it, for a removal also that with the last entry in two places,
and for a move that without the file. -/
inductive CutTree (k : Kernel) (c : Svc) : Shape → Prop where
  | before : CutTree k c (shape k.vol.disk)
  | after : CutTree k c (shape (eventStep k (.svc c)).vol.disk)
  | doubled {name : CStr} {e : Nat} (ht : Takes k name e)
      (hc : c = .fs (.unlink name) ∨ ∃ path, c = .fs (.mv name path)) :
      CutTree k c ((shape k.vol.disk).doubled k.cwd e)
  | moving {name path : CStr} {e : Nat} (ht : Takes k name e) (hc : c = .fs (.mv name path)) :
      CutTree k c ((shape k.vol.disk).without k.cwd e)

def Writes (k : Kernel) : Svc → UInt32 → Prop
  | .trap (.exec path), j => j = pathToIno k.vol (strtokCut path) rootDir
  | .fs (.write fd _ _), j | .fs (.close fd), j => Leads k fd j
  | .fs (.unlink name), j => Unlinks k name j
  | _, _ => False

def CutImage (k : Kernel) (c : Svc) (d : Image) : Prop := ∃ S, CutTree k c S ∧ Leaves (Writes k c) k.vol.disk S d

theorem cuts_before {c : Svc} (h : Cuts (Leaves (Writes k c) k.vol.disk (shape k.vol.disk)) k.vol v) :
    Cuts (CutImage k c) k.vol v :=
  h.mono fun _ hd => ⟨_, .before, hd⟩

theorem cuts_of_vol {c : Svc} (h : v = k.vol) : Cuts (CutImage k c) k.vol v :=
  .of_trace (congrArg Vol.trace h)

theorem trapBody_cuts (h : Running own l k) {c : Trap} (hok : eventOk k (.svc (.trap c))) :
    Cuts (CutImage k (.trap c)) k.vol (trapBody k c).1.vol := by
  cases c with
  | yield => exact .refl k.vol
  | fork => exact cuts_of_vol ((sameFiles_fork k).trans (sameFiles_setGpr0 _ _)).vol
  | exec path => exact cuts_before (exec_cuts h hok)
  | kill pid sig => exact cuts_of_vol (sameFiles_killSig k pid sig).vol
  | raise sig => exact cuts_of_vol (sameFiles_killSig k k.self.pid sig).vol
  | mqOpen name => exact cuts_of_vol ((sameFiles_mqOpen k name).trans (sameFiles_setGpr0 _ _)).vol
  | send m msg => exact cuts_of_vol ((sameFiles_mqSend k m msg).trans (sameFiles_setGpr0 _ _)).vol
  | receive m len => exact cuts_of_vol ((sameFiles_mqReceive k m len).trans (sameFiles_setGpr0 _ _)).vol
  | timer => exact .refl k.vol
  | uart =>
    simp only [trapBody]
    split
    · exact .refl k.vol
    · exact .refl k.vol

theorem CutTree.after_fs (k : Kernel) (c : FsCall) : CutTree k (.fs c) (shape (fsCall k c).2.2.vol.disk) := by
  have hafter : CutTree k (.fs c) (shape (eventStep k (.svc (.fs c))).vol.disk) := .after
  rwa [eventStep_vol, svcBody, fsBody_vol] at hafter

theorem fsBody_cuts (h : Running own l k) {c : FsCall} (hok : fsEventOk k c) (hw : c ≠ .wipe) :
    Cuts (CutImage k (.fs c)) k.vol (fsBody k c).vol := by
  have hafter := CutTree.after_fs k c
  rw [fsBody_vol]
  cases c with
  | console n => exact .refl k.vol
  | write fd data n =>
    exact cuts_before ((fwrite_cuts h.fsck h.tables fd data n hok.1 hok.2).mono fun d hd =>
      hd.leaves h.fsck.disk.good fun _ _ _ hj => hj)
  | read fd n => exact cuts_of_vol (fread_vol k fd n)
  | lseek fd offset whence =>
    refine cuts_of_vol ?_
    change (lseek k fd offset whence).2.vol = k.vol
    obtain ⟨of', he⟩ := lseek_kernel k fd offset whence
    rw [he]
  | wipe => exact absurd rfl hw
  | «open» path oflag =>
    refine (openFile_cuts (Writes k (.fs (.open path oflag))) h.fsck hok.1.opensFile fun _ => hok.2).mono fun d hd => ?_
    rcases hd with hd | hd
    · exact ⟨_, .before, hd⟩
    · exact ⟨_, hafter, hd⟩
  | close fd =>
    exact cuts_before ((close_cuts h.fsck h.tables fd).mono fun d hd =>
      hd.leaves h.fsck.disk.good fun _ _ _ hj => hj)
  | mkdir name =>
    refine (mkdir_cuts (Writes k (.fs (.mkdir name))) h.fsck hok.1 hok.2).mono fun d hd => ?_
    rcases hd with hd | hd
    · exact ⟨_, .before, hd⟩
    · exact ⟨_, hafter, hd⟩
  | cd path =>
    refine cuts_of_vol ?_
    change (cd k path).2.vol = k.vol
    obtain ⟨ino, he⟩ := cd_kernel k path
    rw [he]
  | unlink name =>
    refine (unlink_cuts h.fsck name).mono fun d hd => ?_
    rcases hd with ⟨e, ht, hd⟩ | hd
    · exact ⟨_, .doubled ht (.inl rfl), hd⟩
    · exact ⟨_, hafter, hd⟩
  | mv name path =>
    refine (mv_cuts (Writes k (.fs (.mv name path))) h.fsck hok.1 hok.2).mono fun d hd => ?_
    rcases hd with ⟨e, ht, hd | hd⟩ | hd
    · exact ⟨_, .doubled ht (.inr ⟨path, rfl⟩), hd⟩
    · exact ⟨_, .moving ht rfl, hd⟩
    · exact ⟨_, hafter, hd⟩
  | cp src dest => exact hok.elim
  | tell fd => exact .refl k.vol
  | mqUnlink m => exact cuts_of_vol (sameFiles_mqUnlink k m).vol
  | other => exact .refl k.vol

theorem event_cuts (h : Running own l k) {c : Svc} (hok : eventOk k (.svc c)) (hw : c ≠ .fs .wipe) :
    Cuts (CutImage k c) k.vol (eventStep k (.svc c)).vol := by
  rw [eventStep_vol]
  cases c with
  | trap c => exact trapBody_cuts h hok
  | fs c => exact fsBody_cuts h hok fun he => hw (congrArg Svc.fs he)

end

/-- **The power may fail in the middle of a call.** In every state that the
machine reaches, and after whichever write of whatever call but the one that
formats it, the disk holds the tree before the call or the one after it; a
removal has one image more, where the last entry is in two places, and a move
those where the file is in no directory. No block that this tree needs is free
or has two owners. -/
theorem power_cut (k₀ : Kernel) (h₀ : Ready k₀) (events : List MachineEvent) (c : Svc)
    (hc : Along eventStep eventOk (wiped k₀) (events ++ [.svc c])) (hw : c ≠ .fs .wipe) :
    let k := run eventStep (wiped k₀) events
    Cuts (fun d => ∃ S, CutTree k c S ∧ Survives S d) k.vol (eventStep k (.svc c)).vol := by
  intro k
  rw [along_append] at hc
  obtain ⟨own, l, h⟩ : RunningInv k := invariant event_step (wiped_seeded h₀).running hc.1
  exact (event_cuts h hc.2.1 hw).mono fun d hd => hd.imp fun S hS => ⟨hS.1, hS.2.tree⟩

/-- A program is deleted. -/
theorem power_cut_unlink : Ready blankKernel ∧
    let k := run eventStep (wiped blankKernel) interruptedEvents
    let c : Svc := .fs (.unlink (cstr "P0"))
    Cuts (fun d => ∃ S, CutTree k c S ∧ Survives S d) k.vol (eventStep k (.svc c)).vol :=
  ⟨ready_blankKernel, power_cut blankKernel ready_blankKernel interruptedEvents _ ((along_append _).mpr
    ⟨interruptedEvents_ok (wiped_seeded ready_blankKernel) rfl, trivial, trivial⟩) (by simp)⟩

/-- **Such a failure damages no other file.** After whichever write of a call,
every regular file that the call neither writes to nor deletes is stored with
the bytes that it had. -/
theorem power_cut_files (k₀ : Kernel) (h₀ : Ready k₀) (events : List MachineEvent) (c : Svc)
    (hc : Along eventStep eventOk (wiped k₀) (events ++ [.svc c])) (hw : c ≠ .fs .wipe) :
    let k := run eventStep (wiped k₀) events
    Cuts (FilesStay (Writes k c) k.vol.disk) k.vol (eventStep k (.svc c)).vol := by
  intro k
  rw [along_append] at hc
  obtain ⟨own, l, h⟩ : RunningInv k := invariant event_step (wiped_seeded h₀).running hc.1
  refine (event_cuts h hc.2.1 hw).mono fun d hd => ?_
  obtain ⟨S, -, hS⟩ := hd
  exact hS.files

theorem power_cut_files_unlink : Ready blankKernel ∧
    let k := run eventStep (wiped blankKernel) interruptedEvents
    let c : Svc := .fs (.unlink (cstr "P0"))
    Cuts (FilesStay (Writes k c) k.vol.disk) k.vol (eventStep k (.svc c)).vol :=
  ⟨ready_blankKernel, power_cut_files blankKernel ready_blankKernel interruptedEvents _ ((along_append _).mpr
    ⟨interruptedEvents_ok (wiped_seeded ready_blankKernel) rfl, trivial, trivial⟩) (by simp)⟩

end ArmKernel.Core
